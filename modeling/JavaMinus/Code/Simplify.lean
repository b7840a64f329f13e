import JavaMinus.Code.Constants
import JavaMinus.Code.Liveness
import JavaMinus.Code.Text

/-!
# Simplification of a method

A round puts constants in, removes jumps and labels that are not needed, and
removes writes to registers that are not read again. Rounds go on until one
leaves the text of the method as it was. Then declarations of registers that no
longer occur are dropped.

Every round that changes the code makes it lighter (`weight`): it drops an
instruction, puts a number in place of a register, or turns an operator or a
branch into something plainer. The weight of the method therefore bounds the
number of rounds.
-/

namespace JavaMinus.Code

/-! ## Jumps and labels -/

/-- A label is among the labels that the code starts with. -/
def labelAhead (name : String) : List Inst → Bool
  | .label n :: rest => n = name || labelAhead name rest
  | _ => false

/-- Drop each jump to a label that follows it with only labels in between. -/
def dropIdleJumps : List Inst → List Inst
  | [] => []
  | .goto t :: rest => if labelAhead t rest then dropIdleJumps rest else .goto t :: dropIdleJumps rest
  | i :: rest => i :: dropIdleJumps rest

/-- The labels that the code jumps to. -/
def jumpTargets (code : List Inst) : List String := code.filterMap Inst.target?

/-- An instruction that stays when only labels of a list are jumped to. -/
def keepsLabel (targets : List String) : Inst → Bool
  | .label n => n ∈ targets
  | _ => true

/-- Drop each label that nothing jumps to. -/
def dropIdleLabels (code : List Inst) : List Inst :=
  code.filter (keepsLabel (jumpTargets code))

/-- Drop jumps and labels that are not needed. -/
def tidyLabels (code : List Inst) : List Inst := dropIdleLabels (dropIdleJumps code)

/-! ## Writes that are not read -/

/-- An instruction does nothing but write its result. A division may fail, unless
it is by a number other than zero. -/
def Inst.isPure : Inst → Bool
  | .assign _ _ => true
  | .unary _ _ _ => true
  | .getField _ _ => true
  | .binary _ .div _ (some (.imm v _)) => v != 0
  | .binary _ .div _ _ => false
  | .binary _ _ _ _ => true
  | _ => false

/-- An instruction whose only effect is a write that is not read again. -/
def isDeadStore (vars : List Var) (l : Liveness) (i : Nat) (inst : Inst) : Bool :=
  match inst.dst? with
  | some d => inst.isPure && !l.isLiveAfter vars i d.name
  | none => false

/-- Drop writes that are not read again. -/
def dropDeadStores (vars : List Var) (code : List Inst) : List Inst :=
  let l := liveness vars code
  code.zipIdx.filterMap fun (inst, i) => if isDeadStore vars l i inst then none else some inst

/-! ## Rounds -/

/-- One round of simplification. -/
def simplifyRound (vars : List Var) (code : List Inst) : List Inst :=
  dropDeadStores vars (tidyLabels (propagate vars code))

/-- How much can still be taken from an instruction. -/
def Inst.weight (i : Inst) : Nat :=
  1 + i.uses.length +
    match i with
    | .binary _ _ _ _ => 1
    | .unary _ _ _ => 1
    | .branch _ _ => 1
    | _ => 0

/-- How much can still be taken from code. -/
def weight (code : List Inst) : Nat := code.foldr (fun i n => i.weight + n) 0

/-- Rounds until one leaves the text as it was, `rounds` times at most. -/
def simplifyRounds : Nat → Method → Method
  | 0, m => m
  | rounds + 1, m =>
    let next := { m with code := simplifyRound m.vars m.code }
    if m.text? = next.text? then next else simplifyRounds rounds next

/-! ## Declarations -/

/-- The names of the registers that code writes or reads. -/
def occurring (code : List Inst) : List String :=
  code.flatMap fun i => (i.dst?.toList ++ i.uses).map (·.name)

/-- A declaration that stays when only registers of a list occur: those of `this`
and of parameters always do. -/
def Var.isNeeded (names : List String) (v : Var) : Bool :=
  match v.kind with
  | .declared => v.name ∈ names
  | .temp => v.name ∈ names
  | _ => true

/-- Drop declarations of registers that do not occur. -/
def pruneVars (m : Method) : Method :=
  let names := occurring m.code
  { m with vars := m.vars.filter (Var.isNeeded names) }

/-- The method in its simplest form. -/
def Method.simplify (m : Method) : Method :=
  pruneVars (simplifyRounds (weight m.code + 1) m)

/-- The method in its simplest form, if it has a text to compare rounds by. -/
def Method.simplify? (m : Method) : Option Method :=
  if m.text?.isSome then some m.simplify else none

end JavaMinus.Code
