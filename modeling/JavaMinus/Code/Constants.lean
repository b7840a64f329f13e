import JavaMinus.Code.Flow

/-!
# Constant registers

For each instruction that can be reached, what is known of each register when
control gets there: nothing was written yet (`unset`), it holds one number on
every way there (`const`), or it may differ (`varying`). Branches on a known
condition are followed one way only.

The states are found with a list of places still to visit, of which the newest
is visited first. Declared registers start as `varying`. Merging can only raise
what is known of a register, twice at most, so the number of visits is bounded
by the number of registers at all places. The order of visits is part of the
result when a register is read that was never declared: such a register is
`unset` until the visits reach a place that writes it.
-/

namespace JavaMinus.Code

/-- What is known of a register. -/
inductive Known where
  | unset
  | const (value : Int32)
  | varying
  deriving DecidableEq, Repr, Inhabited

/-- What is known where two ways meet. -/
def Known.meet : Known → Known → Known
  | unset, k => k
  | k, unset => k
  | const a, const b => if a = b then const a else varying
  | varying, _ => varying
  | _, varying => varying

/-- What is known of each register of a list. -/
abbrev State := List Known

namespace State

/-- What is known of a register. -/
def get (regs : List String) (st : State) (name : String) : Known :=
  st.getD (regs.idxOf name) .unset

/-- What is known of an operand. -/
def value (regs : List String) (st : State) : Option Operand → Known
  | some (.imm v _) => .const v
  | some (.reg r) => st.get regs r.name
  | none => .varying

/-- Which way a condition goes, if that is known. -/
def decides (regs : List String) (st : State) (cond : Option Operand) : Option Bool :=
  match st.value regs cond with
  | .const v => some (v != 0)
  | _ => none

/-- An operand with a constant in place of a register that holds one. -/
def subst (regs : List String) (st : State) : Operand → Operand
  | .imm v t => .imm v t
  | .reg r =>
    match st.get regs r.name with
    | .const v => .imm v r.type
    | _ => .reg r

/-- What is known of the result of an instruction. -/
def result (regs : List String) (st : State) : Inst → Known
  | .assign _ src => st.value regs src
  | .binary _ op l r =>
    match st.value regs l, st.value regs r with
    | .const a, .const b =>
      match op.eval a b with
      | some v => .const v
      | none => .varying
    | _, _ => .varying
  | .unary _ .not x =>
    match st.value regs x with
    | .const a => .const (flip a)
    | _ => .varying
  | _ => .varying

/-- The state after an instruction. -/
def after (regs : List String) (st : State) (inst : Inst) : State :=
  match inst.dst? with
  | some d => st.set (regs.idxOf d.name) (st.result regs inst)
  | none => st

/-- The state where two ways meet. -/
def meet (st other : State) : State := List.zipWith Known.meet st other

end State

/-- The states found so far, and the places still to visit. A place without state
has not been reached. -/
structure Visits where
  states : Array (Option State)
  work : List Nat
  deriving Repr, Inhabited

namespace Visits

/-- Control reaches a place with a state. -/
def reach (v : Visits) (st : State) (place : Nat) : Visits :=
  let merged := match v.states.getD place none with
    | some old => old.meet st
    | none => st
  if v.states.getD place none = some merged then v
  else
    { states := v.states.setIfInBounds place (some merged)
      work := if place ∈ v.work then v.work else place :: v.work }

/-- Visit one place. -/
def visit (regs : List String) (code : List Inst) (insts : Array Inst) (v : Visits) (i : Nat) :
    Visits :=
  let inst := insts.getD i .hole
  match v.states.getD i none with
  | none => v
  | some st =>
    (successors code (st.decides regs) i inst).foldl (fun v s => v.reach (st.after regs inst) s) v

/-- Visit places until none is left, `fuel` times at most. -/
def run (regs : List String) (code : List Inst) (insts : Array Inst) : Nat → Visits → Visits
  | 0, v => v
  | fuel + 1, v =>
    match v.work with
    | [] => v
    | i :: rest => run regs code insts fuel (visit regs code insts { v with work := rest } i)

end Visits

/-- The registers that are declared or written, each once. -/
def registersOf (vars : List Var) (code : List Inst) : List String :=
  (vars.map (·.name) ++ code.filterMap fun i => i.dst?.map (·.name)).eraseDups

/-- What is known of each register at each place that can be reached. -/
def knownStates (vars : List Var) (code : List Inst) : Array (Option State) :=
  let regs := registersOf vars code
  let declared := vars.map (·.name)
  let entry : State := regs.map fun r => if r ∈ declared then .varying else .unset
  let start : Visits :=
    { states := (Array.replicate code.length none).setIfInBounds 0 (some entry), work := [0] }
  (start.run regs code code.toArray (code.length * (2 * regs.length + 1) + 1)).states

/-- An instruction with constants put in, and computed as far as that goes. A
branch that is never taken goes away. -/
def Inst.evaluate (inst : Inst) : Option Inst :=
  match inst with
  | .binary d op (some (.imm a _)) (some (.imm b _)) =>
    match op.eval a b with
    | some v => some (.assign d (some (.imm v d.type)))
    | none => some inst
  | .unary d .not (some (.imm a _)) => some (.assign d (some (.imm (flip a) d.type)))
  | .branch (some (.imm c _)) t => if c = 0 then none else some (.goto t)
  | _ => some inst

/-- An instruction made plainer by what is known before it. What cannot be reached
goes away, except labels. -/
def Inst.specialize (regs : List String) (st : Option State) (inst : Inst) : Option Inst :=
  match st with
  | none => if inst.isLabel then some inst else none
  | some st => (inst.mapOperands (st.subst regs)).evaluate

/-- Put constants in for registers that hold them, decide branches on constants,
and drop what cannot be reached. -/
def propagate (vars : List Var) (code : List Inst) : List Inst :=
  let regs := registersOf vars code
  let states := knownStates vars code
  code.zipIdx.filterMap fun (inst, i) => inst.specialize regs (states.getD i none)

end JavaMinus.Code
