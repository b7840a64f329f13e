import JavaMinus.Diagnostic
import JavaMinus.Code.Simplify
import JavaMinus.Registers.Interference

/-!
# Placing registers in slots

The virtual machine keeps the variables of a method in numbered slots. The
object has slot 0, the parameters follow in order, and the other registers share
the slots after them such that no two that interfere have the same.
-/

namespace JavaMinus.Registers

open Code

/-- Where the registers of a method live: their slots, how many slots there are,
and how many of them are shared. -/
structure Placement where
  slots : Slots
  locals : Int
  colors : Nat
  deriving Repr, Inhabited

/-- Why registers cannot be placed. -/
inductive PlacementError where
  /-- More slots are needed than allowed. -/
  | tooFewSlots (method : String) (needed allowed : Int)
  /-- A live register has no declaration to name it. -/
  | nameless
  deriving DecidableEq, Repr, Inhabited

/-- What a failure says. Missing declarations have no message: nothing can be said
about the method at all. -/
def PlacementError.message? : PlacementError → Option String
  | tooFewSlots method needed allowed =>
    some ("method " ++ method ++ " needs " ++ toString needed ++ " registers, at most " ++
      toString allowed ++ " allowed")
  | nameless => none

/-- The slot of the object: every register of that kind is in slot 0. -/
def thisSlots (vars : List Var) : Slots :=
  vars.foldl (fun s v => if v.kind = .this then s.put v.name 0 else s) []

/-- Give the parameters the next slots, in order. -/
def paramSlots (s : Slots) (next : Nat) : List Var → Slots
  | [] => s
  | p :: rest => paramSlots (s.put p.name next) (next + 1) rest

/-- The places that are fixed before any register is coloured, and their number. -/
def fixedSlots (m : Method) : Slots × Nat :=
  let this := thisSlots m.vars
  (paramSlots this this.length m.params, this.length + m.params.length)

/-- Place the registers of a method. A limit of 0 or less is no limit. -/
def place (m : Method) (limit : Int) : Except PlacementError Placement :=
  let (fixed, base) := fixedSlots m
  match interference? (fun n => (fixed.get? n).isSome) m with
  | none => .error .nameless
  | some g =>
    let (col, n) := colorGraph g.neighbours
    let needed : Int := base + n
    if 0 < limit ∧ limit < needed then .error (.tooFewSlots m.name needed limit)
    else
      .ok {
        slots := fixed ++ g.names.zipIdx.map fun (name, i) =>
          (name, Int.ofNat (base + (col.getD i none).getD 0))
        locals := needed
        colors := n }

/-- What to do with the code of a class: simplify it or not, and how many slots a
method may take. -/
structure CodeOptions where
  simplify : Bool := false
  maxSlots : Int := 0
  deriving Repr, Inhabited

/-- Simplify a method if asked to, and place its registers. A method whose
registers cannot be placed for want of slots keeps the slots that it had, and
is reported. -/
def finishMethod (opts : CodeOptions) (m : Method) : Option (Logged Method) := do
  let m ← if opts.simplify then m.simplify? else some m
  match place m opts.maxSlots with
  | .ok p => some ⟨{ m with slots := some p.slots, locals := p.locals }, []⟩
  | .error e => do
    let message ← e.message?
    some ⟨m, [.error .optimization m.line 0 message]⟩

/-- Simplify the methods of a class if asked to, and place their registers. There
is no result if some method gives none. -/
def finishClass (opts : CodeOptions) (c : Code.Class) : Option (Logged Code.Class) := do
  let ms ← c.methods.mapM (finishMethod opts)
  some ⟨{ c with methods := ms.map (·.value) }, ms.flatMap (·.reports)⟩

end JavaMinus.Registers
