import JavaMinus.Code.Liveness
import JavaMinus.Registers.Coloring

/-!
# Interference

Two registers interfere when one is written while the other is live, so that
they cannot share a slot. The source of a copy does not interfere with the
register that it is copied to, since both then hold one value. Registers that
are live at entry all interfere with each other.

An instruction that copies no register counts as a copy of the register with the
empty name.
-/

namespace JavaMinus.Registers

open Code

/-- The registers of a method that have no fixed place, and who interferes with
whom. Nodes are numbered by first occurrence. -/
structure Interference where
  names : List String
  rows : Array BitSet
  deriving Repr, Inhabited

/-- The register that an instruction copies. -/
def copySource : Inst → String
  | .assign _ (some (.reg r)) => r.name
  | _ => ""

/-- The registers that occur in code and are not fixed, by first occurrence. -/
def freeRegisters (isFixed : String → Bool) (code : List Inst) : List String :=
  ((code.flatMap fun i => (i.dst?.toList ++ i.uses).map (·.name)).filter
    fun n => !isFixed n).eraseDups

/-- The node of a name. -/
def nodeOf (names : List String) (name : String) : Option Nat :=
  let i := names.idxOf name
  if i < names.length then some i else none

/-- Two nodes interfere. Nothing interferes with itself. -/
def addEdge (rows : Array BitSet) : Option Nat × Option Nat → Array BitSet
  | (some i, some j) =>
    if i = j then rows else (rows.modify i (·.insert j)).modify j (·.insert i)
  | _ => rows

/-- All pairs of elements of a list, the earlier element first. -/
def pairs {α : Type} : List α → List (α × α)
  | [] => []
  | x :: rest => rest.map (fun y => (x, y)) ++ pairs rest

/-- The pairs of nodes that interfere through the instruction at a place. `cells`
gives the name and the node of each declared register. -/
def writeEdges (names : List String) (cells : Array (String × Option Nat)) (after : BitSet)
    (inst : Inst) : List (Option Nat × Option Nat) :=
  match inst.dst? with
  | none => []
  | some d =>
    let node := nodeOf names d.name
    after.toList.filterMap fun r =>
      let (name, other) := cells.getD r ("", none)
      if name = copySource inst then none else some (node, other)

/-- The interference of a method whose registers in `isFixed` have their place
already. It cannot be told when a live register has no name, which happens only
in a method that writes registers and declares none. -/
def interference? (isFixed : String → Bool) (m : Method) : Option Interference :=
  let live := liveness m.vars m.code
  let names := freeRegisters isFixed m.code
  let cells := (m.vars.map fun v => (v.name, nodeOf names v.name)).toArray
  let writes := m.code.zipIdx.map fun (inst, i) => (inst, live.after.getD i .empty)
  if m.vars.isEmpty && writes.any (fun (inst, after) => inst.dst?.isSome && after.size != 0) then
    none
  else
    let entry := (live.before.getD 0 .empty).toList.map fun r => (cells.getD r ("", none)).2
    let edges := writes.flatMap (fun (inst, after) => writeEdges names cells after inst) ++ pairs entry
    some { names, rows := edges.foldl addEdge (Array.replicate names.length .empty) }

/-- The neighbours of each node, in increasing order. -/
def Interference.neighbours (g : Interference) : Neighbours := g.rows.map BitSet.toList

end JavaMinus.Registers
