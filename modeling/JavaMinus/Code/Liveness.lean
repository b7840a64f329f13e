import JavaMinus.BitSet
import JavaMinus.Code.Flow

/-!
# Live registers

A register is live at a place in the code when its value there may still be
read. Sets of live registers hold positions in the list of declarations: of two
declarations of one name the last counts, and a register that is not declared
shares the position 0.

The sets before each instruction are the least solution of the flow equations.
They are found by sweeping backward over the code until a sweep changes
nothing. Sets only grow, so there are at most as many sweeps as there are
registers at all places together, and one more.
-/

namespace JavaMinus.Code

/-- The position of the last declaration of a name in a list that starts at
position `start`, or `found` if there is none. -/
def lastDeclared (name : String) (start found : Nat) : List Var → Nat
  | [] => found
  | v :: rest => lastDeclared name (start + 1) (if v.name = name then start else found) rest

/-- The position that stands for a register in sets of live registers. -/
def cellOf (vars : List Var) (name : String) : Nat := lastDeclared name 0 0 vars

/-- What an instruction writes and reads, and where control goes after it. -/
structure FlowStep where
  kills : Option Nat
  reads : List Nat
  succs : List Nat
  deriving Repr, Inhabited

/-- The flow of one instruction. -/
def FlowStep.ofInst (vars : List Var) (code : List Inst) (i : Nat) (inst : Inst) : FlowStep where
  kills := inst.dst?.map fun d => cellOf vars d.name
  reads := inst.uses.map fun u => cellOf vars u.name
  succs := allSuccessors code i inst

/-- The flow of each instruction of a list. -/
def flowSteps (vars : List Var) (code : List Inst) : List FlowStep :=
  code.zipIdx.map fun (inst, i) => FlowStep.ofInst vars code i inst

namespace FlowStep

/-- What is live before an instruction, from what is live after it. -/
def liveBefore (s : FlowStep) (after : BitSet) : BitSet :=
  let kept := match s.kills with
    | some d => after.erase d
    | none => after
  s.reads.foldl BitSet.insert kept

/-- What is live after an instruction, from the sets before all instructions. -/
def liveAfter (s : FlowStep) (before : Array BitSet) : BitSet :=
  s.succs.foldl (fun acc k => acc.union (before.getD k .empty)) .empty

end FlowStep

/-- One backward sweep over the first `n` instructions. -/
def sweep (steps : Array FlowStep) : Nat → Array BitSet → Array BitSet
  | 0, before => before
  | i + 1, before =>
    let step := steps.getD i default
    sweep steps i (before.setIfInBounds i (step.liveBefore (step.liveAfter before)))

/-- The sets at all places are the same. -/
def sameSets (xs ys : Array BitSet) : Bool :=
  (List.range xs.size).all fun i => (xs.getD i .empty).equal (ys.getD i .empty)

/-- Sweep until nothing changes, `rounds` times at most. -/
def sweepRounds (steps : Array FlowStep) : Nat → Array BitSet → Array BitSet
  | 0, before => before
  | rounds + 1, before =>
    let next := sweep steps steps.size before
    if sameSets before next then before else sweepRounds steps rounds next

/-- The sets of registers that are live before and after each instruction. -/
structure Liveness where
  before : Array BitSet
  after : Array BitSet
  deriving Repr, Inhabited

/-- The live registers of a piece of code with declarations. -/
def liveness (vars : List Var) (code : List Inst) : Liveness :=
  let steps := (flowSteps vars code).toArray
  let rounds := code.length * (vars.length + 1) + 1
  let before := sweepRounds steps rounds (Array.replicate code.length .empty)
  { before, after := steps.map fun s => s.liveAfter before }

/-- A register is live after the instruction at a position. -/
def Liveness.isLiveAfter (l : Liveness) (vars : List Var) (i : Nat) (name : String) : Bool :=
  (l.after.getD i .empty).contains (cellOf vars name)

end JavaMinus.Code
