import JavaMinus.Code

/-!
# Control flow

Where control can go from an instruction: to the next one, to the label of a
jump, or nowhere after a return. When a label occurs twice the last occurrence
counts, and a jump to a label that does not occur goes to the first instruction.
-/

namespace JavaMinus.Code

/-- The position of the last label of a name in code that starts at position
`start`, or `found` if there is none. -/
def lastLabel (name : String) (start found : Nat) : List Inst → Nat
  | [] => found
  | .label n :: rest => lastLabel name (start + 1) (if n = name then start else found) rest
  | _ :: rest => lastLabel name (start + 1) found rest

/-- The position that a jump to a label goes to. -/
def labelPos (code : List Inst) (name : String) : Nat := lastLabel name 0 0 code

/-- The position after `i`, if the code goes on. -/
def nextPos (size i : Nat) : List Nat := if i + 1 < size then [i + 1] else []

/-- The positions that control can go to from the instruction at position `i`,
where `known` may tell which way a condition goes. The target of a branch
stands before the next position. -/
def successors (code : List Inst) (known : Option Operand → Option Bool) (i : Nat) :
    Inst → List Nat
  | .ret _ => []
  | .retVoid => []
  | .goto t => [labelPos code t]
  | .branch c t =>
    match known c with
    | some true => [labelPos code t]
    | some false => nextPos code.length i
    | none => labelPos code t :: nextPos code.length i
  | _ => nextPos code.length i

/-- The positions that control can go to when nothing is known of conditions. -/
def allSuccessors (code : List Inst) (i : Nat) (inst : Inst) : List Nat :=
  successors code (fun _ => none) i inst

end JavaMinus.Code
