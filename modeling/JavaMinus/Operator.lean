/-!
# Operators

The operators of the language, shared by expressions and by register code. An
operator that is none of them keeps its symbol, so that it can be named in a
message.
-/

namespace JavaMinus

/-- An operator of expressions and of register code. -/
inductive Operator where
  | add
  | sub
  | mul
  | div
  | less
  | and
  | not
  | other (symbol : String)
  deriving DecidableEq, Repr, Inhabited

namespace Operator

/-- How an operator is written. -/
def symbol : Operator → String
  | add => "+"
  | sub => "-"
  | mul => "*"
  | div => "/"
  | less => "<"
  | and => "&&"
  | not => "!"
  | other s => s

/-- The operator that a symbol denotes. -/
def ofSymbol (s : String) : Operator :=
  if s = "+" then add
  else if s = "-" then sub
  else if s = "*" then mul
  else if s = "/" then div
  else if s = "<" then less
  else if s = "&&" then and
  else if s = "!" then not
  else other s

/-- Reading the symbol of an operator of the language gives the operator back. -/
theorem ofSymbol_symbol {op : Operator} (h : ∀ s, op ≠ other s) : ofSymbol op.symbol = op := by
  cases op with
  | other s => exact absurd rfl (h s)
  | _ => rfl

/-- How tightly a binary operator binds, from 1 for `&&` to 4 for `*` and `/`.
What is no binary operator of the language has level 0. -/
def level : Operator → Nat
  | and => 1
  | less => 2
  | add => 3
  | sub => 3
  | mul => 4
  | div => 4
  | not => 0
  | other _ => 0

/-- The value of a binary operator on 32-bit integers. Sums, differences and
products wrap around, a quotient is cut toward zero, and truth values are 0 and
1. Division by zero has no value, nor has an operator that is not binary. -/
def eval (op : Operator) (a b : Int32) : Option Int32 :=
  match op with
  | add => some (a + b)
  | sub => some (a - b)
  | mul => some (a * b)
  | div => if b = 0 then none else some (a / b)
  | less => some (if a < b then 1 else 0)
  | and => some (a &&& b)
  | not => none
  | other _ => none

end Operator

/-- The opposite of a truth value that is held as 0 or 1. -/
def flip (a : Int32) : Int32 := a ^^^ 1

end JavaMinus
