import JavaMinus.Text.Quoted

/-!
# Decimal integers

Reading an integer of 64 bits from its decimal digits, with an optional sign
before them. Digits are read from the left, and the first thing that is wrong
decides what is reported: a character that is no digit, or a digit that makes
the absolute value longer than 64 bits.
-/

namespace JavaMinus.Decimal

/-- What is wrong with the text of an integer. -/
inductive Problem where
  | malformed
  | outOfRange
  deriving DecidableEq, Repr, Inhabited

/-- The words for a problem. -/
def Problem.text : Problem → String
  | malformed => "invalid syntax"
  | outOfRange => "value out of range"

/-- What is said of a text that is no integer. -/
def Problem.message (p : Problem) (s : String) : String :=
  "strconv.ParseInt: parsing " ++ Quoted.text s ++ ": " ++ p.text

/-- The number that digits make up after a number that was read already. -/
def readDigits (n : Nat) : List Char → Except Problem Nat
  | [] => .ok n
  | c :: rest =>
    if c.isDigit then
      let next := 10 * n + (c.toNat - 48)
      if next < 2 ^ 64 then readDigits next rest else .error .outOfRange
    else .error .malformed

/-- The number that digits make up, of which there has to be one at least. -/
def readNat : List Char → Except Problem Nat
  | [] => .error .malformed
  | cs => readDigits 0 cs

/-- An integer that fits into 64 bits. -/
def fit (v : Int) : Except Problem Int :=
  if -0x8000000000000000 ≤ v ∧ v < 0x8000000000000000 then .ok v else .error .outOfRange

/-- Read an integer of 64 bits. -/
def read (s : String) : Except Problem Int :=
  match s.toList with
  | '-' :: cs => do fit (-(← readNat cs : Nat))
  | '+' :: cs => do fit (← readNat cs : Nat)
  | cs => do fit (← readNat cs : Nat)

end JavaMinus.Decimal
