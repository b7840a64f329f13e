/-!
# Quoted text

How a text or a single character is shown between quotes in messages and in
listings. What can be printed stands for itself. The quote and the backslash
are preceded by a backslash, seven control characters have a letter of their
own, and every other character that cannot be printed is written by its number
in two, four or eight hexadecimal digits.
-/

namespace JavaMinus.Quoted

/-- The character that starts an escape. -/
def backslash : Char := '\x5c'

/-- The quote around a text. -/
def doubleQuote : Char := '\x22'

/-- The quote around a single character. -/
def singleQuote : Char := '\x27'

/-- A hexadecimal digit, in lower case. -/
def hexDigit (n : Nat) : Char :=
  if n < 10 then Char.ofNat (48 + n) else Char.ofNat (87 + n)

/-- A number in `count` hexadecimal digits. -/
def hex (count n : Nat) : List Char :=
  (List.range count).reverse.map fun k => hexDigit (n / Nat.pow 16 k % 16)

/-- A character that is shown as it is: ASCII from the blank to the tilde, and
beyond ASCII everything but the control characters up to the no-break space and
the soft hyphen. -/
def isPrintable (c : Char) : Bool :=
  if c.toNat < 0x80 then 0x20 ≤ c.toNat && c.toNat ≤ 0x7e
  else 0xa0 < c.toNat && c.toNat != 0xad

/-- The letter of a control character that has one. -/
def controlLetter (c : Char) : Option Char :=
  match c.toNat with
  | 7 => some 'a'
  | 8 => some 'b'
  | 9 => some 't'
  | 10 => some 'n'
  | 11 => some 'v'
  | 12 => some 'f'
  | 13 => some 'r'
  | _ => none

/-- A character between quotes of the given kind. -/
def char (quote c : Char) : List Char :=
  if c = quote ∨ c = backslash then [backslash, c]
  else if isPrintable c then [c]
  else
    match controlLetter c with
    | some l => [backslash, l]
    | none =>
      if c.toNat < 0x80 then backslash :: 'x' :: hex 2 c.toNat
      else if c.toNat < 0x10000 then backslash :: 'u' :: hex 4 c.toNat
      else backslash :: 'U' :: hex 8 c.toNat

/-- A text between double quotes. -/
def text (s : String) : String :=
  String.ofList (doubleQuote :: s.toList.flatMap (char doubleQuote) ++ [doubleQuote])

/-- A byte between single quotes, shown as the character with its number. -/
def byte (b : UInt8) : String :=
  String.ofList (singleQuote :: char singleQuote (Char.ofNat b.toNat) ++ [singleQuote])

end JavaMinus.Quoted
