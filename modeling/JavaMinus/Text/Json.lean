import JavaMinus.Text.Quoted

/-!
# Indented JSON

Texts of JSON values with two blanks of indentation for each level. In a string
the angle brackets and the ampersand are written by number, as are the line and
paragraph separators and the control characters that have no short form.
-/

namespace JavaMinus.Json

/-- A character of a string. -/
def char (c : Char) : List Char :=
  if c = Quoted.doubleQuote ∨ c = Quoted.backslash then [Quoted.backslash, c]
  else
    match c.toNat with
    | 8 => [Quoted.backslash, 'b']
    | 9 => [Quoted.backslash, 't']
    | 10 => [Quoted.backslash, 'n']
    | 12 => [Quoted.backslash, 'f']
    | 13 => [Quoted.backslash, 'r']
    | n =>
      if n < 0x20 ∨ c = '<' ∨ c = '>' ∨ c = '&' ∨ n = 0x2028 ∨ n = 0x2029 then
        Quoted.backslash :: 'u' :: Quoted.hex 4 n
      else [c]

/-- A string between quotes. -/
def string (s : String) : String :=
  String.ofList (Quoted.doubleQuote :: s.toList.flatMap char ++ [Quoted.doubleQuote])

/-- The start of a line at a level. -/
def newline (level : Nat) : String :=
  String.ofList ('\n' :: List.replicate (2 * level) ' ')

/-- An entry of an object. -/
def entry (key value : String) : String := string key ++ ": " ++ value

end JavaMinus.Json
