import JavaMinus.Syntax
import JavaMinus.Text.Quoted

/-!
# Tokens

A source text is a list of bytes. It is cut into names, numbers and the fixed
words and signs of the language. Blanks, line ends and comments stand between
them and leave no trace but the places of what follows.

A `//` comment ends before the next line end and does not move the column: only
the end of the text can tell, when it comes right after such a comment.
-/

namespace JavaMinus.Syntax

/-- What a token is: a name, a number as it is written, or a fixed word or sign. -/
inductive Lexeme where
  | name (text : String)
  | number (digits : String)
  | fixed (text : String)
  deriving DecidableEq, Repr, Inhabited

/-- A lexeme and the place of its first byte. -/
structure Token where
  lexeme : Lexeme
  pos : Pos
  deriving DecidableEq, Repr, Inhabited

/-- How a lexeme is named in a message. -/
def Lexeme.text : Lexeme → String
  | name s => "identifier " ++ Quoted.text s
  | number s => "integer " ++ s
  | fixed s => Quoted.text s

/-- What the grammar asks for at a place. -/
inductive Wanted where
  | fixed (text : String)
  | identifier
  | type
  | expression
  | endOfFile
  deriving DecidableEq, Repr, Inhabited

/-- How the grammar's wish is named in a message. -/
def Wanted.text : Wanted → String
  | fixed s => Quoted.text s
  | identifier => "identifier"
  | type => "type"
  | expression => "expression"
  | endOfFile => "end of file"

/-- What is wrong with a source text. -/
inductive SyntaxProblem where
  | unterminatedComment
  | unexpectedByte (b : UInt8)
  | expected (wanted : Wanted) (got : Option Lexeme)
  | staticNotMain (name : String)
  | mainParameter
  | numberTooLarge (digits : String)
  | tooDeep
  deriving DecidableEq, Repr, Inhabited

/-- What a problem says. The absence of a token is the end of the file. -/
def SyntaxProblem.message : SyntaxProblem → String
  | unterminatedComment => "unterminated comment"
  | unexpectedByte b => "unexpected character " ++ Quoted.byte b
  | expected w none => "expected " ++ w.text ++ ", got end of file"
  | expected w (some l) => "expected " ++ w.text ++ ", got " ++ l.text
  | staticNotMain n => "static method must be main, got " ++ n
  | mainParameter => "main parameter must be String[]"
  | numberTooLarge d => "integer literal out of range: " ++ d
  | tooDeep => "nested too deep"

/-- A problem and its place. -/
structure SyntaxError where
  pos : Pos
  problem : SyntaxProblem
  deriving DecidableEq, Repr, Inhabited

/-! ## Classes of bytes -/

/-- The byte of an ASCII character. -/
def byteOf (c : Char) : UInt8 := c.toNat.toUInt8

/-- A letter, an underscore or a dollar sign. -/
def isLetter (b : UInt8) : Bool :=
  (97 ≤ b && b ≤ 122) || (65 ≤ b && b ≤ 90) || b = 95 || b = 36

/-- A decimal digit. -/
def isDigit (b : UInt8) : Bool := 48 ≤ b && b ≤ 57

/-- A byte that goes on with a name. -/
def isNameByte (b : UInt8) : Bool := isLetter b || isDigit b

/-- A byte that is a sign of its own. -/
def isSign (b : UInt8) : Bool := b ∈ "\x7b\x7d()[];,.=<+-*/!".toList.map byteOf

/-- A blank within a line. -/
def isBlank (b : UInt8) : Bool := b = 32 || b = 9 || b = 13

/-- The text of ASCII bytes. -/
def asciiText (bs : List UInt8) : String :=
  String.ofList (bs.map fun b => Char.ofNat b.toNat)

/-- The words that are no names. -/
def reserved : List String :=
  ["import", "class", "extends", "public", "static", "void", "return", "int", "boolean", "if",
    "else", "while", "true", "false", "this", "new"]

/-- The lexeme of a word. -/
def wordLexeme (text : String) : Lexeme :=
  if text ∈ reserved then .fixed text else .name text

/-! ## Cutting the text -/

/-- What follows a `/*` comment whose inside starts here, and its place. -/
def skipComment (p : Pos) : List UInt8 → Option (List UInt8 × Pos)
  | 42 :: 47 :: rest => some (rest, p.skip 2)
  | b :: c :: rest => skipComment (if b = 10 then p.newline else p.skip 1) (c :: rest)
  | _ => none

/-- What follows a comment is no longer than its inside. -/
theorem length_of_skipComment {p : Pos} {bs : List UInt8} {r : List UInt8 × Pos}
    (h : skipComment p bs = some r) : r.1.length ≤ bs.length := by
  fun_induction skipComment p bs with
  | case1 p rest =>
    cases h
    simp only [List.length_cons]
    omega
  | case2 p b c rest _ ih => exact Nat.le_succ_of_le (ih h)
  | case3 p bs _ _ => cases h

/-- One step into a source text. -/
inductive Scanned where
  /-- Nothing but what stands between tokens. -/
  | gap (rest : List UInt8) (pos : Pos)
  /-- A token. -/
  | token (lexeme : Lexeme) (rest : List UInt8) (pos : Pos)
  /-- A problem at the given place. -/
  | problem (e : SyntaxError)

/-- Take one gap or one token from a text that starts with a given byte. -/
def scanOne (p : Pos) (b : UInt8) (rest : List UInt8) : Scanned :=
  if b = 10 then .gap rest p.newline
  else if isBlank b then .gap rest (p.skip 1)
  else if b = 47 ∧ rest.head? = some 47 then .gap (rest.dropWhile (· != 10)) p
  else if b = 47 ∧ rest.head? = some 42 then
    match skipComment (p.skip 2) rest.tail with
    | some (after, q) => .gap after q
    | none => .problem ⟨p, .unterminatedComment⟩
  else if isLetter b then
    let more := rest.takeWhile isNameByte
    .token (wordLexeme (asciiText (b :: more))) (rest.dropWhile isNameByte)
      (p.skip (more.length + 1))
  else if isDigit b then
    let more := rest.takeWhile isDigit
    .token (.number (asciiText (b :: more))) (rest.dropWhile isDigit) (p.skip (more.length + 1))
  else if b = 38 then
    if rest.head? = some 38 then .token (.fixed "&&") rest.tail (p.skip 2)
    else .problem ⟨p, .unexpectedByte b⟩
  else if isSign b then .token (.fixed (asciiText [b])) rest (p.skip 1)
  else .problem ⟨p, .unexpectedByte b⟩

/-- What is left after a step. -/
def Scanned.rest : Scanned → List UInt8
  | gap rest _ => rest
  | token _ rest _ => rest
  | problem _ => []

/-- A step takes at least its first byte. -/
theorem length_scanOne_rest (p : Pos) (b : UInt8) (rest : List UInt8) :
    (scanOne p b rest).rest.length ≤ rest.length := by
  unfold scanOne
  split
  · simp [Scanned.rest]
  split
  · simp [Scanned.rest]
  split
  · exact (List.dropWhile_suffix _).length_le
  split
  · split
    · next after q found =>
      have := length_of_skipComment found
      simp only [List.length_tail] at this
      exact Nat.le_trans this (Nat.sub_le _ _)
    · simp [Scanned.rest]
  split
  · exact (List.dropWhile_suffix _).length_le
  split
  · exact (List.dropWhile_suffix _).length_le
  split
  · split
    · simp [Scanned.rest]
    · simp [Scanned.rest]
  split
  · simp [Scanned.rest]
  · simp [Scanned.rest]

/-- The tokens of a source text that starts at a place, and the place of its end. -/
def scanFrom (p : Pos) (bytes : List UInt8) : Except SyntaxError (List Token × Pos) :=
  match bytes with
  | [] => .ok ([], p)
  | b :: rest =>
    match _taken : scanOne p b rest with
    | .gap after q => scanFrom q after
    | .token lexeme after q =>
      match scanFrom q after with
      | .ok (tokens, stop) => .ok (⟨lexeme, p⟩ :: tokens, stop)
      | .error e => .error e
    | .problem e => .error e
termination_by bytes.length
decreasing_by
  all_goals
    have := length_scanOne_rest p b rest
    simp only [_taken, Scanned.rest] at this
    simp only [List.length_cons]
    omega

/-- The tokens of a source text, and the place of its end. -/
def scan (bytes : List UInt8) : Except SyntaxError (List Token × Pos) := scanFrom ⟨1, 1⟩ bytes

end JavaMinus.Syntax
