import JavaMinus.Diagnostic
import JavaMinus.Syntax.Token

/-!
# Reading a source file

One function for each phrase of the grammar takes the phrase from the front of
the tokens. Reading stops at the first token that cannot go on with a file, and
says what was wanted there.

Expressions have six levels. From the weakest they are `&&`, `<`, the sums, the
products, `!`, and what is written after an operand: an index, `.length` or a
call. Operators of one level group to the left. A phrase that contains
expressions is given a reader for them, and `exprWithin` ties the knot: its
argument bounds how deep expressions are nested, for which the number of tokens
is enough. Loops are bounded by the number of tokens in the same way.
-/

namespace JavaMinus.Syntax

/-- The tokens still to read, and the place of the end of the text. -/
structure Cursor where
  rest : List Token
  stop : Pos
  deriving Repr, Inhabited

namespace Cursor

/-- The place of the next token, or of the end. -/
def pos (c : Cursor) : Pos :=
  match c.rest with
  | t :: _ => t.pos
  | [] => c.stop

/-- The next lexeme, if the text goes on. -/
def head? (c : Cursor) : Option Lexeme := c.rest.head?.map (·.lexeme)

/-- The lexeme after the next. -/
def second? (c : Cursor) : Option Lexeme := c.rest.tail.head?.map (·.lexeme)

/-- Go past the next token. -/
def advance (c : Cursor) : Cursor := { c with rest := c.rest.tail }

/-- The next token is a given fixed word or sign. -/
def nextIs (c : Cursor) (text : String) : Bool := c.head? = some (.fixed text)

/-- A bound on the number of phrases that can still follow one another. -/
def bound (c : Cursor) : Nat := c.rest.length + 1

end Cursor

/-- A way to read a phrase from the front of the tokens. -/
abbrev Reading := StateT Cursor (Except SyntaxError)

variable {α : Type}

namespace Reading

/-- The place of the next token. -/
def pos : Reading Pos := do return (← get).pos

/-- Go past the next token. -/
def advance : Reading Unit := modify Cursor.advance

/-- Stop with a problem at the next token. -/
def problem (p : SyntaxProblem) : Reading α := do throw ⟨(← get).pos, p⟩

/-- Stop because the next token is not what is wanted. -/
def unexpected (w : Wanted) : Reading α := do problem (.expected w (← get).head?)

/-- The next token is a given fixed word or sign. -/
def nextIs (text : String) : Reading Bool := do return (← get).nextIs text

/-- Go past a fixed word or sign if it is next. -/
def accept (text : String) : Reading Bool := do
  if ← nextIs text then
    advance
    return true
  else
    return false

/-- Go past a fixed word or sign, which has to be next. -/
def expect (text : String) : Reading Unit := do
  unless ← accept text do unexpected (.fixed text)

/-- Take a name. -/
def ident : Reading String := do
  match (← get).head? with
  | some (.name s) =>
    advance
    return s
  | _ => unexpected .identifier

/-! ## Lists -/

/-- Phrases until a fixed sign, which is taken as well. From the second phrase on
a comma stands before each. -/
def commaList (close : String) (phrase : Reading α) : Nat → Bool → Reading (List α)
  | 0, _ => problem .tooDeep
  | n + 1, isFirst => do
    if ← accept close then
      return []
    else
      unless isFirst do expect ","
      let x ← phrase
      return x :: (← commaList close phrase n false)

/-- Phrases as long as a condition holds at the next token. -/
def whileAt (go : Cursor → Bool) (phrase : Reading α) : Nat → Reading (List α)
  | 0 => problem .tooDeep
  | n + 1 => do
    if go (← get) then
      let x ← phrase
      return x :: (← whileAt go phrase n)
    else
      return []

/-- Phrases in parentheses, of which the opening one has been taken. -/
def commaSeparated (close : String) (phrase : Reading α) : Reading (List α) := do
  commaList close phrase (← get).bound true

/-- As many phrases as a condition allows. -/
def manyWhile (go : Cursor → Bool) (phrase : Reading α) : Reading (List α) := do
  whileAt go phrase (← get).bound

end Reading

open Reading

/-! ## Expressions -/

/-- The value of decimal digits. -/
def digitsValue (digits : String) : Nat :=
  digits.toList.foldl (fun n c => 10 * n + (c.toNat - 48)) 0

/-- The greatest number that can be written. -/
def maxLiteral : Nat := 2147483647

/-- An expression in parentheses. -/
def parenthesized (expr : Reading (Expr Pos)) : Reading (Expr Pos) := do
  expect "("
  let x ← expr
  expect ")"
  return x

/-- What follows `new`: an array of integers or an object. -/
def creation (expr : Reading (Expr Pos)) (p : Pos) : Reading (Expr Pos) := do
  if ← accept "int" then
    expect "["
    let n ← expr
    expect "]"
    return .newArray p n
  else
    let name ← ident
    expect "("
    expect ")"
    return .newObject p name

/-- A number, which has to be small enough. -/
def literal (p : Pos) (digits : String) : Reading (Expr Pos) :=
  if digitsValue digits ≤ maxLiteral then do
    advance
    return .int p (Int32.ofNat (digitsValue digits))
  else
    problem (.numberTooLarge digits)

/-- An operand without anything before or after it. -/
def primary (expr : Reading (Expr Pos)) : Reading (Expr Pos) := do
  let p ← pos
  match (← get).head? with
  | some (.number digits) => literal p digits
  | some (.name s) =>
    advance
    return .ident p s
  | some (.fixed "true") =>
    advance
    return .bool p true
  | some (.fixed "false") =>
    advance
    return .bool p false
  | some (.fixed "this") =>
    advance
    return .this p
  | some (.fixed "(") => parenthesized expr
  | some (.fixed "new") =>
    advance
    creation expr p
  | _ => unexpected .expression

/-- What follows a dot: the length of an array, or a call. -/
def member (expr : Reading (Expr Pos)) (p : Pos) (x : Expr Pos) : Reading (Expr Pos) := do
  let name ← ident
  if name = "length" ∧ !(← get).nextIs "(" then
    return .length p x
  else
    expect "("
    let args ← commaSeparated ")" expr
    return .call p x name args

/-- Indices, lengths and calls after an operand. -/
def suffixes (expr : Reading (Expr Pos)) : Nat → Expr Pos → Reading (Expr Pos)
  | 0, _ => problem .tooDeep
  | n + 1, x => do
    let p ← pos
    if ← accept "[" then
      let i ← expr
      expect "]"
      suffixes expr n (.index p x i)
    else if ← accept "." then
      let y ← member expr p x
      suffixes expr n y
    else
      return x

/-- An operand with what follows it. -/
def operand (expr : Reading (Expr Pos)) : Reading (Expr Pos) := do
  let x ← primary expr
  suffixes expr (← get).bound x

/-- An operand under any number of `!`. -/
def negations (expr : Reading (Expr Pos)) : Nat → Reading (Expr Pos)
  | 0 => problem .tooDeep
  | n + 1 => do
    let p ← pos
    if ← accept "!" then
      return .not p (← negations expr n)
    else
      operand expr

/-- The next token as a binary operator of a level. -/
def Cursor.operator? (c : Cursor) (level : Nat) : Option Operator :=
  match c.head? with
  | some (.fixed s) => if (Operator.ofSymbol s).level = level then some (.ofSymbol s) else none
  | _ => none

/-- Operators of a level with their right operands, after a left operand. -/
def chainRest (level : Nat) (next : Reading (Expr Pos)) : Nat → Expr Pos → Reading (Expr Pos)
  | 0, _ => problem .tooDeep
  | n + 1, x => do
    match (← get).operator? level with
    | some op =>
      let p ← pos
      advance
      let y ← next
      chainRest level next n (.binary p op x y)
    | none => return x

/-- Operands of the next level, joined by operators of this one. -/
def chain (level : Nat) (next : Reading (Expr Pos)) : Reading (Expr Pos) := do
  let x ← next
  chainRest level next (← get).bound x

/-- An expression whose inner expressions are read in the given way. -/
def levels (expr : Reading (Expr Pos)) : Reading (Expr Pos) :=
  chain 1 (chain 2 (chain 3 (chain 4 (do negations expr (← get).bound))))

/-- An expression that is nested less than a number of times. -/
def exprWithin : Nat → Reading (Expr Pos)
  | 0 => problem .tooDeep
  | n + 1 => levels (exprWithin n)

/-- An expression. -/
def expr : Reading (Expr Pos) := do exprWithin (← get).bound

/-! ## Types and declarations -/

/-- The brackets of an array type, which only `int` and `String` may have. -/
def brackets (name : String) : Reading Bool := do
  if name = "int" ∨ name = "String" then
    if ← accept "[" then
      expect "]"
      return true
    else
      return false
  else
    return false

/-- The name of a type. -/
def Cursor.typeName? (c : Cursor) : Option String :=
  match c.head? with
  | some (.name s) => some s
  | some (.fixed s) => if s ∈ ["int", "boolean", "void"] then some s else none
  | _ => none

/-- A type. -/
def typeExpr : Reading (TypeExpr Pos) := do
  let p ← pos
  match (← get).typeName? with
  | some name =>
    advance
    return ⟨p, name, ← brackets name⟩
  | none => unexpected .type

/-- A type and a name. -/
def typedName : Reading (VarDecl Pos) := do
  let p ← pos
  let t ← typeExpr
  return ⟨p, t, ← ident⟩

/-- The declaration of a variable. -/
def varDecl : Reading (VarDecl Pos) := do
  let d ← typedName
  expect ";"
  return d

/-- A declaration of a variable is next: `int` or `boolean`, a name before another
name, or `String` before a bracket. -/
def Cursor.atVarDecl (c : Cursor) : Bool :=
  match c.head?, c.second? with
  | some (.fixed s), _ => s = "int" || s = "boolean"
  | some (.name _), some (.name _) => true
  | some (.name s), some (.fixed b) => s = "String" && b = "["
  | _, _ => false

/-! ## Statements -/

/-- An expression as a statement. -/
def exprStmt : Reading (Stmt Pos) := do
  let p ← pos
  let x ← expr
  expect ";"
  return .expr p x

/-- An assignment to a name, which is next together with its `=`. -/
def assignment (name : String) : Reading (Stmt Pos) := do
  let p ← pos
  advance
  advance
  let v ← expr
  expect ";"
  return .assign p ⟨p, name⟩ v

/-- An assignment to an element of an array, whose name is next together with a
bracket. -/
def arrayAssignment (name : String) : Reading (Stmt Pos) := do
  let p ← pos
  advance
  advance
  let i ← expr
  expect "]"
  expect "="
  let v ← expr
  expect ";"
  return .arrayAssign p ⟨p, name⟩ i v

/-- Read in a first way, or from the same place in a second way if that fails. -/
def orElse (first second : Reading α) : Reading α := fun c =>
  match first c with
  | .ok r => .ok r
  | .error _ => second c

/-- A statement that starts with a name or an operand. -/
def simpleStmt : Reading (Stmt Pos) := do
  let c ← get
  match c.head?, c.second? with
  | some (.name s), some (.fixed "=") => assignment s
  | some (.name s), some (.fixed "[") => orElse (arrayAssignment s) exprStmt
  | _, _ => exprStmt

/-- A statement whose inner statements are read in the given way. -/
def stmtOver (stmt : Reading (Stmt Pos)) : Reading (Stmt Pos) := do
  let p ← pos
  if ← accept "\x7b" then
    let ss ← manyWhile (fun c => !c.nextIs "\x7d") stmt
    expect "\x7d"
    return .block p ss
  else if ← accept "if" then
    let c ← parenthesized expr
    let yes ← stmt
    expect "else"
    let no ← stmt
    return .ifElse p c yes no
  else if ← accept "while" then
    let c ← parenthesized expr
    return .while p c (← stmt)
  else
    simpleStmt

/-- A statement that is nested less than a number of times. -/
def stmtWithin : Nat → Reading (Stmt Pos)
  | 0 => problem .tooDeep
  | n + 1 => stmtOver (stmtWithin n)

/-- A statement. -/
def stmt : Reading (Stmt Pos) := do stmtWithin (← get).bound

/-! ## Methods, classes and files -/

/-- What stands before the body of a method. -/
structure Signature where
  isStatic : Bool
  ret : TypeExpr Pos
  name : String
  params : List (VarDecl Pos)

/-- The only static method: `void main(String[] …)`. The place is that of the
method. -/
def mainSignature (p : Pos) : Reading Signature := do
  let ret : TypeExpr Pos := ⟨← pos, "void", false⟩
  expect "void"
  let name ← ident
  if name ≠ "main" then throw ⟨p, .staticNotMain name⟩
  expect "("
  let q ← pos
  let t ← typeExpr
  if t.name ≠ "String" ∨ !t.array then throw ⟨q, .mainParameter⟩
  let arg ← ident
  expect ")"
  return ⟨true, ret, name, [⟨q, t, arg⟩]⟩

/-- The return type, name and parameters of a method. -/
def instanceSignature : Reading Signature := do
  let ret ← typeExpr
  let name ← ident
  expect "("
  let params ← commaSeparated ")" typedName
  return ⟨false, ret, name, params⟩

/-- The end of a body: `return` with or without a value, or nothing. -/
def returnClause : Reading (Option (Expr Pos)) := do
  if ← accept "return" then
    if ← accept ";" then
      return none
    else
      let x ← expr
      expect ";"
      return some x
  else
    return none

/-- A method. -/
def method : Reading (Method Pos) := do
  let p ← pos
  advance
  let s ← if ← accept "static" then mainSignature p else instanceSignature
  expect "\x7b"
  let locals ← manyWhile Cursor.atVarDecl varDecl
  let body ← manyWhile (fun c => !c.nextIs "\x7d" && !c.nextIs "return") stmt
  let result ← returnClause
  expect "\x7d"
  return { mark := p, isStatic := s.isStatic, ret := s.ret, name := s.name, params := s.params,
           locals, body, result }

/-- Names joined by dots. -/
def dottedRest : Nat → Reading (List String)
  | 0 => problem .tooDeep
  | n + 1 => do
    let name ← ident
    if ← accept "." then
      return name :: (← dottedRest n)
    else
      return [name]

/-- An import. -/
def importDecl : Reading (Import Pos) := do
  let p ← pos
  advance
  let path ← dottedRest (← get).bound
  expect ";"
  return ⟨p, path⟩

/-- The superclass, if one is given. -/
def superclass : Reading String := do
  if ← accept "extends" then ident else return ""

/-- A class. -/
def classDecl : Reading (Class Pos) := do
  let p ← pos
  expect "class"
  let name ← ident
  let super ← superclass
  expect "\x7b"
  let fields ← manyWhile Cursor.atVarDecl varDecl
  let methods ← manyWhile (·.nextIs "public") method
  expect "\x7d"
  return { mark := p, name, super, fields, methods }

/-- A file, up to the end of the text. -/
def file : Reading (File Pos) := do
  let p ← pos
  let imports ← manyWhile (·.nextIs "import") importDecl
  let cls ← classDecl
  if (← get).rest.isEmpty then
    return ⟨p, imports, cls⟩
  else
    unexpected .endOfFile

/-- Read a source text. -/
def parse (bytes : List UInt8) : Except SyntaxError (File Pos) := do
  let (tokens, stop) ← scan bytes
  let (f, _) ← file ⟨tokens, stop⟩
  return f

/-- The diagnostic of a syntax error. -/
def SyntaxError.diagnostic (e : SyntaxError) : Diagnostic :=
  .error .syntactic e.pos.line e.pos.col e.problem.message

end JavaMinus.Syntax
