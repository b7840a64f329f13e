import JavaMinus.Syntax

/-!
# Printing syntax trees

A tree is printed as source text that reads back as the same tree, unless the first
statement of a body starts with an index into `String`, which reads as a
declaration. An operand is put in parentheses when its level is below the level
that its place asks for: the right side of an operator asks for one level more
than the operator has, `!` asks for its own level, and what an index, `.length` or
a call is applied to asks for the highest.

Lines are indented by one tab for each enclosing phrase, 15 at most. A tree that
is nested deeper has no printed form, nor has one that lacks a part.
-/

namespace JavaMinus.Syntax

variable {α : Type}

/-- A part of a tree, as the trail to a problem names it. -/
inductive Part where
  | method (name : String)
  | body
  | result
  | condition
  | thenBranch
  | elseBranch
  | value
  | index
  | left
  | right
  | receiver
  | arg (i : Nat)
  | len
  deriving DecidableEq, Repr, Inhabited

/-- The name of a part in messages. -/
def Part.text : Part → String
  | method name => "method " ++ name
  | body => "body"
  | result => "return"
  | condition => "cond"
  | thenBranch => "then"
  | elseBranch => "else"
  | value => "rhs"
  | index => "index"
  | left => "left"
  | right => "right"
  | receiver => "receiver"
  | arg i => "arg " ++ toString i
  | len => "len"

/-- Why a tree has no printed form. -/
inductive PrintError where
  | noExpr
  | noStmt
  | notAlone (kind : String)
  | within (part : Part) (cause : PrintError)
  | tooDeep
  deriving DecidableEq, Repr, Inhabited

/-- What a failure says: the trail to a missing part. A tree that is nested too
deep has no message. -/
def PrintError.message? : PrintError → Option String
  | noExpr => some "unsupported expr: <nil>"
  | noStmt => some "unsupported stmt: <nil>"
  | notAlone kind => some ("unsupported node: " ++ kind)
  | within part cause => cause.message?.map fun m => part.text ++ ": " ++ m
  | tooDeep => none

/-- A printed text, or why there is none. -/
abbrev Printed := Except PrintError String

/-- The printed form of a part, with the part on the trail of a problem. -/
def Printed.within (part : Part) : Printed → Printed
  | .ok s => .ok s
  | .error e => .error (.within part e)

/-- Text in parentheses if asked for. -/
def parens (c : Bool) (s : String) : String := if c then "(" ++ s ++ ")" else s

/-! ## Expressions -/

/-- The level of `!`. -/
def notLevel : Nat := 5

/-- The level of what an index, `.length` or a call is applied to. -/
def operandLevel : Nat := 6

mutual

/-- An expression at a place that asks for a level. -/
def Expr.print (outer : Nat) : Expr α → Printed
  | .binary _ op l r => do
    let left ← (l.print op.level).within .left
    let right ← (r.print (op.level + 1)).within .right
    return parens (op.level < outer) (left ++ " " ++ op.symbol ++ " " ++ right)
  | .not _ x => do
    let s ← x.print notLevel
    return parens (notLevel < outer) ("!" ++ s)
  | .index _ a i => do
    let array ← a.print operandLevel
    let index ← (i.print 0).within .index
    return array ++ "[" ++ index ++ "]"
  | .length _ a => do
    let array ← a.print operandLevel
    return array ++ ".length"
  | .call _ r name as => do
    let recv ← (r.print operandLevel).within .receiver
    let args ← Expr.printArgs 0 as
    return recv ++ "." ++ name ++ "(" ++ args ++ ")"
  | .int _ v => .ok (toString v.toInt)
  | .bool _ b => .ok (if b then "true" else "false")
  | .ident _ name => .ok name
  | .this _ => .ok "this"
  | .newArray _ n => do
    let len ← (n.print 0).within .len
    return "new int[" ++ len ++ "]"
  | .newObject _ name => .ok ("new " ++ name ++ "()")
  | .hole => .error .noExpr

/-- Arguments, of which the first has a number. -/
def Expr.printArgs (i : Nat) : List (Expr α) → Printed
  | [] => .ok ""
  | x :: rest => do
    let first ← (x.print 0).within (.arg i)
    let others ← Expr.printArgs (i + 1) rest
    return (if i = 0 then "" else ", ") ++ first ++ others

end

/-! ## Statements -/

/-- The greatest number of tabs before a line. -/
def maxIndent : Nat := 15

/-- The tabs before a line. -/
def indent (depth : Nat) : Printed :=
  if depth ≤ maxIndent then .ok (String.ofList (List.replicate depth '\t')) else .error .tooDeep

mutual

/-- A statement at a depth. -/
def Stmt.print (depth : Nat) : Stmt α → Printed
  | .block _ ss => do
    let tabs ← indent depth
    let body ← Stmt.printList (depth + 1) ss
    return tabs ++ "\x7b\n" ++ body ++ tabs ++ "\x7d\n"
  | .ifElse _ c y n => do
    let tabs ← indent depth
    let cond ← (c.print 0).within .condition
    let yes ← (y.print (depth + 1)).within .thenBranch
    let no ← (n.print (depth + 1)).within .elseBranch
    return tabs ++ "if (" ++ cond ++ ")\n" ++ yes ++ tabs ++ "else\n" ++ no
  | .while _ c b => do
    let tabs ← indent depth
    let cond ← (c.print 0).within .condition
    let body ← (b.print (depth + 1)).within .body
    return tabs ++ "while (" ++ cond ++ ")\n" ++ body
  | .assign _ t v => do
    let tabs ← indent depth
    let value ← (v.print 0).within .value
    return tabs ++ t.name ++ " = " ++ value ++ ";\n"
  | .arrayAssign _ t i v => do
    let tabs ← indent depth
    let index ← (i.print 0).within .index
    let value ← (v.print 0).within .value
    return tabs ++ t.name ++ "[" ++ index ++ "] = " ++ value ++ ";\n"
  | .expr _ x => do
    let tabs ← indent depth
    let s ← x.print 0
    return tabs ++ s ++ ";\n"
  | .hole => .error .noStmt

/-- Statements at a depth. -/
def Stmt.printList (depth : Nat) : List (Stmt α) → Printed
  | [] => .ok ""
  | s :: rest => do
    let first ← s.print depth
    let others ← Stmt.printList depth rest
    return first ++ others

end

/-! ## Declarations -/

/-- A type as it is written. -/
def TypeExpr.print (t : TypeExpr α) : String := if t.array then t.name ++ "[]" else t.name

/-- A type and a name. -/
def VarDecl.print (d : VarDecl α) : String := d.type.print ++ " " ++ d.name

/-- Declarations at a depth, one on each line. -/
def printDecls (depth : Nat) (ds : List (VarDecl α)) : Printed := do
  let lines ← ds.mapM fun d => do
    let tabs ← indent depth
    return tabs ++ d.print ++ ";\n"
  return String.join lines

/-- The `return` at the end of a body. -/
def printResult (depth : Nat) : Option (Expr α) → Printed
  | none => .ok ""
  | some x => do
    let tabs ← indent depth
    let s ← (x.print 0).within .result
    return tabs ++ "return " ++ s ++ ";\n"

/-- A method at a depth. -/
def Method.print (depth : Nat) (m : Method α) : Printed := do
  let tabs ← indent depth
  let locals ← printDecls (depth + 1) m.locals
  let body ← (Stmt.printList (depth + 1) m.body).within .body
  let result ← printResult (depth + 1) m.result
  return tabs ++ "public " ++ (if m.isStatic then "static " else "") ++
    m.ret.print ++ " " ++ m.name ++ "(" ++ ", ".intercalate (m.params.map VarDecl.print) ++
    ") \x7b\n" ++ locals ++ body ++ result ++ tabs ++ "\x7d\n"

/-- A file. Methods are set apart by empty lines, and so are the imports. -/
def File.print (f : File α) : Printed := do
  let fields ← printDecls 1 f.cls.fields
  let methods ← f.cls.methods.mapM fun m => (m.print 1).within (.method m.name)
  return String.join (f.imports.map fun i => "import " ++ i.qualified ++ ";\n") ++
    (if f.imports.isEmpty then "" else "\n") ++
    "class " ++ f.cls.name ++ (if f.cls.super = "" then "" else " extends " ++ f.cls.super) ++
    " \x7b\n" ++ fields ++ (if f.cls.fields.isEmpty || methods.isEmpty then "" else "\n") ++
    "\n".intercalate methods ++ "\x7d\n"

/-! ## Single nodes -/

/-- A node of a tree by itself. Classes, imports, declarations of variables and
types are printed only as parts of others. -/
inductive Node (α : Type) where
  | file (f : File α)
  | method (m : Method α)
  | stmt (s : Stmt α)
  | expr (x : Expr α)
  | cls (c : Class α)
  | importDecl (i : Import α)
  | varDecl (d : VarDecl α)
  | typeExpr (t : TypeExpr α)
  deriving Repr, Inhabited

/-- A node by itself, which may be missing. -/
def printNode : Option (Node α) → Printed
  | some (.file f) => f.print
  | some (.method m) => m.print 0
  | some (.stmt s) => s.print 0
  | some (.expr x) => x.print 0
  | some (.cls _) => .error (.notAlone "*ast.Class")
  | some (.importDecl _) => .error (.notAlone "*ast.Import")
  | some (.varDecl _) => .error (.notAlone "*ast.VarDecl")
  | some (.typeExpr _) => .error (.notAlone "*ast.TypeExpr")
  | none => .error (.notAlone "<nil>")

end JavaMinus.Syntax
