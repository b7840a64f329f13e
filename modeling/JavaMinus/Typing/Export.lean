import JavaMinus.Text.Json
import JavaMinus.Typing.Analysis

/-!
# Exporting the analysed tree

The analysed tree is exported as JSON for other programs. A node of the export
has a kind and a place, and as far as they are not empty a name, a value, a type,
what it refers to, and children. A missing statement is left out; a missing
operand of an expression is null.
-/

namespace JavaMinus.Typing

open Syntax

/-- What a node of the export says of itself. -/
structure Entry where
  kind : String
  pos : Pos
  name : String := ""
  value : String := ""
  type : String := ""
  ref : String := ""
  deriving DecidableEq, Repr, Inhabited

/-- A node of the export. -/
inductive Outline where
  | null
  | node (entry : Entry) (children : List Outline)
  deriving Repr, Inhabited

namespace Outline

/-- The entries of an object that are not empty. -/
def textEntries (e : Entry) : List String :=
  ([("name", e.name), ("value", e.value), ("type", e.type), ("ref", e.ref)].filter
    fun (_, v) => v ≠ "").map fun (k, v) => Json.entry k (Json.string v)

/-- The entries of a node up to its children. -/
def ownEntries (e : Entry) : List String :=
  [Json.entry "kind" (Json.string e.kind), Json.entry "line" (toString e.pos.line),
    Json.entry "col" (toString e.pos.col)] ++ textEntries e

mutual

/-- Write a node at a level after a text. -/
def write (level : Nat) (out : String) : Outline → String
  | .null => out ++ "null"
  | .node e children =>
    let own := out ++ "\x7b" ++ ",".intercalate ((ownEntries e).map (Json.newline (level + 1) ++ ·))
    let all := match children with
      | [] => own
      | first :: rest =>
        writeRest (level + 2)
          (first.write (level + 2)
            (own ++ "," ++ Json.newline (level + 1) ++ Json.entry "children" "[" ++
              Json.newline (level + 2)))
          rest ++ Json.newline (level + 1) ++ "]"
    all ++ Json.newline level ++ "\x7d"

/-- Write the nodes after the first of a list at a level. -/
def writeRest (level : Nat) (out : String) : List Outline → String
  | [] => out
  | x :: rest => writeRest level (x.write level (out ++ "," ++ Json.newline level)) rest

end

end Outline

/-- A word for a truth value. -/
def boolText (b : Bool) : String := if b then "true" else "false"

/-- The entry of an expression. -/
def exprEntry (kind : String) (m : Mark) : Entry where
  kind := kind
  pos := m.pos
  type := (m.useType?.map Ty.text).getD ""

/-- The entry of a name. -/
def nameEntry (m : Mark) (name : String) : Entry :=
  { exprEntry "Ident" m with name, ref := (m.ref.map (·.kind.text)).getD "" }

mutual

/-- The export of an expression. -/
def exportExpr : Expr Mark → Outline
  | .binary m op l r =>
    .node { exprEntry "Binary" m with value := op.symbol } [exportExpr l, exportExpr r]
  | .not m x => .node (exprEntry "Not" m) [exportExpr x]
  | .index m a i => .node (exprEntry "Index" m) [exportExpr a, exportExpr i]
  | .length m a => .node (exprEntry "Length" m) [exportExpr a]
  | .call m r name as =>
    .node { exprEntry "Call" m with name } (exportExpr r :: exportExprs as)
  | .int m v => .node { exprEntry "Int" m with value := toString v.toInt } []
  | .bool m b => .node { exprEntry "Bool" m with value := boolText b } []
  | .ident m name => .node (nameEntry m name) []
  | .this m => .node (exprEntry "This" m) []
  | .newArray m n => .node (exprEntry "NewArray" m) [exportExpr n]
  | .newObject m name => .node { exprEntry "NewObject" m with name } []
  | .hole => .null

/-- The export of a list of expressions. -/
def exportExprs : List (Expr Mark) → List Outline
  | [] => []
  | x :: rest => exportExpr x :: exportExprs rest

end

/-- The export of an expression that is a part of a statement: nothing if it is
missing. -/
def exportPart : Expr Mark → List Outline
  | .hole => []
  | x => [exportExpr x]

/-- The export of the left side of an assignment. -/
def exportTarget (t : Target Mark) : Outline := .node (nameEntry t.mark t.name) []

mutual

/-- The export of a statement: nothing if it is missing. -/
def exportStmt : Stmt Mark → List Outline
  | .block m ss => [.node { kind := "Block", pos := m.pos } (exportStmts ss)]
  | .ifElse m c y n =>
    [.node { kind := "If", pos := m.pos } (exportPart c ++ exportStmt y ++ exportStmt n)]
  | .while m c b => [.node { kind := "While", pos := m.pos } (exportPart c ++ exportStmt b)]
  | .assign m t v => [.node { kind := "Assign", pos := m.pos } (exportTarget t :: exportPart v)]
  | .arrayAssign m t i v =>
    [.node { kind := "ArrayAssign", pos := m.pos }
      (exportTarget t :: (exportPart i ++ exportPart v))]
  | .expr m x => [.node { kind := "ExprStmt", pos := m.pos } (exportPart x)]
  | .hole => []

/-- The export of a list of statements. -/
def exportStmts : List (Stmt Mark) → List Outline
  | [] => []
  | s :: rest => exportStmt s ++ exportStmts rest

end

/-- The export of a declaration of the given kind. -/
def exportVar (kind : String) (d : VarDecl Mark) : Outline :=
  .node { kind, pos := d.mark.pos, name := d.name, type := d.type.ty.text } []

/-- The export of the value that a method returns. -/
def exportResult : Option (Expr Mark) → List Outline
  | some x =>
    [.node { kind := "Return", pos := (x.mark?.map (·.pos)).getD {} } [exportExpr x]]
  | none => []

/-- The export of a method. -/
def exportMethod (m : Method Mark) : Outline :=
  .node { kind := "Method", pos := m.mark.pos, name := m.name, type := m.ret.ty.text,
          value := if m.isStatic then "static" else "" }
    (m.params.map (exportVar "Param") ++ m.locals.map (exportVar "Var") ++ exportStmts m.body ++
      exportResult m.result)

/-- The export of a class. -/
def exportClass (c : Syntax.Class Mark) : Outline :=
  .node { kind := "Class", pos := c.mark.pos, name := c.name, value := c.super }
    (c.fields.map (exportVar "Var") ++ c.methods.map exportMethod)

/-- The export of a file. -/
def exportFile (f : File Mark) : Outline :=
  .node { kind := "Program", pos := f.mark.pos }
    (f.imports.map (fun i => .node { kind := "Import", pos := i.mark.pos, name := i.qualified } []) ++
      [exportClass f.cls])

/-- The JSON text of an analysed file. -/
def Analysis.json (a : Analysis) : String := (exportFile a.file).write 0 "" ++ "\n"

end JavaMinus.Typing
