import JavaMinus.Operator

/-!
# Syntax trees

The tree of a source file. Every node carries a mark of a type that is a
parameter: the place in the source after reading, the place together with the
findings of the type checker later on, and nothing at all where two trees are to
be compared up to such marks.

A tree can also be built by hand, and then a statement or an expression may be
missing. `Stmt.hole` and `Expr.hole` stand for what is missing; reading a source
text never makes one.
-/

namespace JavaMinus

/-- A place in the source: line and column, both counted from 1. Columns count
bytes. The nodes of a tree that was built by hand may be at any place, also below
zero. -/
structure Pos where
  line : Int := 0
  col : Int := 0
  deriving DecidableEq, Repr, Inhabited

/-- The place after a number of bytes on one line. -/
def Pos.skip (p : Pos) (n : Nat) : Pos := { p with col := p.col + n }

/-- The start of the next line. -/
def Pos.newline (p : Pos) : Pos := ⟨p.line + 1, 1⟩

namespace Syntax

variable {α β : Type}

/-- An expression. -/
inductive Expr (α : Type) where
  | binary (mark : α) (op : Operator) (left right : Expr α)
  | not (mark : α) (x : Expr α)
  | index (mark : α) (array index : Expr α)
  | length (mark : α) (array : Expr α)
  | call (mark : α) (recv : Expr α) (method : String) (args : List (Expr α))
  | int (mark : α) (value : Int32)
  | bool (mark : α) (value : Bool)
  | ident (mark : α) (name : String)
  | this (mark : α)
  | newArray (mark : α) (len : Expr α)
  | newObject (mark : α) (name : String)
  | hole
  deriving Repr, Inhabited

/-- A name that is assigned to. -/
structure Target (α : Type) where
  mark : α
  name : String
  deriving Repr, Inhabited

/-- A statement. -/
inductive Stmt (α : Type) where
  | block (mark : α) (stmts : List (Stmt α))
  | ifElse (mark : α) (cond : Expr α) (yes no : Stmt α)
  | while (mark : α) (cond : Expr α) (body : Stmt α)
  | assign (mark : α) (target : Target α) (value : Expr α)
  | arrayAssign (mark : α) (target : Target α) (index value : Expr α)
  | expr (mark : α) (x : Expr α)
  | hole
  deriving Repr, Inhabited

/-- A type as it is written. -/
structure TypeExpr (α : Type) where
  mark : α
  name : String
  array : Bool := false
  deriving Repr, Inhabited

/-- The declaration of a field, a parameter or a local variable. -/
structure VarDecl (α : Type) where
  mark : α
  type : TypeExpr α
  name : String
  deriving Repr, Inhabited

/-- The declaration of a method. -/
structure Method (α : Type) where
  mark : α
  isStatic : Bool := false
  ret : TypeExpr α
  name : String
  params : List (VarDecl α) := []
  locals : List (VarDecl α) := []
  body : List (Stmt α) := []
  result : Option (Expr α) := none
  deriving Repr, Inhabited

/-- An import: the parts of a qualified name. -/
structure Import (α : Type) where
  mark : α
  path : List String
  deriving Repr, Inhabited

/-- The declaration of a class. The superclass is empty if none is given. -/
structure Class (α : Type) where
  mark : α
  name : String
  super : String := ""
  fields : List (VarDecl α) := []
  methods : List (Method α) := []
  deriving Repr, Inhabited

/-- A source file: imports and one class. -/
structure File (α : Type) where
  mark : α
  imports : List (Import α) := []
  cls : Class α
  deriving Repr, Inhabited

/-! ## Parts -/

/-- The simple name of an import: its last part. -/
def Import.name (i : Import α) : String := i.path.getLast?.getD ""

/-- The qualified name of an import. -/
def Import.qualified (i : Import α) : String := ".".intercalate i.path

/-- The method that a program starts with. -/
def Method.isMain (m : Method α) : Bool := m.isStatic && m.name = "main"

/-- The mark of an expression that is there. -/
def Expr.mark? : Expr α → Option α
  | binary m _ _ _ => some m
  | not m _ => some m
  | index m _ _ => some m
  | length m _ => some m
  | call m _ _ _ => some m
  | int m _ => some m
  | bool m _ => some m
  | ident m _ => some m
  | this m => some m
  | newArray m _ => some m
  | newObject m _ => some m
  | hole => none

/-- The expression with another mark at its root. -/
def Expr.modifyMark (f : α → α) : Expr α → Expr α
  | binary m op l r => binary (f m) op l r
  | not m x => not (f m) x
  | index m a i => index (f m) a i
  | length m a => length (f m) a
  | call m r n as => call (f m) r n as
  | int m v => int (f m) v
  | bool m v => bool (f m) v
  | ident m n => ident (f m) n
  | this m => this (f m)
  | newArray m n => newArray (f m) n
  | newObject m n => newObject (f m) n
  | hole => hole

/-! ## The marks of expressions -/

mutual

/-- The marks of an expression and of its parts, from left to right, each before
those of its parts. -/
def Expr.marks : Expr α → List α
  | .binary m _ l r => m :: (l.marks ++ r.marks)
  | .not m x => m :: x.marks
  | .index m a i => m :: (a.marks ++ i.marks)
  | .length m a => m :: a.marks
  | .call m r _ as => m :: (r.marks ++ Expr.marksList as)
  | .int m _ => [m]
  | .bool m _ => [m]
  | .ident m _ => [m]
  | .this m => [m]
  | .newArray m n => m :: n.marks
  | .newObject m _ => [m]
  | .hole => []

/-- The marks of the expressions of a list. -/
def Expr.marksList : List (Expr α) → List α
  | [] => []
  | x :: rest => x.marks ++ Expr.marksList rest

end

mutual

/-- The marks of the expressions in a statement. The name that is assigned to
counts as one. -/
def Stmt.exprMarks : Stmt α → List α
  | .block _ ss => Stmt.exprMarksList ss
  | .ifElse _ c y n => c.marks ++ y.exprMarks ++ n.exprMarks
  | .while _ c b => c.marks ++ b.exprMarks
  | .assign _ t v => t.mark :: v.marks
  | .arrayAssign _ t i v => t.mark :: (i.marks ++ v.marks)
  | .expr _ x => x.marks
  | .hole => []

/-- The marks of the expressions in statements. -/
def Stmt.exprMarksList : List (Stmt α) → List α
  | [] => []
  | s :: rest => s.exprMarks ++ Stmt.exprMarksList rest

end

/-- The marks of the expressions in a method: those of its statements, then those
of its result. -/
def Method.exprMarks (m : Method α) : List α :=
  Stmt.exprMarksList m.body ++
    match m.result with
    | some x => x.marks
    | none => []

/-- The marks of the expressions in a file. -/
def File.exprMarks (f : File α) : List α := f.cls.methods.flatMap Method.exprMarks

/-! ## Changing all marks -/

mutual

/-- The expression with every mark changed. -/
def Expr.map (f : α → β) : Expr α → Expr β
  | .binary m op l r => .binary (f m) op (l.map f) (r.map f)
  | .not m x => .not (f m) (x.map f)
  | .index m a i => .index (f m) (a.map f) (i.map f)
  | .length m a => .length (f m) (a.map f)
  | .call m r n as => .call (f m) (r.map f) n (Expr.mapList f as)
  | .int m v => .int (f m) v
  | .bool m v => .bool (f m) v
  | .ident m n => .ident (f m) n
  | .this m => .this (f m)
  | .newArray m n => .newArray (f m) (n.map f)
  | .newObject m n => .newObject (f m) n
  | .hole => .hole

/-- The expressions of a list with every mark changed. -/
def Expr.mapList (f : α → β) : List (Expr α) → List (Expr β)
  | [] => []
  | x :: rest => x.map f :: Expr.mapList f rest

end

/-- The target with its mark changed. -/
def Target.map (f : α → β) (t : Target α) : Target β := ⟨f t.mark, t.name⟩

mutual

/-- The statement with every mark changed. -/
def Stmt.map (f : α → β) : Stmt α → Stmt β
  | .block m ss => .block (f m) (Stmt.mapList f ss)
  | .ifElse m c y n => .ifElse (f m) (c.map f) (y.map f) (n.map f)
  | .while m c b => .while (f m) (c.map f) (b.map f)
  | .assign m t v => .assign (f m) (t.map f) (v.map f)
  | .arrayAssign m t i v => .arrayAssign (f m) (t.map f) (i.map f) (v.map f)
  | .expr m x => .expr (f m) (x.map f)
  | .hole => .hole

/-- The statements of a list with every mark changed. -/
def Stmt.mapList (f : α → β) : List (Stmt α) → List (Stmt β)
  | [] => []
  | s :: rest => s.map f :: Stmt.mapList f rest

end

/-- The type with its mark changed. -/
def TypeExpr.map (f : α → β) (t : TypeExpr α) : TypeExpr β := ⟨f t.mark, t.name, t.array⟩

/-- The declaration with every mark changed. -/
def VarDecl.map (f : α → β) (d : VarDecl α) : VarDecl β := ⟨f d.mark, d.type.map f, d.name⟩

/-- The method with every mark changed. -/
def Method.map (f : α → β) (m : Method α) : Method β where
  mark := f m.mark
  isStatic := m.isStatic
  ret := m.ret.map f
  name := m.name
  params := m.params.map (VarDecl.map f)
  locals := m.locals.map (VarDecl.map f)
  body := Stmt.mapList f m.body
  result := m.result.map (Expr.map f)

/-- The class with every mark changed. -/
def Class.map (f : α → β) (c : Class α) : Class β where
  mark := f c.mark
  name := c.name
  super := c.super
  fields := c.fields.map (VarDecl.map f)
  methods := c.methods.map (Method.map f)

/-- The file with every mark changed. -/
def File.map (f : α → β) (x : File α) : File β where
  mark := f x.mark
  imports := x.imports.map fun i => ⟨f i.mark, i.path⟩
  cls := x.cls.map f

end Syntax

end JavaMinus
