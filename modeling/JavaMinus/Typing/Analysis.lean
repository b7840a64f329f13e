import JavaMinus.Typing.Check

/-!
# The analysis of a file

A file is analysed together with its table. Trees that were built by hand may
lack parts; the checker cannot go on where a part is missing, and then there is
no analysis. It looks neither at methods that the table does not list nor at the
operands of an operator that it does not know.
-/

namespace JavaMinus

namespace Syntax

variable {α : Type}

mutual

/-- The checker meets no missing part in an expression. -/
def Expr.isCheckable : Expr α → Bool
  | .binary _ op l r => (Typing.operatorTypes op).isNone || (l.isCheckable && r.isCheckable)
  | .not _ x => x.isCheckable
  | .index _ a i => a.isCheckable && i.isCheckable
  | .length _ a => a.isCheckable
  | .call _ r _ as => r.isCheckable && Expr.areCheckable as
  | .newArray _ n => n.isCheckable
  | .hole => false
  | _ => true

/-- The checker meets no missing part in a list of expressions. -/
def Expr.areCheckable : List (Expr α) → Bool
  | [] => true
  | x :: rest => x.isCheckable && Expr.areCheckable rest

end

mutual

/-- The checker meets no missing part in a statement. -/
def Stmt.isCheckable : Stmt α → Bool
  | .block _ ss => Stmt.areCheckable ss
  | .ifElse _ c y n => c.isCheckable && y.isCheckable && n.isCheckable
  | .while _ c b => c.isCheckable && b.isCheckable
  | .assign _ _ v => v.isCheckable
  | .arrayAssign _ _ i v => i.isCheckable && v.isCheckable
  | .expr _ x => x.isCheckable
  | .hole => false

/-- The checker meets no missing part in a list of statements. -/
def Stmt.areCheckable : List (Stmt α) → Bool
  | [] => true
  | s :: rest => s.isCheckable && Stmt.areCheckable rest

end

/-- The checker meets no missing part in a method. -/
def Method.isCheckable (m : Method α) : Bool :=
  Stmt.areCheckable m.body && m.result.all Expr.isCheckable

end Syntax

namespace Typing

open Syntax

/-- A file with the findings of the checker, and its table. -/
structure Analysis where
  file : File Mark
  table : Table
  deriving Repr, Inhabited

/-- The checker meets no missing part in the methods that a table lists. -/
def isCheckable (t : Table) (f : File Pos) : Bool :=
  f.cls.methods.zipIdx.all fun (m, i) => (t.methodAt? i).isNone || m.isCheckable

/-- Analyse a file with its table. -/
def analyze (t : Table) (f : File Pos) : Logged Analysis := do
  let file ← checkFile t f
  return ⟨file, t⟩

/-- Analyse a file with its table, either of which may be missing. There is no
result if the checker meets a missing part. -/
def analyze? : Option (File Pos) → Option Table → Option (Logged (Option Analysis))
  | some f, some t => if isCheckable t f then some (some <$> analyze t f) else none
  | _, _ => some ⟨none, [semanticError {} "malformed compilation unit"]⟩

end Typing

end JavaMinus
