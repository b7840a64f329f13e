import JavaMinus.Symbols

/-!
# What checking finds out

The checker leaves its findings on the nodes of the tree. An expression gets its
type; one whose type is unknown may get the type that its context asks for as a
hint; a name gets what it refers to, and a call what it calls.
-/

namespace JavaMinus.Typing

open Syntax

/-- What a name can refer to. `assumed` is a member that an imported superclass is
assumed to have. -/
inductive RefKind where
  | localVar
  | param
  | field
  | cls
  | assumed
  deriving DecidableEq, Repr, Inhabited

/-- The word for what a name refers to. -/
def RefKind.text : RefKind → String
  | localVar => "local"
  | param => "param"
  | field => "field"
  | cls => "class"
  | assumed => "assumed"

/-- What a name refers to, and its type. -/
structure Ref where
  kind : RefKind
  type : Ty
  deriving DecidableEq, Repr, Inhabited

/-- The class that a reference names. -/
def Ref.className (r : Ref) : String :=
  match r.kind with
  | .cls => r.type.className
  | _ => ""

/-- What a call calls: a method on a class or on an object, the class that owns it
(empty if unknown), the declared method unless one is assumed to exist
elsewhere, and the type of the result. -/
structure Callee where
  isStatic : Bool
  owner : String
  method : Option MethodSymbol
  ret : Ty
  deriving DecidableEq, Repr, Inhabited

/-- The place of a node and what was found out about it. -/
structure Mark where
  pos : Pos
  type : Option Ty := none
  hint : Option Ty := none
  ref : Option Ref := none
  callee : Option Callee := none
  deriving DecidableEq, Repr, Inhabited

/-- The type to use for an expression: its own, or the hint if that is unknown. -/
def Mark.useType? (m : Mark) : Option Ty :=
  match m.type with
  | some t => if t.isUnknown then m.hint else some t
  | none => m.hint

/-- A node about which nothing was found out. -/
def Mark.plain (p : Pos) : Mark := { pos := p }

/-- The type that was found for an expression. -/
def typeOf (x : Expr Mark) : Ty := ((x.mark?.bind (·.type))).getD .unknown

/-- Leave a hint on an expression: only a type that is known, and only where the
type of the expression is not. -/
def hinted (want : Ty) (x : Expr Mark) : Expr Mark :=
  if want.isUnknown || !(typeOf x).isUnknown then x
  else x.modifyMark fun m => { m with hint := some want }

end JavaMinus.Typing
