/-!
# Static types

A type of the language is a base with an array flag: arrays are one level deep.
The base `unknown` stands for whatever cannot be seen, such as the result of a
method of an imported class. Two class types are equal when their names are.
-/

namespace JavaMinus

/-- What the values of a type are, arrays aside. -/
inductive Base where
  | unknown
  | int
  | boolean
  | string
  | void
  | object (name : String)
  deriving DecidableEq, Repr, Inhabited

/-- A static type: a base, or the arrays over a base. -/
structure Ty where
  base : Base
  array : Bool := false
  deriving DecidableEq, Repr, Inhabited

namespace Base

/-- The word for a base. Objects have none of their own: their class names them. -/
def word : Base → String
  | unknown => "unknown"
  | int => "int"
  | boolean => "boolean"
  | string => "String"
  | void => "void"
  | object _ => ""

/-- The name of a base in messages and listings. -/
def text : Base → String
  | object name => name
  | base => base.word

/-- The base that a type name of the source denotes. -/
def named (name : String) : Base :=
  if name = "int" then int
  else if name = "boolean" then boolean
  else if name = "String" then string
  else if name = "void" then void
  else object name

end Base

namespace Ty

/-- The type that nothing is known about. -/
def unknown : Ty := ⟨.unknown, false⟩

/-- The type of 32-bit integers. -/
def int : Ty := ⟨.int, false⟩

/-- The type of truth values. -/
def boolean : Ty := ⟨.boolean, false⟩

/-- The type of a method without result. -/
def void : Ty := ⟨.void, false⟩

/-- The type of arrays of integers. -/
def intArray : Ty := ⟨.int, true⟩

/-- The type of the objects of a class. -/
def object (name : String) : Ty := ⟨.object name, false⟩

/-- The type that a type name of the source denotes, with its brackets. -/
def named (name : String) (array : Bool) : Ty := ⟨.named name, array⟩

/-- Nothing is known about the base. An array over it is unknown as well. -/
def isUnknown (t : Ty) : Bool := t.base = .unknown

/-- The type of the objects of some class. -/
def isObject (t : Ty) : Bool :=
  match t with
  | ⟨.object _, false⟩ => true
  | _ => false

/-- The type of a method without result. -/
def isVoid (t : Ty) : Bool := t = void

/-- The values are references: arrays, strings and objects. -/
def isRef (t : Ty) : Bool :=
  t.array ||
    match t.base with
    | .string => true
    | .object _ => true
    | _ => false

/-- The class of an object type, and no name for every other type. -/
def className (t : Ty) : String :=
  match t.base with
  | .object name => name
  | _ => ""

/-- The type of the elements of an array. -/
def elem (t : Ty) : Ty := { t with array := false }

/-- The type of the arrays over a base. -/
def arrayOf (t : Ty) : Ty := { t with array := true }

/-- The name of a type in messages and listings. -/
def text (t : Ty) : String :=
  if t.array then t.base.text ++ "[]" else t.base.text

end Ty

end JavaMinus
