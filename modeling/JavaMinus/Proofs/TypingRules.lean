import Mathlib
import JavaMinus.Typing.Analysis

/-!
# The typing rules

The rules of the language, told without the checker. A typed tree carries at every expression
its type and at every statement nothing (`none`); it is well typed (`WellTyped`,
`WellTypedStmt`, `WellTypedMethod`, `WellTypedFile`) if each node follows a rule. The rules look
at declarations as they are written (`Declarations`, `Context`) and at the types that the parts
of a node carry.

Nothing is known of an imported class. A value that comes from one has the type `unknown`, which
fits everything, and a class that extends one is assumed to have every member that it does not
declare.
-/

namespace JavaMinus.Typing

open Syntax

/-! ## Declarations -/

/-- A method as its callers see it. -/
structure Overload where
  name : String
  isStatic : Bool
  params : List Ty
  ret : Ty
  deriving DecidableEq

/-- What a file declares. Imports are simple names, and the superclass is empty if there is
none. -/
structure Declarations where
  cls : String
  super : String
  imports : List String
  fields : List (String × Ty)
  methods : List Overload

/-- What a method can see: the declarations of the file and its own variables. -/
structure Context extends Declarations where
  isStatic : Bool
  vars : List (String × Ty)

section Sources

variable {α : Type}

/-- The name and the type of a declared variable. -/
def nameAndType (d : VarDecl α) : String × Ty := (d.name, d.type.ty)

/-- The method as its callers see it. -/
def overloadOf (m : Syntax.Method α) : Overload :=
  ⟨m.name, m.isStatic, m.params.map fun d => d.type.ty, m.ret.ty⟩

/-- The declarations of a file. -/
def declarationsOf (f : File α) : Declarations where
  cls := f.cls.name
  super := f.cls.super
  imports := f.imports.map fun i => i.name
  fields := f.cls.fields.map nameAndType
  methods := f.cls.methods.map overloadOf

/-- What a method sees among the declarations of its file. -/
def Declarations.within (Δ : Declarations) (m : Syntax.Method α) : Context where
  toDeclarations := Δ
  isStatic := m.isStatic
  vars := (m.params ++ m.locals).map nameAndType

end Sources

/-! ## Rules for types and names -/

/-- A class is this one or an imported one. -/
def Declarations.KnowsClass (Δ : Declarations) (c : String) : Prop := c = Δ.cls ∨ c ∈ Δ.imports

/-- A written type is known: its class is, if it names one. -/
def Declarations.KnowsType (Δ : Declarations) (τ : Ty) : Prop :=
  ∀ c, τ.base = .object c → Δ.KnowsClass c

/-- The superclass is another class, which is imported. -/
def Declarations.ExtendsImport (Δ : Declarations) : Prop :=
  Δ.super ≠ "" ∧ Δ.super ≠ Δ.cls ∧ Δ.super ∈ Δ.imports

/-- A value of the type that was found can be used where one of the wanted type is needed by an
operator, a condition or an index. -/
inductive Fits (want : Ty) : Ty → Prop where
  | same : Fits want want
  | unknown {found : Ty} : found.base = .unknown → Fits want found

/-- A value of a type can be stored in a variable of the wanted type. -/
inductive Assignable (Δ : Declarations) : (want found : Ty) → Prop where
  | same {τ : Ty} : Assignable Δ τ τ
  | toUnknown {want found : Ty} : want.base = .unknown → Assignable Δ want found
  | ofUnknown {want found : Ty} : found.base = .unknown → Assignable Δ want found
  | superclass : Δ.super ≠ "" → Assignable Δ (.object Δ.super) (.object Δ.cls)

/-- What an index into a value of a type gives: an element of an array, or an integer if the
type is unknown. -/
inductive ElementType : (array elem : Ty) → Prop where
  | array {base : Base} : base ≠ .unknown → ElementType ⟨base, true⟩ ⟨base, false⟩
  | unknown {τ : Ty} : τ.base = .unknown → ElementType τ .int

/-- The types of the operands and of the result of an operator. -/
inductive OperatorType : Operator → (operand result : Ty) → Prop where
  | arithmetic {op : Operator} : op ∈ [.add, .sub, .mul, .div] → OperatorType op .int .int
  | less : OperatorType .less .int .boolean
  | and : OperatorType .and .boolean .boolean

/-- What a name stands for as a value: a variable of the method, or else a field, or else a member
that the imported superclass is assumed to have. Only variables exist without an object. -/
inductive Names (Γ : Context) (name : String) : Ty → Prop where
  | var {τ : Ty} : (name, τ) ∈ Γ.vars → Names Γ name τ
  | field {τ : Ty} : Γ.isStatic = false → (∀ σ, (name, σ) ∉ Γ.vars) → (name, τ) ∈ Γ.fields →
      Names Γ name τ
  | assumed : Γ.isStatic = false → (∀ σ, (name, σ) ∉ Γ.vars) → (∀ σ, (name, σ) ∉ Γ.fields) →
      Γ.ExtendsImport → Names Γ name .unknown

/-- A name stands for a class, as the receiver of a call. -/
structure NamesClass (Γ : Context) (c : String) : Prop where
  known : Γ.KnowsClass c
  noVar : ∀ σ, (c, σ) ∉ Γ.vars
  noField : ∀ σ, (c, σ) ∉ Γ.fields

/-! ## Rules for calls -/

/-- Arguments of these types can be passed to a method of a name. -/
structure Applicable (Δ : Declarations) (name : String) (args : List Ty) (m : Overload) : Prop where
  listed : m ∈ Δ.methods
  name : m.name = name
  args : List.Forall₂ (Assignable Δ) m.params args

/-- A method is called: the only one with exactly the types of the arguments, or the only one
that they can be passed to. -/
inductive Chosen (Δ : Declarations) (name : String) (args : List Ty) (m : Overload) : Prop where
  | exact : Applicable Δ name args m → m.params = args →
      (∀ m', Applicable Δ name args m' → m'.params = args → m' = m) → Chosen Δ name args m
  | fitting : Applicable Δ name args m → (∀ m', Applicable Δ name args m' → m' = m) →
      Chosen Δ name args m

/-- The type of a call on a class (`true`) or on a value of a type. Static methods of the class
are called on the class and the others on an object. -/
inductive CallType (Δ : Declarations) (name : String) (args : List Ty) :
    (onClass : Bool) → (recv result : Ty) → Prop where
  | otherClass {c : String} : c ≠ Δ.cls → CallType Δ name args true (.object c) .unknown
  | static {m : Overload} : Chosen Δ name args m → m.isStatic = true →
      CallType Δ name args true (.object Δ.cls) m.ret
  | unknown {recv : Ty} : recv.base = .unknown → CallType Δ name args false recv .unknown
  | otherObject {c : String} : c ≠ Δ.cls → CallType Δ name args false (.object c) .unknown
  | method {m : Overload} : Chosen Δ name args m → m.isStatic = false →
      CallType Δ name args false (.object Δ.cls) m.ret
  | inherited : Δ.ExtendsImport → (∀ m, ¬ Applicable Δ name args m) →
      CallType Δ name args false (.object Δ.cls) .unknown

/-! ## Rules for trees -/

/-- The type that an expression carries. -/
def carried (x : Expr (Option Ty)) : Ty := x.mark?.join.getD .unknown

/-- The expression is a name that stands for a class. -/
def IsClassName (Γ : Context) : Expr (Option Ty) → Prop
  | .ident _ c => NamesClass Γ c
  | _ => False

/-- An expression carries the types that the rules give. -/
inductive WellTyped (Γ : Context) : Expr (Option Ty) → Prop where
  | int {v : Int32} : WellTyped Γ (.int (some .int) v)
  | bool {b : Bool} : WellTyped Γ (.bool (some .boolean) b)
  | this : Γ.isStatic = false → WellTyped Γ (.this (some (.object Γ.cls)))
  | ident {name : String} {τ : Ty} : Names Γ name τ → WellTyped Γ (.ident (some τ) name)
  | binary {op : Operator} {operand result : Ty} {l r : Expr (Option Ty)} :
      OperatorType op operand result → WellTyped Γ l → WellTyped Γ r → Fits operand (carried l) →
      Fits operand (carried r) → WellTyped Γ (.binary (some result) op l r)
  | not {x : Expr (Option Ty)} : WellTyped Γ x → Fits .boolean (carried x) →
      WellTyped Γ (.not (some .boolean) x)
  | index {a i : Expr (Option Ty)} {τ : Ty} : WellTyped Γ a → ElementType (carried a) τ →
      WellTyped Γ i → Fits .int (carried i) → WellTyped Γ (.index (some τ) a i)
  | length {a : Expr (Option Ty)} {τ : Ty} : WellTyped Γ a → ElementType (carried a) τ →
      WellTyped Γ (.length (some .int) a)
  | newArray {n : Expr (Option Ty)} : WellTyped Γ n → Fits .int (carried n) →
      WellTyped Γ (.newArray (some .intArray) n)
  | newObject {c : String} : Γ.KnowsClass c → WellTyped Γ (.newObject (some (.object c)) c)
  | callClass {c name : String} {as : List (Expr (Option Ty))} {τ : Ty} : NamesClass Γ c →
      (∀ a ∈ as, WellTyped Γ a) → (∀ a ∈ as, carried a ≠ .void) →
      CallType Γ.toDeclarations name (as.map carried) true (.object c) τ →
      WellTyped Γ (.call (some τ) (.ident (some (.object c)) c) name as)
  | callValue {r : Expr (Option Ty)} {name : String} {as : List (Expr (Option Ty))} {τ : Ty} :
      ¬ IsClassName Γ r → WellTyped Γ r →
      (∀ a ∈ as, WellTyped Γ a) → (∀ a ∈ as, carried a ≠ .void) →
      CallType Γ.toDeclarations name (as.map carried) false (carried r) τ →
      WellTyped Γ (.call (some τ) r name as)

/-- The name that is assigned to carries the type of what it stands for. -/
def WellTypedTarget (Γ : Context) (t : Target (Option Ty)) (τ : Ty) : Prop :=
  t.mark = some τ ∧ Names Γ t.name τ

/-- The expressions in a statement carry the types that the rules give. -/
inductive WellTypedStmt (Γ : Context) : Stmt (Option Ty) → Prop where
  | block {ss : List (Stmt (Option Ty))} : (∀ s ∈ ss, WellTypedStmt Γ s) →
      WellTypedStmt Γ (.block none ss)
  | ifElse {c : Expr (Option Ty)} {yes no : Stmt (Option Ty)} : WellTyped Γ c →
      Fits .boolean (carried c) → WellTypedStmt Γ yes → WellTypedStmt Γ no →
      WellTypedStmt Γ (.ifElse none c yes no)
  | while {c : Expr (Option Ty)} {body : Stmt (Option Ty)} : WellTyped Γ c →
      Fits .boolean (carried c) → WellTypedStmt Γ body → WellTypedStmt Γ (.while none c body)
  | assign {t : Target (Option Ty)} {v : Expr (Option Ty)} {τ : Ty} : WellTypedTarget Γ t τ →
      WellTyped Γ v → Assignable Γ.toDeclarations τ (carried v) →
      WellTypedStmt Γ (.assign none t v)
  | arrayAssign {t : Target (Option Ty)} {i v : Expr (Option Ty)} {τ elem : Ty} :
      WellTypedTarget Γ t τ → ElementType τ elem → WellTyped Γ i → Fits .int (carried i) →
      WellTyped Γ v → Assignable Γ.toDeclarations elem (carried v) →
      WellTypedStmt Γ (.arrayAssign none t i v)
  | expr {x : Expr (Option Ty)} : WellTyped Γ x → WellTypedStmt Γ (.expr none x)

/-- What a method of a type returns: nothing if it is void, and otherwise a value. -/
inductive Returns (Γ : Context) : (ret : Ty) → Option (Expr (Option Ty)) → Prop where
  | nothing : Returns Γ .void none
  | value {ret : Ty} {x : Expr (Option Ty)} : ret ≠ .void → WellTyped Γ x →
      Assignable Γ.toDeclarations ret (carried x) → Returns Γ ret (some x)

/-- The declaration of a variable has a known type, which is not void. -/
def WellTypedVar (Δ : Declarations) (d : VarDecl (Option Ty)) : Prop :=
  Δ.KnowsType d.type.ty ∧ d.type.ty ≠ .void

/-- A method follows the rules. -/
structure WellTypedMethod (Δ : Declarations) (m : Syntax.Method (Option Ty)) : Prop where
  ret : Δ.KnowsType m.ret.ty
  vars : ∀ d ∈ m.params ++ m.locals, WellTypedVar Δ d
  body : ∀ s ∈ m.body, WellTypedStmt (Δ.within m) s
  result : Returns (Δ.within m) m.ret.ty m.result

/-- The class is not imported, and it extends nothing or another class, which is imported. -/
structure WellTypedHeader (Δ : Declarations) : Prop where
  own : Δ.cls ∉ Δ.imports
  super : Δ.super = "" ∨ Δ.ExtendsImport

/-- A file follows the rules. -/
structure WellTypedFile (f : File (Option Ty)) : Prop where
  header : WellTypedHeader (declarationsOf f)
  fields : ∀ d ∈ f.cls.fields, WellTypedVar (declarationsOf f) d
  methods : ∀ m ∈ f.cls.methods, WellTypedMethod (declarationsOf f) m

/-! ## Types -/

theorem fits_iff {want found : Ty} : Fits want found ↔ clashes found want = false := by
  simp only [clashes, Ty.isUnknown, Bool.and_eq_false_iff, Bool.not_eq_eq_eq_not, Bool.not_false,
    decide_eq_true_eq, decide_eq_false_iff_not, ne_eq, not_not]
  constructor
  · rintro (_ | unknown)
    · exact .inr rfl
    · exact .inl unknown
  · rintro (unknown | rfl)
    · exact .unknown unknown
    · exact .same

theorem operatorType_iff {op : Operator} {operand result : Ty} :
    OperatorType op operand result ↔ operatorTypes op = some (operand, result) := by
  constructor
  · rintro (member | _ | _)
    · fin_cases member <;> rfl
    · rfl
    · rfl
  · intro types
    cases op with
    | less => cases types; exact .less
    | and => cases types; exact .and
    | not | other => cases types
    | _ => cases types; exact .arithmetic (by decide)

/-- The type that the checker gives to an index into a value. -/
def indexed (t : Ty) : Ty := if t.isUnknown then .int else if t.array then t.elem else .unknown

theorem elementType_iff {t τ : Ty} :
    ElementType t τ ↔ (!t.isUnknown && !t.array) = false ∧ indexed t = τ := by
  constructor
  · rintro (known | unknown)
    · simp [indexed, Ty.isUnknown, Ty.elem, known]
    · simp [indexed, Ty.isUnknown, unknown]
  · rintro ⟨indexable, rfl⟩
    by_cases unknown : t.base = .unknown
    · simp only [indexed, Ty.isUnknown, unknown, decide_true, if_true]
      exact .unknown unknown
    · obtain ⟨base, array⟩ := t
      obtain rfl : array = true := by simpa [Ty.isUnknown, unknown] using indexable
      simp only [indexed, Ty.isUnknown, unknown, decide_false, Bool.false_eq_true, if_false,
        if_true]
      exact .array unknown

theorem isObject_iff {t : Ty} : t.isObject = true ↔ ∃ c, t = .object c := by
  rcases t with ⟨_ | _ | _ | _ | _ | c, _ | _⟩ <;> simp [Ty.isObject, Ty.object]

/-! ## Declarations do not depend on marks -/

section

variable {α β : Type}

theorem overloadOf_map (g : α → β) (m : Syntax.Method α) : overloadOf (m.map g) = overloadOf m := by
  simp only [overloadOf, Syntax.Method.map, List.map_map]
  rfl

theorem within_map (g : α → β) (Δ : Declarations) (m : Syntax.Method α) :
    Δ.within (m.map g) = Δ.within m := by
  simp only [Declarations.within, Syntax.Method.map, List.map_append, List.map_map]
  rfl

theorem declarationsOf_map (g : α → β) (f : File α) :
    declarationsOf (f.map g) = declarationsOf f := by
  have methods : (overloadOf ∘ Syntax.Method.map g) = overloadOf := funext (overloadOf_map g)
  simp only [declarationsOf, File.map, Class.map, List.map_map, methods]
  rfl

end

end JavaMinus.Typing
