import JavaMinus.Proofs.ListedMethods
import JavaMinus.Proofs.ReadTrees

/-!
# Values in checked trees

The virtual machine tells two kinds of values apart: references, and words for integers
and truth values. Types are alike (`Ty.Alike`) when their values are of the same kind. The
register that holds the value of an expression has the type that was found for it, or the
hint where nothing was found (`useOf`).

Code can be made for an expression that has a value (`Valued`): its names are resolved, its
operators are known, its calls have a callee that takes the arguments that are given, no
call in it is of a void method, and the types of its parts are what their places ask for.
The receiver of a call is a reference, with one exception. Nothing is known of the result of
a method of an imported class, and a call on such a result gives no hint, so that its
receiver is taken for an integer. The parameter `loose` says whether a tree has such
receivers. Code can be made for a statement (`Runnable`) if its expressions have values,
where the call of a statement may be of a void method.

**Checking.** A method that is checked without errors has a runnable body
(`PassedMethod.runnable`), with one kind of statement that stands out: a void call may be
assigned to a member that an imported superclass is assumed to have, since nothing is
known of the type of such a member (`Runnable.assignVoid`). Every other place that asks
for a value rules out a void call.
-/

namespace JavaMinus

theorem isVoid_iff {t : Ty} : t.isVoid = true ↔ t.base = .void ∧ t.array = false := by
  obtain ⟨base, array⟩ := t
  simp [Ty.isVoid, Ty.void]

/-! ## Kinds of values -/

namespace Ty

/-- The values are integers or truth values. -/
def isWord (t : Ty) : Bool := t = .int || t = .boolean

/-- The values of both types are references, or those of both are integers or truth
values. -/
def Alike (t t' : Ty) : Prop :=
  t.isRef = true ∧ t'.isRef = true ∨ t.isWord = true ∧ t'.isWord = true

/-- The type is known, and it is that of values. -/
def HasValues (t : Ty) : Prop := t.isUnknown = false ∧ t.isVoid = false

instance (t t' : Ty) : Decidable (t.Alike t') := inferInstanceAs (Decidable (_ ∨ _))

instance (t : Ty) : Decidable t.HasValues := inferInstanceAs (Decidable (_ ∧ _))

variable {t t' : Ty}

theorem isRef_of_isWord (word : t.isWord = true) : t.isRef = false := by
  rw [isWord, Bool.or_eq_true, decide_eq_true_eq, decide_eq_true_eq] at word
  rcases word with rfl | rfl <;> rfl

theorem isRef_of_isObject (object : t.isObject = true) : t.isRef = true := by
  rcases t with ⟨_ | _ | _ | _ | _ | c, _ | _⟩ <;> first | rfl | cases object

theorem Alike.symm (alike : t.Alike t') : t'.Alike t := alike.imp And.symm And.symm

theorem Alike.isRef_eq (alike : t.Alike t') : t.isRef = t'.isRef := by
  rcases alike with ⟨ref, ref'⟩ | ⟨word, word'⟩
  · rw [ref, ref']
  · rw [isRef_of_isWord word, isRef_of_isWord word']

theorem Alike.isWord (alike : t.Alike t') (word : t'.isWord = true) : t.isWord = true := by
  rcases alike with ⟨_, ref'⟩ | ⟨isWord, _⟩
  · rw [isRef_of_isWord word] at ref'
    cases ref'
  · exact isWord

theorem Alike.ne_void (alike : t.Alike t') : t ≠ .void := by
  rintro rfl
  rcases alike with ⟨never, _⟩ | ⟨never, _⟩ <;> cases never

theorem HasValues.alike (values : t.HasValues) : t.Alike t := by
  obtain ⟨known, valued⟩ := values
  rcases t with ⟨_ | _ | _ | _ | _ | c, _ | _⟩ <;> first
      | exact .inl ⟨rfl, rfl⟩
      | exact .inr ⟨rfl, rfl⟩
      | exact absurd known (by decide)
      | exact absurd valued (by decide)

theorem HasValues.of_base (known : t.isUnknown = false) (valued : t.base ≠ .void) : t.HasValues :=
  ⟨known, Bool.eq_false_iff.mpr fun void => valued (isVoid_iff.mp void).1⟩

end Ty

namespace Typing

theorem alike_of_assignable {t : Table} {want found : Ty} (fits : assignable t want found = true)
    (values : want.HasValues) (known : found.isUnknown = false) : found.Alike want := by
  simp only [assignable, Bool.or_eq_true, Bool.and_eq_true, decide_eq_true_eq, values.1, known,
    Bool.false_eq_true, or_false] at fits
  rcases fits with rfl | ⟨⟨object, object'⟩, _⟩
  · exact values.alike
  · exact .inl ⟨Ty.isRef_of_isObject object', Ty.isRef_of_isObject object⟩

end Typing

/-! ## Receivers -/

namespace Syntax

variable {α : Type}

mutual

/-- The receivers of the calls in an expression. -/
def Expr.receivers : Expr α → List (Expr α)
  | .binary _ _ l r => l.receivers ++ r.receivers
  | .not _ x => x.receivers
  | .index _ a i => a.receivers ++ i.receivers
  | .length _ a => a.receivers
  | .call _ r _ as => r :: (r.receivers ++ Expr.receiversOf as)
  | .newArray _ n => n.receivers
  | _ => []

/-- The receivers of the calls in expressions. -/
def Expr.receiversOf : List (Expr α) → List (Expr α)
  | [] => []
  | x :: rest => x.receivers ++ Expr.receiversOf rest

end

mutual

/-- The receivers of the calls in a statement. -/
def Stmt.receivers : Stmt α → List (Expr α)
  | .block _ ss => Stmt.receiversOf ss
  | .ifElse _ c y n => c.receivers ++ (y.receivers ++ n.receivers)
  | .while _ c b => c.receivers ++ b.receivers
  | .assign _ _ v => v.receivers
  | .arrayAssign _ _ i v => i.receivers ++ v.receivers
  | .expr _ x => x.receivers
  | .hole => []

/-- The receivers of the calls in statements. -/
def Stmt.receiversOf : List (Stmt α) → List (Expr α)
  | [] => []
  | s :: rest => s.receivers ++ Stmt.receiversOf rest

end

/-- The receivers of the calls in a method. -/
def Method.receivers (m : Method α) : List (Expr α) :=
  Stmt.receiversOf m.body ++ m.result.toList.flatMap Expr.receivers

/-- The receivers of the calls in a file. -/
def File.receivers (f : File α) : List (Expr α) := f.cls.methods.flatMap Method.receivers

theorem Expr.mem_receiversOf {xs : List (Expr α)} {r : Expr α} :
    r ∈ Expr.receiversOf xs ↔ ∃ x ∈ xs, r ∈ x.receivers := by
  induction xs with
  | nil => simp [Expr.receiversOf]
  | cons x rest ih => simp [Expr.receiversOf, ih]

theorem Stmt.mem_receiversOf {ss : List (Stmt α)} {r : Expr α} :
    r ∈ Stmt.receiversOf ss ↔ ∃ s ∈ ss, r ∈ s.receivers := by
  induction ss with
  | nil => simp [Stmt.receiversOf]
  | cons s rest ih => simp [Stmt.receiversOf, ih]

theorem Expr.receivers_of_part {x y r : Expr α} (part : y ∈ x.parts) (member : r ∈ y.receivers) :
    r ∈ x.receivers := by
  cases x with
  | call m recv name as =>
    simp only [Expr.receivers, List.mem_cons, List.mem_append, Expr.mem_receiversOf]
    rcases List.mem_cons.mp part with rfl | among
    · exact .inr (.inl member)
    · exact .inr (.inr ⟨y, among, member⟩)
  | binary m op l r | index m a i =>
    simp only [Expr.parts, List.mem_cons, List.not_mem_nil, or_false] at part
    rcases part with rfl | rfl <;> simp [Expr.receivers, member]
  | not m x | length m a | newArray m n => exact List.mem_singleton.mp part ▸ member
  | _ => cases part

end Syntax

namespace Code

open Syntax (Expr Stmt Target)
open Typing (Mark RefKind Callee Scope typeOf indexed hinted hintArgs calleeOf operatorTypes
  assignable clashes)

/-! ## Values and runnable statements -/

/-- The type of the register that holds the value of an expression. -/
def useOf (x : Expr Mark) : Ty := (x.mark?.map valueType).getD .int

/-- What a name refers to: a variable, a field that the class declares, or a member that an
imported superclass is assumed to have. Members belong to an object. -/
inductive NameFound (s : Scope) (m : Mark) (name : String) : Prop where
  | var {v : Symbol} {kind : RefKind} : s.method.var? name = some v →
      kind = .localVar ∨ kind = .param → m.ref = some ⟨kind, v.type⟩ → m.type = some v.type →
      v.type.HasValues → NameFound s m name
  | field {f : Symbol} : s.method.var? name = none → s.method.isStatic = false →
      s.table.field? name = some f → m.ref = some ⟨.field, f.type⟩ → m.type = some f.type →
      f.type.HasValues → NameFound s m name
  | assumed : s.method.var? name = none → s.method.isStatic = false →
      s.table.field? name = none → m.ref = some ⟨.assumed, .unknown⟩ → m.type = some .unknown →
      (valueType m).HasValues → NameFound s m name

/-- What a call calls. The result of a callee is known exactly if its method is, and the
arguments are alike to the parameters. -/
structure CallFound (m : Mark) (as : List (Expr Mark)) (callee : Callee) : Prop where
  found : m.callee = some callee
  result : m.type = some ((callee.method.map (·.ret)).getD .unknown)
  known : ∀ f, callee.method = some f → f.ret.isUnknown = false
  args : ∀ f, callee.method = some f → List.Forall₂ (fun x p => (useOf x).Alike p) as f.paramTypes

/-- Static calls are made on classes, and other calls on references. If that is not asked for,
the receiver may also be an integer, but then nothing is known of its class. -/
structure ReceiverFits (loose : Prop) (callee : Callee) (r : Expr Mark) : Prop where
  static : callee.isStatic = Meaning.namesClass r
  object : callee.isStatic = false → (useOf r).isRef = true ∨
    loose ∧ callee.owner = "" ∧ useOf r = .int

/-- The expression has a value that code can compute. -/
inductive Valued (s : Scope) (loose : Prop) : Expr Mark → Prop where
  | int {m : Mark} {v : Int32} : m.type = some .int → Valued s loose (.int m v)
  | bool {m : Mark} {b : Bool} : m.type = some .boolean → Valued s loose (.bool m b)
  | this {m : Mark} : s.method.isStatic = false → m.type = some (.object s.table.cls) →
      Valued s loose (.this m)
  | ident {m : Mark} {name : String} : NameFound s m name → Valued s loose (.ident m name)
  | binary {m : Mark} {op : Operator} {l r : Expr Mark} {operand result : Ty} :
      operatorTypes op = some (operand, result) → m.type = some result → Valued s loose l →
      useOf l = operand → Valued s loose r → useOf r = operand → Valued s loose (.binary m op l r)
  | not {m : Mark} {x : Expr Mark} : m.type = some .boolean → Valued s loose x →
      useOf x = .boolean → Valued s loose (.not m x)
  | index {m : Mark} {a i : Expr Mark} : m.type = some (useOf a).elem → Valued s loose a →
      (useOf a).array = true → (useOf a).elem.HasValues → Valued s loose i → useOf i = .int →
      Valued s loose (.index m a i)
  | length {m : Mark} {a : Expr Mark} : m.type = some .int → Valued s loose a →
      (useOf a).array = true → Valued s loose (.length m a)
  | newArray {m : Mark} {n : Expr Mark} : m.type = some .intArray → Valued s loose n →
      useOf n = .int → Valued s loose (.newArray m n)
  | newObject {m : Mark} {name : String} : m.type = some (.object name) →
      Valued s loose (.newObject m name)
  | call {m : Mark} {r : Expr Mark} {name : String} {as : List (Expr Mark)} {callee : Callee} :
      CallFound m as callee → ReceiverFits loose callee r →
      (callee.isStatic = false → Valued s loose r) → (∀ x ∈ as, Valued s loose x) →
      (valueType m).HasValues → Valued s loose (.call m r name as)

/-- A call whose receiver, unless it is static, and whose arguments have values. -/
structure Calling (s : Scope) (loose : Prop) (m : Mark) (r : Expr Mark) (as : List (Expr Mark))
    (callee : Callee) : Prop where
  found : CallFound m as callee
  fits : ReceiverFits loose callee r
  recv : callee.isStatic = false → Valued s loose r
  args : ∀ x ∈ as, Valued s loose x

/-- Code can be made for the statement. -/
inductive Runnable (s : Scope) (loose : Prop) : Stmt Mark → Prop where
  | block {p : Mark} {ss : List (Stmt Mark)} : (∀ x ∈ ss, Runnable s loose x) →
      Runnable s loose (.block p ss)
  | ifElse {p : Mark} {c : Expr Mark} {y n : Stmt Mark} : Valued s loose c → useOf c = .boolean →
      Runnable s loose y → Runnable s loose n → Runnable s loose (.ifElse p c y n)
  | while {p : Mark} {c : Expr Mark} {b : Stmt Mark} : Valued s loose c → useOf c = .boolean →
      Runnable s loose b → Runnable s loose (.while p c b)
  | assign {p : Mark} {t : Target Mark} {v : Expr Mark} : NameFound s t.mark t.name →
      Valued s loose v →
      ((refOf t.mark).type.isUnknown = false → (useOf v).Alike (refOf t.mark).type) →
      Runnable s loose (.assign p t v)
  /-- A void call that is assigned to a member that a superclass is assumed to have. -/
  | assignVoid {p : Mark} {t : Target Mark} {m : Mark} {r : Expr Mark} {name : String}
      {as : List (Expr Mark)} {callee : Callee} {f : MethodSymbol} :
      NameFound s t.mark t.name → (refOf t.mark).kind = .assumed → Calling s loose m r as callee →
      callee.method = some f → f.ret.isVoid = true →
      Runnable s loose (.assign p t (.call m r name as))
  | arrayAssign {p : Mark} {t : Target Mark} {i v : Expr Mark} : NameFound s t.mark t.name →
      (valueType t.mark).array = true → Valued s loose i → useOf i = .int → Valued s loose v →
      (useOf v).Alike (valueType t.mark).elem → Runnable s loose (.arrayAssign p t i v)
  | call {p m : Mark} {r : Expr Mark} {name : String} {as : List (Expr Mark)} {callee : Callee} :
      Calling s loose m r as callee → Runnable s loose (.expr p (.call m r name as))
  | expr {p : Mark} {x : Expr Mark} : (∀ m r name as, x ≠ .call m r name as) → Valued s loose x →
      Runnable s loose (.expr p x)

/-- The method ends with a value exactly if it has a result. -/
structure RunnableMethod (s : Scope) (loose : Prop) (m : Syntax.Method Mark) : Prop where
  body : ∀ x ∈ m.body, Runnable s loose x
  result : ∀ x ∈ m.result, Valued s loose x ∧ (useOf x).Alike s.method.ret
  returns : m.result.isSome = !s.method.ret.isVoid

section

variable {s : Scope} {loose : Prop} {m : Mark} {as : List (Expr Mark)} {callee : Callee}

theorem CallFound.arity (found : CallFound m as callee) (f : MethodSymbol)
    (known : callee.method = some f) : f.params.length = as.length := by
  simpa [MethodSymbol.paramTypes] using (found.args f known).length_eq.symm

/-! ## Types and hints -/

theorem valueType_of_known {t : Ty} (typed : m.type = some t) (known : t.isUnknown = false) :
    valueType m = t := by
  simp [valueType, Mark.useType?, typed, known]

theorem valueType_of_unknown {t : Ty} (typed : m.type = some t) (unknown : t.isUnknown = true) :
    valueType m = m.hint.getD .int := by
  simp [valueType, Mark.useType?, typed, unknown]

/-- A name is in a register, or in the object. -/
theorem NameFound.place {name : String} (named : NameFound s m name) :
    (∃ v, s.method.var? name = some v ∧
      ((refOf m).kind = .localVar ∨ (refOf m).kind = .param) ∧ (refOf m).type = v.type ∧
      valueType m = v.type) ∨
    s.method.var? name = none ∧ ((refOf m).kind = .field ∨ (refOf m).kind = .assumed) := by
  cases named with
  | @var v kind found isKind ref type values =>
    simp only [refOf, ref]
    exact .inl ⟨v, found, isKind, rfl, valueType_of_known type values.1⟩
  | field missing _ _ ref _ _ => exact .inr ⟨missing, .inl (by simp [refOf, ref])⟩
  | assumed missing _ _ ref _ _ => exact .inr ⟨missing, .inr (by simp [refOf, ref])⟩

theorem CallFound.ret (found : CallFound m as callee) (name : String) :
    (callInst callee none none name [] (valueType m)).ret = valueType m := by
  cases method : callee.method with
  | none => simp [callInst, method]
  | some f =>
    have result := found.result
    rw [method] at result
    simpa [callInst, method] using (valueType_of_known result (found.known f method)).symm

/-- A hint is used where nothing is known. -/
theorem valueType_hinted {t want : Ty} (typed : m.type = some t) (values : want.HasValues)
    (valued : (valueType m).HasValues) : (valueType { m with hint := some want }).HasValues := by
  cases unknown : t.isUnknown with
  | true =>
    rw [valueType_of_unknown (m := { m with hint := some want }) typed unknown]
    exact values
  | false =>
    rw [valueType_of_known (m := { m with hint := some want }) typed unknown]
    rwa [valueType_of_known typed unknown] at valued

theorem NameFound.hinted {name : String} (named : NameFound s m name) {want : Ty}
    (values : want.HasValues) : NameFound s { m with hint := some want } name := by
  cases named with
  | var found kind ref type known => exact .var found kind ref type known
  | field missing object found ref type known => exact .field missing object found ref type known
  | assumed missing object absent ref type valued =>
    exact .assumed missing object absent ref type (valueType_hinted type values valued)

theorem Valued.hinted {x : Expr Mark} (valued : Valued s loose x) {want : Ty}
    (values : want.isUnknown = false → want.HasValues) : Valued s loose (hinted want x) := by
  unfold Typing.hinted
  split
  case isTrue => exact valued
  case isFalse given =>
    have wanted : want.HasValues := by
      refine values ?_
      simp only [Bool.or_eq_true, not_or, Bool.not_eq_true] at given
      exact given.1
    cases valued with
    | int type => exact .int type
    | bool type => exact .bool type
    | this object type => exact .this object type
    | ident named => exact .ident (named.hinted wanted)
    | binary types type left isLeft right isRight =>
      exact .binary types type left isLeft right isRight
    | not type inner isInner => exact .not type inner isInner
    | index type array isArray elem index isIndex =>
      exact .index type array isArray elem index isIndex
    | length type array isArray => exact .length type array isArray
    | newArray type len isLen => exact .newArray type len isLen
    | newObject type => exact .newObject type
    | call found fits recv args valued =>
      exact .call ⟨found.found, found.result, found.known, found.args⟩ fits recv args
        (valueType_hinted found.result wanted valued)

theorem Valued.hasValues {x : Expr Mark} (valued : Valued s loose x) : (useOf x).HasValues := by
  have found : ∀ {m : Mark} {t : Ty}, m.type = some t → t.HasValues → (valueType m).HasValues :=
    fun type values => (valueType_of_known type values.1).symm ▸ values
  cases valued with
  | int type | bool type | not type | length type | newArray type | newObject type =>
    exact found type ⟨rfl, rfl⟩
  | this _ type => exact found type ⟨rfl, rfl⟩
  | ident named =>
    cases named with
    | var _ _ _ type values | field _ _ _ _ type values => exact found type values
    | assumed _ _ _ _ _ values => exact values
  | @binary m op l r operand result types type =>
    refine found type ?_
    cases op <;> cases types <;> exact ⟨rfl, rfl⟩
  | index type _ _ elem => exact found type elem
  | call _ _ _ _ values => exact values

end

/-! ## Expressions as the checker leaves them -/

/-- An expression with its type and without a hint. -/
def Fresh (y : Expr Mark) : Prop :=
  ∃ m, y.mark? = some m ∧ m.type = some (typeOf y) ∧ m.hint = none

namespace Fresh

variable {y : Expr Mark} (fresh : Fresh y)

include fresh

theorem useOf_of_known (known : (typeOf y).isUnknown = false) (want : Ty) :
    useOf (hinted want y) = typeOf y := by
  obtain ⟨m, isMark, typed, _⟩ := fresh
  have same : hinted want y = y := by simp [hinted, known]
  rw [same, useOf, isMark]
  exact valueType_of_known typed known

theorem useOf_of_unknown (unknown : (typeOf y).isUnknown = true) {want : Ty}
    (known : want.isUnknown = false) : useOf (hinted want y) = want := by
  obtain ⟨m, isMark, typed, _⟩ := fresh
  have same : hinted want y = y.modifyMark fun m => { m with hint := some want } := by
    simp [hinted, known, unknown]
  have mark : (y.modifyMark fun m => { m with hint := some want }).mark? =
      some { m with hint := some want } := by
    cases y <;> cases isMark <;> rfl
  rw [same, useOf, mark]
  exact valueType_of_unknown (m := { m with hint := some want }) typed unknown

theorem useOf_unhinted : useOf y = if (typeOf y).isUnknown then .int else typeOf y := by
  obtain ⟨m, isMark, typed, noHint⟩ := fresh
  rw [useOf, isMark, Option.map_some, Option.getD_some]
  split
  case isTrue unknown => rw [valueType_of_unknown typed unknown, noHint, Option.getD_none]
  case isFalse known => exact valueType_of_known typed (Bool.eq_false_iff.mpr known)

theorem useOf_of_not_clashes {want : Ty} (fits : clashes (typeOf y) want = false)
    (known : want.isUnknown = false) : useOf (hinted want y) = want := by
  cases unknown : (typeOf y).isUnknown with
  | true => exact fresh.useOf_of_unknown unknown known
  | false =>
    rw [fresh.useOf_of_known unknown]
    simpa [clashes, unknown] using fits

theorem useOf_array (fits : (!(typeOf y).isUnknown && !(typeOf y).array) = false) :
    (useOf (hinted .intArray y)).array = true ∧
      (useOf (hinted .intArray y)).elem = indexed (typeOf y) := by
  cases unknown : (typeOf y).isUnknown with
  | true =>
    rw [fresh.useOf_of_unknown unknown rfl, indexed, if_pos unknown]
    exact ⟨rfl, rfl⟩
  | false =>
    have array : (typeOf y).array = true := by simpa [unknown] using fits
    rw [fresh.useOf_of_known unknown, indexed, unknown, array]
    exact ⟨rfl, rfl⟩

theorem useOf_alike {t : Table} {want : Ty} (fits : assignable t want (typeOf y) = true)
    (values : want.HasValues) : (useOf (hinted want y)).Alike want := by
  cases unknown : (typeOf y).isUnknown with
  | true =>
    rw [fresh.useOf_of_unknown unknown values.1]
    exact values.alike
  | false =>
    rw [fresh.useOf_of_known unknown]
    exact Typing.alike_of_assignable fits values unknown

end Fresh


/-! ## Types in a scope -/

/-- The declared types that a scope can see: no variable, field or parameter is void, and there
are no arrays of nothing. -/
structure SoundScope (s : Scope) : Prop where
  ret : s.method.ret.isUnknown = false
  vars : ∀ n v, s.method.var? n = some v → v.type.isUnknown = false ∧ v.type.base ≠ .void
  fields : ∀ n f, s.table.field? n = some f → f.type.isUnknown = false ∧ f.type.base ≠ .void
  params : ∀ m ∈ s.table.methods, ∀ t ∈ m.paramTypes, t.HasValues
  returns : ∀ m ∈ s.table.methods,
    m.ret.isUnknown = false ∧ (m.ret.array = true → m.ret.base ≠ .void)

/-- A receiver of unknown type makes the tree loose. -/
def ReceiversFit (loose : Prop) (rs : List (Expr Mark)) : Prop :=
  ∀ r ∈ rs, (typeOf r).isUnknown = true → loose

theorem receivers_hinted (want : Ty) (x : Expr Mark) : (hinted want x).receivers = x.receivers := by
  unfold hinted
  split
  · rfl
  · cases x <;> simp [Expr.modifyMark, Expr.receivers]

theorem ReceiversFit.part {loose : Prop} {x y : Expr Mark}
    (fits : ReceiversFit loose x.receivers) {want : Ty} (part : hinted want y ∈ x.parts) :
    ReceiversFit loose y.receivers :=
  fun r member => fits r (Expr.receivers_of_part part (by rwa [receivers_hinted]))

section Parts

variable {loose : Prop} {rs rs' : List (Expr Mark)} (fits : ReceiversFit loose (rs ++ rs'))

include fits

theorem ReceiversFit.left : ReceiversFit loose rs :=
  fun r member => fits r (List.mem_append_left _ member)

theorem ReceiversFit.right : ReceiversFit loose rs' :=
  fun r member => fits r (List.mem_append_right _ member)

end Parts

theorem receivers_hintArgs {callee : Option Callee} {args : List (Expr Mark)} {r : Expr Mark}
    (member : r ∈ Expr.receiversOf args)
    (arity : ∀ f, callee.bind (·.method) = some f → f.params.length = args.length) :
    r ∈ Expr.receiversOf (hintArgs callee args) := by
  obtain ⟨x, among, inside⟩ := Expr.mem_receiversOf.mp member
  refine Expr.mem_receiversOf.mpr ?_
  unfold hintArgs
  split
  case h_1 f found =>
    obtain ⟨i, bound, rfl⟩ := List.mem_iff_getElem.mp among
    have count : f.paramTypes.length = args.length := by
      simpa [MethodSymbol.paramTypes] using arity f found
    refine ⟨_, List.getElem_mem (n := i) (by simpa [count] using bound), ?_⟩
    rwa [List.getElem_zipWith, receivers_hinted]
  case h_2 => exact ⟨x, among, inside⟩

theorem resolve_mem {t : Table} {name : String} {args : List Ty} {m : MethodSymbol}
    (found : Typing.resolve t name args = .found m) : m ∈ t.methods :=
  List.mem_of_mem_filter (List.mem_of_mem_filter (Typing.resolve_applies found))

theorem resolve_fits {t : Table} {name : String} {args : List Ty} {m : MethodSymbol}
    (found : Typing.resolve t name args = .found m) :
    List.Forall₂ (fun a p => assignable t p a = true) args m.paramTypes := by
  have applies := List.of_mem_filter (Typing.resolve_applies found)
  simp only [Typing.applicable, Bool.and_eq_true, decide_eq_true_eq, List.all_eq_true] at applies
  have length : args.length = m.paramTypes.length := by
    simpa [MethodSymbol.paramTypes] using applies.1.symm
  refine List.forall₂_iff_zip.mpr ⟨length, fun {a p} member => ?_⟩
  refine applies.2 (p, a) ?_
  rw [← List.zip_swap]
  exact List.mem_map.mpr ⟨(a, p), member, rfl⟩

/-- The result of a callee is that of its method, and nothing is known of it without one. -/
theorem calleeOf_ret {t : Table} {p : Pos} {onClass : Bool} {recv : Ty} {name : String}
    {args : List Ty} {callee : Callee}
    (found : (calleeOf t p onClass recv name args).value = some callee) :
    callee.ret = (callee.method.map (·.ret)).getD .unknown := by
  unfold calleeOf at found
  split at found
  · cases found; rfl
  split at found
  · cases found; rfl
  split at found
  · cases found
  split at found
  · cases found; rfl
  split at found
  · cases found
  · split at found <;> cases found
    rfl
  · cases found; rfl

/-- Nothing can be called but on an object, or on a receiver of which nothing is known. -/
theorem object_of_calleeOf {t : Table} {p : Pos} {recv : Ty} {name : String} {args : List Ty}
    {callee : Callee} (clean : (calleeOf t p false recv name args).Clean)
    (found : (calleeOf t p false recv name args).value = some callee) :
    recv.isUnknown = false ∧ recv.isObject = true ∨ recv.isUnknown = true ∧ callee.owner = "" := by
  simp only [calleeOf, Bool.false_and, Bool.false_eq_true, if_false] at clean found
  cases unknown : recv.isUnknown with
  | true =>
    rw [unknown] at found
    cases found
    exact .inr ⟨rfl, rfl⟩
  | false =>
    cases object : recv.isObject with
    | true => exact .inl ⟨rfl, rfl⟩
    | false =>
      rw [if_neg (by simp [unknown]), if_pos (by simp [object])] at clean
      simp only [Logged.clean_bind, Typing.not_clean_complain, false_and] at clean

theorem hinted_args_alike {t : Table} {args : List (Expr Mark)} {ps : List Ty}
    (fits : List.Forall₂ (fun a p => assignable t p a = true) (args.map typeOf) ps)
    (fresh : ∀ x ∈ args, Fresh x) (values : ∀ p ∈ ps, p.HasValues) :
    List.Forall₂ (fun x p => (useOf x).Alike p) (List.zipWith hinted ps args) ps := by
  induction ps generalizing args with
  | nil => simp
  | cons p ps ih =>
    cases args with
    | nil => cases fits
    | cons x rest =>
      cases fits with
      | cons first others =>
        obtain ⟨isFresh, restFresh⟩ := List.forall_mem_cons.mp fresh
        obtain ⟨value, restValues⟩ := List.forall_mem_cons.mp values
        exact .cons (isFresh.useOf_alike first value) (ih others restFresh restValues)

end Code

/-! ## Trees without errors -/

namespace Typing

open Code List
open Syntax (Expr Stmt)

section Types

variable {t want found : Ty}

theorem isVoid_of_isUnknown (unknown : t.isUnknown = true) : t.isVoid = false := by
  obtain ⟨_ | _, _ | _⟩ := t <;> first | rfl | cases unknown

theorem isVoid_of_isObject (object : t.isObject = true) : t.isVoid = false := by
  rcases t with ⟨_ | _ | _ | _ | _ | c, _ | _⟩ <;> first | rfl | cases object

theorem isVoid_of_not_clashes (fits : clashes t want = false) (wanted : want.isVoid = false) :
    t.isVoid = false := by
  unfold clashes at fits
  rw [Bool.and_eq_false_iff, Bool.not_eq_false', decide_eq_false_iff_not, not_not] at fits
  rcases fits with unknown | rfl
  · exact isVoid_of_isUnknown unknown
  · exact wanted

theorem isVoid_of_isArray (fits : (!t.isUnknown && !t.array) = false) : t.isVoid = false := by
  cases void : t.isVoid with
  | false => rfl
  | true =>
    obtain ⟨base, array⟩ := isVoid_iff.mp void
    simp [Ty.isUnknown, base, array] at fits

theorem hasValues_indexed (isArray : (!t.isUnknown && !t.array) = false)
    (valued : t.array = true → t.base ≠ .void) : (indexed t).HasValues := by
  rw [indexed]
  split_ifs with unknown array
  · exact ⟨rfl, rfl⟩
  · exact .of_base (Bool.eq_false_iff.mpr unknown) (valued array)
  · simp [unknown, array] at isArray

theorem isUnknown_of_assignable {table : Table} (fits : assignable table want found = true)
    (void : found.isVoid = true) (wanted : want.isVoid = false) : want.isUnknown = true := by
  obtain rfl : found = .void := by
    obtain ⟨base, array⟩ := found
    obtain ⟨rfl, rfl⟩ := isVoid_iff.mp void
    rfl
  have other : want ≠ .void := by
    rintro rfl
    cases wanted
  rw [assignable, decide_eq_false other] at fits
  simpa [Ty.isUnknown, Ty.isObject, Ty.void] using fits

end Types

section Checking

variable {s : Scope} {loose : Prop}

theorem Finds.named (sound : SoundScope s) {p : Pos} {name : String} {r : Ref}
    (finds : Finds s p name r) : NameFound s (refMark p r) name ∧ r.type.base ≠ .void ∧
      (r.type.isUnknown = true → r.kind = .assumed) := by
  obtain ⟨clean, found⟩ := finds
  unfold Scope.lookup at clean found
  split at found
  case h_1 v here =>
    cases found
    obtain ⟨known, valued⟩ := sound.vars name v here
    refine ⟨.var here ?_ rfl rfl (.of_base known valued), valued, fun unknown => by simp_all⟩
    split
    · exact .inr rfl
    · exact .inl rfl
  case h_2 missing =>
    rw [missing] at clean
    split at found
    case h_1 f here =>
      cases found
      rw [here] at clean
      simp only [Logged.clean_bind, clean_complainIf] at clean
      obtain ⟨known, valued⟩ := sound.fields name f here
      exact ⟨.field missing clean.1 here rfl rfl (.of_base known valued), valued,
        fun unknown => by simp_all⟩
    case h_2 noField =>
      split at found
      case isTrue assumed =>
        cases found
        rw [Bool.and_eq_true, Bool.not_eq_true'] at assumed
        exact ⟨.assumed missing assumed.2 noField rfl rfl ⟨rfl, rfl⟩, Base.noConfusion,
          fun _ => rfl⟩
      case isFalse => cases found

theorem Finds.named_array (sound : SoundScope s) {p : Pos} {name : String} {r : Ref}
    (finds : Finds s p name r) (isArray : (!r.type.isUnknown && !r.type.array) = false) :
    NameFound s (arrayMark p r) name ∧ (valueType (arrayMark p r)).array = true ∧
      (valueType (arrayMark p r)).elem = indexed r.type := by
  have named := (finds.named sound).1
  unfold arrayMark indexed
  split_ifs with unknown array
  · have used := valueType_of_unknown (m := { refMark p r with hint := some .intArray }) rfl unknown
    rw [used]
    exact ⟨named.hinted ⟨rfl, rfl⟩, rfl, rfl⟩
  · rw [valueType_of_known (m := refMark p r) rfl (Bool.eq_false_iff.mpr unknown)]
    exact ⟨named, array, rfl⟩
  · simp [unknown, array] at isArray

theorem Passed.fresh {x : Expr Mark} (passed : Passed s x) : Fresh x := by
  cases passed <;> exact ⟨_, rfl, rfl, rfl⟩

section Calls

variable {p : Pos} {recv : Expr Mark} {name : String} {args : List (Expr Mark)} {callee : Callee}

theorem Calls.method (calls : Calls s p recv name args callee) {m : MethodSymbol}
    (known : callee.method = some m) : resolve s.table name (args.map typeOf) = .found m :=
  calleeOf_method (by rw [calls.found]; exact known)

theorem Calls.recv_value (calls : Calls s p recv name args callee)
    (onObject : callee.isStatic = false) : (typeOf recv).isVoid = false := by
  obtain ⟨clean, found⟩ := calls
  rw [onObject] at clean found
  rcases object_of_calleeOf clean found with ⟨_, object⟩ | ⟨unknown, _⟩
  · exact isVoid_of_isObject object
  · exact isVoid_of_isUnknown unknown

theorem not_namesClass_of_valued {x : Expr Mark} (valued : Valued s loose x) :
    Meaning.namesClass x = false := by
  cases valued with
  | ident named =>
    cases named with
    | var _ kind ref => rcases kind with rfl | rfl <;> simp [Meaning.namesClass, ref]
    | field _ _ _ ref | assumed _ _ _ ref => simp [Meaning.namesClass, ref]
  | _ => rfl

/-- A call without errors, given that its receiver and its arguments have values. -/
theorem Calls.calling (sound : SoundScope s) (calls : Calls s p recv name args callee)
    (receives : Receives s callee.isStatic recv)
    (fits : ReceiversFit loose (Expr.receivers (.call (callMark p (some callee)) recv name
      (hintArgs (some callee) args))))
    (onObject : callee.isStatic = false →
      Fresh recv ∧ (ReceiversFit loose recv.receivers → Valued s loose recv))
    (each : ∀ x ∈ args, Fresh x ∧ (ReceiversFit loose x.receivers → Valued s loose x)) :
    Calling s loose (callMark p (some callee)) recv (hintArgs (some callee) args) callee := by
  have listed : ∀ {f}, callee.method = some f → f ∈ s.table.methods := fun isMethod =>
    resolve_mem (calls.method isMethod)
  have values := fun f (isMethod : callee.method = some f) => sound.params f (listed isMethod)
  have recvValued : callee.isStatic = false → Valued s loose recv := fun object =>
    (onObject object).2 fun r isRecv => fits r (by simp [Expr.receivers, isRecv])
  have argsValued : ∀ x ∈ args, Valued s loose x := by
    refine fun x member => (each x member).2 fun r isRecv => fits r ?_
    simp only [Expr.receivers, mem_cons, mem_append]
    refine .inr (.inr (receivers_hintArgs (Expr.mem_receiversOf.mpr ⟨x, member, isRecv⟩) ?_))
    intro f isMethod
    rw [resolve_arity (calls.method isMethod), length_map]
  refine ⟨⟨rfl, congrArg some (calleeOf_ret calls.found),
      fun f isMethod => (sound.returns f (listed isMethod)).1, fun f isMethod => ?_⟩,
    ⟨?_, fun object => ?_⟩, recvValued, forall_hintArgs argsValued
      fun f isMethod t among _ valued => valued.hinted fun _ => values f isMethod t among⟩
  · have hints : hintArgs (some callee) args = List.zipWith hinted f.paramTypes args := by
      simp [hintArgs, isMethod]
    rw [hints]
    exact hinted_args_alike (resolve_fits (calls.method isMethod)) (fun x among => (each x among).1)
      (values f isMethod)
  · cases static : callee.isStatic with
    | true => exact (static ▸ receives).class_of_static.1.symm
    | false => exact (not_namesClass_of_valued (recvValued static)).symm
  · have unhinted := (onObject object).1.useOf_unhinted
    obtain ⟨clean, found⟩ := calls
    rw [object] at clean found
    rcases object_of_calleeOf clean found with ⟨isKnown, isObject⟩ | ⟨unknown, owner⟩
    · refine .inl ?_
      rw [unhinted, isKnown]
      exact Ty.isRef_of_isObject isObject
    · refine .inr ⟨fits recv ?_ unknown, owner, ?_⟩
      · simp [Expr.receivers]
      · rw [unhinted, unknown]
        rfl

end Calls

variable (sound : SoundScope s)

include sound

theorem Passed.of_void {x : Expr Mark} (passed : Passed s x) (void : (typeOf x).base = .void) :
    (typeOf x).array = false ∧ ∃ m r name as, x = .call m r name as := by
  induction passed with
  | int | bool | this | not | length | newArray | newObject => cases void
  | ident finds => exact absurd void (finds.named sound).2.1
  | @binary p op operand result l r types => cases op <;> cases types <;> cases void
  | @index p a i _ _ _ _ array _ =>
    have element : (indexed (typeOf a)).base = .void := void
    unfold indexed at element
    split_ifs at element with unknown isArray
    · cases element
    · exact absurd ((array element).1.symm.trans isArray) (by decide)
    · cases element
  | @call p recv name args callee calls =>
    refine ⟨?_, _, _, _, _, rfl⟩
    have ret : callee.ret.base = .void := void
    change callee.ret.array = false
    rw [calleeOf_ret calls.found] at ret ⊢
    cases known : callee.method with
    | none => rfl
    | some m =>
      rw [known] at ret
      by_contra isArray
      exact (sound.returns m (resolve_mem (calls.method known))).2
        (Bool.eq_true_of_not_eq_false isArray) ret

/-- **An expression without errors has a value**, unless it is void. -/
theorem Passed.valued {x : Expr Mark} (passed : Passed s x)
    (fits : ReceiversFit loose x.receivers) (value : (typeOf x).isVoid = false) :
    Valued s loose x := by
  induction passed with
  | int => exact .int rfl
  | bool => exact .bool rfl
  | newObject => exact .newObject rfl
  | this object => exact .this object rfl
  | ident finds => exact .ident (finds.named sound).1
  | not passed wanted inner =>
    have valued := inner (fits.part (mem_singleton.mpr rfl)) (isVoid_of_not_clashes wanted rfl)
    exact .not rfl (valued.hinted fun _ => ⟨rfl, rfl⟩)
      (passed.fresh.useOf_of_not_clashes wanted rfl)
  | length passed isArray array =>
    have valued := array (fits.part (mem_singleton.mpr rfl)) (isVoid_of_isArray isArray)
    exact .length rfl (valued.hinted fun _ => ⟨rfl, rfl⟩) (passed.fresh.useOf_array isArray).1
  | newArray passed wanted len =>
    have valued := len (fits.part (mem_singleton.mpr rfl)) (isVoid_of_not_clashes wanted rfl)
    exact .newArray rfl (valued.hinted fun _ => ⟨rfl, rfl⟩)
      (passed.fresh.useOf_of_not_clashes wanted rfl)
  | index passed isArray passed' wanted array index =>
    obtain ⟨hasElements, elem⟩ := passed.fresh.useOf_array isArray
    have values := hasValues_indexed isArray fun array void => by
      rw [(passed.of_void sound void).1] at array
      cases array
    have valued := array (fits.part mem_cons_self) (isVoid_of_isArray isArray)
    have valued' := index (fits.part (mem_cons_of_mem _ mem_cons_self))
      (isVoid_of_not_clashes wanted rfl)
    exact .index (congrArg some elem.symm) (valued.hinted fun _ => ⟨rfl, rfl⟩) hasElements
      (elem ▸ values) (valued'.hinted fun _ => ⟨rfl, rfl⟩)
      (passed'.fresh.useOf_of_not_clashes wanted rfl)
  | @binary p op operand result l r types passed passed' wanted wanted' left right =>
    have values : operand.HasValues := by
      cases op <;> cases types <;> exact ⟨rfl, rfl⟩
    have valued := left (fits.part mem_cons_self) (isVoid_of_not_clashes wanted values.2)
    have valued' := right (fits.part (mem_cons_of_mem _ mem_cons_self))
      (isVoid_of_not_clashes wanted' values.2)
    exact .binary types rfl (valued.hinted fun _ => values)
      (passed.fresh.useOf_of_not_clashes wanted values.1) (valued'.hinted fun _ => values)
      (passed'.fresh.useOf_of_not_clashes wanted' values.1)
  | @call p recv name args callee calls receives passed each given inner valued =>
    have calling := calls.calling sound receives fits
      (fun object => ⟨(passed object).fresh, fun inside =>
        inner object inside (calls.recv_value object)⟩)
      fun x among => ⟨(each x among).fresh, fun inside => valued x among inside (given x among)⟩
    obtain ⟨found, fits, recvValued, argsValued⟩ := calling
    refine .call found fits recvValued argsValued ?_
    cases unknown : callee.ret.isUnknown with
    | true =>
      rw [valueType_of_unknown (m := callMark p (some callee)) rfl unknown]
      exact ⟨rfl, rfl⟩
    | false =>
      rw [valueType_of_known (m := callMark p (some callee)) rfl unknown]
      exact ⟨unknown, value⟩

theorem Passed.of_call {m : Mark} {r : Expr Mark} {name : String} {as : List (Expr Mark)}
    (passed : Passed s (.call m r name as))
    (fits : ReceiversFit loose (Expr.receivers (.call m r name as))) :
    ∃ callee, Calling s loose m r as callee ∧
      typeOf (.call m r name as) = (callee.method.map (·.ret)).getD .unknown := by
  cases passed with
  | call calls receives inner each values =>
    exact ⟨_, calls.calling sound receives fits
      (fun object => ⟨(inner object).fresh, fun inside =>
        (inner object).valued sound inside (calls.recv_value object)⟩)
      fun x among => ⟨(each x among).fresh, fun inside =>
        (each x among).valued sound inside (values x among)⟩, calleeOf_ret calls.found⟩

theorem Passed.valued_hinted {x : Expr Mark} (passed : Passed s x) {want : Ty}
    (values : want.HasValues) (wanted : clashes (typeOf x) want = false)
    (fits : ReceiversFit loose (hinted want x).receivers) :
    Valued s loose (hinted want x) ∧ useOf (hinted want x) = want := by
  rw [receivers_hinted] at fits
  exact ⟨(passed.valued sound fits (isVoid_of_not_clashes wanted values.2)).hinted fun _ => values,
    passed.fresh.useOf_of_not_clashes wanted values.1⟩

theorem Passed.valued_assigned {x : Expr Mark} (passed : Passed s x) {want : Ty}
    (values : want.HasValues) (assigned : assignable s.table want (typeOf x) = true)
    (fits : ReceiversFit loose (hinted want x).receivers) :
    Valued s loose (hinted want x) ∧ (useOf (hinted want x)).Alike want := by
  rw [receivers_hinted] at fits
  refine ⟨(passed.valued sound fits ?_).hinted fun _ => values,
    passed.fresh.useOf_alike assigned values⟩
  by_contra void
  have unknown := isUnknown_of_assignable assigned (Bool.eq_true_of_not_eq_false void) values.2
  rw [values.1] at unknown
  cases unknown

theorem runnable_assign {p : Mark} {q : Pos} {name : String} {r : Ref} {v : Expr Mark}
    (finds : Finds s q name r) (value : Passed s v)
    (assigned : assignable s.table r.type (typeOf v) = true)
    (fits : ReceiversFit loose (hinted r.type v).receivers) :
    Runnable s loose (.assign p ⟨refMark q r, name⟩ (hinted r.type v)) := by
  obtain ⟨named, base, assumed⟩ := finds.named sound
  cases unknown : r.type.isUnknown with
  | false =>
    obtain ⟨valued, alike⟩ := value.valued_assigned sound (.of_base unknown base) assigned fits
    exact .assign named valued fun _ => alike
  | true =>
    have plain : hinted r.type v = v := by
      rw [hinted, unknown]
      rfl
    rw [plain] at fits ⊢
    cases void : (typeOf v).isVoid with
    | false =>
      exact .assign named (value.valued sound fits void) fun known =>
        absurd (unknown.symm.trans known) (by decide)
    | true =>
      obtain ⟨_, m, recv, callName, args, rfl⟩ := value.of_void sound (isVoid_iff.mp void).1
      obtain ⟨callee, calling, type⟩ := value.of_call sound fits
      rw [type] at void
      cases known : callee.method with
      | none =>
        rw [known] at void
        cases void
      | some method =>
        rw [known] at void
        exact .assignVoid named (assumed unknown) calling known void

theorem PassedStmt.runnable {x : Stmt Mark} (passed : PassedStmt s x)
    (fits : ReceiversFit loose x.receivers) : Runnable s loose x := by
  induction passed with
  | block _ each =>
    exact .block fun x member => each x member fun r isRecv =>
      fits r (Stmt.mem_receiversOf.mpr ⟨x, member, isRecv⟩)
  | ifElse cond wanted _ _ yes no =>
    obtain ⟨valued, isCond⟩ := cond.valued_hinted sound ⟨rfl, rfl⟩ wanted fits.left
    exact .ifElse valued isCond (yes fits.right.left) (no fits.right.right)
  | «while» cond wanted _ body =>
    obtain ⟨valued, isCond⟩ := cond.valued_hinted sound ⟨rfl, rfl⟩ wanted fits.left
    exact .while valued isCond (body fits.right)
  | assign finds value assigned => exact runnable_assign sound finds value assigned fits
  | @arrayAssign p q name r i v finds isArray index wanted value assigned =>
    obtain ⟨named, array, elem⟩ := finds.named_array sound isArray
    obtain ⟨valued, isIndex⟩ := index.valued_hinted sound ⟨rfl, rfl⟩ wanted fits.left
    have values := hasValues_indexed isArray fun _ => (finds.named sound).2.1
    obtain ⟨valued', alike⟩ := value.valued_assigned sound values assigned fits.right
    exact .arrayAssign named array valued isIndex valued' (elem ▸ alike)
  | @expr p x inner =>
    by_cases isCall : ∃ m r name as, x = .call m r name as
    · obtain ⟨m, r, name, as, rfl⟩ := isCall
      obtain ⟨callee, calling, _⟩ := inner.of_call sound fits
      exact .call calling
    · refine .expr (fun m r name as same => isCall ⟨m, r, name, as, same⟩)
        (inner.valued sound fits ?_)
      by_contra void
      exact isCall (inner.of_void sound (isVoid_iff.mp (Bool.eq_true_of_not_eq_false void)).1).2

/-- **Checking.** A method without errors has a runnable body, and ends with a value exactly if it
has a result. -/
theorem PassedMethod.runnable {m : Syntax.Method Mark} (passed : PassedMethod s m)
    (fits : ReceiversFit loose m.receivers) : RunnableMethod s loose m := by
  refine ⟨fun x member => (passed.body x member).runnable sound fun r isRecv =>
    fits.left r (Stmt.mem_receiversOf.mpr ⟨x, member, isRecv⟩), fun x member => ?_, passed.returns⟩
  have inside : ReceiversFit loose x.receivers := fun r isRecv =>
    fits.right r (mem_flatMap.mpr ⟨x, Option.mem_toList.mpr member, isRecv⟩)
  have returns := passed.returns
  rw [Option.isSome_of_mem member] at returns
  obtain ⟨y, inner, assigned, rfl⟩ := passed.result x member
  exact inner.valued_assigned sound ⟨sound.ret, by simpa using returns.symm⟩ assigned inside

end Checking

end Typing

end JavaMinus
