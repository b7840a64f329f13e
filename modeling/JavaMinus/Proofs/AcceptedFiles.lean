import JavaMinus.Proofs.IndexedTables
import JavaMinus.Proofs.ValuedTrees

/-!
# Accepted files

A file is accepted when it is read, and its table is built and its tree is checked without
errors. The declared types of an accepted file are those of values (`Accepted.soundScope`), so
every method of it is runnable (`Accepted.runnable`).
-/

namespace JavaMinus.Code

open List

open Syntax (File VarDecl TypeExpr parse)
open Typing (Scope PassedMethod Analysis analyze checkMethod)

/-! ## Declared types -/

section

theorem clean_forM {α : Type} {f : α → Logged PUnit} {xs : List α} :
    (xs.forM f).Clean ↔ ∀ x ∈ xs, (f x).Clean := by
  induction xs with
  | nil => simp
  | cons x rest ih =>
    have step : (x :: rest).forM f = (f x >>= fun _ => rest.forM f) := rfl
    rw [step, Logged.clean_bind, ih, forall_mem_cons]

variable {α : Type}

theorem ty_isUnknown (t : TypeExpr α) : t.ty.isUnknown = false := by
  simp only [TypeExpr.ty, Ty.named, Ty.isUnknown, Base.named]
  split_ifs <;> simp

theorem ty_base_of_array {t : TypeExpr α} (readable : t.Readable) (array : t.ty.array = true) :
    t.ty.base ≠ .void := by
  have named : t.name = "int" ∨ t.name = "String" := readable.array array
  rcases named with named | named <;> simp [TypeExpr.ty, Ty.named, Base.named, named]

theorem ty_base_of_checked {table : Table} {t : TypeExpr Pos} (readable : t.Readable)
    (clean : (Typing.checkType table false t).Clean) : t.ty.base ≠ .void := by
  simp only [Typing.checkType, Logged.clean_bind, Typing.clean_complainIf, Bool.not_false,
    Bool.and_true] at clean
  cases array : t.ty.array with
  | true => exact ty_base_of_array readable array
  | false =>
    intro void
    rw [isVoid_iff.mpr ⟨void, array⟩] at clean
    exact absurd clean.1 (by decide)

theorem addField_mem {t : Table} {d : VarDecl Pos} {s : Symbol}
    (member : s ∈ (addField t d).value.fields) : s ∈ t.fields ∨ s = declSymbol d := by
  unfold addField at member
  split at member
  · exact .inl member
  · simpa using member

theorem addImport_fields (t : Table) (i : Syntax.Import Pos) :
    (addImport t i).value.fields = t.fields := by
  unfold addImport
  split <;> rfl

theorem addMethod_fields (t : Table) (entry : Syntax.Method Pos × Nat) :
    (addMethod t entry).value.fields = t.fields := by
  unfold addMethod
  simp only [Logged.value_bind]
  split <;> rfl

theorem buildTable_fields {f : File Pos} {s : Symbol} (member : s ∈ (buildTable f).value.fields) :
    ∃ d ∈ f.cls.fields, s = declSymbol d := by
  unfold buildTable at member
  simp only [Logged.value_bind] at member
  rw [foldlM_keeps (·.fields) addMethod_fields] at member
  have listed : ∀ (ds : List (VarDecl Pos)) (t : Table), s ∈ (ds.foldlM addField t).value.fields →
      s ∈ t.fields ∨ ∃ d ∈ ds, s = declSymbol d := by
    intro ds
    induction ds with
    | nil => exact fun t here => .inl here
    | cons d rest ih =>
      intro t here
      rw [foldlM_cons, Logged.value_bind] at here
      rcases ih _ here with before | ⟨d', later, same⟩
      · exact (addField_mem before).imp_right fun same => ⟨d, mem_cons_self, same⟩
      · exact .inr ⟨d', mem_cons_of_mem _ later, same⟩
  rcases listed _ _ member with before | declared
  · rw [foldlM_keeps (·.fields) addImport_fields] at before
    cases before
  · exact declared

end

/-! ## Accepted files -/

/-- The file is read from a text, and neither its table nor its tree has errors. -/
structure Accepted (bytes : List UInt8) (f : File Pos) : Prop where
  read : parse bytes = .ok f
  built : (buildTable f).Clean
  analysed : (analyze (buildTable f).value f).Clean

/-- The analysis of a file. -/
abbrev analysisOf (f : File Pos) : Analysis := (analyze (buildTable f).value f).value

/-- What a method of a file can see. -/
abbrev scopeOf (f : File Pos) (i : Nat) (d : Syntax.Method Pos) : Scope :=
  ⟨(buildTable f).value, (methodSymbol i d).value⟩

namespace Accepted

variable {bytes : List UInt8} {f : File Pos} {d : Syntax.Method Pos} {i : Nat}
  (accepted : Accepted bytes f)

include accepted

theorem methodReadable (member : d ∈ f.cls.methods) : d.Readable :=
  (Syntax.parse_readable accepted.read).cls.methods d member

theorem checked (declared : f.cls.methods[i]? = some d) : (checkMethod (scopeOf f i d) d).Clean :=
  (analyze_methods accepted.built accepted.analysed declared).1

theorem variable_base (declared : f.cls.methods[i]? = some d) {v : VarDecl Pos}
    (member : v ∈ d.params ++ d.locals) : (declSymbol v).type.base ≠ .void := by
  have clean := accepted.checked declared
  simp only [checkMethod, Logged.clean_bind, clean_forM] at clean
  have local_ := clean.2.1 v member
  simp only [Typing.checkLocal, Logged.clean_bind] at local_
  have readable := accepted.methodReadable (mem_of_getElem? declared)
  refine ty_base_of_checked ?_ local_.1
  rcases mem_append.mp member with param | isLocal
  · exact (readable.params v param).type
  · exact (readable.locals v isLocal).1.type

theorem mem_methods {m : MethodSymbol} (member : m ∈ (buildTable f).value.methods) :
    ∃ i d, f.cls.methods[i]? = some d ∧ m = (methodSymbol i d).value := by
  rw [buildTable_methods accepted.built] at member
  obtain ⟨⟨d, i⟩, entry, rfl⟩ := mem_map.mp member
  exact ⟨i, d, mem_zipIdx_iff_getElem?.mp entry, rfl⟩

theorem soundScope (declared : f.cls.methods[i]? = some d) : SoundScope (scopeOf f i d) where
  ret := ty_isUnknown d.ret
  vars n v found := by
    obtain ⟨decl, member, rfl, _⟩ := var?_declared found
    exact ⟨declSymbol_known decl, accepted.variable_base declared member⟩
  fields n s found := by
    obtain ⟨decl, member, rfl⟩ := buildTable_fields (mem_of_find?_eq_some found)
    have clean := accepted.analysed
    simp only [analyze, Typing.checkFile, Typing.checkClass, Logged.clean_bind, clean_forM] at clean
    have readable := (Syntax.parse_readable accepted.read).cls.fields decl member
    exact ⟨declSymbol_known decl, ty_base_of_checked readable.1.type (clean.1.1.2.1 decl member)⟩
  params m member t listed := by
    obtain ⟨j, e, there, rfl⟩ := accepted.mem_methods member
    obtain ⟨s, param, rfl⟩ := mem_map.mp listed
    obtain ⟨decl, among, rfl⟩ := mem_vars_declared (mem_append_left _ param)
    exact .of_base (declSymbol_known decl) (accepted.variable_base there among)
  returns m member := by
    obtain ⟨j, e, there, rfl⟩ := accepted.mem_methods member
    exact ⟨ty_isUnknown e.ret,
      ty_base_of_array (accepted.methodReadable (mem_of_getElem? there)).ret⟩

theorem passed (declared : f.cls.methods[i]? = some d) :
    PassedMethod (scopeOf f i d) (checkMethod (scopeOf f i d) d).value :=
  Typing.checkMethod_passed
    (accepted.methodReadable (mem_of_getElem? declared)).wellRead.complete
    (accepted.checked declared)

theorem runnable_of_fits {loose : Prop} (declared : f.cls.methods[i]? = some d)
    (fits : ReceiversFit loose (analysisOf f).file.receivers) :
    RunnableMethod (scopeOf f i d) loose (checkMethod (scopeOf f i d) d).value := by
  have here : (checkMethod (scopeOf f i d) d).value ∈ (analysisOf f).file.cls.methods :=
    mem_of_getElem? (analyze_methods accepted.built accepted.analysed declared).2
  exact (accepted.passed declared).runnable (accepted.soundScope declared)
    fun r member => fits r (mem_flatMap.mpr ⟨_, here, member⟩)

theorem runnable (declared : f.cls.methods[i]? = some d) :
    RunnableMethod (scopeOf f i d) True (checkMethod (scopeOf f i d) d).value :=
  accepted.runnable_of_fits declared fun _ _ _ => trivial

end Accepted

end JavaMinus.Code
