import JavaMinus.Code.FromTree
import JavaMinus.Proofs.PassedTrees

/-!
# The methods of a table

A table that is built without errors lists every method of the class at its place
(`buildTable_methods`), so that analysing a file checks each of them
(`analyze_methods`) and making code gives each of them code (`classCode_methods`).
-/

namespace JavaMinus

open Syntax List

/-! ## Stages over lists -/

namespace Logged

variable {α β : Type}

instance : LawfulMonad Logged := by
  refine LawfulMonad.mk' _ (fun x => ?_) (fun a f => ?_) (fun x f g => ?_)
  · exact congrArg (Logged.mk x.value) (append_nil _)
  · rfl
  · exact congrArg (Logged.mk _) (append_assoc _ _ _)

@[simp] theorem reports_pure (a : α) : (Pure.pure a : Logged α).reports = [] := rfl

@[simp] theorem reports_bind (x : Logged α) (f : α → Logged β) :
    (x >>= f).reports = x.reports ++ (f x.value).reports := rfl

theorem value_mapM (f : α → Logged β) (xs : List α) :
    (xs.mapM f).value = xs.map fun x => (f x).value := by
  induction xs with
  | nil => rfl
  | cons x rest ih => rw [mapM_cons, value_bind, value_bind, value_pure, ih, map_cons]

theorem reports_mapM (f : α → Logged β) (xs : List α) :
    (xs.mapM f).reports = xs.flatMap fun x => (f x).reports := by
  induction xs with
  | nil => rfl
  | cons x rest ih =>
    rw [mapM_cons, reports_bind, reports_bind, reports_pure, ih, append_nil,
      flatMap_cons]

theorem clean_mapM {f : α → Logged β} {xs : List α} :
    (xs.mapM f).Clean ↔ ∀ x ∈ xs, (f x).Clean := by
  simp only [Clean, hasErrors, reports_mapM, any_flatMap, any_eq_false, Bool.not_eq_true]

end Logged

/-! ## The table -/

section

theorem foldlM_keeps {α β : Type} {f : Table → α → Logged Table} (view : Table → β)
    (keeps : ∀ t x, view (f t x).value = view t) (xs : List α) (t : Table) :
    view (xs.foldlM f t).value = view t := by
  induction xs generalizing t with
  | nil => rfl
  | cons x rest ih => rw [foldlM_cons, Logged.value_bind, ih, keeps]

theorem addMethod_clean {t : Table} {entry : Syntax.Method Pos × Nat}
    (clean : (addMethod t entry).Clean) :
    (addMethod t entry).value =
      { t with methods := t.methods ++ [(methodSymbol entry.2 entry.1).value] } := by
  unfold addMethod at clean ⊢
  simp only [Logged.clean_bind, Logged.value_bind] at clean ⊢
  split
  case h_1 prev found =>
    simp only [found, Logged.clean_bind] at clean
    exact absurd clean.2.1 (Logged.not_clean_tell_error _ _ _ _)
  case h_2 => rfl

theorem foldlM_addMethod {entries : List (Syntax.Method Pos × Nat)} {t : Table}
    (clean : (entries.foldlM addMethod t).Clean) :
    (entries.foldlM addMethod t).value.methods =
      t.methods ++ entries.map fun e => (methodSymbol e.2 e.1).value := by
  induction entries generalizing t with
  | nil => simp
  | cons entry rest ih =>
    rw [foldlM_cons, Logged.clean_bind] at clean
    rw [foldlM_cons, Logged.value_bind, ih clean.2, addMethod_clean clean.1]
    simp

theorem addField_keeps (t : Table) (d : VarDecl Pos) :
    ((addField t d).value.cls, (addField t d).value.methods) = (t.cls, t.methods) := by
  unfold addField
  split <;> rfl

theorem addImport_keeps (t : Table) (i : Import Pos) :
    ((addImport t i).value.cls, (addImport t i).value.methods) = (t.cls, t.methods) := by
  unfold addImport
  split <;> rfl

variable {f : File Pos}

theorem buildTable_methods (clean : (buildTable f).Clean) : (buildTable f).value.methods =
      f.cls.methods.zipIdx.map fun e => (methodSymbol e.2 e.1).value := by
  unfold buildTable at clean ⊢
  simp only [Logged.clean_bind, Logged.value_bind] at clean ⊢
  rw [foldlM_addMethod clean.2.2, foldlM_keeps (·.methods), foldlM_keeps (·.methods)]
  · rfl
  · exact fun t i => congrArg Prod.snd (addImport_keeps t i)
  · exact fun t d => congrArg Prod.snd (addField_keeps t d)

variable {i : Nat} {d : Syntax.Method Pos}

theorem getElem?_methods (clean : (buildTable f).Clean) (declared : f.cls.methods[i]? = some d) :
    (buildTable f).value.methods[i]? = some (methodSymbol i d).value := by
  simp [buildTable_methods clean, declared]

theorem methodAt?_eq (clean : (buildTable f).Clean) (declared : f.cls.methods[i]? = some d) :
    (buildTable f).value.methodAt? i = some (methodSymbol i d).value := by
  have here := getElem?_methods clean declared
  obtain ⟨bound, same⟩ := List.getElem?_eq_some_iff.mp here
  have place : ∀ (k : Nat) (s : MethodSymbol),
      (buildTable f).value.methods[k]? = some s → s.decl = k := by
    intro k s found
    rw [buildTable_methods clean, List.getElem?_map, List.getElem?_zipIdx, Option.map_map,
      Option.map_eq_some_iff] at found
    obtain ⟨m, _, rfl⟩ := found
    exact Nat.zero_add k
  refine List.find?_eq_some_iff_append.mpr ⟨by simpa using place i _ here,
    (buildTable f).value.methods.take i, (buildTable f).value.methods.drop (i + 1), ?_, ?_⟩
  · rw [← same, getElem_cons_drop, take_append_drop]
  · intro s before
    obtain ⟨k, below, rfl⟩ := mem_take_iff_getElem.mp before
    have := place k _ (List.getElem?_eq_getElem (by omega))
    simp
    omega

end

/-! ## Analysis and code -/

section

open Typing

variable {f : File Pos} {i : Nat} {d : Syntax.Method Pos}

theorem analyze_methods (built : (buildTable f).Clean)
    (analysed : (analyze (buildTable f).value f).Clean) (declared : f.cls.methods[i]? = some d) :
    (checkMethod ⟨(buildTable f).value, (methodSymbol i d).value⟩ d).Clean ∧
      (analyze (buildTable f).value f).value.file.cls.methods[i]? =
        some (checkMethod ⟨(buildTable f).value, (methodSymbol i d).value⟩ d).value := by
  have entry : checkMethodAt (buildTable f).value (d, i) =
      checkMethod ⟨(buildTable f).value, (methodSymbol i d).value⟩ d := by
    rw [checkMethodAt, methodAt?_eq built declared]
  simp only [analyze, checkFile, checkClass, Logged.clean_bind, Logged.clean_mapM] at analysed
  rw [← entry]
  refine ⟨analysed.1.1.2.2.1 (d, i) ?_, ?_⟩
  · exact mem_zipIdx_iff_getElem?.mpr declared
  · have methods : (analyze (buildTable f).value f).value.file.cls.methods =
        f.cls.methods.zipIdx.map fun e => (checkMethodAt (buildTable f).value e).value :=
      Logged.value_mapM _ _
    simp [methods, declared]

theorem classCode_methods (built : (buildTable f).Clean)
    (analysed : (analyze (buildTable f).value f).Clean)
    (silent : (Code.classCode (analyze (buildTable f).value f).value).reports = [])
    (declared : f.cls.methods[i]? = some d) {s : MethodSymbol} {m : Syntax.Method Typing.Mark}
    (isSymbol : s = (methodSymbol i d).value)
    (isChecked : m = (checkMethod ⟨(buildTable f).value, s⟩ d).value) :
    (Code.methodCode (buildTable f).value.cls s m).reports = [] ∧
      (Code.classCode (analyze (buildTable f).value f).value).value.methods[i + 1]? =
        some (Code.methodCode (buildTable f).value.cls s m).value := by
  subst isSymbol isChecked
  have here := getElem?_methods built declared
  have checked := (analyze_methods built analysed declared).2
  simp only [Code.classCode, Logged.reports_bind, Logged.reports_mapM, append_eq_nil_iff,
    flatMap_eq_nil_iff] at silent
  have mine := silent.1 _ (mem_of_getElem? here)
  have entry : (analyze (buildTable f).value f).value.file.cls.methods[
      (methodSymbol i d).value.decl]? = _ := checked
  refine ⟨?_, ?_⟩
  · rw [entry] at mine
    exact mine
  · simp only [Code.classCode, Logged.value_bind, Logged.value_mapM, Logged.value_pure,
      List.getElem?_cons_succ, List.getElem?_map]
    have listed : (analyze (buildTable f).value f).value.table.methods[i]? =
        some (methodSymbol i d).value := here
    rw [listed, Option.map_some, entry]
    rfl

end

/-! ## Variables -/

theorem declSymbol_known (d : VarDecl Pos) : (declSymbol d).type.isUnknown = false := by
  simp only [declSymbol, TypeExpr.ty, Ty.named, Ty.isUnknown, Base.named]
  split_ifs <;> simp

end JavaMinus
