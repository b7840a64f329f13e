import JavaMinus.Proofs.TypedLookups

/-!
# Choosing an overload

A table lists no two methods with the same name and parameter types, so at most one of them has
exactly the types of the arguments of a call (`Table.HasExact.unique`). That one is called. Where
there is none, the arguments have to fit exactly one method, and a call that fits more than one is
ambiguous (`resolve_decides_overload`). To fit is said with the relation of the typing rules, which
lets a value of unknown type stand for any other.
-/

namespace JavaMinus

open Syntax Typing List

section Overloads

variable {t : Table} {Δ : Declarations} {name : String} {args : List Ty} {m n : MethodSymbol}

/-- A method is listed whose parameters have exactly the types of the arguments. -/
def Table.HasExact (t : Table) (name : String) (args : List Ty) (m : MethodSymbol) : Prop :=
  m ∈ t.methods ∧ m.name = name ∧ m.paramTypes = args

/-- A method is listed whose parameters are as many as the arguments, which can be assigned to
them. -/
def Table.HasFitting (t : Table) (Δ : Declarations) (name : String) (args : List Ty)
    (m : MethodSymbol) : Prop :=
  m ∈ t.methods ∧ m.name = name ∧ List.Forall₂ (Assignable Δ) m.paramTypes args

/-- The key of a listed method. -/
def MethodSymbol.key (m : MethodSymbol) : MethodKey := ⟨m.name, m.paramTypes⟩

theorem Table.HasExact.fitting (exact : t.HasExact name args m) : t.HasFitting Δ name args m := by
  obtain ⟨listed, named, rfl⟩ := exact
  exact ⟨listed, named, forall₂_same.mpr fun _ _ => .same⟩

theorem nodup_keys_firstsTable (f : File Pos) :
    ((firstsTable f).methods.map MethodSymbol.key).Nodup := by
  have keys : (firstsTable f).methods.map MethodSymbol.key =
      (firsts entryKey f.cls.methods.zipIdx).map entryKey := by
    rw [firstsTable, map_map]
    exact map_congr_left fun e _ => (entryKey_eq e).symm
  rw [keys]
  exact nodup_firsts

section Resolving

variable (cls : t.cls = Δ.cls) (super : t.super = Δ.super)

include cls super

theorem mem_fitting_iff :
    m ∈ (t.methodsNamed name).filter (applicable t args) ↔ t.HasFitting Δ name args m := by
  rw [mem_filter, Table.methodsNamed, mem_filter, decide_eq_true_eq, and_assoc,
    applicable_eq_true_iff cls super]
  rfl

theorem mem_exact_iff :
    m ∈ ((t.methodsNamed name).filter (applicable t args)).filter (fun m => m.paramTypes = args) ↔
      t.HasExact name args m := by
  rw [mem_filter, mem_fitting_iff cls super, decide_eq_true_eq]
  constructor
  · rintro ⟨⟨listed, named, _⟩, same⟩
    exact ⟨listed, named, same⟩
  · intro exact
    exact ⟨exact.fitting, exact.2.2⟩

theorem resolve_eq_missing_iff :
    resolve t name args = .missing ↔ ∀ m, ¬ t.HasFitting Δ name args m := by
  rw [resolve_eq, pick_eq_missing (filter_subset_self _), eq_nil_iff_forall_not_mem]
  exact forall_congr' fun m => not_congr (mem_fitting_iff cls super)

variable (distinct : (t.methods.map MethodSymbol.key).Nodup)

include distinct

omit cls super in
theorem Table.HasExact.unique (left : t.HasExact name args m) (right : t.HasExact name args n) :
    m = n := by
  obtain ⟨listed, rfl, rfl⟩ := left
  obtain ⟨listed', named, types⟩ := right
  exact inj_on_of_nodup_map distinct listed listed' (MethodKey.ext named.symm types.symm)

theorem resolve_eq_found_iff : resolve t name args = .found m ↔
      t.HasExact name args m ∨ (∀ n, ¬ t.HasExact name args n) ∧
          t.HasFitting Δ name args m ∧ ∀ n, t.HasFitting Δ name args n → n = m := by
  have listed : (t.methods.map id).Nodup := by
    rw [map_id]
    exact List.Nodup.of_map _ distinct
  have fitting : (((t.methodsNamed name).filter (applicable t args)).map id).Nodup :=
    listed.sublist ((filter_sublist.trans filter_sublist).map _)
  rw [resolve_eq, pick_eq_found (filter_subset_self _), only_iff fitting,
    only_iff (fitting.sublist (filter_sublist.map _))]
  simp only [mem_exact_iff cls super, mem_fitting_iff cls super, id_eq]
  constructor
  · rintro (⟨exact, _⟩ | ⟨fits, only⟩)
    · exact .inl exact
    · by_cases some : ∃ n, t.HasExact name args n
      · obtain ⟨n, exact⟩ := some
        exact .inl (only n exact.fitting ▸ exact)
      · exact .inr ⟨not_exists.mp some, fits, only⟩
  · rintro (exact | ⟨_, fits, only⟩)
    · exact .inl ⟨exact, fun n other => other.unique distinct exact⟩
    · exact .inr ⟨fits, only⟩

theorem resolve_eq_ambiguous_iff : resolve t name args = .ambiguous ↔
      (∀ n, ¬ t.HasExact name args n) ∧
        ∃ m n, t.HasFitting Δ name args m ∧ t.HasFitting Δ name args n ∧ m ≠ n := by
  have rest : resolve t name args = .ambiguous ↔
      resolve t name args ≠ .missing ∧ ∀ m, resolve t name args ≠ .found m := by
    cases resolve t name args <;> simp
  simp only [rest, ne_eq, resolve_eq_missing_iff cls super,
    resolve_eq_found_iff cls super distinct, not_or, not_and, not_forall, not_not]
  constructor
  · rintro ⟨⟨m, fits⟩, none⟩
    have noExact : ∀ n, ¬ t.HasExact name args n := fun n => (none n).1
    obtain ⟨n, fits', other⟩ := (none m).2 noExact fits
    exact ⟨noExact, n, m, fits', fits, other⟩
  · rintro ⟨noExact, m, n, fits, fits', other⟩
    refine ⟨⟨m, fits⟩, fun k => ⟨noExact k, fun _ _ => ?_⟩⟩
    by_cases same : m = k
    · exact ⟨n, fits', fun again => other (same.trans again.symm)⟩
    · exact ⟨m, fits, same⟩

end Resolving

end Overloads

/-- **Calls find the overload that the arguments decide.** Of the methods that the table of a file
lists under a name, at most one has exactly the types of the arguments. A method is found if it is
this one, or if there is no such method and it is the only one that the arguments fit. The call is
ambiguous if there is no exact method and the arguments fit more than one, and finds nothing if they
fit none. -/
theorem resolve_decides_overload (f : File Pos) (named : f.NamedByWords) (name : String)
    (args : List Ty) :
    let t := (buildTable f).value
    let Exact := t.HasExact name args
    let Fitting := t.HasFitting (declarationsOf f) name args
    (∀ m n, Exact m → Exact n → m = n) ∧ (∀ m, resolve t name args = .found m ↔
        Exact m ∨ (∀ n, ¬ Exact n) ∧ Fitting m ∧ ∀ n, Fitting n → n = m) ∧
      (resolve t name args = .ambiguous ↔ (∀ n, ¬ Exact n) ∧ ∃ m n, Fitting m ∧ Fitting n ∧ m ≠ n) ∧
      (resolve t name args = .missing ↔ ∀ m, ¬ Fitting m) := by
  rw [(buildTable_firsts named).1]
  have distinct := nodup_keys_firstsTable f
  exact ⟨fun m n left right => left.unique distinct right,
    fun m => resolve_eq_found_iff rfl rfl distinct,
    resolve_eq_ambiguous_iff rfl rfl distinct, resolve_eq_missing_iff rfl rfl⟩

/-- A class with overloads that take the class and its superclass. -/
def mixedText : List UInt8 :=
  ("import B;class C extends B\x7bpublic int f(C c)\x7breturn 0;\x7dpublic int f(B b)\x7breturn 1;\x7d" ++
    "public int f(int[] a)\x7breturn 2;\x7dpublic int g(B b)\x7breturn 3;\x7d\x7d").toUTF8.toList

/-- An object of the class finds the overload that takes it, and otherwise the one that takes its
superclass. A value of unknown type fits more than one overload, and an integer fits none. -/
theorem resolve_decides_overload_mixed : ∃ f, parse mixedText = .ok f ∧ f.NamedByWords ∧
    let t := (buildTable f).value
    let Fitting := t.HasFitting (declarationsOf f)
    (∃ m, resolve t "f" [.object "C"] = .found m ∧ t.HasExact "f" [.object "C"] m) ∧
      (∃ m, resolve t "g" [.object "C"] = .found m ∧
        (∀ n, Fitting "g" [.object "C"] n → n = m) ∧ ¬ t.HasExact "g" [.object "C"] m) ∧
      (∃ m n, Fitting "f" [.unknown] m ∧ Fitting "f" [.unknown] n ∧ m ≠ n) ∧
      ∀ m, ¬ Fitting "f" [.int] m := by
  obtain ⟨f, read, checked⟩ := exists_read mixedText (fun f =>
      let t := (buildTable f).value
      decide (f.NamedByWords ∧ (∃ m ∈ t.methods, resolve t "f" [.object "C"] = .found m ∧
          m.name = "f" ∧ m.paramTypes = [.object "C"]) ∧
        (∃ m ∈ t.methods, resolve t "g" [.object "C"] = .found m ∧ m.paramTypes ≠ [.object "C"]) ∧
        resolve t "f" [.unknown] = .ambiguous ∧ resolve t "f" [.int] = .missing))
    (by decide +kernel)
  obtain ⟨named, ⟨m, listed, found, exact⟩, ⟨n, _, fitting, inexact⟩, ambiguous, missing⟩ :=
    of_decide_eq_true checked
  have chosen := resolve_decides_overload f named
  refine ⟨f, read, named, ⟨m, found, listed, exact⟩, ⟨n, fitting, ?_, fun same => inexact same.2.2⟩,
    ((chosen "f" [.unknown]).2.2.1.mp ambiguous).2, (chosen "f" [.int]).2.2.2.mp missing⟩
  rcases ((chosen "g" [.object "C"]).2.1 n).mp fitting with same | ⟨_, _, only⟩
  · exact absurd same.2.2 inexact
  · exact only

end JavaMinus
