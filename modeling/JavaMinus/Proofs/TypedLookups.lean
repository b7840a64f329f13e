import JavaMinus.Proofs.BuiltTables

/-!
# Looking up declarations

The checker asks questions of a table; the typing rules have premises about declarations. The two
agree (`Lists`, `Shows`) for the table of a consistent file (`lists_declaredTable`,
`shows_declaredMethod`). The checker then answers a question without errors exactly if the
premise holds: whether a value can be assigned (`assignable_iff`), which overload is called
(`chosen_iff`), what a call gives (`callType_iff`) and what a name stands for (`names_iff`).
-/

namespace JavaMinus

namespace Logged

variable {α β γ : Type}

/-- A stage has no errors, and its result looks as given. -/
def Passes (view : α → β) (x : Logged α) (b : β) : Prop := x.Clean ∧ view x.value = b

@[simp] theorem passes_pure {view : α → β} {a : α} {b : β} :
    (Pure.pure a : Logged α).Passes view b ↔ view a = b := by
  rw [Passes, value_pure, and_iff_right (clean_pure a)]

@[simp] theorem passes_bind {view : β → γ} {x : Logged α} {f : α → Logged β} {c : γ} :
    (x >>= f).Passes view c ↔ x.Clean ∧ (f x.value).Passes view c := by
  rw [Passes, clean_bind, value_bind, and_assoc]
  rfl

@[simp] theorem passes_map {view : β → γ} {x : Logged α} {f : α → β} {c : γ} :
    (f <$> x).Passes view c ↔ x.Clean ∧ view (f x.value) = c := by
  rw [← bind_pure_comp, passes_bind, passes_pure]

end Logged

namespace Typing

open Syntax List

variable {name : String} {args : List Ty} {p : Pos} {τ : Ty}

/-! ## Tables -/

theorem only_iff {α β : Type} {g : α → β} {l : List α} (distinct : (l.map g).Nodup) {a : α} :
    only l = some a ↔ a ∈ l ∧ ∀ b ∈ l, g b = g a := by
  rw [only_eq_some]
  constructor
  · rintro rfl
    simp
  · rintro ⟨member, same⟩
    rcases l with _ | ⟨b, _ | ⟨c, l⟩⟩
    · cases member
    · rw [mem_singleton.mp member]
    · have twice : g b = g c :=
        (same b mem_cons_self).trans (same c (mem_cons_of_mem _ mem_cons_self)).symm
      rw [map_cons, map_cons, twice] at distinct
      exact absurd mem_cons_self (nodup_cons.mp distinct).1

theorem pick_eq_found {exact fitting : List MethodSymbol} (among : exact ⊆ fitting)
    {m : MethodSymbol} :
    pick exact fitting = .found m ↔ only exact = some m ∨ only fitting = some m := by
  rw [pick_eq]
  cases exactly : only exact with
  | some n =>
    have member : n ∈ exact := by rw [only_eq_some.mp exactly]; exact mem_singleton_self n
    simp only [Option.some_or, Option.map_some, Option.getD_some, Resolution.found.injEq,
      Option.some.injEq, iff_self_or]
    intro fits
    exact mem_singleton.mp (only_eq_some.mp fits ▸ among member)
  | none =>
    cases fits : only fitting with
    | some n => simp
    | none => by_cases empty : fitting = [] <;> simp [empty]

theorem pick_eq_missing {exact fitting : List MethodSymbol} (among : exact ⊆ fitting) :
    pick exact fitting = .missing ↔ fitting = [] := by
  constructor
  · intro missing
    rw [pick_eq] at missing
    cases found : (only exact).or (only fitting) with
    | some n =>
      rw [found] at missing
      cases missing
    | none =>
      by_contra some
      rw [found, if_neg some] at missing
      cases missing
  · rintro rfl
    rw [subset_nil.mp among]
    rfl

/-- A listed method as its callers see it. -/
def listedOverload (m : MethodSymbol) : Overload := ⟨m.name, m.isStatic, m.paramTypes, m.ret⟩

/-- A table lists the declarations. -/
structure Lists (t : Table) (Δ : Declarations) : Prop where
  cls : t.cls = Δ.cls
  super : t.super = Δ.super
  imports : ∀ c, t.isImported c = true ↔ c ∈ Δ.imports
  fields : ∀ name τ, (t.field? name).map (·.type) = some τ ↔ (name, τ) ∈ Δ.fields
  methods : t.methods.map listedOverload = Δ.methods
  distinct : Δ.methods.Nodup

section Headers

variable {t : Table} {Δ : Declarations} (cls : t.cls = Δ.cls) (super : t.super = Δ.super)

include cls super

/-- Whether a value can be assigned depends on the names of the class and its superclass only. -/
theorem assignable_iff_of_header {want found : Ty} :
    Assignable Δ want found ↔ assignable t want found = true := by
  simp only [assignable, Bool.or_eq_true, Bool.and_eq_true, decide_eq_true_eq, Ty.isUnknown,
    Table.isA, cls, super]
  constructor
  · rintro (_ | unknown | unknown | proper)
    · exact .inl (.inl (.inl rfl))
    · exact .inl (.inl (.inr unknown))
    · exact .inl (.inr unknown)
    · exact .inr ⟨⟨rfl, rfl⟩, .inr ⟨⟨rfl, proper⟩, rfl⟩⟩
  · rintro (((rfl | unknown) | unknown) | ⟨⟨wantObject, foundObject⟩, related⟩)
    · exact .same
    · exact .toUnknown unknown
    · exact .ofUnknown unknown
    · obtain ⟨c, rfl⟩ := isObject_iff.mp wantObject
      obtain ⟨d, rfl⟩ := isObject_iff.mp foundObject
      rcases related with same | ⟨⟨own, proper⟩, super⟩
      · obtain rfl : d = c := same
        exact .same
      · obtain rfl : d = Δ.cls := own
        obtain rfl : Δ.super = c := super
        exact .superclass proper

theorem applicable_eq_true_iff {m : MethodSymbol} :
    applicable t args m = true ↔ List.Forall₂ (Assignable Δ) m.paramTypes args := by
  rw [forall₂_iff_zip, applicable, Bool.and_eq_true, decide_eq_true_eq, all_eq_true,
    MethodSymbol.paramTypes, length_map]
  refine and_congr_right fun _ => ?_
  simp only [Prod.forall, assignable_iff_of_header cls super]

end Headers

section Tables

variable {t : Table} {Δ : Declarations} (lists : Lists t Δ)

include lists

theorem knowsClass_iff (c : String) : t.knowsClass c = true ↔ Δ.KnowsClass c := by
  rw [Table.knowsClass, Bool.or_eq_true, decide_eq_true_eq, lists.imports, lists.cls]
  rfl

theorem extendsImport_iff : Δ.ExtendsImport ↔ t.superImported = true := by
  simp only [Declarations.ExtendsImport, Table.superImported, Bool.and_eq_true, decide_eq_true_eq,
    lists.imports, lists.cls, lists.super, and_assoc]

theorem assignable_iff {want found : Ty} :
    Assignable Δ want found ↔ assignable t want found = true :=
  assignable_iff_of_header lists.cls lists.super

theorem applicable_iff {o : Overload} : Applicable Δ name args o ↔
      ∃ m ∈ (t.methodsNamed name).filter (applicable t args), listedOverload m = o := by
  simp only [mem_filter, Table.methodsNamed, decide_eq_true_eq,
    applicable_eq_true_iff lists.cls lists.super]
  constructor
  · rintro ⟨listed, rfl, args⟩
    rw [← lists.methods] at listed
    obtain ⟨m, member, rfl⟩ := mem_map.mp listed
    exact ⟨m, ⟨⟨member, rfl⟩, args⟩, rfl⟩
  · rintro ⟨m, ⟨⟨member, named⟩, args⟩, rfl⟩
    exact ⟨lists.methods ▸ mem_map_of_mem member, named, args⟩

theorem nodup_listed (p : MethodSymbol → Bool) :
    ((t.methods.filter p).map listedOverload).Nodup := by
  have listed := lists.distinct
  rw [← lists.methods] at listed
  exact listed.sublist (filter_sublist.map _)

theorem chosen_iff {o : Overload} :
    Chosen Δ name args o ↔ ∃ m, resolve t name args = .found m ∧ listedOverload m = o := by
  let fitting := (t.methodsNamed name).filter (applicable t args)
  let exactly := fitting.filter fun m => m.paramTypes = args
  have fittingDistinct : (fitting.map listedOverload).Nodup := by
    have distinct := nodup_listed lists fun m => decide (m.name = name) && applicable t args m
    rwa [← filter_filter, filter_comm] at distinct
  have exactDistinct : (exactly.map listedOverload).Nodup :=
    fittingDistinct.sublist (filter_sublist.map _)
  have found : ∀ m, resolve t name args = .found m ↔
      (m ∈ exactly ∧ ∀ n ∈ exactly, listedOverload n = listedOverload m) ∨
        (m ∈ fitting ∧ ∀ n ∈ fitting, listedOverload n = listedOverload m) := by
    intro m
    rw [resolve_eq, pick_eq_found (filter_subset_self _), only_iff exactDistinct,
      only_iff fittingDistinct]
  have exact_iff : ∀ m, m ∈ exactly ↔ m ∈ fitting ∧ (listedOverload m).params = args := by
    intro m
    rw [mem_filter, decide_eq_true_eq]
    rfl
  simp only [found, exact_iff]
  constructor
  · rintro (⟨applies, same, unique⟩ | ⟨applies, unique⟩)
    · obtain ⟨m, member, rfl⟩ := (applicable_iff lists).mp applies
      refine ⟨m, .inl ⟨⟨member, same⟩, fun n among => ?_⟩, rfl⟩
      exact unique _ ((applicable_iff lists).mpr ⟨n, among.1, rfl⟩) among.2
    · obtain ⟨m, member, rfl⟩ := (applicable_iff lists).mp applies
      refine ⟨m, .inr ⟨member, fun n among => ?_⟩, rfl⟩
      exact unique _ ((applicable_iff lists).mpr ⟨n, among, rfl⟩)
  · rintro ⟨m, ⟨⟨member, same⟩, unique⟩ | ⟨member, unique⟩, rfl⟩
    · refine .exact ((applicable_iff lists).mpr ⟨m, member, rfl⟩) same fun o applies exact => ?_
      obtain ⟨n, among, rfl⟩ := (applicable_iff lists).mp applies
      exact unique n ⟨among, exact⟩
    · refine .fitting ((applicable_iff lists).mpr ⟨m, member, rfl⟩) fun o applies => ?_
      obtain ⟨n, among, rfl⟩ := (applicable_iff lists).mp applies
      exact unique n among

theorem missing_iff : (∀ o, ¬ Applicable Δ name args o) ↔ resolve t name args = .missing := by
  rw [resolve_eq, pick_eq_missing (filter_subset_self _), eq_nil_iff_forall_not_mem]
  constructor
  · exact fun none m member => none _ ((applicable_iff lists).mpr ⟨m, member, rfl⟩)
  · intro none o applies
    obtain ⟨m, member, _⟩ := (applicable_iff lists).mp applies
    exact none m member

end Tables

/-! ## Calls -/

/-- What a call on the class itself or on one of its objects calls. -/
def ownCallee (t : Table) (p : Pos) (onClass : Bool) (name : String) (args : List Ty) :
    Logged (Option Callee) :=
  match resolve t name args with
  | .ambiguous => do
    complain p ("ambiguous call " ++ signatureText name args)
    return none
  | .missing =>
    if t.superImported && !onClass then pure (some (assumedCallee false t.cls))
    else do
      complain p ("no applicable method " ++ signatureText name args ++ " in class " ++ t.cls)
      return none
  | .found m => do
    complainIf (onClass && !m.isStatic) p
      ("non-static method " ++ m.signature ++ " cannot be called on class " ++ t.cls)
    complainIf (!onClass && m.isStatic) p
      ("static method " ++ m.signature ++ " cannot be called on an instance")
    return some ⟨m.isStatic, t.cls, some m, m.ret⟩

theorem calleeOf_object (t : Table) (p : Pos) (onClass : Bool) (c name : String) (args : List Ty) :
    calleeOf t p onClass (.object c) name args = if c = t.cls then ownCallee t p onClass name args
      else pure (some (assumedCallee onClass c)) := by
  have known : ¬ (Ty.object c).isUnknown = true := by simp [Ty.object, Ty.isUnknown]
  have object : ¬ (!(Ty.object c).isObject) = true := by simp [Ty.object, Ty.isObject]
  have named : (Ty.object c).className = c := rfl
  rw [calleeOf, if_neg known, if_neg object, named]
  by_cases own : c = t.cls
  · rw [if_pos own, if_neg (by simp [own]), if_neg (by simp [own])]
    rfl
  · rw [if_neg own, if_pos own]
    cases onClass with
    | true => rw [if_pos (by simp [own])]
    | false => rw [if_neg (by simp)]

section Calls

variable {t : Table} {Δ : Declarations} (lists : Lists t Δ)

include lists

theorem callType_own_iff {onClass : Bool} : CallType Δ name args onClass (.object Δ.cls) τ ↔
      (ownCallee t p onClass name args).Passes (Option.map Callee.ret) (some τ) := by
  have rules : CallType Δ name args onClass (.object Δ.cls) τ ↔
      (∃ m, Chosen Δ name args m ∧ m.isStatic = onClass ∧ m.ret = τ) ∨
        (onClass = false ∧ Δ.ExtendsImport ∧ (∀ m, ¬ Applicable Δ name args m) ∧ τ = .unknown) := by
    constructor
    · intro typed
      cases typed with
      | otherClass other | otherObject other => exact absurd rfl other
      | unknown unknown => cases unknown
      | static chosen isStatic => exact .inl ⟨_, chosen, isStatic, rfl⟩
      | method chosen isInstance => exact .inl ⟨_, chosen, isInstance, rfl⟩
      | inherited extended none => exact .inr ⟨rfl, extended, none, rfl⟩
    · rintro (⟨m, chosen, rfl, rfl⟩ | ⟨rfl, extended, none, rfl⟩)
      · cases isStatic : m.isStatic with
        | true => exact .static chosen isStatic
        | false => exact .method chosen isStatic
      · exact .inherited extended none
  rw [rules, Logged.Passes]
  simp only [chosen_iff lists, missing_iff lists, extendsImport_iff lists, ownCallee]
  cases resolve t name args with
  | ambiguous =>
    simp only [reduceCtorEq, false_and, exists_false, and_false, or_false, Logged.clean_bind,
      not_clean_complain]
  | missing =>
    by_cases assumed : (t.superImported && !onClass) = true
    · rw [if_pos assumed]
      rw [Bool.and_eq_true, Bool.not_eq_true'] at assumed
      simp only [reduceCtorEq, false_and, exists_false, false_or, assumed,
        Logged.clean_pure, Logged.value_pure, Option.map_some, assumedCallee, Option.some.injEq,
        true_and]
      exact eq_comm
    · simp only [if_neg assumed, Logged.clean_bind, not_clean_complain, false_and, iff_false]
      rintro (⟨m, ⟨n, missing, _⟩, _⟩ | ⟨rfl, extended, _⟩)
      · cases missing
      · exact assumed (by rw [extended]; rfl)
  | found m =>
    simp only [Logged.clean_bind, clean_complainIf, Logged.value_bind, Logged.value_pure]
    cases onClass <;> cases isStatic : m.isStatic <;> simp [listedOverload, isStatic]

/-- The rules give a call the type of the callee that the checker finds without errors. -/
theorem callType_iff {onClass : Bool} {recv : Ty} (named : onClass = true → ∃ c, recv = .object c) :
    CallType Δ name args onClass recv τ ↔
      (calleeOf t p onClass recv name args).Passes (Option.map Callee.ret) (some τ) := by
  by_cases object : recv.isObject = true
  · obtain ⟨c, rfl⟩ := isObject_iff.mp object
    rw [calleeOf_object]
    by_cases own : c = Δ.cls
    · subst own
      rw [if_pos lists.cls.symm, callType_own_iff lists]
    · rw [if_neg (lists.cls ▸ own), Logged.Passes]
      simp only [Logged.clean_pure, Logged.value_pure, Option.map_some, assumedCallee,
        Option.some.injEq, true_and]
      constructor
      · intro typed
        cases typed with
        | static | method | inherited => exact absurd rfl own
        | _ => rfl
      · rintro rfl
        cases onClass with
        | true => exact .otherClass own
        | false => exact .otherObject own
  · have onValue : onClass = false := by
      by_contra onClass'
      obtain ⟨c, rfl⟩ := named (Bool.eq_true_of_not_eq_false onClass')
      exact object rfl
    subst onValue
    have rules : CallType Δ name args false recv τ ↔ recv.base = .unknown ∧ τ = .unknown := by
      constructor
      · intro typed
        cases typed with
        | unknown unknown => exact ⟨unknown, rfl⟩
        | _ => exact absurd rfl object
      · rintro ⟨unknown, rfl⟩
        exact .unknown unknown
    rw [rules, calleeOf, if_neg (by simp), Logged.Passes]
    by_cases unknown : recv.base = .unknown
    · rw [if_pos (by simp [Ty.isUnknown, unknown])]
      simp only [unknown, true_and, Logged.clean_pure, Logged.value_pure, Option.map_some,
        assumedCallee, Option.some.injEq]
      exact eq_comm
    · rw [if_neg (by simp [Ty.isUnknown, unknown]), if_pos (by simp [object])]
      simp only [unknown, false_and, Logged.clean_bind, not_clean_complain]

end Calls

/-! ## Names -/

/-- A scope shows a method what it can see. -/
structure Shows (s : Scope) (Γ : Context) : Prop where
  table : Lists s.table Γ.toDeclarations
  isStatic : s.method.isStatic = Γ.isStatic
  vars : ∀ name τ, (s.method.var? name).map (·.type) = some τ ↔ (name, τ) ∈ Γ.vars

section Names

variable {s : Scope} {Γ : Context} (shows : Shows s Γ)

include shows

theorem var?_eq_none : s.method.var? name = none ↔ ∀ τ, (name, τ) ∉ Γ.vars := by
  simp only [← shows.vars]
  cases s.method.var? name <;> simp

theorem field?_eq_none : s.table.field? name = none ↔ ∀ τ, (name, τ) ∉ Γ.fields := by
  simp only [← shows.table.fields]
  cases s.table.field? name <;> simp

theorem names_iff : Names Γ name τ ↔ (s.lookup p name).Passes (Option.map Ref.type) (some τ) := by
  rw [Scope.lookup, Logged.Passes]
  cases var : s.method.var? name with
  | some v =>
    have vars : ∀ σ, (name, σ) ∈ Γ.vars ↔ v.type = σ := by
      intro σ
      rw [← shows.vars, var, Option.map_some, Option.some.injEq]
    simp only [Logged.clean_pure, Logged.value_pure, Option.map_some, Option.some.injEq, true_and,
      ← vars]
    constructor
    · intro named
      cases named with
      | var member => exact member
      | field _ noVar _ | assumed _ noVar => exact absurd ((vars v.type).mpr rfl) (noVar _)
    · exact .var
  | none =>
    have noVar := (var?_eq_none shows).mp var
    cases field : s.table.field? name with
    | some f =>
      have fields : ∀ σ, (name, σ) ∈ Γ.fields ↔ f.type = σ := by
        intro σ
        rw [← shows.table.fields, field, Option.map_some, Option.some.injEq]
      simp only [Logged.clean_bind, clean_complainIf, Logged.clean_pure, Logged.value_bind,
        Logged.value_pure, Option.map_some, Option.some.injEq, and_true, shows.isStatic,
        ← fields]
      constructor
      · intro named
        cases named with
        | var member => exact absurd member (noVar _)
        | field onObject _ member => exact ⟨onObject, member⟩
        | assumed _ _ noField => exact absurd ((fields f.type).mpr rfl) (noField _)
      · rintro ⟨onObject, member⟩
        exact .field onObject noVar member
    | none =>
      have noField := (field?_eq_none shows).mp field
      have rules : Names Γ name τ ↔
          (s.table.superImported && !s.method.isStatic) = true ∧ τ = .unknown := by
        rw [Bool.and_eq_true, ← extendsImport_iff shows.table, Bool.not_eq_true', shows.isStatic]
        constructor
        · intro named
          cases named with
          | var member => exact absurd member (noVar _)
          | field _ _ member => exact absurd member (noField _)
          | assumed onObject _ _ extended => exact ⟨⟨extended, onObject⟩, rfl⟩
        · rintro ⟨⟨extended, onObject⟩, rfl⟩
          exact .assumed onObject noVar noField extended
      rw [rules]
      by_cases assumed : (s.table.superImported && !s.method.isStatic) = true
      · simp only [assumed, if_true, true_and, Logged.clean_pure, Logged.value_pure,
          Option.map_some, Option.some.injEq]
        exact eq_comm
      · simp [assumed]

theorem namesClass_iff {c : String} : NamesClass Γ c ↔
      (s.table.knowsClass c && (s.varOrField? c).isNone) = true := by
  rw [Bool.and_eq_true, knowsClass_iff shows.table, Scope.varOrField?, Option.isNone_iff_eq_none,
    Option.or_eq_none_iff, var?_eq_none shows, field?_eq_none shows]
  constructor
  · rintro ⟨known, noVar, noField⟩
    exact ⟨known, noVar, noField⟩
  · rintro ⟨known, noVar, noField⟩
    exact ⟨known, noVar, noField⟩

end Names

/-! ## Tables of files -/

section

variable {f : File Pos}

theorem find?_declared {ds : List (VarDecl Pos)} (distinct : (ds.map (·.name)).Nodup) :
    ((ds.map declSymbol).find? fun s => s.name = name).map (·.type) = some τ ↔
      (name, τ) ∈ ds.map nameAndType := by
  have names : ((ds.map declSymbol).map (·.name)).Nodup := by
    rw [map_map]
    exact distinct
  simp only [Option.map_eq_some_iff, find?_name_eq_some names, mem_map]
  constructor
  · rintro ⟨s, ⟨⟨d, member, rfl⟩, rfl⟩, rfl⟩
    exact ⟨d, member, rfl⟩
  · rintro ⟨d, member, same⟩
    cases same
    exact ⟨declSymbol d, ⟨⟨d, member, rfl⟩, rfl⟩, rfl⟩

theorem lists_declaredTable (consistent : f.Consistent) :
    Lists (declaredTable f) (declarationsOf f) where
  cls := rfl
  super := rfl
  imports c := by simp [isImported_declaredTable, declarationsOf]
  fields name τ := find?_declared consistent.fields
  methods := by
    have seen : ∀ (i : Nat) (m : Syntax.Method Pos),
        listedOverload (declaredMethod i m) = overloadOf m := by
      intro i m
      simp only [listedOverload, declaredMethod, overloadOf, MethodSymbol.paramTypes, map_map]
      rfl
    rw [declaredTable, map_map]
    exact (map_congr_left fun e _ => seen e.2 e.1).trans (map_zipIdx_fst overloadOf _)
  distinct := by
    have signatures := consistent.methods
    rw [show (declaredSignature : Syntax.Method Pos → String) =
      (fun o : Overload => signatureText o.name o.params) ∘ overloadOf from rfl,
      ← map_map] at signatures
    exact signatures.of_map

theorem shows_declaredMethod (consistent : f.Consistent) {m : Syntax.Method Pos}
    (member : m ∈ f.cls.methods) (i : Nat) :
    Shows ⟨declaredTable f, declaredMethod i m⟩ ((declarationsOf f).within m) where
  table := lists_declaredTable consistent
  isStatic := rfl
  vars name τ := by
    have swap : (m.locals ++ m.params).Perm (m.params ++ m.locals) := perm_append_comm
    have distinct : ((m.locals ++ m.params).map (·.name)).Nodup :=
      (swap.map _).nodup_iff.mpr (consistent.vars m member)
    rw [MethodSymbol.var?, declaredMethod, ← map_append, find?_declared distinct]
    exact (swap.map nameAndType).mem_iff

end

end Typing

end JavaMinus
