import JavaMinus.Proofs.IndexedTables

/-!
# The table of a consistent file

A table lists first declarations, so it lists all that a file declares if no two declarations
clash (`File.Consistent`), and exactly then nothing is reported (`buildTable_reports`,
`buildTable_value`). Methods are compared by their signatures, which name the types of all
parameters if no parameter is a repeated one.

An overload is chosen from the methods that a table lists if it is the only one with exactly the
types of the arguments or the only one that they fit (`resolve_eq`, `pick_eq`).
-/

namespace JavaMinus

open Syntax List

/-! ## Lists without repeated keys -/

section

variable {α κ : Type} [DecidableEq κ] {key : α → κ} {l : List α}

theorem repeats_eq_zero : repeats key l = 0 ↔ (l.map key).Nodup := by
  induction l using List.reverseRecOn with
  | nil => exact ⟨fun _ => nodup_nil, fun _ => rfl⟩
  | append_singleton l a ih =>
    rw [repeats_concat, Nat.add_eq_zero_iff, ih, map_append, map_singleton,
      ← concat_eq_append, nodup_concat, and_comm]
    refine and_congr_left fun _ => ?_
    split <;> simp [*]

theorem firsts_of_nodup (distinct : (l.map key).Nodup) : firsts key l = l := by
  induction l using List.reverseRecOn with
  | nil => rfl
  | append_singleton l a ih =>
    rw [map_append, map_singleton, ← concat_eq_append, nodup_concat] at distinct
    rw [firsts_concat, if_neg distinct.1, ih distinct.2]

end

/-! ## Reports of a table -/

/-- All reports of a stage are errors. -/
def Logged.OnlyErrors {α : Type} (x : Logged α) : Prop := ∀ d ∈ x.reports, d.isError = true

namespace Logged.OnlyErrors

variable {α β : Type}

theorem bind {x : Logged α} {f : α → Logged β} (first : x.OnlyErrors)
    (second : (f x.value).OnlyErrors) : (x >>= f).OnlyErrors :=
  forall_mem_append.mpr ⟨first, second⟩

theorem foldlM {f : β → α → Logged β} (each : ∀ b a, (f b a).OnlyErrors) (l : List α) (b : β) :
    (l.foldlM f b).OnlyErrors := by
  induction l generalizing b with
  | nil => exact forall_mem_nil _
  | cons a l ih => exact .bind (each b a) (ih _)

theorem reports_eq_nil {x : Logged α} (only : x.OnlyErrors) : x.reports = [] ↔ x.errors = 0 := by
  rw [Logged.errors, countP_eq_length.mpr only, length_eq_zero_iff]

end Logged.OnlyErrors

theorem onlyErrors_distinctVars (method what : String) (taken : List String)
    (ds : List (VarDecl Pos)) : (distinctVars method what taken ds).OnlyErrors := by
  induction ds generalizing taken with
  | nil => exact forall_mem_nil _
  | cons d ds ih =>
    unfold distinctVars
    split
    · exact .bind (forall_mem_singleton.mpr rfl) (ih taken)
    · exact .bind (ih _) (forall_mem_nil _)

theorem onlyErrors_buildTable (f : File Pos) : (buildTable f).OnlyErrors := by
  refine .bind (.foldlM (fun t i => ?_) _ _) (.bind (.foldlM (fun t d => ?_) _ _)
    (.foldlM (fun t e => ?_) _ _))
  · unfold addImport
    split
    · intro d member
      split at member
      · cases member
      · rw [mem_singleton.mp member]
        rfl
    · exact forall_mem_nil _
  · unfold addField
    split
    · exact forall_mem_singleton.mpr rfl
    · exact forall_mem_nil _
  · refine .bind (.bind (onlyErrors_distinctVars _ _ _ _) (.bind (onlyErrors_distinctVars _ _ _ _)
      (forall_mem_nil _))) ?_
    split
    · exact forall_mem_singleton.mpr rfl
    · exact forall_mem_nil _

/-! ## What a method declares -/

/-- The symbol of a method with all that it declares. -/
def declaredMethod (decl : Nat) (m : Method Pos) : MethodSymbol where
  name := m.name
  isStatic := m.isStatic
  ret := m.ret.ty
  params := m.params.map declSymbol
  locals := m.locals.map declSymbol
  line := m.mark.line
  decl

/-- The signature that a method declares. -/
def declaredSignature (m : Method Pos) : String :=
  signatureText m.name (m.params.map fun d => d.type.ty)

theorem indexedMethod_of_nodup {e : Method Pos × Nat}
    (distinct : ((e.1.params ++ e.1.locals).map (·.name)).Nodup) :
    indexedMethod e = declaredMethod e.2 e.1 := by
  rw [map_append, nodup_append] at distinct
  obtain ⟨params, locals, apart⟩ := distinct
  have untaken : e.1.locals.filter (fun d => d.name ∉ e.1.params.map VarDecl.name) = e.1.locals := by
    refine filter_eq_self.mpr fun d member => decide_eq_true fun taken => ?_
    exact apart _ taken _ (mem_map_of_mem member) rfl
  rw [indexedMethod, untaken, firsts_of_nodup params, firsts_of_nodup locals]
  rfl

theorem declaredSignature_eq {m : Method Pos}
    (distinct : ((m.params ++ m.locals).map (·.name)).Nodup) :
    declaredSignature m = (methodKey m).text := by
  rw [map_append] at distinct
  rw [MethodKey.text, methodKey, firsts_of_nodup distinct.of_append_left]
  rfl

/-! ## Consistent files -/

/-- No two declarations of a file clash. -/
structure Syntax.File.Consistent (f : File Pos) : Prop where
  imports : f.imports.Pairwise fun i j => i.name = j.name → i.qualified = j.qualified
  fields : (f.cls.fields.map (·.name)).Nodup
  vars : ∀ m ∈ f.cls.methods, ((m.params ++ m.locals).map (·.name)).Nodup
  methods : (f.cls.methods.map declaredSignature).Nodup

section Files

variable {f : File Pos}

/-- The table of a consistent file, in which each import is listed once. -/
def declaredTable (f : File Pos) : Table where
  cls := f.cls.name
  super := f.cls.super
  imports := (f.imports.foldlM addImport { cls := f.cls.name, super := f.cls.super }).value.imports
  fields := f.cls.fields.map declSymbol
  methods := f.cls.methods.zipIdx.map fun e => declaredMethod e.2 e.1

theorem imports_declaredTable (f : File Pos) :
    (declaredTable f).imports = (firsts Import.name f.imports).map importEntry :=
  congrArg Table.imports (foldlM_addImport_firsts (t := ⟨f.cls.name, f.cls.super, [], [], []⟩) _)

theorem Syntax.File.Readable.namedByWords (readable : f.Readable) : f.NamedByWords := by
  intro m member
  have method := readable.cls.methods m member
  refine ⟨method.name.bytes, fun d param => ?_⟩
  rcases (method.params d param).type.name with named | isFixed
  · exact named.bytes
  · have among : ["int", "boolean", "void"] ⊆ reserved := by decide
    exact isWord_of_reserved (among isFixed)

/-- Imports that agree where they have the same simple name are those that name the class that is
listed. -/
theorem imports_agree_iff : (f.imports.countP fun i =>
      (firstsTable f).import? i.name ≠ some i.qualified) = 0 ↔
    f.imports.Pairwise fun i j => i.name = j.name → i.qualified = j.qualified := by
  have found : ∀ name, (firstsTable f).import? name =
      (f.imports.find? fun i => i.name = name).map Import.qualified := by
    exact import?_importing (t := firstsTable f) f.imports
  simp only [countP_eq_zero, decide_eq_true_eq, not_not, found]
  constructor
  · intro each
    refine pairwise_of_forall_mem_list fun i member j member' same => ?_
    have first := each i member
    rw [same, each j member'] at first
    exact (Option.some.inj first).symm
  · intro agree i member
    obtain ⟨j, isFirst⟩ := Option.isSome_iff_exists.mp
      (List.find?_isSome.mpr ⟨i, member, by simp⟩ : (f.imports.find? fun j => j.name = i.name).isSome)
    have same : j.name = i.name := by simpa using List.find?_some isFirst
    have symmetric : Std.Symm fun i j : Import Pos => i.name = j.name → i.qualified = j.qualified :=
      ⟨fun i j agree same => (agree same.symm).symm⟩
    rw [isFirst, Option.map_some, agree.forall_of_forall (fun _ _ _ => rfl)
      (mem_of_find?_eq_some isFirst) member same]

theorem errors_eq_zero_iff (named : f.NamedByWords) : (buildTable f).errors = 0 ↔ f.Consistent := by
  rw [(buildTable_firsts named).2]
  simp only [Nat.add_eq_zero_iff, sum_eq_zero_iff, forall_mem_map, repeatedVars,
    repeats_eq_zero, imports_agree_iff]
  have texts : (∀ m ∈ f.cls.methods, ((m.params ++ m.locals).map (·.name)).Nodup) →
      ((f.cls.methods.map methodKey).Nodup ↔ (f.cls.methods.map declaredSignature).Nodup) := by
    intro vars
    have same : f.cls.methods.map declaredSignature =
        (f.cls.methods.map methodKey).map MethodKey.text := by
      rw [map_map]
      exact map_congr_left fun m member => declaredSignature_eq (vars m member)
    rw [same]
    refine ⟨List.Nodup.map_on fun k member k' member' => ?_, List.Nodup.of_map _⟩
    obtain ⟨m, among, rfl⟩ := mem_map.mp member
    obtain ⟨m', among', rfl⟩ := mem_map.mp member'
    exact (text_methodKey_inj (named m among) (named m' among')).mp
  constructor
  · rintro ⟨⟨⟨fields, methods⟩, vars⟩, imports⟩
    exact ⟨imports, fields, vars, (texts vars).mp methods⟩
  · rintro ⟨imports, fields, vars, methods⟩
    exact ⟨⟨⟨fields, (texts vars).mpr methods⟩, vars⟩, imports⟩

theorem buildTable_reports (readable : f.Readable) : (buildTable f).reports = [] ↔ f.Consistent :=
  (onlyErrors_buildTable f).reports_eq_nil.trans (errors_eq_zero_iff readable.namedByWords)

theorem buildTable_value (readable : f.Readable) (silent : (buildTable f).reports = []) :
    (buildTable f).value = declaredTable f := by
  have consistent := (buildTable_reports readable).mp silent
  have keys : (f.cls.methods.zipIdx.map entryKey).Nodup := by
    have zero := (errors_eq_zero_iff readable.namedByWords).mpr consistent
    rw [(buildTable_firsts readable.namedByWords).2] at zero
    rw [show entryKey = methodKey ∘ Prod.fst from rfl, ← map_map, zipIdx_map_fst,
      ← repeats_eq_zero]
    omega
  have methods : f.cls.methods.zipIdx.map indexedMethod =
      f.cls.methods.zipIdx.map fun e => declaredMethod e.2 e.1 :=
    map_congr_left fun e member =>
      indexedMethod_of_nodup (consistent.vars e.1 (fst_mem_of_mem_zipIdx member))
  rw [(buildTable_firsts readable.namedByWords).1, firstsTable, firsts_of_nodup consistent.fields,
    firsts_of_nodup keys, methods, ← imports_declaredTable]
  rfl

theorem methodAt?_declared (readable : f.Readable) (silent : (buildTable f).reports = []) {i : Nat}
    {m : Method Pos} (declared : f.cls.methods[i]? = some m) :
    (buildTable f).value.methodAt? i = some (declaredMethod i m) := by
  have clean : (buildTable f).Clean := by rw [Logged.Clean, silent]; rfl
  have distinct := ((buildTable_reports readable).mp silent).vars m (mem_of_getElem? declared)
  rw [methodAt?_eq clean declared, methodSymbol_indexed (m, i), indexedMethod_of_nodup distinct]

theorem isImported_declaredTable (f : File Pos) (name : String) :
    (declaredTable f).isImported name = f.imports.any fun i => i.name = name := by
  have found : (declaredTable f).import? name =
      (f.imports.find? fun i => i.name = name).map Import.qualified := by
    rw [← import?_importing (t := declaredTable f), Table.importing, ← imports_declaredTable]
  rw [Table.isImported, found, Option.isSome_map, isSome_find?]

end Files

/-! ## Overloads -/

namespace Typing

/-- The choice among the methods with exactly the wanted types and those that fit. -/
def pick (exact fitting : List MethodSymbol) : Resolution :=
  match exact, fitting with
  | [m], _ => .found m
  | _, [m] => .found m
  | _, [] => .missing
  | _, _ => .ambiguous

/-- The element of a list of one. -/
def only {α : Type} : List α → Option α
  | [a] => some a
  | _ => none

theorem only_eq_some {α : Type} {l : List α} {a : α} : only l = some a ↔ l = [a] := by
  rcases l with _ | ⟨b, _ | ⟨c, l⟩⟩ <;> simp [only]

theorem pick_eq (exact fitting : List MethodSymbol) :
    pick exact fitting = (((only exact).or (only fitting)).map Resolution.found).getD
      (if fitting = [] then .missing else .ambiguous) := by
  rcases exact with _ | ⟨m, _ | ⟨m', exact⟩⟩ <;> rcases fitting with _ | ⟨n, _ | ⟨n', fitting⟩⟩ <;>
    rfl

theorem resolve_eq (t : Table) (name : String) (args : List Ty) : resolve t name args = pick
      (((t.methodsNamed name).filter (applicable t args)).filter fun m => m.paramTypes = args)
      ((t.methodsNamed name).filter (applicable t args)) := rfl

end Typing

end JavaMinus
