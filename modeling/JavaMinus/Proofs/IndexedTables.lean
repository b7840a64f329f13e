import JavaMinus.Proofs.ListedMethods
import JavaMinus.Proofs.SpelledTokens

/-!
# A table is an index of its file

The table of a file lists the first declaration of each field, of each import and of each method,
in the order of the file (`Table.Indexes`). What is a repeated declaration is told by a key: the
name of a field, the simple name of an import, and for a method its name and the types of its
parameters (`methodKey`). Of a repeated parameter only the first one counts, so the parameters are
gone through before the key of the method is known.

The table tells methods apart by the texts of their signatures. Names and types of a file are
written without parentheses, commas and brackets, so that a text stands for one key
(`signatureText_inj`).

Declarations are listed one after the other, and each step looks at what is listed already. The
steps are followed by adding one declaration behind the others (`firsts_concat`), which is also how
errors are counted: each declaration is listed or reported.
-/

namespace JavaMinus

open Syntax List

/-! ## First declarations -/

section

variable {α κ : Type} [DecidableEq κ] (key : α → κ)

/-- No element of the list before the place of an entry has its key. -/
def isFirst (l : List α) (e : α × Nat) : Bool := key e.1 ∉ (l.take e.2).map key

/-- The elements of a list whose key no element before them has. -/
def firsts (l : List α) : List α := (l.zipIdx.filter (isFirst key l)).map Prod.fst

/-- How many elements of a list have the key of an element before them. -/
def repeats (l : List α) : Nat := l.zipIdx.countP fun e => !isFirst key l e

theorem isFirst_concat {l : List α} {e : α × Nat} (member : e ∈ l.zipIdx) (a : α) :
    isFirst key (l ++ [a]) e = isFirst key l e := by
  have inside := snd_lt_of_mem_zipIdx member
  rw [isFirst, isFirst, take_append_of_le_length (by omega)]

theorem isFirst_last (l : List α) (a : α) :
    isFirst key (l ++ [a]) (a, l.length) = decide (key a ∉ l.map key) := by
  rw [isFirst, take_left]

theorem firsts_concat (l : List α) (a : α) :
    firsts key (l ++ [a]) = firsts key l ++ if key a ∈ l.map key then [] else [a] := by
  simp only [firsts, zipIdx_append, filter_append, map_append, Nat.zero_add,
    filter_congr fun e member => isFirst_concat key member a, zipIdx_singleton,
    filter_singleton, isFirst_last]
  by_cases again : key a ∈ l.map key
  · rw [if_pos again, decide_eq_false (not_not_intro again)]
    rfl
  · rw [if_neg again, decide_eq_true again]
    rfl

theorem repeats_concat (l : List α) (a : α) :
    repeats key (l ++ [a]) = repeats key l + if key a ∈ l.map key then 1 else 0 := by
  have before : ∀ e ∈ l.zipIdx,
      ((!isFirst key (l ++ [a]) e) = true ↔ (!isFirst key l e) = true) := by
    intro e member
    rw [isFirst_concat key member]
  simp only [repeats, zipIdx_append, countP_append, Nat.zero_add,
    countP_congr before, zipIdx_singleton, countP_singleton, isFirst_last]
  by_cases again : key a ∈ l.map key <;> simp [again]

theorem repeats_map {β : Type} (g : β → α) (l : List β) :
    repeats (fun b => key (g b)) l = repeats key (l.map g) := by
  induction l using List.reverseRecOn with
  | nil => rfl
  | append_singleton l b ih =>
    rw [repeats_concat, map_append, map_singleton, repeats_concat, ih, map_map]
    rfl

/-- The first elements of two lists together: those of the one, and then those of the other whose
keys do not occur in the one. -/
theorem firsts_append (l l' : List α) :
    firsts key (l ++ l') = firsts key l ++ firsts key (l'.filter fun a => key a ∉ l.map key) := by
  induction l' using List.reverseRecOn with
  | nil =>
    rw [append_nil]
    exact (append_nil _).symm
  | append_singleton l' a ih =>
    rw [← append_assoc, firsts_concat, ih, filter_append, append_assoc,
      map_append, filter_singleton]
    by_cases taken : key a ∈ l.map key
    · rw [if_pos (mem_append_left _ taken), decide_eq_false (not_not_intro taken)]
      simp
    · have rest : key a ∈ (l'.filter fun b => key b ∉ l.map key).map key ↔ key a ∈ l'.map key := by
        simp only [mem_map, mem_filter, decide_eq_true_eq] at taken ⊢
        grind
      rw [decide_eq_true taken, cond_true, firsts_concat]
      simp only [mem_append, taken, false_or, rest]

variable {key} {l : List α}

theorem mem_map_firsts {k : κ} : k ∈ (firsts key l).map key ↔ k ∈ l.map key := by
  induction l using List.reverseRecOn with
  | nil => rfl
  | append_singleton l a ih =>
    rw [firsts_concat, map_append, mem_append, ih, map_append, mem_append]
    split
    case isTrue again =>
      simp only [map_nil, not_mem_nil, or_false, map_cons, mem_singleton]
      exact ⟨.inl, fun listed => listed.elim id fun same => same ▸ again⟩
    case isFalse => rfl

theorem nodup_firsts : ((firsts key l).map key).Nodup := by
  induction l using List.reverseRecOn with
  | nil => exact nodup_nil
  | append_singleton l a ih =>
    rw [firsts_concat]
    split
    case isTrue => rwa [append_nil]
    case isFalse new =>
      rw [map_append, map_singleton]
      refine ih.append (nodup_singleton _) (disjoint_singleton.mpr ?_)
      rwa [mem_map_firsts]

theorem firsts_subset : firsts key l ⊆ l := by
  intro a member
  obtain ⟨e, among, rfl⟩ := mem_map.mp member
  exact fst_mem_of_mem_zipIdx (mem_filter.mp among).1

theorem map_zipIdx_fst {α β : Type} (g : α → β) (l : List α) :
    l.zipIdx.map (fun e => g e.1) = l.map g := by
  rw [show (fun e : α × Nat => g e.1) = g ∘ Prod.fst from rfl, ← map_map, zipIdx_map_fst]

end

/-! ## Counting errors -/

namespace Logged

variable {α β : Type}

/-- The number of errors of a stage. -/
def errors (x : Logged α) : Nat := x.reports.countP Diagnostic.isError

@[simp] theorem errors_pure (a : α) : (Pure.pure a : Logged α).errors = 0 := rfl

@[simp] theorem errors_bind (x : Logged α) (f : α → Logged β) :
    (x >>= f).errors = x.errors + (f x.value).errors := by
  simp [errors]

@[simp] theorem errors_semanticError (p : Pos) (message : String) :
    (tell (semanticError p message)).errors = 1 := rfl

theorem foldlM_concat (f : β → α → Logged β) (b : β) (l : List α) (a : α) :
    (l ++ [a]).foldlM f b = l.foldlM f b >>= fun b' => f b' a := by
  rw [foldlM_append]
  exact bind_congr fun b' => bind_pure (f b' a)

end Logged

/-! ## Listing step by step -/

section

variable {σ α κ : Type} [DecidableEq κ] (key : α → κ) (step : σ → α → Logged σ) (put : List α → σ)

theorem value_foldlM_firsts (as : List α) (lists : ∀ l a, l ++ [a] <+: as →
      (step (put (firsts key l)) a).value =
        put (firsts key l ++ if key a ∈ l.map key then [] else [a])) :
    (as.foldlM step (put [])).value = put (firsts key as) := by
  induction as using List.reverseRecOn with
  | nil => rfl
  | append_singleton as a ih =>
    rw [Logged.foldlM_concat, Logged.value_bind, firsts_concat,
      ih fun l b inside => lists l b (inside.trans (prefix_append _ _))]
    exact lists as a prefix_rfl

/-- If the step also reports what has no new key, beside what it reports anyway, there is one error
for each repeated element. -/
theorem foldlM_firsts {cost : α → Nat} (as : List α) (lists : ∀ l a, l ++ [a] <+: as →
      (step (put (firsts key l)) a).value =
          put (firsts key l ++ if key a ∈ l.map key then [] else [a]) ∧
        (step (put (firsts key l)) a).errors = cost a + if key a ∈ l.map key then 1 else 0) :
    (as.foldlM step (put [])).value = put (firsts key as) ∧
      (as.foldlM step (put [])).errors = (as.map cost).sum + repeats key as := by
  refine ⟨value_foldlM_firsts key step put _ fun l a inside => (lists l a inside).1, ?_⟩
  induction as using List.reverseRecOn with
  | nil => rfl
  | append_singleton as a ih =>
    have before : ∀ l b, l ++ [b] <+: as → l ++ [b] <+: as ++ [a] :=
      fun l b inside => inside.trans (prefix_append _ _)
    rw [Logged.foldlM_concat, Logged.errors_bind, repeats_concat,
      ih fun l b inside => lists l b (before l b inside),
      value_foldlM_firsts key step put _ fun l b inside => (lists l b (before l b inside)).1,
      (lists as a prefix_rfl).2, map_append, sum_append, map_singleton,
      sum_singleton]
    omega

end

/-! ## Imports -/

section

variable {t : Table}

/-- The entry of an import. -/
def importEntry (i : Import Pos) : String × String := (i.name, i.qualified)

/-- A table with some imports. -/
def Table.importing (t : Table) (is : List (Import Pos)) : Table :=
  { t with imports := is.map importEntry }

theorem import?_importing (is : List (Import Pos)) (name : String) :
    (t.importing (firsts Import.name is)).import? name =
      (is.find? fun i => i.name = name).map Import.qualified := by
  induction is using List.reverseRecOn with
  | nil => rfl
  | append_singleton is i ih =>
    rw [Table.import?, Table.importing] at ih ⊢
    rw [firsts_concat, map_append, lookup_append, ih, List.find?_append]
    cases found : is.find? fun i => i.name = name with
    | some j => rfl
    | none =>
      have new : name ∉ is.map Import.name := by simpa using found
      by_cases same : i.name = name
      · rw [if_neg (same ▸ new)]
        simp [importEntry, same]
      · have other : (name == i.name) = false := beq_false_of_ne (Ne.symm same)
        split <;> simp [importEntry, same, other]

theorem addImport_firsts (is : List (Import Pos)) (i : Import Pos) :
    (addImport (t.importing (firsts Import.name is)) i).value = t.importing
        (firsts Import.name is ++ if i.name ∈ is.map Import.name then [] else [i]) ∧
      (addImport (t.importing (firsts Import.name is)) i).errors =
        if ((is ++ [i]).find? fun j => j.name = i.name).map Import.qualified = some i.qualified
          then 0 else 1 := by
  unfold addImport
  rw [import?_importing, List.find?_append]
  cases found : is.find? fun j => j.name = i.name with
  | some j =>
    have again : i.name ∈ is.map Import.name := by
      rw [mem_map]
      exact ⟨j, mem_of_find?_eq_some found, by simpa using List.find?_some found⟩
    rw [if_pos again, append_nil]
    by_cases same : j.qualified = i.qualified
    · simp [Logged.errors, same]
    · simp [Logged.errors, same, semanticError, Diagnostic.error, Diagnostic.isError]
  | none =>
    have new : i.name ∉ is.map Import.name := by simpa using found
    rw [if_neg new]
    simp [Logged.errors, Table.importing, importEntry]

theorem foldlM_addImport_firsts (is : List (Import Pos)) :
    (is.foldlM addImport (t.importing [])).value = t.importing (firsts Import.name is) :=
  value_foldlM_firsts Import.name addImport t.importing is fun l i _ => (addImport_firsts l i).1

/-- The errors of imports are those that name another class than the one that is listed. -/
theorem errors_foldlM_addImport (is : List (Import Pos)) :
    (is.foldlM addImport (t.importing [])).errors = is.countP fun i =>
      (t.importing (firsts Import.name is)).import? i.name ≠ some i.qualified := by
  simp only [import?_importing]
  induction is using List.reverseRecOn with
  | nil => rfl
  | append_singleton is i ih =>
    rw [Logged.foldlM_concat, Logged.errors_bind, foldlM_addImport_firsts, (addImport_firsts is i).2,
      ih, countP_append, countP_singleton]
    congr 1
    · -- What is found for the imports before stays as it is.
      refine countP_congr fun j member => ?_
      obtain ⟨k, found⟩ := Option.isSome_iff_exists.mp
        (List.find?_isSome.mpr ⟨j, member, by simp⟩ : (is.find? fun k => k.name = j.name).isSome)
      rw [List.find?_append, found, Option.some_or]
    · simp

theorem nodup_importing (is : List (Import Pos)) :
    ((t.importing (firsts Import.name is)).imports.map (·.1)).Nodup := by
  rw [Table.importing, map_map]
  exact nodup_firsts

theorem import?_eq_some (distinct : (t.imports.map (·.1)).Nodup) {name q : String} :
    t.import? name = some q ↔ (name, q) ∈ t.imports := by
  rw [Table.import?, lookup_eq_some_iff]
  constructor
  · rintro ⟨before, after, split, _⟩
    rw [split]
    exact mem_append_right _ mem_cons_self
  · intro member
    obtain ⟨before, after, split⟩ := append_of_mem member
    refine ⟨before, after, split, fun e among => bne_iff_ne.mpr fun same => ?_⟩
    rw [split, map_append, map_cons, nodup_append] at distinct
    exact distinct.2.2 _ (mem_map_of_mem among) _ mem_cons_self same.symm

end

/-! ## Fields -/

section

variable {t : Table}

theorem find?_name_eq_some {symbols : List Symbol} (distinct : (symbols.map (·.name)).Nodup)
    {name : String} {s : Symbol} :
    symbols.find? (fun s => s.name = name) = some s ↔ s ∈ symbols ∧ s.name = name := by
  constructor
  · intro found
    exact ⟨mem_of_find?_eq_some found, by simpa using List.find?_some found⟩
  · rintro ⟨member, rfl⟩
    obtain ⟨s', found⟩ : ∃ s', symbols.find? (fun s' => s'.name = s.name) = some s' :=
      Option.isSome_iff_exists.mp (List.find?_isSome.mpr ⟨s, member, by simp⟩)
    have same : s'.name = s.name := by simpa using List.find?_some found
    rw [found, inj_on_of_nodup_map distinct (mem_of_find?_eq_some found) member same]

theorem map_name_declSymbol (ds : List (VarDecl Pos)) :
    (ds.map declSymbol).map (·.name) = ds.map VarDecl.name := by
  rw [map_map]
  rfl

/-- A table with some fields. -/
def Table.having (t : Table) (ds : List (VarDecl Pos)) : Table :=
  { t with fields := ds.map declSymbol }

theorem addField_firsts (ds : List (VarDecl Pos)) (d : VarDecl Pos) :
    (addField (t.having (firsts VarDecl.name ds)) d).value =
        t.having (firsts VarDecl.name ds ++ if d.name ∈ ds.map VarDecl.name then [] else [d]) ∧
      (addField (t.having (firsts VarDecl.name ds)) d).errors =
        0 + if d.name ∈ ds.map VarDecl.name then 1 else 0 := by
  have new : (t.having (firsts VarDecl.name ds)).field? d.name = none ↔
      d.name ∉ ds.map VarDecl.name := by
    rw [← mem_map_firsts, ← map_name_declSymbol]
    simp [Table.field?, Table.having, List.find?_eq_none]
  unfold addField
  by_cases again : d.name ∈ ds.map VarDecl.name
  · obtain ⟨prev, found⟩ := Option.ne_none_iff_exists'.mp fun none => new.mp none again
    rw [found, if_pos again, if_pos again, append_nil]
    exact ⟨rfl, rfl⟩
  · rw [new.mpr again, if_neg again, if_neg again, Table.having, Table.having, map_append]
    exact ⟨rfl, rfl⟩

theorem foldlM_addField_firsts (ds : List (VarDecl Pos)) :
    (ds.foldlM addField (t.having [])).value = t.having (firsts VarDecl.name ds) ∧
      (ds.foldlM addField (t.having [])).errors = repeats VarDecl.name ds := by
  obtain ⟨value, errors⟩ :=
    foldlM_firsts VarDecl.name addField t.having ds fun l d _ => addField_firsts l d
  refine ⟨value, errors.trans ?_⟩
  rw [map_const', sum_replicate, smul_zero, Nat.zero_add]

end

/-! ## Parameters and local variables -/

section

theorem distinctVars_concat (method what : String) (taken : List String) (ds : List (VarDecl Pos))
    (d : VarDecl Pos) :
    (distinctVars method what taken (ds ++ [d])).value =
        (distinctVars method what taken ds).value ++
          (if d.name ∈ taken ∨ d.name ∈ ds.map VarDecl.name then [] else [declSymbol d]) ∧
      (distinctVars method what taken (ds ++ [d])).errors =
        (distinctVars method what taken ds).errors +
          if d.name ∈ taken ∨ d.name ∈ ds.map VarDecl.name then 1 else 0 := by
  induction ds generalizing taken with
  | nil =>
    simp only [nil_append, distinctVars, map_nil, not_mem_nil, or_false]
    split <;> exact ⟨rfl, rfl⟩
  | cons d' ds ih =>
    rw [cons_append, distinctVars, distinctVars]
    by_cases old : d'.name ∈ taken
    · have same : d.name ∈ taken ∨ d.name ∈ (d' :: ds).map VarDecl.name ↔
          d.name ∈ taken ∨ d.name ∈ ds.map VarDecl.name := by
        grind
      simp only [if_pos old, Logged.value_bind, Logged.errors_bind, ih, same]
      exact ⟨trivial, (Nat.add_assoc ..).symm⟩
    · have same : d.name ∈ taken ∨ d.name ∈ (d' :: ds).map VarDecl.name ↔
          d.name ∈ d'.name :: taken ∨ d.name ∈ ds.map VarDecl.name := by
        grind
      simp only [if_neg old, Logged.value_bind, Logged.errors_bind, Logged.value_pure,
        Logged.errors_pure, ih, same, Nat.add_zero, cons_append]
      exact ⟨trivial, trivial⟩

theorem distinctVars_firsts (method what : String) (taken : List String) (ds : List (VarDecl Pos)) :
    (distinctVars method what taken ds).value =
      (firsts VarDecl.name (ds.filter fun d => d.name ∉ taken)).map declSymbol := by
  induction ds using List.reverseRecOn with
  | nil => rfl
  | append_singleton ds d ih =>
    rw [(distinctVars_concat ..).1, ih, filter_append, filter_singleton]
    by_cases old : d.name ∈ taken
    · rw [if_pos (.inl old), decide_eq_false (not_not_intro old), cond_false, append_nil,
        append_nil]
    · have rest : d.name ∈ (ds.filter fun d => d.name ∉ taken).map VarDecl.name ↔
          d.name ∈ ds.map VarDecl.name := by
        simp only [mem_map, mem_filter, decide_eq_true_eq]
        grind
      rw [decide_eq_true old, cond_true, firsts_concat]
      simp only [old, false_or, rest, map_append]
      split <;> rfl

/-- How many variables of a method are repeated ones. -/
def repeatedVars (m : Method Pos) : Nat := repeats VarDecl.name (m.params ++ m.locals)

/-- The symbol of a declared method: repeated variables are left out. -/
def indexedMethod (e : Method Pos × Nat) : MethodSymbol where
  name := e.1.name
  isStatic := e.1.isStatic
  ret := e.1.ret.ty
  params := (firsts VarDecl.name e.1.params).map declSymbol
  locals := (firsts VarDecl.name (e.1.locals.filter fun d =>
    d.name ∉ e.1.params.map VarDecl.name)).map declSymbol
  line := e.1.mark.line
  decl := e.2

theorem methodSymbol_indexed (e : Method Pos × Nat) :
    (methodSymbol e.2 e.1).value = indexedMethod e := by
  simp only [methodSymbol, Logged.value_bind, Logged.value_pure, distinctVars_firsts, indexedMethod,
    not_mem_nil, not_false_eq_true, decide_true, filter_true]

theorem vars_indexedMethod (e : Method Pos × Nat) :
    (indexedMethod e).params ++ (indexedMethod e).locals =
      (firsts VarDecl.name (e.1.params ++ e.1.locals)).map declSymbol := by
  rw [firsts_append, map_append]
  rfl

theorem nodup_vars_indexedMethod (e : Method Pos × Nat) :
    (((indexedMethod e).params ++ (indexedMethod e).locals).map Symbol.name).Nodup := by
  rw [vars_indexedMethod, map_name_declSymbol]
  exact nodup_firsts

theorem mem_vars_declared {i : Nat} {m : Method Pos} {v : Symbol}
    (listed : v ∈ (methodSymbol i m).value.params ++ (methodSymbol i m).value.locals) :
    ∃ d ∈ m.params ++ m.locals, v = declSymbol d := by
  rw [methodSymbol_indexed (m, i), vars_indexedMethod] at listed
  obtain ⟨d, member, rfl⟩ := mem_map.mp listed
  exact ⟨d, firsts_subset member, rfl⟩

theorem var?_declared {i : Nat} {m : Method Pos} {name : String} {v : Symbol}
    (found : (methodSymbol i m).value.var? name = some v) :
    ∃ d ∈ m.params ++ m.locals, v = declSymbol d ∧ d.name = name := by
  have same : v.name = name := by simpa using List.find?_some found
  obtain ⟨d, member, rfl⟩ := mem_vars_declared
    (mem_append.mpr (mem_append.mp (mem_of_find?_eq_some found)).symm)
  exact ⟨d, member, rfl, same⟩

theorem errors_distinctVars (method what : String) (before ds : List (VarDecl Pos)) :
    repeats VarDecl.name before + (distinctVars method what (before.map VarDecl.name) ds).errors =
      repeats VarDecl.name (before ++ ds) := by
  induction ds using List.reverseRecOn with
  | nil =>
    rw [append_nil]
    rfl
  | append_singleton ds d ih =>
    rw [(distinctVars_concat ..).2, ← append_assoc, repeats_concat, ← ih, Nat.add_assoc]
    simp only [map_append, mem_append]

theorem errors_methodSymbol (e : Method Pos × Nat) :
    (methodSymbol e.2 e.1).errors = repeatedVars e.1 := by
  have params : (distinctVars e.1.name "parameter" [] e.1.params).errors =
      repeats VarDecl.name e.1.params :=
    (Nat.zero_add _).symm.trans (errors_distinctVars e.1.name "parameter" [] e.1.params)
  rw [repeatedVars, ← errors_distinctVars e.1.name "variable", ← params, methodSymbol, Logged.errors_bind,
    Logged.errors_bind, Logged.errors_pure, Nat.add_zero]

end

/-! ## Signatures -/

section

/-- No sign occurs in a word. -/
theorem Syntax.IsWord.no_sign {s : String} (isWord : IsWord s) {c : Char}
    (sign : c ∈ ['(', ',', '[', '.', '/', ';']) : c ∉ s.toList := by
  obtain ⟨b, bs, letter, more, rfl⟩ := isWord
  have each : ∀ n < 128, isNameByte (UInt8.ofNat n) = true →
      Char.ofNat n ∉ ['(', ',', '[', '.', '/', ';'] := by decide +kernel
  intro member
  simp only [asciiText, String.toList_ofList, mem_map] at member
  obtain ⟨d, inside, rfl⟩ := member
  have inName : isNameByte d = true := by
    rcases mem_cons.mp inside with rfl | later
    · simp [isNameByte, letter]
    · exact more d later
  exact each d.toNat (nameByte_ascii inName) (by rwa [UInt8.ofNat_toNat]) sign

theorem Syntax.IsWord.no_signs {s : String} (isWord : IsWord s) :
    s.toList ≠ [] ∧ '(' ∉ s.toList ∧ ',' ∉ s.toList ∧ '[' ∉ s.toList := by
  refine ⟨?_, isWord.no_sign (by decide), isWord.no_sign (by decide), isWord.no_sign (by decide)⟩
  obtain ⟨b, bs, _, _, rfl⟩ := isWord
  simp [asciiText]

/-- A type whose base is named by a word. -/
def Ty.Worded (t : Ty) : Prop := ∃ name array, IsWord name ∧ t = .named name array

theorem text_named (name : String) (array : Bool) :
    (Ty.named name array).text = name ++ if array then "[]" else "" := by
  have base : (Base.named name).text = name := by
    unfold Base.named
    split
    case isTrue isInt => exact isInt.symm
    split
    case isTrue isBoolean => exact isBoolean.symm
    split
    case isTrue isString => exact isString.symm
    split
    case isTrue isVoid => exact isVoid.symm
    rfl
  cases array with
  | false | true => simp [Ty.text, Ty.named, base]

theorem Ty.Worded.text_inj {t t' : Ty} (worded : t.Worded) (worded' : t'.Worded)
    (same : t.text = t'.text) : t = t' := by
  obtain ⟨name, array, isWord, rfl⟩ := worded
  obtain ⟨name', array', isWord', rfl⟩ := worded'
  have plain := isWord.no_signs.2.2.2
  have plain' := isWord'.no_signs.2.2.2
  rw [text_named, text_named] at same
  cases array <;> cases array'
  case false.false => rw [show name = name' by simpa using same]
  case true.true => rw [(String.append_left_inj _).mp same]
  case false.true =>
    refine absurd ?_ plain
    rw [show name = name' ++ "[]" by simpa using same, String.toList_append]
    exact mem_append_right _ mem_cons_self
  case true.false =>
    refine absurd ?_ plain'
    rw [show name' = name ++ "[]" by simpa using same.symm, String.toList_append]
    exact mem_append_right _ mem_cons_self

theorem map_text_inj {types types' : List Ty} (worded : ∀ t ∈ types, t.Worded)
    (worded' : ∀ t ∈ types', t.Worded) (same : types.map Ty.text = types'.map Ty.text) :
    types = types' := by
  induction types generalizing types' with
  | nil => exact (map_eq_nil_iff.mp same.symm).symm
  | cons t types ih =>
    obtain ⟨t', rest, rfl, head, tail⟩ := map_eq_cons_iff.mp same.symm
    obtain ⟨first, more⟩ := forall_mem_cons.mp worded
    obtain ⟨first', more'⟩ := forall_mem_cons.mp worded'
    rw [first.text_inj first' head.symm, ih more more' tail.symm]

theorem Ty.Worded.text_plain {t : Ty} (worded : t.Worded) :
    t.text.toList ≠ [] ∧ ',' ∉ t.text.toList := by
  obtain ⟨name, array, isWord, rfl⟩ := worded
  obtain ⟨filled, _, comma, _⟩ := isWord.no_signs
  rw [text_named, String.toList_append]
  refine ⟨fun empty => filled (append_eq_nil_iff.mp empty).1, ?_⟩
  cases array <;> simp [comma]

theorem intercalate_comma_inj {ls ls' : List (List Char)} (plain : ∀ l ∈ ls, l ≠ [] ∧ ',' ∉ l)
    (plain' : ∀ l ∈ ls', l ≠ [] ∧ ',' ∉ l) (same : [','].intercalate ls = [','].intercalate ls') :
    ls = ls' := by
  have nonempty : ∀ {ls : List (List Char)}, (∀ l ∈ ls, l ≠ [] ∧ ',' ∉ l) → ls ≠ [] →
      [','].intercalate ls ≠ [] := by
    intro ls plain filled empty
    have split := splitOn_intercalate ',' (fun l member => (plain l member).2) filled
    rw [empty, splitOn_nil] at split
    exact (plain [] (split ▸ mem_singleton_self _)).1 rfl
  by_cases empty : ls = []
  · by_cases empty' : ls' = []
    · rw [empty, empty']
    · exact absurd (same.symm.trans (by rw [empty]; rfl)) (nonempty plain' empty')
  · by_cases empty' : ls' = []
    · exact absurd (same.trans (by rw [empty']; rfl)) (nonempty plain empty)
    · rw [← splitOn_intercalate ',' (fun l member => (plain l member).2) empty, same,
        splitOn_intercalate ',' (fun l member => (plain' l member).2) empty']

theorem takeWhile_signature {name : String} (plain : '(' ∉ name.toList) (params : List Ty) :
    String.ofList ((signatureText name params).toList.takeWhile (· != '(')) = name := by
  have before : ∀ c ∈ name.toList, (c != '(') = true :=
    fun c member => bne_iff_ne.mpr fun same => plain (same ▸ member)
  simp [signatureText, takeWhile_append_of_pos before]

theorem signatureText_inj {name name' : String} {types types' : List Ty} (isWord : IsWord name)
    (isWord' : IsWord name') (worded : ∀ t ∈ types, t.Worded) (worded' : ∀ t ∈ types', t.Worded) :
    signatureText name types = signatureText name' types' ↔ name = name' ∧ types = types' := by
  refine ⟨fun same => ?_, fun same => by rw [same.1, same.2]⟩
  have sameName : name = name' := by
    rw [← takeWhile_signature isWord.no_signs.2.1 types, same,
      takeWhile_signature isWord'.no_signs.2.1 types']
  subst sameName
  refine ⟨rfl, ?_⟩
  have plain : ∀ {types : List Ty}, (∀ t ∈ types, t.Worded) →
      ∀ l ∈ (types.map Ty.text).map String.toList, l ≠ [] ∧ ',' ∉ l := by
    intro types worded l member
    obtain ⟨text, among, rfl⟩ := mem_map.mp member
    obtain ⟨t, listed, rfl⟩ := mem_map.mp among
    exact (worded t listed).text_plain
  have texts : (types.map Ty.text).map String.toList = (types'.map Ty.text).map String.toList := by
    refine intercalate_comma_inj (plain worded) (plain worded') ?_
    simpa [signatureText, String.toList_intercalate] using congrArg String.toList same
  exact map_text_inj worded worded' ((map_inj_right fun _ _ => String.toList_inj.mp).mp texts)

end

/-! ## Methods -/

section

/-- What tells methods apart: the name and the types of the parameters. -/
@[ext] structure MethodKey where
  name : String
  types : List Ty
  deriving DecidableEq

/-- The signature that a key stands for. -/
def MethodKey.text (k : MethodKey) : String := signatureText k.name k.types

/-- The key of a method. Repeated parameters do not count. -/
def methodKey (m : Method Pos) : MethodKey :=
  ⟨m.name, (firsts VarDecl.name m.params).map fun d => d.type.ty⟩

/-- The key of a method at a place of the class. -/
def entryKey (e : Method Pos × Nat) : MethodKey := methodKey e.1

/-- The names by which a method is told apart from others are words. -/
def Syntax.Method.NamedByWords (m : Method Pos) : Prop :=
  IsWord m.name ∧ ∀ d ∈ m.params, IsWord d.type.name

instance : DecidablePred Method.NamedByWords := fun m =>
  inferInstanceAs (Decidable (IsWord m.name ∧ ∀ d ∈ m.params, IsWord d.type.name))

theorem entryKey_eq (e : Method Pos × Nat) :
    entryKey e = ⟨(indexedMethod e).name, (indexedMethod e).paramTypes⟩ := by
  simp only [MethodSymbol.paramTypes, indexedMethod, entryKey, methodKey, map_map]
  rfl

theorem signature_indexedMethod (e : Method Pos × Nat) :
    (indexedMethod e).signature = (entryKey e).text := by
  rw [entryKey_eq]
  rfl

theorem text_methodKey_inj {m m' : Method Pos} (named : m.NamedByWords) (named' : m'.NamedByWords) :
    (methodKey m).text = (methodKey m').text ↔ methodKey m = methodKey m' := by
  have worded : ∀ {m : Method Pos}, m.NamedByWords → ∀ t ∈ (methodKey m).types, t.Worded := by
    intro m named t member
    obtain ⟨d, among, rfl⟩ := mem_map.mp member
    exact ⟨d.type.name, d.type.array, named.2 d (firsts_subset among), rfl⟩
  rw [MethodKey.ext_iff]
  exact signatureText_inj named.1 named'.1 (worded named) (worded named')

theorem method?_eq_some {t : Table} (plain : ∀ m ∈ t.methods, '(' ∉ m.name.toList)
    (distinct : (t.methods.map MethodSymbol.signature).Nodup) {signature : String}
    {m : MethodSymbol} :
    t.method? signature = some m ↔ m ∈ t.methods ∧ m.signature = signature := by
  rw [Table.method?, Table.methodsNamed]
  constructor
  · intro found
    exact ⟨(mem_filter.mp (mem_of_find?_eq_some found)).1,
      by simpa using List.find?_some found⟩
  · rintro ⟨member, rfl⟩
    have name := takeWhile_signature (plain m member) m.paramTypes
    cases found : (t.methods.filter fun n => n.name =
        String.ofList (m.signature.toList.takeWhile (· != '('))).find? fun n =>
          n.signature = m.signature with
    | none =>
      refine absurd (List.find?_eq_none.mp found m (mem_filter.mpr ⟨member, ?_⟩)) (by simp)
      exact decide_eq_true name.symm
    | some n =>
      have listed := (mem_filter.mp (mem_of_find?_eq_some found)).1
      have same : n.signature = m.signature := by simpa using List.find?_some found
      exact congrArg some (inj_on_of_nodup_map distinct listed member same)

/-- A table with some methods. -/
def Table.declaring (t : Table) (es : List (Method Pos × Nat)) : Table :=
  { t with methods := es.map indexedMethod }

section Listed

variable {t : Table} {es : List (Method Pos × Nat)} (named : ∀ e ∈ es, e.1.NamedByWords)

include named

theorem declaring_distinct :
    (∀ m ∈ (t.declaring (firsts entryKey es)).methods, '(' ∉ m.name.toList) ∧
      ((t.declaring (firsts entryKey es)).methods.map MethodSymbol.signature).Nodup := by
  have distinct : ((firsts entryKey es).map entryKey).Nodup := nodup_firsts
  refine ⟨forall_mem_map.mpr fun e member => ?_, ?_⟩
  · exact (named e (firsts_subset member)).1.no_signs.2.1
  rw [Table.declaring, map_map]
  refine List.Nodup.map_on (fun e member e' member' same => ?_) (List.Nodup.of_map _ distinct)
  simp only [Function.comp_apply, signature_indexedMethod] at same
  exact inj_on_of_nodup_map distinct member member'
    ((text_methodKey_inj (named e (firsts_subset member)) (named e' (firsts_subset member'))).mp same)

/-- Methods are listed if their key is new, and are errors otherwise. Repeated variables are errors
in both cases. -/
theorem addMethod_firsts {e : Method Pos × Nat} (here : e.1.NamedByWords) :
    (addMethod (t.declaring (firsts entryKey es)) e).value = t.declaring (firsts entryKey es ++
          if entryKey e ∈ es.map entryKey then [] else [e]) ∧
      (addMethod (t.declaring (firsts entryKey es)) e).errors =
        repeatedVars e.1 + if entryKey e ∈ es.map entryKey then 1 else 0 := by
  obtain ⟨plain, distinct⟩ := declaring_distinct (t := t) named
  have new : (t.declaring (firsts entryKey es)).method? (indexedMethod e).signature =
      none ↔ entryKey e ∉ es.map entryKey := by
    rw [Option.eq_none_iff_forall_ne_some, ← mem_map_firsts, mem_map, not_exists]
    simp only [ne_eq, method?_eq_some plain distinct, not_and]
    refine forall_mem_map.trans (forall₂_congr fun e' member => ?_)
    rw [signature_indexedMethod, signature_indexedMethod]
    exact not_congr (text_methodKey_inj (named e' (firsts_subset member)) here)
  rw [addMethod, Logged.value_bind, Logged.errors_bind, errors_methodSymbol, methodSymbol_indexed]
  by_cases again : entryKey e ∈ es.map entryKey
  · obtain ⟨prev, found⟩ := Option.ne_none_iff_exists'.mp fun none => new.mp none again
    simp only [found, if_pos again, append_nil]
    exact ⟨rfl, rfl⟩
  · simp only [new.mpr again, if_neg again]
    refine ⟨?_, rfl⟩
    simp only [Table.declaring, map_append]
    rfl

theorem foldlM_addMethod_firsts : (es.foldlM addMethod (t.declaring [])).value =
        t.declaring (firsts entryKey es) ∧
      (es.foldlM addMethod (t.declaring [])).errors =
        (es.map fun e => repeatedVars e.1).sum + repeats entryKey es :=
  foldlM_firsts entryKey addMethod t.declaring es fun _ e inside =>
    addMethod_firsts (fun e' member => named e' (inside.subset (mem_append_left _ member)))
      (named e (inside.subset (mem_append_right _ (mem_singleton_self e))))

end Listed

end

/-! ## The table of a file -/

/-- A table lists what a file declares, and finds what it lists. -/
structure Table.Indexes (t : Table) (f : File Pos) : Prop where
  /-- The first import of each simple name is listed. -/
  imports : t.imports = (firsts Import.name f.imports).map fun i => (i.name, i.qualified)
  /-- The first field of each name is listed. -/
  fields : t.fields = (firsts VarDecl.name f.cls.fields).map declSymbol
  /-- The first method of each name and list of parameter types is listed. -/
  methods : t.methods = (firsts entryKey f.cls.methods.zipIdx).map indexedMethod
  /-- The variables of a method are the first ones of their names. -/
  vars : ∀ e ∈ f.cls.methods.zipIdx, (indexedMethod e).params ++ (indexedMethod e).locals =
    (firsts VarDecl.name (e.1.params ++ e.1.locals)).map declSymbol
  /-- No two variables of a method have the same name. -/
  distinct : ∀ m ∈ t.methods, ((m.params ++ m.locals).map Symbol.name).Nodup
  /-- The import of a name is the listed one. -/
  importFound : ∀ name q, t.import? name = some q ↔ (name, q) ∈ t.imports
  /-- The field of a name is the listed one. -/
  fieldFound : ∀ name s, t.field? name = some s ↔ s ∈ t.fields ∧ s.name = name
  /-- The methods of a name are the listed ones, in order. -/
  methodsNamed : ∀ name, t.methodsNamed name = t.methods.filter fun m => m.name = name
  /-- The method of a signature is the listed one. -/
  methodFound : ∀ signature m, t.method? signature = some m ↔ m ∈ t.methods ∧ m.signature = signature
  /-- Signatures are the same if names and parameter types are. -/
  signatures : ∀ e ∈ f.cls.methods.zipIdx, ∀ e' ∈ f.cls.methods.zipIdx,
    ((indexedMethod e).signature = (indexedMethod e').signature ↔
      (indexedMethod e).name = (indexedMethod e').name ∧
        (indexedMethod e).paramTypes = (indexedMethod e').paramTypes)

/-- The names of methods and of the types of parameters are words. -/
def Syntax.File.NamedByWords (f : File Pos) : Prop := ∀ m ∈ f.cls.methods, m.NamedByWords

instance : DecidablePred File.NamedByWords := fun f =>
  inferInstanceAs (Decidable (∀ m ∈ f.cls.methods, m.NamedByWords))

/-- The table that lists first declarations. -/
def firstsTable (f : File Pos) : Table where
  cls := f.cls.name
  super := f.cls.super
  imports := (firsts Import.name f.imports).map importEntry
  fields := (firsts VarDecl.name f.cls.fields).map declSymbol
  methods := (firsts entryKey f.cls.methods.zipIdx).map indexedMethod

theorem buildTable_firsts {f : File Pos} (named : f.NamedByWords) :
    (buildTable f).value = firstsTable f ∧ (buildTable f).errors =
        repeats VarDecl.name f.cls.fields + repeats methodKey f.cls.methods +
          (f.cls.methods.map repeatedVars).sum +
          f.imports.countP fun i => (firstsTable f).import? i.name ≠ some i.qualified := by
  let start : Table := { cls := f.cls.name, super := f.cls.super }
  let imported := start.importing (firsts Import.name f.imports)
  let filled := imported.having (firsts VarDecl.name f.cls.fields)
  have imports : (f.imports.foldlM addImport start).value = imported :=
    foldlM_addImport_firsts (t := start) f.imports
  have importErrors : (f.imports.foldlM addImport start).errors =
      f.imports.countP fun i => imported.import? i.name ≠ some i.qualified :=
    errors_foldlM_addImport (t := start) f.imports
  obtain ⟨fields, fieldErrors⟩ : (f.cls.fields.foldlM addField imported).value = filled ∧
        (f.cls.fields.foldlM addField imported).errors = repeats VarDecl.name f.cls.fields :=
    foldlM_addField_firsts (t := imported) f.cls.fields
  obtain ⟨methods, methodErrors⟩ :
      (f.cls.methods.zipIdx.foldlM addMethod filled).value = firstsTable f ∧
        (f.cls.methods.zipIdx.foldlM addMethod filled).errors =
          (f.cls.methods.zipIdx.map fun e => repeatedVars e.1).sum +
            repeats entryKey f.cls.methods.zipIdx :=
    foldlM_addMethod_firsts (t := filled) fun e member =>
      named e.1 (fst_mem_of_mem_zipIdx member)
  have keys : repeats entryKey f.cls.methods.zipIdx = repeats methodKey f.cls.methods :=
    (repeats_map methodKey Prod.fst _).trans (by rw [zipIdx_map_fst])
  rw [buildTable, Logged.value_bind, Logged.value_bind, Logged.errors_bind, Logged.errors_bind,
    imports, importErrors, fields, fieldErrors, methods, methodErrors, keys, map_zipIdx_fst]
  refine ⟨rfl, ?_⟩
  -- Imports are found among those that are listed before fields and methods are.
  have found : ∀ name, imported.import? name = (firstsTable f).import? name := fun _ => rfl
  simp only [found]
  omega

/-- A class with a clash of each kind. The second method clashes with the first only since the
second parameter of the first is a repeated one. -/
def clashingText : List UInt8 :=
  ("import a.A;import b.A;import a.A;class C\x7bint x;boolean x;" ++
    "public int f(int p,boolean p)\x7bint p;int q;boolean q;return 0;\x7d" ++
    "public int f(int r)\x7breturn 0;\x7dpublic int f(int[] r)\x7breturn 0;\x7d\x7d").toUTF8.toList

end JavaMinus
