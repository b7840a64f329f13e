import JavaMinus.Proofs.FollowedFiles

/-!
# Which lexemes lead to which phrases

Some of the phrases that can be awaited in a file are told by the last lexemes before them. Behind
`public static void` the name `main` is awaited, and so on word by word up to the parameter
(`awaited_public`). An assignment sign right behind a bracket starts the value of an element, and
as long as no semicolon comes, the value goes on (`awaited_element`). Before the first method, a
name behind a semicolon or an opening brace is the start of a field (`awaited_field`), and nowhere
else the name of a field is awaited (`field_of_awaited`).

Each of these is a fact about the rows of all phrases, which is checked, together with an
invariant of the awaited phrases: what is awaited behind the first one never is the rest of a
statement behind a name; before the first method, the phrases are among a few (`headStacks`); and
behind it, no phrase of the head of the class comes back.
-/

namespace JavaMinus.Syntax

open List

open Lexeme (fixed)

variable {p : Phrase} {ps qs X Y Z : List Phrase} {l : Lexeme} {u v w : List Lexeme}

theorem Trigger.eq_of_fits_fixed {t : Trigger} {s : String} (fits : t.fits (fixed s) = true) :
    t = .word s := by
  cases t with
  | word s' =>
    rw [Trigger.fits_word, decide_eq_true_eq] at fits
    rw [Lexeme.fixed.inj fits]
  | name | named | number => cases fits

/-- The kind of the place at which the next lexeme comes. -/
def nextSnag (Z : List Phrase) : Option Snag := Z.head?.map Phrase.snag

/-! ## Methods -/

theorem Phrase.take_public : ∀ p : Phrase, ∀ entry ∈ p.row, entry.1 = .word "public" →
    entry.2 = [.signature, .methods] :=
  forall_of_all (by decide +kernel)

theorem awaited_public (after : awaited X w = some Z) (ends : fixed "public" :: v <:+ w) :
    ∃ ps, awaited (.signature :: .methods :: ps) v = some Z := by
  obtain ⟨u, rfl⟩ := ends
  obtain ⟨Y, _, second⟩ := awaited_append after
  obtain ⟨p, ps, qs, rfl, taken, later⟩ := awaited_cons second
  obtain ⟨t, entry, fits⟩ := Phrase.mem_row_of_take taken
  obtain rfl : qs = [.signature, .methods] :=
    p.take_public _ entry (Trigger.eq_of_fits_fixed fits)
  exact ⟨ps, later⟩

/-- **Behind `public static void`, the name `main` is awaited.** -/
theorem awaited_mainName (after : awaited X w = some Z)
    (ends : [fixed "public", fixed "static", fixed "void"] <:+ w) :
    nextSnag Z = some .mainName := by
  obtain ⟨ps, later⟩ := awaited_public after ends
  cases later
  rfl

/-- **Behind the start of `main`, its parameter is awaited.** -/
theorem awaited_mainString (after : awaited X w = some Z) (ends : mainStart <:+ w) :
    nextSnag Z = some .mainString := by
  obtain ⟨ps, later⟩ := awaited_public after ends
  cases later
  rfl

/-- **Behind the start of `main` and `String`, the brackets are awaited.** -/
theorem awaited_mainBracket (after : awaited X w = some Z)
    (ends : mainStart ++ [.name "String"] <:+ w) : nextSnag Z = some .mainBracket := by
  obtain ⟨ps, later⟩ := awaited_public after ends
  cases later
  rfl

/-! ## Values of elements -/

/-- The rest of a statement behind a name. -/
def Phrase.isNamed : Phrase → Bool
  | nameStmt | localName _ => true
  | _ => false

theorem Phrase.row_isNamed : ∀ p : Phrase, ∀ entry ∈ p.row, ∀ q ∈ entry.2.tail, q.isNamed = false :=
  forall_of_all (by decide +kernel)

theorem Phrase.row_bracket : ∀ p : Phrase, ∀ entry ∈ p.row, entry.1 = .word "]" → entry.2 = [] :=
  forall_of_all (by decide +kernel)

theorem Phrase.row_assign : ∀ p : Phrase, p.isNamed = false → ∀ entry ∈ p.row,
    entry.1 = .word "=" → entry.2 = [.expr .semicolon true] :=
  forall_of_all (by decide +kernel)

theorem named_first (start : ∀ q ∈ X.tail, q.isNamed = false) (after : awaited X w = some Z) :
    ∀ q ∈ Z.tail, q.isNamed = false := by
  refine awaited_keeps (I := fun X => ∀ q ∈ X.tail, q.isNamed = false) (P := fun _ => True) ?_
    start (fun _ _ => trivial) after
  intro p ps l qs _ others taken
  obtain ⟨t, entry, _⟩ := Phrase.mem_row_of_take taken
  cases qs with
  | nil => exact fun q member => others q (mem_of_mem_tail member)
  | cons q qs => exact forall_mem_append.mpr ⟨p.row_isNamed _ entry, others⟩

theorem InValue.nextSnag (inValue : InValue ps Z) : nextSnag Z = some .element := by
  cases Z with
  | nil => cases inValue
  | cons p X => exact congrArg some inValue.snag

/-- **Behind a bracket and an assignment sign, the value of an element is awaited, until a
semicolon comes.** -/
theorem awaited_element (start : ∀ q ∈ X.tail, q.isNamed = false)
    (after : awaited X (u ++ fixed "]" :: fixed "=" :: v) = some Z) (noSign : fixed ";" ∉ v) :
    nextSnag Z = some .element ∧ fixed "=" ∉ v := by
  obtain ⟨Y, first, second⟩ := awaited_append after
  have others := named_first start first
  obtain ⟨p, ps, qs, rfl, taken, later⟩ := awaited_cons second
  obtain ⟨t, entry, fits⟩ := Phrase.mem_row_of_take taken
  obtain rfl : qs = [] := p.row_bracket _ entry (Trigger.eq_of_fits_fixed fits)
  obtain ⟨q, ps, rs, rfl, taken', later'⟩ := awaited_cons later
  obtain ⟨t', entry', fits'⟩ := Phrase.mem_row_of_take taken'
  obtain rfl : rs = [.expr .semicolon true] :=
    q.row_assign (others q mem_cons_self) _ entry' (Trigger.eq_of_fits_fixed fits')
  have starts : InValue ps (.expr .semicolon true :: ps) := .last rfl
  obtain ⟨inValue, noAssign⟩ := starts.awaited noSign later'
  exact ⟨inValue.nextSnag, noAssign⟩

/-! ## The head of a class -/

/-- The phrases that are awaited before the first method. -/
def headStacks : List (List Phrase) :=
  [[], [.imports], [.importName], [.pathRest], [.className], [.superclass], [.superName],
    [.classOpen], [.fields], [.fieldEnd], [.anyName, .fieldEnd],
    [.mark .rightBracket false, .anyName, .fieldEnd]] ++
  [true, false].flatMap fun b => [[.declName b, .fieldEnd], [.fieldName b, .fieldEnd]]

/-- What an entry of a phrase in the head of a class does. The first method ends the head. The
name of a field is awaited behind a name only, and the members of a class behind a semicolon or an
opening brace. -/
def headEntry (p : Phrase) (ps : List Phrase) (t : Trigger) (qs : List Phrase) : Prop :=
  if t = .word "public" then ps = []
  else qs ++ ps ∈ headStacks ∧ (nextSnag (qs ++ ps) = some .fieldName → p :: ps = [.fields] ∧
      (t = .name ∨ t = .named "String")) ∧
    (qs ++ ps = [.fields] → t = .word ";" ∨ t = .word "\x7b") ∧
    (t = .word ";" ∨ t = .word "\x7b" → qs ++ ps = [.fields] ∨ qs ++ ps = [.imports])

theorem headEntry_of_mem : ∀ X ∈ headStacks, ∀ p ∈ X.head?, ∀ entry ∈ p.row,
    headEntry p X.tail entry.1 entry.2 := by
  unfold headEntry
  decide +kernel

theorem head_step (member : p :: ps ∈ headStacks) (taken : p.take l = some qs) :
    ∃ t, t.fits l = true ∧ headEntry p ps t qs := by
  obtain ⟨t, entry, fits⟩ := Phrase.mem_row_of_take taken
  exact ⟨t, fits, headEntry_of_mem _ member p rfl _ entry⟩

theorem head_step_on (member : p :: ps ∈ headStacks) (taken : p.take l = some qs)
    (noMethod : l ≠ fixed "public") : qs ++ ps ∈ headStacks ∧
      (nextSnag (qs ++ ps) = some .fieldName → p :: ps = [.fields] ∧ ∃ name, l = .name name) ∧
      (qs ++ ps = [.fields] → ∃ sign ∈ [";", "\x7b"], l = fixed sign) ∧
      ∀ sign ∈ [";", "\x7b"], l = fixed sign → qs ++ ps = [.fields] ∨ qs ++ ps = [.imports] := by
  obtain ⟨t, fits, entry⟩ := head_step member taken
  have other : t ≠ .word "public" := by
    rintro rfl
    rw [Trigger.fits_word, decide_eq_true_eq] at fits
    exact noMethod fits
  rw [headEntry, if_neg other] at entry
  obtain ⟨closed, named, members, signs⟩ := entry
  refine ⟨closed, fun atField => ?_, fun atMembers => ?_, fun sign isSign here => ?_⟩
  · obtain ⟨isFields, isName⟩ := named atField
    refine ⟨isFields, ?_⟩
    cases l with
    | name name => exact ⟨name, rfl⟩
    | number | fixed => rcases isName with rfl | rfl <;> cases fits
  · rcases members atMembers with rfl | rfl
    · rw [Trigger.fits_word, decide_eq_true_eq] at fits
      exact ⟨";", by simp, fits⟩
    · rw [Trigger.fits_word, decide_eq_true_eq] at fits
      exact ⟨"\x7b", by simp, fits⟩
  · subst here
    obtain rfl := Trigger.eq_of_fits_fixed fits
    exact signs (by simpa using isSign)

theorem awaited_head (noMethod : fixed "public" ∉ w) (after : awaited [.imports] w = some Z) :
    Z ∈ headStacks := by
  refine awaited_keeps (I := (· ∈ headStacks)) (P := (· ≠ fixed "public")) ?_ (by decide) ?_ after
  · intro p ps l qs other member taken
    exact (head_step_on member taken other).1
  · rintro l member rfl
    exact noMethod member

theorem awaited_concat (after : awaited X (w ++ [l]) = some Z) :
    ∃ p ps qs, awaited X w = some (p :: ps) ∧ p.take l = some qs ∧ Z = qs ++ ps := by
  obtain ⟨Y, first, second⟩ := awaited_append after
  obtain ⟨p, ps, qs, rfl, taken, later⟩ := awaited_cons second
  rw [awaited_nil] at later
  exact ⟨p, ps, qs, first, taken, (Option.some.inj later).symm⟩

/-- **Before the first method, a name behind a semicolon or an opening brace starts a field.** -/
theorem awaited_field (noMethod : fixed "public" ∉ w) (after : awaited [.imports] w = some Z)
    {sign name : String} (isSign : sign ∈ [";", "\x7b"]) (ends : [fixed sign, .name name] <:+ w) :
    nextSnag Z = some .fieldName := by
  obtain ⟨u, rfl⟩ := ends
  rw [mem_append, not_or] at noMethod
  have split : u ++ [fixed sign, .name name] = (u ++ [fixed sign]) ++ [.name name] := by simp
  rw [split] at after
  obtain ⟨q, rest, rs, before, taken', rfl⟩ := awaited_concat after
  obtain ⟨p, ps, qs, first, taken, same⟩ := awaited_concat before
  have other : fixed sign ≠ fixed "public" := by
    intro same
    exact noMethod.2 (same ▸ mem_cons_self)
  obtain ⟨_, _, _, behind⟩ := head_step_on (awaited_head noMethod.1 first) taken other
  rcases same ▸ behind sign isSign rfl with isFields | isImports
  · obtain ⟨rfl, rfl⟩ := List.cons.inj isFields
    rw [take_fields_name] at taken'
    cases taken'
    rfl
  · obtain ⟨rfl, rfl⟩ := List.cons.inj isImports
    cases taken'

/-- The phrases of the head of a class that do not come back behind it. -/
def Phrase.isHead : Phrase → Bool
  | imports | importName | pathRest | className | superclass | superName | classOpen | fields
  | fieldName _ | fieldEnd => true
  | _ => false

theorem Phrase.row_isHead : ∀ p : Phrase, p.isHead = false → ∀ entry ∈ p.row, ∀ q ∈ entry.2,
    q.isHead = false :=
  forall_of_all (by decide +kernel)

theorem Phrase.isHead_of_fieldName : ∀ p : Phrase, p.snag = .fieldName → p.isHead = true :=
  forall_of_all (by decide +kernel)

theorem awaited_behind_head (method : fixed "public" ∈ w) (after : awaited [.imports] w = some Z) :
    ∀ q ∈ Z, q.isHead = false := by
  obtain ⟨u, v, rfl, noMethod⟩ := eq_append_cons_of_mem method
  obtain ⟨Y, first, second⟩ := awaited_append after
  have inHead := awaited_head noMethod first
  obtain ⟨p, ps, qs, rfl, taken, later⟩ := awaited_cons second
  obtain ⟨t, fits, entry⟩ := head_step inHead taken
  obtain rfl := Trigger.eq_of_fits_fixed fits
  obtain ⟨t', entry', fits'⟩ := Phrase.mem_row_of_take taken
  obtain rfl : qs = [.signature, .methods] :=
    p.take_public _ entry' (Trigger.eq_of_fits_fixed fits')
  rw [headEntry, if_pos rfl] at entry
  subst entry
  refine awaited_keeps (I := fun X => ∀ q ∈ X, q.isHead = false) (P := fun _ => True) ?_
    (by decide) (fun _ _ => trivial) later
  intro p ps l qs _ late taken
  obtain ⟨first, others⟩ := forall_mem_cons.mp late
  obtain ⟨t, entry, _⟩ := Phrase.mem_row_of_take taken
  exact forall_mem_append.mpr ⟨p.row_isHead first _ entry, others⟩

/-- **The name of a field is awaited before the first method only, behind a name that comes behind
a semicolon or an opening brace.** -/
theorem field_of_awaited (after : awaited [.imports] w = some Z)
    (atField : nextSnag Z = some .fieldName) : fixed "public" ∉ w ∧
      ∃ sign ∈ [";", "\x7b"], ∃ name, [fixed sign, .name name] <:+ w := by
  have noMethod : fixed "public" ∉ w := by
    intro method
    obtain ⟨p, first, isField⟩ := Option.map_eq_some_iff.mp atField
    have late := awaited_behind_head method after p (mem_of_head? first)
    rw [p.isHead_of_fieldName isField] at late
    cases late
  refine ⟨noMethod, ?_⟩
  obtain rfl | ⟨w, l, rfl⟩ := w.eq_nil_or_concat'
  · cases after
    cases atField
  obtain ⟨q, rest, rs, before, taken, same⟩ := awaited_concat after
  rw [mem_append, not_or, mem_singleton] at noMethod
  have inHead := awaited_head noMethod.1 before
  obtain ⟨_, named, _, _⟩ := head_step_on inHead taken (Ne.symm noMethod.2)
  obtain ⟨isFields, name, rfl⟩ := named (same ▸ atField)
  rw [isFields] at before
  obtain rfl | ⟨w, l, rfl⟩ := w.eq_nil_or_concat'
  · cases before
  obtain ⟨q', rest', rs', before', taken', same'⟩ := awaited_concat before
  rw [mem_append, not_or, mem_singleton] at noMethod
  obtain ⟨_, _, members, _⟩ :=
    head_step_on (awaited_head noMethod.1.1 before') taken' (Ne.symm noMethod.1.2)
  obtain ⟨sign, isSign, rfl⟩ := members same'.symm
  exact ⟨sign, isSign, name, w, by simp⟩

end JavaMinus.Syntax
