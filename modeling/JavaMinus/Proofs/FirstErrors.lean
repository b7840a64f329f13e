import JavaMinus.Proofs.ReachedPhrases
import JavaMinus.Proofs.TruePlaces

/-!
# The first lexeme that cannot come

A text that can be scanned and not be read has a first lexeme that cannot come: some text that can
be read starts with the lexemes before it, and none starts with these and that one
(`FirstMisfit`). The end of a text counts as a lexeme. The awaited phrases tell which one it is,
since what has been followed can be completed and spelled out again (`firstMisfit_of_awaited`).

The report mostly names this lexeme. There are five exceptions (`parse_names_first_misfit`). In the
value that is assigned to an element of an array, the assignment sign is named. The others depend
on the last lexemes before the misfit and the next ones (`namedIndex`): a static method that is
not `main` is named at its start, the parameter of `main` without brackets at its type, the
parameter of `main` that starts with `int` and a bracket behind the bracket, and a name that does
not start a field at that name.
-/

namespace JavaMinus.Syntax

open List

open Lexeme (fixed)

variable {ls : List Lexeme} {l : Lexeme} {c d : Cursor}

/-! ## Spelling lexemes again -/

/-- The lexeme can be written. -/
def Lexeme.Spellable : Lexeme → Prop
  | .name s => IsName s
  | .number s => IsNumeral s
  | .fixed s => s ∈ reserved ∨ (∃ c ∈ signs, s = String.ofList [c]) ∨ s = "&&"

/-- Lexemes that can be written are written one after the other, with blanks between them. -/
theorem exists_spelling (each : ∀ l ∈ ls, l.Spellable) : ∃ text, Spells [] text ls := by
  induction ls with
  | nil => exact ⟨[], .done⟩
  | cons l ls ih =>
    obtain ⟨first, others⟩ := forall_mem_cons.mp each
    obtain ⟨text, spelled⟩ := ih others
    have apart : Spells [] (' ' :: text) ls := .gap (by decide) spelled
    have stops : Stops (' ' :: text) := by
      rintro c ⟨⟩
      decide
    cases l with
    | name s => exact ⟨_, .name first stops apart⟩
    | number s => exact ⟨_, .number first stops apart⟩
    | fixed s =>
      obtain isReserved | ⟨c, isSign, rfl⟩ | rfl := first
      · exact ⟨_, .keyword isReserved stops apart⟩
      · refine ⟨_, .sign isSign (fun _ d next => ?_) apart⟩
        cases next
        decide
      · exact ⟨_, .both apart⟩

theorem wordLexeme_spellable {s : String} (isWord : IsWord s) : (wordLexeme s).Spellable := by
  unfold wordLexeme
  split
  case isTrue isReserved => exact .inl isReserved
  case isFalse plain => exact ⟨plain, isWord⟩

theorem sign_spellable {b : UInt8} (sign : isSign b = true) :
    (fixed (asciiText [b])).Spellable := by
  have member : b ∈ signs.map byteOf := of_decide_eq_true sign
  obtain ⟨c, isSign, rfl⟩ := mem_map.mp member
  refine .inr (.inl ⟨c, isSign, ?_⟩)
  obtain ⟨_, _, _, _, _, _, back, _⟩ := sign_facts c isSign
  rw [asciiText, map_singleton, back]

theorem scanOne_spellable {p q : Pos} {b : UInt8} {rest after : List UInt8}
    (token : scanOne p b rest = .token l after q) : l.Spellable := by
  unfold scanOne at token
  split_ifs at token with _ _ _ _ letter digit _ _ sign
  any_goals cases token
  · split at token <;> cases token
  · exact wordLexeme_spellable ⟨b, _, letter, fun c member => mem_takeWhile_imp member, rfl⟩
  · exact ⟨b, _, digit, fun c member => mem_takeWhile_imp member, rfl⟩
  · exact .inr (.inr rfl)
  · exact sign_spellable sign

theorem scanFrom_spellable {p stop : Pos} {bytes : List UInt8} {tokens : List Token}
    (scanned : scanFrom p bytes = .ok (tokens, stop)) : ∀ t ∈ tokens, t.lexeme.Spellable :=
  forall_scanFrom scanOne_spellable scanned

/-- What is checked of the lexemes that bring phrases to an end. -/
def Lexeme.looksSpellable : Lexeme → Bool
  | .name s => s ∉ reserved && looksLikeWord s
  | .number _ => false
  | .fixed s => s ∈ reserved || s ∈ signs.map fun c => String.ofList [c]

theorem Lexeme.spellable_of_looks (looks : l.looksSpellable = true) : l.Spellable := by
  cases l with
  | name s =>
    rw [looksSpellable, Bool.and_eq_true, decide_eq_true_eq] at looks
    exact ⟨looks.1, isWord_of_looks looks.2⟩
  | number s => cases looks
  | fixed s =>
    rw [looksSpellable, Bool.or_eq_true, decide_eq_true_eq, decide_eq_true_eq] at looks
    refine looks.imp id fun isSign => .inl ?_
    obtain ⟨c, member, rfl⟩ := mem_map.mp isSign
    exact ⟨c, member, rfl⟩

theorem Phrase.completion_looks : ∀ p : Phrase, ∀ l ∈ p.completion, l.looksSpellable = true :=
  forall_of_all (by decide +kernel)

/-! ## Texts that can be read -/

/-- The lexemes of a text, and its end. -/
def withEnd (ls : List Lexeme) : List (Option Lexeme) := ls.map some ++ [none]

/-- Some text that can be read starts in this way. -/
def Begins (os : List (Option Lexeme)) : Prop :=
  ∃ bytes tokens stop f, scan bytes = .ok (tokens, stop) ∧ parse bytes = .ok f ∧
    os <+: withEnd (tokens.map (·.lexeme))

/-- The lexeme with the given number is the first that cannot come. -/
def FirstMisfit (ls : List Lexeme) (t : Nat) : Prop :=
  t ≤ ls.length ∧ Begins ((withEnd ls).take t) ∧ ¬Begins ((withEnd ls).take (t + 1))

theorem Begins.shorter {os os' : List (Option Lexeme)} (begins : Begins os) (shorter : os' <+: os) :
    Begins os' := by
  obtain ⟨bytes, tokens, stop, f, scanned, read, starts⟩ := begins
  exact ⟨bytes, tokens, stop, f, scanned, read, shorter.trans starts⟩

theorem FirstMisfit.le {t t' : Nat} (misfit : FirstMisfit ls t) (other : FirstMisfit ls t') :
    t' ≤ t := by
  refine Nat.le_of_not_lt fun later => misfit.2.2 (other.2.1.shorter ?_)
  exact take_prefix_take_left later

theorem FirstMisfit.unique {t t' : Nat} (misfit : FirstMisfit ls t) (other : FirstMisfit ls t') :
    t = t' :=
  le_antisymm (other.le misfit) (misfit.le other)

section Misfits

variable {w r : List Lexeme} {Z : List Phrase}

theorem take_withEnd : (withEnd (w ++ r)).take w.length = w.map some := by
  rw [withEnd, map_append, append_assoc]
  exact take_left' (length_map _)

theorem take_succ_withEnd : (withEnd (w ++ r)).take (w.length + 1) = w.map some ++ [r.head?] := by
  rw [withEnd, map_append, append_assoc, take_append, length_map]
  cases r <;> simp

theorem split_of_begins {o : Option Lexeme} (begins : w.map some ++ [o] <+: withEnd ls) :
    ∃ r, ls = w ++ r ∧ r.head? = o := by
  induction w generalizing ls with
  | nil =>
    refine ⟨ls, rfl, ?_⟩
    cases ls <;> simpa [withEnd, eq_comm] using begins
  | cons l w ih =>
    cases ls with
    | nil => simp [withEnd] at begins
    | cons l' ls =>
      obtain ⟨same, later⟩ := cons_prefix_cons.mp begins
      cases same
      obtain ⟨r, rfl, next⟩ := ih later
      exact ⟨r, rfl, next⟩

theorem begins_of_awaited (spellable : ∀ l ∈ w, l.Spellable)
    (after : awaited [.imports] w = some Z) : Begins (w.map some) := by
  have each : ∀ l ∈ w ++ Z.flatMap Phrase.completion, l.Spellable := by
    refine forall_mem_append.mpr ⟨spellable, fun l member => ?_⟩
    obtain ⟨p, _, inside⟩ := mem_flatMap.mp member
    exact Lexeme.spellable_of_looks (p.completion_looks l inside)
  obtain ⟨text, spelled⟩ := exists_spelling each
  obtain ⟨tokens, stop, scanned, lexemes⟩ := spelled.scan ⟨1, 1⟩
  have done : follow [.imports] (tokens.map (·.lexeme)) = .ok [] := by
    rw [lexemes, follow_of_awaited after, follow_completion]
  obtain ⟨f, read⟩ := (parse_iff_follow scanned).mpr done
  refine ⟨_, tokens, stop, f, scanned, read, ?_⟩
  rw [lexemes, withEnd, map_append, append_assoc]
  exact prefix_append _ _

/-- The next lexeme keeps the phrases from their end, whatever comes behind it. -/
def Blocked (Z : List Phrase) (r : List Lexeme) : Prop :=
  ∀ r', r'.head? = r.head? → follow Z r' ≠ .ok []

theorem blocked_of_take {p : Phrase} {ps : List Phrase} (stuck : ∀ l ∈ r.head?, p.take l = none) :
    Blocked (p :: ps) r := by
  intro r' next
  cases r' with
  | nil => simp [follow_end]
  | cons l r' => simp [follow_stuck (stuck l next.symm)]

theorem blocked_nil (left : r ≠ []) : Blocked [] r := by
  intro r' next done
  rw [follow_nil] at done
  cases done
  exact left (List.head?_eq_none_iff.mp next.symm)

/-- **Where the next lexeme is not taken, it is the first that cannot come.** -/
theorem firstMisfit_of_awaited (spellable : ∀ l ∈ w, l.Spellable)
    (after : awaited [.imports] w = some Z) (blocked : Blocked Z r) :
    FirstMisfit (w ++ r) w.length := by
  refine ⟨by simp, ?_, ?_⟩
  · rw [take_withEnd]
    exact begins_of_awaited spellable after
  · rw [take_succ_withEnd]
    rintro ⟨bytes, tokens, stop, f, scanned, read, begins⟩
    obtain ⟨r', split, next⟩ := split_of_begins begins
    have done := (parse_iff_follow scanned).mp ⟨f, read⟩
    rw [split, follow_of_awaited after] at done
    exact blocked r' next done

end Misfits

/-! ## The lexeme that is named -/

/-- The place of the token with a number, or of the end. -/
def tokenPlace (tokens : List Token) (stop : Pos) (k : Nat) : Pos :=
  (tokens[k]?.map (·.pos)).getD stop

/-- The number of the lexeme that is named: what has been followed comes before it, and the lexeme
behind that does not fit. -/
inductive NamedAt (w r : List Lexeme) : Snag → Nat → Prop where
  | here {s : Snag} : s.IsShown r → NamedAt w r s w.length
  | element {u v : List Lexeme} : w = u ++ fixed "]" :: fixed "=" :: v → fixed ";" ∉ v →
      NamedAt w r .element (u.length + 1)
  | field {u : List Lexeme} {name : String} : w = u ++ [.name name] →
      NamedAt w r .fieldName u.length
  | static {u : List Lexeme} {name : String} :
      w = u ++ [fixed "public", fixed "static", fixed "void"] → r.head? = some (.name name) →
      NamedAt w r .mainName u.length
  | noBrackets {u : List Lexeme} : w = u ++ (mainStart ++ [.name "String"]) →
      NamedAt w r .mainBracket (u.length + 5)
  | otherBrackets {u more : List Lexeme} : w = u ++ mainStart →
      r = fixed "int" :: fixed "[" :: more → more.head? ≠ some (fixed "]") →
      NamedAt w r .mainString (w.length + 2)

theorem Cursor.Later.split (later : c.Later d) :
    ∃ u, c.lexemes = u ++ d.lexemes ∧ d.pos = tokenPlace c.rest c.stop u.length := by
  obtain ⟨before, split⟩ := later.suffix
  refine ⟨before.map (·.lexeme), ?_, ?_⟩
  · rw [lexemes, ← split, map_append]
    rfl
  · rw [tokenPlace, length_map, ← split, ← later.stop]
    cases here : d.rest <;> simp [pos, here]

theorem Cursor.Later.split_before {b : Cursor} {w : List Lexeme} (later : c.Later b)
    (split : c.lexemes = w ++ d.lexemes) (v : List Lexeme) (between : b.lexemes = v ++ d.lexemes) :
    ∃ u, w = u ++ v ∧ b.pos = tokenPlace c.rest c.stop u.length := by
  obtain ⟨u, split', place⟩ := later.split
  rw [split, between, ← append_assoc] at split'
  exact ⟨u, append_cancel_right split', place⟩

theorem Shown.namedAt {s : Snag} {q : Pos} {w : List Lexeme} (shows : Shown c s d q)
    (later : c.Later d) (split : c.lexemes = w ++ d.lexemes) :
    ∃ k, NamedAt w d.lexemes s k ∧ q = tokenPlace c.rest c.stop k := by
  cases shows with
  | here shown =>
    obtain ⟨u, same, place⟩ := later.split_before split [] rfl
    rw [append_nil] at same
    exact ⟨_, .here shown, same ▸ place⟩
  | @element _ _ _ v toBracket passes value noEnd =>
    obtain ⟨u, same, place⟩ := (toBracket.trans passes.later).split_before split
      (fixed "=" :: v) value
    obtain ⟨u', same', _⟩ := toBracket.split_before split
      (fixed "]" :: fixed "=" :: v) (by rw [passes.lexemes, value]; rfl)
    have split' : u = u' ++ [fixed "]"] := by
      refine append_cancel_right (same.symm.trans ?_)
      rw [same', append_assoc]
      rfl
    refine ⟨_, .element same' noEnd, ?_⟩
    rw [place, split', length_append, length_singleton]
  | @field _ _ name toName passes =>
    obtain ⟨u, same, place⟩ := toName.split_before split [.name name] passes.lexemes
    exact ⟨_, .field same, place⟩
  | static toMethod lexemes next =>
    obtain ⟨u, same, place⟩ := toMethod.split_before split
      [fixed "public", fixed "static", fixed "void"] lexemes
    exact ⟨_, .static same next, place⟩
  | noBrackets toMethod toParameter lexemes passes =>
    obtain ⟨u, same, place⟩ := (toMethod.trans toParameter).split_before split
      [.name "String"] passes.lexemes
    obtain ⟨u', same', _⟩ := toMethod.split_before split
      (mainStart ++ [.name "String"]) (by rw [lexemes, passes.lexemes, append_assoc]; rfl)
    have split' : u = u' ++ mainStart := by
      refine append_cancel_right (same.symm.trans ?_)
      rw [same', append_assoc]
    refine ⟨_, .noBrackets same', ?_⟩
    rw [place, split', length_append]
    rfl
  | otherBrackets toMethod start lexemes other =>
    obtain ⟨u, same, _⟩ := toMethod.split_before split mainStart start
    have behind : d.Later d.advance.advance :=
      ⟨(tail_suffix _).trans (tail_suffix _), rfl⟩
    obtain ⟨u', split', place⟩ := (later.trans behind).split
    have rest : d.advance.advance.lexemes = d.lexemes.tail.tail := by
      rw [Cursor.lexemes, Cursor.lexemes, ← map_tail, ← map_tail]
      rfl
    have longer : u' = w ++ [fixed "int", fixed "["] := by
      refine append_cancel_right (split'.symm.trans ?_)
      rw [split, rest, lexemes, append_assoc]
      rfl
    refine ⟨_, .otherBrackets same lexemes other, ?_⟩
    rw [place, longer, length_append]
    rfl

/-- The lexeme is a name. -/
def Lexeme.isName : Lexeme → Bool
  | .name _ => true
  | _ => false

/-- The last lexemes are a name that comes behind a semicolon or an opening brace. -/
def endsInField (before : List Lexeme) : Bool :=
  match before.reverse with
  | .name _ :: .fixed sign :: _ => sign ∈ [";", "\x7b"]
  | _ => false

/-- The lexemes end inside a value that is assigned to an element. The assignment sign has the given
number. -/
def EndsInElement (before : List Lexeme) (k : Nat) : Prop :=
  ∃ u v, before = u ++ fixed "]" :: fixed "=" :: v ∧ fixed ";" ∉ v ∧ k = u.length + 1

/-- The number of the lexeme that is named, if the misfit is not inside the value of an element:
the lexemes before the misfit are given, and those from it on. -/
def namedIndex (before after : List Lexeme) : Nat :=
  if [fixed "public", fixed "static", fixed "void"] <:+ before ∧ after.head?.any Lexeme.isName then
    before.length - 3
  else if mainStart ++ [.name "String"] <:+ before then before.length - 1
  else if mainStart <:+ before ∧
      [fixed "int", fixed "["] <+: after ∧ (after.drop 2).head? ≠ some (fixed "]") then
    before.length + 2
  else if fixed "public" ∉ before ∧ endsInField before then before.length - 1
  else before.length

theorem endsInField_iff {w : List Lexeme} : endsInField w = true ↔
    ∃ sign ∈ [";", "\x7b"], ∃ name, [fixed sign, .name name] <:+ w := by
  unfold endsInField
  constructor
  · split
    case h_1 name sign u ends =>
      intro isSign
      refine ⟨sign, of_decide_eq_true isSign, name, u.reverse, ?_⟩
      rw [← reverse_reverse w, ends]
      simp
    case h_2 => rintro ⟨⟩
  · rintro ⟨sign, isSign, name, u, rfl⟩
    simpa using isSign

theorem any_isName_iff {r : List Lexeme} :
    r.head?.any Lexeme.isName = true ↔ ∃ name, r.head? = some (.name name) := by
  cases r with
  | nil => simp
  | cons l r => cases l <;> simp [Lexeme.isName]

theorem other_brackets_iff {r : List Lexeme} :
    [fixed "int", fixed "["] <+: r ∧ (r.drop 2).head? ≠ some (fixed "]") ↔
      ∃ more, r = fixed "int" :: fixed "[" :: more ∧ more.head? ≠ some (fixed "]") := by
  constructor
  · rintro ⟨⟨more, rfl⟩, other⟩
    exact ⟨more, rfl, other⟩
  · rintro ⟨more, rfl, other⟩
    exact ⟨⟨more, rfl⟩, other⟩

section Index

variable {w r : List Lexeme} {Z : List Phrase} {s : Snag} {k : Nat}

theorem field_iff_awaited (after : awaited [.imports] w = some Z) :
    fixed "public" ∉ w ∧ endsInField w ↔ nextSnag Z = some .fieldName := by
  rw [endsInField_iff]
  constructor
  · rintro ⟨noMethod, sign, isSign, name, ends⟩
    exact awaited_field noMethod after isSign ends
  · exact field_of_awaited after

theorem namedIndex_eq_length (after : awaited [.imports] w = some Z)
    (shown : ∀ s ∈ nextSnag Z, s.IsShown r) : namedIndex w r = w.length := by
  rw [namedIndex, if_neg, if_neg, if_neg, if_neg]
  · intro ends
    exact shown _ ((field_iff_awaited after).mp ends)
  · rintro ⟨ends, behind⟩
    obtain ⟨more, next, other⟩ := other_brackets_iff.mp behind
    exact other (shown _ (awaited_mainString after ends) more next)
  · intro ends
    exact shown _ (awaited_mainBracket after ends)
  · rintro ⟨ends, isName⟩
    obtain ⟨name, next⟩ := any_isName_iff.mp isName
    exact shown _ (awaited_mainName after ends) name next

/-- **What is awaited tells which lexeme is named**, outside the values of elements. -/
theorem NamedAt.eq_namedIndex (named : NamedAt w r s k) (after : awaited [.imports] w = some Z)
    (snag : nextSnag Z = some s) (noElement : s ≠ .element) : k = namedIndex w r := by
  -- A lexeme that does not fit is at a place of one kind.
  have only : ∀ {s'}, nextSnag Z = some s' → s' = s := fun other =>
    Option.some.inj (other.symm.trans snag)
  cases named with
  | here shown =>
    refine (namedIndex_eq_length after fun s' other => ?_).symm
    rw [only other]
    exact shown
  | element split noEnd => exact absurd rfl noElement
  | static split next =>
    have ends : [fixed "public", fixed "static", fixed "void"] <:+ w := ⟨_, split.symm⟩
    rw [namedIndex, if_pos ⟨ends, any_isName_iff.mpr ⟨_, next⟩⟩, split]
    simp
  | noBrackets split =>
    have ends : mainStart ++ [.name "String"] <:+ w := ⟨_, split.symm⟩
    rw [namedIndex, if_neg, if_pos ends, split]
    · simp [mainStart]
    · rintro ⟨other, _⟩
      cases only (awaited_mainName after other)
  | otherBrackets split next other =>
    have ends : mainStart <:+ w := ⟨_, split.symm⟩
    rw [namedIndex, if_neg, if_neg, if_pos ⟨ends, other_brackets_iff.mpr ⟨_, next, other⟩⟩]
    · intro brackets
      cases only (awaited_mainBracket after brackets)
    · rintro ⟨static, _⟩
      cases only (awaited_mainName after static)
  | field split =>
    rw [namedIndex, if_neg, if_neg, if_neg, if_pos ((field_iff_awaited after).mpr snag), split]
    · simp
    · rintro ⟨string, _⟩
      cases only (awaited_mainString after string)
    · intro brackets
      cases only (awaited_mainBracket after brackets)
    · rintro ⟨static, _⟩
      cases only (awaited_mainName after static)

theorem eq_of_last {x x' y y' : List Lexeme} (same : x ++ l :: y = x' ++ l :: y') (last : l ∉ y)
    (last' : l ∉ y') : x = x' := by
  obtain ⟨z, rfl, later⟩ | ⟨z, rfl, later⟩ := append_eq_append_iff.mp same
  all_goals cases z with
    | nil => simp
    | cons l' z =>
      obtain ⟨rfl, rfl⟩ := List.cons.inj later
      simp at last last'

theorem EndsInElement.nextSnag (ends : EndsInElement w k) (after : awaited [.imports] w = some Z) :
    nextSnag Z = some .element := by
  obtain ⟨u, v, rfl, noEnd, rfl⟩ := ends
  exact (awaited_element (by simp) after noEnd).1

theorem EndsInElement.unique {k' : Nat} (ends : EndsInElement w k) (ends' : EndsInElement w k')
    (after : awaited [.imports] w = some Z) : k = k' := by
  obtain ⟨u, v, rfl, noEnd, rfl⟩ := ends
  obtain ⟨u', v', split, noEnd', rfl⟩ := ends'
  obtain ⟨_, noSign⟩ := awaited_element (by simp) after noEnd
  rw [split] at after
  obtain ⟨_, noSign'⟩ := awaited_element (by simp) after noEnd'
  have same : (u ++ [fixed "]"]) ++ fixed "=" :: v = (u' ++ [fixed "]"]) ++ fixed "=" :: v' := by
    simpa using split
  simpa using congrArg List.length (eq_of_last same noSign noSign')

theorem NamedAt.endsInElement (named : NamedAt w r .element k) : EndsInElement w k := by
  cases named with
  | here shown => exact shown.elim
  | element split noEnd => exact ⟨_, _, split, noEnd, rfl⟩

/-- **In the value of an element, the assignment sign is named.** -/
theorem NamedAt.eq_of_endsInElement {k' : Nat} (named : NamedAt w r s k)
    (after : awaited [.imports] w = some Z) (snag : nextSnag Z = some s)
    (ends : EndsInElement w k') : k = k' := by
  obtain rfl : s = .element := Option.some.inj (snag.symm.trans (ends.nextSnag after))
  exact named.endsInElement.unique ends after

end Index

/-! ## The report -/

section

variable {bytes : List UInt8} {tokens : List Token} {stop : Pos} {e : SyntaxError}
  {w r : List Lexeme} {Z : List Phrase} {k k' : Nat}

/-- What is known of a text that is not read: some lexemes have been followed, the next one does not
fit, and a lexeme is named. -/
structure Stuck (w r : List Lexeme) (Z : List Phrase) (k : Nat) : Prop where
  after : awaited [.imports] w = some Z
  blocked : Blocked Z r
  named : (∃ s, nextSnag Z = some s ∧ NamedAt w r s k) ∨ Z = [] ∧ k = w.length

theorem firstMisfit_of_scan (scanned : scan bytes = .ok (tokens, stop))
    (split : tokens.map (·.lexeme) = w ++ r) (after : awaited [.imports] w = some Z)
    (blocked : Blocked Z r) : FirstMisfit (tokens.map (·.lexeme)) w.length := by
  rw [split]
  refine firstMisfit_of_awaited (fun l member => ?_) after blocked
  have inside : l ∈ tokens.map (·.lexeme) := split ▸ mem_append_left r member
  obtain ⟨t, isToken, rfl⟩ := mem_map.mp inside
  exact scanFrom_spellable scanned t isToken

theorem stuck_of_parse_error (scanned : scan bytes = .ok (tokens, stop))
    (failed : parse bytes = .error e) :
    ∃ w r Z k, tokens.map (·.lexeme) = w ++ r ∧ Stuck w r Z k ∧
      e.pos = tokenPlace tokens stop k := by
  obtain ⟨_, fails⟩ := follows_file (c := ⟨tokens, stop⟩) (plainLexemes_of_scan scanned)
  obtain ⟨_, s, d, later, stopped, shows⟩ | ⟨_, d, later, left, done, place⟩ :=
    fails e (file_of_parse_error scanned failed)
  · obtain ⟨w, p, ps, split, after, rfl, stuck⟩ := awaited_of_error stopped
    obtain ⟨k, named, place⟩ := shows.namedAt later split
    exact ⟨w, _, _, k, split, ⟨after, blocked_of_take stuck, .inl ⟨_, rfl, named⟩⟩, place⟩
  · obtain ⟨w, split, after⟩ := awaited_of_ok done
    obtain ⟨u, split', place'⟩ := later.split
    obtain rfl : u = w := append_cancel_right (split'.symm.trans split)
    have blocked : Blocked [] d.lexemes :=
      blocked_nil fun none => left (map_eq_nil_iff.mp none)
    exact ⟨u, _, [], _, split, ⟨after, blocked, .inr ⟨rfl, rfl⟩⟩, place.trans place'⟩

theorem Stuck.element (stuck : Stuck w r Z k) (ends : EndsInElement w k') : k = k' := by
  obtain ⟨s, snag, named⟩ | ⟨rfl, rfl⟩ := stuck.named
  · exact named.eq_of_endsInElement stuck.after snag ends
  · cases ends.nextSnag stuck.after

theorem Stuck.outside (stuck : Stuck w r Z k) (outside : ∀ k', ¬EndsInElement w k') :
    k = namedIndex w r := by
  obtain ⟨s, snag, named⟩ | ⟨rfl, rfl⟩ := stuck.named
  · refine named.eq_namedIndex stuck.after snag ?_
    rintro rfl
    exact outside k named.endsInElement
  · exact (namedIndex_eq_length stuck.after (by rintro s ⟨⟩)).symm

/-- **The report names the first lexeme that cannot come, with five exceptions.** -/
theorem parse_names_first_misfit (scanned : scan bytes = .ok (tokens, stop))
    (failed : parse bytes = .error e) :
    (∃ t, FirstMisfit (tokens.map (·.lexeme)) t) ∧ ∀ t, FirstMisfit (tokens.map (·.lexeme)) t →
        let before := (tokens.map (·.lexeme)).take t
        let after := (tokens.map (·.lexeme)).drop t
        (∀ k, EndsInElement before k → e.pos = tokenPlace tokens stop k) ∧
          ((∀ k, ¬EndsInElement before k) →
            e.pos = tokenPlace tokens stop (namedIndex before after)) := by
  obtain ⟨w, r, Z, k, split, stuck, place⟩ := stuck_of_parse_error scanned failed
  have misfit := firstMisfit_of_scan scanned split stuck.after stuck.blocked
  refine ⟨⟨_, misfit⟩, fun t other => ?_⟩
  obtain rfl := misfit.unique other
  rw [split, take_left, drop_left, place]
  refine ⟨fun k' ends => ?_, fun outside => ?_⟩
  · rw [stuck.element ends]
  · rw [stuck.outside outside]

/-- A text with an element of an array that is assigned no value. -/
def elementText : List UInt8 := "class A\x7bpublic int f()\x7ba[0]=;".toUTF8.toList

/-- The lexemes before the missing value. -/
def elementLexemes : List Lexeme :=
  [fixed "class", .name "A", fixed "\x7b", fixed "public", fixed "int", .name "f", fixed "(",
    fixed ")", fixed "\x7b", .name "a", fixed "[", .number "0", fixed "]", fixed "="]

theorem error_of_map {ε α : Type} {x : Except ε α} {e : ε}
    (failed : x.map (fun _ => ()) = .error e) : x = .error e := by
  cases x with
  | error e' => rw [Except.error.inj failed]
  | ok a => cases failed

theorem parse_names_first_misfit_element :
    ∃ tokens stop e, scan elementText = .ok (tokens, stop) ∧ parse elementText = .error e ∧
      FirstMisfit (tokens.map (·.lexeme)) 14 ∧ e.pos = tokenPlace tokens stop 13 := by
  obtain ⟨⟨tokens, stop⟩, scanned⟩ := exists_of_isOk (x := scan elementText) (by decide +kernel)
  have view : (scan elementText).map (fun pair => pair.1.map (·.lexeme)) =
      .ok (elementLexemes ++ [fixed ";"]) := by decide +kernel
  rw [scanned] at view
  have lexemes : tokens.map (·.lexeme) = elementLexemes ++ [fixed ";"] := Except.ok.inj view
  have failed : parse elementText = .error ⟨⟨1, 28⟩, .expected (.fixed ";") (some (fixed "="))⟩ :=
    error_of_map (by decide +kernel)
  have misfit : FirstMisfit (tokens.map (·.lexeme)) 14 :=
    firstMisfit_of_scan scanned lexemes rfl (blocked_of_take (by decide))
  refine ⟨tokens, stop, _, scanned, failed, misfit, ?_⟩
  refine ((parse_names_first_misfit scanned failed).2 14 misfit).1 13 ?_
  rw [lexemes]
  exact ⟨elementLexemes.take 12, [], rfl, by simp, rfl⟩

/-- A text with a static method that is not `main`. -/
def staticText : List UInt8 := "class A\x7bpublic static void f".toUTF8.toList

/-- **A static method that is not `main` is named at its start**, and not at its name, which is the
first lexeme that cannot come. -/
theorem static_method_named_at_start :
    ∃ tokens stop e, scan staticText = .ok (tokens, stop) ∧ parse staticText = .error e ∧
      FirstMisfit (tokens.map (·.lexeme)) 6 ∧ tokenPlace tokens stop 6 = ⟨1, 28⟩ ∧
      e.pos = ⟨1, 9⟩ := by
  obtain ⟨⟨tokens, stop⟩, scanned⟩ := exists_of_isOk (x := scan staticText) (by decide +kernel)
  have view : (scan staticText).map
      (fun pair => (pair.1.map (·.lexeme), tokenPlace pair.1 pair.2 6)) =
      .ok ([fixed "class", .name "A", fixed "\x7b", fixed "public", fixed "static", fixed "void"] ++
        [.name "f"], ⟨1, 28⟩) := by decide +kernel
  rw [scanned] at view
  obtain ⟨lexemes, place⟩ := Prod.mk.inj (Except.ok.inj view)
  have failed : parse staticText = .error ⟨⟨1, 9⟩, .staticNotMain "f"⟩ :=
    error_of_map (by decide +kernel)
  have misfit : FirstMisfit (tokens.map (·.lexeme)) 6 :=
    firstMisfit_of_scan scanned lexemes rfl (blocked_of_take (by decide))
  exact ⟨tokens, stop, _, scanned, failed, misfit, place, rfl⟩

end

end JavaMinus.Syntax
