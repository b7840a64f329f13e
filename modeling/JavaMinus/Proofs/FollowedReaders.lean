import JavaMinus.Proofs.AwaitedPhrases

/-!
# Readers go along the awaited phrases

`Follows S c X r Y Q` compares a reader with the phrases that are awaited where it starts. If the
reader succeeds, it has gone to a later place of the same text, and to go on from there with the
phrases `Y` comes to the same as to start with `X`. If it fails, then going along `X` comes to a
lexeme that does not fit, and the place that the reader names for the problem is related to that
lexeme as `S` says. It never fails because it has been too long on its way.

The comparison is made step by step (`Follows.bind` and the rules beside it). Loops have to see
that each round takes a lexeme, since they go round at most as often as there are lexemes.

This module has the rules and the readers of expressions. For them, the place that is named is
always that of the lexeme that does not fit (`follows_expr`).
-/

namespace JavaMinus.Syntax

open List

open Lexeme (fixed)

variable {α β : Type} {text s : String}

/-! ## Places of a text -/

/-- The number of lexemes that are left. -/
abbrev Cursor.left (c : Cursor) : Nat := c.rest.length

/-- The second cursor is in the same text, at the same place or later. -/
structure Cursor.Later (c d : Cursor) : Prop where
  suffix : d.rest <:+ c.rest
  stop : d.stop = c.stop

/-- The second cursor is right behind a lexeme that is next at the first. -/
structure Cursor.Passes (c : Cursor) (l : Lexeme) (d : Cursor) : Prop where
  advance : d = c.advance
  lexemes : c.lexemes = l :: d.lexemes

namespace Cursor

variable {c d e : Cursor} {l : Lexeme}

theorem Later.refl (c : Cursor) : c.Later c := ⟨suffix_refl _, rfl⟩

theorem Later.trans (first : c.Later d) (second : d.Later e) : c.Later e :=
  ⟨second.suffix.trans first.suffix, second.stop.trans first.stop⟩

@[grind →]
theorem Later.length_le (later : c.Later d) : d.left ≤ c.left :=
  later.suffix.length_le

theorem Later.plain (later : c.Later d) (plain : PlainLexemes c.lexemes) :
    PlainLexemes d.lexemes := by
  intro s member
  obtain ⟨t, inside, same⟩ := mem_map.mp member
  exact plain s (mem_map.mpr ⟨t, later.suffix.mem inside, same⟩)

theorem Later.eq_of_length (first : c.Later d) (second : c.Later e)
    (same : d.left = e.left) : d = e := by
  have rests : d.rest = e.rest :=
    (suffix_of_suffix_length_le first.suffix second.suffix same.le).eq_of_length same
  have stops : d.stop = e.stop := first.stop.trans second.stop.symm
  cases d
  cases e
  cases rests
  cases stops
  rfl

theorem length_lexemes (c : Cursor) : c.lexemes.length = c.left := length_map _

theorem Passes.later (passes : c.Passes l d) : c.Later d := by
  rw [passes.advance]
  exact ⟨tail_suffix _, rfl⟩

@[grind →]
theorem Passes.length (passes : c.Passes l d) : d.left < c.left := by
  have lengths := congrArg List.length passes.lexemes
  rw [length_cons, length_lexemes, length_lexemes] at lengths
  omega

theorem passes_of_head? (next : c.head? = some l) : c.Passes l c.advance := by
  obtain ⟨rest, here⟩ := cons_of_head? next
  refine ⟨rfl, ?_⟩
  rw [lexemes_advance, here, tail_cons]

theorem passes_of_nextIs (next : c.nextIs s = true) : c.Passes (fixed s) c.advance :=
  passes_of_head? (of_decide_eq_true next)

theorem passes_of_second? {l' : Lexeme} (second : c.second? = some l') :
    c.advance.Passes l' c.advance.advance :=
  passes_of_head? second

theorem not_nextIs (other : c.nextIs s = false) : c.lexemes.head? ≠ some (fixed s) := by
  rw [nextIs_eq] at other
  exact of_decide_eq_false other

end Cursor

theorem ne_of_head? {ls : List Lexeme} {l l' : Lexeme} (other : ls.head? ≠ some l')
    (next : l ∈ ls.head?) : l ≠ l' :=
  fun same => other (same ▸ next)

/-! ## The comparison -/

/-- Which place may be named for a problem: reading has started at the first cursor, and the
lexeme at the second one does not fit, at a place of the given kind. -/
structure Showing where
  Shows : Cursor → Snag → Cursor → Pos → Prop
  earlier : ∀ {b c d : Cursor} {s : Snag} {p : Pos}, b.Later c → Shows c s d p → Shows b s d p

/-- A problem that is found because a lexeme does not fit. -/
def Misread (S : Showing) (c : Cursor) (X : List Phrase) (e : SyntaxError) : Prop :=
  e.problem ≠ .tooDeep ∧ ∃ s d, c.Later d ∧ follow X c.lexemes = .error (s, d.lexemes) ∧
    S.Shows c s d e.pos

/-- A reader goes along awaited phrases. -/
def Follows (S : Showing) (c : Cursor) (X : List Phrase) (r : Reading α) (Y : α → List Phrase)
    (Q : α → Cursor → Prop) : Prop :=
  PlainLexemes c.lexemes → (∀ a d, r c = .ok (a, d) →
      c.Later d ∧ follow X c.lexemes = follow (Y a) d.lexemes ∧ Q a d) ∧
    ∀ e, r c = .error e → Misread S c X e

theorem Misread.earlier {S : Showing} {c d : Cursor} {X Y : List Phrase} {e : SyntaxError}
    (misread : Misread S d Y e) (later : c.Later d)
    (same : follow X c.lexemes = follow Y d.lexemes) : Misread S c X e := by
  obtain ⟨noBound, s, place, later', stuck, shows⟩ := misread
  exact ⟨noBound, s, place, later.trans later', same.trans stuck, S.earlier later shows⟩

namespace Follows

variable {S T : Showing} {c : Cursor} {p : Phrase} {X X' ps qs : List Phrase} {r : Reading α}
  {Y : α → List Phrase} {Z : β → List Phrase} {Q Q' : α → Cursor → Prop}
  {R : β → Cursor → Prop}

protected theorem bind {f : α → Reading β} (first : Follows S c X r Y Q)
    (second : ∀ a d, c.Later d → Q a d → Follows S d (Y a) (f a) Z R) :
    Follows S c X (r >>= f) Z R := by
  intro plain
  obtain ⟨reads, fails⟩ := first plain
  cases run : r c with
  | error e =>
    rw [Reading.run_bind_error run]
    refine ⟨by simp, ?_⟩
    rintro _ ⟨⟩
    exact fails e run
  | ok pair =>
    obtain ⟨a, d⟩ := pair
    obtain ⟨later, same, holds⟩ := reads a d run
    rw [Reading.run_bind_ok run]
    obtain ⟨reads', fails'⟩ := second a d later holds (later.plain plain)
    refine ⟨fun b d' given => ?_, fun e given => (fails' e given).earlier later same⟩
    obtain ⟨later', same', holds'⟩ := reads' b d' given
    exact ⟨later.trans later', same.trans same', holds'⟩

theorem skip (same : follow X c.lexemes = follow X' c.lexemes) (follows : Follows S c X' r Y Q) :
    Follows S c X r Y Q := by
  intro plain
  obtain ⟨reads, fails⟩ := follows plain
  refine ⟨fun a d given => ?_, fun e given => (fails e given).earlier (.refl c) same⟩
  obtain ⟨later, same', holds⟩ := reads a d given
  exact ⟨later, same.trans same', holds⟩

theorem mono (follows : Follows S c X r Y Q) (weaker : ∀ a d, c.Later d → Q a d → Q' a d) :
    Follows S c X r Y Q' := by
  intro plain
  obtain ⟨reads, fails⟩ := follows plain
  refine ⟨fun a d given => ?_, fails⟩
  obtain ⟨later, same, holds⟩ := reads a d given
  exact ⟨later, same, weaker a d later holds⟩

theorem weaken (follows : Follows S c X r Y Q)
    (weaker : ∀ s d q, S.Shows c s d q → T.Shows c s d q) : Follows T c X r Y Q := by
  intro plain
  obtain ⟨reads, fails⟩ := follows plain
  refine ⟨reads, fun e given => ?_⟩
  obtain ⟨noBound, s, d, later, stuck, shows⟩ := fails e given
  exact ⟨noBound, s, d, later, stuck, weaker s d e.pos shows⟩

protected theorem pure {a : α} (same : X = Y a) (holds : Q a c) : Follows S c X (pure a) Y Q := by
  intro _
  constructor
  · rintro _ _ ⟨⟩
    exact ⟨.refl c, by rw [same], holds⟩
  · rintro _ ⟨⟩

theorem get {f : Cursor → Reading β} (second : Follows S c X (f c) Z R) :
    Follows S c X (get >>= f) Z R :=
  second

theorem pos {f : Pos → Reading β} (second : Follows S c X (f c.pos) Z R) :
    Follows S c X (Reading.pos >>= f) Z R :=
  second

theorem advance {f : Unit → Reading β} {l : Lexeme} {d : Cursor} (passes : c.Passes l d)
    (taken : p.take l = some qs) (second : Follows S d (qs ++ ps) (f ()) Z R) :
    Follows S c (p :: ps) (Reading.advance >>= f) Z R := by
  have step : Follows S c (p :: ps) Reading.advance (fun _ => qs ++ ps) fun _ e => e = d := by
    intro _
    constructor
    · rintro ⟨⟩ _ ⟨⟩
      refine ⟨passes.advance ▸ passes.later, ?_, passes.advance.symm⟩
      rw [passes.lexemes, follow_take taken, passes.advance]
    · rintro _ ⟨⟩
  refine step.bind ?_
  rintro ⟨⟩ _ _ rfl
  exact second

theorem accept {f : Bool → Reading β} (taken : p.take (fixed text) = some qs)
    (yes : ∀ d, c.Passes (fixed text) d → Follows S d (qs ++ ps) (f true) Z R)
    (no : c.lexemes.head? ≠ some (fixed text) → Follows S c (p :: ps) (f false) Z R) :
    Follows S c (p :: ps) (Reading.accept text >>= f) Z R := by
  intro plain
  cases next : c.nextIs text with
  | false =>
    rw [Reading.run_bind_ok (run_accept_false next)]
    exact no (Cursor.not_nextIs next) plain
  | true =>
    have passes := Cursor.passes_of_nextIs next
    rw [Reading.run_bind_ok (run_accept_true next)]
    exact advance passes taken (yes _ passes) (f := fun _ => f true) plain

theorem failing {e : SyntaxError} (run : r c = .error e) (noBound : e.problem ≠ .tooDeep)
    (none : ∀ l ∈ c.lexemes.head?, p.take l = none) (shows : S.Shows c p.snag c e.pos) :
    Follows S c (p :: ps) r Y Q := by
  intro _
  rw [run]
  refine ⟨by simp, ?_⟩
  rintro _ ⟨⟩
  refine ⟨noBound, p.snag, c, .refl c, ?_, shows⟩
  cases here : c.lexemes with
  | nil => exact follow_end
  | cons l ls => exact follow_stuck (none l (by rw [here]; rfl))

theorem unexpected {w : Wanted} (none : ∀ l ∈ c.lexemes.head?, p.take l = none)
    (shows : S.Shows c p.snag c c.pos) :
    Follows S c (p :: ps) (Reading.unexpected w : Reading α) Y Q :=
  failing rfl (by simp) none shows

theorem expect {f : Unit → Reading β} (taken : p.take (fixed text) = some qs)
    (only : ∀ l ∈ c.lexemes.head?, l ≠ fixed text → p.take l = none)
    (shows : S.Shows c p.snag c c.pos)
    (second : ∀ d, c.Passes (fixed text) d → Follows S d (qs ++ ps) (f ()) Z R) :
    Follows S c (p :: ps) (Reading.expect text >>= f) Z R := by
  have step : Follows S c (p :: ps) (Reading.expect text) (fun _ => qs ++ ps)
      fun _ d => c.Passes (fixed text) d := by
    refine .accept taken (fun d passes => .pure rfl passes) fun other => .unexpected ?_ shows
    exact fun l next => only l next (ne_of_head? other next)
  exact step.bind fun _ d _ passes => second d passes

theorem expected {f : Unit → Reading β} {d : Cursor} (passes : c.Passes (fixed text) d)
    (taken : p.take (fixed text) = some qs) (second : Follows S d (qs ++ ps) (f ()) Z R) :
    Follows S c (p :: ps) (Reading.expect text >>= f) Z R := by
  have step : Follows S c (p :: ps) (Reading.expect text) (fun _ => qs ++ ps) fun _ e => e = d := by
    refine .accept taken (fun e passes' => .pure rfl (passes'.advance.trans passes.advance.symm)) ?_
    intro other
    exact absurd (by rw [passes.lexemes]; rfl) other
  refine step.bind ?_
  rintro ⟨⟩ _ _ rfl
  exact second

theorem named {f : String → Reading β} {name : String} {d : Cursor}
    (passes : c.Passes (.name name) d) (taken : p.take (.name name) = some qs)
    (second : Follows S d (qs ++ ps) (f name) Z R) :
    Follows S c (p :: ps) (Reading.ident >>= f) Z R := by
  have next : c.head? = some (.name name) := by rw [Cursor.head?_eq, passes.lexemes]; rfl
  have step : Follows S c (p :: ps) Reading.ident (fun _ => qs ++ ps)
      fun name' e => name' = name ∧ e = d := by
    refine .get ?_
    rw [next]
    exact .advance passes taken (.pure rfl ⟨rfl, rfl⟩)
  refine step.bind ?_
  rintro _ _ _ ⟨rfl, rfl⟩
  exact second

theorem unnamed {f : String → Reading β} (noName : ∀ name, c.lexemes.head? ≠ some (.name name))
    (none : ∀ l ∈ c.lexemes.head?, p.take l = none) (shows : S.Shows c p.snag c c.pos) :
    Follows S c (p :: ps) (Reading.ident >>= f) Z R := by
  have step : Follows S c (p :: ps) Reading.ident (fun _ => []) fun _ _ => False := by
    refine .get ?_
    split
    case h_1 name next =>
      rw [Cursor.head?_eq] at next
      exact absurd next (noName name)
    case h_2 => exact .unexpected none shows
  exact step.bind fun _ _ _ never => never.elim

theorem ident {f : String → Reading β} {qs : String → List Phrase}
    (taken : ∀ name, p.take (.name name) = some (qs name))
    (only : ∀ l ∈ c.lexemes.head?, (∀ name, l ≠ .name name) → p.take l = none)
    (shows : S.Shows c p.snag c c.pos)
    (second : ∀ name d, c.Passes (.name name) d → Follows S d (qs name ++ ps) (f name) Z R) :
    Follows S c (p :: ps) (Reading.ident >>= f) Z R := by
  by_cases isNamed : ∃ name, c.lexemes.head? = some (.name name)
  · obtain ⟨name, next⟩ := isNamed
    have passes := Cursor.passes_of_head? ((Cursor.head?_eq c).trans next)
    exact .named passes (taken name) (second name _ passes)
  · push Not at isNamed
    exact .unnamed isNamed
      (fun l next => only l next fun name => ne_of_head? (isNamed name) next) shows

/-- A phrase that only takes one sign. -/
theorem word {f : Unit → Reading β} (row : p.row = [(.word text, qs)])
    (shows : S.Shows c p.snag c c.pos)
    (second : ∀ d, c.Passes (fixed text) d → Follows S d (qs ++ ps) (f ()) Z R) :
    Follows S c (p :: ps) (Reading.expect text >>= f) Z R := by
  have take : ∀ l, p.take l = if l = fixed text then some qs else none := by
    simp [Phrase.take, row, Row.pick, Trigger.fits_word, apply_ite]
  exact .expect (by simp [take]) (fun l _ other => by simp [take, other]) shows second

/-- A phrase that only takes a name. -/
theorem anyName {f : String → Reading β} (row : p.row = [(.name, qs)])
    (shows : S.Shows c p.snag c c.pos)
    (second : ∀ name d, c.Passes (.name name) d → Follows S d (qs ++ ps) (f name) Z R) :
    Follows S c (p :: ps) (Reading.ident >>= f) Z R := by
  have taken : ∀ name, p.take (.name name) = some qs := fun name => by rw [Phrase.take, row]; rfl
  refine .ident taken (fun l _ noName => ?_) shows second
  simp [Phrase.take, row, Row.pick, Trigger.fits_name noName]

theorem whileAt {go : Cursor → Bool} {m : Nat}
    (phrase : ∀ c : Cursor, c.left ≤ m → go c = true →
      Follows S c X r (fun _ => X) fun _ d => d.left < c.left) (n : Nat) :
    ∀ c : Cursor, c.left < n → c.left ≤ m →
      Follows S c X (Reading.whileAt go r n) (fun _ => X) fun _ d => go d = false := by
  induction n with
  | zero => simp
  | succ n ih =>
    intro c short bound
    refine .get ?_
    split
    case isTrue goes =>
      refine (phrase c bound goes).bind fun _ d _ shorter => ?_
      exact (ih d (by grind) (by grind)).bind fun _ e _ stopped => .pure rfl stopped
    case isFalse stopped => exact .pure rfl (by simpa using stopped)

theorem manyWhile {go : Cursor → Bool}
    (phrase : ∀ d : Cursor, d.left ≤ c.left → go d = true →
      Follows S d X r (fun _ => X) fun _ e => e.left < d.left) :
    Follows S c X (Reading.manyWhile go r) (fun _ => X) fun _ d => go d = false :=
  .get (whileAt phrase c.bound c (Nat.lt_succ_self _) (Nat.le_refl _))

end Follows

/-! ## What the phrases of expressions take -/

section

variable {k : Closer} {z : Bool} {l : Lexeme}

theorem take_mark {m : Mark} (other : l ≠ fixed m.text) : (Phrase.mark m z).take l = none := by
  simp [Phrase.take, Phrase.row, Row.pick, Trigger.fits_word, other]

theorem take_expr_number {digits : String} (small : digitsValue digits ≤ maxLiteral) :
    (Phrase.expr k z).take (.number digits) = some [.tail k z] :=
  Row.pick_cons_of_fits (decide_eq_true small)

theorem take_expr_large {digits : String} (large : ¬digitsValue digits ≤ maxLiteral) :
    (Phrase.expr k z).take (.number digits) = none := by
  simp [Phrase.take, Phrase.row, exprRow, Row.pick, Trigger.fits, large]

theorem take_expr_none (others : s ∉ ["true", "false", "this", "(", "new", "!"]) :
    (Phrase.expr k z).take (fixed s) = none := by
  simp only [mem_cons, not_mem_nil, or_false, not_or] at others
  simp [Phrase.take, Phrase.row, exprRow, Row.pick, Trigger.fits, eq_comm, others]

theorem take_tail_binary (binary : s ∈ binarySymbols) :
    (Phrase.tail k z).take (fixed s) = some [.expr k z] := by
  simp only [binarySymbols, mem_cons, not_mem_nil, or_false] at binary
  rcases binary with rfl | rfl | rfl | rfl | rfl | rfl
  all_goals rfl

theorem take_member_name (name : String) : (Phrase.member k z).take (.name name) =
    some (if name = "length" then [.lengthTail k z] else [.mark .leftParen z, .args k z]) := by
  by_cases isLength : name = "length"
  · subst isLength
    rfl
  · have other : "length" ≠ name := fun same => isLength same.symm
    simp [Phrase.take, Phrase.row, Row.pick, Trigger.fits, isLength, other]

theorem take_tail_closer (ends : ∀ s, l = fixed s → s ∉ "[" :: "." :: binarySymbols) :
    (Phrase.tail k z).take l = (k.row z).pick l := by
  refine (Row.pick_append _ fun entry member => ?_).trans
    (Row.pick_append [(.word "[", [.expr .bracket z, .tail k z]), (.word ".", [.member k z])]
      fun entry member => ?_)
  · obtain ⟨s, isBinary, rfl⟩ := mem_map.mp member
    rw [Trigger.fits_word, decide_eq_false_iff_not]
    intro same
    exact ends s same (mem_cons_of_mem _ (mem_cons_of_mem _ isBinary))
  · simp only [mem_cons, not_mem_nil, or_false] at member
    rcases member with rfl | rfl
    · rw [Trigger.fits_word, decide_eq_false_iff_not]
      intro same
      exact ends "[" same (by simp)
    · rw [Trigger.fits_word, decide_eq_false_iff_not]
      intro same
      exact ends "." same (by simp)

end

/-! ## Phrases between commas -/

/-- Phrases between commas, up to a sign: what is awaited before the first of them and behind
each of them. -/
structure Commas (S : Showing) (close : String) (r : Reading α) (m : Nat) (P Z : List Phrase)
    (Q : Cursor → Prop) where
  first : Phrase
  next : Phrase
  behindFirst : List Phrase
  behindNext : List Phrase
  closeFirst : ∃ qs, first.take (fixed close) = some qs ∧ qs ++ behindFirst = Z
  closeNext : ∃ qs, next.take (fixed close) = some qs ∧ qs ++ behindNext = Z
  start : ∀ c : Cursor, c.lexemes.head? ≠ some (fixed close) →
    follow (first :: behindFirst) c.lexemes = follow P c.lexemes
  comma : ∃ qs, next.take (fixed ",") = some qs ∧ qs ++ behindNext = P
  only : ∀ c, Q c → ∀ l ∈ c.lexemes.head?, l ≠ fixed close → l ≠ fixed "," → next.take l = none
  shows : ∀ c : Cursor, S.Shows c next.snag c c.pos
  phrase : ∀ c : Cursor, c.left < m →
    Follows S c P r (fun _ => next :: behindNext) fun _ d => d.left < c.left ∧ Q d

namespace Commas

variable {S : Showing} {close : String} {r : Reading α} {m : Nat} {P Z : List Phrase}
  {Q : Cursor → Prop}

theorem follows_next (commas : Commas S close r m P Z Q) (n : Nat) :
    ∀ c : Cursor, c.left < n → c.left ≤ m → Q c →
      Follows S c (commas.next :: commas.behindNext) (Reading.commaList close r n false)
        (fun _ => Z) fun _ d => d.left < c.left := by
  induction n with
  | zero => simp
  | succ n ih =>
    intro c short bound holds
    obtain ⟨qs, closes, isRest⟩ := commas.closeNext
    obtain ⟨ws, comma, isPhrase⟩ := commas.comma
    refine .accept closes (fun d passes => .pure isRest passes.length) fun noClose => ?_
    refine .expect comma
      (fun l next noComma => commas.only c holds l next (ne_of_head? noClose next) noComma)
      (commas.shows c) fun d passes => ?_
    rw [isPhrase]
    refine (commas.phrase d (by grind)).bind fun x e later post => ?_
    exact (ih e (by grind) (by grind) post.2).bind fun xs e' later' _ => .pure rfl (by grind)

theorem follows_first (commas : Commas S close r m P Z Q) (n : Nat) (c : Cursor)
    (short : c.left < n) (bound : c.left < m) :
    Follows S c (commas.first :: commas.behindFirst) (Reading.commaList close r n true)
      (fun _ => Z) fun _ d => d.left < c.left := by
  obtain ⟨n, rfl⟩ := Nat.exists_eq_add_one.mpr (Nat.zero_lt_of_lt short)
  obtain ⟨qs, closes, isRest⟩ := commas.closeFirst
  refine .accept closes (fun d passes => .pure isRest passes.length) fun noClose => ?_
  refine .skip (commas.start c noClose) ?_
  refine (commas.phrase c bound).bind fun x d later post => ?_
  refine (commas.follows_next n d (by grind) (by grind) post.2).bind
    fun xs e later' shorter' => .pure rfl ?_
  grind

theorem follows_list (commas : Commas S close r m P Z Q) (c : Cursor) (bound : c.left < m) :
    Follows S c (commas.first :: commas.behindFirst) (Reading.commaSeparated close r) (fun _ => Z)
      fun _ d => d.left < c.left :=
  .get (commas.follows_first _ c (Nat.lt_succ_self _) bound)

end Commas

/-! ## Expressions -/

/-- The place that is named is that of the lexeme that does not fit. It is known whether it is
part of a value that is assigned to an element. -/
def atLexeme (z : Bool) : Showing where
  Shows _ s d p := s = (if z then .element else .plain) ∧ p = d.pos
  earlier _ shows := shows

/-- No index, no member and no operator of a level or a higher one comes next. -/
structure Cursor.Quits (level : Nat) (c : Cursor) : Prop where
  index : c.nextIs "[" = false
  member : c.nextIs "." = false
  operator : ∀ j, level ≤ j → j ≤ 4 → c.operator? j = none

/-- A reader of expressions goes along an awaited expression up to its end, and takes at least
one lexeme. -/
def FollowsExpr (level : Nat) (r : Reading (Expr Pos)) (c : Cursor) : Prop :=
  ∀ k z ps, Follows (atLexeme z) c (.expr k z :: ps) r (fun _ => .tail k z :: ps)
    fun _ d => d.left < c.left ∧ d.Quits level

theorem Cursor.Quits.no_suffix {c : Cursor} (quits : c.Quits 1) {l : Lexeme}
    (next : l ∈ c.lexemes.head?) (s : String) (isSign : l = fixed s) :
    s ∉ "[" :: "." :: binarySymbols := by
  cases isSign
  have levels : ∀ s ∈ binarySymbols, 1 ≤ (Operator.ofSymbol s).level ∧
      (Operator.ofSymbol s).level ≤ 4 := by decide
  intro member
  rcases mem_cons.mp member with rfl | member
  · exact Cursor.not_nextIs quits.index next
  rcases mem_cons.mp member with rfl | member
  · exact Cursor.not_nextIs quits.member next
  obtain ⟨low, high⟩ := levels s member
  have none := quits.operator _ low high
  have here : c.head? = some (fixed s) := by rw [Cursor.head?_eq]; exact next
  rw [Cursor.operator?, here] at none
  simp at none

section Expressions

variable {r : Reading (Expr Pos)} {c : Cursor} {k : Closer} {z : Bool} {p : Phrase}
  {ps qs : List Phrase} {m : Nat}

theorem Follows.close {S : Showing} {f : Unit → Reading β} {Z : β → List Phrase}
    {R : β → Cursor → Prop} (closes : k.row z = [(.word text, [])])
    (plain : text ∉ "[" :: "." :: binarySymbols) (quits : c.Quits 1)
    (shows : S.Shows c (if z then .element else .plain) c c.pos)
    (second : ∀ d, c.Passes (fixed text) d → Follows S d ps (f ()) Z R) :
    Follows S c (.tail k z :: ps) (Reading.expect text >>= f) Z R := by
  have taken : (Phrase.tail k z).take (fixed text) = some [] := by
    rw [take_tail_closer (fun s same => Lexeme.fixed.inj same ▸ plain), closes]
    exact Row.pick_cons_of_fits (by simp [Trigger.fits])
  refine .expect taken (fun l next other => ?_) shows second
  rw [take_tail_closer (quits.no_suffix next), closes]
  simp [Row.pick, Trigger.fits_word, other]

theorem Follows.mark {f : Unit → Reading β} {Z : β → List Phrase} {R : β → Cursor → Prop}
    (n : Mark) (second : ∀ d, c.Passes (fixed n.text) d → Follows (atLexeme z) d ps (f ()) Z R) :
    Follows (atLexeme z) c (.mark n z :: ps) (Reading.expect n.text >>= f) Z R :=
  .word rfl ⟨rfl, rfl⟩ second

variable (inner : ∀ d : Cursor, d.left < m → FollowsExpr 1 r d)

include inner

theorem follows_parenthesized (bound : c.left ≤ m) (taken : p.take (fixed "(") = some qs)
    (only : ∀ l ∈ c.lexemes.head?, l ≠ fixed "(" → p.take l = none)
    (snag : p.snag = if z then .element else .plain)
    {rs : List Phrase} (inside : qs ++ ps = .expr .paren z :: rs) :
    Follows (atLexeme z) c (p :: ps) (parenthesized r) (fun _ => rs)
      fun _ d => d.left < c.left := by
  refine .expect taken only ⟨snag, rfl⟩ fun d passes => ?_
  rw [inside]
  refine (inner d (by grind) .paren z rs).bind fun x e later post => ?_
  refine .close rfl (by decide) post.2 ⟨rfl, rfl⟩ fun e' passes' => .pure rfl ?_
  grind

theorem follows_creation (bound : c.left ≤ m) (q : Pos) :
    Follows (atLexeme z) c (.creation k z :: ps) (creation r q) (fun _ => .tail k z :: ps)
      fun _ d => d.left < c.left := by
  refine .accept rfl (fun d passes => ?_) fun noArray => ?_
  · refine .mark .leftBracket fun d₁ passes₁ => ?_
    refine (inner d₁ (by grind) .bracket z _).bind fun x d₂ later post => ?_
    refine .close rfl (by decide) post.2 ⟨rfl, rfl⟩ fun d₃ passes₃ => .pure rfl ?_
    grind
  · refine .ident (fun name => rfl) (fun l next noName => ?_) ⟨rfl, rfl⟩ fun name d passes => ?_
    · have noInt := ne_of_head? noArray next
      simp [Phrase.take, Phrase.row, Row.pick, Trigger.fits_word, Trigger.fits_name noName, noInt]
    · refine .mark .leftParen fun d₁ passes₁ => .mark .rightParen fun d₂ passes₂ => .pure rfl ?_
      grind

omit inner in
theorem follows_leaf {l : Lexeme} (here : c.head? = some l)
    (taken : (Phrase.expr k z).take l = some [.tail k z]) (x : Expr Pos) :
    Follows (atLexeme z) c (.expr k z :: ps) (do Reading.advance; return x)
      (fun _ => .tail k z :: ps) fun _ d => d.left < c.left :=
  .advance (Cursor.passes_of_head? here) taken (.pure rfl (Cursor.passes_of_head? here).length)

theorem follows_primary (bound : c.left ≤ m) (noNot : c.lexemes.head? ≠ some (fixed "!")) :
    Follows (atLexeme z) c (.expr k z :: ps) (primary r) (fun _ => .tail k z :: ps)
      fun _ d => d.left < c.left := by
  refine .pos (.get ?_)
  split
  case h_1 digits here =>
    unfold literal
    split
    case isTrue small => exact follows_leaf here (take_expr_number small) _
    case isFalse large =>
      refine .failing rfl (by simp) (fun l next => ?_) ⟨rfl, rfl⟩
      rw [← Cursor.head?_eq, here] at next
      cases next
      exact take_expr_large large
  case h_2 here => exact follows_leaf here rfl _
  case h_3 here => exact follows_leaf here rfl _
  case h_4 here => exact follows_leaf here rfl _
  case h_5 here => exact follows_leaf here rfl _
  case h_6 here =>
    refine follows_parenthesized inner bound rfl (fun l next other => ?_) rfl rfl
    rw [← Cursor.head?_eq, here] at next
    cases next
    exact absurd rfl other
  case h_7 here =>
    have passes := Cursor.passes_of_head? here
    refine .advance passes rfl ((follows_creation inner (by grind) c.pos).mono ?_)
    intro _ d _ shorter'
    grind
  case h_8 noNumber noName noTrue noFalse noThis noParen noNew =>
    refine .unexpected (fun l next => ?_) ⟨rfl, rfl⟩
    rw [← Cursor.head?_eq] at next noNot
    cases l with
    | number digits => exact absurd next (noNumber digits)
    | name s => exact absurd next (noName s)
    | fixed s =>
      apply take_expr_none
      simp only [mem_cons, not_mem_nil, or_false, not_or]
      refine ⟨?_, ?_, ?_, ?_, ?_, ?_⟩
      all_goals
        rintro rfl
        first
        | exact noTrue next
        | exact noFalse next
        | exact noThis next
        | exact noParen next
        | exact noNew next
        | exact noNot next

/-- The arguments of a call. -/
def argumentList (S : ∀ d : Cursor, d.left < m → FollowsExpr 1 r d) (k : Closer) (z : Bool)
    (ps : List Phrase) :
    Commas (atLexeme z) ")" r m (.expr .argument z :: .tail k z :: ps) (.tail k z :: ps)
      (Cursor.Quits 1) where
  first := .args k z
  next := .tail .argument z
  behindFirst := ps
  behindNext := .tail k z :: ps
  closeFirst := ⟨[.tail k z], rfl, rfl⟩
  closeNext := ⟨[], rfl, rfl⟩
  start _ noEnd := follow_args noEnd
  comma := ⟨[.expr .argument z], rfl, rfl⟩
  only c quits l next noClose noComma := by
    rw [take_tail_closer (quits.no_suffix next)]
    simp [Closer.row, Row.pick, Trigger.fits_word, noClose, noComma]
  shows _ := ⟨rfl, rfl⟩
  phrase c short := S c short .argument z _

theorem follows_member (bound : c.left ≤ m) (q : Pos) (x : Expr Pos) :
    Follows (atLexeme z) c (.member k z :: ps) (member r q x) (fun _ => .tail k z :: ps)
      fun _ d => d.left < c.left := by
  refine .ident take_member_name (fun l next noName => ?_) ⟨rfl, rfl⟩ fun name d passes => .get ?_
  · simp [Phrase.take, Phrase.row, Row.pick, Trigger.fits_name noName, Trigger.fits_named noName]
  -- behind the opening parenthesis of a call
  have call : ∀ d₁ : Cursor, d₁.left < d.left →
      Follows (atLexeme z) d₁ (.args k z :: ps)
        (do let args ← Reading.commaSeparated ")" r; return Expr.call q x name args)
        (fun _ => .tail k z :: ps)
        fun _ d₂ => d₂.left < c.left := by
    intro d₁ shorter₁
    refine ((argumentList inner k z ps).follows_list d₁ (by grind)).bind
      fun args d₂ later shorter₂ => .pure rfl ?_
    grind
  by_cases isLength : name = "length"
  · subst isLength
    rw [if_pos rfl]
    split
    case isTrue noCall =>
      refine .skip (follow_lengthTail (Cursor.not_nextIs (by simpa using noCall))) (.pure rfl ?_)
      grind
    case isFalse isCall =>
      have next := Cursor.passes_of_nextIs (c := d) (s := "(") (by simpa using isCall)
      exact .expected next rfl (call _ next.length)
  · rw [if_neg isLength, if_neg fun both => isLength both.1]
    exact .mark .leftParen fun d₁ passes₁ => call d₁ passes₁.length

theorem follows_suffixes (n : Nat) : ∀ (c : Cursor) (x : Expr Pos), c.left < n →
    c.left ≤ m → Follows (atLexeme z) c (.tail k z :: ps) (suffixes r n x)
      (fun _ => .tail k z :: ps) fun _ d => d.Quits 5 := by
  induction n with
  | zero => simp
  | succ n ih =>
    intro c x short bound
    refine .pos (.accept rfl (fun d passes => ?_) fun noIndex => ?_)
    · refine (inner d (by grind) .bracket z _).bind fun i d₁ later post => ?_
      refine .close rfl (by decide) post.2 ⟨rfl, rfl⟩ fun d₂ passes₂ => ?_
      exact ih d₂ _ (by grind) (by grind)
    · refine .accept rfl (fun d passes => ?_) fun noMember => .pure rfl ?_
      · refine (follows_member inner (by grind) c.pos x).bind fun y d₁ later shorter₁ => ?_
        exact ih d₁ y (by grind) (by grind)
      · refine ⟨?_, ?_, fun j low high => absurd low (by grind)⟩
        · rw [Cursor.nextIs_eq, decide_eq_false noIndex]
        · rw [Cursor.nextIs_eq, decide_eq_false noMember]

theorem follows_operand (bound : c.left ≤ m) (noNot : c.lexemes.head? ≠ some (fixed "!")) :
    Follows (atLexeme z) c (.expr k z :: ps) (operand r) (fun _ => .tail k z :: ps)
      fun _ d => d.left < c.left ∧ d.Quits 5 := by
  refine (follows_primary inner bound noNot).bind fun x d later shorter => .get ?_
  refine (follows_suffixes inner _ d x (Nat.lt_succ_self _) (by grind)).mono ?_
  intro _ d₁ later₁ quits
  exact ⟨by grind, quits⟩

theorem follows_negations (n : Nat) : ∀ c : Cursor, c.left < n → c.left ≤ m →
    FollowsExpr 5 (negations r n) c := by
  induction n with
  | zero => simp
  | succ n ih =>
    intro c short bound k z ps
    refine .pos (.accept rfl (fun d passes => ?_) fun noNot => follows_operand inner bound noNot)
    refine (ih d (by grind) (by grind) k z ps).bind fun x d₁ later post => .pure rfl ?_
    exact ⟨by have := post.1; grind, post.2⟩

omit inner in
theorem follows_chainRest {next : Reading (Expr Pos)} {level : Nat} (positive : level ≠ 0)
    (operands : ∀ d : Cursor, d.left ≤ m → FollowsExpr (level + 1) next d) (n : Nat) :
    ∀ (c : Cursor) (x : Expr Pos), c.left < n → c.left ≤ m → c.Quits (level + 1) →
      Follows (atLexeme z) c (.tail k z :: ps) (chainRest level next n x)
        (fun _ => .tail k z :: ps) fun _ d => d.Quits level := by
  induction n with
  | zero => simp
  | succ n ih =>
    intro c x short bound quits
    refine .get ?_
    split
    case h_1 op found =>
      obtain ⟨s, isBinary, here⟩ := head_of_operator? positive found
      have passes := Cursor.passes_of_head? here
      refine .pos (.advance passes (take_tail_binary isBinary) ?_)
      refine (operands _ (by grind) k z ps).bind fun y d₁ later post => ?_
      exact ih d₁ _ (by grind) (by grind) post.2
    case h_2 none =>
      refine .pure rfl ⟨quits.index, quits.member, fun j low high => ?_⟩
      rcases Nat.eq_or_lt_of_le low with rfl | above
      · exact none
      · exact quits.operator j above high

omit inner in
theorem follows_chain {next : Reading (Expr Pos)} {level : Nat} (positive : level ≠ 0)
    (operands : ∀ d : Cursor, d.left ≤ m → FollowsExpr (level + 1) next d)
    (bound : c.left ≤ m) : FollowsExpr level (chain level next) c := by
  intro k z ps
  refine (operands c bound k z ps).bind fun x d later post => .get ?_
  refine (follows_chainRest positive operands _ d x (Nat.lt_succ_self _) (by grind) post.2).mono ?_
  intro _ d₁ later₁ quits
  exact ⟨by grind, quits⟩

theorem follows_levels : ∀ c : Cursor, c.left ≤ m → FollowsExpr 1 (levels r) c := by
  have unary : ∀ c : Cursor, c.left ≤ m →
      FollowsExpr 5 (do negations r (← get).bound) c := fun c bound k z ps =>
    .get (follows_negations inner _ c (Nat.lt_succ_self _) bound k z ps)
  have products : ∀ c : Cursor, c.left ≤ m → FollowsExpr 4 (chain 4 _) c :=
    fun c bound => follows_chain (by decide) unary bound
  have sums : ∀ c : Cursor, c.left ≤ m → FollowsExpr 3 (chain 3 _) c :=
    fun c bound => follows_chain (by decide) products bound
  have less : ∀ c : Cursor, c.left ≤ m → FollowsExpr 2 (chain 2 _) c :=
    fun c bound => follows_chain (by decide) sums bound
  exact fun c bound => follows_chain (by decide) less bound

end Expressions

theorem follows_exprWithin (n : Nat) :
    ∀ c : Cursor, c.left < n → FollowsExpr 1 (exprWithin n) c := by
  induction n with
  | zero => simp
  | succ n ih => exact fun c short => follows_levels ih c (Nat.le_of_lt_succ short)

/-- **Reading an expression goes along an awaited expression.** -/
theorem follows_expr (c : Cursor) : FollowsExpr 1 expr c := fun k z ps =>
  .get (follows_exprWithin _ c (Nat.lt_succ_self _) k z ps)

end JavaMinus.Syntax
