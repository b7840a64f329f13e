import JavaMinus.Proofs.FollowedFiles
import JavaMinus.Proofs.StageRuns

/-!
# Reading ends with a file or with one report at a true place

Places are lines and columns. `placeAfter before` is the true place behind some bytes: its line
counts the line ends among them, its column the bytes since the last of these. The scanner keeps
its place by adding to it as it goes on; only behind a `//` comment it stays where the comment
starts, and either the line or the text ends there. This is the invariant `Tracks`, which one step
of the scanner keeps (`Tracks.step`), so the places of all tokens, of the end and of problems are
true places of the text (`scanFrom_places`).

Readers name the place of a token or of the end (`Misread.located`), and they never give up
because they have gone too deep. So a text is read, or there is one report, at a true place
(`parse_file_or_report`).
-/

namespace JavaMinus.Syntax

/-! ## True places -/

/-- The place behind some bytes of a text. -/
def placeAfter (before : List UInt8) : Pos where
  line := (1 + before.count 10 : Nat)
  col := (1 + (before.reverse.takeWhile (· != 10)).length : Nat)

/-- A place of a text. -/
def IsPlace (bytes : List UInt8) (p : Pos) : Prop :=
  ∃ k ≤ bytes.length, p = placeAfter (bytes.take k)

section Places

variable {before more : List UInt8}

theorem placeAfter_newline : placeAfter (before ++ [10]) = (placeAfter before).newline := by
  simp [placeAfter, Pos.newline]
  omega

theorem placeAfter_byte {b : UInt8} (other : b ≠ 10) :
    placeAfter (before ++ [b]) = (placeAfter before).skip 1 := by
  simp [placeAfter, Pos.skip, other]
  omega

theorem placeAfter_append (sameLine : 10 ∉ more) :
    placeAfter (before ++ more) = (placeAfter before).skip more.length := by
  induction more generalizing before with
  | nil => simp [Pos.skip]
  | cons b more ih =>
    rw [List.mem_cons, not_or] at sameLine
    rw [← List.singleton_append, ← List.append_assoc, ih sameLine.2,
      placeAfter_byte (Ne.symm sameLine.1)]
    simp [Pos.skip]
    omega

theorem newline_placeAfter (sameLine : 10 ∉ more) :
    (placeAfter (before ++ more)).newline = (placeAfter before).newline := by
  rw [placeAfter_append sameLine]
  rfl

end Places

/-! ## The scanner -/

/-- The place that the scanner has kept. What is left of the text comes right behind it, or behind
a comment that ends where the line or the text does. -/
def Tracks (bytes : List UInt8) (p : Pos) (rest : List UInt8) : Prop :=
  ∃ before comment, bytes = before ++ (comment ++ rest) ∧ p = placeAfter before ∧
    10 ∉ comment ∧ (comment ≠ [] → ∀ b ∈ rest.head?, b = 10)

namespace Tracks

variable {bytes rest after before : List UInt8} {p q : Pos} {b : UInt8}

theorem start (bytes : List UInt8) : Tracks bytes ⟨1, 1⟩ bytes :=
  ⟨[], [], rfl, rfl, by simp, by simp⟩

theorem behind (split : bytes = before ++ rest) : Tracks bytes (placeAfter before) rest :=
  ⟨before, [], split, rfl, by simp, by simp⟩

theorem isPlace (tracks : Tracks bytes p rest) : IsPlace bytes p := by
  obtain ⟨before, comment, rfl, rfl, _, _⟩ := tracks
  exact ⟨before.length, by simp, by simp⟩

theorem pass (mid : List UInt8) (split : bytes = before ++ (mid ++ after)) (sameLine : 10 ∉ mid) :
    Tracks bytes ((placeAfter before).skip mid.length) after := by
  rw [← placeAfter_append sameLine]
  exact behind (by rw [split, List.append_assoc])

theorem comment (split : bytes = before ++ b :: rest) (other : b ≠ 10) :
    Tracks bytes (placeAfter before) (rest.dropWhile (· != 10)) := by
  refine ⟨before, b :: rest.takeWhile (· != 10), ?_, rfl, ?_, fun _ c next => ?_⟩
  · rw [split, List.cons_append, List.takeWhile_append_dropWhile]
  · rw [List.mem_cons, not_or]
    refine ⟨other.symm, fun member => ?_⟩
    simpa using List.mem_takeWhile_imp member
  · have stopped := List.head?_dropWhile_not (· != 10) rest
    rw [Option.mem_def.mp next] at stopped
    simpa using stopped

end Tracks

theorem skipComment_place {p q : Pos} {bs after before : List UInt8}
    (skipped : skipComment p bs = some (after, q)) (place : p = placeAfter before) :
    ∃ mid, bs = mid ++ after ∧ q = placeAfter (before ++ mid) := by
  fun_induction skipComment p bs generalizing before with
  | case1 p rest =>
    cases skipped
    refine ⟨[42, 47], rfl, ?_⟩
    rw [placeAfter_append (by decide), place]
    rfl
  | case2 p b c rest _ ih =>
    have moved : (if b = 10 then p.newline else p.skip 1) = placeAfter (before ++ [b]) := by
      subst place
      split_ifs with newline
      · rw [newline, placeAfter_newline]
      · rw [placeAfter_byte newline]
    obtain ⟨mid, split, rfl⟩ := ih skipped moved
    exact ⟨b :: mid, by rw [split, List.cons_append], by rw [List.append_assoc]; rfl⟩
  | case3 p bs _ _ => cases skipped

/-- What one step of the scanner leaves is behind the place that it keeps, and problems are named
where the step starts. -/
def Scanned.KeepsPlace (bytes : List UInt8) (p : Pos) : Scanned → Prop
  | .gap after q => Tracks bytes q after
  | .token _ after q => Tracks bytes q after
  | .problem e => e.pos = p ∧ e.problem ≠ .tooDeep

theorem newline_not_mem {bs : List UInt8} {P : UInt8 → Bool} (each : ∀ b ∈ bs, P b = true)
    (other : P 10 = false) : 10 ∉ bs := by
  intro member
  rw [each 10 member] at other
  cases other

section Step

variable {bytes rest before : List UInt8} {p : Pos} {b : UInt8}

/-- A comment would have ended before a line end, so the place is a true one before anything
else. -/
theorem Tracks.split (tracks : Tracks bytes p (b :: rest)) (other : b ≠ 10) :
    ∃ before, bytes = before ++ b :: rest ∧ p = placeAfter before := by
  obtain ⟨before, comment, split, place, _, ended⟩ := tracks
  obtain rfl : comment = [] := by
    by_contra inComment
    exact other (ended inComment b rfl)
  exact ⟨before, split, place⟩

variable (split : bytes = before ++ b :: rest) (other : b ≠ 10)

include split other

theorem Tracks.run (P : UInt8 → Bool) (noNewline : P 10 = false) :
    Tracks bytes ((placeAfter before).skip ((rest.takeWhile P).length + 1)) (rest.dropWhile P) := by
  refine .pass (b :: rest.takeWhile P) ?_ ?_
  · rw [split, List.cons_append, List.takeWhile_append_dropWhile]
  · rw [List.mem_cons, not_or]
    exact ⟨other.symm, newline_not_mem (fun c => List.mem_takeWhile_imp) noNewline⟩

theorem Tracks.two {c : UInt8} (next : rest.head? = some c) (other' : c ≠ 10) :
    Tracks bytes ((placeAfter before).skip 2) rest.tail ∧
      (placeAfter before).skip 2 = placeAfter (before ++ [b, c]) ∧
        bytes = before ++ [b, c] ++ rest.tail := by
  obtain ⟨tail, rfl⟩ := List.head?_eq_some_iff.mp next
  have sameLine : 10 ∉ [b, c] := by simp [other.symm, other'.symm]
  refine ⟨.pass [b, c] split sameLine, (placeAfter_append sameLine).symm, ?_⟩
  simp [split]

theorem Tracks.step_inside :
    (scanOne (placeAfter before) b rest).KeepsPlace bytes (placeAfter before) := by
  have one : Tracks bytes ((placeAfter before).skip 1) rest :=
    .pass [b] split (by simpa using Ne.symm other)
  rw [scanOne, if_neg other]
  split_ifs with blank line block letter digit ampersand second sign
  · exact one
  · exact .comment split other
  · obtain ⟨_, place, split'⟩ := Tracks.two split other block.2 (by decide)
    split
    case h_1 after q skipped =>
      obtain ⟨mid, isTail, rfl⟩ := skipComment_place skipped place
      exact .behind (by rw [split', isTail, List.append_assoc _ mid])
    case h_2 => exact ⟨rfl, by simp⟩
  · exact Tracks.run split other _ (by decide)
  · exact Tracks.run split other _ (by decide)
  · exact (Tracks.two split other second (by decide)).1
  · exact ⟨rfl, by simp⟩
  · exact one
  · exact ⟨rfl, by simp⟩

omit split other in
/-- **One step of the scanner keeps the place.** -/
theorem Tracks.step (tracks : Tracks bytes p (b :: rest)) :
    (scanOne p b rest).KeepsPlace bytes p := by
  by_cases newline : b = 10
  · obtain ⟨before, comment, split, rfl, sameLine, _⟩ := tracks
    rw [scanOne, if_pos newline]
    change Tracks bytes _ rest
    rw [← newline_placeAfter sameLine, ← placeAfter_newline]
    exact .behind (by simp [split, newline])
  · obtain ⟨before, split, rfl⟩ := tracks.split newline
    exact step_inside split newline

end Step

/-- **The places of tokens, of the end and of problems are true places of the text.** -/
theorem scanFrom_places {bytes rest : List UInt8} {p : Pos} (tracks : Tracks bytes p rest) :
    (∀ tokens stop, scanFrom p rest = .ok (tokens, stop) →
      (∀ t ∈ tokens, IsPlace bytes t.pos) ∧ IsPlace bytes stop) ∧
    ∀ e, scanFrom p rest = .error e → IsPlace bytes e.pos ∧ e.problem ≠ .tooDeep := by
  fun_induction scanFrom p rest with
  | case1 p =>
    refine ⟨?_, by simp⟩
    rintro _ _ ⟨⟩
    exact ⟨by simp, tracks.isPlace⟩
  | case2 p b rest after q taken ih =>
    have step := tracks.step
    rw [taken] at step
    exact ih step
  | case3 p b rest l after q taken tokens stop scanned ih =>
    have step := tracks.step
    rw [taken] at step
    obtain ⟨each, atEnd⟩ := (ih step).1 tokens stop scanned
    refine ⟨?_, by simp⟩
    rintro _ _ ⟨⟩
    exact ⟨List.forall_mem_cons.mpr ⟨tracks.isPlace, each⟩, atEnd⟩
  | case4 p b rest l after q taken e failed ih =>
    have step := tracks.step
    rw [taken] at step
    refine ⟨by simp, ?_⟩
    rintro _ ⟨⟩
    exact (ih step).2 e failed
  | case5 p b rest e taken =>
    have step := tracks.step
    rw [taken] at step
    refine ⟨by simp, ?_⟩
    rintro _ ⟨⟩
    exact ⟨step.1 ▸ tracks.isPlace, step.2⟩

/-! ## The readers -/

theorem Cursor.later_advance (c : Cursor) : c.Later c.advance := ⟨List.tail_suffix _, rfl⟩

theorem Misread.located {c : Cursor} {X : List Phrase} {e : SyntaxError}
    (misread : Misread shown c X e) : ∃ d, c.Later d ∧ e.pos = d.pos := by
  obtain ⟨_, s, d, later, _, shows⟩ := misread
  generalize e.pos = p at shows
  cases shows with
  | here => exact ⟨d, later, rfl⟩
  | element toBracket bracket => exact ⟨_, toBracket.trans bracket.later, rfl⟩
  | field toName => exact ⟨_, toName, rfl⟩
  | static toMethod => exact ⟨_, toMethod, rfl⟩
  | noBrackets toMethod toParameter => exact ⟨_, toMethod.trans toParameter, rfl⟩
  | otherBrackets =>
    exact ⟨_, (later.trans d.later_advance).trans d.advance.later_advance, rfl⟩

theorem file_located {c : Cursor} (plain : PlainLexemes c.lexemes) {e : SyntaxError}
    (failed : file c = .error e) : e.problem ≠ .tooDeep ∧ ∃ d, c.Later d ∧ e.pos = d.pos := by
  rcases (follows_file plain).2 e failed with misread | ⟨noBound, d, later, _, _, place⟩
  · exact ⟨misread.1, misread.located⟩
  · exact ⟨noBound, d, later, place⟩

theorem isPlace_of_later {bytes : List UInt8} {tokens : List Token} {stop : Pos} {d : Cursor}
    (scanned : scan bytes = .ok (tokens, stop)) (later : Cursor.Later ⟨tokens, stop⟩ d) :
    IsPlace bytes d.pos := by
  obtain ⟨each, atEnd⟩ := (scanFrom_places (.start bytes)).1 tokens stop scanned
  unfold Cursor.pos
  split
  case h_1 t rest here =>
    exact each t (later.suffix.mem (here ▸ List.mem_cons_self))
  case h_2 => exact later.stop ▸ atEnd

theorem file_of_parse_error {bytes : List UInt8} {tokens : List Token} {stop : Pos}
    {e : SyntaxError} (scanned : scan bytes = .ok (tokens, stop))
    (failed : parse bytes = .error e) : file ⟨tokens, stop⟩ = .error e := by
  rw [parse_of_scan scanned] at failed
  cases given : file ⟨tokens, stop⟩ with
  | error e' =>
    rw [given] at failed
    cases failed
    rfl
  | ok pair =>
    rw [given] at failed
    cases failed

theorem parse_error_place {bytes : List UInt8} {e : SyntaxError} (failed : parse bytes = .error e) :
    e.problem ≠ .tooDeep ∧ IsPlace bytes e.pos := by
  cases scanned : scan bytes with
  | error e' =>
    rw [parse, scanned] at failed
    cases failed
    obtain ⟨place, noBound⟩ := (scanFrom_places (.start bytes)).2 e scanned
    exact ⟨noBound, place⟩
  | ok pair =>
    obtain ⟨tokens, stop⟩ := pair
    obtain ⟨noBound, d, later, place⟩ :=
      file_located (plainLexemes_of_scan scanned) (file_of_parse_error scanned failed)
    exact ⟨noBound, place ▸ isPlace_of_later scanned later⟩

end JavaMinus.Syntax

namespace JavaMinus

open Syntax

theorem stages_ne_syntactic {opts : Options} {bytes : List UInt8} {f : File Pos}
    (read : parse bytes = .ok f) : ∀ d ∈ (compile opts bytes).reports, d.stage ≠ .syntactic := by
  have ends := compile_ends opts bytes
  generalize compile opts bytes = result, stageRuns opts (.text bytes) = runs at ends
  have checked : ∀ f, ∀ d ∈ checkReports f, d.stage ≠ .syntactic := by
    intro f d member
    rw [Ends.names_checkReports f d member]
    decide
  cases ends with
  | unread failed =>
    rw [read] at failed
    cases failed
  | refused => exact checked _
  | uncoded accepted =>
    refine List.forall_mem_append.mpr ⟨checked _, fun d member => ?_⟩
    rw [Ends.names_codeReports accepted d member]
    decide
  | unplaced =>
    refine List.forall_mem_append.mpr ⟨checked _, fun d member => ?_⟩
    rw [Ends.names_slotReports _ d member]
    decide
  | assembled => exact checked _

end JavaMinus
