import JavaMinus.Proofs.TruePlaces

/-!
# Scanning is faithful

Every token of a scanned text stands for a range of its bytes (`ByteRange`). The ranges come one
behind the other, each token has the text and the true place of its range (`Token.Faithful`), and
what is left between them is blanks, line ends and comments (`Gap`).

Words and numbers are the longest ones at their place (`ByteRange.IsLongest`): a range that goes
further to either side spells no word and no number. To the right this is how the scanner takes
bytes. To the left it needs an invariant of the bytes that are behind the scanner, `Parted`: no word
and no number that ends there could be continued. A name can start right behind a number, as in
`1a`, but no word ends in that number.

One step of the scanner takes a piece of a gap or the bytes of a token (`Scanned.Takes`), both keep
the bytes parted (`GapPiece.parted`, `Lexeme.Reads.parted`), and the ranges of a whole text are
collected from its steps (`scanFrom_ranges`).
-/

namespace JavaMinus.Syntax

open List

/-! ## Ranges of bytes -/

/-- Some bytes of a text, one behind the other. -/
structure ByteRange (bytes : List UInt8) where
  first : Nat
  stop : Nat
  nonempty : first < stop
  inside : stop ≤ bytes.length

namespace ByteRange

variable {bytes : List UInt8}

/-- The bytes in a range. -/
def text (r : ByteRange bytes) : List UInt8 := bytes.extract r.first r.stop

/-- The bytes in a range are of a kind, and those of no wider range are. -/
def IsLongest (kind : List UInt8 → Prop) (r : ByteRange bytes) : Prop :=
  kind r.text ∧ ∀ wider : ByteRange bytes, wider.first ≤ r.first → r.stop ≤ wider.stop →
    kind wider.text → wider = r

/-- The range of the bytes between those before and those behind. -/
def ofSplit {before mid after : List UInt8} (split : bytes = before ++ (mid ++ after))
    (some : mid ≠ []) : ByteRange bytes where
  first := before.length
  stop := before.length + mid.length
  nonempty := Nat.lt_add_of_pos_right (length_pos_of_ne_nil some)
  inside := by simp [split]

variable {before mid after : List UInt8} (split : bytes = before ++ (mid ++ after))
  (some : mid ≠ [])

include split

theorem text_of_wider (wider : ByteRange bytes) (left : wider.first ≤ before.length)
    (right : before.length + mid.length ≤ wider.stop) :
    wider.text = before.drop wider.first ++
      (mid ++ after.take (wider.stop - (before.length + mid.length))) := by
  have enough : mid.length ≤ wider.stop - before.length := by omega
  simp only [text, extract_eq_take_drop, split]
  rw [drop_append_of_le_length left, take_append,
    take_of_length_le (by rw [length_drop]; omega), length_drop,
    show wider.stop - wider.first - (before.length - wider.first) = wider.stop - before.length by omega,
    take_append, take_of_length_le enough, Nat.sub_sub]

theorem text_ofSplit : (ofSplit split some).text = mid := by
  rw [text_of_wider split (ofSplit split some) (Nat.le_refl _) (Nat.le_refl _)]
  simp [ofSplit]

theorem isLongest_ofSplit {kind : List UInt8 → Prop} (isKind : kind mid)
    (alone : ∀ left right : List UInt8, left <:+ before → right <+: after →
      kind (left ++ (mid ++ right)) → left = [] ∧ right = []) :
    (ofSplit split some).IsLongest kind := by
  refine ⟨(text_ofSplit split some).symm ▸ isKind, fun wider left right ofKind => ?_⟩
  rw [text_of_wider split wider left right] at ofKind
  obtain ⟨noLeft, noRight⟩ := alone _ _ (drop_suffix _ _) (List.take_prefix _ _) ofKind
  have bound := wider.inside
  rw [drop_eq_nil_iff] at noLeft
  rw [take_eq_nil_iff, ← length_eq_zero_iff] at noRight
  simp only [split, length_append] at bound
  obtain ⟨first, stop, nonempty, inside⟩ := wider
  simp only [ofSplit, mk.injEq] at left right noLeft noRight bound ⊢
  omega

end ByteRange

/-! ## Words, numbers and signs -/

/-- The bytes spell a word: a letter, and then letters and digits. -/
def SpellsWord (bs : List UInt8) : Prop :=
  ∃ b more, bs = b :: more ∧ isLetter b = true ∧ ∀ c ∈ more, isNameByte c = true

/-- The bytes spell a number. -/
def SpellsNumber (bs : List UInt8) : Prop := bs ≠ [] ∧ ∀ c ∈ bs, isDigit c = true

/-- The bytes of a sign, or of the operator `&&`. -/
def SpellsSign (bs : List UInt8) : Prop := (∃ c ∈ signs, bs = [byteOf c]) ∨ bs = [38, 38]

/-- The text of a lexeme. -/
def Lexeme.spelling : Lexeme → String
  | name s => s
  | number s => s
  | fixed s => s

theorem isNameByte_of_isLetter {b : UInt8} (letter : isLetter b = true) : isNameByte b = true := by
  simp [isNameByte, letter]

theorem isNameByte_of_isDigit {b : UInt8} (digit : isDigit b = true) : isNameByte b = true := by
  simp [isNameByte, digit]

namespace SpellsWord

variable {bs left : List UInt8}

theorem ne_nil (word : SpellsWord bs) : bs ≠ [] := by
  obtain ⟨b, more, rfl, _⟩ := word
  exact cons_ne_nil b more

theorem each (word : SpellsWord bs) : ∀ c ∈ bs, isNameByte c = true := by
  obtain ⟨b, more, rfl, letter, each⟩ := word
  exact forall_mem_cons.mpr ⟨isNameByte_of_isLetter letter, each⟩

theorem of_append {right : List UInt8} (word : SpellsWord (left ++ right)) (some : left ≠ []) :
    SpellsWord left := by
  obtain ⟨b, more, split, letter, each⟩ := word
  obtain ⟨c, rest, rfl⟩ := exists_cons_of_ne_nil some
  obtain ⟨rfl, rfl⟩ := List.cons.inj split
  exact ⟨c, rest, rfl, letter, fun d member => each d (mem_append_left _ member)⟩

theorem before_digits {before digits : List UInt8} (word : SpellsWord bs)
    (ends : bs <:+ before ++ digits) (each : ∀ c ∈ digits, isDigit c = true) :
    ∃ start, start <:+ before ∧ SpellsWord start := by
  obtain ⟨ahead, split⟩ := ends
  rcases append_eq_append_iff.mp split with ⟨start, rfl, rfl⟩ | ⟨part, _, rfl⟩
  · refine ⟨start, suffix_append _ _, word.of_append ?_⟩
    rintro rfl
    obtain ⟨b, more, rfl, letter, _⟩ := word
    have digit := each b mem_cons_self
    rw [(digit_facts digit).2.2.2] at letter
    cases letter
  · obtain ⟨b, more, rfl, letter, _⟩ := word
    have digit := each b (mem_append_right _ mem_cons_self)
    rw [(digit_facts digit).2.2.2] at letter
    cases letter

end SpellsWord

/-! ## Gaps -/

/-- Blanks, line ends and comments in front of the rest of a text. A `//` comment goes on up to
the end of its line, and a comment that starts with `/*` is closed by the first `*/`. -/
inductive Gap (rest : List UInt8) : List UInt8 → Prop where
  | none : Gap rest []
  | blank {b : UInt8} {gap : List UInt8} : b ∈ [32, 9, 13, 10] → Gap rest gap → Gap rest (b :: gap)
  | line {inside gap : List UInt8} : 10 ∉ inside → (∀ b ∈ (gap ++ rest).head?, b = 10) →
      Gap rest gap → Gap rest ([47, 47] ++ inside ++ gap)
  | block {inside gap : List UInt8} : ¬ [42, 47] <:+: inside ++ [42] → Gap rest gap →
      Gap rest ([47, 42] ++ inside ++ [42, 47] ++ gap)

/-- What one step of the scanner takes from a gap, in front of what is left. -/
inductive GapPiece (after : List UInt8) : List UInt8 → Prop where
  | blank {b : UInt8} : b ∈ [32, 9, 13, 10] → GapPiece after [b]
  | line {inside : List UInt8} : 10 ∉ inside → (∀ b ∈ after.head?, b = 10) →
      GapPiece after ([47, 47] ++ inside)
  | block {inside : List UInt8} : ¬ [42, 47] <:+: inside ++ [42] →
      GapPiece after ([47, 42] ++ inside ++ [42, 47])

theorem GapPiece.gap {rest gap piece : List UInt8} (taken : GapPiece (gap ++ rest) piece)
    (later : Gap rest gap) : Gap rest (piece ++ gap) := by
  cases taken with
  | blank isBlank => exact .blank isBlank later
  | line sameLine ends => exact .line sameLine ends later
  | block closed => exact .block closed later

/-! ## Bytes that are parted -/

/-- No word and no number goes on from what is before into the rest. -/
structure Parted (before rest : List UInt8) : Prop where
  word : ∀ c ∈ rest.head?, isNameByte c = true → ∀ w, w <:+ before → ¬ SpellsWord w
  number : ∀ c ∈ rest.head?, isDigit c = true → ∀ d ∈ before.getLast?, isDigit d = false

namespace Parted

variable {before rest mid after : List UInt8}

theorem start (rest : List UInt8) : Parted [] rest := by
  refine ⟨fun _ _ _ w ends word => ?_, by simp⟩
  exact word.ne_nil (suffix_nil.mp ends)

theorem of_stops (stops : ∀ c ∈ rest.head?, isNameByte c = false) : Parted before rest := by
  refine ⟨fun c next inName => ?_, fun c next digit => ?_⟩ <;> have stopped := stops c next
  · rw [inName] at stopped
    cases stopped
  · rw [isNameByte_of_isDigit digit] at stopped
    cases stopped

theorem of_last (last : UInt8) (ends : before.getLast? = some last)
    (other : isNameByte last = false) : Parted before rest := by
  refine ⟨fun _ _ _ w isEnd word => ?_, fun _ _ _ d isLast => ?_⟩
  · obtain ⟨ahead, rfl⟩ := isEnd
    rw [List.getLast?_append_of_ne_nil _ word.ne_nil] at ends
    rw [word.each last (mem_of_getLast? ends)] at other
    cases other
  · rw [ends] at isLast
    cases isLast
    exact Bool.eq_false_iff.mpr fun digit =>
      Bool.false_ne_true (other.symm.trans (isNameByte_of_isDigit digit))

end Parted

theorem GapPiece.parted {after piece : List UInt8} (taken : GapPiece after piece)
    (before : List UInt8) : Parted (before ++ piece) after := by
  cases taken with
  | @blank b isBlank =>
    refine .of_last b (by simp) ?_
    fin_cases isBlank <;> decide
  | line _ ends =>
    refine .of_stops fun c next => ?_
    rw [ends c next]
    decide
  | block =>
    have ends : ∀ bs : List UInt8, (bs ++ [42, 47]).getLast? = some 47 := by simp
    rw [← append_assoc]
    exact .of_last 47 (ends _) (by decide)

/-! ## One step of the scanner -/

/-- The bytes that one step of the scanner takes for a lexeme, in front of what is left. -/
inductive Lexeme.Reads (after : List UInt8) : List UInt8 → Lexeme → Prop where
  | word {bs : List UInt8} : SpellsWord bs → (∀ c ∈ after.head?, isNameByte c = false) →
      Reads after bs (wordLexeme (asciiText bs))
  | number {bs : List UInt8} : SpellsNumber bs → (∀ c ∈ after.head?, isDigit c = false) →
      Reads after bs (.number (asciiText bs))
  | sign {bs : List UInt8} : SpellsSign bs → Reads after bs (.fixed (asciiText bs))

theorem SpellsSign.last {bs : List UInt8} (sign : SpellsSign bs) :
    ∃ b ∈ bs.getLast?, isNameByte b = false := by
  rcases sign with ⟨c, member, rfl⟩ | rfl
  · obtain ⟨_, _, noLetter, noDigit, _⟩ := sign_facts c member
    exact ⟨byteOf c, by simp, by simp [isNameByte, noLetter, noDigit]⟩
  · exact ⟨38, by simp, by decide⟩

theorem Lexeme.Reads.ne_nil {l : Lexeme} {bs after : List UInt8} (reads : l.Reads after bs) :
    bs ≠ [] := by
  cases reads with
  | word word => exact word.ne_nil
  | number number => exact number.1
  | sign sign =>
    rintro rfl
    obtain ⟨b, member, _⟩ := sign.last
    cases member

theorem Lexeme.Reads.parted {l : Lexeme} {before bs after : List UInt8} (reads : l.Reads after bs)
    (parted : Parted before (bs ++ after)) : Parted (before ++ bs) after := by
  cases reads with
  | word _ stops => exact .of_stops stops
  | number number stops =>
    obtain ⟨b, more, rfl⟩ := exists_cons_of_ne_nil number.1
    have digit := number.2 b mem_cons_self
    refine ⟨fun c next inName w ends word => ?_, fun c next digit' => ?_⟩
    · -- A word that ends in the number would go on from before into it.
      obtain ⟨start, isEnd, isWord⟩ := word.before_digits ends number.2
      exact parted.word b rfl (isNameByte_of_isDigit digit) start isEnd isWord
    · rw [stops c next] at digit'
      cases digit'
  | sign sign =>
    obtain ⟨b, last, other⟩ := sign.last
    refine .of_last b ?_ other
    rw [List.getLast?_append, Option.mem_def.mp last]
    rfl

theorem skipComment_inside {p q : Pos} {bs after : List UInt8}
    (skipped : skipComment p bs = some (after, q)) :
    ∃ inside, bs = inside ++ [42, 47] ++ after ∧ ¬ [42, 47] <:+: inside ++ [42] := by
  fun_induction skipComment p bs with
  | case1 p rest =>
    cases skipped
    exact ⟨[], rfl, by decide⟩
  | case2 p b c rest notClosed ih =>
    obtain ⟨inside, split, first⟩ := ih skipped
    refine ⟨b :: inside, by rw [split]; rfl, fun found => ?_⟩
    rcases infix_cons_iff.mp found with atStart | later
    · obtain ⟨rfl, next⟩ := cons_prefix_cons.mp atStart
      cases inside with
      | nil => cases (cons_prefix_cons.mp next).1
      | cons d inside =>
        obtain ⟨rfl, _⟩ := cons_prefix_cons.mp next
        exact notClosed rfl (List.cons.inj split).1
    · exact first later
  | case3 p bs _ _ => cases skipped

/-- What a step takes from a text. -/
def Scanned.Takes (text : List UInt8) : Scanned → Prop
  | .gap after _ => ∃ piece, text = piece ++ after ∧ GapPiece after piece
  | .token l after _ => ∃ bs, text = bs ++ after ∧ l.Reads after bs
  | .problem _ => True

theorem mem_signs_of_isSign {b : UInt8} (sign : isSign b = true) : ∃ c ∈ signs, b = byteOf c := by
  have member : b ∈ signs.map byteOf := by simpa [isSign, signs] using sign
  obtain ⟨c, isSign, rfl⟩ := mem_map.mp member
  exact ⟨c, isSign, rfl⟩

theorem takes_scanOne (p : Pos) (b : UInt8) (rest : List UInt8) :
    (scanOne p b rest).Takes (b :: rest) := by
  have stops : ∀ P : UInt8 → Bool, ∀ c ∈ (rest.dropWhile P).head?, P c = false := by
    intro P c next
    have stopped := List.head?_dropWhile_not P rest
    rwa [Option.mem_def.mp next] at stopped
  have run : ∀ P : UInt8 → Bool, b :: rest = (b :: rest.takeWhile P) ++ rest.dropWhile P := by
    intro P
    rw [cons_append, takeWhile_append_dropWhile]
  rw [scanOne]
  split_ifs with newline blank line block letter digit ampersand second sign
  · exact ⟨[b], rfl, .blank (by simp [newline])⟩
  · obtain rfl | rfl | rfl : b = 32 ∨ b = 9 ∨ b = 13 := by simpa [isBlank, or_assoc] using blank
    all_goals exact ⟨[_], rfl, .blank (by decide)⟩
  · obtain ⟨tail, rfl⟩ := List.head?_eq_some_iff.mp line.2
    refine ⟨[47, 47] ++ tail.takeWhile (· != 10), ?_, .line ?_ ?_⟩
    · simp [line.1]
    · exact newline_not_mem (fun c => mem_takeWhile_imp) (by decide)
    · intro c next
      simpa using stops (· != 10) c next
  · obtain ⟨tail, rfl⟩ := List.head?_eq_some_iff.mp block.2
    split
    case h_1 after q skipped =>
      obtain ⟨inside, isTail, closed⟩ := skipComment_inside skipped
      refine ⟨[47, 42] ++ inside ++ [42, 47], ?_, .block closed⟩
      rw [tail_cons] at isTail
      simp [block.1, isTail]
    case h_2 => trivial
  · exact ⟨_, run isNameByte, .word ⟨b, _, rfl, letter, fun c => mem_takeWhile_imp⟩
      (stops isNameByte)⟩
  · exact ⟨_, run isDigit, .number ⟨cons_ne_nil _ _, forall_mem_cons.mpr
      ⟨digit, fun c => mem_takeWhile_imp⟩⟩ (stops isDigit)⟩
  · obtain ⟨tail, rfl⟩ := List.head?_eq_some_iff.mp second
    exact ⟨[38, 38], by rw [ampersand]; rfl, .sign (.inr rfl)⟩
  · trivial
  · obtain ⟨c, member, rfl⟩ := mem_signs_of_isSign sign
    exact ⟨[byteOf c], rfl, .sign (.inl ⟨c, member, rfl⟩)⟩
  · trivial

/-! ## The ranges of a text -/

/-- A token and its range. It has the text and the true place of the range. A token that starts with
a letter is the longest word there, a reserved one exactly if its text is in the list, and one that
starts with a digit is the longest number. All others are signs. -/
structure Token.Faithful {bytes : List UInt8} (t : Token) (r : ByteRange bytes) : Prop where
  text : t.lexeme.spelling.toUTF8.toList = r.text
  place : t.pos = placeAfter (bytes.take r.first)
  word : ∀ b ∈ r.text.head?, isLetter b = true → r.IsLongest SpellsWord ∧
    t.lexeme = if t.lexeme.spelling ∈ reserved then .fixed t.lexeme.spelling
      else .name t.lexeme.spelling
  number : ∀ b ∈ r.text.head?, isDigit b = true → r.IsLongest SpellsNumber ∧
    t.lexeme = .number t.lexeme.spelling
  sign : ∀ b ∈ r.text.head?, isNameByte b = false → SpellsSign r.text ∧
    t.lexeme = .fixed t.lexeme.spelling

section Tokens

variable {bytes before bs after : List UInt8} {l : Lexeme}

theorem spelling_wordLexeme (s : String) : (wordLexeme s).spelling = s := by
  unfold wordLexeme
  split <;> rfl

theorem Lexeme.Reads.spelling (reads : l.Reads after bs) : l.spelling = asciiText bs := by
  cases reads with
  | word => exact spelling_wordLexeme _
  | number | sign => rfl

theorem Lexeme.Reads.ascii (reads : l.Reads after bs) : ∀ b ∈ bs, b.toNat < 128 := by
  cases reads with
  | word word => exact fun b member => nameByte_ascii (word.each b member)
  | number number =>
    exact fun b member => nameByte_ascii (isNameByte_of_isDigit (number.2 b member))
  | sign sign =>
    rcases sign with ⟨c, member, rfl⟩ | rfl
    · obtain ⟨_, _, _, _, _, _, same, small⟩ := sign_facts c member
      rw [forall_mem_singleton, ← toNat_ofNat_byte, same]
      exact small
    · simp

theorem toUTF8_asciiText (ascii : ∀ b ∈ bs, b.toNat < 128) : (asciiText bs).toUTF8.toList = bs := by
  rw [toUTF8_toList_of_ascii, map_byteOf_asciiText]
  intro c member
  simp only [asciiText, String.toList_ofList, mem_map] at member
  obtain ⟨b, inside, rfl⟩ := member
  rw [toNat_ofNat_byte]
  exact ascii b inside

theorem isLongest_word (split : bytes = before ++ (bs ++ after)) (word : SpellsWord bs)
    (stops : ∀ c ∈ after.head?, isNameByte c = false) (parted : Parted before (bs ++ after)) :
    (ByteRange.ofSplit split word.ne_nil).IsLongest SpellsWord := by
  refine ByteRange.isLongest_ofSplit split _ word fun left right isEnd isStart wider => ?_
  constructor
  · by_contra some
    obtain ⟨b, more, rfl, letter, _⟩ := word
    exact parted.word b rfl (isNameByte_of_isLetter letter) left isEnd (wider.of_append some)
  · by_contra some
    obtain ⟨c, more, rfl⟩ := exists_cons_of_ne_nil some
    obtain ⟨behind, rfl⟩ := isStart
    have inName := wider.each c (by simp)
    rw [stops c rfl] at inName
    cases inName

theorem isLongest_number (split : bytes = before ++ (bs ++ after)) (number : SpellsNumber bs)
    (stops : ∀ c ∈ after.head?, isDigit c = false) (parted : Parted before (bs ++ after)) :
    (ByteRange.ofSplit split number.1).IsLongest SpellsNumber := by
  refine ByteRange.isLongest_ofSplit split _ number fun left right isEnd isStart wider => ?_
  constructor
  · by_contra some
    obtain ⟨b, more, rfl⟩ := exists_cons_of_ne_nil number.1
    obtain ⟨ahead, rfl⟩ := isEnd
    have last := List.getLast?_eq_some_getLast some
    have noDigit := parted.number b rfl (number.2 b mem_cons_self) (left.getLast some)
      (by rw [List.getLast?_append, last]; rfl)
    rw [wider.2 _ (mem_append_left _ (getLast_mem some))] at noDigit
    cases noDigit
  · by_contra some
    obtain ⟨c, more, rfl⟩ := exists_cons_of_ne_nil some
    obtain ⟨behind, rfl⟩ := isStart
    have digit := wider.2 c (by simp)
    rw [stops c rfl] at digit
    cases digit

theorem Lexeme.Reads.kinds (reads : l.Reads after bs) (split : bytes = before ++ (bs ++ after))
    (parted : Parted before (bs ++ after)) {b : UInt8} (starts : b ∈ bs.head?) :
    (isLetter b = true ∧ (ByteRange.ofSplit split reads.ne_nil).IsLongest SpellsWord ∧
      l = wordLexeme (asciiText bs)) ∨
    (isDigit b = true ∧ (ByteRange.ofSplit split reads.ne_nil).IsLongest SpellsNumber ∧
      l = .number (asciiText bs)) ∨
    isNameByte b = false ∧ SpellsSign bs ∧ l = .fixed (asciiText bs) := by
  cases reads with
  | word word stops =>
    have longest := isLongest_word split word stops parted
    obtain ⟨c, more, rfl, letter, _⟩ := word
    cases starts
    exact .inl ⟨letter, longest, rfl⟩
  | number number stops =>
    have longest := isLongest_number split number stops parted
    exact .inr (.inl ⟨number.2 b (mem_of_mem_head? starts), longest, rfl⟩)
  | sign sign =>
    refine .inr (.inr ⟨?_, sign, rfl⟩)
    rcases sign with ⟨c, member, rfl⟩ | rfl
    · cases starts
      obtain ⟨_, _, noLetter, noDigit, _⟩ := sign_facts c member
      simp [isNameByte, noLetter, noDigit]
    · cases starts
      decide

theorem Lexeme.Reads.faithful (reads : l.Reads after bs) (split : bytes = before ++ (bs ++ after))
    (parted : Parted before (bs ++ after)) :
    Token.Faithful ⟨l, placeAfter before⟩ (.ofSplit split reads.ne_nil) := by
  have isText := ByteRange.text_ofSplit split reads.ne_nil
  have place : bytes.take before.length = before := by rw [split, take_left]
  refine ⟨?_, congrArg placeAfter place.symm, fun b starts letter => ?_,
    fun b starts digit => ?_, fun b starts other => ?_⟩
  · rw [isText, reads.spelling, toUTF8_asciiText reads.ascii]
  all_goals
    rw [isText] at starts
    rw [reads.spelling]
    rcases reads.kinds split parted starts with
      ⟨letter', longest, isWord⟩ | ⟨digit', longest, isNumber⟩ | ⟨other', sign, isSign⟩
  · exact ⟨longest, isWord⟩
  · rw [(digit_facts digit').2.2.2] at letter
    cases letter
  · rw [isNameByte_of_isLetter letter] at other'
    cases other'
  · rw [(digit_facts digit).2.2.2] at letter'
    cases letter'
  · exact ⟨longest, isNumber⟩
  · rw [isNameByte_of_isDigit digit] at other'
    cases other'
  · rw [isNameByte_of_isLetter letter'] at other
    cases other
  · rw [isNameByte_of_isDigit digit'] at other
    cases other
  · exact ⟨isText.symm ▸ sign, isSign⟩

end Tokens

/-- Where the gaps around ranges start and stop, from a position to the end of the text. -/
def gapsFrom {bytes : List UInt8} (start : Nat) (ranges : List (ByteRange bytes)) :
    List (Nat × Nat) :=
  (start :: ranges.map (·.stop)).zip (ranges.map (·.first) ++ [bytes.length])

/-- Ranges of the tokens of a text behind a position, one behind the other, with nothing but gaps
around them. -/
structure Covers {bytes : List UInt8} (start : Nat) (tokens : List Token)
    (ranges : List (ByteRange bytes)) : Prop where
  tokens : List.Forall₂ Token.Faithful tokens ranges
  behind : ∀ r ∈ ranges, start ≤ r.first
  order : ranges.Pairwise fun r r' => r.stop ≤ r'.first
  gaps : ∀ g ∈ gapsFrom start ranges, Gap (bytes.drop g.2) (bytes.extract g.1 g.2)

namespace Covers

variable {bytes before mid after : List UInt8} {tokens : List Token}
  {ranges : List (ByteRange bytes)}

theorem nil (bytes : List UInt8) : Covers bytes.length [] ([] : List (ByteRange bytes)) := by
  refine ⟨.nil, by simp, .nil, ?_⟩
  simpa [gapsFrom] using Gap.none

theorem firstGap (behind : ∀ r ∈ ranges, before.length ≤ r.first)
    (inside : before.length ≤ bytes.length) :
    ∃ stop others, before.length ≤ stop ∧
      ∀ start, gapsFrom start ranges = (start, stop) :: others := by
  cases ranges with
  | nil => exact ⟨bytes.length, [], inside, fun _ => rfl⟩
  | cons r rest => exact ⟨r.first, gapsFrom r.stop rest, behind r mem_cons_self, fun _ => rfl⟩

theorem gap (split : bytes = before ++ (mid ++ after)) (piece : GapPiece after mid)
    (covers : Covers (before ++ mid).length tokens ranges) :
    Covers before.length tokens ranges := by
  have inside : (before ++ mid).length ≤ bytes.length := by simp [split]
  obtain ⟨stop, others, later, isGap⟩ := firstGap covers.behind inside
  have gaps := covers.gaps
  rw [isGap, forall_mem_cons] at gaps
  refine ⟨covers.tokens, fun r member => ?_, covers.order, ?_⟩
  · exact le_trans (by simp) (covers.behind r member)
  rw [isGap, forall_mem_cons]
  refine ⟨?_, gaps.2⟩
  -- Up to where the first gap stops, what is left of the text is the gap and its rest.
  have behind : bytes.drop (before ++ mid).length = after := by
    rw [split, ← append_assoc, drop_left]
  have left : bytes.extract (before ++ mid).length stop ++ bytes.drop stop = after := by
    rw [extract_eq_take_drop, ← Nat.add_sub_of_le later, ← drop_drop, behind,
      Nat.add_sub_cancel_left, take_append_drop]
  have more : bytes.extract before.length stop = mid ++ bytes.extract (before ++ mid).length stop := by
    rw [length_append] at later behind ⊢
    have enough : mid.length ≤ stop - before.length := by omega
    simp only [extract_eq_take_drop, behind]
    rw [split, drop_left, take_append, take_of_length_le enough, Nat.sub_sub]
  rw [more]
  exact GapPiece.gap (left.symm ▸ piece) gaps.1

theorem token {t : Token} {r : ByteRange bytes} (faithful : t.Faithful r)
    (covers : Covers r.stop tokens ranges) : Covers r.first (t :: tokens) (r :: ranges) := by
  refine ⟨.cons faithful covers.tokens, ?_, .cons covers.behind covers.order, ?_⟩
  · refine forall_mem_cons.mpr ⟨Nat.le_refl _, fun r' member => ?_⟩
    exact r.nonempty.le.trans (covers.behind r' member)
  · have isGap : gapsFrom r.first (r :: ranges) = (r.first, r.first) :: gapsFrom r.stop ranges := rfl
    rw [isGap, forall_mem_cons]
    refine ⟨?_, covers.gaps⟩
    simpa using Gap.none

end Covers

theorem scanFrom_ranges {bytes before rest : List UInt8} {p : Pos} (tracks : Tracks bytes p rest)
    (split : bytes = before ++ rest) (parted : Parted before rest) {tokens : List Token} {stop : Pos}
    (scanned : scanFrom p rest = .ok (tokens, stop)) :
    ∃ ranges : List (ByteRange bytes), Covers before.length tokens ranges := by
  fun_induction scanFrom p rest generalizing before tokens stop with
  | case1 p =>
    cases scanned
    rw [append_nil] at split
    exact ⟨[], split ▸ .nil bytes⟩
  | case2 p b rest after q taken ih =>
    have step := tracks.step
    have takes := takes_scanOne p b rest
    rw [taken] at step takes
    obtain ⟨piece, isText, isPiece⟩ := takes
    rw [isText] at split
    obtain ⟨ranges, covers⟩ := ih step (by rw [split, append_assoc]) (isPiece.parted before)
      scanned
    exact ⟨ranges, covers.gap split isPiece⟩
  | case3 p b rest l after q taken tokens' stop' scanned' ih =>
    have step := tracks.step
    have takes := takes_scanOne p b rest
    rw [taken] at step takes
    obtain ⟨bs, isText, reads⟩ := takes
    have other : b ≠ 10 := by
      rintro rfl
      rw [scanOne, if_pos rfl] at taken
      cases taken
    obtain ⟨before', split', rfl⟩ := tracks.split other
    obtain rfl : before' = before := append_cancel_right (split'.symm.trans split)
    rw [isText] at split parted
    cases scanned
    obtain ⟨ranges, covers⟩ := ih step (by rw [split, append_assoc]) (reads.parted parted)
      scanned'
    refine ⟨.ofSplit split reads.ne_nil :: ranges, .token (reads.faithful split parted) ?_⟩
    rwa [length_append] at covers
  | case4 p b rest l after q taken e failed ih | case5 p b rest e taken => cases scanned

/-- **Scanning is faithful.** The tokens of a text that is scanned come from ranges of its bytes,
one range for each token, in the same order and without overlap. Each token has the text and the
true place of its range, words and numbers are the longest ones there, and a word is reserved
exactly if it is in the list. Before, between and behind the ranges there are only gaps. -/
theorem scan_faithful {bytes : List UInt8} {tokens : List Token} {stop : Pos}
    (scanned : scan bytes = .ok (tokens, stop)) :
    ∃ ranges : List (ByteRange bytes), List.Forall₂ Token.Faithful tokens ranges ∧
      (ranges.Pairwise fun r r' => r.stop ≤ r'.first) ∧
      ∀ g ∈ gapsFrom 0 ranges, Gap (bytes.drop g.2) (bytes.extract g.1 g.2) := by
  obtain ⟨ranges, covers⟩ := scanFrom_ranges (.start bytes) rfl (Parted.start bytes) scanned
  exact ⟨ranges, covers.tokens, covers.order, covers.gaps⟩

/-- A text with comments of both kinds, and a name right behind a number. -/
def commentedText : List UInt8 := "class/* a\n *//b 1a// x\n&&".toUTF8.toList

/-- The tokens of that text. -/
def commentedTokens : List Token :=
  [⟨.fixed "class", ⟨1, 1⟩⟩, ⟨.fixed "/", ⟨2, 4⟩⟩, ⟨.name "b", ⟨2, 5⟩⟩, ⟨.number "1", ⟨2, 7⟩⟩,
    ⟨.name "a", ⟨2, 8⟩⟩, ⟨.fixed "&&", ⟨3, 1⟩⟩]

theorem scan_faithful_commented : scan commentedText = .ok (commentedTokens, ⟨3, 3⟩) ∧
    ∃ ranges : List (ByteRange commentedText), List.Forall₂ Token.Faithful commentedTokens ranges ∧
      (ranges.Pairwise fun r r' => r.stop ≤ r'.first) ∧
      ∀ g ∈ gapsFrom 0 ranges, Gap (commentedText.drop g.2) (commentedText.extract g.1 g.2) := by
  have scanned : scan commentedText = .ok (commentedTokens, ⟨3, 3⟩) := by decide +kernel
  exact ⟨scanned, scan_faithful scanned⟩

end JavaMinus.Syntax
