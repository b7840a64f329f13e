import JavaMinus.Proofs.ReadTrees

/-!
# Texts that spell tokens

`Spells rest text ls` says that a text is the lexemes `ls` written out, with the rest
behind them: blanks and line ends may stand between two lexemes, and something that ends
a word has to follow each word and each number. The scanner takes exactly these lexemes
from such a text (`Spells.scan_text`).

The lexemes that are printed are names, reserved words, numbers and signs, and there is
one lemma for each kind: `Spells.name`, `Spells.keyword`, `Spells.number` together with
`isNumeral_toString`, and `Spells.layout` for signs and blanks in any order.
-/

namespace JavaMinus.Syntax

open List

variable {s : String} {b : UInt8} {after : List UInt8} {cs : List Char}

/-! ## Spelling lexemes -/

/-- A word, reserved or not. -/
def IsWord (s : String) : Prop :=
  ∃ b bs, isLetter b = true ∧ (∀ c ∈ bs, isNameByte c = true) ∧ s = asciiText (b :: bs)

/-- A number as it is written. -/
def IsNumeral (s : String) : Prop :=
  ∃ b bs, isDigit b = true ∧ (∀ c ∈ bs, isDigit c = true) ∧ s = asciiText (b :: bs)

/-- The text does not go on with a word or a number that stands before it. -/
def Stops (text : List Char) : Prop := ∀ c ∈ text.head?, isNameByte (byteOf c) = false

/-- The text starts with a character that ends a word before it. -/
def endsWord (s : String) : Bool := s.toList.head?.any fun c => !isNameByte (byteOf c)

theorem Stops.before (ends : endsWord s = true) (text : List Char) : Stops (s.toList ++ text) := by
  unfold endsWord at ends
  cases chars : s.toList with
  | nil => simp [chars] at ends
  | cons c cs => simpa [chars, Stops] using ends

/-- The characters between lexemes in a printed text. -/
def gaps : List Char := [' ', '\t', '\n']

/-- The characters that are lexemes of their own. -/
def signs : List Char :=
  ['\x7b', '\x7d', '(', ')', '[', ']', ';', ',', '.', '=', '<', '+', '-', '*', '/', '!']

/-- A text spells lexemes, and then the rest follows. A blank comes after `/`, which so
does not start a comment. -/
inductive Spells (rest : List Char) : List Char → List Lexeme → Prop where
  | done : Spells rest rest []
  | gap {c : Char} {text : List Char} {ls : List Lexeme} :
      c ∈ gaps → Spells rest text ls → Spells rest (c :: text) ls
  | word {s : String} {text : List Char} {ls : List Lexeme} :
      IsWord s → Stops text → Spells rest text ls →
      Spells rest (s.toList ++ text) (wordLexeme s :: ls)
  | number {s : String} {text : List Char} {ls : List Lexeme} :
      IsNumeral s → Stops text → Spells rest text ls →
      Spells rest (s.toList ++ text) (.number s :: ls)
  | sign {c : Char} {text : List Char} {ls : List Lexeme} :
      c ∈ signs → (c = '/' → ∀ d ∈ text.head?, d ∈ gaps) → Spells rest text ls →
      Spells rest (c :: text) (.fixed (String.ofList [c]) :: ls)
  | both {text : List Char} {ls : List Lexeme} :
      Spells rest text ls → Spells rest ('&' :: '&' :: text) (.fixed "&&" :: ls)

namespace Spells

variable {rest text : List Char} {ls : List Lexeme}

theorem append {middle : List Char} {ls' : List Lexeme} (first : Spells middle text ls)
    (second : Spells rest middle ls') : Spells rest text (ls ++ ls') := by
  induction first with
  | done => exact second
  | gap isGap _ ih => exact .gap isGap ih
  | word isWord stops _ ih => exact .word isWord stops ih
  | number isNumeral stops _ ih => exact .number isNumeral stops ih
  | sign isSign apart _ ih => exact .sign isSign apart ih
  | both _ ih => exact .both ih

end Spells

/-! ### Bytes of words and signs -/

theorem toNat_ofNat_byte (b : UInt8) : (Char.ofNat b.toNat).toNat = b.toNat := by
  have bound := b.toNat_lt
  rw [Char.toNat_ofNat, if_pos (.inl (by omega))]

theorem byteOf_ofNat (b : UInt8) : byteOf (Char.ofNat b.toNat) = b := by
  rw [byteOf, toNat_ofNat_byte, Nat.toUInt8_eq, UInt8.ofNat_toNat]

theorem map_byteOf_asciiText (bs : List UInt8) : (asciiText bs).toList.map byteOf = bs := by
  rw [asciiText, String.toList_ofList, map_map]
  exact (map_congr_left fun b _ => byteOf_ofNat b).trans (map_id bs)

theorem letter_facts (letter : isLetter b = true) : b ≠ 10 ∧ isBlank b = false ∧ b ≠ 47 := by
  grind [isLetter, isBlank]

theorem digit_facts (digit : isDigit b = true) :
    b ≠ 10 ∧ isBlank b = false ∧ b ≠ 47 ∧ isLetter b = false := by
  grind [isLetter, isBlank, isDigit]

theorem nameByte_ascii (inName : isNameByte b = true) : b.toNat < 128 := by
  have small : b < 128 := by grind [isLetter, isNameByte, isDigit]
  exact small

theorem forall_mem_of_all {P : Char → Prop} [DecidablePred P]
    (all : (cs.all fun c => decide (P c)) = true) : ∀ c ∈ cs, P c := by
  intro c member
  exact of_decide_eq_true (all_eq_true.mp all c member)

theorem sign_facts : ∀ c ∈ signs, byteOf c ≠ 10 ∧ isBlank (byteOf c) = false ∧
    isLetter (byteOf c) = false ∧ isDigit (byteOf c) = false ∧ byteOf c ≠ 38 ∧
    isSign (byteOf c) = true ∧ Char.ofNat (byteOf c).toNat = c ∧ c.toNat < 128 :=
  forall_mem_of_all (by decide +kernel)

theorem gap_facts : ∀ c ∈ gaps, (byteOf c = 10 ∨ isBlank (byteOf c) = true) ∧
    byteOf c ≠ 47 ∧ byteOf c ≠ 42 ∧ c.toNat < 128 :=
  forall_mem_of_all (by decide +kernel)

theorem ascii_of_nameBytes {bs : List UInt8} (each : ∀ b ∈ bs, isNameByte b = true) :
    ∀ c ∈ (asciiText bs).toList, c.toNat < 128 := by
  intro c member
  simp only [asciiText, String.toList_ofList, mem_map] at member
  obtain ⟨b, inside, rfl⟩ := member
  rw [toNat_ofNat_byte]
  exact nameByte_ascii (each b inside)

theorem IsWord.ascii (isWord : IsWord s) : ∀ c ∈ s.toList, c.toNat < 128 := by
  obtain ⟨b, bs, letter, more, rfl⟩ := isWord
  exact ascii_of_nameBytes (forall_mem_cons.mpr ⟨by simp [isNameByte, letter], more⟩)

theorem IsNumeral.ascii (isNumeral : IsNumeral s) : ∀ c ∈ s.toList, c.toNat < 128 := by
  obtain ⟨b, bs, digit, more, rfl⟩ := isNumeral
  refine ascii_of_nameBytes (forall_mem_cons.mpr ⟨by simp [isNameByte, digit], fun c member => ?_⟩)
  simp [isNameByte, more c member]

/-! ### Scanning what is spelled -/

theorem scanOne_gap (p : Pos) (isGap : b = 10 ∨ isBlank b = true) (rest : List UInt8) :
    ∃ q, scanOne p b rest = .gap rest q := by
  unfold scanOne
  by_cases newline : b = 10
  · exact ⟨_, if_pos newline⟩
  · rw [if_neg newline, if_pos (isGap.resolve_left newline)]
    exact ⟨_, rfl⟩

section Runs

variable {p : UInt8 → Bool} {more text : List UInt8}

theorem takeWhile_run (inside : ∀ c ∈ more, p c = true) (outside : ∀ c ∈ text.head?, p c = false) :
    (more ++ text).takeWhile p = more := by
  rw [takeWhile_append_of_pos inside]
  cases text with
  | nil => simp
  | cons c rest => simp [outside c rfl]

theorem dropWhile_run (inside : ∀ c ∈ more, p c = true) (outside : ∀ c ∈ text.head?, p c = false) :
    (more ++ text).dropWhile p = text := by
  rw [dropWhile_append_of_pos inside]
  cases text with
  | nil => rfl
  | cons c rest => simp [outside c rfl]

end Runs

theorem scanOne_word (p : Pos) {more text : List UInt8} (letter : isLetter b = true)
    (inside : ∀ c ∈ more, isNameByte c = true) (outside : ∀ c ∈ text.head?, isNameByte c = false) :
    ∃ q, scanOne p b (more ++ text) = .token (wordLexeme (asciiText (b :: more))) text q := by
  obtain ⟨newline, blank, slash⟩ := letter_facts letter
  simp [scanOne, newline, blank, slash, letter, takeWhile_run inside outside,
    dropWhile_run inside outside]

theorem scanOne_number (p : Pos) {more text : List UInt8} (digit : isDigit b = true)
    (inside : ∀ c ∈ more, isDigit c = true) (outside : ∀ c ∈ text.head?, isNameByte c = false) :
    ∃ q, scanOne p b (more ++ text) = .token (.number (asciiText (b :: more))) text q := by
  obtain ⟨newline, blank, slash, letter⟩ := digit_facts digit
  have outside' : ∀ c ∈ text.head?, isDigit c = false := by
    intro c member
    have noName := outside c member
    simp only [isNameByte, Bool.or_eq_false_iff] at noName
    exact noName.2
  simp [scanOne, newline, blank, slash, letter, digit, takeWhile_run inside outside',
    dropWhile_run inside outside']

theorem scanOne_sign (p : Pos) {c : Char} (member : c ∈ signs) {text : List UInt8}
    (apart : byteOf c = 47 → ∀ d ∈ text.head?, d ≠ 47 ∧ d ≠ 42) :
    ∃ q, scanOne p (byteOf c) text = .token (.fixed (String.ofList [c])) text q := by
  obtain ⟨newline, blank, letter, digit, ampersand, sign, back, _⟩ := sign_facts c member
  have noLine : ¬(byteOf c = 47 ∧ text.head? = some 47) :=
    fun starts => (apart starts.1 _ starts.2).1 rfl
  have noBlock : ¬(byteOf c = 47 ∧ text.head? = some 42) :=
    fun starts => (apart starts.1 _ starts.2).2 rfl
  simp [scanOne, newline, blank, noLine, noBlock, letter, digit, ampersand, sign, asciiText, back]

theorem scanOne_and (p : Pos) (text : List UInt8) :
    ∃ q, scanOne p 38 (38 :: text) = .token (.fixed "&&") text q :=
  ⟨_, rfl⟩

theorem scanFrom_of_gap {p q : Pos} {rest : List UInt8} (taken : scanOne p b rest = .gap after q) :
    scanFrom p (b :: rest) = scanFrom q after := by
  rw [scanFrom]
  split <;> simp_all

theorem scanFrom_of_token {p q stop : Pos} {rest : List UInt8} {l : Lexeme} {tokens : List Token}
    (taken : scanOne p b rest = .token l after q) (others : scanFrom q after = .ok (tokens, stop)) :
    scanFrom p (b :: rest) = .ok (⟨l, p⟩ :: tokens, stop) := by
  rw [scanFrom]
  split <;> simp_all

/-- The tokens of a text have the given lexemes. -/
def HasLexemes (bytes : List UInt8) (ls : List Lexeme) : Prop :=
  ∀ p, ∃ tokens stop, scanFrom p bytes = .ok (tokens, stop) ∧ tokens.map (·.lexeme) = ls

theorem HasLexemes.cons {rest : List UInt8} {l : Lexeme} {ls : List Lexeme}
    (first : ∀ p, ∃ q, scanOne p b rest = .token l after q) (others : HasLexemes after ls) :
    HasLexemes (b :: rest) (l :: ls) := by
  intro p
  obtain ⟨q, taken⟩ := first p
  obtain ⟨tokens, stop, scanned, rfl⟩ := others q
  exact ⟨_, _, scanFrom_of_token taken scanned, rfl⟩

theorem Stops.map_byteOf {text : List Char} (stops : Stops text) :
    ∀ b ∈ (text.map byteOf).head?, isNameByte b = false := by
  cases text with
  | nil => simp
  | cons c rest => simpa [Stops] using stops

/-- **The scanner takes the lexemes from a text that spells them.** -/
theorem Spells.scan {text : List Char} {ls : List Lexeme} (spelled : Spells [] text ls) :
    HasLexemes (text.map byteOf) ls := by
  induction spelled with
  | done => exact fun p => ⟨[], p, by rw [map_nil, scanFrom], rfl⟩
  | @gap c text ls isGap _ ih =>
    intro p
    obtain ⟨q, taken⟩ := scanOne_gap p (gap_facts c isGap).1 (text.map byteOf)
    rw [map_cons, scanFrom_of_gap taken]
    exact ih q
  | @word s text ls isWord stops _ ih =>
    obtain ⟨b, bs, letter, more, rfl⟩ := isWord
    rw [map_append, map_byteOf_asciiText, cons_append]
    exact .cons (fun p => scanOne_word p letter more stops.map_byteOf) ih
  | @number s text ls isNumeral stops _ ih =>
    obtain ⟨b, bs, digit, more, rfl⟩ := isNumeral
    rw [map_append, map_byteOf_asciiText, cons_append]
    exact .cons (fun p => scanOne_number p digit more stops.map_byteOf) ih
  | @sign c text ls isSign apart _ ih =>
    refine .cons (fun p => scanOne_sign p isSign fun slash d first => ?_) ih
    obtain ⟨_, _, _, _, _, _, back, _⟩ := sign_facts c isSign
    have isSlash : c = '/' := by rw [← back, slash]; rfl
    rw [List.head?_map, Option.mem_map] at first
    obtain ⟨e, next, rfl⟩ := first
    obtain ⟨_, noSlash, noStar, _⟩ := gap_facts e (apart isSlash e next)
    exact ⟨noSlash, noStar⟩
  | both _ ih => exact .cons (fun p => scanOne_and p _) ih

/-! ### Bytes of a text -/

theorem Spells.ascii {rest text : List Char} {ls : List Lexeme} (spelled : Spells rest text ls)
    (after : ∀ c ∈ rest, c.toNat < 128) : ∀ c ∈ text, c.toNat < 128 := by
  induction spelled with
  | done => exact after
  | gap isGap _ ih => exact forall_mem_cons.mpr ⟨(gap_facts _ isGap).2.2.2, ih⟩
  | word isWord _ _ ih => exact forall_mem_append.mpr ⟨isWord.ascii, ih⟩
  | number isNumeral _ _ ih => exact forall_mem_append.mpr ⟨isNumeral.ascii, ih⟩
  | sign isSign _ _ ih =>
    obtain ⟨_, _, _, _, _, _, _, ascii⟩ := sign_facts _ isSign
    exact forall_mem_cons.mpr ⟨ascii, ih⟩
  | both _ ih =>
    exact forall_mem_cons.mpr ⟨by decide, forall_mem_cons.mpr ⟨by decide, ih⟩⟩

theorem toList_loop_eq (bytes : ByteArray) (i : Nat) (taken : List UInt8) :
    ByteArray.toList.loop bytes i taken = taken.reverse ++ bytes.data.toList.drop i := by
  fun_induction ByteArray.toList.loop bytes i taken with
  | case1 i taken inside ih =>
    have bound : i < bytes.data.toList.length := by simpa using inside
    rw [ih, drop_eq_getElem_cons bound]
    simp [ByteArray.get!, inside]
  | case2 i taken outside =>
    rw [drop_eq_nil_of_le (by simpa using Nat.le_of_not_lt outside), append_nil]

theorem toUTF8_toList_of_ascii (ascii : ∀ c ∈ s.toList, c.toNat < 128) :
    s.toUTF8.toList = s.toList.map byteOf := by
  have single : ∀ c ∈ s.toList, String.utf8EncodeChar c = [byteOf c] := by
    intro c member
    have small : c.val.toNat ≤ 127 := Nat.le_of_lt_succ (ascii c member)
    simp only [String.utf8EncodeChar, if_pos small]
    rfl
  have encoded : s.toList.flatMap String.utf8EncodeChar = s.toList.map byteOf := by
    rw [flatMap_congr single, ← map_eq_flatMap]
  rw [String.toUTF8, ← String.utf8Encode_toList, List.utf8Encode, encoded, ByteArray.toList,
    toList_loop_eq, reverse_nil, nil_append, drop_zero,
    toList_data_toByteArray]

theorem Spells.scan_text {ls : List Lexeme} (spelled : Spells [] s.toList ls) :
    HasLexemes s.toUTF8.toList ls := by
  rw [toUTF8_toList_of_ascii (spelled.ascii (forall_mem_nil _))]
  exact spelled.scan

/-! ## Words, numbers and layout -/

theorem asciiText_map_byteOf (ascii : ∀ c ∈ cs, c.toNat < 128) :
    asciiText (cs.map byteOf) = String.ofList cs := by
  have back : ∀ c ∈ cs, Char.ofNat (byteOf c).toNat = c := by
    intro c member
    have small := ascii c member
    have same : (byteOf c).toNat = c.toNat := by
      simp only [byteOf, Nat.toUInt8_eq, UInt8.toNat_ofNat']
      omega
    rw [same, Char.ofNat_toNat]
  rw [asciiText, map_map]
  exact congrArg String.ofList ((map_congr_left back).trans (map_id cs))

/-- What is checked of the characters of a reserved word. -/
def looksLikeWord (s : String) : Bool :=
  (s.toList.head?.any fun c => isLetter (byteOf c)) &&
    s.toList.all fun c => isNameByte (byteOf c) && decide (c.toNat < 128)

theorem isWord_of_looks (looks : looksLikeWord s = true) : IsWord s := by
  simp only [looksLikeWord, Bool.and_eq_true, all_eq_true, decide_eq_true_eq] at looks
  obtain ⟨first, each⟩ := looks
  cases chars : s.toList with
  | nil => simp [chars] at first
  | cons c cs =>
    rw [chars] at first each
    refine ⟨byteOf c, cs.map byteOf, by simpa using first, ?_, ?_⟩
    · intro b member
      obtain ⟨d, inside, rfl⟩ := mem_map.mp member
      exact (each d (mem_cons_of_mem _ inside)).1
    · rw [← map_cons, asciiText_map_byteOf fun d inside => (each d inside).2, ← chars,
        String.ofList_toList]

theorem looks_of_isWord (isWord : IsWord s) : looksLikeWord s = true := by
  obtain ⟨b, bs, letter, more, rfl⟩ := isWord
  have named : ∀ c ∈ b :: bs, isNameByte c = true :=
    forall_mem_cons.mpr ⟨by simp [isNameByte, letter], more⟩
  simp only [looksLikeWord, Bool.and_eq_true, all_eq_true, decide_eq_true_eq]
  refine ⟨by simpa [asciiText, byteOf_ofNat] using letter, fun c member => ?_⟩
  simp only [asciiText, String.toList_ofList] at member
  obtain ⟨d, inside, rfl⟩ := mem_map.mp member
  rw [byteOf_ofNat, toNat_ofNat_byte]
  exact ⟨named d inside, nameByte_ascii (named d inside)⟩

instance : DecidablePred IsWord := fun s =>
  decidable_of_iff (looksLikeWord s = true) ⟨isWord_of_looks, looks_of_isWord⟩

theorem isWord_of_reserved (isReserved : s ∈ reserved) : IsWord s := by
  have all : (reserved.all looksLikeWord) = true := by decide +kernel
  exact isWord_of_looks (all_eq_true.mp all s isReserved)

theorem digitChar_facts {c : Char} (isDigit : c.isDigit = true) :
    Syntax.isDigit (byteOf c) = true ∧ c.toNat < 128 := by
  have small : c.toNat < 128 := by
    simp only [Char.isDigit, Bool.and_eq_true, decide_eq_true_eq, UInt32.le_iff_toNat_le] at isDigit
    exact Nat.lt_of_le_of_lt isDigit.2 (by decide)
  have each : ∀ n < 128, (Char.ofNat n).isDigit = true →
      Syntax.isDigit (byteOf (Char.ofNat n)) = true := by decide +kernel
  have here := each c.toNat small
  rw [Char.ofNat_toNat] at here
  exact ⟨here isDigit, small⟩

theorem toString_ofNat_eq (n : Nat) : toString (n : Int) = String.ofList (Nat.toDigits 10 n) :=
  Nat.toString_eq_ofList_toDigits

theorem isNumeral_toString (n : Nat) : IsNumeral (toString (n : Int)) := by
  have digits : ∀ c ∈ Nat.toDigits 10 n, Syntax.isDigit (byteOf c) = true ∧ c.toNat < 128 :=
    fun c member => digitChar_facts (Nat.isDigit_of_mem_toDigits (by decide) (by decide) member)
  rw [toString_ofNat_eq]
  cases chars : Nat.toDigits 10 n with
  | nil => exact absurd chars Nat.toDigits_ne_nil
  | cons c cs =>
    rw [chars] at digits
    refine ⟨byteOf c, cs.map byteOf, (digits c mem_cons_self).1, ?_, ?_⟩
    · intro b member
      obtain ⟨d, inside, rfl⟩ := mem_map.mp member
      exact (digits d (mem_cons_of_mem _ inside)).1
    · rw [← map_cons, asciiText_map_byteOf fun d inside => (digits d inside).2]

theorem digitsValue_toString (n : Nat) : digitsValue (toString (n : Int)) = n := by
  rw [toString_ofNat_eq, digitsValue, String.toList_ofList]
  exact (Nat.ofDigitChars_eq_foldl).symm.trans Nat.ofDigitChars_ten_toDigits

/-- The lexemes of signs and blanks. -/
def signLexemes (cs : List Char) : List Lexeme :=
  (cs.filter fun c => decide (c ∉ gaps)).map fun c => .fixed (String.ofList [c])

namespace Spells

variable {rest text : List Char} {ls : List Lexeme}

theorem name (named : IsName s) (stops : Stops text) (later : Spells rest text ls) :
    Spells rest (s.toList ++ text) (.name s :: ls) := by
  have isName : wordLexeme s = .name s := if_neg named.plain
  exact isName ▸ word named.bytes stops later

theorem keyword (isReserved : s ∈ reserved) (stops : Stops text) (later : Spells rest text ls) :
    Spells rest (s.toList ++ text) (.fixed s :: ls) := by
  have isFixed : wordLexeme s = .fixed s := if_pos isReserved
  exact isFixed ▸ word (isWord_of_reserved isReserved) stops later

theorem signs (plain : (cs.all fun c => decide (c ∈ gaps ∨ c ∈ Syntax.signs ∧ c ≠ '/')) = true)
    (later : Spells rest text ls) : Spells rest (cs ++ text) (signLexemes cs ++ ls) := by
  induction cs with
  | nil => exact later
  | cons c cs ih =>
    rw [all_cons, Bool.and_eq_true, decide_eq_true_eq] at plain
    by_cases isGap : c ∈ gaps
    · rw [signLexemes, filter_cons_of_neg (by simpa using isGap)]
      exact .gap isGap (ih plain.2)
    · obtain ⟨isSign, other⟩ := plain.1.resolve_left isGap
      rw [signLexemes, filter_cons_of_pos (by simpa using isGap)]
      exact .sign isSign (fun slash => absurd slash other) (ih plain.2)

theorem layout (s : String)
    (plain : (s.toList.all fun c => decide (c ∈ gaps ∨ c ∈ Syntax.signs ∧ c ≠ '/')) = true)
    (later : Spells rest text ls) : Spells rest (s.toList ++ text) (signLexemes s.toList ++ ls) :=
  signs plain later

theorem operator {op : Operator} (binary : op.level ≠ 0) (later : Spells rest text ls) :
    Spells rest (" ".toList ++ (op.symbol.toList ++ (" ".toList ++ text)))
      (.fixed op.symbol :: ls) := by
  refine .gap (by decide) ?_
  have after : Spells rest (' ' :: text) ls := .gap (by decide) later
  cases op with
  | and => exact .both after
  | not | other s => exact absurd rfl binary
  | _ => exact .sign (by decide) (by simp [gaps]) after

end Spells

end JavaMinus.Syntax
