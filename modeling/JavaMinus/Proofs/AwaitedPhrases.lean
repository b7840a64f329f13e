import JavaMinus.Proofs.GrammarRules

/-!
# The phrases that a text still has to bring

The grammar can be followed with one lexeme in view. What is left to do is a list of awaited
phrases, of which the first has to come next. Each phrase has a row of entries (`Phrase.row`):
the next lexeme picks the first entry that it fits, and the phrases of the entry take the place
of the one that was awaited. A phrase that may be missing has no row of its own: its entries
stand before those of the phrase behind it. So every awaited phrase takes at least one lexeme,
and a lexeme that fits no entry cannot come.

`follow` goes along a list of lexemes in this way, until nothing is awaited any more or until a
lexeme does not fit. Two things are shown about it.

**What has been followed can be completed.** Every awaited phrase can be brought to an end
(`follow_completion`), so the lexemes up to the one that does not fit start a list of lexemes
that is followed to its end.

**What does not fit never fits.** What is awaited at a lexeme depends on the lexemes before it
alone (`awaited`, `follow_of_awaited`), so no list of lexemes that starts in the same way is
followed to its end.

Where a lexeme does not fit, the awaited phrase tells what was being read there. Only a few
kinds of places matter later on, and `Snag` tells them apart.
-/

namespace JavaMinus.Syntax

open List

open Lexeme (fixed)

/-! ## Phrases -/

/-- How an expression ends: with a parenthesis or a bracket, as one of several arguments, or
with a semicolon. -/
inductive Closer where
  | paren
  | bracket
  | argument
  | semicolon
  deriving DecidableEq

/-- The signs and words that are awaited by themselves. -/
inductive Mark where
  | leftParen
  | rightParen
  | leftBracket
  | rightBracket
  | leftBrace
  | rightBrace
  | semicolon
  | otherwise
  deriving DecidableEq

/-- How a sign or word is written. -/
def Mark.text : Mark → String
  | leftParen => "("
  | rightParen => ")"
  | leftBracket => "["
  | rightBracket => "]"
  | leftBrace => "\x7b"
  | rightBrace => "\x7d"
  | semicolon => ";"
  | otherwise => "else"

/-- What can be awaited. The phrases of expressions know how the expression ends, and whether it
is part of the value that is assigned to an element of an array. -/
inductive Phrase where
  | mark (m : Mark) (element : Bool)
  | anyName
  /-- An expression and its end. -/
  | expr (k : Closer) (element : Bool)
  /-- The rest of an expression behind `new`. -/
  | creation (k : Closer) (element : Bool)
  /-- The rest of an expression behind an operand. -/
  | tail (k : Closer) (element : Bool)
  /-- The rest of an expression behind a dot. -/
  | member (k : Closer) (element : Bool)
  /-- The rest of an expression behind the name `length`. -/
  | lengthTail (k : Closer) (element : Bool)
  /-- Arguments, and the rest of the expression. -/
  | args (k : Closer) (element : Bool)
  | stmt
  /-- The rest of a statement behind a name. -/
  | nameStmt
  /-- The rest of a statement behind an element of an array. -/
  | elementStmt
  /-- Statements up to a brace. -/
  | block
  /-- The rest of a body: declarations, statements and a result. -/
  | locals
  /-- The rest of a body behind a name, which may be the name of a type. -/
  | localName (array : Bool)
  /-- Statements and a result. -/
  | body
  | returnRest
  /-- The name of a variable behind the name of a type. -/
  | declName (array : Bool)
  | typedName
  | params
  | paramsRest
  /-- A method behind `public`. -/
  | signature
  /-- The method `main` behind `static`, word by word. -/
  | mainVoid
  | mainName
  | mainOpen
  | mainString
  | mainBracket
  | methods
  /-- The rest of a class behind its opening brace. -/
  | fields
  /-- The name of a field behind a name. -/
  | fieldName (array : Bool)
  | fieldEnd
  /-- The rest of a class behind its name. -/
  | superclass
  | superName
  | classOpen
  | className
  | importName
  | pathRest
  | imports
  deriving DecidableEq

/-- The places that are told apart when a lexeme does not fit. -/
inductive Snag where
  | plain
  /-- Inside the value that is assigned to an element of an array. -/
  | element
  | fieldName
  | mainName
  | mainString
  | mainBracket
  deriving DecidableEq

/-- The place at which a phrase is awaited. -/
def Phrase.snag : Phrase → Snag
  | mark _ element | expr _ element | creation _ element | tail _ element | member _ element
  | lengthTail _ element | args _ element => if element then .element else .plain
  | fieldName _ => .fieldName
  | mainName => .mainName
  | mainString => .mainString
  | mainBracket => .mainBracket
  | _ => .plain

/-! ## Rows -/

/-- What a lexeme has to be to pick an entry. -/
inductive Trigger where
  | word (s : String)
  | name
  | named (s : String)
  | number
  deriving DecidableEq

/-- A lexeme fits. Numbers have to be small enough. -/
def Trigger.fits : Trigger → Lexeme → Bool
  | word s, .fixed s' => s = s'
  | name, .name _ => true
  | named s, .name s' => s = s'
  | number, .number digits => digitsValue digits ≤ maxLiteral
  | _, _ => false

/-- Entries, of which the first that fits is picked. -/
abbrev Row := List (Trigger × List Phrase)

/-- The phrases of the first entry that a lexeme fits. -/
def Row.pick (row : Row) (l : Lexeme) : Option (List Phrase) :=
  (row.find? fun entry => entry.1.fits l).map (·.2)

/-- A row with phrases behind those of each entry. -/
def Row.before (row : Row) (ps : List Phrase) : Row := row.map fun entry => (entry.1, entry.2 ++ ps)

/-- The entries that end an expression. -/
def Closer.row (element : Bool) : Closer → Row
  | paren => [(.word ")", [])]
  | bracket => [(.word "]", [])]
  | argument => [(.word ",", [.expr .argument element]), (.word ")", [])]
  | semicolon => [(.word ";", [])]

/-- An expression. -/
def exprRow (k : Closer) (element : Bool) : Row :=
  [(.number, [.tail k element]), (.name, [.tail k element]), (.word "true", [.tail k element]),
    (.word "false", [.tail k element]), (.word "this", [.tail k element]),
    (.word "(", [.expr .paren element, .tail k element]), (.word "new", [.creation k element]),
    (.word "!", [.expr k element])]

/-- What may follow an operand. -/
def tailRow (k : Closer) (element : Bool) : Row :=
  binarySymbols.map (fun s => (.word s, [.expr k element])) ++
    ((.word "[", [.expr .bracket element, .tail k element]) ::
      (.word ".", [.member k element]) :: k.row element)

/-- A statement. -/
def stmtRow : Row :=
  [(.word "\x7b", [.block]),
    (.word "if", [.mark .leftParen false, .expr .paren false, .stmt, .mark .otherwise false,
      .stmt]),
    (.word "while", [.mark .leftParen false, .expr .paren false, .stmt]),
    (.name, [.nameStmt])] ++ exprRow .semicolon false

/-- What may follow a name at the start of a statement. -/
def nameStmtRow : Row :=
  (.word "=", [.expr .semicolon false]) ::
    (.word "[", [.expr .bracket false, .elementStmt]) :: tailRow .semicolon false

/-- Statements and a result. -/
def bodyRow : Row :=
  (.word "\x7d", []) :: (.word "return", [.returnRest, .mark .rightBrace false]) ::
    Row.before stmtRow [.body]

/-- The name of a variable, and the brackets before it where these are allowed. -/
def declNameRow (array : Bool) : Row :=
  (.name, []) :: if array then [(.word "[", [.mark .rightBracket false, .anyName])] else []

/-- A type and a name. -/
def typedNameRow : Row :=
  [(.named "String", [.declName true]), (.name, [.declName false]), (.word "int", [.declName true]),
    (.word "boolean", [.declName false]), (.word "void", [.declName false])]

/-- A method or the end of a class. -/
def methodsRow : Row := [(.word "public", [.signature, .methods]), (.word "\x7d", [])]

/-- What can come where a phrase is awaited, and what is awaited then. -/
def Phrase.row : Phrase → Row
  | mark m _ => [(.word m.text, [])]
  | anyName => [(.name, [])]
  | expr k element => exprRow k element
  | creation k element =>
    [(.word "int", [.mark .leftBracket element, .expr .bracket element, .tail k element]),
      (.name, [.mark .leftParen element, .mark .rightParen element, .tail k element])]
  | tail k element => tailRow k element
  | member k element =>
    [(.named "length", [.lengthTail k element]),
      (.name, [.mark .leftParen element, .args k element])]
  | lengthTail k element => (.word "(", [.args k element]) :: tailRow k element
  | args k element =>
    (.word ")", [.tail k element]) :: Row.before (exprRow .argument element) [.tail k element]
  | stmt => stmtRow
  | nameStmt => nameStmtRow
  | elementStmt => (.word "=", [.expr .semicolon true]) :: tailRow .semicolon false
  | block => (.word "\x7d", []) :: Row.before stmtRow [.block]
  | locals =>
    [(.word "int", [.declName true, .mark .semicolon false, .locals]),
      (.word "boolean", [.declName false, .mark .semicolon false, .locals]),
      (.named "String", [.localName true]), (.name, [.localName false])] ++ bodyRow
  | localName array =>
    Row.before (declNameRow array) [.mark .semicolon false, .locals] ++
      Row.before nameStmtRow [.body]
  | body => bodyRow
  | returnRest => (.word ";", []) :: exprRow .semicolon false
  | declName array => declNameRow array
  | typedName => typedNameRow
  | params => (.word ")", []) :: Row.before typedNameRow [.paramsRest]
  | paramsRest => [(.word ")", []), (.word ",", [.typedName, .paramsRest])]
  | signature =>
    (.word "static", [.mainVoid]) ::
      Row.before typedNameRow [.mark .leftParen false, .params, .mark .leftBrace false, .locals]
  | mainVoid => [(.word "void", [.mainName])]
  | mainName => [(.named "main", [.mainOpen])]
  | mainOpen => [(.word "(", [.mainString])]
  | mainString => [(.named "String", [.mainBracket])]
  | mainBracket =>
    [(.word "[", [.mark .rightBracket false, .anyName, .mark .rightParen false,
      .mark .leftBrace false, .locals])]
  | methods => methodsRow
  | fields =>
    [(.word "int", [.declName true, .fieldEnd]), (.word "boolean", [.declName false, .fieldEnd]),
      (.named "String", [.fieldName true, .fieldEnd]), (.name, [.fieldName false, .fieldEnd])] ++
      methodsRow
  | fieldName array => declNameRow array
  | fieldEnd => [(.word ";", [.fields])]
  | superclass => [(.word "extends", [.superName]), (.word "\x7b", [.fields])]
  | superName => [(.name, [.classOpen])]
  | classOpen => [(.word "\x7b", [.fields])]
  | className => [(.name, [.superclass])]
  | importName => [(.name, [.pathRest])]
  | pathRest => [(.word ".", [.importName]), (.word ";", [.imports])]
  | imports => [(.word "import", [.importName]), (.word "class", [.className])]

/-- What is awaited after a lexeme, if it can come. -/
def Phrase.take (p : Phrase) (l : Lexeme) : Option (List Phrase) := p.row.pick l

/-- Go along lexemes until nothing is awaited any more, which gives the lexemes that are left, or
until a lexeme does not fit, which gives the place and the lexemes from there on. -/
def follow : List Phrase → List Lexeme → Except (Snag × List Lexeme) (List Lexeme)
  | [], ls => .ok ls
  | p :: _, [] => .error (p.snag, [])
  | p :: ps, l :: ls =>
    match p.take l with
    | some qs => follow (qs ++ ps) ls
    | none => .error (p.snag, l :: ls)

/-- What is awaited after lexemes, if each of them fits. -/
def awaited : List Phrase → List Lexeme → Option (List Phrase)
  | X, [] => some X
  | [], _ :: _ => none
  | p :: ps, l :: ls => (p.take l).bind fun qs => awaited (qs ++ ps) ls

/-! ## Picking entries -/

namespace Row

variable {row : Row} {l : Lexeme}

theorem pick_cons_of_fits {t : Trigger} {ps : List Phrase} (fits : t.fits l = true) :
    pick ((t, ps) :: row) l = some ps := by
  simp [pick, fits]

theorem pick_append (entries : Row) (passed : ∀ entry ∈ entries, entry.1.fits l = false) :
    pick (entries ++ row) l = row.pick l := by
  have none : (entries.find? fun entry => entry.1.fits l) = none := by
    rw [List.find?_eq_none]
    intro entry member
    simp [passed entry member]
  rw [pick, List.find?_append, none, Option.none_or, pick]

theorem pick_before (ps : List Phrase) : (row.before ps).pick l = (row.pick l).map (· ++ ps) := by
  induction row with
  | nil => rfl
  | cons entry row ih =>
    obtain ⟨t, qs⟩ := entry
    cases fits : t.fits l with
    | true =>
      rw [before, map_cons, pick_cons_of_fits fits, pick_cons_of_fits fits]
      rfl
    | false =>
      have passed : ∀ rs : List Phrase, ∀ entry ∈ [(t, rs)], entry.1.fits l = false := by
        simp [fits]
      have skip : pick ((t, qs) :: row) l = pick row l := pick_append [(t, qs)] (passed qs)
      rw [skip, ← ih]
      exact pick_append [(t, qs ++ ps)] (passed (qs ++ ps))

theorem before_nil : row.before [] = row := by simp [before]

end Row

/-! ## Following lexemes -/

section

variable {p q : Phrase} {ps qs X Y : List Phrase} {l : Lexeme} {ls r w : List Lexeme} {s : Snag}

theorem follow_nil (ls : List Lexeme) : follow [] ls = .ok ls := by
  cases ls <;> rfl

theorem follow_end : follow (p :: ps) [] = .error (p.snag, []) := rfl

theorem follow_take (taken : p.take l = some qs) :
    follow (p :: ps) (l :: ls) = follow (qs ++ ps) ls := by
  rw [follow, taken]

theorem follow_stuck (stuck : p.take l = none) :
    follow (p :: ps) (l :: ls) = .error (p.snag, l :: ls) := by
  rw [follow, stuck]

theorem follow_append (X Y : List Phrase) (ls : List Lexeme) :
    follow (X ++ Y) ls = (follow X ls).bind (follow Y) := by
  induction ls generalizing X with
  | nil =>
    cases X with
    | nil => rfl
    | cons p ps => rfl
  | cons l ls ih =>
    cases X with
    | nil => rfl
    | cons p ps =>
      rw [cons_append]
      cases taken : p.take l with
      | none =>
        rw [follow_stuck taken, follow_stuck taken]
        rfl
      | some qs => rw [follow_take taken, follow_take taken, ← append_assoc, ih]

theorem follow_append_ok (first : follow X ls = .ok r) : follow (X ++ Y) ls = follow Y r := by
  rw [follow_append, first]
  rfl

theorem follow_append_error {r : Snag × List Lexeme} (first : follow X ls = .error r) :
    follow (X ++ Y) ls = .error r := by
  rw [follow_append, first]
  rfl

theorem follow_skip (qs : List Phrase) (snag : p.snag = q.snag)
    (takes : ∀ l ∈ ls.head?, p.take l = (q.take l).map (· ++ qs)) :
    follow (p :: ps) ls = follow (q :: (qs ++ ps)) ls := by
  cases ls with
  | nil => rw [follow_end, follow_end, snag]
  | cons l ls =>
    have same := takes l rfl
    cases taken : q.take l with
    | none =>
      rw [taken] at same
      rw [follow_stuck same, follow_stuck taken, snag]
    | some rs =>
      rw [taken] at same
      rw [follow_take same, follow_take taken, append_assoc]

/-- The entries of a phrase before those of another one are passed over when none of them fits. -/
theorem follow_skip_row (entries : Row) (qs : List Phrase)
    (row : p.row = entries ++ Row.before q.row qs) (snag : p.snag = q.snag)
    (passed : ∀ l ∈ ls.head?, ∀ entry ∈ entries, entry.1.fits l = false) :
    follow (p :: ps) ls = follow (q :: (qs ++ ps)) ls := by
  refine follow_skip qs snag fun l next => ?_
  rw [Phrase.take, row, Row.pick_append entries (passed l next), Row.pick_before]
  rfl

theorem follow_extend (done : follow X ls = .ok r) (more : List Lexeme) :
    follow X (ls ++ more) = .ok (r ++ more) := by
  induction ls generalizing X with
  | nil =>
    cases X with
    | nil =>
      cases done
      exact follow_nil more
    | cons p ps => cases done
  | cons l ls ih =>
    cases X with
    | nil =>
      cases done
      rfl
    | cons p ps =>
      cases taken : p.take l with
      | none =>
        rw [follow_stuck taken] at done
        cases done
      | some qs =>
        rw [follow_take taken] at done
        rw [cons_append, follow_take taken]
        exact ih done

end

/-! ## What is awaited after lexemes -/

section

variable {p : Phrase} {ps qs X Y Z : List Phrase} {l : Lexeme} {ls r u v w : List Lexeme} {s : Snag}

theorem awaited_nil (X : List Phrase) : awaited X [] = some X := by
  cases X <;> rfl

theorem awaited_take (taken : p.take l = some qs) :
    awaited (p :: ps) (l :: ls) = awaited (qs ++ ps) ls := by
  rw [awaited, taken]
  rfl

theorem awaited_cons (after : awaited X (l :: ls) = some Z) :
    ∃ p ps qs, X = p :: ps ∧ p.take l = some qs ∧ awaited (qs ++ ps) ls = some Z := by
  cases X with
  | nil => cases after
  | cons p ps =>
    obtain ⟨qs, taken, later⟩ := Option.bind_eq_some_iff.mp after
    exact ⟨p, ps, qs, rfl, taken, later⟩

theorem awaited_append (after : awaited X (u ++ v) = some Z) :
    ∃ Y, awaited X u = some Y ∧ awaited Y v = some Z := by
  induction u generalizing X with
  | nil => exact ⟨X, awaited_nil X, after⟩
  | cons l u ih =>
    obtain ⟨p, ps, qs, rfl, taken, later⟩ := awaited_cons after
    obtain ⟨Y, first, second⟩ := ih later
    exact ⟨Y, (awaited_take taken).trans first, second⟩

/-- **What is awaited at a lexeme depends on the lexemes before it alone.** -/
theorem follow_of_awaited (after : awaited X w = some Z) (more : List Lexeme) :
    follow X (w ++ more) = follow Z more := by
  induction w generalizing X with
  | nil =>
    rw [awaited_nil] at after
    cases after
    rfl
  | cons l w ih =>
    obtain ⟨p, ps, qs, rfl, taken, later⟩ := awaited_cons after
    rw [cons_append, follow_take taken]
    exact ih later

theorem awaited_of_error (stopped : follow X ls = .error (s, r)) :
    ∃ w p ps, ls = w ++ r ∧ awaited X w = some (p :: ps) ∧ p.snag = s ∧
      ∀ l ∈ r.head?, p.take l = none := by
  induction ls generalizing X with
  | nil =>
    cases X with
    | nil => cases stopped
    | cons p ps =>
      cases stopped
      exact ⟨[], p, ps, rfl, rfl, rfl, by simp⟩
  | cons l ls ih =>
    cases X with
    | nil => cases stopped
    | cons p ps =>
      cases taken : p.take l with
      | none =>
        rw [follow_stuck taken] at stopped
        cases stopped
        exact ⟨[], p, ps, rfl, rfl, rfl, by simpa using taken⟩
      | some qs =>
        rw [follow_take taken] at stopped
        obtain ⟨w, q, rs, rfl, after, stuck⟩ := ih stopped
        exact ⟨l :: w, q, rs, rfl, (awaited_take taken).trans after, stuck⟩

theorem awaited_of_ok (done : follow X ls = .ok r) : ∃ w, ls = w ++ r ∧ awaited X w = some [] := by
  induction ls generalizing X with
  | nil =>
    cases X with
    | nil =>
      cases done
      exact ⟨[], rfl, rfl⟩
    | cons p ps => cases done
  | cons l ls ih =>
    cases X with
    | nil =>
      cases done
      exact ⟨[], rfl, rfl⟩
    | cons p ps =>
      cases taken : p.take l with
      | none =>
        rw [follow_stuck taken] at done
        cases done
      | some qs =>
        rw [follow_take taken] at done
        obtain ⟨w, rfl, after⟩ := ih done
        exact ⟨l :: w, rfl, (awaited_take taken).trans after⟩

theorem awaited_keeps {I : List Phrase → Prop} {P : Lexeme → Prop}
    (keeps : ∀ p ps l qs, P l → I (p :: ps) → p.take l = some qs → I (qs ++ ps))
    (start : I X) (each : ∀ l ∈ w, P l) (after : awaited X w = some Z) : I Z := by
  induction w generalizing X with
  | nil =>
    rw [awaited_nil] at after
    cases after
    exact start
  | cons l w ih =>
    obtain ⟨first, others⟩ := forall_mem_cons.mp each
    obtain ⟨p, ps, qs, rfl, taken, later⟩ := awaited_cons after
    exact ih (keeps p ps l qs first start taken) others later

end

/-! ## Phrases that may be missing -/

theorem Trigger.fits_word (s : String) (l : Lexeme) : (word s).fits l = decide (l = fixed s) := by
  cases l with
  | name | number => simp [fits]
  | fixed s' => simp [fits, eq_comm]

theorem Trigger.fits_name {l : Lexeme} (noName : ∀ s, l ≠ .name s) : name.fits l = false := by
  cases l with
  | name s => exact absurd rfl (noName s)
  | number | fixed => rfl

theorem Trigger.fits_named {l : Lexeme} (noName : ∀ s, l ≠ .name s) (s : String) :
    (named s).fits l = false := by
  cases l with
  | name s => exact absurd rfl (noName s)
  | number | fixed => rfl

section Missing

variable {p q : Phrase} {k : Closer} {z : Bool} {ps : List Phrase} {ls : List Lexeme}

theorem follow_skip_words (words : List (String × List Phrase)) (qs : List Phrase)
    (row : p.row = words.map (fun e => (.word e.1, e.2)) ++ Row.before q.row qs)
    (snag : p.snag = q.snag) (others : ∀ s ∈ words.map Prod.fst, ls.head? ≠ some (fixed s)) :
    follow (p :: ps) ls = follow (q :: (qs ++ ps)) ls := by
  refine follow_skip_row _ qs row snag fun l next entry member => ?_
  obtain ⟨e, isWord, rfl⟩ := mem_map.mp member
  rw [Trigger.fits_word, decide_eq_false_iff_not]
  rintro rfl
  exact others e.1 (mem_map_of_mem isWord) next

theorem follow_args (noEnd : ls.head? ≠ some (fixed ")")) :
    follow (.args k z :: ps) ls = follow (.expr .argument z :: .tail k z :: ps) ls :=
  follow_skip_words [(")", [.tail k z])] [.tail k z] rfl rfl (by simpa using noEnd)

theorem follow_lengthTail (noCall : ls.head? ≠ some (fixed "(")) :
    follow (.lengthTail k z :: ps) ls = follow (.tail k z :: ps) ls :=
  follow_skip_words [("(", [.args k z])] [] (congrArg _ Row.before_nil.symm) rfl
    (by simpa using noCall)

theorem follow_block (noEnd : ls.head? ≠ some (fixed "\x7d")) :
    follow (.block :: ps) ls = follow (.stmt :: .block :: ps) ls :=
  follow_skip_words [("\x7d", [])] [.block] rfl rfl (by simpa using noEnd)

theorem follow_body (noEnd : ls.head? ≠ some (fixed "\x7d"))
    (noReturn : ls.head? ≠ some (fixed "return")) :
    follow (.body :: ps) ls = follow (.stmt :: .body :: ps) ls :=
  follow_skip_words [("\x7d", []), ("return", [.returnRest, .mark .rightBrace false])] [.body] rfl
    rfl
    (by simpa using ⟨noEnd, noReturn⟩)

theorem follow_nameStmt (noAssign : ls.head? ≠ some (fixed "="))
    (noIndex : ls.head? ≠ some (fixed "[")) :
    follow (.nameStmt :: ps) ls = follow (.tail .semicolon false :: ps) ls :=
  follow_skip_words
    [("=", [.expr .semicolon false]), ("[", [.expr .bracket false, .elementStmt])] [] rfl rfl
    (by simpa using ⟨noAssign, noIndex⟩)

theorem follow_elementStmt (noAssign : ls.head? ≠ some (fixed "=")) :
    follow (.elementStmt :: ps) ls = follow (.tail .semicolon false :: ps) ls :=
  follow_skip_words [("=", [.expr .semicolon true])] [] rfl rfl (by simpa using noAssign)

theorem follow_returnRest (noEnd : ls.head? ≠ some (fixed ";")) :
    follow (.returnRest :: ps) ls = follow (.expr .semicolon false :: ps) ls :=
  follow_skip_words [(";", [])] [] rfl rfl (by simpa using noEnd)

theorem follow_params (noEnd : ls.head? ≠ some (fixed ")")) :
    follow (.params :: ps) ls = follow (.typedName :: .paramsRest :: ps) ls :=
  follow_skip_words [(")", [])] [.paramsRest] rfl rfl (by simpa using noEnd)

theorem follow_signature (noStatic : ls.head? ≠ some (fixed "static")) :
    follow (.signature :: ps) ls =
      follow (.typedName :: .mark .leftParen false :: .params :: .mark .leftBrace false ::
        .locals :: ps) ls :=
  follow_skip_words [("static", [.mainVoid])]
    [.mark .leftParen false, .params, .mark .leftBrace false, .locals] rfl rfl
    (by simpa using noStatic)

theorem follow_superclass (noSuper : ls.head? ≠ some (fixed "extends")) :
    follow (.superclass :: ps) ls = follow (.classOpen :: ps) ls :=
  follow_skip_words [("extends", [.superName])] [] rfl rfl (by simpa using noSuper)

end Missing

/-! ## Facts about all rows -/

/-- All phrases. -/
def Phrase.all : List Phrase :=
  [anyName, stmt, nameStmt, elementStmt, block, locals, body, returnRest, typedName, params,
    paramsRest, signature, mainVoid, mainName, mainOpen, mainString, mainBracket, methods, fields,
    fieldEnd, superclass, superName, classOpen, className, importName, pathRest, imports] ++
  [true, false].flatMap fun b =>
    [localName b, declName b, fieldName b] ++
    [Mark.leftParen, .rightParen, .leftBracket, .rightBracket, .leftBrace, .rightBrace, .semicolon,
      .otherwise].map (mark · b) ++
    [Closer.paren, .bracket, .argument, .semicolon].flatMap fun k =>
      [expr k b, creation k b, tail k b, member k b, lengthTail k b, args k b]

theorem Phrase.mem_all (p : Phrase) : p ∈ all := by
  cases p with
  | mark m b => cases b <;> cases m <;> decide
  | expr k b | creation k b | tail k b | member k b | lengthTail k b | args k b =>
    cases b <;> cases k <;> decide
  | localName b | declName b | fieldName b => cases b <;> decide
  | _ => decide

theorem Phrase.forall_of_all {P : Phrase → Prop} [DecidablePred P]
    (checked : (all.all fun p => decide (P p)) = true) (p : Phrase) : P p :=
  of_decide_eq_true (all_eq_true.mp checked p p.mem_all)

theorem Phrase.mem_row_of_take {p : Phrase} {l : Lexeme} {qs : List Phrase}
    (taken : p.take l = some qs) : ∃ t, (t, qs) ∈ p.row ∧ t.fits l = true := by
  rw [take, Row.pick, Option.map_eq_some_iff] at taken
  obtain ⟨entry, found, rfl⟩ := taken
  have fits := List.find?_some found
  exact ⟨entry.1, mem_of_find?_eq_some found, fits⟩

/-! ## Inside the value of an element -/

/-- Part of an expression that does not end the value of an element. -/
def Phrase.isInside : Phrase → Bool
  | mark m element => element && m != .semicolon
  | expr k element | creation k element | tail k element | member k element | lengthTail k element
  | args k element => element && k != .semicolon
  | _ => false

/-- The rest of an expression that ends the value of an element. -/
def Phrase.endsValue : Phrase → Bool
  | expr k element | creation k element | tail k element | member k element | lengthTail k element
  | args k element => element && k == .semicolon
  | _ => false

/-- Phrases inside the value of an element, of which the last ends it. -/
def fillsValue : List Phrase → Bool
  | [] => false
  | [p] => p.endsValue
  | p :: q :: ps => p.isInside && fillsValue (q :: ps)

/-- The rest of the value of an element is awaited, and then other phrases. -/
inductive InValue (behind : List Phrase) : List Phrase → Prop where
  | last {p : Phrase} : p.endsValue = true → InValue behind (p :: behind)
  | inside {p : Phrase} {X : List Phrase} : p.isInside = true → InValue behind X →
      InValue behind (p :: X)

theorem Phrase.row_inside : ∀ p : Phrase, p.isInside = true →
    ∀ entry ∈ p.row, entry.1 ≠ .word ";" ∧ ∀ q ∈ entry.2, q.isInside = true :=
  forall_of_all (by decide +kernel)

theorem Phrase.row_endsValue : ∀ p : Phrase, p.endsValue = true →
    ∀ entry ∈ p.row, entry.1 = .word ";" ∧ entry.2 = [] ∨
      entry.1 ≠ .word ";" ∧ fillsValue entry.2 = true :=
  forall_of_all (by decide +kernel)

theorem Phrase.snag_in_value : ∀ p : Phrase, (p.isInside || p.endsValue) = true →
    p.snag = .element :=
  forall_of_all (by decide +kernel)

theorem Phrase.take_assign_in_value : ∀ p : Phrase, (p.isInside || p.endsValue) = true →
    p.take (fixed "=") = none :=
  forall_of_all (by decide +kernel)

namespace InValue

variable {behind X Z qs : List Phrase} {p : Phrase} {l : Lexeme} {ls v r : List Lexeme} {s : Snag}

theorem snag (inValue : InValue behind (p :: X)) : p.snag = .element := by
  cases inValue with
  | last ends => exact p.snag_in_value (by rw [ends, Bool.or_true])
  | inside inside => exact p.snag_in_value (by rw [inside, Bool.true_or])

theorem take_assign (inValue : InValue behind (p :: X)) : p.take (fixed "=") = none := by
  cases inValue with
  | last ends => exact p.take_assign_in_value (by rw [ends, Bool.or_true])
  | inside inside => exact p.take_assign_in_value (by rw [inside, Bool.true_or])

theorem append (inside : ∀ q ∈ qs, q.isInside = true) (inValue : InValue behind X) :
    InValue behind (qs ++ X) := by
  induction qs with
  | nil => exact inValue
  | cons q qs ih =>
    rw [forall_mem_cons] at inside
    exact .inside inside.1 (ih inside.2)

theorem of_fills (fills : fillsValue qs = true) : InValue behind (qs ++ behind) := by
  fun_induction fillsValue qs with
  | case1 => cases fills
  | case2 p => exact .last fills
  | case3 p q ps ih =>
    rw [Bool.and_eq_true] at fills
    exact .inside fills.1 (ih fills.2)

/-- A lexeme that is taken inside the value leads on inside it, and a semicolon behind it. -/
theorem step (inValue : InValue behind (p :: X)) (taken : p.take l = some qs) :
    l = fixed ";" ∧ qs ++ X = behind ∨ l ≠ fixed ";" ∧ InValue behind (qs ++ X) := by
  obtain ⟨t, entry, fits⟩ := Phrase.mem_row_of_take taken
  have other : t ≠ .word ";" → l ≠ fixed ";" := by
    rintro noSign rfl
    cases t with
    | word text =>
      rw [Trigger.fits_word, decide_eq_true_eq] at fits
      exact noSign (by rw [Lexeme.fixed.inj fits])
    | name | named | number => cases fits
  cases inValue with
  | inside inside inValue =>
    obtain ⟨noSign, each⟩ := p.row_inside inside _ entry
    exact .inr ⟨other noSign, inValue.append each⟩
  | last ends =>
    rcases p.row_endsValue ends _ entry with ⟨rfl, rfl⟩ | ⟨noSign, fills⟩
    · rw [Trigger.fits_word, decide_eq_true_eq] at fits
      exact .inl ⟨fits, rfl⟩
    · exact .inr ⟨other noSign, of_fills fills⟩

/-- As long as no semicolon comes, the value goes on. No assignment sign comes in it either. -/
theorem awaited (inValue : InValue behind X) (noSign : fixed ";" ∉ v)
    (after : awaited X v = some Z) : InValue behind Z ∧ fixed "=" ∉ v := by
  induction v generalizing X with
  | nil =>
    rw [awaited_nil] at after
    cases after
    exact ⟨inValue, not_mem_nil⟩
  | cons l v ih =>
    rw [mem_cons, not_or] at noSign
    obtain ⟨p, X, qs, rfl, taken, later⟩ := awaited_cons after
    obtain ⟨isSign, _⟩ | ⟨_, inside⟩ := inValue.step taken
    · exact absurd isSign.symm noSign.1
    · obtain ⟨inValue', noAssign⟩ := ih inside noSign.2 later
      refine ⟨inValue', ?_⟩
      rw [mem_cons, not_or]
      refine ⟨?_, noAssign⟩
      rintro rfl
      rw [inValue.take_assign] at taken
      cases taken

theorem no_semicolon (inValue : InValue [] X) (stopped : follow X ls = .error (s, r)) :
    ∃ v, ls = v ++ r ∧ fixed ";" ∉ v := by
  obtain ⟨v, p, ps, split, after, _, _⟩ := awaited_of_error stopped
  refine ⟨v, split, fun member => ?_⟩
  -- The first semicolon would end the value.
  obtain ⟨u, w, rfl, noSign⟩ := eq_append_cons_of_mem member
  obtain ⟨Y, first, second⟩ := awaited_append after
  obtain ⟨inside, _⟩ := inValue.awaited noSign first
  obtain ⟨q, Y, qs, rfl, taken, later⟩ := awaited_cons second
  obtain ⟨_, ended⟩ | ⟨other, _⟩ := inside.step taken
  · rw [ended] at later
    cases w <;> cases later
  · exact other rfl

end InValue

/-! ## Completion -/

/-- How an expression can end at once. -/
def Closer.text : Closer → String
  | paren => ")"
  | bracket => "]"
  | argument => ")"
  | semicolon => ";"

/-- Lexemes that bring an awaited phrase to an end. -/
def Phrase.completion : Phrase → List Lexeme
  | mark m _ => [fixed m.text]
  | anyName | declName _ | fieldName _ => [.name "a"]
  | expr k _ => [fixed "this", fixed k.text]
  | creation k _ => [.name "a", fixed "(", fixed ")", fixed k.text]
  | tail k _ | lengthTail k _ => [fixed k.text]
  | member k _ => [.name "length", fixed k.text]
  | args k _ => [fixed ")", fixed k.text]
  | stmt => [fixed "\x7b", fixed "\x7d"]
  | nameStmt | elementStmt | returnRest => [fixed ";"]
  | block | locals | body | methods | fields => [fixed "\x7d"]
  | localName _ | fieldEnd => [fixed ";", fixed "\x7d"]
  | typedName => [fixed "int", .name "a"]
  | params | paramsRest => [fixed ")"]
  | signature =>
    [fixed "int", .name "a", fixed "(", fixed ")", fixed "\x7b", fixed "\x7d"]
  | mainVoid => fixed "void" :: .name "main" :: fixed "(" :: .name "String" :: fixed "[" :: mainRest
  | mainName => .name "main" :: fixed "(" :: .name "String" :: fixed "[" :: mainRest
  | mainOpen => fixed "(" :: .name "String" :: fixed "[" :: mainRest
  | mainString => .name "String" :: fixed "[" :: mainRest
  | mainBracket => fixed "[" :: mainRest
  | superclass | classOpen => [fixed "\x7b", fixed "\x7d"]
  | superName | className => [.name "a", fixed "\x7b", fixed "\x7d"]
  | importName => .name "a" :: fixed ";" :: emptyClass
  | pathRest => fixed ";" :: emptyClass
  | imports => emptyClass
where
  /-- The rest of `main` behind the first bracket. -/
  mainRest : List Lexeme := [fixed "]", .name "a", fixed ")", fixed "\x7b", fixed "\x7d"]
  /-- A class without members. -/
  emptyClass : List Lexeme := [fixed "class", .name "a", fixed "\x7b", fixed "\x7d"]

theorem Phrase.follow_completion (p : Phrase) : follow [p] p.completion = .ok [] := by
  cases p with
  | mark m z => cases m <;> rfl
  | expr k | creation k | tail k | member k | lengthTail k | args k => cases k <;> rfl
  | localName array | declName array | fieldName array => cases array <;> rfl
  | _ => rfl

/-- **Whatever is awaited can be brought to an end.** -/
theorem follow_completion (ps : List Phrase) :
    follow ps (ps.flatMap Phrase.completion) = .ok [] := by
  induction ps with
  | nil => rfl
  | cons p ps ih =>
    have first := follow_extend p.follow_completion (ps.flatMap Phrase.completion)
    rw [nil_append] at first
    rw [flatMap_cons]
    exact (follow_append_ok first).trans ih

end JavaMinus.Syntax
