import JavaMinus.Proofs.FollowedReaders
import JavaMinus.Proofs.RoundTrip

/-!
# Reading a file goes along its phrases

The comparison of readers with awaited phrases goes on with declarations, statements, methods and
classes. Mostly the place that is named for a problem is that of the lexeme that does not fit.
There are five exceptions, which `Shown` lists:

* in a value that is assigned to an element of an array, the sign of the assignment is named,
  since the statement is read as an expression when it is no assignment;
* behind a name in the fields of a class, that name is named, since it starts no declaration;
* a static method with another name than `main` is named at its start;
* the parameter of `main` is named when it is `String` without brackets;
* the parameter of `main` is read as any type, so behind `int [` another lexeme is named than
  `int`, which does not fit already.
-/

namespace JavaMinus.Syntax

open List

open Lexeme (fixed)

variable {α β : Type}

/-! ## Places of problems -/

/-- A lexeme that does not fit at a place of this kind is named itself. -/
def Snag.IsShown : Snag → List Lexeme → Prop
  | plain, _ => True
  | mainName, ls => ∀ name, ls.head? ≠ some (.name name)
  | mainString, ls => ∀ more, ls = fixed "int" :: fixed "[" :: more → more.head? = some (fixed "]")
  | element, _ | fieldName, _ | mainBracket, _ => False

/-- The lexemes of `main` up to its parameter. -/
def mainStart : List Lexeme :=
  [fixed "public", fixed "static", fixed "void", .name "main", fixed "("]

/-- The place that is named when the lexeme at the second cursor does not fit. -/
inductive Shown (c : Cursor) : Snag → Cursor → Pos → Prop where
  | here {s : Snag} {d : Cursor} : s.IsShown d.lexemes → Shown c s d d.pos
  | element {a b d : Cursor} {value : List Lexeme} :
      c.Later a → a.Passes (fixed "]") b → b.lexemes = fixed "=" :: (value ++ d.lexemes) →
      fixed ";" ∉ value → Shown c .element d b.pos
  | field {b d : Cursor} {name : String} :
      c.Later b → b.Passes (.name name) d → Shown c .fieldName d b.pos
  | static {b d : Cursor} {name : String} :
      c.Later b →
      b.lexemes = fixed "public" :: fixed "static" :: fixed "void" :: d.lexemes →
      d.lexemes.head? = some (.name name) → Shown c .mainName d b.pos
  | noBrackets {a b d : Cursor} :
      c.Later a → a.Later b → a.lexemes = mainStart ++ b.lexemes → b.Passes (.name "String") d →
      Shown c .mainBracket d b.pos
  | otherBrackets {a d : Cursor} {more : List Lexeme} :
      c.Later a → a.lexemes = mainStart ++ d.lexemes →
      d.lexemes = fixed "int" :: fixed "[" :: more → more.head? ≠ some (fixed "]") →
      Shown c .mainString d d.advance.advance.pos

/-- The places that are named in files. -/
def shown : Showing where
  Shows := Shown
  earlier := by
    rintro b c d s p later (here | ⟨later', passes, value, noEnd⟩ | ⟨later', passes⟩ |
      ⟨later', lexemes, name⟩ | ⟨later', later'', lexemes, passes⟩ |
      ⟨later', start, lexemes, other⟩)
    · exact .here here
    · exact .element (later.trans later') passes value noEnd
    · exact .field (later.trans later') passes
    · exact .static (later.trans later') lexemes name
    · exact .noBrackets (later.trans later') later'' lexemes passes
    · exact .otherBrackets (later.trans later') start lexemes other

theorem take_anyName {l : Lexeme} (noName : ∀ name, l ≠ .name name) :
    Phrase.anyName.take l = none := by
  simp [Phrase.take, Phrase.row, Row.pick, Trigger.fits_name noName]

namespace Follows

variable {c : Cursor} {p : Phrase} {X ps : List Phrase} {r : Reading α} {Y : α → List Phrase}
  {Z : β → List Phrase} {Q : α → Cursor → Prop} {R : β → Cursor → Prop}

/-- Inside an expression that is not assigned to an element, lexemes that do not fit are named
themselves. -/
theorem of_atLexeme (follows : Follows (atLexeme false) c X r Y Q) : Follows shown c X r Y Q := by
  refine follows.weaken ?_
  rintro s d q ⟨rfl, rfl⟩
  exact .here trivial

theorem sign {f : Unit → Reading β} (n : Mark)
    (second : ∀ d, c.Passes (fixed n.text) d → Follows shown d ps (f ()) Z R) :
    Follows shown c (.mark n false :: ps) (Reading.expect n.text >>= f) Z R :=
  .word rfl (.here trivial) second

theorem name {f : String → Reading β}
    (second : ∀ name d, c.Passes (.name name) d → Follows shown d ps (f name) Z R) :
    Follows shown c (.anyName :: ps) (Reading.ident >>= f) Z R :=
  .anyName rfl (.here trivial) second

end Follows

theorem run_expect_true {c : Cursor} {s : String} (next : c.nextIs s = true) :
    Reading.expect s c = .ok ((), c.advance) := by
  rw [Reading.expect, Reading.run_bind_ok (run_accept_true next)]
  rfl

theorem run_expect_false {c : Cursor} {s : String} (other : c.nextIs s = false) :
    Reading.expect s c = .error ⟨c.pos, .expected (.fixed s) c.head?⟩ := by
  rw [Reading.expect, Reading.run_bind_ok (run_accept_false other)]
  rfl

/-! ## Declarations -/

section

variable {c : Cursor} {ps : List Phrase} {l : Lexeme} {ls : List Lexeme}

theorem take_declName_none {array : Bool} (noName : ∀ name, l ≠ .name name)
    (noBracket : array = true → l ≠ fixed "[") : (Phrase.declName array).take l = none := by
  cases array with
  | false => simp [Phrase.take, Phrase.row, declNameRow, Row.pick, Trigger.fits_name noName]
  | true =>
    simp [Phrase.take, Phrase.row, declNameRow, Row.pick, Trigger.fits_name noName,
      Trigger.fits_word, noBracket rfl]

theorem follow_declName {array : Bool} (noBracket : array = true → ls.head? ≠ some (fixed "[")) :
    follow (.declName array :: ps) ls = follow (.anyName :: ps) ls := by
  refine follow_skip [] rfl fun l next => ?_
  cases l with
  | name s => cases array <;> rfl
  | number | fixed =>
    rw [take_anyName (by simp), take_declName_none (by simp)]
    · rfl
    · intro isArray same
      exact noBracket isArray (same ▸ next)

/-- The types whose name may be followed by brackets. -/
def mayBeArray (name : String) : Bool := name = "int" ∨ name = "String"

theorem follows_brackets (c : Cursor) (name : String) :
    Follows shown c (.declName (mayBeArray name) :: ps) (brackets name) (fun _ => .anyName :: ps)
      fun _ _ => True := by
  unfold brackets
  split
  case isTrue allowed =>
    rw [show mayBeArray name = true from decide_eq_true allowed]
    refine .accept rfl (fun d passes => .sign .rightBracket fun d₁ passes₁ => .pure rfl trivial) ?_
    exact fun noBracket => .skip (follow_declName fun _ => noBracket) (.pure rfl trivial)
  case isFalse plain =>
    rw [show mayBeArray name = false from decide_eq_false plain]
    exact .skip (follow_declName (by simp)) (.pure rfl trivial)

theorem take_name_of {p : Phrase} {rest : Row} (entries : Row) (qs : Bool → List Phrase)
    (row : p.row = entries ++ ((.named "String", qs true) :: (.name, qs false) :: rest))
    (words : ∀ entry ∈ entries, ∃ s, entry.1 = .word s) (s : String) :
    p.take (.name s) = some (qs (s = "String")) := by
  rw [Phrase.take, row, Row.pick_append]
  · by_cases isString : s = "String"
    · subst isString
      rfl
    · have other : "String" ≠ s := fun same => isString same.symm
      simp [Row.pick, Trigger.fits, other, isString]
  · intro entry member
    obtain ⟨text, isWord⟩ := words entry member
    rw [isWord, Trigger.fits_word]
    simp

theorem take_typedName_name (s : String) :
    Phrase.typedName.take (.name s) = some [.declName (s = "String")] :=
  take_name_of [] (fun array => [.declName array]) rfl (by simp) s

theorem take_typedName {name : String}
    (isType : l = .name name ∧ name ≠ "int" ∨ l = fixed name ∧ name ∈ ["int", "boolean", "void"]) :
    Phrase.typedName.take l = some [.declName (mayBeArray name)] := by
  rcases isType with ⟨rfl, noInt⟩ | ⟨rfl, basic⟩
  · rw [take_typedName_name]
    simp [mayBeArray, noInt]
  · simp only [mem_cons, not_mem_nil, or_false] at basic
    rcases basic with rfl | rfl | rfl
    all_goals rfl

theorem take_typedName_none (noName : ∀ name, l ≠ .name name)
    (noType : ∀ s ∈ ["int", "boolean", "void"], l ≠ fixed s) : Phrase.typedName.take l = none := by
  simp only [mem_cons, not_mem_nil, or_false, forall_eq_or_imp, forall_eq] at noType
  simp [Phrase.take, Phrase.row, typedNameRow, Row.pick, Trigger.fits_name noName,
    Trigger.fits_named noName, Trigger.fits_word, noType]

theorem follows_typeExpr (c : Cursor) :
    Follows shown c (.typedName :: ps) typeExpr (fun _ => .anyName :: ps)
      fun _ d => d.left < c.left := by
  intro plain
  refine Follows.pos (Follows.get ?_) plain
  split
  case h_1 name found =>
    obtain ⟨rest, here⟩ := head_of_typeName? found
    obtain ⟨l, next, taken⟩ : ∃ l, c.head? = some l ∧
        Phrase.typedName.take l = some [.declName (mayBeArray name)] := by
      rw [Cursor.head?_eq]
      rcases here with here | ⟨here, basic⟩
      · refine ⟨_, by rw [here]; rfl, take_typedName (.inl ⟨rfl, ?_⟩)⟩
        rintro rfl
        exact plain "int" (here ▸ mem_cons_self) (by decide)
      · exact ⟨_, by rw [here]; rfl, take_typedName (.inr ⟨rfl, basic⟩)⟩
    have passes := Cursor.passes_of_head? next
    refine .advance passes taken ((follows_brackets _ name).bind fun array d later _ => ?_)
    refine .pure rfl ?_
    grind
  case h_2 none =>
    refine .unexpected (fun l next => ?_) (.here trivial)
    rw [← Cursor.head?_eq] at next
    unfold Cursor.typeName? at none
    rw [next] at none
    refine take_typedName_none ?_ ?_
    · rintro name rfl
      simp at none
    · rintro s basic rfl
      simp only [if_pos basic] at none
      cases none

theorem follows_typedName (c : Cursor) : Follows shown c (.typedName :: ps) typedName (fun _ => ps)
      fun _ d => d.left < c.left := by
  refine .pos ((follows_typeExpr c).bind fun t d later shorter => .name fun name d₁ passes => ?_)
  exact .pure rfl (by grind)

theorem follows_varDecl (c : Cursor) {q : Phrase} {qs rs : List Phrase}
    (row : q.row = [(.word ";", qs)]) (plain : q.snag = .plain) (behind : qs ++ ps = rs) :
    Follows shown c (.typedName :: q :: ps) varDecl (fun _ => rs)
      fun _ d => d.left < c.left := by
  refine (follows_typedName c).bind fun t d later shorter => ?_
  refine .word row ?_ fun d₁ passes => .pure behind (by grind)
  rw [plain]
  exact .here trivial

theorem lexemes_of_atVarDecl (decl : c.atVarDecl = true) :
    (∃ s ∈ ["int", "boolean"], ∃ rest, c.lexemes = fixed s :: rest) ∨
      (∃ s s' rest, c.lexemes = .name s :: .name s' :: rest) ∨
        ∃ rest, c.lexemes = .name "String" :: fixed "[" :: rest := by
  unfold Cursor.atVarDecl at decl
  split at decl
  case h_1 s first =>
    obtain ⟨rest, here⟩ := cons_of_head? first
    exact .inl ⟨s, by simpa using decl, rest, here⟩
  case h_2 first second =>
    obtain ⟨rest, here⟩ := cons_of_heads first second
    exact .inr (.inl ⟨_, _, rest, here⟩)
  case h_3 s b first second =>
    obtain ⟨rest, here⟩ := cons_of_heads first second
    simp only [Bool.and_eq_true, decide_eq_true_eq] at decl
    obtain ⟨rfl, rfl⟩ := decl
    exact .inr (.inr ⟨rest, here⟩)
  case h_4 => cases decl

theorem noDecl_name {s : String} (noDecl : c.atVarDecl = false) (here : c.lexemes = .name s :: ls) :
    (∀ s', ls.head? ≠ some (.name s')) ∧ (s = "String" → ls.head? ≠ some (fixed "[")) := by
  unfold Cursor.atVarDecl at noDecl
  rw [Cursor.head?_eq, Cursor.second?_eq, here] at noDecl
  constructor
  · intro s' next
    simp [next] at noDecl
  · rintro rfl next
    simp [next] at noDecl

theorem noDecl_fixed {s : String} (noDecl : c.atVarDecl = false)
    (here : c.lexemes = fixed s :: ls) : s ≠ "int" ∧ s ≠ "boolean" := by
  unfold Cursor.atVarDecl at noDecl
  rw [Cursor.head?_eq, here] at noDecl
  simpa using noDecl

theorem take_locals_name (s : String) :
    Phrase.locals.take (.name s) = some [.localName (s = "String")] :=
  take_name_of [(.word "int", _), (.word "boolean", _)] (fun array => [.localName array]) rfl
    (by simp) s

theorem take_fields_name (s : String) :
    Phrase.fields.take (.name s) = some [.fieldName (s = "String"), .fieldEnd] :=
  take_name_of [(.word "int", _), (.word "boolean", _)]
    (fun array => [.fieldName array, .fieldEnd]) rfl (by simp) s

theorem follow_decl {X Y : List Phrase} (decl : c.atVarDecl = true)
    (ints : ∀ ls, follow X (fixed "int" :: ls) = follow Y (fixed "int" :: ls))
    (booleans : ∀ ls, follow X (fixed "boolean" :: ls) = follow Y (fixed "boolean" :: ls))
    (named : ∀ s s' ls, follow X (.name s :: .name s' :: ls) = follow Y (.name s :: .name s' :: ls))
    (arrays : ∀ ls, follow X (.name "String" :: fixed "[" :: ls) =
      follow Y (.name "String" :: fixed "[" :: ls)) :
    follow X c.lexemes = follow Y c.lexemes := by
  obtain ⟨s, basic, rest, here⟩ | ⟨s, s', rest, here⟩ | ⟨rest, here⟩ := lexemes_of_atVarDecl decl
  · rw [here]
    rcases mem_pair.mp basic with rfl | rfl
    · exact ints rest
    · exact booleans rest
  · rw [here]
    exact named s s' rest
  · rw [here]
    exact arrays rest

theorem follow_locals_decl (decl : c.atVarDecl = true) : follow (.locals :: ps) c.lexemes =
      follow (.typedName :: .mark .semicolon false :: .locals :: ps) c.lexemes := by
  refine follow_decl decl (fun _ => rfl) (fun _ => rfl) (fun s s' ls => ?_) fun _ => rfl
  rw [follow_take (take_locals_name s), follow_take (take_typedName_name s)]
  rfl

theorem follow_fields_decl (decl : c.atVarDecl = true) :
    follow (.fields :: ps) c.lexemes = follow (.typedName :: .fieldEnd :: ps) c.lexemes := by
  refine follow_decl decl (fun _ => rfl) (fun _ => rfl) (fun s s' ls => ?_) fun _ => rfl
  rw [follow_take (take_fields_name s), follow_take (take_typedName_name s)]
  rfl

/-- Where no declaration comes next, the entries of declarations do not fit, unless a name is
next. -/
theorem passed_decls {entries : Row} (noDecl : c.atVarDecl = false)
    (noName : ∀ s, c.lexemes.head? ≠ some (.name s))
    (triggers : ∀ entry ∈ entries,
      entry.1 ∈ [.word "int", .word "boolean", .named "String", .name]) :
    ∀ l ∈ c.lexemes.head?, ∀ entry ∈ entries, entry.1.fits l = false := by
  intro l next entry member
  have isDecl := triggers entry member
  cases l with
  | name s => exact absurd next (noName s)
  | number digits =>
    simp only [mem_cons, not_mem_nil, or_false] at isDecl
    rcases isDecl with same | same | same | same
    all_goals rw [same]; rfl
  | fixed s =>
    obtain ⟨rest, here⟩ := List.head?_eq_some_iff.mp next
    obtain ⟨noInt, noBoolean⟩ := noDecl_fixed noDecl here
    simp only [mem_cons, not_mem_nil, or_false] at isDecl
    rcases isDecl with same | same | same | same
    · rw [same, Trigger.fits_word]
      simp [noInt]
    · rw [same, Trigger.fits_word]
      simp [noBoolean]
    · rw [same]
      rfl
    · rw [same]
      rfl

/-- Behind the declarations of a body its statements begin, also where a name comes next: what
follows the name tells that it starts a statement. -/
theorem follow_locals_body (noDecl : c.atVarDecl = false) :
    follow (.locals :: ps) c.lexemes = follow (.body :: ps) c.lexemes := by
  by_cases named : ∃ s, c.lexemes.head? = some (.name s)
  · obtain ⟨s, next⟩ := named
    obtain ⟨rest, here⟩ := List.head?_eq_some_iff.mp next
    obtain ⟨noName, noBracket⟩ := noDecl_name noDecl here
    have statement : Phrase.body.take (.name s) = some [.nameStmt, .body] := rfl
    rw [here, follow_take (take_locals_name s), follow_take statement]
    refine follow_skip [.body] rfl fun l second => ?_
    have skipped : Row.pick (Row.before (declNameRow (s = "String"))
        [.mark .semicolon false, .locals] ++ Row.before nameStmtRow [.body]) l =
        Row.pick (Row.before nameStmtRow [.body]) l := by
      refine Row.pick_append _ fun entry member => ?_
      obtain ⟨e, isDecl, rfl⟩ := mem_map.mp member
      have other : ∀ s', l ≠ .name s' := fun s' => ne_of_head? (noName s') second
      rcases mem_cons.mp isDecl with rfl | isBracket
      · exact Trigger.fits_name other
      · split at isBracket
        case isFalse => cases isBracket
        case isTrue isString =>
          obtain rfl := mem_singleton.mp isBracket
          rw [Trigger.fits_word, decide_eq_false_iff_not]
          exact ne_of_head? (noBracket (of_decide_eq_true isString)) second
    exact skipped.trans (Row.pick_before _)
  · push Not at named
    refine follow_skip_row (q := .body) [(.word "int", _), (.word "boolean", _),
      (.named "String", _), (.name, _)] [] rfl rfl (passed_decls noDecl named (by simp))

theorem follow_fields_methods (noDecl : c.atVarDecl = false)
    (noName : ∀ s, c.lexemes.head? ≠ some (.name s)) :
    follow (.fields :: ps) c.lexemes = follow (.methods :: ps) c.lexemes :=
  follow_skip_row (q := .methods) [(.word "int", _), (.word "boolean", _),
    (.named "String", _), (.name, _)] [] rfl rfl (passed_decls noDecl noName (by simp))

end

/-! ## Statements -/

section

variable {c c₁ c₂ : Cursor} {s : String} {z : Bool} {ps : List Phrase}

theorem follows_value (c : Cursor) (ps : List Phrase) (f : Expr Pos → α) :
    Follows (atLexeme z) c (.expr .semicolon z :: ps)
      (do let v ← expr; Reading.expect ";"; return f v) (fun _ => ps)
      fun _ d => d.left < c.left := by
  refine (follows_expr c _ _ _).bind fun v d later post => ?_
  refine .close rfl (by decide) post.2 ⟨rfl, rfl⟩ fun d₁ passes => .pure rfl ?_
  grind

theorem follows_exprStmt (c : Cursor) (ps : List Phrase) :
    Follows (atLexeme false) c (.expr .semicolon false :: ps) exprStmt (fun _ => ps)
      fun _ d => d.left < c.left :=
  .pos (follows_value c _ _)

theorem follows_assignment (first : c.Passes (.name s) c₁) (second : c₁.Passes (fixed "=") c₂) :
    Follows shown c (.stmt :: ps) (assignment s) (fun _ => ps)
      fun _ d => d.left < c.left := by
  refine .of_atLexeme (.pos (.advance first rfl (.advance second rfl ?_)))
  refine (follows_value c₂ _ _).mono fun _ d later shorter => ?_
  grind

theorem follows_index (c : Cursor) (ps : List Phrase) :
    Follows (atLexeme false) c (.expr .bracket false :: ps)
      (do let i ← expr; Reading.expect "]"; return i) (fun _ => ps)
      fun _ d => ∃ b, c.Later b ∧ b.Passes (fixed "]") d := by
  refine (follows_expr c _ _ _).bind fun i b later post => ?_
  exact .close rfl (by decide) post.2 ⟨rfl, rfl⟩ fun d passes => .pure rfl ⟨b, later, passes⟩

/-- The rest of an assignment to an element behind the index. -/
def elementValue (p : Pos) (name : String) (i : Expr Pos) : Reading (Stmt Pos) := do
  Reading.expect "="
  let v ← expr
  Reading.expect ";"
  return .arrayAssign p ⟨p, name⟩ i v

theorem arrayAssignment_eq (first : c.Passes (.name s) c₁) (second : c₁.Passes (fixed "[") c₂) :
    arrayAssignment s c =
      ((do let i ← expr; Reading.expect "]"; return i) >>= elementValue c.pos s) c₂ := by
  rw [second.advance, first.advance]
  simp only [bind_assoc, pure_bind]
  rfl

theorem follows_elementValue (assign : c.Passes (fixed "=") c₁) (ps : List Phrase) (p : Pos)
    (s : String) (i : Expr Pos) :
    Follows (atLexeme true) c (.elementStmt :: ps) (elementValue p s i) (fun _ => ps)
      fun _ d => d.left < c.left := by
  refine .expected assign rfl ((follows_value c₁ _ _).mono fun _ d later shorter => ?_)
  grind

theorem exprStmt_stops (plain : PlainLexemes c.lexemes) (later : c.Later c₁)
    (assign : c₁.Passes (fixed "=") c₂)
    (same : follow [.expr .semicolon false] c.lexemes =
      follow [.tail .semicolon false] c₁.lexemes) :
    ∃ e, exprStmt c = .error e ∧ e.problem ≠ .tooDeep ∧ e.pos = c₁.pos := by
  have stuck : follow [.tail .semicolon false] c₁.lexemes = .error (.plain, c₁.lexemes) := by
    rw [assign.lexemes]
    exact follow_stuck rfl
  obtain ⟨reads, fails⟩ := follows_exprStmt c [] plain
  cases run : exprStmt c with
  | ok pair =>
    have ended := (reads pair.1 pair.2 run).2.1
    rw [same, stuck, follow_nil] at ended
    cases ended
  | error e =>
    obtain ⟨noBound, _, d, later', stuck', rfl, here⟩ := fails e run
    rw [same, stuck, Except.error.injEq, Prod.mk.injEq] at stuck'
    have lengths := congrArg List.length stuck'.2
    rw [Cursor.length_lexemes, Cursor.length_lexemes] at lengths
    exact ⟨e, rfl, noBound, by rw [here, later.eq_of_length later' lengths]⟩

/-- A problem in the value that is assigned to an element is named at the sign of the
assignment. -/
theorem misread_value {b : Cursor} {e e' : SyntaxError} (later : c.Later b)
    (bracket : b.Passes (fixed "]") c₁) (assign : c₁.Passes (fixed "=") c₂)
    (plain : PlainLexemes c.lexemes) (same : ∀ ps, follow (.stmt :: ps) c.lexemes =
      follow (.elementStmt :: ps) c₁.lexemes) {i : Expr Pos} {p : Pos}
    (failed : elementValue p s i c₁ = .error e') (noBound : e.problem ≠ .tooDeep)
    (atSign : e.pos = c₁.pos) : Misread shown c (.stmt :: ps) e := by
  have toSign : c.Later c₁ := later.trans bracket.later
  obtain ⟨_, _, d, later', stuck, rfl, _⟩ :=
    (follows_elementValue assign [] p s i (toSign.plain plain)).2 e' failed
  have inValue : InValue [] [.expr .semicolon true] := .last rfl
  have stuck' : follow [.expr .semicolon true] c₂.lexemes = .error (.element, d.lexemes) := by
    rw [assign.lexemes] at stuck
    exact stuck
  obtain ⟨v, isValue, noSign⟩ := inValue.no_semicolon stuck'
  refine ⟨noBound, .element, d, toSign.trans later', ?_, ?_⟩
  · rw [same]
    exact follow_append_error stuck
  · rw [atSign]
    exact .element later bracket (by rw [assign.lexemes, isValue]) noSign

theorem Follows.orElse_second {S : Showing} {X X' : List Phrase} {r r' : Reading α}
    {Y : α → List Phrase} {Q : α → Cursor → Prop} {e : SyntaxError} (failed : r c = .error e)
    (same : follow X c.lexemes = follow X' c.lexemes) (second : Follows S c X' r' Y Q) :
    Follows S c X (orElse r r') Y Q := by
  have run : orElse r r' c = r' c := by rw [orElse, failed]
  intro plain
  rw [run]
  exact Follows.skip same second plain

/-- The sign of the assignment is there. If there is a problem in the value, the expression stops
at the sign. -/
theorem follows_assigned {b : Cursor} {i : Expr Pos} (later : c.Later b)
    (bracket : b.Passes (fixed "]") c₁) (assign : c₁.Passes (fixed "=") c₂)
    (asStmt : ∀ ps, follow (.stmt :: ps) c.lexemes = follow (.elementStmt :: ps) c₁.lexemes)
    (asExpr : follow [.expr .semicolon false] c.lexemes =
      follow [.tail .semicolon false] c₁.lexemes)
    (start : arrayAssignment s c = elementValue c.pos s i c₁) :
    Follows shown c (.stmt :: ps) (orElse (arrayAssignment s) exprStmt) (fun _ => ps)
      fun _ d => d.left < c.left := by
  intro plain
  have toSign : c.Later c₁ := later.trans bracket.later
  obtain ⟨reads, _⟩ := follows_elementValue assign ps c.pos s i (toSign.plain plain)
  unfold orElse
  rw [start]
  cases value : elementValue c.pos s i c₁ with
  | ok pair =>
    refine ⟨?_, by simp⟩
    rintro a d ⟨⟩
    obtain ⟨later', same, shorter⟩ := reads a d value
    exact ⟨toSign.trans later', (asStmt ps).trans same, by grind⟩
  | error e' =>
    obtain ⟨e, failed, noBound, atSign⟩ := exprStmt_stops plain toSign assign asExpr
    refine ⟨by simp [failed], ?_⟩
    intro e'' given
    rw [failed] at given
    cases given
    exact misread_value later bracket assign plain asStmt value noBound atSign

/-- A name and a bracket start an assignment to an element or an expression. Both are tried, and
where no assignment is read the expression comes to the same, unless the problem is in the value:
then the expression stops at the sign of the assignment. -/
theorem follows_element (first : c.Passes (.name s) c₁) (second : c₁.Passes (fixed "[") c₂) :
    Follows shown c (.stmt :: ps) (orElse (arrayAssignment s) exprStmt) (fun _ => ps)
      fun _ d => d.left < c.left := by
  intro plain
  have inside : c.Later c₂ := first.later.trans second.later
  have asStmt : ∀ ps, follow (.stmt :: ps) c.lexemes =
      follow (.expr .bracket false :: .elementStmt :: ps) c₂.lexemes := by
    intro ps
    rw [first.lexemes, second.lexemes]
    rfl
  have asExpr : ∀ ps, follow (.expr .semicolon false :: ps) c.lexemes =
      follow (.expr .bracket false :: .tail .semicolon false :: ps) c₂.lexemes := by
    intro ps
    rw [first.lexemes, second.lexemes]
    rfl
  have start := arrayAssignment_eq first second
  have index := fun ps => follows_index c₂ ps (inside.plain plain)
  cases run : (do let i ← expr; Reading.expect "]"; return i : Reading (Expr Pos)) c₂ with
  | error e =>
    rw [Reading.run_bind_error run] at start
    obtain ⟨_, _, d, _, stuck, _⟩ := (index []).2 e run
    refine Follows.orElse_second start ?_ (.of_atLexeme (follows_exprStmt c ps)) plain
    rw [asStmt, asExpr]
    exact (follow_append_error stuck).trans (follow_append_error stuck).symm
  | ok pair =>
    obtain ⟨i, c₄⟩ := pair
    obtain ⟨later, _, c₃, later₃, bracket⟩ := (index []).1 i c₄ run
    have behind := fun ps => ((index ps).1 i c₄ run).2.1
    rw [Reading.run_bind_ok run] at start
    cases assigned : c₄.nextIs "=" with
    | false =>
      rw [elementValue, Reading.run_bind_error (run_expect_false assigned)] at start
      refine Follows.orElse_second start ?_ (.of_atLexeme (follows_exprStmt c ps)) plain
      rw [asStmt, asExpr, behind, behind]
      exact follow_elementStmt (Cursor.not_nextIs assigned)
    | true =>
      refine follows_assigned (inside.trans later₃) bracket (Cursor.passes_of_nextIs assigned)
        (fun ps => ?_) ?_ start plain
      · rw [asStmt, behind]
      · rw [asExpr, behind]

/-- A statement that is no block, no condition, no loop and no assignment is an expression. -/
theorem follow_stmt_expr (others : ∀ s ∈ ["\x7b", "if", "while"], c.lexemes.head? ≠ some (fixed s))
    (noAssign : ∀ s ls, c.lexemes = .name s :: ls →
      ls.head? ≠ some (fixed "=") ∧ ls.head? ≠ some (fixed "[")) :
    follow (.stmt :: ps) c.lexemes = follow (.expr .semicolon false :: ps) c.lexemes := by
  by_cases named : ∃ s, c.lexemes.head? = some (.name s)
  · obtain ⟨s, next⟩ := named
    obtain ⟨ls, here⟩ := List.head?_eq_some_iff.mp next
    obtain ⟨noSign, noIndex⟩ := noAssign s ls here
    rw [here]
    exact follow_nameStmt noSign noIndex
  · push Not at named
    refine follow_skip_row (q := .expr .semicolon false)
      [(.word "\x7b", _), (.word "if", _), (.word "while", _), (.name, _)] [] rfl rfl ?_
    intro l next
    simp only [mem_cons, not_mem_nil, or_false, forall_eq_or_imp, forall_eq] at others ⊢
    have noName : ∀ s, l ≠ .name s := fun s => ne_of_head? (named s) next
    simp only [Option.mem_def] at next
    simp only [next, ne_eq, Option.some.injEq] at others
    simp [Trigger.fits_word, Trigger.fits_name noName, others]

theorem follows_simpleStmt
    (others : ∀ s ∈ ["\x7b", "if", "while"], c.lexemes.head? ≠ some (fixed s)) :
    Follows shown c (.stmt :: ps) simpleStmt (fun _ => ps)
      fun _ d => d.left < c.left := by
  refine .get ?_
  split
  case h_1 first second =>
    exact follows_assignment (Cursor.passes_of_head? first) (Cursor.passes_of_second? second)
  case h_2 first second =>
    exact follows_element (Cursor.passes_of_head? first) (Cursor.passes_of_second? second)
  case h_3 noAssign noIndex =>
    refine .skip (follow_stmt_expr others fun s ls here => ?_)
      (.of_atLexeme (follows_exprStmt c ps))
    have first : c.head? = some (.name s) := by rw [Cursor.head?_eq, here]; rfl
    have second : c.second? = ls.head? := by rw [Cursor.second?_eq, here]; rfl
    rw [← second]
    exact ⟨fun next => noAssign s first next, fun next => noIndex s first next⟩

/-- A reader of statements goes along an awaited statement, and takes at least one lexeme. -/
def FollowsStmt (r : Reading (Stmt Pos)) (c : Cursor) : Prop :=
  ∀ ps, Follows shown c (.stmt :: ps) r (fun _ => ps) fun _ d => d.left < c.left

theorem follows_condition (c : Cursor) (ps : List Phrase) :
    Follows shown c (.mark .leftParen false :: .expr .paren false :: ps) (parenthesized expr)
      (fun _ => ps) fun _ d => d.left < c.left :=
  .of_atLexeme (follows_parenthesized (fun d _ => follows_expr d) (Nat.le_refl _)
    rfl (fun _ _ other => take_mark (m := .leftParen) other) rfl rfl)

theorem follows_stmtOver {r : Reading (Stmt Pos)}
    (inner : ∀ d : Cursor, d.left < c.left → FollowsStmt r d) :
    FollowsStmt (stmtOver r) c := by
  intro ps
  refine .pos (.accept rfl (fun d passes => ?_) fun noBlock => .accept rfl (fun d passes => ?_)
    fun noIf => .accept rfl (fun d passes => ?_) fun noWhile => follows_simpleStmt ?_)
  · refine (Follows.manyWhile fun d₁ short goes => ?_).bind fun ss d₁ later stopped => ?_
    · exact .skip (follow_block (Cursor.not_nextIs (by simpa using goes))) (inner d₁ (by grind) _)
    · have closed := Cursor.passes_of_nextIs (c := d₁) (s := "\x7d") (by simpa using stopped)
      exact .expected closed rfl (.pure rfl (by grind))
  · refine (follows_condition d _).bind fun x d₁ later shorter₁ => ?_
    refine (inner d₁ (by grind) _).bind fun yes d₂ later₂ shorter₂ => ?_
    refine .sign .otherwise fun d₃ passes₃ => ?_
    exact (inner d₃ (by grind) _).bind fun no d₄ later₄ shorter₄ => .pure rfl (by grind)
  · refine (follows_condition d _).bind fun x d₁ later shorter₁ => ?_
    exact (inner d₁ (by grind) _).bind fun body d₂ later₂ shorter₂ => .pure rfl (by grind)
  · simp only [mem_cons, not_mem_nil, or_false, forall_eq_or_imp, forall_eq]
    exact ⟨noBlock, noIf, noWhile⟩

theorem follows_stmtWithin (n : Nat) :
    ∀ c : Cursor, c.left < n → FollowsStmt (stmtWithin n) c := by
  induction n with
  | zero => simp
  | succ n ih =>
    intro c short
    exact follows_stmtOver fun d shorter => ih d (by grind)

/-- **Reading a statement goes along an awaited statement.** -/
theorem follows_stmt (c : Cursor) : FollowsStmt stmt c := fun ps =>
  .get (follows_stmtWithin _ c (Nat.lt_succ_self _) ps)

end

/-! ## Bodies of methods -/

section

variable {c : Cursor} {ps : List Phrase}

theorem follows_returnClause (stopped : c.nextIs "return" = false → c.nextIs "\x7d" = true) :
    Follows shown c (.body :: ps) returnClause (fun _ => .mark .rightBrace false :: ps)
      fun _ _ => True := by
  refine .accept rfl (fun d passes => ?_) fun noReturn => ?_
  · refine .accept rfl (fun d₁ passes₁ => .pure rfl trivial) fun noEnd => ?_
    refine .skip (follow_returnRest noEnd) (.of_atLexeme ?_)
    exact (follows_value d _ _).mono fun _ _ _ _ => trivial
  · have noWord : c.nextIs "return" = false := by rw [Cursor.nextIs_eq, decide_eq_false noReturn]
    have closed := Cursor.passes_of_nextIs (stopped noWord)
    refine .skip ?_ (.pure rfl trivial)
    rw [closed.lexemes]
    rfl

theorem follows_methodBody (c : Cursor) (ps : List Phrase) (p : Pos) (s : Signature) :
    Follows shown c (.locals :: ps) (methodBody p s) (fun _ => ps) fun _ _ => True := by
  refine (Follows.manyWhile fun d short decl => ?_).bind fun locals d later noDecl => ?_
  · exact .skip (follow_locals_decl decl) (follows_varDecl d rfl rfl rfl)
  refine .skip (follow_locals_body noDecl) ?_
  refine (Follows.manyWhile fun d₁ short goes => ?_).bind fun body d₁ later₁ stopped => ?_
  · simp only [Bool.and_eq_true, Bool.not_eq_true'] at goes
    exact .skip (follow_body (Cursor.not_nextIs goes.1) (Cursor.not_nextIs goes.2))
      (follows_stmt d₁ _)
  refine (follows_returnClause fun noReturn => ?_).bind fun result d₂ later₂ _ => ?_
  · simpa [noReturn] using stopped
  · exact .sign .rightBrace fun d₃ passes => .pure rfl trivial

end

/-! ## Signatures -/

section

variable {a c d : Cursor} {ps : List Phrase}

/-- The places that are named, as seen from a place before. -/
def shownFrom (a : Cursor) : Showing where
  Shows _ := Shown a
  earlier _ shows := shows

theorem Follows.seenFrom {X : List Phrase} {r : Reading α} {Y : α → List Phrase}
    {Q : α → Cursor → Prop} (later : a.Later c) (follows : Follows shown c X r Y Q) :
    Follows (shownFrom a) c X r Y Q :=
  follows.weaken fun _ _ _ shows => shown.earlier later shows

/-- The parameters of a method. -/
def paramList (m : Nat) (ps : List Phrase) :
    Commas shown ")" typedName m (.typedName :: .paramsRest :: ps) ps fun _ => True where
  first := .params
  next := .paramsRest
  behindFirst := ps
  behindNext := ps
  closeFirst := ⟨[], rfl, rfl⟩
  closeNext := ⟨[], rfl, rfl⟩
  start _ noEnd := follow_params noEnd
  comma := ⟨[.typedName, .paramsRest], rfl, rfl⟩
  only c _ l next noClose noComma := by
    simp [Phrase.take, Phrase.row, Row.pick, Trigger.fits_word, noClose, noComma]
  shows _ := .here trivial
  phrase c _ := (follows_typedName c).mono fun _ _ _ shorter => ⟨shorter, trivial⟩

theorem follows_instanceSignature (noStatic : c.lexemes.head? ≠ some (fixed "static")) :
    Follows shown c (.signature :: ps) instanceSignature
      (fun _ => .mark .leftBrace false :: .locals :: ps) fun _ _ => True := by
  refine .skip (follow_signature noStatic) ?_
  refine (follows_typeExpr c).bind fun ret d later shorter => .name fun name d₁ passes => ?_
  refine .sign .leftParen fun d₂ passes₂ => ?_
  exact ((paramList (d₂.left + 1) _).follows_list d₂ (Nat.lt_succ_self _)).bind
    fun params d₃ later₃ shorter₃ => .pure rfl trivial

theorem follows_mainName {f : String → Reading β} {Z : β → List Phrase} {R : β → Cursor → Prop}
    (start : a.lexemes = fixed "public" :: fixed "static" :: fixed "void" :: c.lexemes)
    (second : ∀ d, c.Passes (.name "main") d →
      Follows (shownFrom a) d (.mainOpen :: ps) (f "main") Z R)
    (other : ∀ name d, name ≠ "main" → f name d = .error ⟨a.pos, .staticNotMain name⟩) :
    Follows (shownFrom a) c (.mainName :: ps) (Reading.ident >>= f) Z R := by
  by_cases isNamed : ∃ name, c.lexemes.head? = some (.name name)
  · obtain ⟨name, next⟩ := isNamed
    have passes := Cursor.passes_of_head? ((Cursor.head?_eq c).trans next)
    by_cases isMain : name = "main"
    · subst isMain
      exact .named passes rfl (second _ passes)
    · have run : (Reading.ident >>= f) c = .error ⟨a.pos, .staticNotMain name⟩ := by
        rw [Reading.ident, bind_assoc, Reading.run_bind_ok Reading.run_get, Cursor.head?_eq, next]
        exact other name _ isMain
      refine .failing run (by simp) (fun l first => ?_) (.static (.refl a) start next)
      obtain rfl : l = .name name := Option.some.inj (first.symm.trans next)
      have noMain : "main" ≠ name := fun same => isMain same.symm
      simp [Phrase.take, Phrase.row, Row.pick, Trigger.fits, noMain]
  · push Not at isNamed
    refine .unnamed isNamed (fun l first => ?_) (.here isNamed)
    have noName : ∀ name, l ≠ .name name := fun name => ne_of_head? (isNamed name) first
    simp [Phrase.take, Phrase.row, Row.pick, Trigger.fits_named noName]

theorem run_typeExpr {f : TypeExpr Pos → Reading β} {name : String}
    (found : c.typeName? = some name) :
    (typeExpr >>= f) c = (brackets name >>= fun array => f ⟨c.pos, name, array⟩) c.advance := by
  rw [typeExpr, bind_assoc]
  simp only [bind_assoc]
  rw [Reading.run_bind_ok (show Reading.pos c = .ok (c.pos, c) from rfl),
    Reading.run_bind_ok Reading.run_get, found]
  simp only [bind_assoc, pure_bind]
  rfl

theorem run_typeExpr_none {f : TypeExpr Pos → Reading β} (missing : c.typeName? = none) :
    (typeExpr >>= f) c = .error ⟨c.pos, .expected .type c.head?⟩ := by
  rw [typeExpr, bind_assoc]
  simp only [bind_assoc]
  rw [Reading.run_bind_ok (show Reading.pos c = .ok (c.pos, c) from rfl),
    Reading.run_bind_ok Reading.run_get, missing]
  rfl

theorem run_brackets {name : String} (noString : name ≠ "String") :
    (∃ array, brackets name d = .ok (array, if array then d.advance.advance else d) ∧
      (name = "int" → ∀ more, d.lexemes = fixed "[" :: more → more.head? = some (fixed "]"))) ∨
    ∃ more, name = "int" ∧ d.lexemes = fixed "[" :: more ∧ more.head? ≠ some (fixed "]") ∧
      brackets name d = .error ⟨d.advance.pos, .expected (.fixed "]") d.advance.head?⟩ := by
  by_cases isInt : name = "int"
  · subst isInt
    have opened : brackets "int" d = (do
        if ← Reading.accept "[" then Reading.expect "]"; return true else return false) d := rfl
    cases first : d.nextIs "[" with
    | false =>
      rw [Reading.run_bind_ok (run_accept_false first)] at opened
      refine .inl ⟨false, opened, fun _ more here => ?_⟩
      exact absurd (by rw [here]; rfl) (Cursor.not_nextIs first)
    | true =>
      have passes := Cursor.passes_of_nextIs first
      rw [Reading.run_bind_ok (run_accept_true first), if_pos rfl] at opened
      cases second : d.advance.nextIs "]" with
      | false =>
        rw [Reading.run_bind_error (run_expect_false second)] at opened
        exact .inr ⟨_, rfl, passes.lexemes, Cursor.not_nextIs second, opened⟩
      | true =>
        rw [Reading.run_bind_ok (run_expect_true second)] at opened
        refine .inl ⟨true, opened, fun _ more here => ?_⟩
        rw [passes.lexemes, List.cons.injEq] at here
        rw [← here.2, (Cursor.passes_of_nextIs second).lexemes]
        rfl
  · refine .inl ⟨false, ?_, fun same => absurd same isInt⟩
    rw [brackets, if_neg (by simp [isInt, noString])]
    rfl

theorem take_mainString_none {l : Lexeme} (noString : l ≠ .name "String") :
    Phrase.mainString.take l = none := by
  cases l with
  | name s =>
    have other : "String" ≠ s := by
      rintro rfl
      exact noString rfl
    simp [Phrase.take, Phrase.row, Row.pick, Trigger.fits, other]
  | number | fixed => rfl

theorem follows_stringType (isString : c.head? = some (.name "String")) :
    Follows (shownFrom a) c (.mainString :: ps) typeExpr
      (fun t => if t.array then .anyName :: .mark .rightParen false :: .mark .leftBrace false ::
        .locals :: ps else .mainBracket :: ps)
      fun t d => t.mark = c.pos ∧ t.name = "String" ∧
        (t.array = false → d = c.advance ∧ d.lexemes.head? ≠ some (fixed "[")) := by
  have array : Follows (shownFrom a) c.advance (.mainBracket :: ps) (brackets "String")
      (fun array => if array then .anyName :: .mark .rightParen false :: .mark .leftBrace false ::
        .locals :: ps else .mainBracket :: ps)
      fun array d => array = false → d = c.advance ∧ d.lexemes.head? ≠ some (fixed "[") := by
    rw [brackets, if_pos (.inr rfl)]
    refine .accept rfl (fun d passes => ?_) fun noBracket => .pure rfl fun _ => ⟨rfl, noBracket⟩
    exact .word rfl (.here trivial) fun d₁ passes₁ => .pure rfl (by simp)
  have found : c.typeName? = some "String" := by rw [Cursor.typeName?, isString]
  refine .pos (.get ?_)
  rw [found]
  refine .advance (Cursor.passes_of_head? isString) rfl (array.bind fun b d later shape => ?_)
  exact .pure rfl ⟨rfl, rfl, shape⟩

section Parameter

variable {f : TypeExpr Pos → Reading β} {Z : β → List Phrase} {R : β → Cursor → Prop}
  (start : a.lexemes = mainStart ++ c.lexemes)
  (other : ∀ t d, t.name ≠ "String" ∨ t.array = false → f t d = .error ⟨c.pos, .mainParameter⟩)

include start other

/-- A parameter of `main` that does not start with `String`. It is named itself, unless it is
`int` with an opening bracket only. -/
theorem follows_otherParameter (noString : c.head? ≠ some (.name "String")) :
    Follows (shownFrom a) c (.mainString :: ps) (typeExpr >>= f) Z R := by
  intro plain
  have none : ∀ l ∈ c.lexemes.head?, Phrase.mainString.take l = none := by
    intro l next
    apply take_mainString_none
    rintro rfl
    exact noString (by rw [Cursor.head?_eq]; exact next)
  cases found : c.typeName? with
  | none =>
    refine Follows.failing (run_typeExpr_none found) (by simp) none (.here fun more here => ?_)
      plain
    have isInt : c.typeName? = some "int" := typeName?_fixed (by decide) c _ here
    rw [isInt] at found
    cases found
  | some name =>
    obtain ⟨rest, here⟩ := head_of_typeName? found
    have noString' : name ≠ "String" := by
      rintro rfl
      rcases here with here | ⟨_, basic⟩
      · exact noString (by rw [Cursor.head?_eq, here]; rfl)
      · exact absurd basic (by decide)
    rcases run_brackets noString' (d := c.advance) with
      ⟨array, run, closed⟩ | ⟨more, rfl, opened, noClose, run⟩
    · have run' : (typeExpr >>= f) c = .error ⟨c.pos, .mainParameter⟩ := by
        rw [run_typeExpr found, Reading.run_bind_ok run]
        exact other _ _ (.inl noString')
      refine Follows.failing run' (by simp) none (.here fun more isInt => ?_) plain
      have found' : c.typeName? = some "int" := typeName?_fixed (by decide) c _ isInt
      rw [found'] at found
      exact closed (Option.some.inj found).symm more (by rw [Cursor.lexemes_advance, isInt]; rfl)
    · have run' : (typeExpr >>= f) c =
          .error ⟨c.advance.advance.pos, .expected (.fixed "]") c.advance.advance.head?⟩ := by
        rw [run_typeExpr found, Reading.run_bind_error run]
      have isInt : c.lexemes = fixed "int" :: fixed "[" :: more := by
        rw [Cursor.lexemes_advance] at opened
        rcases here with here | ⟨here, _⟩
        · exact absurd (by decide) (plain "int" (here ▸ mem_cons_self))
        · rw [here, tail_cons] at opened
          rw [here, opened]
      exact Follows.failing run' (by simp) none (.otherBrackets (.refl a) start isInt noClose)
        plain

theorem follows_mainParameter (later : a.Later c)
    (second : ∀ d, a.Later d → Follows (shownFrom a) d (.anyName :: .mark .rightParen false ::
      .mark .leftBrace false :: .locals :: ps) (f ⟨c.pos, "String", true⟩) Z R) :
    Follows (shownFrom a) c (.mainString :: ps) (typeExpr >>= f) Z R := by
  by_cases isString : c.head? = some (.name "String")
  · have passes := Cursor.passes_of_head? isString
    refine (follows_stringType isString).bind fun t d later' shape => ?_
    obtain ⟨mark, name, array⟩ := t
    obtain ⟨rfl, rfl, shape⟩ := shape
    cases array with
    | true => exact second d (later.trans later')
    | false =>
      obtain ⟨rfl, noBracket⟩ := shape rfl
      refine .failing (other _ _ (.inr rfl)) (by simp) (fun l next => ?_)
        (.noBrackets (.refl a) later start passes)
      have noBracket' := ne_of_head? noBracket next
      simp [Phrase.take, Phrase.row, Row.pick, Trigger.fits_word, noBracket']
  · exact follows_otherParameter start other isString

end Parameter

theorem follows_mainSignature (later : a.Later c)
    (start : a.lexemes = fixed "public" :: fixed "static" :: c.lexemes) :
    Follows (shownFrom a) c (.mainVoid :: ps) (mainSignature a.pos)
      (fun _ => .mark .leftBrace false :: .locals :: ps) fun _ _ => True := by
  refine .pos (.word rfl (.here trivial) fun d passes => ?_)
  refine follows_mainName (by rw [start, passes.lexemes]) (fun d₁ passes₁ => ?_)
    fun name d₁ other => ?_
  · rw [if_neg (by simp)]
    refine .word rfl (.here trivial) fun d₂ passes₂ => .pos ?_
    have toParameter : a.Later d₂ :=
      ((later.trans passes.later).trans passes₁.later).trans passes₂.later
    refine follows_mainParameter ?_ (fun t d₃ other => ?_) toParameter fun d₃ later₃ => ?_
    · rw [start, passes.lexemes, passes₁.lexemes, passes₂.lexemes]
      rfl
    · rw [if_pos (by simpa using other)]
      rfl
    · rw [if_neg (by simp)]
      refine .seenFrom later₃ (.name fun arg d₄ passes₄ => ?_)
      exact .sign .rightParen fun d₅ passes₅ => .pure rfl trivial
  · rw [if_pos other]
    rfl

/-- **Reading a method goes along an awaited method.** -/
theorem follows_method (next : c.nextIs "public" = true) :
    Follows shown c (.methods :: ps) method (fun _ => .methods :: ps)
      fun _ d => d.left < c.left := by
  have passes := Cursor.passes_of_nextIs next
  have body : ∀ s d, c.advance.Later d → Follows (shownFrom c) d
      (.mark .leftBrace false :: .locals :: .methods :: ps)
      (do Reading.expect "\x7b"; methodBody c.pos s) (fun _ => .methods :: ps)
      fun _ e => e.left < c.left := by
    intro s d later
    refine .seenFrom (passes.later.trans later) (.sign .leftBrace fun d₁ passes₁ => ?_)
    refine (follows_methodBody d₁ _ c.pos s).mono fun _ e later' _ => ?_
    grind
  have whole : Follows (shownFrom c) c (.methods :: ps) method (fun _ => .methods :: ps)
      fun _ d => d.left < c.left := by
    refine .pos (.advance passes rfl (.accept rfl (fun d passes₁ => ?_) fun noStatic => ?_))
    · refine (follows_mainSignature (passes.later.trans passes₁.later) ?_).bind
        fun s d₁ later _ => body s d₁ (passes₁.later.trans later)
      rw [passes.lexemes, passes₁.lexemes]
    · exact (Follows.seenFrom passes.later (follows_instanceSignature noStatic)).bind
        fun s d₁ later _ => body s d₁ later
  exact whole.weaken fun _ _ _ shows => shows

end

/-! ## Classes and files -/

section

variable {c : Cursor} {ps : List Phrase}

theorem follows_dottedRest (n : Nat) : ∀ c : Cursor, c.left < n →
    Follows shown c (.importName :: ps) (dottedRest n) (fun _ => .pathRest :: ps)
      fun _ d => d.lexemes.head? ≠ some (fixed ".") := by
  induction n with
  | zero => simp
  | succ n ih =>
    intro c short
    refine .anyName rfl (.here trivial) fun name d passes => ?_
    refine .accept rfl (fun d₁ passes₁ => ?_) fun noDot => .pure rfl noDot
    exact (ih d₁ (by grind)).bind fun path d₂ later noDot => .pure rfl noDot

theorem follows_importDecl (next : c.nextIs "import" = true) :
    Follows shown c (.imports :: ps) importDecl (fun _ => .imports :: ps)
      fun _ d => d.left < c.left := by
  have passes := Cursor.passes_of_nextIs next
  refine .pos (.advance passes rfl (.get ?_))
  refine (follows_dottedRest _ _ (Nat.lt_succ_self _)).bind fun path d later noDot => ?_
  refine .expect rfl (fun l next other => ?_) (.here trivial) fun d₁ passes₁ => .pure rfl ?_
  · have noDot' := ne_of_head? noDot next
    simp [Phrase.take, Phrase.row, Row.pick, Trigger.fits_word, other, noDot']
  · grind

theorem follows_superclass (c : Cursor) (ps : List Phrase) :
    Follows shown c (.superclass :: ps) superclass (fun _ => .classOpen :: ps) fun _ _ => True := by
  refine .accept rfl (fun d passes => ?_) fun noSuper => ?_
  · rw [if_pos rfl, ← bind_pure Reading.ident]
    exact .anyName rfl (.here trivial) fun name d₁ passes₁ => .pure rfl trivial
  · exact .skip (follow_superclass noSuper) (.pure rfl trivial)

theorem take_fieldName_none {array : Bool} {l : Lexeme} (noName : ∀ name, l ≠ .name name)
    (noBracket : array = true → l ≠ fixed "[") : (Phrase.fieldName array).take l = none :=
  take_declName_none noName noBracket

/-- A name behind the fields that starts no declaration: it is named, though it is the lexeme
behind it that cannot come. -/
theorem follows_noField {r : Reading α} {Y : α → List Phrase} {Q : α → Cursor → Prop} {s : String}
    {e : SyntaxError} (noDecl : c.atVarDecl = false) (next : c.lexemes.head? = some (.name s))
    (run : r c = .error e) (noBound : e.problem ≠ .tooDeep) (place : e.pos = c.pos) :
    Follows shown c (.fields :: ps) r Y Q := by
  intro _
  have passes := Cursor.passes_of_head? ((Cursor.head?_eq c).trans next)
  obtain ⟨noName, noBracket⟩ := noDecl_name noDecl passes.lexemes
  have stuck : follow (.fieldName (s = "String") :: .fieldEnd :: ps) c.advance.lexemes =
      .error (.fieldName, c.advance.lexemes) := by
    cases here : c.advance.lexemes with
    | nil => rfl
    | cons l ls =>
      rw [here] at noName noBracket
      refine follow_stuck (take_fieldName_none ?_ ?_)
      · rintro name rfl
        exact noName name rfl
      · rintro isString rfl
        exact noBracket (by simpa using isString) rfl
  rw [run]
  refine ⟨by simp, ?_⟩
  rintro _ ⟨⟩
  refine ⟨noBound, .fieldName, c.advance, passes.later, ?_, place ▸ .field (.refl c) passes⟩
  rw [passes.lexemes, follow_take (take_fields_name s)]
  exact stuck

theorem follows_methods {f : List (Method Pos) → α} (noDecl : c.atVarDecl = false) :
    Follows shown c (.fields :: ps)
      (do let ms ← Reading.manyWhile (·.nextIs "public") method
          Reading.expect "\x7d"
          return f ms) (fun _ => ps) fun _ _ => True := by
  by_cases isNamed : ∃ s, c.lexemes.head? = some (.name s)
  · obtain ⟨s, next⟩ := isNamed
    have other : ∀ text, c.nextIs text = false := by
      intro text
      rw [Cursor.nextIs_eq, next]
      simp
    have none : Reading.manyWhile (·.nextIs "public") method c = .ok ([], c) := by
      rw [Reading.manyWhile, Reading.run_bind_ok Reading.run_get, Cursor.bound, Reading.whileAt,
        Reading.run_bind_ok Reading.run_get, other]
      rfl
    have run := Reading.run_bind_error (f := fun _ => pure (f [])) (run_expect_false (other "\x7d"))
    exact follows_noField noDecl next ((Reading.run_bind_ok none).trans run) (by simp) rfl
  · push Not at isNamed
    refine .skip (follow_fields_methods noDecl isNamed) ?_
    refine (Follows.manyWhile fun d _ next => follows_method next).bind fun ms d later stopped => ?_
    refine .expect rfl (fun l next other => ?_) (.here trivial) fun d₁ passes => .pure rfl trivial
    have noMethod := ne_of_head? (Cursor.not_nextIs stopped) next
    simp [Phrase.take, Phrase.row, methodsRow, Row.pick, Trigger.fits_word, other, noMethod]

/-- **Reading a class goes along an awaited class.** -/
theorem follows_classDecl (noImport : c.nextIs "import" = false) :
    Follows shown c (.imports :: ps) classDecl (fun _ => ps) fun _ _ => True := by
  refine .pos (.expect rfl (fun l next other => ?_) (.here trivial) fun d passes => ?_)
  · have noImport' := ne_of_head? (Cursor.not_nextIs noImport) next
    simp [Phrase.take, Phrase.row, Row.pick, Trigger.fits_word, other, noImport']
  refine .anyName rfl (.here trivial) fun name d₁ passes₁ => ?_
  refine (follows_superclass d₁ ps).bind fun super d₂ later _ => ?_
  refine .word rfl (.here trivial) fun d₃ passes₃ => ?_
  refine (Follows.manyWhile fun d₄ _ decl => ?_).bind fun fields d₄ later₄ noDecl => ?_
  · exact .skip (follow_fields_decl decl) (follows_varDecl d₄ rfl rfl rfl)
  · exact follows_methods noDecl

/-- The imports and the class of a file, whatever comes behind them. -/
def fileStart : Reading (File Pos) := do
  let p ← Reading.pos
  let imports ← Reading.manyWhile (·.nextIs "import") importDecl
  let cls ← classDecl
  return ⟨p, imports, cls⟩

theorem file_eq : file = (do
    let f ← fileStart
    if (← get).rest.isEmpty then return f else Reading.unexpected .endOfFile) := by
  simp only [file, fileStart, bind_assoc, pure_bind]

theorem follows_fileStart (c : Cursor) :
    Follows shown c [.imports] fileStart (fun _ => []) fun _ _ => True := by
  refine .pos ?_
  refine (Follows.manyWhile fun d _ next => follows_importDecl next).bind
    fun is d later noImport => ?_
  exact (follows_classDecl noImport).bind fun cls d₁ later₁ _ => .pure rfl trivial

/-- **Reading a file goes along an awaited file.** A file that is read is followed to its end. If
one is not read, a lexeme does not fit, or there are lexemes behind the class, of which the first
is named. -/
theorem follows_file (plain : PlainLexemes c.lexemes) :
    (∀ f d, file c = .ok (f, d) → follow [.imports] c.lexemes = .ok []) ∧
      ∀ e, file c = .error e → Misread shown c [.imports] e ∨
        e.problem ≠ .tooDeep ∧ ∃ d, c.Later d ∧ d.rest ≠ [] ∧
          follow [.imports] c.lexemes = .ok d.lexemes ∧ e.pos = d.pos := by
  obtain ⟨reads, fails⟩ := follows_fileStart c plain
  rw [file_eq]
  cases run : fileStart c with
  | error e =>
    rw [Reading.run_bind_error run]
    refine ⟨by simp, ?_⟩
    rintro _ ⟨⟩
    exact .inl (fails e run)
  | ok pair =>
    obtain ⟨f, d⟩ := pair
    obtain ⟨later, same, _⟩ := reads f d run
    rw [follow_nil] at same
    rw [Reading.run_bind_ok run, Reading.run_bind_ok Reading.run_get]
    cases left : d.rest with
    | nil =>
      refine ⟨fun _ _ _ => ?_, by rintro _ ⟨⟩⟩
      rw [same, Cursor.lexemes, left]
      rfl
    | cons t ts =>
      refine ⟨by rintro _ _ ⟨⟩, ?_⟩
      rintro _ ⟨⟩
      exact .inr ⟨by simp, d, later, by simp [left], same, rfl⟩

end

/-! ## Texts -/

section

variable {bytes : List UInt8} {tokens : List Token} {stop : Pos}

theorem plainLexemes_of_scan (scanned : scan bytes = .ok (tokens, stop)) :
    PlainLexemes (tokens.map (·.lexeme)) := by
  intro s member
  obtain ⟨t, isToken, isName⟩ := mem_map.mp member
  exact (scanFrom_plain scanned t isToken s isName).plain

theorem parse_of_scan (scanned : scan bytes = .ok (tokens, stop)) :
    parse bytes = (file ⟨tokens, stop⟩).map Prod.fst := by
  rw [parse, scanned]
  change (file ⟨tokens, stop⟩ >>= fun pair => pure pair.1) = _
  cases file ⟨tokens, stop⟩ <;> rfl

/-- **A text that can be scanned can be read exactly if its lexemes are followed to their end.** -/
theorem parse_iff_follow (scanned : scan bytes = .ok (tokens, stop)) :
    (∃ f, parse bytes = .ok f) ↔ follow [.imports] (tokens.map (·.lexeme)) = .ok [] := by
  obtain ⟨reads, fails⟩ := follows_file (c := ⟨tokens, stop⟩) (plainLexemes_of_scan scanned)
  rw [parse_of_scan scanned]
  cases run : file ⟨tokens, stop⟩ with
  | ok pair => exact ⟨fun _ => reads pair.1 pair.2 run, fun _ => ⟨pair.1, rfl⟩⟩
  | error e =>
    refine ⟨by rintro ⟨f, ⟨⟩⟩, fun done => ?_⟩
    obtain ⟨_, s, d, _, stuck, _⟩ | ⟨_, d, _, left, done', _⟩ := fails e run
    · cases done.symm.trans stuck
    · have none : d.lexemes = [] := Except.ok.inj (done'.symm.trans done)
      exact absurd (map_eq_nil_iff.mp none) left

theorem exists_of_isOk {ε : Type} {x : Except ε α} (isOk : x.isOk = true) : ∃ a, x = .ok a := by
  cases x with
  | error e => cases isOk
  | ok a => exact ⟨a, rfl⟩

end

end JavaMinus.Syntax
