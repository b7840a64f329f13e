import Mathlib
import JavaMinus.Proofs.FollowedFiles

/-!
# Texts that can be read

Reading a file goes along the awaited phrases (`follows_file`), so what is left to compare is the
table of phrases and the grammar.

**What is followed is in the grammar.** Every phrase stands for a language. The phrases that are
only parts of what the grammar names stand for what may come behind the rest (`behind`). Each
entry of the table fits these languages (`Phrase.mem_language`), and so does what is followed along
several entries (`mem_languages_of_follow`).

**What is in the grammar is followed.** Going along an expression, a statement or a declaration
leads to the phrase behind it (`follow_expr_of_isExpr`, `follow_stmt_of_isStmt`, `follow_program`).

So a text is read exactly if its lexemes are a program (`parse_accepts_iff`).
-/

set_option autoImplicit false

namespace JavaMinus.Syntax

open List
open Lexeme (fixed)
open scoped Computability

variable {ss : List (List Lexeme)} {L : Language Lexeme} {ms : List Lexeme}

/-! ## The languages of phrases -/

/-- What makes a word of a language when it comes behind any word of another one. -/
def behind (L M : Language Lexeme) : Language Lexeme := {ms | ∀ ls ∈ L, ls ++ ms ∈ M}

/-- What ends an expression. -/
def Closer.language : Closer → Language Lexeme
  | paren => word ")"
  | bracket => word "]"
  | argument => (word "," * exprs)∗ * word ")"
  | semicolon => word ";"

/-- What stands between the braces of a body, and the closing one. -/
def insides : Language Lexeme := varDecls∗ * ((stmts∗ - stringArrays) * returns * word "\x7d")

/-- A name, with brackets before it or without. -/
def declNames (array : Bool) : Language Lexeme :=
  {ls | ls ∈ anyName ∨ array = true ∧ ls ∈ word "[" * (word "]" * anyName)}

/-- What stands behind the opening brace of a class. -/
def members : Language Lexeme := varDecls∗ * (methods∗ * word "\x7d")

/-- What stands behind the name of the parameter of `main`. -/
def mainRest : Language Lexeme :=
  word "[" * (word "]" * (anyName * (word ")" * (word "\x7b" * insides))))

/-- The language of a phrase. -/
def Phrase.language : Phrase → Language Lexeme
  | mark m _ => word m.text
  | anyName => Syntax.anyName
  | expr k _ => exprs * k.language
  | creation k _ => behind (word "new") (exprs * k.language)
  | tail k _ => behind exprs (exprs * k.language)
  | member k _ => behind (exprs * word ".") (exprs * k.language)
  | lengthTail k _ => behind (exprs * word "." * named "length") (exprs * k.language)
  | args k _ => behind (exprs * word "." * Syntax.anyName * word "(") (exprs * k.language)
  | stmt => stmts
  | nameStmt => behind Syntax.anyName stmts
  | elementStmt => behind (Syntax.anyName * word "[" * exprs * word "]") stmts
  | block => stmts∗ * word "\x7d"
  | locals => insides
  | localName array => {ms | ∀ name, array = (name = "String" : Bool) → .name name :: ms ∈ insides}
  | body => stmts∗ * returns * word "\x7d"
  | returnRest => behind (word "return") returns
  | declName array | fieldName array => declNames array
  | typedName => parameters
  | params => separated parameters * word ")"
  | paramsRest => (word "," * parameters)∗ * word ")"
  | signature => behind (word "public") Syntax.methods
  | mainVoid => word "void" * (named "main" * (word "(" * (named "String" * mainRest)))
  | mainName => named "main" * (word "(" * (named "String" * mainRest))
  | mainOpen => word "(" * (named "String" * mainRest)
  | mainString => named "String" * mainRest
  | mainBracket => mainRest
  | methods => Syntax.methods∗ * word "\x7d"
  | fields => members
  | fieldEnd => word ";" * members
  | superclass => (1 + word "extends" * Syntax.anyName) * (word "\x7b" * members)
  | superName => Syntax.anyName * (word "\x7b" * members)
  | classOpen => word "\x7b" * members
  | className => Syntax.anyName * ((1 + word "extends" * Syntax.anyName) * (word "\x7b" * members))
  | importName => Syntax.anyName * ((word "." * Syntax.anyName)∗ * (word ";" * program))
  | pathRest => (word "." * Syntax.anyName)∗ * (word ";" * program)
  | imports => program

/-- Phrases one after the other. -/
def languages : List Phrase → Language Lexeme
  | [] => 1
  | [p] => p.language
  | p :: q :: ps => p.language * languages (q :: ps)

theorem languages_cons (p : Phrase) (ps : List Phrase) :
    languages (p :: ps) = p.language * languages ps := by
  cases ps with
  | nil => exact (mul_one _).symm
  | cons q ps => rfl

theorem languages_append (ps qs : List Phrase) :
    languages (ps ++ qs) = languages ps * languages qs := by
  induction ps with
  | nil => exact (one_mul _).symm
  | cons p ps ih => rw [cons_append, languages_cons, languages_cons, ih, mul_assoc]

theorem append_mem_kstar {ls : List Lexeme} (first : ls ∈ L) (rest : ms ∈ L∗) : ls ++ ms ∈ L∗ := by
  obtain ⟨parts, rfl, each⟩ := Language.mem_kstar.mp rest
  exact Language.mem_kstar.mpr ⟨ls :: parts, rfl, forall_mem_cons.mpr ⟨first, each⟩⟩

/-! ## What is followed is in the grammar -/

/-- The entries of a row make words of a language. -/
def Row.Makes (row : Row) (M : Language Lexeme) : Prop :=
  ∀ entry ∈ row, ∀ l, entry.1.fits l = true → ∀ w ∈ languages entry.2, l :: w ∈ M

namespace Row.Makes

variable {row row' : Row} {M N : Language Lexeme} {qs : List Phrase} {s : String}

protected theorem nil : Makes [] M := fun _ member => (not_mem_nil member).elim

theorem word (here : ∀ w ∈ languages qs, fixed s :: w ∈ M) (rest : Makes row M) :
    Makes ((.word s, qs) :: row) M := by
  refine forall_mem_cons.mpr ⟨fun l fits => ?_, rest⟩
  rw [Trigger.fits_word, decide_eq_true_eq] at fits
  exact fits ▸ here

theorem name (here : ∀ s, ∀ w ∈ languages qs, .name s :: w ∈ M) (rest : Makes row M) :
    Makes ((.name, qs) :: row) M := by
  refine forall_mem_cons.mpr ⟨fun l fits => ?_, rest⟩
  cases l with
  | name s => exact here s
  | number | fixed => cases fits

theorem named (here : ∀ w ∈ languages qs, .name s :: w ∈ M) (rest : Makes row M) :
    Makes ((.named s, qs) :: row) M := by
  refine forall_mem_cons.mpr ⟨fun l fits => ?_, rest⟩
  cases l with
  | name s' => exact (of_decide_eq_true fits : s = s') ▸ here
  | number | fixed => cases fits

theorem append (first : Makes row M) (second : Makes row' M) : Makes (row ++ row') M := by
  intro entry member
  rcases mem_append.mp member with left | right
  · exact first entry left
  · exact second entry right

theorem mono (makes : Makes row M) (le : ∀ w ∈ M, w ∈ N) : Makes row N :=
  fun entry member l fits w inside => le _ (makes entry member l fits w inside)

theorem before (makes : Makes row M) (ps : List Phrase) :
    Makes (row.before ps) (M * languages ps) := by
  intro entry member l fits w inside
  obtain ⟨e, among, rfl⟩ := mem_map.mp member
  rw [languages_append] at inside
  obtain ⟨v, first, u, second, rfl⟩ := inside
  exact ⟨l :: v, makes e among l fits v first, u, second, rfl⟩

end Row.Makes

section Rows

variable {k : Closer} {z array : Bool}

theorem makes_closer : Row.Makes (k.row z) (behind exprs (exprs * k.language)) := by
  cases k with
  | paren | bracket | semicolon =>
    refine .word ?_ .nil
    rintro _ rfl ls isExpr
    exact ⟨ls, isExpr, _, rfl, rfl⟩
  | argument =>
    refine .word ?_ (.word ?_ .nil)
    · rintro _ ⟨x, isExpr', _, ⟨rest, list, _, rfl, rfl⟩, rfl⟩ ls isExpr
      refine ⟨ls, isExpr, _, ⟨fixed "," :: x ++ rest, ?_, _, rfl, rfl⟩, by simp⟩
      exact append_mem_kstar ⟨_, rfl, x, isExpr', rfl⟩ list
    · rintro _ rfl ls isExpr
      exact ⟨ls, isExpr, _, ⟨[], Language.nil_mem_kstar _, _, rfl, rfl⟩, rfl⟩

theorem makes_tail : Row.Makes (tailRow k z) (behind exprs (exprs * k.language)) := by
  refine .append ?_ (.word ?_ (.word ?_ makes_closer))
  · intro entry member l fits w
    obtain ⟨s, isBinary, rfl⟩ := mem_map.mp member
    rw [Trigger.fits_word, decide_eq_true_eq] at fits
    rintro ⟨x, right, rest, close, rfl⟩ ls left
    exact ⟨ls ++ l :: x, fits ▸ .binary isBinary left right, rest, close, by simp⟩
  · rintro _ ⟨_, ⟨i, index, _, rfl, rfl⟩, rest, tail, rfl⟩ ls isExpr
    simpa using tail _ (IsExpr.index isExpr index)
  · intro w member ls isExpr
    simpa using member _ ⟨ls, isExpr, _, rfl, rfl⟩

theorem makes_expr : Row.Makes (exprRow k z) (exprs * k.language) := by
  refine forall_mem_cons.mpr ⟨?_, ?_⟩
  · intro l fits w tail
    cases l with
    | number digits => exact tail _ (.int (of_decide_eq_true fits))
    | name | fixed => cases fits
  refine Row.Makes.name ?_
    (.word ?_ (.word ?_ (.word ?_ (.word ?_ (.word ?_ (.word ?_ .nil))))))
  · exact fun s w tail => tail _ .ident
  · exact fun w tail => tail _ (.bool (by simp))
  · exact fun w tail => tail _ (.bool (by simp))
  · exact fun w tail => tail _ .this
  · rintro _ ⟨_, ⟨x, inside, _, rfl, rfl⟩, rest, tail, rfl⟩
    exact tail _ (.parens inside)
  · exact fun w creation => creation _ rfl
  · rintro _ ⟨x, inside, rest, close, rfl⟩
    exact ⟨_, .not inside, rest, close, rfl⟩

theorem isExpr_call {r x rest : List Lexeme} (name : String) (recv : IsExpr r) (first : IsExpr x)
    (list : rest ∈ (word "," * exprs)∗) :
    IsExpr (r ++ fixed "." :: .name name :: fixed "(" :: (x ++ (rest ++ [fixed ")"]))) := by
  obtain ⟨ps, each, rfl⟩ := mem_kstar_word.mp list
  have call : IsExpr (r ++ fixed "." :: .name name :: fixed "(" ::
      (commaLexemes true (x :: ps) ++ [fixed ")"])) :=
    .call recv (forall_mem_cons.mpr ⟨first, each⟩)
  simpa [commaLexemes_true] using call

theorem makes_args :
    Row.Makes (Phrase.args k z).row (Phrase.args k z).language := by
  refine .word ?_ (.mono (.before makes_expr [.tail k z]) ?_)
  · rintro w tail _ ⟨_, ⟨_, ⟨r, recv, _, rfl, rfl⟩, _, ⟨name, rfl⟩, rfl⟩, _, rfl, rfl⟩
    have call : IsExpr (r ++ fixed "." :: .name name :: fixed "(" ::
        (commaLexemes true [] ++ [fixed ")"])) := .call recv (forall_mem_nil _)
    simpa [commaLexemes] using tail _ call
  · rintro _ ⟨_, ⟨x, first, _, ⟨list, more, _, rfl, rfl⟩, rfl⟩, rest, tail, rfl⟩ _
      ⟨_, ⟨_, ⟨r, recv, _, rfl, rfl⟩, _, ⟨name, rfl⟩, rfl⟩, _, rfl, rfl⟩
    simpa using tail _ (isExpr_call name recv first more)

theorem makes_nameStmt : Row.Makes nameStmtRow (behind anyName stmts) := by
  refine .word ?_ (.word ?_ (makes_tail.mono ?_))
  · rintro _ ⟨v, value, _, rfl, rfl⟩ _ ⟨name, rfl⟩
    exact .assign value
  · rintro _ ⟨_, ⟨i, index, _, rfl, rfl⟩, rest, element, rfl⟩ _ ⟨name, rfl⟩
    have whole := element (.name name :: fixed "[" :: (i ++ [fixed "]"]))
      ⟨_, ⟨_, ⟨_, ⟨name, rfl⟩, _, rfl, rfl⟩, i, index, rfl⟩, _, rfl, rfl⟩
    simpa using whole
  · rintro w tail _ ⟨name, rfl⟩
    obtain ⟨x, isExpr, _, rfl, same⟩ := tail [.name name] .ident
    exact same ▸ .expr isExpr

theorem makes_stmt : Row.Makes stmtRow stmts := by
  refine .append (.word ?_ (.word ?_ (.word ?_ (.name ?_ .nil)))) (makes_expr.mono ?_)
  · rintro _ ⟨body, list, _, rfl, rfl⟩
    obtain ⟨ss, rfl, each⟩ := Language.mem_kstar.mp list
    exact .block each
  · rintro _ ⟨_, rfl, _, ⟨_, ⟨c, cond, _, rfl, rfl⟩, _, ⟨y, yes, _, ⟨_, rfl, n, no, rfl⟩, rfl⟩, rfl⟩, rfl⟩
    simpa [Mark.text] using IsStmt.ifElse cond yes no
  · rintro _ ⟨_, rfl, _, ⟨_, ⟨c, cond, _, rfl, rfl⟩, b, body, rfl⟩, rfl⟩
    simpa [Mark.text] using IsStmt.while cond body
  · exact fun s w named => named _ ⟨s, rfl⟩
  · rintro _ ⟨x, isExpr, _, rfl, rfl⟩
    exact .expr isExpr

theorem append_mem_body {s : List Lexeme} (first : IsStmt s) (rest : ms ∈ Phrase.body.language) :
    s ++ ms ∈ Phrase.body.language := by
  obtain ⟨_, ⟨ss, list, rs, result, rfl⟩, _, rfl, rfl⟩ := rest
  exact ⟨_, ⟨_, append_mem_kstar first list, rs, result, rfl⟩, _, rfl, by simp⟩

theorem makes_body : Row.Makes bodyRow Phrase.body.language := by
  refine .word ?_ (.word ?_ (.mono (.before makes_stmt [.body]) ?_))
  · rintro _ rfl
    exact ⟨_, ⟨_, Language.nil_mem_kstar _, _, .inl (.inl rfl), rfl⟩, _, rfl, rfl⟩
  · rintro _ ⟨rs, result, _, rfl, rfl⟩
    exact ⟨_, ⟨_, Language.nil_mem_kstar _, _, result _ rfl, rfl⟩, _, rfl, rfl⟩
  · rintro _ ⟨s, isStmt, ms, body, rfl⟩
    exact append_mem_body isStmt body

theorem makes_declName : Row.Makes (declNameRow array) (declNames array) := by
  refine .name ?_ ?_
  · rintro s _ rfl
    exact .inl ⟨s, rfl⟩
  cases array with
  | false => exact .nil
  | true =>
    refine .word ?_ .nil
    rintro _ ⟨_, rfl, _, ⟨s, rfl⟩, rfl⟩
    exact .inr ⟨rfl, _, rfl, _, ⟨_, rfl, _, ⟨s, rfl⟩, rfl⟩, rfl⟩

theorem mem_varTypes_mul {l : Lexeme} {w : List Lexeme} (basic : [l] ∈ varTypes)
    (brackets : array = true → [l, fixed "[", fixed "]"] ∈ varTypes) (rest : w ∈ declNames array) :
    l :: w ∈ varTypes * anyName := by
  rcases rest with ⟨s, rfl⟩ | ⟨isArray, _, rfl, _, ⟨_, rfl, _, ⟨s, rfl⟩, rfl⟩, rfl⟩
  · exact ⟨_, basic, _, ⟨s, rfl⟩, rfl⟩
  · exact ⟨_, brackets isArray, _, ⟨s, rfl⟩, rfl⟩

theorem mem_varTypes_int {w : List Lexeme} (rest : w ∈ declNames true) :
    fixed "int" :: w ∈ varTypes * anyName :=
  mem_varTypes_mul (mem_varTypes.mpr (by simp)) (fun _ => mem_varTypes.mpr (by simp)) rest

theorem mem_varTypes_boolean {w : List Lexeme} (rest : w ∈ declNames false) :
    fixed "boolean" :: w ∈ varTypes * anyName :=
  mem_varTypes_mul (mem_varTypes.mpr (by simp)) (by simp) rest

theorem mem_varTypes_name {s : String} {w : List Lexeme} (isString : array = true → s = "String")
    (rest : w ∈ declNames array) : .name s :: w ∈ varTypes * anyName := by
  refine mem_varTypes_mul (mem_varTypes.mpr (by simp)) (fun isArray => ?_) rest
  exact mem_varTypes.mpr (by simp [isString isArray])

theorem makes_typedName : Row.Makes typedNameRow parameters := by
  have typed : ∀ w ∈ varTypes * anyName, w ∈ parameters := by
    rintro _ ⟨t, isType, name, isName, rfl⟩
    exact ⟨t, .inl isType, name, isName, rfl⟩
  refine .named ?_ (.name ?_ (.word ?_ (.word ?_ (.word ?_ .nil))))
  · exact fun w rest => typed _ (mem_varTypes_name (fun _ => rfl) rest)
  · exact fun s w rest => typed _ (mem_varTypes_name (by simp) rest)
  · exact fun w rest => typed _ (mem_varTypes_int rest)
  · exact fun w rest => typed _ (mem_varTypes_boolean rest)
  · rintro _ (⟨s, rfl⟩ | ⟨⟨⟩, -⟩)
    exact ⟨_, .inr rfl, _, ⟨s, rfl⟩, rfl⟩

theorem makes_methods : Row.Makes methodsRow Phrase.methods.language := by
  refine .word ?_ (.word ?_ .nil)
  · rintro _ ⟨m, isMethod, _, ⟨ms, list, _, rfl, rfl⟩, rfl⟩
    exact ⟨_, append_mem_kstar (isMethod _ rfl) list, _, rfl, by simp⟩
  · rintro _ rfl
    exact ⟨_, Language.nil_mem_kstar _, _, rfl, rfl⟩

theorem mem_of_decl {l : Lexeme} {w : List Lexeme}
    (typed : ∀ d ∈ declNames array, l :: d ∈ varTypes * anyName)
    (rest : w ∈ declNames array * (word ";" * (varDecls∗ * L))) : l :: w ∈ varDecls∗ * L := by
  obtain ⟨d, isDecl, _, ⟨_, rfl, _, ⟨ds, decls, ms, inside, rfl⟩, rfl⟩, rfl⟩ := rest
  exact ⟨_, append_mem_kstar ⟨_, typed d isDecl, _, rfl, rfl⟩ decls, ms, inside, by simp⟩

theorem mem_bodies_of_insides {w : List Lexeme} (inside : w ∈ insides) :
    fixed "\x7b" :: w ∈ bodies := by
  obtain ⟨ds, decls, _, ⟨_, ⟨ss, body, rs, result, rfl⟩, _, rfl, rfl⟩, rfl⟩ := inside
  exact mem_bodies.mpr ⟨ds, decls, ss, body.1, rs, result, body.2, by simp⟩

/-- The entries of a phrase make what it stands for. The two phrases at the start of a body are
left out: for them it matters that the first entry that fits is picked. -/
theorem Phrase.makes (p : Phrase) (notStart : p ≠ .locals)
    (notName : ∀ array, p ≠ .localName array) : Row.Makes p.row p.language := by
  cases p with
  | locals => exact absurd rfl notStart
  | localName array => exact absurd rfl (notName array)
  | mark m _ =>
    refine .word ?_ .nil
    rintro _ rfl
    rfl
  | anyName =>
    refine .name ?_ .nil
    rintro s _ rfl
    exact ⟨s, rfl⟩
  | expr _ _ => exact makes_expr
  | creation k z =>
    refine .word ?_ (.name ?_ .nil)
    · rintro _ ⟨_, rfl, _, ⟨_, ⟨i, index, _, rfl, rfl⟩, rest, tail, rfl⟩, rfl⟩ _ rfl
      simpa [Mark.text] using tail _ (IsExpr.newArray index)
    · rintro s _ ⟨_, rfl, _, ⟨_, rfl, rest, tail, rfl⟩, rfl⟩ _ rfl
      exact tail _ .newObject
  | tail _ _ => exact makes_tail
  | member k z =>
    refine .named ?_ (.name ?_ .nil)
    · rintro w rest _ ⟨r, recv, _, rfl, rfl⟩
      simpa using rest _ ⟨_, ⟨r, recv, _, rfl, rfl⟩, _, rfl, rfl⟩
    · rintro s _ ⟨_, rfl, w, rest, rfl⟩ _ ⟨r, recv, _, rfl, rfl⟩
      simpa [Mark.text] using rest _ ⟨_, ⟨_, ⟨r, recv, _, rfl, rfl⟩, _, ⟨s, rfl⟩, rfl⟩, _, rfl, rfl⟩
  | lengthTail k z =>
    refine .word ?_ (makes_tail.mono ?_)
    · rintro w rest _ ⟨_, ⟨r, recv, _, rfl, rfl⟩, _, rfl, rfl⟩
      simpa using rest _ ⟨_, ⟨_, ⟨r, recv, _, rfl, rfl⟩, _, ⟨_, rfl⟩, rfl⟩, _, rfl, rfl⟩
    · rintro w tail _ ⟨_, ⟨r, recv, _, rfl, rfl⟩, _, rfl, rfl⟩
      simpa using tail _ (IsExpr.length recv)
  | args _ _ => exact makes_args
  | stmt => exact makes_stmt
  | nameStmt => exact makes_nameStmt
  | elementStmt =>
    refine .word ?_ (makes_tail.mono ?_)
    · rintro _ ⟨v, value, _, rfl, rfl⟩ _ ⟨_, ⟨_, ⟨_, ⟨s, rfl⟩, _, rfl, rfl⟩, i, index, rfl⟩, _, rfl, rfl⟩
      simpa using IsStmt.arrayAssign index value
    · rintro w tail _ ⟨_, ⟨_, ⟨_, ⟨s, rfl⟩, _, rfl, rfl⟩, i, index, rfl⟩, _, rfl, rfl⟩
      obtain ⟨x, isExpr, _, rfl, same⟩ := tail ([.name s] ++ _) (.index .ident index)
      have whole : IsStmt ([.name s] ++ fixed "[" :: (i ++ [fixed "]"]) ++ w) := same ▸ .expr isExpr
      simpa using whole
  | block =>
    refine .word ?_ (.mono (.before makes_stmt [.block]) ?_)
    · rintro _ rfl
      exact ⟨_, Language.nil_mem_kstar _, _, rfl, rfl⟩
    · rintro _ ⟨s, isStmt, _, ⟨ss, list, _, rfl, rfl⟩, rfl⟩
      exact ⟨_, append_mem_kstar isStmt list, _, rfl, by simp⟩
  | body => exact makes_body
  | returnRest =>
    refine .word ?_ (makes_expr.mono ?_)
    · rintro _ rfl _ rfl
      exact mem_returns.mpr (.inr (.inl rfl))
    · rintro _ ⟨x, isExpr, _, rfl, rfl⟩ _ rfl
      exact mem_returns.mpr (.inr (.inr ⟨x, isExpr, rfl⟩))
  | declName _ | fieldName _ => exact makes_declName
  | typedName => exact makes_typedName
  | params =>
    refine .word ?_ (.mono (.before makes_typedName [.paramsRest]) ?_)
    · rintro _ rfl
      exact ⟨_, .inl rfl, _, rfl, rfl⟩
    · rintro _ ⟨p, isParam, _, ⟨ps, list, _, rfl, rfl⟩, rfl⟩
      exact ⟨_, .inr ⟨p, isParam, ps, list, rfl⟩, _, rfl, by simp⟩
  | paramsRest =>
    refine .word ?_ (.word ?_ .nil)
    · rintro _ rfl
      exact ⟨_, Language.nil_mem_kstar _, _, rfl, rfl⟩
    · rintro _ ⟨p, isParam, _, ⟨ps, list, _, rfl, rfl⟩, rfl⟩
      exact ⟨_, append_mem_kstar ⟨_, rfl, p, isParam, rfl⟩ list, _, rfl, by simp⟩
  | signature =>
    refine .word ?_ (.mono (.before makes_typedName _) ?_)
    · rintro _ ⟨_, rfl, _, ⟨_, rfl, _, ⟨_, rfl, _, ⟨_, rfl, _, ⟨_, rfl, _, ⟨_, rfl, _, ⟨_, ⟨s, rfl⟩, _,
        ⟨_, rfl, _, ⟨_, rfl, w, inside, rfl⟩, rfl⟩, rfl⟩, rfl⟩, rfl⟩, rfl⟩, rfl⟩, rfl⟩, rfl⟩ _ rfl
      exact mem_methods.mpr ⟨_, .inr (mem_mainSignatures.mpr ⟨s, rfl⟩), _,
        mem_bodies_of_insides inside, rfl⟩
    · rintro _ ⟨_, ⟨t, isType, _, ⟨s, rfl⟩, rfl⟩, _, ⟨_, rfl, _, ⟨_, ⟨ps, list, _, rfl, rfl⟩, _,
        ⟨_, rfl, w, inside, rfl⟩, rfl⟩, rfl⟩, rfl⟩ _ rfl
      refine mem_methods.mpr ⟨_, .inl (mem_instanceSignatures.mpr ⟨t, isType, s, ps, list, rfl⟩), _,
        mem_bodies_of_insides inside, ?_⟩
      simp [Mark.text]
  | mainVoid | mainOpen | mainBracket | fieldEnd | classOpen =>
    exact .word (fun w rest => ⟨_, rfl, w, rest, rfl⟩) .nil
  | mainName | mainString => exact .named (fun w rest => ⟨_, rfl, w, rest, rfl⟩) .nil
  | methods => exact makes_methods
  | fields =>
    refine .word ?_ (.word ?_ (.named ?_ (.name ?_ (makes_methods.mono ?_))))
    · exact fun w => mem_of_decl fun _ => mem_varTypes_int
    · exact fun w => mem_of_decl fun _ => mem_varTypes_boolean
    · exact fun w => mem_of_decl fun _ => mem_varTypes_name fun _ => rfl
    · exact fun s w => mem_of_decl fun _ => mem_varTypes_name (by simp)
    · exact fun w inside => ⟨_, Language.nil_mem_kstar _, w, inside, rfl⟩
  | superclass =>
    refine .word ?_ (.word ?_ .nil)
    · rintro _ ⟨_, ⟨s, rfl⟩, w, rest, rfl⟩
      exact ⟨_, .inr ⟨_, rfl, _, ⟨s, rfl⟩, rfl⟩, w, rest, rfl⟩
    · exact fun w rest => ⟨_, .inl rfl, _, ⟨_, rfl, w, rest, rfl⟩, rfl⟩
  | superName | className | importName =>
    exact .name (fun s w rest => ⟨_, ⟨s, rfl⟩, w, rest, rfl⟩) .nil
  | pathRest =>
    refine .word ?_ (.word ?_ .nil)
    · rintro _ ⟨_, ⟨s, rfl⟩, _, ⟨path, names, w, rest, rfl⟩, rfl⟩
      exact ⟨_, append_mem_kstar ⟨_, rfl, _, ⟨s, rfl⟩, rfl⟩ names, w, rest, rfl⟩
    · exact fun w rest => ⟨_, Language.nil_mem_kstar _, _, ⟨_, rfl, w, rest, rfl⟩, rfl⟩
  | imports =>
    refine .word ?_ (.word ?_ .nil)
    · rintro _ ⟨_, ⟨s, rfl⟩, _, ⟨path, names, _, ⟨_, rfl, _, ⟨is, list, c, isClass, rfl⟩, rfl⟩, rfl⟩, rfl⟩
      have first := mem_imports.mpr ⟨s, path, names, rfl⟩
      exact ⟨_, append_mem_kstar first list, c, isClass, by simp⟩
    · rintro _ ⟨_, ⟨s, rfl⟩, _, ⟨up, isUp, _, ⟨_, rfl, _, ⟨fs, fields, _, ⟨ms, list, _, rfl, rfl⟩, rfl⟩,
        rfl⟩, rfl⟩, rfl⟩
      refine ⟨_, Language.nil_mem_kstar _, _, ?_, rfl⟩
      refine mem_classes.mpr ⟨s, up, isUp.imp_right ?_, fs, fields, ms, list, rfl⟩
      rintro ⟨_, rfl, _, ⟨super, rfl⟩, rfl⟩
      exact ⟨super, rfl⟩

/-- Statements and a result that do not start like the declaration of an array of strings. -/
theorem mem_insides_of_body {w : List Lexeme} (body : w ∈ Phrase.body.language)
    (plain : w ∉ stringArrays) : w ∈ insides := by
  obtain ⟨_, ⟨ss, list, rs, result, rfl⟩, _, rfl, rfl⟩ := body
  refine ⟨_, Language.nil_mem_kstar _, _, ⟨_, ⟨ss, ⟨list, ?_⟩, rs, result, rfl⟩, _, rfl, rfl⟩, rfl⟩
  intro array
  obtain ⟨rest, rfl⟩ := mem_stringArrays.mp array
  exact plain (mem_stringArrays.mpr ⟨_, rfl⟩)

variable {l : Lexeme} {w : List Lexeme} {qs : List Phrase}

theorem mem_insides_of_locals (taken : Phrase.locals.take l = some qs) (rest : w ∈ languages qs) :
    l :: w ∈ insides := by
  by_cases isName : ∃ s, l = .name s
  · obtain ⟨s, rfl⟩ := isName
    rw [take_locals_name] at taken
    cases taken
    exact rest s rfl
  push Not at isName
  obtain ⟨t, member, fits⟩ := Phrase.mem_row_of_take taken
  rcases mem_append.mp member with decl | body
  · simp only [mem_cons, Prod.mk.injEq, not_mem_nil, or_false] at decl
    rcases decl with ⟨rfl, rfl⟩ | ⟨rfl, rfl⟩ | ⟨rfl, rfl⟩ | ⟨rfl, rfl⟩
    · rw [Trigger.fits_word, decide_eq_true_eq] at fits
      exact fits ▸ mem_of_decl (fun _ => mem_varTypes_int) rest
    · rw [Trigger.fits_word, decide_eq_true_eq] at fits
      exact fits ▸ mem_of_decl (fun _ => mem_varTypes_boolean) rest
    · rw [Trigger.fits_named isName] at fits
      cases fits
    · rw [Trigger.fits_name isName] at fits
      cases fits
  · refine mem_insides_of_body (makes_body _ body l fits w rest) fun array => ?_
    obtain ⟨more, same⟩ := mem_stringArrays.mp array
    exact isName _ (cons.inj same).1

theorem mem_insides_of_localName {s : String} (taken : (Phrase.localName array).take l = some qs)
    (rest : w ∈ languages qs) (isString : array = (s = "String" : Bool)) :
    .name s :: l :: w ∈ insides := by
  have typed : ∀ d ∈ declNames array, .name s :: d ∈ varTypes * anyName := by
    refine fun d => mem_varTypes_name fun isArray => ?_
    simpa [isArray] using isString.symm
  have declared : Row.Makes (Row.before (declNameRow array) [.mark .semicolon false, .locals])
      {ls | .name s :: ls ∈ insides} :=
    .mono (.before makes_declName _) fun w => mem_of_decl typed
  obtain ⟨t, member, fits⟩ := Phrase.mem_row_of_take taken
  rcases mem_append.mp member with decl | body
  · exact declared _ decl l fits w rest
  by_cases bracket : l = fixed "[" ∧ array = true
  · obtain ⟨rfl, rfl⟩ := bracket
    cases taken
    exact declared (.word "[", _) (by simp [declNameRow, Row.before]) _ rfl w rest
  · refine mem_insides_of_body ?_ fun start => bracket ?_
    · obtain ⟨ms, first, others, more, same⟩ := makes_nameStmt.before [.body] _ body l fits w rest
      rw [← same]
      exact append_mem_body (first _ ⟨s, rfl⟩) more
    · obtain ⟨more, same⟩ := mem_stringArrays.mp start
      cases same
      exact ⟨rfl, by simpa using isString⟩

/-- **Every entry of the table fits the languages.** -/
theorem Phrase.mem_language {p : Phrase} (taken : p.take l = some qs) (rest : w ∈ languages qs) :
    l :: w ∈ p.language := by
  by_cases start : p = .locals
  · subst start
    exact mem_insides_of_locals taken rest
  by_cases name : ∃ array, p = .localName array
  · obtain ⟨array, rfl⟩ := name
    exact fun s => mem_insides_of_localName taken rest
  push Not at name
  obtain ⟨t, member, fits⟩ := mem_row_of_take taken
  exact p.makes start name _ member l fits w rest

end Rows

theorem mem_languages_of_awaited {X : List Phrase} {w : List Lexeme}
    (after : awaited X w = some []) : w ∈ languages X := by
  induction w generalizing X with
  | nil =>
    rw [awaited_nil] at after
    cases after
    rfl
  | cons l w ih =>
    obtain ⟨p, ps, qs, rfl, taken, later⟩ := awaited_cons after
    have inside := ih later
    rw [languages_append] at inside
    obtain ⟨u, first, v, second, rfl⟩ := inside
    rw [languages_cons]
    exact ⟨l :: u, p.mem_language taken first, v, second, rfl⟩

/-- **What is followed is in the grammar.** -/
theorem mem_languages_of_follow {X : List Phrase} {ls r : List Lexeme}
    (done : follow X ls = .ok r) : ∃ w ∈ languages X, ls = w ++ r := by
  obtain ⟨w, same, after⟩ := awaited_of_ok done
  exact ⟨w, mem_languages_of_awaited after, same⟩

/-! ## What is in the grammar is followed -/

section

variable {k : Closer} {z : Bool} {ps : List Phrase} {ls x i more : List Lexeme} {s : String}
  {args : List (List Lexeme)}

theorem IsExpr.starts (isExpr : IsExpr ls) :
    ∃ l rest, ls = l :: rest ∧ ((Phrase.expr .paren false).take l).isSome = true := by
  induction isExpr with
  | binary _ _ _ ih _ | index _ _ ih _ | length _ ih | call _ _ ih _ =>
    obtain ⟨l, rest, rfl, fits⟩ := ih
    exact ⟨l, _, rfl, fits⟩
  | int small => exact ⟨_, _, rfl, by rw [take_expr_number small]; rfl⟩
  | bool isBool =>
    rcases mem_pair.mp isBool with rfl | rfl
    all_goals exact ⟨_, _, rfl, rfl⟩
  | _ => exact ⟨_, _, rfl, rfl⟩

theorem IsExpr.head_ne (isExpr : IsExpr ls) (more : List Lexeme)
    (none : (Phrase.expr .paren false).take (fixed s) = none) :
    (ls ++ more).head? ≠ some (fixed s) := by
  obtain ⟨l, rest, rfl, fits⟩ := isExpr.starts
  rintro ⟨⟩
  rw [none] at fits
  cases fits

/-- Going along the lexemes comes to what is awaited behind an expression. -/
def PassesExpr (ls : List Lexeme) : Prop :=
  ∀ k z ps more, more.head? ≠ some (fixed "(") →
    follow (.expr k z :: ps) (ls ++ more) = follow (.tail k z :: ps) more

theorem follow_tail_binary (isBinary : s ∈ binarySymbols) (passes : PassesExpr x)
    (noCall : more.head? ≠ some (fixed "(")) :
    follow (.tail k z :: ps) (fixed s :: (x ++ more)) = follow (.tail k z :: ps) more :=
  (follow_take (take_tail_binary isBinary)).trans (passes k z ps more noCall)

theorem follow_tail_index (passes : PassesExpr i) :
    follow (.tail k z :: ps) (fixed "[" :: (i ++ fixed "]" :: more)) =
      follow (.tail k z :: ps) more :=
  passes .bracket z (.tail k z :: ps) (fixed "]" :: more) (by simp)

theorem follow_tail_length (noCall : more.head? ≠ some (fixed "(")) :
    follow (.tail k z :: ps) (fixed "." :: .name "length" :: more) = follow (.tail k z :: ps) more :=
  follow_lengthTail noCall

theorem follow_rest_of_args (passes : ∀ a ∈ args, PassesExpr a) :
    follow (.tail .argument z :: ps) (args.flatMap (fixed "," :: ·) ++ fixed ")" :: more) =
      follow ps more := by
  induction args with
  | nil => rfl
  | cons a args ih =>
    obtain ⟨first, others⟩ := forall_mem_cons.mp passes
    rw [← ih others, flatMap_cons, append_assoc]
    refine first .argument z ps _ ?_
    cases args <;> simp

theorem follow_args_of_isExpr (areExprs : ∀ a ∈ args, IsExpr a) (passes : ∀ a ∈ args, PassesExpr a) :
    follow (.args k z :: ps) (commaLexemes true args ++ fixed ")" :: more) =
      follow (.tail k z :: ps) more := by
  cases args with
  | nil => rfl
  | cons a args =>
    obtain ⟨first, others⟩ := forall_mem_cons.mp passes
    rw [commaLexemes_true, append_assoc,
      follow_args ((areExprs a mem_cons_self).head_ne _ rfl), first,
      follow_rest_of_args others]
    cases args <;> simp

theorem follow_tail_call (areExprs : ∀ a ∈ args, IsExpr a) (passes : ∀ a ∈ args, PassesExpr a) :
    follow (.tail k z :: ps) (fixed "." :: .name s :: fixed "(" ::
      (commaLexemes true args ++ fixed ")" :: more)) = follow (.tail k z :: ps) more := by
  refine .trans ((follow_take (take_member_name s)).trans ?_) (follow_args_of_isExpr areExprs passes)
  split
  · rfl
  · rfl

/-- **Going along an expression comes to what is awaited behind it.** -/
theorem IsExpr.passes (isExpr : IsExpr ls) : PassesExpr ls := by
  induction isExpr with
  | binary isBinary _ _ left right =>
    intro k z ps more noCall
    rw [append_assoc, left]
    · exact follow_tail_binary isBinary right noCall
    · rintro ⟨⟩
      revert isBinary
      decide
  | not _ ih => exact ih
  | parens _ ih =>
    intro k z ps more _
    rw [cons_append, append_assoc]
    exact ih .paren z (.tail k z :: ps) (fixed ")" :: more) (by simp)
  | index _ _ array index =>
    intro k z ps more _
    rw [append_assoc, cons_append, append_assoc, array k z ps _ (by simp)]
    exact follow_tail_index index
  | length _ ih =>
    intro k z ps more noCall
    rw [append_assoc, ih k z ps _ (by simp)]
    exact follow_tail_length noCall
  | call _ areExprs recv args =>
    intro k z ps more _
    rw [append_assoc, recv k z ps _ (by simp)]
    simpa using follow_tail_call areExprs args
  | int small => exact fun k z ps more _ => follow_take (take_expr_number small)
  | bool isBool =>
    rcases mem_pair.mp isBool with rfl | rfl
    all_goals exact fun _ _ _ _ _ => rfl
  | newArray _ ih =>
    intro k z ps more _
    rw [cons_append, cons_append, cons_append, append_assoc]
    exact ih .bracket z (.tail k z :: ps) (fixed "]" :: more) (by simp)
  | ident | this | newObject => exact fun _ _ _ _ _ => rfl

end

section Statements

variable {p : Phrase} {ps : List Phrase} {ls rs more r : List Lexeme} {s : String}

theorem head_ne_of_follow (done : follow (p :: ps) ls = .ok r) (none : p.take (fixed s) = none) :
    ls.head? ≠ some (fixed s) := by
  intro next
  obtain ⟨rest, rfl⟩ := List.head?_eq_some_iff.mp next
  rw [follow_stuck none] at done
  cases done

/-- **A statement that starts with an expression is followed as one.** A name needs care, since an
assignment may come behind it, or behind an index. -/
theorem IsExpr.passes_stmt (isExpr : IsExpr ls) (noCall : more.head? ≠ some (fixed "("))
    (noAssign : more.head? ≠ some (fixed "="))
    (noIndex : ∀ s, ls = [.name s] → more.head? ≠ some (fixed "[")) :
    follow (.stmt :: ps) (ls ++ more) = follow (.tail .semicolon false :: ps) more := by
  induction isExpr generalizing more with
  | binary isBinary _ right left _ =>
    rw [append_assoc, left]
    · exact follow_tail_binary isBinary right.passes noCall
    all_goals
      try intro _ _
      rintro ⟨⟩
      revert isBinary
      decide
  | @index ls is array index ih _ =>
    rw [append_assoc, cons_append, append_assoc]
    by_cases named : ∃ s, ls = [.name s]
    · obtain ⟨s, rfl⟩ := named
      have inside : follow (.nameStmt :: ps) (fixed "[" :: (is ++ fixed "]" :: more)) =
          follow (.elementStmt :: ps) more :=
        index.passes .bracket false (.elementStmt :: ps) (fixed "]" :: more) (by simp)
      exact inside.trans (follow_elementStmt noAssign)
    · push Not at named
      rw [ih (by simp) (by simp) fun s same => absurd same (named s)]
      exact follow_tail_index index.passes
  | length _ ih =>
    rw [append_assoc, ih (by simp) (by simp) (by simp)]
    exact follow_tail_length noCall
  | call _ areExprs ih _ =>
    rw [append_assoc, ih (by simp) (by simp) (by simp)]
    simpa using follow_tail_call areExprs fun a member => (areExprs a member).passes
  | @ident name => exact follow_nameStmt noAssign (noIndex name rfl)
  | @int digits small =>
    have taken : Phrase.stmt.take (.number digits) = some [.tail .semicolon false] := by
      simp [Phrase.take, Phrase.row, stmtRow, exprRow, Row.pick, Trigger.fits, small]
    exact follow_take taken
  | bool isBool =>
    rcases mem_pair.mp isBool with rfl | rfl
    all_goals rfl
  | not isExpr => exact isExpr.passes .semicolon false ps more noCall
  | parens isExpr => exact isExpr.parens.passes .semicolon false ps more noCall
  | newArray isExpr => exact isExpr.newArray.passes .semicolon false ps more noCall
  | this | newObject => rfl

/-- Going along the lexemes of a statement comes to what is awaited behind it. -/
def PassesStmt (ls : List Lexeme) : Prop :=
  ∀ ps more, follow (.stmt :: ps) (ls ++ more) = follow ps more

theorem PassesStmt.head_ne (passes : PassesStmt ls) (more : List Lexeme)
    (none : Phrase.stmt.take (fixed s) = none) : (ls ++ more).head? ≠ some (fixed s) :=
  head_ne_of_follow ((passes [] more).trans (follow_nil more)) none

theorem follow_block_of_passes (passes : ∀ s ∈ ss, PassesStmt s) :
    follow (.block :: ps) (ss.flatten ++ fixed "\x7d" :: more) = follow ps more := by
  induction ss with
  | nil => rfl
  | cons s ss ih =>
    obtain ⟨first, others⟩ := forall_mem_cons.mp passes
    rw [flatten_cons, append_assoc, follow_block (first.head_ne _ rfl), first, ih others]

theorem follow_condition {c : List Lexeme} (cond : IsExpr c) :
    follow (.mark .leftParen false :: .expr .paren false :: ps) (fixed "(" :: (c ++ fixed ")" :: more)) =
      follow ps more :=
  cond.passes .paren false ps (fixed ")" :: more) (by simp)

theorem follow_value {v : List Lexeme} (value : IsExpr v) (z : Bool) :
    follow (.expr .semicolon z :: ps) (v ++ fixed ";" :: more) = follow ps more :=
  value.passes .semicolon z ps (fixed ";" :: more) (by simp)

/-- **Going along a statement comes to what is awaited behind it.** -/
theorem IsStmt.passes (isStmt : IsStmt ls) : PassesStmt ls := by
  induction isStmt with
  | block _ ih =>
    intro ps more
    rw [cons_append, append_assoc]
    exact follow_block_of_passes ih
  | ifElse cond _ _ yes no =>
    intro ps more
    simp only [cons_append, append_assoc]
    exact (follow_condition cond).trans ((yes _ _).trans (no ps more))
  | «while» cond _ body =>
    intro ps more
    simp only [cons_append, append_assoc]
    exact (follow_condition cond).trans (body ps more)
  | assign value =>
    intro ps more
    simp only [cons_append, append_assoc]
    exact follow_value value false
  | arrayAssign index value =>
    intro ps more
    simp only [cons_append, append_assoc]
    refine (index.passes .bracket false (.elementStmt :: ps) _ (by simp)).trans ?_
    exact follow_value value true
  | expr isExpr =>
    intro ps more
    rw [append_assoc, isExpr.passes_stmt (by simp) (by simp) (by simp)]
    rfl

theorem follow_returns (result : rs ∈ returns) :
    follow (.body :: ps) (rs ++ fixed "\x7d" :: more) = follow ps more := by
  rcases mem_returns.mp result with rfl | rfl | ⟨x, isExpr, rfl⟩
  · rfl
  · rfl
  · rw [cons_append, append_assoc]
    have skipped : follow (.returnRest :: .mark .rightBrace false :: ps)
        (x ++ fixed ";" :: fixed "\x7d" :: more) = _ := follow_returnRest (isExpr.head_ne _ rfl)
    exact skipped.trans (follow_value isExpr false)

theorem follow_body_of_stmts (areStmts : ∀ s ∈ ss, IsStmt s) (result : rs ∈ returns) :
    follow (.body :: ps) (ss.flatten ++ (rs ++ fixed "\x7d" :: more)) = follow ps more := by
  induction ss with
  | nil => exact follow_returns result
  | cons s ss ih =>
    obtain ⟨first, others⟩ := forall_mem_cons.mp areStmts
    rw [flatten_cons, append_assoc,
      follow_body (first.passes.head_ne _ rfl) (first.passes.head_ne _ rfl), first.passes,
      ih others]

end Statements

section Declarations

variable {ps : List Phrase} {ls d ds w more : List Lexeme}

theorem follow_locals_varDecl (isDecl : d ∈ varDecls) :
    follow (.locals :: ps) (d ++ more) = follow (.locals :: ps) more := by
  obtain ⟨t, isType, name, rfl⟩ := mem_varDecls.mp isDecl
  rcases mem_varTypes.mp isType with rfl | rfl | rfl | rfl | ⟨s, rfl⟩
  case inr.inr.inr.inr =>
    refine (follow_take (take_locals_name s)).trans ?_
    cases decide (s = "String") <;> rfl
  all_goals rfl

theorem follow_fields_varDecl (isDecl : d ∈ varDecls) :
    follow (.fields :: ps) (d ++ more) = follow (.fields :: ps) more := by
  obtain ⟨t, isType, name, rfl⟩ := mem_varDecls.mp isDecl
  rcases mem_varTypes.mp isType with rfl | rfl | rfl | rfl | ⟨s, rfl⟩
  case inr.inr.inr.inr =>
    refine (follow_take (take_fields_name s)).trans ?_
    cases decide (s = "String") <;> rfl
  all_goals rfl

theorem follow_parameter (isParam : d ∈ parameters) :
    follow (.typedName :: ps) (d ++ more) = follow ps more := by
  obtain ⟨t, isType, name, rfl⟩ := mem_parameters.mp isParam
  rcases isType with isType | rfl
  · rcases mem_varTypes.mp isType with rfl | rfl | rfl | rfl | ⟨s, rfl⟩
    case inr.inr.inr.inr =>
      refine (follow_take (take_typedName_name s)).trans ?_
      cases decide (s = "String") <;> rfl
    all_goals rfl
  · rfl

theorem follow_kstar {X : List Phrase}
    (phrase : ∀ d ∈ L, ∀ more, follow X (d ++ more) = follow X more) (list : ds ∈ L∗)
    (more : List Lexeme) : follow X (ds ++ more) = follow X more := by
  obtain ⟨parts, rfl, each⟩ := Language.mem_kstar.mp list
  clear list
  induction parts with
  | nil => rfl
  | cons d parts ih =>
    obtain ⟨first, others⟩ := forall_mem_cons.mp each
    rw [flatten_cons, append_assoc, phrase d first, ih others]

/-- What is followed as the end of a body starts no declaration, unless it is taken for that of an
array of strings. -/
theorem follow_locals_of_body (done : ∃ r, follow [.body] ls = .ok r) (plain : ls ∉ stringArrays) :
    follow (.locals :: ps) ls = follow (.body :: ps) ls := by
  obtain ⟨r, done⟩ := done
  obtain ⟨c, rfl⟩ : ∃ c : Cursor, c.lexemes = ls :=
    ⟨⟨ls.map fun l => ⟨l, default⟩, default⟩, by simp [Cursor.lexemes, Function.comp_def]⟩
  refine follow_locals_body (Bool.eq_false_iff.mpr fun decl => ?_)
  obtain ⟨s, basic, rest, here⟩ | ⟨s, s', rest, here⟩ | ⟨rest, here⟩ := lexemes_of_atVarDecl decl
  · rw [here] at done
    rcases mem_pair.mp basic with rfl | rfl
    all_goals cases done
  · rw [here] at done
    cases done
  · exact plain (mem_stringArrays.mpr ⟨rest, here⟩)

/-- What comes behind statements does not make them start like the declaration of an array of
strings. -/
theorem not_stringArrays {rs : List Lexeme} (areStmts : ∀ s ∈ ss, IsStmt s) (result : rs ∈ returns)
    (plain : ss.flatten ∉ stringArrays) :
    ss.flatten ++ (rs ++ fixed "\x7d" :: more) ∉ stringArrays := by
  intro array
  obtain ⟨rest, same⟩ := mem_stringArrays.mp array
  have closed : follow [.body] (ss.flatten ++ [fixed "\x7d"]) = .ok [] :=
    follow_body_of_stmts areStmts (.inl (.inl rfl))
  cases body : ss.flatten with
  | nil =>
    rw [body] at same
    rcases mem_returns.mp result with rfl | rfl | ⟨x, _, rfl⟩
    all_goals cases same
  | cons l tail =>
    rw [body] at same closed plain
    cases tail with
    | nil =>
      cases (cons.inj same).1
      cases closed
    | cons l' tail =>
      cases (cons.inj same).1
      cases (cons.inj (cons.inj same).2).1
      exact plain (mem_stringArrays.mpr ⟨tail, rfl⟩)

theorem follow_insides (inside : w ∈ insides) :
    follow (.locals :: ps) (w ++ more) = follow ps more := by
  obtain ⟨ds, decls, _, ⟨_, ⟨ss, ⟨list, plain⟩, rs, result, rfl⟩, _, rfl, rfl⟩, rfl⟩ := inside
  obtain ⟨parts, rfl, areStmts⟩ := Language.mem_kstar.mp list
  rw [append_assoc, follow_kstar (fun d isDecl more => follow_locals_varDecl isDecl) decls]
  simp only [append_assoc, singleton_append]
  rw [follow_locals_of_body _ (not_stringArrays areStmts result plain),
    follow_body_of_stmts areStmts result]
  exact ⟨more, (follow_body_of_stmts areStmts result).trans (follow_nil more)⟩

theorem follow_body_of_mem (isBody : w ∈ bodies) :
    follow (.mark .leftBrace false :: .locals :: ps) (w ++ more) = follow ps more := by
  obtain ⟨ds, decls, ss, list, rs, result, plain, rfl⟩ := mem_bodies.mp isBody
  refine follow_insides ⟨ds, decls, _, ⟨_, ⟨ss, ⟨list, plain⟩, rs, result, rfl⟩, _, rfl, rfl⟩, ?_⟩
  simp

theorem follow_params_of_separated (list : w ∈ separated parameters) :
    follow (.params :: ps) (w ++ fixed ")" :: more) = follow ps more := by
  rcases list with rfl | ⟨p, isParam, rest, others, rfl⟩
  · rfl
  have first (ps : List Phrase) : follow (.typedName :: ps) (p ++ (rest ++ fixed ")" :: more)) =
      follow ps (rest ++ fixed ")" :: more) := follow_parameter isParam
  rw [append_assoc, follow_params, first, follow_kstar _ others]
  · rfl
  · rintro _ ⟨_, rfl, q, isParam', rfl⟩ more
    rw [append_assoc]
    exact follow_parameter isParam'
  · exact head_ne_of_follow ((first []).trans (follow_nil _)) rfl

theorem follow_method (isMethod : w ∈ methods) :
    follow (.methods :: ps) (w ++ more) = follow (.methods :: ps) more := by
  obtain ⟨head, isHead, body, isBody, rfl⟩ := mem_methods.mp isMethod
  rcases isHead with isInstance | isMain
  · obtain ⟨t, isType, name, params, list, rfl⟩ := mem_instanceSignatures.mp isInstance
    have typed (ps : List Phrase) (ls : List Lexeme) :
        follow (.typedName :: ps) (t ++ .name name :: ls) = follow ps ls := by
      have pass : follow (.typedName :: ps) ((t ++ [.name name]) ++ ls) = follow ps ls :=
        follow_parameter (mem_parameters.mpr ⟨t, isType, name, rfl⟩)
      rwa [append_assoc] at pass
    have taken : Phrase.methods.take (fixed "public") = some [.signature, .methods] := rfl
    simp only [cons_append, append_assoc]
    rw [follow_take taken]
    refine (follow_signature ?_).trans ((typed _ _).trans ?_)
    · exact head_ne_of_follow ((typed [] _).trans (follow_nil _)) rfl
    · exact (follow_params_of_separated list).trans (follow_body_of_mem isBody)
  · obtain ⟨name, rfl⟩ := mem_mainSignatures.mp isMain
    exact follow_body_of_mem isBody

theorem follow_methods (list : w ∈ methods∗) : follow [.fields] (w ++ [fixed "\x7d"]) = .ok [] := by
  have skipped : follow [.fields] (w ++ [fixed "\x7d"]) = follow [.methods] (w ++ [fixed "\x7d"]) := by
    obtain ⟨parts, rfl, each⟩ := Language.mem_kstar.mp list
    cases parts with
    | nil => rfl
    | cons m parts =>
      obtain ⟨head, _, body, _, rfl⟩ := mem_methods.mp (each m mem_cons_self)
      rfl
  rw [skipped, follow_kstar (fun m isMethod more => follow_method isMethod) list]
  rfl

theorem follow_class (isClass : w ∈ classes) : follow [.imports] w = .ok [] := by
  obtain ⟨name, up, isUp, fs, fields, ms, list, rfl⟩ := mem_classes.mp isClass
  have members : follow [.fields] (fs ++ (ms ++ [fixed "\x7d"])) = .ok [] := by
    rw [follow_kstar (fun d isDecl more => follow_fields_varDecl isDecl) fields]
    exact follow_methods list
  rcases isUp with rfl | ⟨super, rfl⟩
  · exact members
  · exact members

/-- **A program is followed to its end.** -/
theorem follow_program (isProgram : ls ∈ program) : follow [.imports] ls = .ok [] := by
  obtain ⟨is, list, w, isClass, rfl⟩ := isProgram
  rw [follow_kstar _ list, follow_class isClass]
  rintro _ isImport more
  obtain ⟨name, path, names, rfl⟩ := mem_imports.mp isImport
  have dotted : follow [.pathRest] (path ++ fixed ";" :: more) = follow [.imports] more := by
    refine follow_kstar ?_ names (fixed ";" :: more)
    rintro _ ⟨_, rfl, _, ⟨s, rfl⟩, rfl⟩ more
    rfl
  simp only [cons_append, append_assoc]
  exact dotted

end Declarations

/-- **A text that can be scanned can be read exactly if its lexemes are a program of the
grammar.** -/
theorem parse_accepts_iff {bytes : List UInt8} {tokens : List Token} {stop : Pos}
    (scanned : scan bytes = .ok (tokens, stop)) :
    (∃ f, parse bytes = .ok f) ↔ tokens.map (·.lexeme) ∈ program := by
  refine (parse_iff_follow scanned).trans ⟨fun done => ?_, follow_program⟩
  obtain ⟨w, inside, same⟩ := mem_languages_of_follow done
  rw [same, append_nil]
  exact inside

/-- A text whose only method starts with an assignment to an element of a field `String`. -/
def stringsText : List UInt8 :=
  "class A\x7bint[] String;public int f()\x7bString[0]=1;return 0;\x7d\x7d".toUTF8.toList

theorem parse_accepts_iff_folded :
    (∃ tokens stop, scan foldedText = .ok (tokens, stop) ∧ (∃ f, parse foldedText = .ok f) ∧
      tokens.map (·.lexeme) ∈ program) ∧
    ∃ tokens stop, scan stringsText = .ok (tokens, stop) ∧ (¬∃ f, parse stringsText = .ok f) ∧
      tokens.map (·.lexeme) ∉ program := by
  constructor
  · obtain ⟨pair, scanned⟩ := exists_of_isOk (x := scan foldedText) (by decide +kernel)
    have read : ∃ f, parse foldedText = .ok f := exists_of_isOk (by decide +kernel)
    exact ⟨pair.1, pair.2, scanned, read, (parse_accepts_iff scanned).mp read⟩
  · obtain ⟨pair, scanned⟩ := exists_of_isOk (x := scan stringsText) (by decide +kernel)
    have unread : ¬∃ f, parse stringsText = .ok f := by
      rintro ⟨f, read⟩
      have failed : (parse stringsText).isOk = false := by decide +kernel
      rw [read] at failed
      cases failed
    exact ⟨pair.1, pair.2, scanned, unread, unread ∘ (parse_accepts_iff scanned).mpr⟩

end JavaMinus.Syntax
