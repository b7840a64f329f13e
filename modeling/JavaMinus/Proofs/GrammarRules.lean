import JavaMinus.Proofs.ReadingBack

/-!
# The rules of the grammar

The phrases of the language as languages over lexemes. Expressions and statements contain
themselves, so they are given by one rule for each way to write them (`IsExpr`, `IsStmt`);
everything else is put together from these by concatenation, choice and repetition, up to
whole programs (`program`). The rules for expressions say nothing about how operators group:
`a + b * c` is a sum and a product at once. Names like `String`, `length` and `main` are
names as all others.
-/

namespace JavaMinus.Syntax

open Lexeme (fixed)
open scoped Computability

/-! ## Words and names -/

/-- A fixed word or sign. -/
def word (s : String) : Language Lexeme := {[fixed s]}

/-- A given name. -/
def named (s : String) : Language Lexeme := {[.name s]}

/-- Any name. -/
def anyName : Language Lexeme := {ls | ∃ s, ls = [.name s]}

/-- Phrases with commas between them, or nothing. -/
def separated (phrase : Language Lexeme) : Language Lexeme :=
  1 + phrase * (word "," * phrase)∗

/-! ## Expressions and statements -/

/-- The signs of the binary operators. -/
def binarySymbols : List String := ["&&", "<", "+", "-", "*", "/"]

/-- The lexemes are an expression. -/
inductive IsExpr : List Lexeme → Prop where
  | binary {s : String} {ls rs : List Lexeme} : s ∈ binarySymbols → IsExpr ls → IsExpr rs →
      IsExpr (ls ++ fixed s :: rs)
  | not {ls : List Lexeme} : IsExpr ls → IsExpr (fixed "!" :: ls)
  | parens {ls : List Lexeme} : IsExpr ls → IsExpr (fixed "(" :: (ls ++ [fixed ")"]))
  | index {ls is : List Lexeme} : IsExpr ls → IsExpr is →
      IsExpr (ls ++ fixed "[" :: (is ++ [fixed "]"]))
  | length {ls : List Lexeme} : IsExpr ls → IsExpr (ls ++ [fixed ".", .name "length"])
  | call {ls : List Lexeme} {name : String} {args : List (List Lexeme)} : IsExpr ls →
      (∀ a ∈ args, IsExpr a) →
      IsExpr (ls ++ fixed "." :: .name name :: fixed "(" :: (commaLexemes true args ++ [fixed ")"]))
  | int {digits : String} : digitsValue digits ≤ maxLiteral → IsExpr [.number digits]
  | bool {s : String} : s ∈ ["true", "false"] → IsExpr [fixed s]
  | ident {name : String} : IsExpr [.name name]
  | this : IsExpr [fixed "this"]
  | newArray {ls : List Lexeme} : IsExpr ls →
      IsExpr (fixed "new" :: fixed "int" :: fixed "[" :: (ls ++ [fixed "]"]))
  | newObject {name : String} : IsExpr [fixed "new", .name name, fixed "(", fixed ")"]

/-- The lexemes are a statement. -/
inductive IsStmt : List Lexeme → Prop where
  | block {ss : List (List Lexeme)} : (∀ s ∈ ss, IsStmt s) →
      IsStmt (fixed "\x7b" :: (ss.flatten ++ [fixed "\x7d"]))
  | ifElse {c y n : List Lexeme} : IsExpr c → IsStmt y → IsStmt n →
      IsStmt (fixed "if" :: fixed "(" :: (c ++ fixed ")" :: (y ++ fixed "else" :: n)))
  | while {c b : List Lexeme} : IsExpr c → IsStmt b →
      IsStmt (fixed "while" :: fixed "(" :: (c ++ fixed ")" :: b))
  | assign {name : String} {v : List Lexeme} : IsExpr v →
      IsStmt (.name name :: fixed "=" :: (v ++ [fixed ";"]))
  | arrayAssign {name : String} {i v : List Lexeme} : IsExpr i → IsExpr v →
      IsStmt (.name name :: fixed "[" :: (i ++ fixed "]" :: fixed "=" :: (v ++ [fixed ";"])))
  | expr {x : List Lexeme} : IsExpr x → IsStmt (x ++ [fixed ";"])

/-- The language of expressions. -/
def exprs : Language Lexeme := {ls | IsExpr ls}

/-- The language of statements. -/
def stmts : Language Lexeme := {ls | IsStmt ls}

/-! ## Declarations, methods and programs -/

/-- The types of fields and locals. -/
def varTypes : Language Lexeme :=
  word "int" * word "[" * word "]" + named "String" * word "[" * word "]" +
    word "int" + word "boolean" + anyName

/-- All types, among them that of methods without a result. -/
def types : Language Lexeme := varTypes + word "void"

/-- Declarations of fields and locals. -/
def varDecls : Language Lexeme := varTypes * anyName * word ";"

/-- Parameters of methods. -/
def parameters : Language Lexeme := types * anyName

/-- The end of a body. -/
def returns : Language Lexeme := 1 + word "return" * word ";" + word "return" * exprs * word ";"

/-- What starts like the declaration of an array of strings. -/
def stringArrays : Language Lexeme := named "String" * word "[" * ⊤

/-- Bodies of methods with their braces. The first statement does not start like the
declaration of an array of strings. -/
def bodies : Language Lexeme :=
  word "\x7b" * varDecls∗ * (stmts∗ - stringArrays) * returns * word "\x7d"

/-- What stands between `public` and the body of a method that belongs to an object. -/
def instanceSignatures : Language Lexeme :=
  types * anyName * word "(" * separated parameters * word ")"

/-- What stands between `public` and the body of the method that belongs to the class. -/
def mainSignatures : Language Lexeme :=
  word "static" * word "void" * named "main" * word "(" *
    named "String" * word "[" * word "]" * anyName * word ")"

/-- Methods. -/
def methods : Language Lexeme :=
  word "public" * (instanceSignatures + mainSignatures) * bodies

/-- Imports. -/
def imports : Language Lexeme := word "import" * anyName * (word "." * anyName)∗ * word ";"

/-- Classes. -/
def classes : Language Lexeme :=
  word "class" * anyName * (1 + word "extends" * anyName) *
    word "\x7b" * varDecls∗ * methods∗ * word "\x7d"

/-- Source files. -/
def program : Language Lexeme := imports∗ * classes

/-! ## Membership -/

section

variable {s : String} {l : Lexeme} {ls : List Lexeme} {L : Language Lexeme}

@[simp] theorem mem_word : ls ∈ word s ↔ ls = [fixed s] := Iff.rfl

@[simp] theorem mem_named : ls ∈ named s ↔ ls = [.name s] := Iff.rfl

@[simp] theorem mem_anyName : ls ∈ anyName ↔ ∃ s, ls = [.name s] := Iff.rfl

@[simp] theorem mem_exprs : ls ∈ exprs ↔ IsExpr ls := Iff.rfl

@[simp] theorem mem_stmts : ls ∈ stmts ↔ IsStmt ls := Iff.rfl

theorem mem_varTypes : ls ∈ varTypes ↔ ls = [fixed "int", fixed "[", fixed "]"] ∨
      ls = [.name "String", fixed "[", fixed "]"] ∨ ls = [fixed "int"] ∨ ls = [fixed "boolean"] ∨
      ∃ s, ls = [.name s] := by
  simp only [varTypes, Language.mem_add, or_assoc]
  constructor
  · rintro (⟨_, ⟨_, rfl, _, rfl, rfl⟩, _, rfl, rfl⟩ | ⟨_, ⟨_, rfl, _, rfl, rfl⟩, _, rfl, rfl⟩ | others)
    · exact .inl rfl
    · exact .inr (.inl rfl)
    · exact .inr (.inr others)
  · rintro (rfl | rfl | others)
    · exact .inl ⟨_, ⟨_, rfl, _, rfl, rfl⟩, _, rfl, rfl⟩
    · exact .inr (.inl ⟨_, ⟨_, rfl, _, rfl, rfl⟩, _, rfl, rfl⟩)
    · exact .inr (.inr others)

theorem mem_varDecls :
    ls ∈ varDecls ↔ ∃ t ∈ varTypes, ∃ name, ls = t ++ [.name name, fixed ";"] := by
  rw [varDecls, mul_assoc]
  constructor
  · rintro ⟨t, isType, _, ⟨_, ⟨name, rfl⟩, _, rfl, rfl⟩, rfl⟩
    exact ⟨t, isType, name, rfl⟩
  · rintro ⟨t, isType, name, rfl⟩
    exact ⟨t, isType, _, ⟨_, ⟨name, rfl⟩, _, rfl, rfl⟩, rfl⟩

theorem mem_parameters : ls ∈ parameters ↔ ∃ t ∈ types, ∃ name, ls = t ++ [.name name] := by
  constructor
  · rintro ⟨t, isType, _, ⟨name, rfl⟩, rfl⟩
    exact ⟨t, isType, name, rfl⟩
  · rintro ⟨t, isType, name, rfl⟩
    exact ⟨t, isType, _, ⟨name, rfl⟩, rfl⟩

theorem mem_returns : ls ∈ returns ↔ ls = [] ∨ ls = [fixed "return", fixed ";"] ∨
      ∃ x, IsExpr x ∧ ls = fixed "return" :: (x ++ [fixed ";"]) := by
  simp only [returns, mul_assoc, Language.mem_add, Language.mem_one, or_assoc]
  constructor
  · rintro (rfl | ⟨_, rfl, _, rfl, rfl⟩ | ⟨_, rfl, _, ⟨x, isExpr, _, rfl, rfl⟩, rfl⟩)
    · exact .inl rfl
    · exact .inr (.inl rfl)
    · exact .inr (.inr ⟨x, isExpr, rfl⟩)
  · rintro (rfl | rfl | ⟨x, isExpr, rfl⟩)
    · exact .inl rfl
    · exact .inr (.inl ⟨_, rfl, _, rfl, rfl⟩)
    · exact .inr (.inr ⟨_, rfl, _, ⟨x, isExpr, _, rfl, rfl⟩, rfl⟩)

theorem mem_bodies : ls ∈ bodies ↔ ∃ ds ∈ varDecls∗, ∃ ss ∈ stmts∗, ∃ rs ∈ returns,
      ss ∉ stringArrays ∧ ls = fixed "\x7b" :: (ds ++ (ss ++ (rs ++ [fixed "\x7d"]))) := by
  simp only [bodies, mul_assoc]
  constructor
  · rintro ⟨_, rfl, _, ⟨ds, decls, _, ⟨ss, ⟨body, plain⟩, _, ⟨rs, result, _, rfl, rfl⟩, rfl⟩, rfl⟩, rfl⟩
    exact ⟨ds, decls, ss, body, rs, result, plain, rfl⟩
  · rintro ⟨ds, decls, ss, body, rs, result, plain, rfl⟩
    exact ⟨_, rfl, _, ⟨ds, decls, _, ⟨ss, ⟨body, plain⟩, _, ⟨rs, result, _, rfl, rfl⟩, rfl⟩, rfl⟩, rfl⟩

theorem mem_instanceSignatures :
    ls ∈ instanceSignatures ↔ ∃ t ∈ types, ∃ name, ∃ ps ∈ separated parameters,
      ls = t ++ .name name :: fixed "(" :: (ps ++ [fixed ")"]) := by
  simp only [instanceSignatures, mul_assoc]
  constructor
  · rintro ⟨t, isType, _, ⟨_, ⟨name, rfl⟩, _, ⟨_, rfl, _, ⟨ps, each, _, rfl, rfl⟩, rfl⟩, rfl⟩, rfl⟩
    exact ⟨t, isType, name, ps, each, rfl⟩
  · rintro ⟨t, isType, name, ps, each, rfl⟩
    exact ⟨t, isType, _, ⟨_, ⟨name, rfl⟩, _, ⟨_, rfl, _, ⟨ps, each, _, rfl, rfl⟩, rfl⟩, rfl⟩, rfl⟩

theorem mem_mainSignatures :
    ls ∈ mainSignatures ↔ ∃ name, ls = [fixed "static", fixed "void", .name "main", fixed "(",
      .name "String", fixed "[", fixed "]", .name name, fixed ")"] := by
  simp only [mainSignatures, mul_assoc]
  constructor
  · rintro ⟨_, rfl, _, ⟨_, rfl, _, ⟨_, rfl, _, ⟨_, rfl, _, ⟨_, rfl, _, ⟨_, rfl, _, ⟨_, rfl, _,
      ⟨_, ⟨name, rfl⟩, _, rfl, rfl⟩, rfl⟩, rfl⟩, rfl⟩, rfl⟩, rfl⟩, rfl⟩, rfl⟩
    exact ⟨name, rfl⟩
  · rintro ⟨name, rfl⟩
    exact ⟨_, rfl, _, ⟨_, rfl, _, ⟨_, rfl, _, ⟨_, rfl, _, ⟨_, rfl, _, ⟨_, rfl, _, ⟨_, rfl, _,
      ⟨_, ⟨name, rfl⟩, _, rfl, rfl⟩, rfl⟩, rfl⟩, rfl⟩, rfl⟩, rfl⟩, rfl⟩, rfl⟩

theorem mem_methods : ls ∈ methods ↔ ∃ head, (head ∈ instanceSignatures ∨ head ∈ mainSignatures) ∧
      ∃ body ∈ bodies, ls = fixed "public" :: (head ++ body) := by
  simp only [methods, mul_assoc]
  constructor
  · rintro ⟨_, rfl, _, ⟨head, isHead, body, isBody, rfl⟩, rfl⟩
    exact ⟨head, isHead, body, isBody, rfl⟩
  · rintro ⟨head, isHead, body, isBody, rfl⟩
    exact ⟨_, rfl, _, ⟨head, isHead, body, isBody, rfl⟩, rfl⟩

theorem mem_imports : ls ∈ imports ↔ ∃ name, ∃ rest ∈ (word "." * anyName)∗,
      ls = fixed "import" :: .name name :: (rest ++ [fixed ";"]) := by
  simp only [imports, mul_assoc]
  constructor
  · rintro ⟨_, rfl, _, ⟨_, ⟨name, rfl⟩, _, ⟨rest, path, _, rfl, rfl⟩, rfl⟩, rfl⟩
    exact ⟨name, rest, path, rfl⟩
  · rintro ⟨name, rest, path, rfl⟩
    exact ⟨_, rfl, _, ⟨_, ⟨name, rfl⟩, _, ⟨rest, path, _, rfl, rfl⟩, rfl⟩, rfl⟩

theorem mem_classes :
    ls ∈ classes ↔ ∃ name, ∃ up, (up = [] ∨ ∃ super, up = [fixed "extends", .name super]) ∧
      ∃ fs ∈ varDecls∗, ∃ ms ∈ methods∗, ls = fixed "class" :: .name name ::
        (up ++ fixed "\x7b" :: (fs ++ (ms ++ [fixed "\x7d"]))) := by
  simp only [classes, mul_assoc]
  constructor
  · rintro ⟨_, rfl, _, ⟨_, ⟨name, rfl⟩, _, ⟨up, isUp, _, ⟨_, rfl, _, ⟨fs, fields, _,
      ⟨ms, isMethods, _, rfl, rfl⟩, rfl⟩, rfl⟩, rfl⟩, rfl⟩, rfl⟩
    refine ⟨name, up, isUp.imp_right ?_, fs, fields, ms, isMethods, rfl⟩
    rintro ⟨_, rfl, _, ⟨super, rfl⟩, rfl⟩
    exact ⟨super, rfl⟩
  · rintro ⟨name, up, isUp, fs, fields, ms, isMethods, rfl⟩
    refine ⟨_, rfl, _, ⟨_, ⟨name, rfl⟩, _, ⟨up, isUp.imp_right ?_, _, ⟨_, rfl, _, ⟨fs, fields, _,
      ⟨ms, isMethods, _, rfl, rfl⟩, rfl⟩, rfl⟩, rfl⟩, rfl⟩, rfl⟩
    rintro ⟨super, rfl⟩
    exact ⟨_, rfl, _, ⟨super, rfl⟩, rfl⟩

/-- What starts like the declaration of an array of strings is told by its first two lexemes. -/
theorem mem_stringArrays :
    ls ∈ stringArrays ↔ ∃ rest, ls = .name "String" :: fixed "[" :: rest := by
  simp only [stringArrays, mul_assoc]
  constructor
  · rintro ⟨_, rfl, _, ⟨_, rfl, rest, _, rfl⟩, rfl⟩
    exact ⟨rest, rfl⟩
  · rintro ⟨rest, rfl⟩
    exact ⟨_, rfl, _, ⟨_, rfl, rest, trivial, rfl⟩, rfl⟩

theorem mem_kstar_word : ls ∈ (word s * L)∗ ↔ ∃ ps : List (List Lexeme), (∀ p ∈ ps, p ∈ L) ∧
      ls = ps.flatMap (fixed s :: ·) := by
  rw [Language.mem_kstar]
  constructor
  · rintro ⟨parts, rfl, each⟩
    induction parts with
    | nil => exact ⟨[], List.forall_mem_nil _, rfl⟩
    | cons part parts ih =>
      obtain ⟨first, others⟩ := List.forall_mem_cons.mp each
      obtain ⟨_, rfl, p, member, rfl⟩ := first
      obtain ⟨ps, members, isRest⟩ := ih others
      refine ⟨p :: ps, List.forall_mem_cons.mpr ⟨member, members⟩, ?_⟩
      rw [List.flatten_cons, isRest, List.flatMap_cons]
      rfl
  · rintro ⟨ps, members, rfl⟩
    refine ⟨ps.map (fixed s :: ·), List.flatMap_def, ?_⟩
    intro part member
    obtain ⟨p, isPhrase, rfl⟩ := List.mem_map.mp member
    exact ⟨_, rfl, p, members p isPhrase, rfl⟩

theorem commaLexemes_false (ps : List (List Lexeme)) :
    commaLexemes false ps = ps.flatMap (fixed "," :: ·) := by
  induction ps with
  | nil => rfl
  | cons p ps ih =>
    rw [commaLexemes, ih, List.flatMap_cons]
    rfl

theorem commaLexemes_true (p : List Lexeme) (ps : List (List Lexeme)) :
    commaLexemes true (p :: ps) = p ++ ps.flatMap (fixed "," :: ·) := by
  rw [← commaLexemes_false]
  rfl

end

/-! ## What is next -/

/-- No name is a reserved word. -/
def PlainLexemes (ls : List Lexeme) : Prop := ∀ s, Lexeme.name s ∈ ls → s ∉ reserved

theorem cons_of_head? {c : Cursor} {l : Lexeme} (here : c.head? = some l) :
    ∃ rest, c.lexemes = l :: rest := by
  rw [Cursor.head?_eq] at here
  exact List.head?_eq_some_iff.mp here

theorem cons_of_heads {c : Cursor} {l l' : Lexeme} (first : c.head? = some l)
    (second : c.second? = some l') : ∃ rest, c.lexemes = l :: l' :: rest := by
  obtain ⟨rest, here⟩ := cons_of_head? first
  rw [Cursor.second?_eq, here] at second
  obtain ⟨rest', isRest⟩ := List.head?_eq_some_iff.mp second
  exact ⟨rest', by rw [here, ← isRest, List.tail_cons]⟩

theorem head_of_operator? {c : Cursor} {level : Nat} (binary : level ≠ 0) {op : Operator}
    (found : c.operator? level = some op) :
    ∃ s ∈ binarySymbols, c.head? = some (fixed s) := by
  obtain ⟨s, here, joined⟩ := joined_of_operator? binary found
  exact ⟨s, by cases joined <;> decide, here⟩

theorem head_of_typeName? {c : Cursor} {name : String} (found : c.typeName? = some name) :
    ∃ rest, c.lexemes = .name name :: rest ∨
      (c.lexemes = fixed name :: rest ∧ name ∈ ["int", "boolean", "void"]) := by
  unfold Cursor.typeName? at found
  split at found
  case h_1 here =>
    cases found
    obtain ⟨rest, here⟩ := cons_of_head? here
    exact ⟨rest, .inl here⟩
  case h_2 here =>
    rw [Option.ite_none_right_eq_some] at found
    obtain ⟨basic, same⟩ := found
    cases same
    obtain ⟨rest, here⟩ := cons_of_head? here
    exact ⟨rest, .inr ⟨here, basic⟩⟩
  case h_3 => cases found

theorem typeName?_fixed {name : String} (basic : name ∈ ["int", "boolean", "void"]) (c : Cursor)
    (rest : List Lexeme) (here : c.lexemes = fixed name :: rest) : c.typeName? = some name := by
  unfold Cursor.typeName?
  rw [Cursor.head?_eq, here, List.head?_cons]
  exact if_pos basic

end JavaMinus.Syntax
