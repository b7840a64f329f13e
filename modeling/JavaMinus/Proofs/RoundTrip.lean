import JavaMinus.Proofs.ExpressionLevels

/-!
# Printed files are read back

Statements, declarations, methods, classes and files are read back from their lexemes, as
expressions are. The only place where the grammar looks ahead for something that the tree
does not say is behind the declarations of a method: `String [` starts another one. A body
can start with these lexemes without being written so in the text that was read, since
parentheses around an operand are not part of the tree (`Method.opensLikeDecl`).

The main result is that the printed form of a tree that has been read is read as the same
tree if no method opens like a declaration, and is not read otherwise (`parse_print`).
-/

namespace JavaMinus.Syntax

open List

open Lexeme (fixed)

variable {α : Type} {ls : List Lexeme} {c : Cursor} {name s : String}

/-! ## How statements start -/

/-- The name that an expression is. -/
def Expr.name? : Expr α → Option String
  | .ident _ name => some name
  | _ => none

/-- The name that an expression starts with at a place that asks for a level, if an index
comes right behind it. What is put in parentheses does not start with a name. -/
def Expr.indexedName? (outer : Nat) : Expr α → Option String
  | .index _ a _ => a.name?.or (a.indexedName? operandLevel)
  | .length _ a => a.indexedName? operandLevel
  | .call _ r _ _ => r.indexedName? operandLevel
  | .binary _ op l _ => if op.level < outer then none else l.indexedName? op.level
  | _ => none

/-- The name that a statement starts with, if an index comes right behind it. -/
def Stmt.indexedName? : Stmt α → Option String
  | .expr _ x => x.indexedName? 0
  | .arrayAssign _ t _ _ => some t.name
  | _ => none

/-- The first statement of the body starts with an index into something called `String`,
as the declaration of an array of strings does. -/
def Method.opensLikeDecl (m : Method α) : Bool :=
  m.body.head?.bind Stmt.indexedName? = some "String"

/-- How the lexemes of an expression start, and the name that they start with if an index
comes right behind it. No `=` follows the index. -/
inductive Opening (α : Type) : List Lexeme → Option String → Prop where
  | other {l : Lexeme} {ls : List Lexeme} : l.startsExpr = true → (∀ s, l ≠ .name s) →
      Opening α (l :: ls) none
  | followed {name s : String} {ls : List Lexeme} : s ≠ "=" → s ≠ "[" →
      Opening α (.name name :: fixed s :: ls) none
  | indexed {name : String} {i : Expr α} {ls : List Lexeme} : i.Readable →
      ls.head? ≠ some (fixed "=") →
      Opening α (.name name :: fixed "[" :: (i.lexemes 0 ++ fixed "]" :: ls)) (some name)

theorem Opening.append {more : List Lexeme} {name? : Option String} (opening : Opening α ls name?)
    (noAssign : more.head? ≠ some (fixed "=")) : Opening α (ls ++ more) name? := by
  cases opening with
  | other starts notName => exact .other starts notName
  | followed noAssign noIndex => exact .followed noAssign noIndex
  | @indexed name i ls readable noAssign' =>
    simp only [cons_append, append_assoc]
    refine .indexed readable ?_
    cases ls with
    | nil => exact noAssign
    | cons l ls => exact noAssign'

/-- The operand of something that is written behind it, or the left side of an operator. -/
theorem opening_of_first {x : Expr α} {outer : Nat}
    (first : (∃ m name, x = .ident m name) ∨ Opening α (x.lexemes outer) (x.indexedName? outer))
    (noAssign : s ≠ "=") (noIndex : s ≠ "[") :
    Opening α (x.lexemes outer ++ fixed s :: ls) (x.indexedName? outer) := by
  rcases first with ⟨m, name, rfl⟩ | opening
  · exact .followed noAssign noIndex
  · exact opening.append (by simpa using noAssign)

theorem symbol_facts {op : Operator} (binary : op.level ≠ 0) : op.symbol ≠ "=" ∧ op.symbol ≠ "[" := by
  cases op with
  | not | other => exact absurd rfl binary
  | _ => decide

theorem Expr.Readable.opening_or_ident {x : Expr α} (readable : x.Readable) (outer : Nat) :
    (∃ m name, x = .ident m name) ∨ Opening α (x.lexemes outer) (x.indexedName? outer) := by
  induction readable generalizing outer with
  | ident => exact .inl ⟨_, _, rfl⟩
  | @binary m op l r binary _ _ left _ =>
    right
    rw [Expr.lexemes, Expr.indexedName?]
    by_cases below : op.level < outer
    · rw [if_pos below, decide_eq_true below]
      exact .other (by decide) (by simp)
    · rw [if_neg below, decide_eq_false below]
      obtain ⟨noAssign, noIndex⟩ := symbol_facts binary
      exact opening_of_first (left op.level) noAssign noIndex
  | @not m x _ _ =>
    right
    rw [Expr.lexemes]
    cases decide (notLevel < outer) <;> exact .other (by decide) (by simp)
  | @index m a i _ index array _ =>
    right
    rcases array operandLevel with ⟨m', name, rfl⟩ | opening
    · exact .indexed index (by simp)
    · have noName : a.name? = none := by
        cases a with
        | ident =>
          cases opening with
          | other _ notName => exact absurd rfl (notName _)
        | _ => rfl
      rw [Expr.lexemes, Expr.indexedName?, noName, Option.none_or]
      exact opening.append (by simp)
  | length _ array => exact .inr (opening_of_first (array operandLevel) (by decide) (by decide))
  | call _ _ _ recv _ => exact .inr (opening_of_first (recv operandLevel) (by decide) (by decide))
  | int => exact .inr (.other rfl (by simp))
  | @bool m b => cases b <;> exact .inr (.other (by decide) (by simp))
  | this | newArray | newObject => exact .inr (.other (by decide) (by simp))

theorem Expr.Readable.opening {x : Expr α} (readable : x.Readable) (more : List Lexeme) :
    Opening α (x.lexemes 0 ++ fixed ";" :: more) (x.indexedName? 0) :=
  opening_of_first (readable.opening_or_ident 0) (by decide) (by decide)

theorem Stmt.Readable.lexemes_cons {s : Stmt α} (readable : s.Readable) :
    ∃ l ls, s.lexemes = l :: ls ∧ l ≠ fixed "\x7d" ∧ l ≠ fixed "return" := by
  cases readable with
  | expr value =>
    obtain ⟨l, ls, isLex, starts⟩ := value.lexemes_cons
    refine ⟨l, ls ++ [fixed ";"], by rw [Stmt.lexemes, isLex]; rfl, ?_, ?_⟩
    · rintro rfl
      exact absurd starts (by decide)
    · rintro rfl
      exact absurd starts (by decide)
  | _ => exact ⟨_, _, rfl, by simp, by simp⟩

theorem atVarDecl_of_opening {name? : Option String} (opening : Opening α ls name?)
    (here : c.lexemes = ls) : c.atVarDecl = decide (name? = some "String") := by
  unfold Cursor.atVarDecl
  rw [Cursor.head?_eq, Cursor.second?_eq, here]
  cases opening with
  | @other l ls starts notName =>
    cases l with
    | name s => exact absurd rfl (notName s)
    | number => rfl
    | fixed s =>
      simp only [List.head?_cons]
      simp only [Lexeme.startsExpr, decide_eq_true_eq] at starts
      have plain : ∀ s ∈ ["true", "false", "this", "new", "(", "!"],
        (decide (s = "int") || decide (s = "boolean")) = false := by decide
      rw [plain s starts]
      rfl
  | followed _ noIndex => simp [noIndex]
  | indexed => simp

theorem Stmt.Readable.atVarDecl {s : Stmt α} (readable : s.Readable) {more : List Lexeme}
    (here : c.lexemes = s.lexemes ++ more) :
    c.atVarDecl = decide (s.indexedName? = some "String") := by
  cases readable with
  | expr value =>
    rw [Stmt.lexemes, append_assoc] at here
    exact atVarDecl_of_opening (value.opening more) here
  | _ =>
    unfold Cursor.atVarDecl
    rw [Cursor.head?_eq, Cursor.second?_eq, here]
    simp [Stmt.lexemes, Stmt.indexedName?]

/-! ## Statements -/

/-- The statement without its marks. -/
def Stmt.bare (s : Stmt α) : Stmt Unit := s.map fun _ => ()

theorem stmts_mapList (ss : List (Stmt α)) : Stmt.mapList (fun _ => ()) ss = ss.map Stmt.bare := by
  induction ss with
  | nil => rfl
  | cons s ss ih => rw [Stmt.mapList, ih, map_cons, Stmt.bare]

section Statements

variable {more : List Lexeme} {r : Reading (Stmt Pos)}

theorem reads_exprStmt {m : α} {x : Expr α} (readable : x.Readable) :
    Reads exprStmt (x.lexemes 0 ++ [fixed ";"]) more (·.bare = (Stmt.expr m x).bare) := by
  refine .pos fun p => (reads_expr readable (ends_of_closer (by decide) rfl)).bind
    fun a same => .expect (.pure ?_)
  simp only [Stmt.bare, Stmt.map, Expr.bare] at same ⊢
  rw [same]

theorem reads_assignment {m : α} {t : Target α} {v : Expr α} (readable : v.Readable) :
    Reads (assignment t.name) (.name t.name :: fixed "=" :: (v.lexemes 0 ++ [fixed ";"])) more
      (·.bare = (Stmt.assign m t v).bare) := by
  refine .pos fun p => .advance (.advance ((reads_expr readable (ends_of_closer (by decide) rfl)).bind
    fun a same => .expect (.pure ?_)))
  simp only [Stmt.bare, Stmt.map, Target.map, Expr.bare] at same ⊢
  rw [same]

theorem reads_arrayAssignment {m : α} {t : Target α} {i v : Expr α} (index : i.Readable)
    (value : v.Readable) :
    Reads (arrayAssignment t.name) (.name t.name :: fixed "[" :: (i.lexemes 0 ++
      fixed "]" :: fixed "=" :: (v.lexemes 0 ++ [fixed ";"]))) more
      (·.bare = (Stmt.arrayAssign m t i v).bare) := by
  refine .pos fun p => .advance (.advance ((reads_expr index (ends_of_closer (by decide) rfl)).bind
    fun a same => .expect (.expect ((reads_expr value (ends_of_closer (by decide) rfl)).bind
      fun b same' => .expect (.pure ?_)))))
  simp only [Stmt.bare, Stmt.map, Target.map, Expr.bare] at same same' ⊢
  rw [same, same']

theorem fails_arrayAssignment {i : Expr α} (readable : i.Readable)
    (noAssign : more.head? ≠ some (fixed "=")) :
    Fails (arrayAssignment name) (.name name :: fixed "[" :: (i.lexemes 0 ++ fixed "]" :: more)) :=
  .pos fun _ => .advance (.advance (.later (reads_expr readable (ends_of_closer (by decide) rfl))
    fun _ _ => .behind (.bind (.expect noAssign))))

theorem orElse_of_fails {β : Type} {first second : Reading β} {P : β → Prop}
    (fails : Fails first (ls ++ more)) (read : Reads second ls more P) :
    Reads (orElse first second) ls more P := by
  intro c here
  obtain ⟨e, failed⟩ := fails c here
  obtain ⟨a, given, holds⟩ := read c here
  refine ⟨a, ?_, holds⟩
  rw [orElse, failed]
  exact given

theorem orElse_of_reads {β : Type} {first second : Reading β} {P : β → Prop}
    (read : Reads first ls more P) : Reads (orElse first second) ls more P := by
  intro c here
  obtain ⟨a, given, holds⟩ := read c here
  refine ⟨a, ?_, holds⟩
  rw [orElse, given]
  rfl

theorem reads_simple_expr {m : α} {x : Expr α} (readable : x.Readable) :
    Reads simpleStmt (x.lexemes 0 ++ [fixed ";"]) more (·.bare = (Stmt.expr m x).bare) := by
  have read : Reads exprStmt (x.lexemes 0 ++ [fixed ";"]) more (·.bare = (Stmt.expr m x).bare) :=
    reads_exprStmt readable
  refine .get fun c here => ?_
  have opening := readable.opening more
  rw [append_assoc] at here
  rw [Cursor.head?_eq, Cursor.second?_eq, here, singleton_append]
  have whole : x.lexemes 0 ++ [fixed ";"] ++ more = x.lexemes 0 ++ fixed ";" :: more := by simp
  generalize x.lexemes 0 ++ fixed ";" :: more = ls at opening whole ⊢
  generalize x.indexedName? 0 = name? at opening
  cases opening with
  | @other l ls _ notName =>
    cases l with
    | name s => exact absurd rfl (notName s)
    | number | fixed => exact read
  | @followed name s ls noAssign noIndex =>
    simp only [List.head?_cons, tail_cons]
    split
    case h_1 next => exact absurd (Lexeme.fixed.inj (Option.some.inj next)) noAssign
    case h_2 next => exact absurd (Lexeme.fixed.inj (Option.some.inj next)) noIndex
    case h_3 => exact read
  | indexed index noAssign =>
    exact orElse_of_fails (whole ▸ fails_arrayAssignment index noAssign) read

theorem reads_condition {c : Expr α} (readable : c.Readable) :
    Reads (parenthesized expr) (fixed "(" :: (c.lexemes 0 ++ [fixed ")"])) more (·.bare = c.bare) :=
  .expect ((reads_expr readable (ends_of_closer (by decide) rfl)).bind fun _ same =>
    .expect (.pure same))

theorem reads_simple {P : Stmt Pos → Prop}
    (start : ∀ s ∈ ["\x7b", "if", "while"], (ls ++ more).head? ≠ some (fixed s))
    (read : Reads simpleStmt ls more P) : Reads (stmtOver r) ls more P :=
  .pos fun _ => .refuse (start _ (by simp)) (.refuse (start _ (by simp))
    (.refuse (start _ (by simp)) read))

theorem reads_block {m : α} {ss : List (Stmt α)} (readable : ∀ s ∈ ss, s.Readable)
    (each : ∀ s ∈ ss, ∀ later, Reads r s.lexemes later (·.bare = s.bare)) :
    Reads (stmtOver r) (Stmt.block m ss).lexemes more (·.bare = (Stmt.block m ss).bare) := by
  rw [Stmt.lexemes, Stmt.lexemesList_eq_flatMap]
  have body : Reads (Reading.manyWhile (fun c => !c.nextIs "\x7d") r) (ss.flatMap Stmt.lexemes)
      (fixed "\x7d" :: more) fun as => as.map Stmt.bare = ss.map Stmt.bare := by
    refine reads_manyWhile ?_ each ?_ ?_
    · intro s member
      obtain ⟨l, ls, isLex, _⟩ := (readable s member).lexemes_cons
      simp [isLex]
    · intro s member c later here
      obtain ⟨l, ls, isLex, noBrace, _⟩ := (readable s member).lexemes_cons
      rw [isLex] at here
      simp [Cursor.nextIs_eq, here, noBrace]
    · intro c here
      simp [Cursor.nextIs_eq, here]
  refine .pos fun p => .accept (body.bind fun as sames => .expect (.pure ?_))
  rw [Stmt.bare, Stmt.bare, Stmt.map, Stmt.map, stmts_mapList, stmts_mapList, sames]

theorem reads_ifElse {m : α} {c : Expr α} {y n : Stmt α} (cond : c.Readable)
    (yes : ∀ later, Reads r y.lexemes later (·.bare = y.bare))
    (no : ∀ later, Reads r n.lexemes later (·.bare = n.bare)) :
    Reads (stmtOver r) (Stmt.ifElse m c y n).lexemes more
      (·.bare = (Stmt.ifElse m c y n).bare) := by
  have split : (Stmt.ifElse m c y n).lexemes = fixed "if" :: ((fixed "(" :: (c.lexemes 0 ++
      [fixed ")"])) ++ (y.lexemes ++ (fixed "else" :: (n.lexemes ++ [])))) := by
    simp [Stmt.lexemes]
  rw [split]
  refine .pos fun p => .refuse (by simp) (.accept ((reads_condition cond).bind fun _ same =>
    (yes _).bind fun _ same' => .expect ((no _).bind fun _ same'' => .pure ?_)))
  simp only [Stmt.bare, Stmt.map, Expr.bare] at same same' same'' ⊢
  rw [same, same', same'']

theorem reads_while {m : α} {c : Expr α} {b : Stmt α} (cond : c.Readable)
    (body : ∀ later, Reads r b.lexemes later (·.bare = b.bare)) :
    Reads (stmtOver r) (Stmt.while m c b).lexemes more (·.bare = (Stmt.while m c b).bare) := by
  have split : (Stmt.while m c b).lexemes = fixed "while" :: ((fixed "(" :: (c.lexemes 0 ++
      [fixed ")"])) ++ (b.lexemes ++ [])) := by
    simp [Stmt.lexemes]
  rw [split]
  refine .pos fun p => .refuse (by simp) (.refuse (by simp) (.accept ((reads_condition cond).bind
    fun _ same => (body _).bind fun _ same' => .pure ?_)))
  simp only [Stmt.bare, Stmt.map, Expr.bare] at same same' ⊢
  rw [same, same']

theorem length_le_of_mem_flatMap {ss : List (Stmt α)} {s : Stmt α} (member : s ∈ ss) :
    s.lexemes.length ≤ (ss.flatMap Stmt.lexemes).length := by
  obtain ⟨before, after, rfl⟩ := append_of_mem member
  rw [flatMap_append, flatMap_cons, length_append, length_append]
  omega

/-- **A statement is read back from its lexemes.** -/
theorem Stmt.Readable.readsBack (n : Nat) : ∀ {s : Stmt α}, s.Readable → s.lexemes.length ≤ n →
    ∀ more, Reads (stmtWithin n) s.lexemes more (·.bare = s.bare) := by
  induction n with
  | zero =>
    intro s readable enough
    obtain ⟨l, ls, isLex, _⟩ := readable.lexemes_cons
    simp [isLex] at enough
  | succ n ih =>
    intro s readable enough more
    cases readable with
    | block readable =>
      rw [Stmt.lexemes, Stmt.lexemesList_eq_flatMap, length_cons, length_append] at enough
      refine reads_block readable fun s member later => ih (readable s member) ?_ later
      have part := length_le_of_mem_flatMap member
      omega
    | ifElse cond yes no =>
      simp only [Stmt.lexemes, length_cons, length_append] at enough
      exact reads_ifElse cond (ih yes (by omega)) (ih no (by omega))
    | «while» cond body =>
      simp only [Stmt.lexemes, length_cons, length_append] at enough
      exact reads_while cond (ih body (by omega))
    | assign _ value =>
      refine reads_simple (by simp [Stmt.lexemes]) (.get fun c here => ?_)
      rw [Cursor.head?_eq, Cursor.second?_eq, here]
      exact reads_assignment value
    | arrayAssign _ index value =>
      refine reads_simple (by simp [Stmt.lexemes]) (.get fun c here => ?_)
      rw [Cursor.head?_eq, Cursor.second?_eq, here]
      exact orElse_of_reads (reads_arrayAssignment index value)
    | expr value =>
      refine reads_simple ?_ (reads_simple_expr value)
      obtain ⟨l, ls, isLex, starts⟩ := value.lexemes_cons
      rw [Stmt.lexemes, isLex]
      intro s member next
      obtain rfl : l = fixed s := by simpa using next
      have never : ∀ s ∈ ["\x7b", "if", "while"], (fixed s).startsExpr = false := by decide
      rw [never s member] at starts
      cases starts

theorem reads_stmt {s : Stmt α} (readable : s.Readable) :
    Reads stmt s.lexemes more (·.bare = s.bare) := by
  refine .get fun c here => readable.readsBack c.bound ?_ more
  rw [Cursor.bound_eq, here, length_append]
  omega

end Statements

/-! ## Declarations -/

/-- The declaration without its marks. -/
def VarDecl.bare (d : VarDecl α) : VarDecl Unit := d.map fun _ => ()

section Declarations

variable {more : List Lexeme}

theorem wordLexeme_basic (basic : s ∈ ["int", "boolean", "void"]) : wordLexeme s = fixed s := by
  have isReserved : ∀ s ∈ ["int", "boolean", "void"], s ∈ reserved := by decide
  exact if_pos (isReserved s basic)

theorem IsName.wordLexeme_eq (named : IsName s) : wordLexeme s = .name s := if_neg named.plain

theorem typeName?_of_readable {t : TypeExpr α} (readable : t.Readable)
    (here : c.lexemes = wordLexeme t.name :: ls) : c.typeName? = some t.name := by
  unfold Cursor.typeName?
  rw [Cursor.head?_eq, here, List.head?_cons]
  rcases readable.name with named | basic
  · rw [named.wordLexeme_eq]
  · rw [wordLexeme_basic basic]
    exact if_pos basic

theorem reads_brackets {array : Bool} (allowed : array = true → name = "int" ∨ name = "String")
    (next : more.head? ≠ some (fixed "[")) :
    Reads (brackets name) (if array then [fixed "[", fixed "]"] else []) more (· = array) := by
  unfold brackets
  cases array with
  | true =>
    rw [if_pos (allowed rfl)]
    exact .accept (.expect (.pure rfl))
  | false =>
    split
    · exact .refuse next (.pure rfl)
    · exact .pure rfl

theorem reads_typeExpr {t : TypeExpr α} (readable : t.Readable)
    (next : more.head? ≠ some (fixed "[")) :
    Reads typeExpr t.lexemes more fun a => a.map (fun _ => ()) = t.map fun _ => () := by
  refine .pos fun p => .get fun c here => ?_
  rw [typeName?_of_readable readable here]
  refine .advance ?_
  rw [← append_nil (if t.array then _ else _)]
  refine (reads_brackets readable.array next).bind fun a same => .pure ?_
  simp only [TypeExpr.map, same]

theorem reads_typedName {d : VarDecl α} (readable : d.Readable) :
    Reads typedName d.lexemes more (·.bare = d.bare) := by
  refine .pos fun p => (reads_typeExpr readable.type (by simp)).bind fun t same =>
    .ident (.pure ?_)
  simp only [VarDecl.bare, VarDecl.map] at same ⊢
  rw [same]

theorem reads_varDecl {d : VarDecl α} (readable : d.Readable) :
    Reads varDecl d.lineLexemes more (·.bare = d.bare) :=
  (reads_typedName readable).bind fun _ same => .expect (.pure same)

theorem atVarDecl_of_decl {d : VarDecl α} (readable : d.Readable) (noVoid : d.type.name ≠ "void")
    (here : c.lexemes = d.lineLexemes ++ more) : c.atVarDecl = true := by
  unfold Cursor.atVarDecl
  rw [Cursor.head?_eq, Cursor.second?_eq, here]
  simp only [VarDecl.lineLexemes, VarDecl.lexemes, TypeExpr.lexemes]
  rcases readable.type.name with named | basic
  · rw [named.wordLexeme_eq]
    cases array : d.type.array with
    | false => simp
    | true =>
      have isString : d.type.name = "String" := by
        refine (readable.type.array array).resolve_left fun isInt => ?_
        exact named.plain (isInt ▸ by decide)
      simp [isString]
  · rw [wordLexeme_basic basic]
    simp only [mem_cons, not_mem_nil, or_false] at basic
    rcases basic with isInt | isBoolean | isVoid
    · simp [isInt]
    · simp [isBoolean]
    · exact absurd isVoid noVoid

theorem reads_decls {ds : List (VarDecl α)} (readable : ∀ d ∈ ds, d.Readable ∧ d.type.name ≠ "void")
    (stops : ∀ c : Cursor, c.lexemes = more → c.atVarDecl = false) :
    Reads (Reading.manyWhile Cursor.atVarDecl varDecl) (ds.flatMap VarDecl.lineLexemes) more
      fun as => as.map VarDecl.bare = ds.map VarDecl.bare :=
  reads_manyWhile (fun d _ => by simp [VarDecl.lineLexemes])
    (fun d member later => reads_varDecl (readable d member).1)
    (fun d member c later here => atVarDecl_of_decl (readable d member).1 (readable d member).2 here)
    stops

end Declarations

/-! ## Methods -/

/-- The method without its marks. -/
def Method.bare (m : Method α) : Method Unit := m.map fun _ => ()

/-- The signature is that of the method, up to marks. -/
structure Signature.Fits (s : Signature) (m : Method α) : Prop where
  isStatic : s.isStatic = m.isStatic
  ret : s.ret.map (fun _ => ()) = m.ret.map fun _ => ()
  name : s.name = m.name
  params : s.params.map VarDecl.bare = m.params.map VarDecl.bare

section Methods

variable {m : Method α} {more : List Lexeme}

/-- The lexemes of a method from its return type to the end of its parameters. -/
def Method.signatureLexemes (m : Method α) : List Lexeme :=
  m.ret.lexemes ++ Lexeme.name m.name :: fixed "(" ::
    (commaLexemes true (m.params.map VarDecl.lexemes) ++ [fixed ")"])

theorem reads_instanceSignature (readable : m.Readable) (instance_ : m.isStatic = false) :
    Reads instanceSignature m.signatureLexemes more (·.Fits m) := by
  refine (reads_typeExpr readable.ret (by simp)).bind fun t same => .ident (.expect ?_)
  rw [← append_nil (commaLexemes true _ ++ _)]
  refine (reads_commaSeparated (fun d member later _ => reads_typedName (readable.params d member))
    ?_ (by decide)).bind fun ps sames => .pure ⟨instance_.symm, same, rfl, sames⟩
  intro d member
  refine ⟨_, _, rfl, ?_⟩
  unfold wordLexeme
  split
  · next isReserved =>
    intro same
    rw [Lexeme.fixed.inj same] at isReserved
    exact absurd isReserved (by decide)
  · simp

theorem reads_mainSignature (readable : m.Readable) (static : m.isStatic = true) (p : Pos) :
    Reads (mainSignature p) m.signatureLexemes more (·.Fits m) := by
  obtain ⟨isMain, isVoid, noArray, d, params, isString, isArray⟩ := readable.main static
  have member : d ∈ m.params := by simp [params]
  have split : m.signatureLexemes = fixed "void" :: .name "main" :: fixed "(" ::
      (d.type.lexemes ++ [.name d.name, fixed ")"]) := by
    simp [Method.signatureLexemes, TypeExpr.lexemes, VarDecl.lexemes, isVoid, noArray, isMain, params,
      commaLexemes, wordLexeme_basic]
  rw [split]
  refine .pos fun q => .expect (.ident ?_)
  rw [if_neg (by simp)]
  refine .expect (.pos fun q' => (reads_typeExpr (readable.params d member).type (by simp)).bind
    fun t same => ?_)
  simp only [TypeExpr.map, TypeExpr.mk.injEq, true_and] at same
  rw [if_neg (by simp [same, isString, isArray])]
  refine .ident (.expect (.pure ⟨static.symm, ?_, isMain.symm, ?_⟩))
  · simp [TypeExpr.map, isVoid, noArray]
  · simp [params, VarDecl.bare, VarDecl.map, TypeExpr.map, same]

/-- The rest of a method, of which the place and the signature have been read. -/
def methodBody (p : Pos) (s : Signature) : Reading (Method Pos) := do
  let locals ← Reading.manyWhile Cursor.atVarDecl varDecl
  let body ← Reading.manyWhile (fun c => !c.nextIs "\x7d" && !c.nextIs "return") stmt
  let result ← returnClause
  Reading.expect "\x7d"
  return { mark := p, isStatic := s.isStatic, ret := s.ret, name := s.name, params := s.params,
           locals, body, result }

/-- The lexemes of a method up to the start of its body. -/
def Method.headLexemes (m : Method α) : List Lexeme :=
  fixed "public" :: ((if m.isStatic then [fixed "static"] else []) ++
    (m.signatureLexemes ++ [fixed "\x7b"]))

theorem Method.lexemes_eq (m : Method α) :
    m.lexemes = m.headLexemes ++ (m.insideLexemes ++ [fixed "\x7d"]) := by
  simp [Method.lexemes, Method.headLexemes, Method.signatureLexemes]

theorem method_becomes_body (readable : m.Readable) :
    Becomes method m.headLexemes more (fun y : Pos × Signature => methodBody y.1 y.2)
      fun y => y.2.Fits m := by
  have ret : ∃ l ls, m.signatureLexemes = l :: ls ∧ l ≠ fixed "static" := by
    refine ⟨_, _, rfl, ?_⟩
    rcases readable.ret.name with named | basic
    · simp [named.wordLexeme_eq]
    · rw [wordLexeme_basic basic]
      intro same
      rw [Lexeme.fixed.inj same] at basic
      exact absurd basic (by decide)
  obtain ⟨l, ls, isLex, noStatic⟩ := ret
  refine .pos fun p => .advance ?_
  have body : ∀ s : Signature, s.Fits m → Becomes (methodBody p s) [] more
      (fun y : Pos × Signature => methodBody y.1 y.2) fun y => y.2.Fits m :=
    fun s fits => .here (s := fun y : Pos × Signature => methodBody y.1 y.2) (y := (p, s)) fits
  cases static : m.isStatic with
  | true =>
    exact .accept ((reads_mainSignature readable static p).bind fun s fits =>
      .expect (body s fits))
  | false =>
    refine .refuse (by simp [isLex, noStatic]) ?_
    exact (reads_instanceSignature readable static).bind fun s fits => .expect (body s fits)

/-- Behind the declarations of a method, what is next is taken for another one exactly if
the first statement starts like one. -/
theorem atVarDecl_inside (readable : m.Readable) (here : c.lexemes =
      m.body.flatMap Stmt.lexemes ++ (resultLexemes m.result ++ [fixed "\x7d"] ++ more)) :
    c.atVarDecl = m.opensLikeDecl := by
  unfold Method.opensLikeDecl
  cases body : m.body with
  | nil =>
    unfold Cursor.atVarDecl
    rw [Cursor.head?_eq, here, body]
    cases m.result <;> simp [resultLexemes]
  | cons s ss =>
    rw [body, flatMap_cons, append_assoc] at here
    exact (readable.body s (by simp [body])).atVarDecl here

theorem reads_body (readable : m.Readable) :
    Reads (Reading.manyWhile (fun c => !c.nextIs "\x7d" && !c.nextIs "return") stmt)
      (m.body.flatMap Stmt.lexemes) (resultLexemes m.result ++ [fixed "\x7d"] ++ more)
      fun as => as.map Stmt.bare = m.body.map Stmt.bare := by
  refine reads_manyWhile ?_ (fun s member later => reads_stmt (readable.body s member)) ?_ ?_
  · intro s member
    obtain ⟨l, ls, isLex, _⟩ := (readable.body s member).lexemes_cons
    simp [isLex]
  · intro s member c later here
    obtain ⟨l, ls, isLex, noBrace, noReturn⟩ := (readable.body s member).lexemes_cons
    rw [isLex] at here
    simp [Cursor.nextIs_eq, here, noBrace, noReturn]
  · intro c here
    cases result : m.result with
    | none | some x => simp [Cursor.nextIs_eq, here, result, resultLexemes]

theorem reads_returnClause {result : Option (Expr α)} (readable : ∀ x ∈ result, x.Readable) :
    Reads returnClause (resultLexemes result) (fixed "\x7d" :: more)
      fun a => a.map Expr.bare = result.map Expr.bare := by
  cases result with
  | none => exact .refuse (by simp [resultLexemes]) (.pure rfl)
  | some x =>
    have value : x.Readable := readable x rfl
    obtain ⟨l, ls, isLex, starts⟩ := value.lexemes_cons
    have noEnd : l ≠ fixed ";" := by
      rintro rfl
      exact absurd starts (by decide)
    refine .accept (.refuse (by simp [isLex, noEnd]) ?_)
    refine (reads_expr value (ends_of_closer (by decide) rfl)).bind fun a same =>
      .expect (.pure ?_)
    rw [Option.map_some, Option.map_some, same]

theorem reads_method (readable : m.Readable) (plain : m.opensLikeDecl = false) :
    Reads method m.lexemes more (·.bare = m.bare) := by
  rw [m.lexemes_eq]
  refine (method_becomes_body readable).trans ?_
  rintro ⟨p, s⟩ fits
  have stops : ∀ c : Cursor, c.lexemes = m.body.flatMap Stmt.lexemes ++
      (resultLexemes m.result ++ [fixed "\x7d"] ++ more) → c.atVarDecl = false :=
    fun c here => (atVarDecl_inside readable here).trans plain
  simp only [Method.insideLexemes, append_assoc]
  refine (reads_decls readable.locals (by simpa using stops)).bind fun locals sameLocals => ?_
  refine (reads_body readable).bind fun body sameBody => ?_
  refine (reads_returnClause readable.result).bind fun result sameResult => .expect (.pure ?_)
  simp only [Method.bare, Method.map, stmts_mapList, Method.mk.injEq, true_and]
  exact ⟨fits.isStatic, fits.ret, fits.name, fits.params, sameLocals, sameBody, sameResult⟩

/-- A statement that starts with an index into something called `String` is no declaration of
an array of strings: something stands between the brackets. -/
theorem Stmt.Readable.indexed {s : Stmt α} (readable : s.Readable)
    (indexed : s.indexedName? = some name) :
    ∃ l ls, s.lexemes ++ more = .name name :: fixed "[" :: l :: ls ∧ l ≠ fixed "]" := by
  have starts : ∀ {i : Expr α}, i.Readable → ∃ l ls, i.lexemes 0 = l :: ls ∧ l ≠ fixed "]" := by
    intro i index
    obtain ⟨l, ls, isLex, start⟩ := index.lexemes_cons
    refine ⟨l, ls, isLex, ?_⟩
    rintro rfl
    exact absurd start (by decide)
  cases readable with
  | @expr m x value =>
    have opening := value.opening more
    rw [Stmt.indexedName?] at indexed
    rw [Stmt.lexemes, append_assoc, singleton_append]
    rw [indexed] at opening
    generalize x.lexemes 0 ++ fixed ";" :: more = ls at opening ⊢
    cases opening with
    | @indexed _ i ls index _ =>
      obtain ⟨l, ls', isLex, noClose⟩ := starts index
      rw [isLex]
      exact ⟨l, _, rfl, noClose⟩
  | @arrayAssign m t i v named index value =>
    cases indexed
    obtain ⟨l, ls', isLex, noClose⟩ := starts index
    rw [Stmt.lexemes, isLex]
    exact ⟨l, _, rfl, noClose⟩
  | _ => cases indexed

theorem fails_varDecl {l : Lexeme} (noClose : l ≠ fixed "]") :
    Fails varDecl (.name "String" :: fixed "[" :: l :: ls) := by
  have fails : Fails typeExpr (.name "String" :: fixed "[" :: l :: ls) := by
    refine .pos fun p => .get fun c here => ?_
    have named : c.typeName? = some "String" := by
      unfold Cursor.typeName?
      rw [Cursor.head?_eq, here]
      rfl
    rw [named]
    refine .advance (.bind ?_)
    exact .accept (.bind (.expect (by simpa using noClose)))
  exact .bind (.pos fun p => .bind fails)

theorem fails_method (readable : m.Readable) (opens : m.opensLikeDecl = true) :
    Fails method (m.lexemes ++ more) := by
  have goesOn : ∀ c : Cursor, c.lexemes = m.body.flatMap Stmt.lexemes ++
      (resultLexemes m.result ++ [fixed "\x7d"] ++ more) → c.atVarDecl = true :=
    fun c here => (atVarDecl_inside readable here).trans opens
  have fails : Fails varDecl
      (m.body.flatMap Stmt.lexemes ++ (resultLexemes m.result ++ [fixed "\x7d"] ++ more)) := by
    unfold Method.opensLikeDecl at opens
    cases body : m.body with
    | nil => simp [body] at opens
    | cons s ss =>
      rw [body, List.head?_cons, Option.bind_some, decide_eq_true_eq] at opens
      obtain ⟨l, ls, isLex, noClose⟩ := (readable.body s (by simp [body])).indexed opens
      rw [flatMap_cons, append_assoc, isLex]
      exact fails_varDecl noClose
  rw [m.lexemes_eq, append_assoc]
  refine .of_becomes (method_becomes_body readable) fun y _ => .bind ?_
  have stuck : Fails (Reading.manyWhile Cursor.atVarDecl varDecl)
      (m.locals.flatMap VarDecl.lineLexemes ++ (m.body.flatMap Stmt.lexemes ++
        (resultLexemes m.result ++ [fixed "\x7d"] ++ more))) :=
    fails_manyWhile (f := VarDecl.bare) (g := VarDecl.bare)
      (fun d member later => reads_varDecl (readable.locals d member).1)
      (fun d member c later here =>
        atVarDecl_of_decl (readable.locals d member).1 (readable.locals d member).2 here)
      goesOn fails
  simpa [Method.insideLexemes] using stuck

end Methods

/-! ## Files -/

/-- The import without its mark. -/
def Import.bare (i : Import α) : Import Unit := ⟨(), i.path⟩

/-- The class without its marks. -/
def Class.bare (c : Class α) : Class Unit := c.map fun _ => ()

/-- The file without its marks. -/
def File.bare (f : File α) : File Unit := f.map fun _ => ()

section Files

variable {more : List Lexeme}

theorem length_le_dottedLexemes (path : List String) : path.length ≤ (dottedLexemes path).length := by
  induction path using dottedLexemes.induct with
  | case1 | case2 name => exact Nat.le_refl _
  | case3 name rest long ih =>
    rw [dottedLexemes]
    · simp only [length_cons]
      omega
    · exact long

theorem reads_dottedRest {path : List String} (filled : path ≠ [])
    (ends : more.head? ≠ some (fixed ".")) {n : Nat} (enough : path.length ≤ n) :
    Reads (dottedRest n) (dottedLexemes path) more (· = path) := by
  induction path generalizing n with
  | nil => exact absurd rfl filled
  | cons name rest ih =>
    rw [length_cons] at enough
    obtain ⟨n, rfl⟩ := Nat.exists_eq_succ_of_ne_zero (show n ≠ 0 by omega)
    cases rest with
    | nil => exact .ident (.refuse ends (.pure rfl))
    | cons second rest =>
      refine .ident (.accept ?_)
      rw [← append_nil (dottedLexemes (second :: rest))]
      have later := ih (cons_ne_nil second rest) (Nat.le_of_succ_le_succ enough)
      exact later.bind fun path same => .pure (by rw [same])

theorem reads_importDecl {i : Import α} (filled : i.path ≠ []) :
    Reads importDecl i.lexemes more (·.bare = i.bare) := by
  refine .pos fun p => .advance (.get fun c here => ?_)
  have enough : i.path.length ≤ c.bound := by
    have length := length_le_dottedLexemes i.path
    rw [Cursor.bound_eq, here, length_append, length_append]
    omega
  refine (reads_dottedRest filled (by simp) enough).bind fun path same => .expect (.pure ?_)
  rw [Import.bare, Import.bare, same]

theorem reads_superclass {super : String} (next : more.head? ≠ some (fixed "extends")) :
    Reads superclass (if super = "" then [] else [fixed "extends", Lexeme.name super]) more
      (· = super) := by
  split
  case isTrue none => exact .refuse next (.pure none.symm)
  case isFalse =>
      refine .accept ?_
      rw [← bind_pure Reading.ident]
      exact .ident (.pure rfl)

/-- The rest of a class, of which all that stands before its methods has been read. -/
def classMethods (c : Class Pos) : Reading (Class Pos) := do
  let methods ← Reading.manyWhile (·.nextIs "public") method
  Reading.expect "\x7d"
  return { c with methods }

/-- The lexemes of a class up to its first method. -/
def Class.headLexemes (c : Class α) : List Lexeme :=
  fixed "class" :: Lexeme.name c.name ::
    ((if c.super = "" then [] else [fixed "extends", Lexeme.name c.super]) ++
      fixed "\x7b" :: c.fields.flatMap VarDecl.lineLexemes)

theorem Class.lexemes_eq (c : Class α) :
    c.lexemes = c.headLexemes ++ (c.methods.flatMap Method.lexemes ++ [fixed "\x7d"]) := by
  simp [Class.lexemes, Class.headLexemes]

theorem not_atVarDecl_of_methods {ms : List (Method α)}
    (here : c.lexemes = ms.flatMap Method.lexemes ++ [fixed "\x7d"] ++ more) :
    c.atVarDecl = false := by
  unfold Cursor.atVarDecl
  rw [Cursor.head?_eq, here]
  cases ms with
  | nil => simp
  | cons m ms => simp [Method.lexemes]

theorem classDecl_becomes_methods {c : Class α} (readable : c.Readable) :
    Becomes classDecl c.headLexemes (c.methods.flatMap Method.lexemes ++ [fixed "\x7d"] ++ more)
      classMethods fun d => d.name = c.name ∧ d.super = c.super ∧
        d.fields.map VarDecl.bare = c.fields.map VarDecl.bare := by
  have fields : Reads (Reading.manyWhile Cursor.atVarDecl varDecl)
      (c.fields.flatMap VarDecl.lineLexemes)
      ([] ++ (c.methods.flatMap Method.lexemes ++ [fixed "\x7d"] ++ more))
      fun as => as.map VarDecl.bare = c.fields.map VarDecl.bare :=
    reads_decls readable.fields fun _ => not_atVarDecl_of_methods
  refine .pos fun p => .expect (.ident ?_)
  refine (reads_superclass (by simp)).bind fun super sameSuper => .expect ?_
  rw [← append_nil (c.fields.flatMap VarDecl.lineLexemes)]
  refine fields.bind fun fields sameFields => ?_
  exact .here (s := classMethods) (y := ⟨p, c.name, super, fields, []⟩) ⟨rfl, sameSuper, sameFields⟩

theorem nextIs_public_of_method {m : Method α} (here : c.lexemes = m.lexemes ++ more) :
    c.nextIs "public" = true := by
  rw [Cursor.nextIs_eq, here]
  exact decide_eq_true rfl

theorem reads_classDecl {c : Class α} (readable : c.Readable)
    (plain : ∀ m ∈ c.methods, m.opensLikeDecl = false) :
    Reads classDecl c.lexemes more (·.bare = c.bare) := by
  rw [c.lexemes_eq]
  refine (classDecl_becomes_methods readable).trans fun d ⟨name, super, fields⟩ => ?_
  have methods : Reads (Reading.manyWhile (·.nextIs "public") method)
      (c.methods.flatMap Method.lexemes) (fixed "\x7d" :: more)
      fun ms => ms.map Method.bare = c.methods.map Method.bare := by
    refine reads_manyWhile (fun m _ => cons_ne_nil _ _)
      (fun m member later => reads_method (readable.methods m member) (plain m member))
      (fun m _ c later => nextIs_public_of_method) fun c here => ?_
    simp [Cursor.nextIs_eq, here]
  refine methods.bind fun ms sames => .expect (.pure ?_)
  simp only [Class.bare, Class.map, Class.mk.injEq, true_and]
  exact ⟨name, super, fields, sames⟩

/-- A class with a method whose body starts like a declaration. The methods before the first
one of these are read. -/
theorem fails_classDecl {c : Class α} (readable : c.Readable)
    (opens : ∃ m ∈ c.methods, m.opensLikeDecl = true) : Fails classDecl (c.lexemes ++ more) := by
  obtain ⟨m, isFirst⟩ := Option.isSome_iff_exists.mp (List.find?_isSome.mpr opens)
  obtain ⟨opens, before, after, methods, plain⟩ := List.find?_eq_some_iff_append.mp isFirst
  have readableMethod : ∀ m ∈ before, m.Readable :=
    fun m member => readable.methods m (by simp [methods, member])
  have stuck : Fails (Reading.manyWhile (·.nextIs "public") method)
      (before.flatMap Method.lexemes ++ (m.lexemes ++ (after.flatMap Method.lexemes ++
        [fixed "\x7d"] ++ more))) :=
    fails_manyWhile (f := Method.bare) (g := Method.bare)
      (fun x member later => reads_method (readableMethod x member) (by simpa using plain x member))
      (fun x _ c later => nextIs_public_of_method) (fun c => nextIs_public_of_method)
      (fails_method (readable.methods m (by simp [methods])) opens)
  rw [c.lexemes_eq, append_assoc]
  refine .of_becomes (classDecl_becomes_methods readable) fun d _ => .bind ?_
  simpa [methods] using stuck

theorem reads_imports {f : File α} (readable : f.Readable)
    (next : more.head? = some (fixed "class")) :
    Reads (Reading.manyWhile (·.nextIs "import") importDecl) (f.imports.flatMap Import.lexemes)
      more fun is => is.map Import.bare = f.imports.map Import.bare := by
  refine reads_manyWhile (fun i _ => cons_ne_nil _ _)
    (fun i member later => reads_importDecl (readable.imports i member).1) ?_ ?_
  · intro i _ c later here
    rw [Cursor.nextIs_eq, here]
    exact decide_eq_true rfl
  · intro c here
    simp [Cursor.nextIs_eq, here, next]

theorem reads_file {f : File α} (readable : f.Readable)
    (plain : ∀ m ∈ f.cls.methods, m.opensLikeDecl = false) :
    Reads file f.lexemes [] (·.bare = f.bare) := by
  refine .pos fun p => (reads_imports readable rfl).bind fun is sameImports => ?_
  rw [← append_nil f.cls.lexemes]
  refine (reads_classDecl readable.cls plain).bind fun cls sameClass => .get fun c here => ?_
  have ended : c.rest.isEmpty = true := by simpa [Cursor.lexemes] using here
  rw [if_pos ended]
  refine .pure ?_
  simp only [File.bare, File.map, File.mk.injEq, true_and]
  exact ⟨sameImports, sameClass⟩

theorem fails_file {f : File α} (readable : f.Readable)
    (opens : ∃ m ∈ f.cls.methods, m.opensLikeDecl = true) : Fails file f.lexemes := by
  have stuck : Fails classDecl (f.cls.lexemes ++ []) := fails_classDecl readable.cls opens
  rw [append_nil] at stuck
  exact .pos fun p => .later (reads_imports readable rfl) fun _ _ => .bind stuck

end Files

/-! ## Printed texts -/

theorem parse_of_reads {text : List UInt8} {P : File Pos → Prop} (spelled : HasLexemes text ls)
    (reads : Reads file ls [] P) : ∃ f, parse text = .ok f ∧ P f := by
  obtain ⟨tokens, stop, scanned, isLex⟩ := spelled ⟨1, 1⟩
  obtain ⟨f, given, holds⟩ := reads ⟨tokens, stop⟩ (by rw [append_nil]; exact isLex)
  refine ⟨f, ?_, holds⟩
  have scanned : scan text = .ok (tokens, stop) := scanned
  rw [parse, scanned]
  simp only [bind, Except.bind, given]
  rfl

theorem parse_of_fails {text : List UInt8} (spelled : HasLexemes text ls) (fails : Fails file ls) :
    ∃ e, parse text = .error e := by
  obtain ⟨tokens, stop, scanned, isLex⟩ := spelled ⟨1, 1⟩
  obtain ⟨e, failed⟩ := fails ⟨tokens, stop⟩ isLex
  refine ⟨e, ?_⟩
  have scanned : scan text = .ok (tokens, stop) := scanned
  rw [parse, scanned]
  simp only [bind, Except.bind, failed]

/-- **A text that has been read is read again from the printed form of its tree, and the two
trees are equal up to the places of their parts, unless the body of some method starts with an
index into something called `String`.** In that case the printed form cannot be read. -/
theorem parse_print {bytes : List UInt8} {f : File Pos} (read : parse bytes = .ok f)
    (shallow : ∀ m ∈ f.cls.methods, 1 + Stmt.nestingList m.body ≤ maxIndent) :
    ∃ text, f.print = .ok text ∧ ((∀ m ∈ f.cls.methods, m.opensLikeDecl = false) →
        ∃ f', parse text.toUTF8.toList = .ok f' ∧ f'.map (fun _ => ()) = f.map fun _ => ()) ∧
      ((∃ m ∈ f.cls.methods, m.opensLikeDecl = true) →
        ∃ e, parse text.toUTF8.toList = .error e) := by
  have readable := parse_readable read
  obtain ⟨text, printed, spelled⟩ := scan_print readable shallow
  refine ⟨text, printed, fun plain => ?_, fun opens => ?_⟩
  · exact parse_of_reads spelled (reads_file readable plain)
  · exact parse_of_fails spelled (fails_file readable opens)

/-- A text with redundant and necessary parentheses, and with statements in each other. -/
def foldedText : List UInt8 :=
  ("import io;class A extends B\x7bint[] a;public int f(int x,boolean y)\x7bint i;" ++
    "i=((x+1))*2-x/(3-1);while(i<10&&!(y&&false))i=i+1;a[i]=(a).length;" ++
    "if(!this.g(new A()).h())io.p(a[0]);else\x7bi=0;\x7dreturn i;\x7d\x7d").toUTF8.toList

theorem parse_print_folded : ∃ f, parse foldedText = .ok f ∧
    (∀ m ∈ f.cls.methods, 1 + Stmt.nestingList m.body ≤ maxIndent) ∧
    (∀ m ∈ f.cls.methods, m.opensLikeDecl = false) ∧
    ∃ text f', f.print = .ok text ∧ parse text.toUTF8.toList = .ok f' ∧
      f'.map (fun _ => ()) = f.map fun _ => () := by
  have checked : (parse foldedText).toOption.any (fun f => f.cls.methods.all fun m =>
      decide (1 + Stmt.nestingList m.body ≤ maxIndent) && !m.opensLikeDecl) = true := by
    decide +kernel
  cases read : parse foldedText with
  | error e => simp [read, Except.toOption] at checked
  | ok f =>
    simp only [read, Except.toOption, Option.any_some, all_eq_true, Bool.and_eq_true,
      decide_eq_true_eq, Bool.not_eq_true'] at checked
    have shallow := fun m member => (checked m member).1
    have plain := fun m member => (checked m member).2
    obtain ⟨text, printed, back, _⟩ := parse_print read shallow
    obtain ⟨f', again, same⟩ := back plain
    exact ⟨f, rfl, shallow, plain, text, f', printed, again, same⟩

/-- A text whose only method starts with a call on an element of a field `String`, written in
parentheses, which are not printed. -/
def openingText : List UInt8 :=
  "class A\x7bint[] String;public int f()\x7b(String[0]).g();return 0;\x7d\x7d".toUTF8.toList

/-- The printed form of a text that can be read cannot always be read. -/
theorem printed_opening_not_read : ∃ f text e, parse openingText = .ok f ∧
    (∀ m ∈ f.cls.methods, 1 + Stmt.nestingList m.body ≤ maxIndent) ∧
    f.print = .ok text ∧ parse text.toUTF8.toList = .error e := by
  have checked : (parse openingText).toOption.any (fun f =>
      (f.cls.methods.all fun m => decide (1 + Stmt.nestingList m.body ≤ maxIndent)) &&
        f.cls.methods.any Method.opensLikeDecl) = true := by
    decide +kernel
  cases read : parse openingText with
  | error e => simp [read, Except.toOption] at checked
  | ok f =>
    simp only [read, Except.toOption, Option.any_some, Bool.and_eq_true, all_eq_true,
      decide_eq_true_eq, any_eq_true] at checked
    obtain ⟨shallow, opens⟩ := checked
    have readable := parse_readable read
    obtain ⟨text, printed, spelled⟩ := scan_print readable shallow
    obtain ⟨e, failed⟩ := parse_of_fails spelled (fails_file readable opens)
    exact ⟨f, text, e, rfl, shallow, printed, failed⟩

end JavaMinus.Syntax
