import Mathlib
import JavaMinus.Proofs.DerivedTrees
import JavaMinus.Typing.Analysis

/-!
# What reading gives

Reading a source text gives a tree that can be written as source text
(`parse_readable`): nothing is missing, names are names (`IsName`) and no reserved
words, numbers are not negative, operators are binary ones, only `int` and `String`
have arrays, and the only static method is `main`. The scanner makes no other names
(`scanFrom_plain`), and readers take names from the tokens only. `Gives r P` says that
whatever the reader `r` gives has the property `P`; it is shown of every phrase of
the grammar in turn.
-/

namespace JavaMinus.Syntax

open List

variable {α β : Type} {bytes : List UInt8} {name s : String}

/-! ## Readable trees -/

/-- A word that starts with a letter, an underscore or a dollar sign, and is not reserved. -/
structure IsName (s : String) : Prop where
  plain : s ∉ reserved
  bytes : ∃ b bs, isLetter b = true ∧ (∀ c ∈ bs, isNameByte c = true) ∧ s = asciiText (b :: bs)

/-- An expression that can be written. -/
inductive Expr.Readable : Expr α → Prop where
  | binary {m : α} {op : Operator} {l r : Expr α} : op.level ≠ 0 → l.Readable → r.Readable →
      (Expr.binary m op l r).Readable
  | not {m : α} {x : Expr α} : x.Readable → (Expr.not m x).Readable
  | index {m : α} {a i : Expr α} : a.Readable → i.Readable → (Expr.index m a i).Readable
  | length {m : α} {a : Expr α} : a.Readable → (Expr.length m a).Readable
  | call {m : α} {r : Expr α} {name : String} {as : List (Expr α)} : r.Readable → IsName name →
      (∀ x ∈ as, x.Readable) → (Expr.call m r name as).Readable
  | int {m : α} {v : Int32} : 0 ≤ v.toInt → (Expr.int m v).Readable
  | bool {m : α} {b : Bool} : (Expr.bool m b).Readable
  | ident {m : α} {name : String} : IsName name → (Expr.ident m name).Readable
  | this {m : α} : (Expr.this m).Readable
  | newArray {m : α} {n : Expr α} : n.Readable → (Expr.newArray m n).Readable
  | newObject {m : α} {name : String} : IsName name → (Expr.newObject m name).Readable

/-- A statement that can be written. -/
inductive Stmt.Readable : Stmt α → Prop where
  | block {m : α} {ss : List (Stmt α)} : (∀ s ∈ ss, s.Readable) → (Stmt.block m ss).Readable
  | ifElse {m : α} {c : Expr α} {y n : Stmt α} : c.Readable → y.Readable → n.Readable →
      (Stmt.ifElse m c y n).Readable
  | while {m : α} {c : Expr α} {b : Stmt α} : c.Readable → b.Readable → (Stmt.while m c b).Readable
  | assign {m : α} {t : Target α} {v : Expr α} : IsName t.name → v.Readable →
      (Stmt.assign m t v).Readable
  | arrayAssign {m : α} {t : Target α} {i v : Expr α} : IsName t.name → i.Readable → v.Readable →
      (Stmt.arrayAssign m t i v).Readable
  | expr {m : α} {x : Expr α} : x.Readable → (Stmt.expr m x).Readable

/-- A type that can be written: only `int` and `String` have arrays. -/
structure TypeExpr.Readable (t : TypeExpr α) : Prop where
  name : IsName t.name ∨ t.name ∈ ["int", "boolean", "void"]
  array : t.array = true → t.name = "int" ∨ t.name = "String"

/-- A declaration that can be written. -/
structure VarDecl.Readable (d : VarDecl α) : Prop where
  type : d.type.Readable
  name : IsName d.name

/-- A method that can be written. The only static method is `main`, which takes strings and
returns nothing. -/
structure Method.Readable (m : Method α) : Prop where
  ret : m.ret.Readable
  name : IsName m.name
  params : ∀ d ∈ m.params, d.Readable
  locals : ∀ d ∈ m.locals, d.Readable ∧ d.type.name ≠ "void"
  body : ∀ s ∈ m.body, s.Readable
  result : ∀ x ∈ m.result, x.Readable
  main : m.isStatic = true → m.name = "main" ∧ m.ret.name = "void" ∧ m.ret.array = false ∧
    ∃ d, m.params = [d] ∧ d.type.name = "String" ∧ d.type.array = true

/-- A class that can be written. -/
structure Class.Readable (c : Class α) : Prop where
  name : IsName c.name
  super : c.super = "" ∨ IsName c.super
  fields : ∀ d ∈ c.fields, d.Readable ∧ d.type.name ≠ "void"
  methods : ∀ m ∈ c.methods, m.Readable

/-- A file that can be written. -/
structure File.Readable (f : File α) : Prop where
  imports : ∀ i ∈ f.imports, i.path ≠ [] ∧ ∀ part ∈ i.path, IsName part
  cls : f.cls.Readable

/-! ## Tokens -/

/-- Every name among the tokens is a name. -/
def PlainNames (tokens : List Token) : Prop :=
  ∀ t ∈ tokens, ∀ s, t.lexeme = .name s → IsName s

theorem wordLexeme_plain {text : String} (named : wordLexeme text = .name s) :
    s = text ∧ s ∉ reserved := by
  unfold wordLexeme at named
  split at named
  · cases named
  · cases named
    exact ⟨rfl, by assumption⟩

theorem scanOne_plain {p q : Pos} {b : UInt8} {rest after : List UInt8} {l : Lexeme}
    (token : scanOne p b rest = .token l after q) (named : l = .name s) : IsName s := by
  subst named
  unfold scanOne at token
  split_ifs at token
  any_goals cases token
  · split at token <;> cases token
  · next letter =>
    obtain ⟨same, plain⟩ := wordLexeme_plain (Scanned.token.inj token).1
    exact ⟨plain, b, _, letter, fun c member => mem_takeWhile_imp member, same⟩

theorem forall_scanFrom {P : Lexeme → Prop}
    (each : ∀ {p b rest l after q}, scanOne p b rest = .token l after q → P l) {p stop : Pos}
    {tokens : List Token} (scanned : scanFrom p bytes = .ok (tokens, stop)) :
    ∀ t ∈ tokens, P t.lexeme := by
  fun_induction scanFrom p bytes generalizing tokens stop with
  | case1 p =>
    cases scanned
    exact forall_mem_nil _
  | case2 p b rest after q taken ih => exact ih scanned
  | case3 p b rest l after q taken tokens' stop' more ih =>
    cases scanned
    exact forall_mem_cons.mpr ⟨each taken, ih more⟩
  | case4 p b rest l after q taken e failed ih | case5 p b rest e taken => cases scanned

theorem scanFrom_plain {p stop : Pos} {tokens : List Token}
    (scanned : scanFrom p bytes = .ok (tokens, stop)) : PlainNames tokens :=
  forall_scanFrom (P := fun l => ∀ s, l = .name s → IsName s)
    (fun taken _ named => scanOne_plain taken named) scanned

theorem isName_of_head? {c : Cursor} (plain : PlainNames c.rest) (here : c.head? = some (.name s)) :
    IsName s := by
  simp only [Cursor.head?, Option.map_eq_some_iff] at here
  obtain ⟨t, first, isName⟩ := here
  exact plain t (mem_of_mem_head? first) s isName

/-- From tokens with plain names a reader gives something with a property, and leaves
such tokens. -/
def Gives (r : Reading α) (P : α → Prop) : Prop :=
  ∀ c a c', PlainNames c.rest → r c = .ok (a, c') → P a ∧ PlainNames c'.rest

namespace Gives

variable {P : α → Prop} {Q : β → Prop} {r : Reading α}

protected theorem pure {a : α} (holds : P a) : Gives (pure a) P := by
  rintro c _ _ plain ⟨⟩
  exact ⟨holds, plain⟩

protected theorem bind {f : α → Reading β} (first : Gives r P) (second : ∀ a, P a → Gives (f a) Q) :
    Gives (r >>= f) Q := by
  intro c b c' plain given
  obtain ⟨a, middle, here, there⟩ := Reading.ok_of_bind given
  obtain ⟨holds, plain'⟩ := first c a middle plain here
  exact second a holds middle b c' plain' there

theorem andThen {f : α → Reading β} (first : Gives r fun _ => True)
    (second : ∀ a, Gives (f a) Q) : Gives (r >>= f) Q :=
  first.bind fun a _ => second a

protected theorem get : Gives (get : Reading Cursor) fun c => PlainNames c.rest := by
  rintro c _ _ plain ⟨⟩
  exact ⟨plain, plain⟩

protected theorem throw (e : SyntaxError) : Gives (throw e : Reading α) P := by
  intro c a c' _ given
  cases given

theorem failing {f : α → Reading β} (e : SyntaxError) : Gives (throw e >>= f) Q :=
  .bind (P := fun _ => False) (.throw e) fun _ never => never.elim

theorem problem (p : SyntaxProblem) : Gives (Reading.problem p : Reading α) P :=
  .bind .get fun _ _ => .throw _

theorem unexpected (w : Wanted) : Gives (Reading.unexpected w : Reading α) P :=
  .bind .get fun _ _ => .problem _

theorem pos : Gives Reading.pos fun _ => True := .bind .get fun _ _ => .pure trivial

theorem advance : Gives Reading.advance fun _ => True := by
  rintro c _ _ plain ⟨⟩
  exact ⟨trivial, fun t member => plain t (mem_of_mem_tail member)⟩

theorem accept (text : String) : Gives (Reading.accept text) fun _ => True := by
  have next : Gives (Reading.nextIs text) fun _ => True := .bind .get fun _ _ => .pure trivial
  refine .bind next fun b _ => ?_
  cases b with
  | false => exact .pure trivial
  | true => exact .andThen advance fun _ => .pure trivial

theorem expect (text : String) : Gives (Reading.expect text) fun _ => True := by
  refine .bind (accept text) fun b _ => ?_
  cases b with
  | false => exact .unexpected _
  | true => exact .pure trivial

theorem ident : Gives Reading.ident IsName := by
  refine .bind .get fun c plain => ?_
  split
  case h_1 s here => exact .andThen advance fun _ => .pure (isName_of_head? plain here)
  case h_2 => exact .unexpected _

theorem commaList {close : String} (phrase : Gives r P) (n : Nat) (isFirst : Bool) :
    Gives (Reading.commaList close r n isFirst) fun xs => ∀ x ∈ xs, P x := by
  induction n generalizing isFirst with
  | zero => exact .problem _
  | succ n ih =>
    refine .bind (accept close) fun b _ => ?_
    have more : Gives (do
        let x ← r
        return x :: (← Reading.commaList close r n false)) fun xs => ∀ x ∈ xs, P x :=
      .bind phrase fun x holds => .bind (ih false) fun xs others =>
        .pure (forall_mem_cons.mpr ⟨holds, others⟩)
    cases b with
    | true => exact .pure (forall_mem_nil _)
    | false =>
      cases isFirst with
      | true => exact more
      | false => exact .andThen (expect _) fun _ => more

theorem whileAt {go : Cursor → Bool}
    (phrase : ∀ c a c', PlainNames c.rest → go c = true → r c = .ok (a, c') →
      P a ∧ PlainNames c'.rest) (n : Nat) :
    Gives (Reading.whileAt go r n) fun xs => ∀ x ∈ xs, P x := by
  induction n with
  | zero => exact .problem _
  | succ n ih =>
    intro c xs c' plain given
    rw [Reading.whileAt, Reading.run_bind_ok Reading.run_get] at given
    split at given
    case isTrue goes =>
      obtain ⟨x, _, first, given⟩ := Reading.ok_of_bind given
      obtain ⟨others, _, remaining, given⟩ := Reading.ok_of_bind given
      cases given
      obtain ⟨holds, plain'⟩ := phrase _ _ _ plain goes first
      obtain ⟨each, plain''⟩ := ih _ _ _ plain' remaining
      exact ⟨forall_mem_cons.mpr ⟨holds, each⟩, plain''⟩
    case isFalse =>
      cases given
      exact ⟨forall_mem_nil _, plain⟩

theorem commaSeparated {close : String} (phrase : Gives r P) :
    Gives (Reading.commaSeparated close r) fun xs => ∀ x ∈ xs, P x :=
  .bind .get fun _ _ => .commaList phrase _ _

theorem manyWhile {go : Cursor → Bool} (phrase : Gives r P) :
    Gives (Reading.manyWhile go r) fun xs => ∀ x ∈ xs, P x :=
  .bind .get fun _ _ => .whileAt (fun c a c' plain _ given => phrase c a c' plain given) _

end Gives

/-! ## Expressions -/

theorem Listed.subset {isFirst : Bool} {phrases : List (List Token)} {us : List Token}
    (listed : Listed isFirst phrases us) : ∀ ts ∈ phrases, ts ⊆ us := by
  induction listed with
  | nil => simp
  | first _ ih | next _ ih =>
    exact forall_mem_cons.mpr ⟨by simp, fun ts member => Subset.trans (ih ts member) (by simp)⟩

/-- A tree that is derived from plain names can be written. -/
theorem Derived.readable {k : Nat} {ts : List Token} {x : Expr Pos} (derived : Derived k ts x)
    (plain : PlainNames ts) : x.Readable := by
  simp only [PlainNames] at plain
  induction derived with
  | binary joined _ _ left right =>
    have leveled : ∀ {k s op}, Joined k s op → op.level ≠ 0 := by rintro _ _ _ ⟨⟩ <;> decide
    exact .binary (leveled joined) (left (by grind)) (right (by grind))
  | lower _ _ above => exact above plain
  | not _ inside => exact .not (inside (by grind))
  | parens _ inside => exact inside (by grind)
  | index _ _ array index => exact .index (array (by grind)) (index (by grind))
  | length _ array => exact .length (array (by grind))
  | @call p q r s ls us x name args _ _ listed recv each =>
    have inside := listed.subset
    refine .call (recv (by grind)) (plain ⟨.name name, q⟩ (by simp) name rfl) ?_
    intro y member
    obtain ⟨a, isArg, rfl⟩ := mem_map.mp member
    have among := inside a.1 (mem_map_of_mem isArg)
    exact each a isArg (by grind)
  | @int p digits small =>
    have held : (Int32.ofNat (digitsValue digits)).toInt = digitsValue digits :=
      Int32.toInt_ofNat_of_lt (by omega)
    exact .int (by omega)
  | bool => exact .bool
  | ident => exact .ident (plain _ mem_cons_self _ rfl)
  | this => exact .this
  | newArray _ length => exact .newArray (length (by grind))
  | @newObject p q _ _ name => exact .newObject (plain ⟨.name name, q⟩ (by simp) _ rfl)

theorem expr_readable : Gives expr Expr.Readable := by
  intro c x d plain read
  obtain ⟨ts, behind, derived⟩ := consumes_expr c x d read
  rw [behind.rest] at plain
  obtain ⟨passed, left⟩ := forall_mem_append.mp plain
  exact ⟨derived.readable passed, left⟩

theorem condition_readable : Gives (parenthesized expr) Expr.Readable :=
  .andThen (.expect _) fun _ => .bind expr_readable fun _ readable =>
    .andThen (.expect _) fun _ => .pure readable

/-! ## Declarations and statements -/

theorem typeName?_readable {c : Cursor} (plain : PlainNames c.rest)
    (found : c.typeName? = some name) : IsName name ∨ name ∈ ["int", "boolean", "void"] := by
  unfold Cursor.typeName? at found
  split at found
  case h_1 here =>
    cases found
    exact .inl (isName_of_head? plain here)
  case h_2 =>
    rw [Option.ite_none_right_eq_some] at found
    obtain ⟨member, same⟩ := found
    cases same
    exact .inr member
  case h_3 => cases found

theorem brackets_readable (name : String) :
    Gives (brackets name) fun array => array = true → name = "int" ∨ name = "String" := by
  unfold brackets
  split
  case isTrue has =>
    refine .bind (.accept _) fun b _ => ?_
    cases b with
    | true => exact .andThen (.expect _) fun _ => .pure fun _ => has
    | false => exact .pure fun _ => has
  case isFalse => exact .pure fun never => by cases never

theorem typeExpr_readable : Gives typeExpr TypeExpr.Readable := by
  refine .bind .pos fun p _ => .bind .get fun c plain => ?_
  split
  case h_1 name found =>
    exact .andThen .advance fun _ => .bind (brackets_readable name) fun _ array =>
      .pure ⟨typeName?_readable plain found, array⟩
  case h_2 => exact .unexpected _

theorem typedName_readable : Gives typedName VarDecl.Readable :=
  .bind .pos fun _ _ => .bind typeExpr_readable fun _ type => .bind .ident fun _ named =>
    .pure ⟨type, named⟩

theorem varDecl_readable : Gives varDecl VarDecl.Readable :=
  .bind typedName_readable fun _ readable => .andThen (.expect _) fun _ => .pure readable

theorem name_typeExpr {c c' : Cursor} {t : TypeExpr Pos} (read : typeExpr c = .ok (t, c')) :
    c.typeName? = some t.name := by
  obtain ⟨_, _, here, read⟩ := Reading.ok_of_bind read
  cases here
  obtain ⟨_, _, here, read⟩ := Reading.ok_of_bind read
  cases here
  cases found : c.typeName? with
  | none =>
    rw [found] at read
    cases read
  | some name =>
    rw [found] at read
    obtain ⟨_, _, _, read⟩ := Reading.ok_of_bind read
    obtain ⟨_, _, _, read⟩ := Reading.ok_of_bind read
    cases read
    rfl

theorem typeName?_of_atVarDecl {c : Cursor} (decl : c.atVarDecl = true) :
    c.typeName? ≠ some "void" ∨ ∃ s, c.head? = some (.name s) := by
  unfold Cursor.atVarDecl at decl
  split at decl
  case h_1 s head =>
    left
    simp only [Bool.or_eq_true, decide_eq_true_eq] at decl
    rcases decl with rfl | rfl <;> simp [Cursor.typeName?, head]
  case h_2 s t head second => exact .inr ⟨s, head⟩
  case h_3 s b head second => exact .inr ⟨s, head⟩
  case h_4 => cases decl

theorem varDecls_readable : Gives (Reading.manyWhile Cursor.atVarDecl varDecl)
    fun ds => ∀ d ∈ ds, d.Readable ∧ d.type.name ≠ "void" := by
  refine .bind .get fun _ _ => .whileAt (fun c d c' plain decl given => ?_) _
  obtain ⟨readable, plain'⟩ := varDecl_readable c d c' plain given
  refine ⟨⟨readable, fun void => ?_⟩, plain'⟩
  obtain ⟨d', _, typed, given⟩ := Reading.ok_of_bind given
  obtain ⟨_, _, _, given⟩ := Reading.ok_of_bind given
  cases given
  obtain ⟨_, _, here, typed⟩ := Reading.ok_of_bind typed
  cases here
  obtain ⟨t, _, read, typed⟩ := Reading.ok_of_bind typed
  obtain ⟨_, _, _, typed⟩ := Reading.ok_of_bind typed
  cases typed
  have name := name_typeExpr read
  rw [show t.name = "void" from void] at name
  rcases typeName?_of_atVarDecl decl with other | ⟨s, head⟩
  · exact other name
  · have same : s = "void" := by simpa [Cursor.typeName?, head] using name
    exact (isName_of_head? plain (same ▸ head)).plain (by decide)

theorem exprStmt_readable : Gives exprStmt Stmt.Readable :=
  .bind .pos fun _ _ => .bind expr_readable fun _ readable => .andThen (.expect _) fun _ =>
    .pure (.expr readable)

theorem assignment_readable (named : IsName name) : Gives (assignment name) Stmt.Readable :=
  .bind .pos fun _ _ => .andThen .advance fun _ => .andThen .advance fun _ =>
    .bind expr_readable fun _ value => .andThen (.expect _) fun _ => .pure (.assign named value)

theorem arrayAssignment_readable (named : IsName name) :
    Gives (arrayAssignment name) Stmt.Readable :=
  .bind .pos fun _ _ => .andThen .advance fun _ => .andThen .advance fun _ =>
    .bind expr_readable fun _ index => .andThen (.expect _) fun _ => .andThen (.expect _) fun _ =>
      .bind expr_readable fun _ value => .andThen (.expect _) fun _ =>
        .pure (.arrayAssign named index value)

theorem simpleStmt_readable : Gives simpleStmt Stmt.Readable := by
  refine .bind .get fun c plain => ?_
  split
  case h_1 s head _ => exact assignment_readable (isName_of_head? plain head)
  case h_2 s head _ =>
    intro c' a c'' plain' given
    unfold orElse at given
    split at given
    case h_1 here =>
      cases given
      exact arrayAssignment_readable (isName_of_head? plain head) c' a c'' plain' here
    case h_2 => exact exprStmt_readable c' a c'' plain' given
  case h_3 => exact exprStmt_readable

theorem stmtOver_readable {r : Reading (Stmt Pos)} (inner : Gives r Stmt.Readable) :
    Gives (stmtOver r) Stmt.Readable := by
  refine .bind .pos fun p _ => .bind (.accept _) fun isBlock _ => ?_
  cases isBlock with
  | true =>
    exact .bind (.manyWhile inner) fun ss each => .andThen (.expect _) fun _ => .pure (.block each)
  | false =>
  refine .bind (.accept _) fun isIf _ => ?_
  cases isIf with
  | true =>
    exact .bind condition_readable fun _ first => .bind inner fun _ yes => .andThen (.expect _) fun _ =>
      .bind inner fun _ no => .pure (.ifElse first yes no)
  | false =>
  refine .bind (.accept _) fun isWhile _ => ?_
  cases isWhile with
  | true => exact .bind condition_readable fun _ first => .bind inner fun _ body => .pure (.while first body)
  | false => exact simpleStmt_readable

theorem stmt_readable : Gives stmt Stmt.Readable := by
  have within : ∀ n, Gives (stmtWithin n) Stmt.Readable := by
    intro n
    induction n with
    | zero => exact .problem _
    | succ n ih => exact stmtOver_readable ih
  exact .bind .get fun _ _ => within _

/-! ## Methods and files -/

/-- What stands before the body of a readable method. -/
structure Signature.Readable (s : Signature) : Prop where
  ret : s.ret.Readable
  name : IsName s.name
  params : ∀ d ∈ s.params, d.Readable
  main : s.isStatic = true → s.name = "main" ∧ s.ret.name = "void" ∧ s.ret.array = false ∧
    ∃ d, s.params = [d] ∧ d.type.name = "String" ∧ d.type.array = true

theorem mainSignature_readable (p : Pos) : Gives (mainSignature p) Signature.Readable := by
  refine .bind .pos fun _ _ => .andThen (.expect _) fun _ => .bind .ident fun name named => ?_
  split
  case isTrue => exact .failing _
  case isFalse isMain =>
  refine .andThen (.expect _) fun _ => .bind .pos fun _ _ => .bind typeExpr_readable fun t type => ?_
  split
  case isTrue => exact .failing _
  case isFalse strings =>
  refine .bind .ident fun _ arg => .andThen (.expect _) fun _ => .pure ⟨?_, named, ?_, fun _ => ?_⟩
  · exact ⟨.inr (by simp), fun never => by cases never⟩
  · exact forall_mem_singleton.mpr ⟨type, arg⟩
  · simp only [not_or, not_not, Bool.not_eq_true, Bool.not_eq_false'] at strings
    exact ⟨not_not.mp isMain, rfl, rfl, _, rfl, strings.1, strings.2⟩

theorem instanceSignature_readable : Gives instanceSignature Signature.Readable :=
  .bind typeExpr_readable fun _ ret => .bind .ident fun _ named => .andThen (.expect _) fun _ =>
    .bind (.commaSeparated typedName_readable) fun _ each =>
      .pure ⟨ret, named, each, fun never => by cases never⟩

theorem returnClause_readable : Gives returnClause fun result => ∀ x ∈ result, x.Readable := by
  refine .bind (.accept _) fun given _ => ?_
  cases given with
  | false => exact .pure (by simp)
  | true =>
    refine .bind (.accept _) fun isEmpty _ => ?_
    cases isEmpty with
    | true => exact .pure (by simp)
    | false =>
      exact .bind expr_readable fun _ readable => .andThen (.expect _) fun _ =>
        .pure (by simpa using readable)

theorem method_readable : Gives method Method.Readable := by
  have rest : ∀ (p : Pos) (s : Signature), s.Readable → Gives (do
      Reading.expect "\x7b"
      let locals ← Reading.manyWhile Cursor.atVarDecl varDecl
      let body ← Reading.manyWhile (fun c => !c.nextIs "\x7d" && !c.nextIs "return") stmt
      let result ← returnClause
      Reading.expect "\x7d"
      return { mark := p, isStatic := s.isStatic, ret := s.ret, name := s.name,
               params := s.params, locals, body, result }) Method.Readable := by
    intro p s signature
    exact .andThen (.expect _) fun _ => .bind varDecls_readable fun _ locals =>
      .bind (.manyWhile stmt_readable) fun _ body => .bind returnClause_readable fun _ result =>
        .andThen (.expect _) fun _ => .pure ⟨signature.ret, signature.name, signature.params,
          locals, body, result, signature.main⟩
  refine .bind .pos fun p _ => .andThen .advance fun _ => .bind (.accept _) fun isStatic _ => ?_
  cases isStatic with
  | true => exact .bind (mainSignature_readable p) fun s signature => rest p s signature
  | false => exact .bind instanceSignature_readable fun s signature => rest p s signature

theorem classDecl_readable : Gives classDecl Class.Readable := by
  have super : Gives superclass fun s => s = "" ∨ IsName s := by
    refine .bind (.accept _) fun b _ => ?_
    cases b with
    | true =>
      intro c a c' plain given
      obtain ⟨named, plain'⟩ := Gives.ident c a c' plain given
      exact ⟨.inr named, plain'⟩
    | false => exact .pure (.inl rfl)
  exact .bind .pos fun _ _ => .andThen (.expect _) fun _ => .bind .ident fun _ named =>
    .bind super fun _ extended => .andThen (.expect _) fun _ => .bind varDecls_readable fun _ fields =>
      .bind (.manyWhile method_readable) fun _ methods => .andThen (.expect _) fun _ =>
        .pure ⟨named, extended, fields, methods⟩

theorem importDecl_readable :
    Gives importDecl fun i => i.path ≠ [] ∧ ∀ part ∈ i.path, IsName part := by
  have dotted : ∀ n, Gives (dottedRest n) fun path => path ≠ [] ∧ ∀ part ∈ path, IsName part := by
    intro n
    induction n with
    | zero => exact .problem _
    | succ n ih =>
      refine .bind .ident fun _ named => .bind (.accept _) fun b _ => ?_
      cases b with
      | true =>
        exact .bind ih fun _ more =>
          .pure ⟨cons_ne_nil _ _, forall_mem_cons.mpr ⟨named, more.2⟩⟩
      | false => exact .pure ⟨cons_ne_nil _ _, forall_mem_singleton.mpr named⟩
  exact .bind .pos fun _ _ => .andThen .advance fun _ => .bind .get fun _ _ =>
    .bind (dotted _) fun _ path => .andThen (.expect _) fun _ => .pure path

theorem file_readable : Gives file File.Readable := by
  refine .bind .pos fun _ _ => .bind (.manyWhile importDecl_readable) fun _ imports =>
    .bind classDecl_readable fun _ cls => .bind .get fun _ _ => ?_
  split
  · exact .pure ⟨imports, cls⟩
  · exact .unexpected _

/-- **A text that can be read gives a tree that can be written.** -/
theorem parse_readable {f : File Pos} (read : parse bytes = .ok f) : f.Readable := by
  unfold parse at read
  cases scanned : scan bytes with
  | error e => simp [scanned, bind, Except.bind] at read
  | ok found =>
    obtain ⟨tokens, stop⟩ := found
    cases given : file ⟨tokens, stop⟩ with
    | error e => simp [scanned, given, bind, Except.bind] at read
    | ok pair =>
      obtain ⟨g, rest⟩ := pair
      obtain rfl : g = f := by
        simpa [scanned, given, bind, Except.bind, pure, Except.pure] using read
      have plain : PlainNames tokens := scanFrom_plain (p := ⟨1, 1⟩) scanned
      exact (file_readable _ _ _ plain given).1

/-! ## Complete trees -/

theorem areCheckable_of_forall {xs : List (Expr α)} (each : ∀ x ∈ xs, x.isCheckable = true) :
    Expr.areCheckable xs = true := by
  induction xs with
  | nil => rfl
  | cons x rest ih =>
    obtain ⟨first, others⟩ := forall_mem_cons.mp each
    simp [Expr.areCheckable, first, ih others]

theorem stmts_areCheckable {ss : List (Stmt α)} (each : ∀ s ∈ ss, s.isCheckable = true) :
    Stmt.areCheckable ss = true := by
  induction ss with
  | nil => rfl
  | cons s rest ih =>
    obtain ⟨first, others⟩ := forall_mem_cons.mp each
    simp [Stmt.areCheckable, first, ih others]

theorem Expr.Readable.isCheckable {x : Expr α} (readable : x.Readable) : x.isCheckable = true := by
  induction readable with
  | binary _ _ _ left right => simp [Expr.isCheckable, left, right]
  | not _ inner => exact inner
  | index _ _ array index => simp [Expr.isCheckable, array, index]
  | length _ array => exact array
  | call _ _ _ recv args =>
    have each := areCheckable_of_forall args
    simp [Expr.isCheckable, recv, each]
  | newArray _ len => exact len
  | int | bool | ident | this | newObject => rfl

theorem Stmt.Readable.isCheckable {s : Stmt α} (readable : s.Readable) : s.isCheckable = true := by
  induction readable with
  | block _ each => exact stmts_areCheckable each
  | ifElse cond _ _ yes no => simp [Stmt.isCheckable, cond.isCheckable, yes, no]
  | «while» cond _ body => simp [Stmt.isCheckable, cond.isCheckable, body]
  | assign _ value => exact value.isCheckable
  | arrayAssign _ index value => simp [Stmt.isCheckable, index.isCheckable, value.isCheckable]
  | expr value => exact value.isCheckable

/-- A method without missing parts, whose variables are not named by reserved words. -/
structure WellRead (m : Method Pos) : Prop where
  complete : m.isCheckable = true
  names : ∀ d ∈ m.params ++ m.locals, d.name ∉ reserved

theorem Method.Readable.wellRead {m : Method Pos} (readable : m.Readable) : WellRead m where
  complete := by
    have body := stmts_areCheckable fun s member => (readable.body s member).isCheckable
    have result : m.result.all Expr.isCheckable = true := by
      cases returned : m.result with
      | none => rfl
      | some x => exact (readable.result x returned).isCheckable
    simp [Method.isCheckable, body, result]
  names d member := by
    rcases mem_append.mp member with isParam | isLocal
    · exact (readable.params d isParam).name.plain
    · exact (readable.locals d isLocal).1.name.plain

/-- Every method of a text that can be read is complete, and none of its variables is
named by a reserved word. -/
theorem parse_wellRead {f : File Pos} (read : parse bytes = .ok f) :
    ∀ m ∈ f.cls.methods, WellRead m :=
  fun m member => ((parse_readable read).cls.methods m member).wellRead

end JavaMinus.Syntax

namespace JavaMinus

theorem exists_read (bytes : List UInt8) (check : Syntax.File Pos → Bool)
    (checked : (Syntax.parse bytes).toOption.any check = true) :
    ∃ f, Syntax.parse bytes = .ok f ∧ check f = true := by
  cases read : Syntax.parse bytes with
  | ok f => exact ⟨f, rfl, by simpa [read, Except.toOption] using checked⟩
  | error e => simp [read, Except.toOption] at checked

end JavaMinus
