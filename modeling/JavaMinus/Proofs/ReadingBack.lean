import JavaMinus.Proofs.PrintedTokens

/-!
# Reading expressions back

What the readers of the grammar do with the lexemes of a tree. `Becomes r ls more s P`
says that before the lexemes `ls` the reader `r` does what `s` does behind them, and
`Reads r ls more P` that it takes exactly these lexemes and gives something with the
property `P`; both are put together along the steps of a reader.

Left operands need care: the lexemes of `a + b + c` start with those of `a + b`, but no
reader takes these by themselves, since a loop goes on with `+ c`. What is shown for a place
at some level is therefore that the reader comes to the loop of that level with the
expression in hand (`Leads`, `ReadAt`). An expression is read at its own level first, and
then at all levels below (`ReadAt.descend`).
-/

namespace JavaMinus.Syntax

open List

open Lexeme (fixed)

variable {α β γ : Type} {text name : String} {op : Operator} {level : Nat} {c : Cursor}

/-! ## Readers that take given lexemes -/

/-- The lexemes still to read. -/
def Cursor.lexemes (c : Cursor) : List Lexeme := c.rest.map (·.lexeme)

theorem Cursor.head?_eq (c : Cursor) : c.head? = c.lexemes.head? := by
  rw [head?, lexemes, List.head?_map]

theorem Cursor.second?_eq (c : Cursor) : c.second? = c.lexemes.tail.head? := by
  rw [second?, lexemes, ← map_tail, List.head?_map]

theorem Cursor.lexemes_advance (c : Cursor) : c.advance.lexemes = c.lexemes.tail := by
  simp only [advance, lexemes, map_tail]

theorem Cursor.bound_eq (c : Cursor) : c.bound = c.lexemes.length + 1 := by
  rw [bound, lexemes, length_map]

theorem Cursor.nextIs_eq (c : Cursor) (s : String) :
    c.nextIs s = decide (c.lexemes.head? = some (fixed s)) := by
  rw [nextIs, head?_eq]

/-- The cursor behind some lexemes. -/
def Cursor.skip (c : Cursor) (n : Nat) : Cursor := ⟨c.rest.drop n, c.stop⟩

theorem Cursor.skip_skip (c : Cursor) (m n : Nat) : (c.skip m).skip n = c.skip (m + n) := by
  simp only [skip, drop_drop]

theorem Cursor.skip_advance (c : Cursor) (n : Nat) : c.advance.skip n = c.skip (n + 1) := by
  simp only [skip, advance, drop_tail]

theorem Cursor.lexemes_skip {ls more : List Lexeme} (here : c.lexemes = ls ++ more) :
    (c.skip ls.length).lexemes = more := by
  rw [lexemes] at here
  rw [skip, lexemes, map_drop, here, drop_left]

/-- Before the given lexemes a reader does what another one does behind them. The other
reader depends on what has been found out, which has a property. -/
def Becomes (r : Reading α) (ls more : List Lexeme) (s : γ → Reading α) (P : γ → Prop) : Prop :=
  ∀ c : Cursor, c.lexemes = ls ++ more → ∃ y, r c = s y (c.skip ls.length) ∧ P y

/-- The reader takes the given lexemes and no more, and gives something with a property. -/
abbrev Reads (r : Reading α) (ls more : List Lexeme) (P : α → Prop) : Prop :=
  Becomes r ls more pure P

/-- The reader stops with a problem at some lexeme. -/
def Fails (r : Reading α) (ls : List Lexeme) : Prop :=
  ∀ c : Cursor, c.lexemes = ls → ∃ e, r c = .error e

namespace Becomes

variable {r : Reading α} {f : α → Reading β} {s : γ → Reading β} {P : α → Prop} {Q : γ → Prop}
  {ls ls' more : List Lexeme}

theorem here {y : γ} (holds : Q y) : Becomes (s y) [] more s Q :=
  fun _ _ => ⟨y, rfl, holds⟩

protected theorem pure {a : α} (holds : P a) : Reads (pure a) [] more P := here holds

theorem trans {r : Reading β} {δ : Type} {t : δ → Reading β} {T : δ → Prop}
    (first : Becomes r ls (ls' ++ more) s Q) (second : ∀ y, Q y → Becomes (s y) ls' more t T) :
    Becomes r (ls ++ ls') more t T := by
  intro c here
  rw [append_assoc] at here
  obtain ⟨y, same, holds⟩ := first c here
  obtain ⟨z, same', holds'⟩ := second y holds _ (Cursor.lexemes_skip here)
  refine ⟨z, ?_, holds'⟩
  rw [same, same', Cursor.skip_skip, length_append]

protected theorem bind (first : Reads r ls (ls' ++ more) P)
    (second : ∀ a, P a → Becomes (f a) ls' more s Q) : Becomes (r >>= f) (ls ++ ls') more s Q := by
  intro c here
  rw [append_assoc] at here
  obtain ⟨a, read, holds⟩ := first c here
  obtain ⟨b, same, holds'⟩ := second a holds _ (Cursor.lexemes_skip here)
  refine ⟨b, ?_, holds'⟩
  rw [Reading.run_bind_ok read, same, Cursor.skip_skip, length_append]

theorem get {f : Cursor → Reading β}
    (second : ∀ c : Cursor, c.lexemes = ls ++ more → Becomes (f c) ls more s Q) :
    Becomes (get >>= f) ls more s Q :=
  fun c here => second c here c here

theorem pos {f : Pos → Reading β} (second : ∀ p, Becomes (f p) ls more s Q) :
    Becomes (Reading.pos >>= f) ls more s Q :=
  fun c here => second c.pos c here

theorem advance {l : Lexeme} {f : Unit → Reading β} (second : Becomes (f ()) ls more s Q) :
    Becomes (Reading.advance >>= f) (l :: ls) more s Q := by
  intro c here
  rw [length_cons, ← c.skip_advance]
  refine second c.advance ?_
  rw [Cursor.lexemes_advance, here, cons_append, tail_cons]

theorem accept {f : Bool → Reading β} (second : Becomes (f true) ls more s Q) :
    Becomes (Reading.accept text >>= f) (fixed text :: ls) more s Q := by
  intro c here
  have next : c.nextIs text = true := by
    rw [Cursor.nextIs_eq, here]
    exact decide_eq_true rfl
  rw [Reading.run_bind_ok (run_accept_true next)]
  exact advance (f := fun _ => f true) second c here

theorem refuse {f : Bool → Reading β} (other : (ls ++ more).head? ≠ some (fixed text))
    (second : Becomes (f false) ls more s Q) : Becomes (Reading.accept text >>= f) ls more s Q := by
  intro c here
  have next : c.nextIs text = false := by
    rw [Cursor.nextIs_eq, here]
    exact decide_eq_false other
  rw [Reading.run_bind_ok (run_accept_false next)]
  exact second c here

theorem expect {f : Unit → Reading β} (second : Becomes (f ()) ls more s Q) :
    Becomes (Reading.expect text >>= f) (fixed text :: ls) more s Q := by
  have taken : Reads (Reading.expect text) [fixed text] (ls ++ more) fun _ => True :=
    .accept (.pure trivial)
  exact taken.bind fun _ _ => second

theorem ident {f : String → Reading β} (second : Becomes (f name) ls more s Q) :
    Becomes (Reading.ident >>= f) (.name name :: ls) more s Q := by
  have taken : Reads Reading.ident [.name name] (ls ++ more) (· = name) := by
    refine .get fun c here => ?_
    rw [Cursor.head?_eq, here]
    exact .advance (.pure rfl)
  exact taken.bind fun a same => same ▸ second

end Becomes

namespace Fails

variable {r : Reading α} {f : α → Reading β} {P : α → Prop} {ls more : List Lexeme}

theorem bind (first : Fails r ls) : Fails (r >>= f) ls := by
  intro c here
  obtain ⟨e, failed⟩ := first c here
  exact ⟨e, Reading.run_bind_error failed⟩

theorem later (first : Reads r ls more P) (second : ∀ a, P a → Fails (f a) more) :
    Fails (r >>= f) (ls ++ more) := by
  intro c here
  obtain ⟨a, read, holds⟩ := first c here
  rw [Reading.run_bind_ok read]
  exact second a holds _ (Cursor.lexemes_skip here)

theorem of_becomes {s : γ → Reading α} {Q : γ → Prop} (first : Becomes r ls more s Q)
    (second : ∀ y, Q y → Fails (s y) more) : Fails r (ls ++ more) := by
  intro c here
  obtain ⟨y, same, holds⟩ := first c here
  rw [same]
  exact second y holds _ (Cursor.lexemes_skip here)

theorem pos {f : Pos → Reading β} (second : ∀ p, Fails (f p) ls) : Fails (Reading.pos >>= f) ls :=
  fun c here => second c.pos c here

theorem get {f : Cursor → Reading β} (second : ∀ c : Cursor, c.lexemes = ls → Fails (f c) ls) :
    Fails (get >>= f) ls :=
  fun c here => second c here c here

theorem advance {l : Lexeme} {f : Unit → Reading β} (second : Fails (f ()) ls) :
    Fails (Reading.advance >>= f) (l :: ls) := by
  intro c here
  refine second c.advance ?_
  rw [Cursor.lexemes_advance, here, tail_cons]

theorem accept {f : Bool → Reading β} (second : Fails (f true) ls) :
    Fails (Reading.accept text >>= f) (fixed text :: ls) := by
  have taken : Reads (Reading.accept text) [fixed text] ls (· = true) := by
    rw [← bind_pure (Reading.accept text)]
    exact .accept (.pure rfl)
  exact later taken fun b isTrue => isTrue ▸ second

theorem behind {f : Unit → Reading β} (second : Fails (f ()) ls) :
    Fails (Reading.expect text >>= f) (fixed text :: ls) := by
  have taken : Reads (Reading.expect text) [fixed text] ls fun _ => True := .accept (.pure trivial)
  exact later taken fun _ _ => second

theorem expect {s : String} (other : ls.head? ≠ some (fixed s)) : Fails (Reading.expect s) ls := by
  intro c here
  have next : c.nextIs s = false := by
    rw [Cursor.nextIs_eq, here]
    exact decide_eq_false other
  rw [Reading.expect, Reading.run_bind_ok (run_accept_false next)]
  exact ⟨_, rfl⟩

end Fails

/-! ### Lists of phrases -/

section

variable {phrase : Reading α} {xs : List β} {lex : β → List Lexeme} {more : List Lexeme} {f : α → γ}
  {g : β → γ} {close : String} {go : Cursor → Bool}

theorem reads_whileAt (each : ∀ x ∈ xs, ∀ later, Reads phrase (lex x) later fun a => f a = g x)
    (starts : ∀ x ∈ xs, ∀ (c : Cursor) later, c.lexemes = lex x ++ later → go c = true)
    (stops : ∀ c : Cursor, c.lexemes = more → go c = false) {n : Nat} (enough : xs.length < n) :
    Reads (Reading.whileAt go phrase n) (xs.flatMap lex) more fun as => as.map f = xs.map g := by
  induction xs generalizing n with
  | nil =>
    obtain ⟨n, rfl⟩ := Nat.exists_eq_add_one.mpr enough
    refine .get fun c here => ?_
    rw [stops c here]
    exact .pure rfl
  | cons x xs ih =>
    obtain ⟨n, rfl⟩ := Nat.exists_eq_add_one.mpr (Nat.zero_lt_of_lt enough)
    obtain ⟨first, others⟩ := forall_mem_cons.mp each
    obtain ⟨start, starts⟩ := forall_mem_cons.mp starts
    rw [flatMap_cons]
    refine .get fun c here => ?_
    rw [append_assoc] at here
    rw [start c _ here]
    refine (first _).bind fun a same => ?_
    have rest := ih others starts (Nat.lt_of_succ_lt_succ enough)
    rw [← append_nil (xs.flatMap lex)]
    exact rest.bind fun as sames => .pure (by rw [map_cons, map_cons, same, sames])

theorem length_le_flatMap (filled : ∀ x ∈ xs, lex x ≠ []) :
    xs.length ≤ (xs.flatMap lex).length := by
  induction xs with
  | nil => exact Nat.le_refl _
  | cons x xs ih =>
    obtain ⟨first, others⟩ := forall_mem_cons.mp filled
    have one := length_pos_iff.mpr first
    have rest := ih others
    rw [flatMap_cons, length_append, length_cons]
    omega

theorem reads_manyWhile (filled : ∀ x ∈ xs, lex x ≠ [])
    (each : ∀ x ∈ xs, ∀ later, Reads phrase (lex x) later fun a => f a = g x)
    (starts : ∀ x ∈ xs, ∀ (c : Cursor) later, c.lexemes = lex x ++ later → go c = true)
    (stops : ∀ c : Cursor, c.lexemes = more → go c = false) :
    Reads (Reading.manyWhile go phrase) (xs.flatMap lex) more fun as => as.map f = xs.map g := by
  refine .get fun c here => reads_whileAt each starts stops ?_
  have length := length_le_flatMap filled
  rw [Cursor.bound_eq, here, length_append]
  omega

/-- Phrases one after another up to a place where another one is wanted but cannot be read. -/
theorem fails_whileAt (each : ∀ x ∈ xs, ∀ later, Reads phrase (lex x) later fun a => f a = g x)
    (starts : ∀ x ∈ xs, ∀ (c : Cursor) later, c.lexemes = lex x ++ later → go c = true)
    (goesOn : ∀ c : Cursor, c.lexemes = more → go c = true) (fails : Fails phrase more) (n : Nat) :
    Fails (Reading.whileAt go phrase n) (xs.flatMap lex ++ more) := by
  induction n generalizing xs with
  | zero => exact fun c _ => ⟨_, rfl⟩
  | succ n ih =>
    refine .get fun c here => ?_
    cases xs with
    | nil =>
      rw [goesOn c here]
      exact .bind fails
    | cons x xs =>
      obtain ⟨first, others⟩ := forall_mem_cons.mp each
      obtain ⟨start, starts⟩ := forall_mem_cons.mp starts
      rw [flatMap_cons, append_assoc] at here ⊢
      rw [start c _ here]
      exact .later (first _) fun a _ => .bind (ih others starts)

theorem fails_manyWhile (each : ∀ x ∈ xs, ∀ later, Reads phrase (lex x) later fun a => f a = g x)
    (starts : ∀ x ∈ xs, ∀ (c : Cursor) later, c.lexemes = lex x ++ later → go c = true)
    (goesOn : ∀ c : Cursor, c.lexemes = more → go c = true) (fails : Fails phrase more) :
    Fails (Reading.manyWhile go phrase) (xs.flatMap lex ++ more) :=
  .get fun c _ => fails_whileAt each starts goesOn fails c.bound

/-- The lexeme behind a phrase of a list: a comma or the end of the list. -/
def Separates (close : String) (more : List Lexeme) : Prop :=
  more.head? = some (fixed ",") ∨ more.head? = some (fixed close)

theorem reads_commaList (each : ∀ x ∈ xs, ∀ later, Separates close later →
      Reads phrase (lex x) later fun a => f a = g x)
    (starts : ∀ x ∈ xs, ∃ l ls, lex x = l :: ls ∧ l ≠ fixed close) (other : close ≠ ",") {n : Nat}
    (enough : xs.length < n) (isFirst : Bool) :
    Reads (Reading.commaList close phrase n isFirst)
      (commaLexemes isFirst (xs.map lex) ++ [fixed close]) more fun as => as.map f = xs.map g := by
  induction xs generalizing n isFirst with
  | nil =>
    obtain ⟨n, rfl⟩ := Nat.exists_eq_add_one.mpr enough
    exact .accept (.pure rfl)
  | cons x xs ih =>
    obtain ⟨n, rfl⟩ := Nat.exists_eq_add_one.mpr (Nat.zero_lt_of_lt enough)
    obtain ⟨first, others⟩ := forall_mem_cons.mp each
    obtain ⟨⟨l, ls, isLex, start⟩, starts⟩ := forall_mem_cons.mp starts
    have rest := ih others starts (Nat.lt_of_succ_lt_succ enough) false
    have ends : Separates close (commaLexemes false (xs.map lex) ++ [fixed close] ++ more) := by
      cases xs with
      | nil => exact .inr rfl
      | cons y ys => exact .inl rfl
    have both : Reads (do let x ← phrase return x :: (← Reading.commaList close phrase n false))
        (lex x ++ (commaLexemes false (xs.map lex) ++ [fixed close])) more
        fun as => as.map f = (x :: xs).map g := by
      refine (first _ ends).bind fun a same => ?_
      rw [← append_nil (commaLexemes false (xs.map lex) ++ [fixed close])]
      exact rest.bind fun as sames => .pure (by rw [map_cons, map_cons, same, sames])
    rw [map_cons, commaLexemes, append_assoc, append_assoc]
    cases isFirst with
    | true =>
      refine .refuse ?_ both
      simp [isLex, start]
    | false =>
      refine .refuse ?_ (.expect both)
      simp [Ne.symm other]

theorem length_le_commaLexemes (starts : ∀ x ∈ xs, ∃ l ls, lex x = l :: ls ∧ l ≠ fixed close)
    (isFirst : Bool) : xs.length ≤ (commaLexemes isFirst (xs.map lex)).length := by
  induction xs generalizing isFirst with
  | nil => exact Nat.le_refl _
  | cons x xs ih =>
    obtain ⟨⟨l, ls, isLex, _⟩, others⟩ := forall_mem_cons.mp starts
    have rest := ih others false
    rw [map_cons, commaLexemes, isLex]
    simp only [length_append, length_cons]
    omega

theorem length_le_of_mem {ls : List Lexeme} {lists : List (List Lexeme)} (member : ls ∈ lists)
    (isFirst : Bool) : ls.length ≤ (commaLexemes isFirst lists).length := by
  induction lists generalizing isFirst with
  | nil => cases member
  | cons l lists ih =>
    rw [commaLexemes, length_append, length_append]
    rcases mem_cons.mp member with rfl | later
    · omega
    · have rest := ih later false
      omega

theorem reads_commaSeparated (each : ∀ x ∈ xs, ∀ later, Separates close later →
      Reads phrase (lex x) later fun a => f a = g x)
    (starts : ∀ x ∈ xs, ∃ l ls, lex x = l :: ls ∧ l ≠ fixed close) (other : close ≠ ",") :
    Reads (Reading.commaSeparated close phrase)
      (commaLexemes true (xs.map lex) ++ [fixed close]) more fun as => as.map f = xs.map g := by
  refine .get fun c here => reads_commaList each starts other ?_ true
  have length := length_le_commaLexemes starts true
  rw [Cursor.bound_eq, here, length_append, length_append]
  omega

end

/-! ## Expressions -/

/-- The expression without its marks. -/
def Expr.bare (x : Expr α) : Expr Unit := x.map fun _ => ()

theorem mapList_bare (xs : List (Expr α)) : Expr.mapList (fun _ => ()) xs = xs.map Expr.bare := by
  induction xs with
  | nil => rfl
  | cons x xs ih => rw [Expr.mapList, ih, map_cons, Expr.bare]

/-- A lexeme that an expression can start with. -/
def Lexeme.startsExpr : Lexeme → Bool
  | .name _ => true
  | .number _ => true
  | .fixed s => s ∈ ["true", "false", "this", "new", "(", "!"]

/-! ### Operands -/

section

variable {inner : Reading (Expr Pos)} {ls more : List Lexeme}

theorem reads_literal {m : α} {digits : String} (small : digitsValue digits ≤ maxLiteral) :
    Reads (primary inner) [.number digits] more
      (·.bare = (Expr.int m (Int32.ofNat (digitsValue digits))).bare) := by
  refine .pos fun p => .get fun c here => ?_
  rw [Cursor.head?_eq, here]
  simp only [cons_append, List.head?_cons, literal, if_pos small]
  exact .advance (.pure rfl)

theorem reads_ident {m : α} :
    Reads (primary inner) [.name name] more (·.bare = (Expr.ident m name).bare) := by
  refine .pos fun p => .get fun c here => ?_
  rw [Cursor.head?_eq, here]
  exact .advance (.pure rfl)

theorem reads_bool {m : α} {b : Bool} :
    Reads (primary inner) [fixed (if b then "true" else "false")] more
      (·.bare = (Expr.bool m b).bare) := by
  refine .pos fun p => .get fun c here => ?_
  rw [Cursor.head?_eq, here]
  cases b with
  | true | false => exact .advance (.pure rfl)

theorem reads_this {m : α} :
    Reads (primary inner) [fixed "this"] more (·.bare = (Expr.this m).bare) := by
  refine .pos fun p => .get fun c here => ?_
  rw [Cursor.head?_eq, here]
  exact .advance (.pure rfl)

theorem reads_newObject {m : α} :
    Reads (primary inner) [fixed "new", .name name, fixed "(", fixed ")"] more
      (·.bare = (Expr.newObject m name).bare) := by
  refine .pos fun p => .get fun c here => ?_
  rw [Cursor.head?_eq, here]
  exact .advance (.refuse (by simp) (.ident (.expect (.expect (.pure rfl)))))

theorem reads_newArray {m : α} {n : Expr α}
    (length : Reads inner ls (fixed "]" :: more) (·.bare = n.bare)) :
    Reads (primary inner) (fixed "new" :: fixed "int" :: fixed "[" :: (ls ++ [fixed "]"])) more
      (·.bare = (Expr.newArray m n).bare) := by
  refine .pos fun p => .get fun c here => ?_
  rw [Cursor.head?_eq, here]
  refine .advance (.accept (.expect (length.bind fun a same => .expect (.pure ?_))))
  simp only [Expr.bare, Expr.map] at same ⊢
  rw [same]

theorem reads_parens {x : Expr α} (inside : Reads inner ls (fixed ")" :: more) (·.bare = x.bare)) :
    Reads (primary inner) (fixed "(" :: (ls ++ [fixed ")"])) more (·.bare = x.bare) := by
  refine .pos fun p => .get fun c here => ?_
  rw [Cursor.head?_eq, here]
  exact .expect (inside.bind fun a same => .expect (.pure same))

end

/-! ### Levels -/

/-- The lexemes do not go on with an expression of a level above the given one. -/
def Ends (level : Nat) (more : List Lexeme) : Prop :=
  ∀ s, more.head? = some (fixed s) →
    s ≠ "(" ∧ (level < operandLevel → s ≠ "[" ∧ s ≠ ".") ∧ (Operator.ofSymbol s).level ≤ level

theorem Ends.mono {level' : Nat} {more : List Lexeme} (ends : Ends level more) (le : level ≤ level') :
    Ends level' more := by
  intro s next
  obtain ⟨noCall, noSuffix, operator⟩ := ends s next
  exact ⟨noCall, fun below => noSuffix (by omega), by omega⟩

/-- The readers of the levels from `!` down to `&&`. -/
def chains (inner : Reading (Expr Pos)) : Nat → Reading (Expr Pos)
  | 0 => do negations inner (← get).bound
  | k + 1 => chain (4 - k) (chains inner k)

/-- A reader comes to a loop with an expression that has been read, and the loop may go
round as often as there are lexemes left. -/
def Leads (r : Reading (Expr Pos)) (loop : Nat → Expr Pos → Reading (Expr Pos)) (x : Expr α)
    (ls more : List Lexeme) : Prop :=
  Becomes r ls more (fun y : Nat × Expr Pos => loop y.1 y.2)
    fun y => more.length < y.1 ∧ y.2.bare = x.bare

section Levels

variable {inner r next : Reading (Expr Pos)} {loop : Nat → Expr Pos → Reading (Expr Pos)}
  {x y : Expr α} {m : α} {ls ls' more : List Lexeme} {a : Expr Pos} {p : Pos}

theorem Leads.here {n : Nat} (enough : more.length < n) (same : a.bare = x.bare) :
    Leads (loop n a) loop x [] more :=
  fun _ _ => ⟨(n, a), rfl, enough, same⟩

theorem Leads.step {t : γ → Reading (Expr Pos)} {T : γ → Prop}
    (first : Leads r loop x ls (ls' ++ more))
    (next : ∀ n a, (ls' ++ more).length ≤ n → a.bare = x.bare →
      Becomes (loop (n + 1) a) ls' more t T) : Becomes r (ls ++ ls') more t T := by
  refine Becomes.trans first fun y holds => ?_
  obtain ⟨n, isNext⟩ := Nat.exists_eq_add_one.mpr (Nat.zero_lt_of_lt holds.1)
  rw [isNext]
  exact next n y.2 (Nat.lt_add_one_iff.mp (isNext ▸ holds.1)) holds.2

theorem leads_operand (first : Reads (primary inner) ls more (·.bare = x.bare)) :
    Leads (operand inner) (suffixes inner) x ls more := by
  rw [← append_nil ls]
  refine first.bind fun a same => .get fun c here => ?_
  have enough : more.length < c.bound := by
    rw [Cursor.bound_eq, here]
    exact Nat.lt_succ_self _
  exact Leads.here enough same

theorem leads_index (array : Leads (operand inner) (suffixes inner) x ls
      (fixed "[" :: (ls' ++ [fixed "]"]) ++ more))
    (index : Reads inner ls' (fixed "]" :: more) (·.bare = y.bare)) :
    Leads (operand inner) (suffixes inner) (.index m x y)
      (ls ++ fixed "[" :: (ls' ++ [fixed "]"])) more := by
  refine array.step fun n a enough same => ?_
  refine .pos fun p => .accept (index.bind fun i same' => .expect (Leads.here ?_ ?_))
  · simp only [length_cons, length_append] at enough
    omega
  · simp only [Expr.bare, Expr.map] at same same' ⊢
    rw [same, same']

theorem leads_member (recv : Leads (operand inner) (suffixes inner) x ls (fixed "." :: ls' ++ more))
    (filled : ls' ≠ [])
    (read : ∀ p a, a.bare = x.bare → Reads (member inner p a) ls' more (·.bare = y.bare)) :
    Leads (operand inner) (suffixes inner) y (ls ++ fixed "." :: ls') more := by
  refine recv.step fun n a enough same => .pos fun p => .refuse (by simp) (.accept ?_)
  have one := length_pos_iff.mpr filled
  simp only [length_cons, length_append] at enough
  rw [← append_nil ls']
  exact (read p a same).bind fun b same' => Leads.here (by omega) same'

theorem reads_length (same : a.bare = x.bare) (noCall : more.head? ≠ some (fixed "(")) :
    Reads (member inner p a) [.name "length"] more (·.bare = (Expr.length m x).bare) := by
  refine .ident (.get fun c here => ?_)
  have next : c.nextIs "(" = false := by
    rw [Cursor.nextIs_eq, here]
    exact decide_eq_false noCall
  rw [if_pos ⟨rfl, by rw [next]; rfl⟩]
  refine .pure ?_
  simp only [Expr.bare, Expr.map] at same ⊢
  rw [same]

theorem bare_call {bs : List (Expr Pos)} {as : List (Expr α)} (same : a.bare = x.bare)
    (sames : bs.map Expr.bare = as.map Expr.bare) :
    (Expr.call p a name bs).bare = (Expr.call m x name as).bare := by
  simp only [Expr.bare] at same
  rw [Expr.bare, Expr.bare, Expr.map, Expr.map, mapList_bare, mapList_bare, same, sames]

theorem reads_callOf {as : List β} {lex : β → List Lexeme} {tree : β → Expr α}
    (same : a.bare = x.bare) (starts : ∀ y ∈ as, ∃ l ls, lex y = l :: ls ∧ l.startsExpr = true)
    (each : ∀ y ∈ as, ∀ later, Separates ")" later → Reads inner (lex y) later (·.bare = (tree y).bare)) :
    Reads (member inner p a)
      (.name name :: fixed "(" :: (commaLexemes true (as.map lex) ++ [fixed ")"])) more
      (·.bare = (Expr.call m x name (as.map tree)).bare) := by
  refine .ident (.get fun c here => ?_)
  have next : c.nextIs "(" = true := by
    rw [Cursor.nextIs_eq, here]
    rfl
  rw [if_neg (by simp [next])]
  refine .expect ?_
  rw [← append_nil (commaLexemes true _ ++ [fixed ")"])]
  refine (reads_commaSeparated each ?_ (by decide)).bind fun bs sames => .pure (bare_call same ?_)
  · intro y member
    obtain ⟨l, ls, isLex, starts⟩ := starts y member
    refine ⟨l, ls, isLex, ?_⟩
    rintro rfl
    exact absurd starts (by decide)
  · rw [sames, map_map]
    rfl

theorem Leads.reads_operand (leads : Leads (operand inner) (suffixes inner) x ls more)
    (ends : Ends notLevel more) : Reads (operand inner) ls more (·.bare = x.bare) := by
  rw [← append_nil ls]
  refine Leads.step leads fun n a enough same => .pos fun p => .refuse ?_ (.refuse ?_ (.pure same))
  · exact fun next => ((ends _ next).2.1 (by decide)).1 rfl
  · exact fun next => ((ends _ next).2.1 (by decide)).2 rfl

theorem reads_negations (read : Reads (operand inner) ls more (·.bare = x.bare)) {n : Nat}
    (enough : 0 < n) : Reads (negations inner n) ls more (·.bare = x.bare) := by
  obtain ⟨n, rfl⟩ := Nat.exists_eq_add_one.mpr enough
  intro c here
  have other : c.lexemes.head? ≠ some (fixed "!") := by
    intro next
    obtain ⟨a, given, _⟩ := read c here
    have failed : ∃ e, primary inner c = .error e := by
      rw [primary, Reading.run_bind_ok (show Reading.pos c = .ok (c.pos, c) from rfl),
        Reading.run_bind_ok Reading.run_get, Cursor.head?_eq, next]
      exact ⟨_, rfl⟩
    obtain ⟨e, failed⟩ := failed
    rw [operand, Reading.run_bind_error failed] at given
    cases given
  exact (Becomes.pos fun p => .refuse (here ▸ other) read : Reads _ ls more _) c here

theorem reads_not {n : Nat} (read : Reads (negations inner n) ls more (·.bare = x.bare)) :
    Reads (negations inner (n + 1)) (fixed "!" :: ls) more (·.bare = (Expr.not m x).bare) := by
  refine .pos fun p => .accept ?_
  rw [← append_nil ls]
  refine read.bind fun a same => .pure ?_
  simp only [Expr.bare, Expr.map] at same ⊢
  rw [same]

theorem leads_chain (read : Reads next ls more (·.bare = x.bare)) :
    Leads (chain level next) (chainRest level next) x ls more := by
  rw [← append_nil ls]
  refine read.bind fun a same => .get fun c here => ?_
  have enough : more.length < c.bound := by
    rw [Cursor.bound_eq, here]
    exact Nat.lt_succ_self _
  exact Leads.here enough same

theorem operator?_symbol (binary : op.level ≠ 0) {later : List Lexeme}
    (here : c.lexemes = fixed op.symbol :: later) : c.operator? op.level = some op := by
  have back : Operator.ofSymbol op.symbol = op := by
    refine Operator.ofSymbol_symbol fun s isOther => binary ?_
    rw [isOther]
    rfl
  rw [Cursor.operator?, Cursor.head?_eq, here]
  simp only [List.head?_cons, back, if_true]

theorem leads_binary (binary : op.level ≠ 0)
    (left : Leads (chain op.level next) (chainRest op.level next) x ls (fixed op.symbol :: ls' ++ more))
    (right : Reads next ls' more (·.bare = y.bare)) :
    Leads (chain op.level next) (chainRest op.level next) (.binary m op x y)
      (ls ++ fixed op.symbol :: ls') more := by
  refine left.step fun n a enough same => .get fun c here => ?_
  rw [operator?_symbol binary here]
  refine .pos fun p => .advance ?_
  simp only [length_cons, length_append] at enough
  rw [← append_nil ls']
  refine right.bind fun b same' => Leads.here (by omega) ?_
  simp only [Expr.bare, Expr.map] at same same' ⊢
  rw [same, same']

theorem Leads.reads_chain
    (leads : Leads (chain (level + 1) next) (chainRest (level + 1) next) x ls more)
    (ends : Ends level more) : Reads (chain (level + 1) next) ls more (·.bare = x.bare) := by
  rw [← append_nil ls]
  refine Leads.step leads fun n a enough same => .get fun c here => ?_
  have none : c.operator? (level + 1) = none := by
    rw [Cursor.operator?, Cursor.head?_eq, here]
    cases next : more.head? with
    | none => simp [next]
    | some l =>
      cases l with
      | fixed s =>
        have low := (ends s next).2.2
        simp only [nil_append, next]
        rw [if_neg (by omega)]
      | name | number => simp [next]
  rw [none]
  exact .pure same

end Levels

/-! ### Expressions at each level -/

/-- The expression is read from the lexemes at a level, which is given by its distance
from the highest one. -/
def ReadAt (inner : Reading (Expr Pos)) (x : Expr α) (ls more : List Lexeme) : Nat → Prop
  | 0 => Leads (operand inner) (suffixes inner) x ls more
  | 1 => ∀ n, (ls ++ more).length < n → Reads (negations inner n) ls more (·.bare = x.bare)
  | k + 2 => Leads (chains inner (k + 1)) (chainRest (4 - k) (chains inner k)) x ls more

section Descent

variable {inner : Reading (Expr Pos)} {x y : Expr α} {m : α} {ls ls' more : List Lexeme} {k : Nat}

theorem ReadAt.reads_chains (low : k ≤ 4) (read : ReadAt inner x ls more (k + 1))
    (ends : Ends (4 - k) more) : Reads (chains inner k) ls more (·.bare = x.bare) := by
  cases k with
  | zero =>
    refine .get fun c here => read c.bound ?_
    rw [Cursor.bound_eq, here]
    exact Nat.lt_succ_self _
  | succ k =>
    have level : 4 - k = (3 - k) + 1 := by omega
    have leads : Leads (chain (4 - k) (chains inner k)) _ x ls more := read
    rw [level] at leads
    rw [chains, level]
    exact leads.reads_chain (ends.mono (by omega))

theorem ReadAt.down (low : k ≤ 4) (read : ReadAt inner x ls more k) (ends : Ends (5 - k) more) :
    ReadAt inner x ls more (k + 1) := by
  cases k with
  | zero =>
    intro n enough
    exact reads_negations (Leads.reads_operand read ends) (Nat.zero_lt_of_lt enough)
  | succ k => exact leads_chain (read.reads_chains (by omega) (ends.mono (by omega)))

theorem ReadAt.descend {i : Nat} (le : i ≤ k) (low : k ≤ 5) (read : ReadAt inner x ls more i)
    (ends : Ends (6 - k) more) : ReadAt inner x ls more k := by
  induction k, le using Nat.le_induction with
  | base => exact read
  | succ k le ih =>
    have above := ih (by omega) (ends.mono (by omega))
    exact above.down (by omega) (ends.mono (by omega))

end Descent

section Closing

variable {x : Expr α} {n : Nat} {more : List Lexeme}

theorem reads_exprWithin {ls : List Lexeme} (read : ReadAt (exprWithin n) x ls more 5)
    (ends : Ends 0 more) : Reads (exprWithin (n + 1)) ls more (·.bare = x.bare) :=
  read.reads_chains (Nat.le_refl _) ends

/-- What closes an expression, whatever its level. -/
def closers : List String := [")", "]", ";", ","]

theorem ends_of_closer {s : String} (closes : s ∈ closers) (next : more.head? = some (fixed s)) :
    Ends 0 more := by
  have all : ∀ s ∈ closers, s ≠ "(" ∧ (s ≠ "[" ∧ s ≠ ".") ∧ (Operator.ofSymbol s).level ≤ 0 := by
    decide
  intro t next'
  obtain rfl : s = t := by simpa [next] using next'
  obtain ⟨noCall, noSuffix, low⟩ := all s closes
  exact ⟨noCall, fun _ => noSuffix, low⟩

theorem level_le_four (op : Operator) : op.level ≤ 4 := by
  cases op <;> simp [Operator.level]

theorem ends_operand {s : String} (other : s ≠ "(") : Ends operandLevel (fixed s :: more) := by
  intro t next
  cases next
  have low := level_le_four (.ofSymbol s)
  exact ⟨other, fun below => absurd below (Nat.lt_irrefl _), by simp only [operandLevel]; omega⟩

theorem ends_operator (binary : op.level ≠ 0) : Ends op.level (fixed op.symbol :: more) := by
  intro t next
  cases next
  cases op with
  | not | other => exact absurd rfl binary
  | _ => exact ⟨by decide, fun _ => ⟨by decide, by decide⟩, by decide⟩

end Closing

end JavaMinus.Syntax
