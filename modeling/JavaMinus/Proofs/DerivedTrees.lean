import Mathlib
import JavaMinus.Syntax.Grammar

/-!
# Expressions that are read are derived

`Derived k ts x` is the grammar of expressions with one level for each strength of operators, on
tokens: `ts` is an expression at level `k`, and `x` is its tree, in which every node is marked
with the place of one of the tokens. A binary operator is marked with its sign, what is written
behind an operand with its bracket or dot, and everything else with its first token.

A reader that succeeds has gone past some tokens, and the tree it gives is derived from these
(`consumes_expr`). The loops of the readers hold a tree that has been read already; they are shown
to extend whatever this tree was derived from.
-/

namespace JavaMinus.Syntax

open List

open Lexeme (fixed)

variable {α β : Type} {k : Nat}

/-! ## Derivations -/

/-- The signs that join operands at each level. -/
inductive Joined : Nat → String → Operator → Prop where
  | and : Joined 1 "&&" .and
  | less : Joined 2 "<" .less
  | add : Joined 3 "+" .add
  | sub : Joined 3 "-" .sub
  | mul : Joined 4 "*" .mul
  | div : Joined 4 "/" .div

/-- Phrases with a comma between each two. Before the first one there is none. -/
inductive Listed : Bool → List (List Token) → List Token → Prop where
  | nil {isFirst : Bool} : Listed isFirst [] []
  | first {ts us : List Token} {rest : List (List Token)} : Listed false rest us →
      Listed true (ts :: rest) (ts ++ us)
  | next {p : Pos} {ts us : List Token} {rest : List (List Token)} : Listed false rest us →
      Listed false (ts :: rest) (⟨fixed ",", p⟩ :: (ts ++ us))

/-- The tokens are an expression whose weakest part stands at the given level or above it, and
the tree is what they mean. Level 5 is that of `!`, and level 6 that of operands and of what is
written behind them. Operators of one level group to the left, and parentheses leave no trace. -/
inductive Derived : Nat → List Token → Expr Pos → Prop where
  | binary {k : Nat} {s : String} {op : Operator} {p : Pos} {ls rs : List Token} {x y : Expr Pos} :
      Joined k s op → Derived k ls x → Derived (k + 1) rs y →
      Derived k (ls ++ ⟨fixed s, p⟩ :: rs) (.binary p op x y)
  | lower {k : Nat} {ls : List Token} {x : Expr Pos} : k ≠ 0 → Derived (k + 1) ls x → Derived k ls x
  | not {p : Pos} {ls : List Token} {x : Expr Pos} : Derived 5 ls x →
      Derived 5 (⟨fixed "!", p⟩ :: ls) (.not p x)
  | parens {p q : Pos} {ls : List Token} {x : Expr Pos} : Derived 1 ls x →
      Derived 6 (⟨fixed "(", p⟩ :: (ls ++ [⟨fixed ")", q⟩])) x
  | index {p q : Pos} {ls is : List Token} {x i : Expr Pos} : Derived 6 ls x → Derived 1 is i →
      Derived 6 (ls ++ ⟨fixed "[", p⟩ :: (is ++ [⟨fixed "]", q⟩])) (.index p x i)
  | length {p q : Pos} {ls : List Token} {x : Expr Pos} : Derived 6 ls x →
      Derived 6 (ls ++ [⟨fixed ".", p⟩, ⟨.name "length", q⟩]) (.length p x)
  | call {p q r s : Pos} {ls us : List Token} {x : Expr Pos} {name : String}
      {args : List (List Token × Expr Pos)} : Derived 6 ls x → (∀ a ∈ args, Derived 1 a.1 a.2) →
      Listed true (args.map Prod.fst) us →
      Derived 6
        (ls ++ ⟨fixed ".", p⟩ :: ⟨.name name, q⟩ :: ⟨fixed "(", r⟩ :: (us ++ [⟨fixed ")", s⟩]))
        (.call p x name (args.map Prod.snd))
  | int {p : Pos} {digits : String} : digitsValue digits ≤ 2147483647 →
      Derived 6 [⟨.number digits, p⟩] (.int p (Int32.ofNat (digitsValue digits)))
  | bool {p : Pos} {b : Bool} :
      Derived 6 [⟨fixed (if b then "true" else "false"), p⟩] (.bool p b)
  | ident {p : Pos} {name : String} : Derived 6 [⟨.name name, p⟩] (.ident p name)
  | this {p : Pos} : Derived 6 [⟨fixed "this", p⟩] (.this p)
  | newArray {p q r s : Pos} {ls : List Token} {x : Expr Pos} : Derived 1 ls x →
      Derived 6 (⟨fixed "new", p⟩ :: ⟨fixed "int", q⟩ :: ⟨fixed "[", r⟩ :: (ls ++ [⟨fixed "]", s⟩]))
        (.newArray p x)
  | newObject {p q r s : Pos} {name : String} :
      Derived 6 [⟨fixed "new", p⟩, ⟨.name name, q⟩, ⟨fixed "(", r⟩, ⟨fixed ")", s⟩]
        (.newObject p name)

/-! ## Readers -/

namespace Reading

variable {r : Reading α} {f : α → Reading β} {c c' : Cursor} {a : α} {b : β}

@[simp] theorem run_pure : (pure a : Reading α) c = .ok (a, c) := rfl

@[simp] theorem run_get : (get : Reading Cursor) c = .ok (c, c) := rfl

theorem run_bind_ok (first : r c = .ok (a, c')) : (r >>= f) c = f a c' := by
  simp only [bind, StateT.bind, first, Except.bind]

theorem run_bind_error {e : SyntaxError} (first : r c = .error e) : (r >>= f) c = .error e := by
  simp only [bind, StateT.bind, first, Except.bind]

theorem ok_of_bind (given : (r >>= f) c = .ok (b, c')) :
    ∃ a middle, r c = .ok (a, middle) ∧ f a middle = .ok (b, c') := by
  cases first : r c with
  | error e =>
    rw [run_bind_error first] at given
    cases given
  | ok pair =>
    obtain ⟨a, middle⟩ := pair
    rw [run_bind_ok first] at given
    exact ⟨a, middle, rfl, given⟩

end Reading

theorem run_accept_true {c : Cursor} {s : String} (next : c.nextIs s = true) :
    Reading.accept s c = .ok (true, c.advance) := by
  have looked : Reading.nextIs s c = .ok (true, c) := by rw [← next]; rfl
  rw [Reading.accept, Reading.run_bind_ok looked]
  rfl

theorem run_accept_false {c : Cursor} {s : String} (next : c.nextIs s = false) :
    Reading.accept s c = .ok (false, c) := by
  have looked : Reading.nextIs s c = .ok (false, c) := by rw [← next]; rfl
  rw [Reading.accept, Reading.run_bind_ok looked]
  rfl

/-! ## Readers that go past tokens -/

/-- The second cursor is behind the given tokens, which are next at the first. -/
structure Cursor.Behind (c : Cursor) (ts : List Token) (d : Cursor) : Prop where
  rest : c.rest = ts ++ d.rest
  stop : d.stop = c.stop

namespace Cursor

variable {c d e : Cursor} {ts us : List Token}

theorem Behind.here (c : Cursor) : c.Behind [] c := ⟨rfl, rfl⟩

theorem Behind.trans (first : c.Behind ts d) (second : d.Behind us e) : c.Behind (ts ++ us) e := by
  refine ⟨?_, second.stop.trans first.stop⟩
  rw [first.rest, second.rest, append_assoc]

theorem behind_of_head? {l : Lexeme} (next : c.head? = some l) :
    c.Behind [⟨l, c.pos⟩] c.advance := by
  cases here : c.rest with
  | nil => simp [head?, here] at next
  | cons t rest =>
    obtain rfl : t.lexeme = l := by simpa [head?, here] using next
    refine ⟨?_, rfl⟩
    simp [here, pos, advance]

theorem behind_of_nextIs {s : String} (next : c.nextIs s = true) :
    c.Behind [⟨fixed s, c.pos⟩] c.advance :=
  behind_of_head? (of_decide_eq_true next)

end Cursor

/-- From the given cursor, a reader that succeeds has gone past tokens with a property. -/
def ConsumesAt (c : Cursor) (r : Reading α) (P : α → List Token → Prop) : Prop :=
  ∀ a d, r c = .ok (a, d) → ∃ ts, c.Behind ts d ∧ P a ts

/-- A reader that succeeds has gone past tokens with a property. -/
def Consumes (r : Reading α) (P : α → List Token → Prop) : Prop := ∀ c, ConsumesAt c r P

namespace ConsumesAt

variable {c : Cursor} {r : Reading α} {P P' : α → List Token → Prop} {Q : β → List Token → Prop}

theorem bind {f : α → Reading β} (first : ConsumesAt c r P)
    (second : ∀ a ts, P a ts → Consumes (f a) fun b us => Q b (ts ++ us)) :
    ConsumesAt c (r >>= f) Q := by
  intro b d given
  obtain ⟨a, middle, here, there⟩ := Reading.ok_of_bind given
  obtain ⟨ts, toMiddle, holds⟩ := first a middle here
  obtain ⟨us, toEnd, holds'⟩ := second a ts holds middle b d there
  exact ⟨ts ++ us, toMiddle.trans toEnd, holds'⟩

theorem mono (consumes : ConsumesAt c r P) (weaker : ∀ a ts, P a ts → P' a ts) :
    ConsumesAt c r P' := by
  intro a d given
  obtain ⟨ts, behind, holds⟩ := consumes a d given
  exact ⟨ts, behind, weaker a ts holds⟩

protected theorem pure {a : α} (holds : P a []) : ConsumesAt c (pure a) P := by
  rintro _ _ ⟨⟩
  exact ⟨[], .here c, holds⟩

theorem get {f : Cursor → Reading β} (second : ConsumesAt c (f c) Q) : ConsumesAt c (get >>= f) Q :=
  second

theorem pos {f : Pos → Reading β} (second : ConsumesAt c (f c.pos) Q) :
    ConsumesAt c (Reading.pos >>= f) Q :=
  second

theorem advance {f : Unit → Reading β} {l : Lexeme} (next : c.head? = some l)
    (second : Consumes (f ()) fun b us => Q b (⟨l, c.pos⟩ :: us)) :
    ConsumesAt c (Reading.advance >>= f) Q := by
  intro b d given
  obtain ⟨us, toEnd, holds⟩ := second c.advance b d given
  exact ⟨_, (Cursor.behind_of_head? next).trans toEnd, holds⟩

theorem accept {text : String} {f : Bool → Reading β}
    (yes : Consumes (f true) fun b us => Q b (⟨fixed text, c.pos⟩ :: us))
    (no : ConsumesAt c (f false) Q) : ConsumesAt c (Reading.accept text >>= f) Q := by
  intro b d given
  cases next : c.nextIs text with
  | false =>
    rw [Reading.run_bind_ok (run_accept_false next)] at given
    exact no b d given
  | true =>
    rw [Reading.run_bind_ok (run_accept_true next)] at given
    obtain ⟨us, toEnd, holds⟩ := yes c.advance b d given
    exact ⟨_, (Cursor.behind_of_nextIs next).trans toEnd, holds⟩

end ConsumesAt

namespace Consumes

variable {r : Reading α} {P P' : α → List Token → Prop} {Q : β → List Token → Prop}

protected theorem bind {f : α → Reading β} (first : Consumes r P)
    (second : ∀ a ts, P a ts → Consumes (f a) fun b us => Q b (ts ++ us)) : Consumes (r >>= f) Q :=
  fun c => (first c).bind second

protected theorem pure {a : α} (holds : P a []) : Consumes (pure a) P := fun _ => .pure holds

theorem problem (p : SyntaxProblem) : Consumes (Reading.problem p : Reading α) P := by
  rintro c a d ⟨⟩

theorem unexpected (w : Wanted) : Consumes (Reading.unexpected w : Reading α) P := by
  rintro c a d ⟨⟩

theorem expect {text : String} {f : Unit → Reading β}
    (second : ∀ p, Consumes (f ()) fun b us => Q b (⟨fixed text, p⟩ :: us)) :
    Consumes (Reading.expect text >>= f) Q := by
  have one : Consumes (Reading.expect text) fun _ ts => ∃ p, ts = [⟨fixed text, p⟩] :=
    fun c => .accept (.pure ⟨c.pos, rfl⟩) (unexpected _ c)
  refine one.bind ?_
  rintro ⟨⟩ _ ⟨p, rfl⟩
  exact second p

theorem ident {f : String → Reading β}
    (second : ∀ name p, Consumes (f name) fun b us => Q b (⟨.name name, p⟩ :: us)) :
    Consumes (Reading.ident >>= f) Q := by
  have one : Consumes Reading.ident fun name ts => ∃ p, ts = [⟨.name name, p⟩] := by
    refine fun c => .get ?_
    split
    case h_1 name next => exact .advance next (.pure ⟨c.pos, rfl⟩)
    case h_2 => exact unexpected _ c
  refine one.bind ?_
  rintro name _ ⟨p, rfl⟩
  exact second name p

theorem commaList {close : String} (phrase : Consumes r P) (n : Nat) (isFirst : Bool) :
    Consumes (Reading.commaList close r n isFirst) fun as ts =>
      ∃ (pairs : List (List Token × α)) (us : List Token) (q : Pos),
        (∀ a ∈ pairs, P a.2 a.1) ∧ as = pairs.map Prod.snd ∧
          Listed isFirst (pairs.map Prod.fst) us ∧ ts = us ++ [⟨fixed close, q⟩] := by
  induction n generalizing isFirst with
  | zero => exact problem _
  | succ n ih =>
    intro c
    refine .accept (.pure ⟨[], [], c.pos, by simp, rfl, .nil, rfl⟩) ?_
    -- One phrase and the others, whatever was before it.
    have others : Consumes (do let a ← r; return a :: (← Reading.commaList close r n false))
        fun as ts => ∃ (first : List Token × α) (pairs : List (List Token × α)) (us : List Token)
          (q : Pos), (∀ a ∈ first :: pairs, P a.2 a.1) ∧ as = (first :: pairs).map Prod.snd ∧
            Listed false (pairs.map Prod.fst) us ∧ ts = first.1 ++ us ++ [⟨fixed close, q⟩] := by
      refine phrase.bind fun a ts holds => (ih false).bind ?_
      rintro _ _ ⟨pairs, us, q, each, rfl, listed, rfl⟩
      refine .pure ⟨(ts, a), pairs, us, q, ?_, rfl, listed, ?_⟩
      · exact forall_mem_cons.mpr ⟨holds, each⟩
      · rw [append_nil, append_assoc]
    cases isFirst with
    | true =>
      refine (others c).mono ?_
      rintro _ _ ⟨first, pairs, us, q, each, same, listed, rfl⟩
      exact ⟨first :: pairs, _, q, each, same, .first listed, rfl⟩
    | false =>
      refine Consumes.expect (fun p d => (others d).mono ?_) c
      rintro _ _ ⟨first, pairs, us, q, each, same, listed, rfl⟩
      exact ⟨first :: pairs, _, q, each, same, .next listed, rfl⟩

theorem commaSeparated {close : String} (phrase : Consumes r P) :
    Consumes (Reading.commaSeparated close r) fun as ts =>
      ∃ (pairs : List (List Token × α)) (us : List Token) (q : Pos),
        (∀ a ∈ pairs, P a.2 a.1) ∧ as = pairs.map Prod.snd ∧
          Listed true (pairs.map Prod.fst) us ∧ ts = us ++ [⟨fixed close, q⟩] :=
  fun c => .get (commaList phrase c.bound true c)

end Consumes

/-! ## What is read is derived -/

section

variable {r : Reading (Expr Pos)} (inner : Consumes r fun x ts => Derived 1 ts x)

include inner

theorem consumes_parenthesized : Consumes (parenthesized r) fun x ts => Derived 6 ts x :=
  .expect fun _ => inner.bind fun _ _ inside => .expect fun _ => .pure (.parens inside)

theorem consumes_creation (p : Pos) :
    Consumes (creation r p) fun x ts => Derived 6 (⟨fixed "new", p⟩ :: ts) x := by
  intro c
  refine .accept ?_ (Consumes.ident (fun name q => ?_) c)
  · exact .expect fun _ => inner.bind fun _ _ length => .expect fun _ => .pure (.newArray length)
  · exact .expect fun _ => .expect fun _ => .pure .newObject

theorem consumes_primary : Consumes (primary r) fun x ts => Derived 6 ts x := by
  refine fun c => .pos (.get ?_)
  split
  case h_1 digits next =>
    unfold literal
    split
    case isTrue small => exact .advance next (.pure (.int small))
    case isFalse => exact Consumes.problem _ c
  case h_2 next => exact .advance next (.pure .ident)
  case h_3 next => exact .advance next (.pure (.bool (b := true)))
  case h_4 next => exact .advance next (.pure (.bool (b := false)))
  case h_5 next => exact .advance next (.pure .this)
  case h_6 => exact consumes_parenthesized inner c
  case h_7 next => exact .advance next (consumes_creation inner c.pos)
  case h_8 => exact Consumes.unexpected _ c

theorem consumes_member (p : Pos) (x : Expr Pos) : Consumes (member r p x) fun y us =>
      ∀ ls, Derived 6 ls x → Derived 6 (ls ++ ⟨fixed ".", p⟩ :: us) y := by
  refine .ident fun name q c => .get ?_
  split
  case isTrue isLength =>
    obtain ⟨rfl, _⟩ := isLength
    exact .pure fun ls array => .length array
  case isFalse =>
    refine Consumes.expect (fun _ => (Consumes.commaSeparated inner).bind ?_) c
    rintro _ _ ⟨pairs, us, _, each, rfl, listed, rfl⟩
    refine .pure fun ls recv => ?_
    rw [append_nil]
    exact .call recv each listed

theorem consumes_suffixes (n : Nat) (x : Expr Pos) :
    Consumes (suffixes r n x) fun y us => ∀ ls, Derived 6 ls x → Derived 6 (ls ++ us) y := by
  induction n generalizing x with
  | zero => exact .problem _
  | succ n ih =>
    refine fun c => .pos (.accept ?_ (.accept ?_ (.pure ?_)))
    · refine inner.bind fun i is index => .expect fun q d => (ih _ d).mono ?_
      intro y us longer ls array
      have whole := longer _ (Derived.index (p := c.pos) (q := q) array index)
      simpa using whole
    · refine (consumes_member inner c.pos x).bind fun y is extended d => (ih y d).mono ?_
      intro z us longer ls operand
      have whole := longer _ (extended ls operand)
      simpa using whole
    · intro ls operand
      rw [append_nil]
      exact operand

theorem consumes_operand : Consumes (operand r) fun x ts => Derived 6 ts x := by
  refine (consumes_primary inner).bind fun x ts first c => .get ?_
  exact (consumes_suffixes inner c.bound x c).mono fun y us longer => longer ts first

theorem consumes_negations (n : Nat) : Consumes (negations r n) fun x ts => Derived 5 ts x := by
  induction n with
  | zero => exact .problem _
  | succ n ih =>
    refine fun c => .pos (.accept (ih.bind fun x ts inside => .pure ?_) ?_)
    · rw [append_nil]
      exact .not inside
    · exact (consumes_operand inner c).mono fun x ts operand => .lower (by decide) operand

end

theorem joined_of_operator? {c : Cursor} (positive : k ≠ 0) {op : Operator}
    (found : c.operator? k = some op) : ∃ s, c.head? = some (fixed s) ∧ Joined k s op := by
  unfold Cursor.operator? at found
  split at found
  case h_1 s next =>
    rw [Option.ite_none_right_eq_some] at found
    obtain ⟨rfl, same⟩ := found
    cases same
    refine ⟨s, next, ?_⟩
    unfold Operator.ofSymbol at positive ⊢
    split_ifs at positive ⊢ with and less add sub mul div
    any_goals exact absurd rfl positive
    all_goals subst s; constructor
  case h_2 => cases found

theorem consumes_chainRest {next : Reading (Expr Pos)} (positive : k ≠ 0)
    (right : Consumes next fun x ts => Derived (k + 1) ts x) (n : Nat) (x : Expr Pos) :
    Consumes (chainRest k next n x) fun y us => ∀ ls, Derived k ls x → Derived k (ls ++ us) y := by
  induction n generalizing x with
  | zero => exact .problem _
  | succ n ih =>
    refine fun c => .get ?_
    split
    case h_1 op found =>
      obtain ⟨s, isNext, joined⟩ := joined_of_operator? positive found
      refine .pos (.advance isNext (right.bind fun y rs isRight d => (ih _ d).mono ?_))
      intro z us longer ls left
      have whole := longer _ (Derived.binary (p := c.pos) joined left isRight)
      simpa using whole
    case h_2 =>
      refine .pure fun ls left => ?_
      rw [append_nil]
      exact left

theorem consumes_chain {next : Reading (Expr Pos)} (positive : k ≠ 0)
    (right : Consumes next fun x ts => Derived (k + 1) ts x) :
    Consumes (chain k next) fun x ts => Derived k ts x := by
  refine right.bind fun x ts first c => .get ?_
  refine (consumes_chainRest positive right c.bound x c).mono fun y us longer => ?_
  exact longer ts (.lower positive first)

/-- **What is read as an expression is derived from the tokens that have been passed.** -/
theorem consumes_expr : Consumes expr fun x ts => Derived 1 ts x := by
  have within : ∀ n, Consumes (exprWithin n) fun x ts => Derived 1 ts x := by
    intro n
    induction n with
    | zero => exact .problem _
    | succ n ih =>
      have unary : Consumes (do negations (exprWithin n) (← get).bound)
          fun x ts => Derived 5 ts x := fun c => .get (consumes_negations ih c.bound c)
      exact consumes_chain (by decide) (consumes_chain (by decide)
        (consumes_chain (by decide) (consumes_chain (by decide) unary)))
  exact fun c => .get (within c.bound c)

end JavaMinus.Syntax
