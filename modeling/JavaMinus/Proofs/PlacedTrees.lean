import JavaMinus.Proofs.ExpressionLevels
import JavaMinus.Proofs.GrammarRules

/-!
# Expressions with the places of their parts

What is read is derived from the tokens that have been passed (`consumes_expr`). The other way
round, the tree of a derivation is read from its lexemes, up to marks (`Layered.reads_expr`). The
marks are no matter of choice: from left to right, the nodes of a tree are marked with the tokens
that start or join operands, one after the other (`Derived.fill`). So the tree that is read is the
one that was derived (`expr_of_derived`), and no two trees are derived from the same tokens.
-/

namespace JavaMinus.Syntax

open List

open Lexeme (fixed)

variable {α : Type} {x : Expr Pos} {k : Nat}

/-! ## Marks of derived trees -/

mutual

/-- The tree with the given marks, which are put on its nodes from left to right. The marks that
are left come with it. -/
def Expr.fill : Expr Unit → List Pos → Expr Pos × List Pos
  | .binary _ op l r, ps =>
    let left := l.fill ps
    let right := r.fill left.2.tail
    (.binary (left.2.headD ⟨0, 0⟩) op left.1 right.1, right.2)
  | .not _ x, ps =>
    let inside := x.fill ps.tail
    (.not (ps.headD ⟨0, 0⟩) inside.1, inside.2)
  | .index _ a i, ps =>
    let array := a.fill ps
    let index := i.fill array.2.tail
    (.index (array.2.headD ⟨0, 0⟩) array.1 index.1, index.2)
  | .length _ a, ps =>
    let array := a.fill ps
    (.length (array.2.headD ⟨0, 0⟩) array.1, array.2.tail)
  | .call _ r name as, ps =>
    let recv := r.fill ps
    let args := Expr.fillEach as recv.2.tail
    (.call (recv.2.headD ⟨0, 0⟩) recv.1 name args.1, args.2)
  | .int _ v, ps => (.int (ps.headD ⟨0, 0⟩) v, ps.tail)
  | .bool _ v, ps => (.bool (ps.headD ⟨0, 0⟩) v, ps.tail)
  | .ident _ name, ps => (.ident (ps.headD ⟨0, 0⟩) name, ps.tail)
  | .this _, ps => (.this (ps.headD ⟨0, 0⟩), ps.tail)
  | .newArray _ n, ps =>
    let length := n.fill ps.tail
    (.newArray (ps.headD ⟨0, 0⟩) length.1, length.2)
  | .newObject _ name, ps => (.newObject (ps.headD ⟨0, 0⟩) name, ps.tail)
  | .hole, ps => (.hole, ps)

/-- The trees of a list with the given marks. -/
def Expr.fillEach : List (Expr Unit) → List Pos → List (Expr Pos) × List Pos
  | [], ps => ([], ps)
  | x :: rest, ps =>
    let first := x.fill ps
    let others := Expr.fillEach rest first.2
    (first.1 :: others.1, others.2)

end

/-- A lexeme that stands for a node of the tree, unless it is part of the one before. -/
def Lexeme.isNode : Lexeme → Bool
  | .fixed s => s ∈ "true" :: "false" :: "this" :: "new" :: "!" :: "." :: "[" :: binarySymbols
  | _ => true

/-- The places of the tokens that stand for nodes. What comes right behind a dot, `new` or `int`
does not. -/
def nodePlaces (isPart : Bool) : List Token → List Pos
  | [] => []
  | t :: ts =>
    (if t.lexeme.isNode && !isPart then [t.pos] else []) ++
      nodePlaces (t.lexeme ∈ [fixed ".", fixed "new", fixed "int"]) ts

theorem Joined.nodePlaces {s : String} {op : Operator} (joined : Joined k s op) (p : Pos)
    (ts : List Token) :
    Syntax.nodePlaces false (⟨fixed s, p⟩ :: ts) = p :: Syntax.nodePlaces false ts := by
  cases joined <;> rfl

theorem Listed.fillEach {isFirst : Bool} {args : List (List Token × Expr Pos)} {us : List Token}
    (listed : Listed isFirst (args.map Prod.fst) us)
    (each : ∀ a ∈ args, ∀ more, a.2.bare.fill (nodePlaces false (a.1 ++ more)) =
      (a.2, nodePlaces false more)) (more : List Token) :
    Expr.fillEach (args.map fun a => a.2.bare) (nodePlaces false (us ++ more)) =
      (args.map Prod.snd, nodePlaces false more) := by
  induction args generalizing isFirst us with
  | nil =>
    cases listed
    rfl
  | cons a args ih =>
    obtain ⟨first, others⟩ := forall_mem_cons.mp each
    cases listed with
    | first rest =>
      rw [map_cons, Expr.fillEach, append_assoc]
      simp only [first, ih rest others, map_cons]
    | @next p _ us _ rest =>
      have comma : nodePlaces false (⟨fixed ",", p⟩ :: (a.1 ++ us) ++ more) =
          nodePlaces false (a.1 ++ (us ++ more)) := by
        rw [← append_assoc]
        rfl
      rw [comma, map_cons, Expr.fillEach]
      simp only [first, ih rest others, map_cons]

/-- **The nodes of a derived tree are marked, from left to right, with the tokens that stand for
nodes.** -/
theorem Derived.fill {ts : List Token} (derived : Derived k ts x) :
    ∀ more, x.bare.fill (nodePlaces false (ts ++ more)) = (x, nodePlaces false more) := by
  induction derived with
  | @binary _ _ op p _ _ x y joined _ _ left right =>
    intro more
    rw [append_assoc]
    change (Expr.binary () op x.bare y.bare).fill _ = _
    simp only [Expr.fill, left, cons_append, joined.nodePlaces, headD_cons,
      tail_cons, right]
  | lower _ _ ih => exact ih
  | @not p ls x _ inside =>
    intro more
    change (Expr.not () x.bare).fill (p :: nodePlaces false (ls ++ more)) = _
    simp only [Expr.fill, headD_cons, tail_cons, inside]
  | @parens p q ls x _ inside =>
    intro more
    change x.bare.fill (nodePlaces false (ls ++ [⟨fixed ")", q⟩] ++ more)) = _
    rw [append_assoc, inside]
    rfl
  | @index p q ls is x i _ _ array index =>
    intro more
    have opened : ∀ us, nodePlaces false (⟨fixed "[", p⟩ :: us) = p :: nodePlaces false us :=
      fun _ => rfl
    rw [append_assoc]
    change (Expr.index () x.bare i.bare).fill _ = _
    simp only [Expr.fill, array, cons_append, opened, headD_cons, tail_cons,
      append_assoc, index]
    rfl
  | @length p q ls x _ array =>
    intro more
    rw [append_assoc]
    change (Expr.length () x.bare).fill _ = _
    simp only [Expr.fill, array]
    rfl
  | @call p q r s ls us x name args _ _ listed recv each =>
    intro more
    have marks := listed.fillEach each (⟨fixed ")", s⟩ :: more)
    have start : ∀ us,
        nodePlaces false (⟨fixed ".", p⟩ :: ⟨.name name, q⟩ :: ⟨fixed "(", r⟩ :: us) =
          p :: nodePlaces false us := by
      intro us
      simp [nodePlaces, Lexeme.isNode, binarySymbols]
    rw [append_assoc]
    have bare : (Expr.call p x name (args.map Prod.snd)).bare =
        .call () x.bare name (args.map fun a => a.2.bare) := by
      rw [Expr.bare, Expr.map, mapList_bare, map_map]
      rfl
    rw [bare]
    simp only [Expr.fill, recv, cons_append, start, headD_cons, tail_cons,
      append_assoc, nil_append, marks]
    rfl
  | int => exact fun more => rfl
  | @bool _ b => exact fun more => by cases b <;> rfl
  | ident =>
    intro more
    simp [Expr.bare, Expr.map, Expr.fill, nodePlaces, Lexeme.isNode]
  | this => exact fun more => rfl
  | @newArray p q r s ls x _ length =>
    intro more
    change (Expr.newArray () x.bare).fill
      (p :: nodePlaces false (ls ++ [⟨fixed "]", s⟩] ++ more)) = _
    simp only [Expr.fill, headD_cons, tail_cons, append_assoc, length]
    rfl
  | @newObject p q r s name =>
    intro more
    simp [Expr.bare, Expr.map, Expr.fill, nodePlaces, Lexeme.isNode, binarySymbols]

/-! ## What is derived is read -/

theorem Listed.lexemes {isFirst : Bool} {phrases : List (List Token)} {us : List Token}
    (listed : Listed isFirst phrases us) :
    us.map (·.lexeme) = commaLexemes isFirst (phrases.map fun ts => ts.map (·.lexeme)) := by
  induction listed with
  | nil => rfl
  | first _ ih | next _ ih => simp [commaLexemes, ih]

theorem Derived.layered {ts : List Token} (derived : Derived k ts x) :
    Layered k (ts.map (·.lexeme)) x.bare := by
  induction derived with
  | binary joined _ _ left right =>
    rw [map_append, map_cons]
    cases joined with
    | and => exact @Layered.binary .and _ _ _ _ (by decide) left right
    | less => exact @Layered.binary .less _ _ _ _ (by decide) left right
    | add => exact @Layered.binary .add _ _ _ _ (by decide) left right
    | sub => exact @Layered.binary .sub _ _ _ _ (by decide) left right
    | mul => exact @Layered.binary .mul _ _ _ _ (by decide) left right
    | div => exact @Layered.binary .div _ _ _ _ (by decide) left right
  | lower positive _ above => exact .lower positive above
  | not _ inside => exact .not inside
  | parens _ inside =>
    rw [map_cons, map_append]
    exact .parens inside
  | index _ _ array index =>
    rw [map_append, map_cons, map_append]
    exact .index array index
  | length _ array =>
    rw [map_append]
    exact .length array
  | @call p q r s ls us x name args _ _ listed recv each =>
    have isArgs : ∀ a ∈ args.map fun a => (a.1.map (·.lexeme), a.2.bare), Layered 1 a.1 a.2 := by
      intro a member
      obtain ⟨pair, isArg, rfl⟩ := mem_map.mp member
      exact each pair isArg
    have whole : Layered 6 _ (.call () x.bare name _) := .call recv isArgs
    simpa [listed.lexemes, Expr.bare, Expr.map, mapList_bare, Function.comp_def] using whole
  | int small => exact .int small
  | bool => exact .bool
  | ident => exact .ident
  | this => exact .this
  | newArray _ length =>
    rw [map_cons, map_cons, map_cons, map_append]
    exact .newArray length
  | newObject => exact .newObject

/-- Nothing comes behind an expression, or a sign that closes it. -/
def ClosedBy (more : List Token) : Prop :=
  ∀ t ∈ more.head?, ∃ s ∈ [")", "]", "\x7d", ";", ","], t.lexeme = fixed s

theorem ClosedBy.ends {more : List Token} (closed : ClosedBy more) :
    Ends 0 (more.map (·.lexeme)) := by
  have all : ∀ s ∈ [")", "]", "\x7d", ";", ","],
      s ≠ "(" ∧ (s ≠ "[" ∧ s ≠ ".") ∧ (Operator.ofSymbol s).level ≤ 0 := by decide
  intro s next
  rw [List.head?_map, Option.map_eq_some_iff] at next
  obtain ⟨t, first, same⟩ := next
  obtain ⟨s', closes, isSign⟩ := closed t first
  obtain rfl : s' = s := Lexeme.fixed.inj (isSign.symm.trans same)
  obtain ⟨noCall, noSuffix, low⟩ := all s' closes
  exact ⟨noCall, fun _ => noSuffix, low⟩

/-- A reader that takes given lexemes goes past their tokens, and what is left is what was behind
them. -/
theorem Reads.exact {r : Reading α} {P : α → Prop} {tokens more : List Token}
    (reads : Reads r (tokens.map (·.lexeme)) (more.map (·.lexeme)) P) (stop : Pos) :
    ∃ a, r ⟨tokens ++ more, stop⟩ = .ok (a, ⟨more, stop⟩) ∧ P a := by
  obtain ⟨a, read, holds⟩ := reads ⟨tokens ++ more, stop⟩ map_append
  refine ⟨a, read.trans ?_, holds⟩
  simp [Cursor.skip]

/-- **What is derived is read, up to what closes it.** -/
theorem expr_of_derived {ts more : List Token} (derived : Derived 1 ts x) (closed : ClosedBy more)
    (stop : Pos) : expr ⟨ts ++ more, stop⟩ = .ok (x, ⟨more, stop⟩) := by
  obtain ⟨y, read, same⟩ := (derived.layered.reads_expr closed.ends).exact stop
  obtain ⟨us, behind, derived'⟩ := consumes_expr _ y _ read
  obtain rfl : ts = us := append_cancel_right behind.rest
  -- Both trees carry the marks of the same tokens.
  have marks := derived.fill []
  rw [← same, derived'.fill [], Prod.mk.injEq] at marks
  rw [read, marks.1]

theorem Derived.unique {ts : List Token} {y : Expr Pos} (first : Derived 1 ts x)
    (second : Derived 1 ts y) : y = x := by
  have closed : ClosedBy [] := by simp [ClosedBy]
  have read := expr_of_derived first closed ⟨1, 1⟩
  rw [expr_of_derived second closed ⟨1, 1⟩] at read
  cases read
  rfl

/-- The tokens of `a-(b)-c*!d[0];`. -/
def mixedTokens : List Token :=
  [⟨.name "a", ⟨1, 1⟩⟩, ⟨fixed "-", ⟨1, 2⟩⟩, ⟨fixed "(", ⟨1, 3⟩⟩, ⟨.name "b", ⟨1, 4⟩⟩,
    ⟨fixed ")", ⟨1, 5⟩⟩, ⟨fixed "-", ⟨1, 6⟩⟩, ⟨.name "c", ⟨1, 7⟩⟩, ⟨fixed "*", ⟨1, 8⟩⟩,
    ⟨fixed "!", ⟨1, 9⟩⟩, ⟨.name "d", ⟨1, 10⟩⟩, ⟨fixed "[", ⟨1, 11⟩⟩, ⟨.number "0", ⟨1, 12⟩⟩,
    ⟨fixed "]", ⟨1, 13⟩⟩, ⟨fixed ";", ⟨1, 14⟩⟩]

/-- The tree of `a-(b)-c*!d[0]`. -/
def mixedTree : Expr Pos :=
  .binary ⟨1, 6⟩ .sub (.binary ⟨1, 2⟩ .sub (.ident ⟨1, 1⟩ "a") (.ident ⟨1, 4⟩ "b"))
    (.binary ⟨1, 8⟩ .mul (.ident ⟨1, 7⟩ "c")
      (.not ⟨1, 9⟩ (.index ⟨1, 11⟩ (.ident ⟨1, 10⟩ "d") (.int ⟨1, 12⟩ 0))))

end JavaMinus.Syntax
