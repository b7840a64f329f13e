import JavaMinus.Proofs.ReadingBack
import JavaMinus.Proofs.TreeInduction

/-!
# Expressions level by level

The grammar of expressions with one level for each strength of operators, on lexemes, with the
tree that they mean (`Layered`). What is derived at a level is read at that level
(`Layered.readAt`), so every derived expression is read, whatever closes it (`Layered.reads_expr`).

The lexemes of a tree are derived at the level that their place asks for
(`Expr.Readable.layered`). An expression is therefore read back from its lexemes (`reads_expr`).
-/

namespace JavaMinus.Syntax

open List

open Lexeme (fixed)

variable {α : Type}

/-! ## Derivations with levels -/

/-- The lexemes are an expression whose weakest part stands at the given level or above it,
and the tree is what they mean. Parentheses lead back to the lowest level. -/
inductive Layered : Nat → List Lexeme → Expr Unit → Prop where
  | binary {op : Operator} {ls rs : List Lexeme} {x y : Expr Unit} : op.level ≠ 0 →
      Layered op.level ls x → Layered (op.level + 1) rs y →
      Layered op.level (ls ++ fixed op.symbol :: rs) (.binary () op x y)
  | not {ls : List Lexeme} {x : Expr Unit} : Layered notLevel ls x →
      Layered notLevel (fixed "!" :: ls) (.not () x)
  | lower {k : Nat} {ls : List Lexeme} {x : Expr Unit} : k ≠ 0 → Layered (k + 1) ls x →
      Layered k ls x
  | parens {ls : List Lexeme} {x : Expr Unit} : Layered 1 ls x →
      Layered operandLevel (fixed "(" :: (ls ++ [fixed ")"])) x
  | index {ls is : List Lexeme} {x i : Expr Unit} : Layered operandLevel ls x → Layered 1 is i →
      Layered operandLevel (ls ++ fixed "[" :: (is ++ [fixed "]"])) (.index () x i)
  | length {ls : List Lexeme} {x : Expr Unit} : Layered operandLevel ls x →
      Layered operandLevel (ls ++ [fixed ".", .name "length"]) (.length () x)
  | call {ls : List Lexeme} {x : Expr Unit} {name : String}
      {args : List (List Lexeme × Expr Unit)} : Layered operandLevel ls x →
      (∀ a ∈ args, Layered 1 a.1 a.2) →
      Layered operandLevel (ls ++ fixed "." :: .name name :: fixed "(" ::
          (commaLexemes true (args.map Prod.fst) ++ [fixed ")"]))
        (.call () x name (args.map Prod.snd))
  | int {digits : String} : digitsValue digits ≤ maxLiteral →
      Layered operandLevel [.number digits] (.int () (Int32.ofNat (digitsValue digits)))
  | bool {b : Bool} : Layered operandLevel [fixed (if b then "true" else "false")] (.bool () b)
  | ident {name : String} : Layered operandLevel [.name name] (.ident () name)
  | this : Layered operandLevel [fixed "this"] (.this ())
  | newArray {ls : List Lexeme} {x : Expr Unit} : Layered 1 ls x →
      Layered operandLevel (fixed "new" :: fixed "int" :: fixed "[" :: (ls ++ [fixed "]"]))
        (.newArray () x)
  | newObject {name : String} :
      Layered operandLevel [fixed "new", .name name, fixed "(", fixed ")"] (.newObject () name)

namespace Layered

variable {k j : Nat} {ls rs : List Lexeme} {x y : Expr Unit}

theorem descend (layered : Layered k ls x) (positive : j ≠ 0) (le : j ≤ k) : Layered j ls x := by
  induction k, le using Nat.le_induction with
  | base => exact layered
  | succ k le ih =>
    apply ih
    exact .lower (by omega) layered

theorem level_le (layered : Layered k ls x) : k ≤ operandLevel := by
  induction layered with
  | @binary op => exact (level_le_four op).trans (by decide)
  | not => decide
  | lower _ _ above => exact Nat.le_of_succ_le above
  | _ => exact Nat.le_refl _

theorem starts (layered : Layered k ls x) : ∃ l rest, ls = l :: rest ∧ l.startsExpr = true := by
  induction layered with
  | binary _ _ _ first | index _ _ first | length _ first | call _ _ first =>
    obtain ⟨l, rest, rfl, starts⟩ := first
    exact ⟨l, _, rfl, starts⟩
  | lower _ _ above => exact above
  | @bool b => cases b <;> exact ⟨_, _, rfl, by decide⟩
  | int | ident => exact ⟨_, _, rfl, rfl⟩
  | _ => exact ⟨_, _, rfl, by decide⟩

theorem enclosed {outer : Nat} (layered : Layered k ls x) (own : k ≠ 0) (positive : outer ≠ 0)
    (le : outer ≤ operandLevel) : Layered outer (enclosed (k < outer) ls) x := by
  by_cases below : k < outer
  · rw [decide_eq_true below]
    exact (Layered.parens (layered.descend (by decide) (by omega))).descend positive le
  · rw [decide_eq_false below]
    exact layered.descend positive (by omega)

end Layered

/-! ## Reading -/

theorem reads_within_of_readAt {n : Nat} {ls more : List Lexeme} {x : Expr Unit}
    (read : ∀ n more, ls.length ≤ n → Ends 1 more → ReadAt (exprWithin n) x ls more 5)
    (enough : ls.length < n) (ends : Ends 0 more) :
    Reads (exprWithin n) ls more (·.bare = x.bare) := by
  obtain ⟨n, rfl⟩ := Nat.exists_eq_add_one.mpr (Nat.zero_lt_of_lt enough)
  exact reads_exprWithin (read n more (Nat.le_of_lt_succ enough) (ends.mono (Nat.zero_le _))) ends

/-- **What is derived at a level is read at that level.** -/
theorem Layered.readAt {k : Nat} {ls : List Lexeme} {x : Expr Unit} (layered : Layered k ls x) :
    ∀ n more, ls.length ≤ n → Ends k more → ReadAt (exprWithin n) x ls more (6 - k) := by
  induction layered with
  | @binary op ls rs x y isBinary _ _ left right =>
    intro n more enough ends
    have bound := level_le_four op
    simp only [length_cons, length_append] at enough
    obtain ⟨k, low, level⟩ : ∃ k, k ≤ 3 ∧ op.level = 4 - k := ⟨4 - op.level, by omega, by omega⟩
    have here : 6 - op.level = k + 2 := by omega
    have above : 6 - (op.level + 1) = k + 1 := by omega
    have leftRead := left n (fixed op.symbol :: (rs ++ more)) (by omega) (ends_operator isBinary)
    have rightRead := right n more (by omega) (ends.mono (by omega))
    rw [above] at rightRead
    have rightReads := rightRead.reads_chains (by omega) (level ▸ ends)
    have chained : chains (exprWithin n) (k + 1) = chain op.level (chains (exprWithin n) k) := by
      rw [chains, level]
    rw [here] at leftRead ⊢
    simp only [ReadAt, chained, ← level] at leftRead ⊢
    exact leads_binary isBinary leftRead rightReads
  | @not ls x _ inner =>
    intro n more enough ends fuel enoughFuel
    simp only [length_cons] at enough
    simp only [length_append, length_cons] at enoughFuel
    obtain ⟨fuel, rfl⟩ := Nat.exists_eq_succ_of_ne_zero (show fuel ≠ 0 by omega)
    have read : ReadAt (exprWithin n) x ls more 1 := inner n more (Nat.le_of_succ_le enough) ends
    exact reads_not (read fuel (by rw [length_append]; omega))
  | @lower k ls x positive layered ih =>
    intro n more enough ends
    have high : k + 1 ≤ 6 := layered.level_le
    have read := ih n more enough (ends.mono (Nat.le_succ k))
    exact read.descend (by omega) (by omega) (ends.mono (by omega))
  | parens _ inner =>
    intro n more enough _
    simp only [length_cons, length_append, length_nil] at enough
    exact leads_operand (reads_parens (reads_within_of_readAt inner (by omega)
      (ends_of_closer (by decide) rfl)))
  | index _ _ array index =>
    intro n more enough _
    simp only [length_cons, length_append, length_nil] at enough
    exact leads_index (array n _ (by omega) (ends_operand (by decide)))
      (reads_within_of_readAt index (by omega) (ends_of_closer (by decide) rfl))
  | length _ array =>
    intro n more enough ends
    simp only [length_cons, length_append, length_nil] at enough
    refine leads_member (array n _ (by omega) (ends_operand (by decide))) (by simp) ?_
    intro p b same
    apply reads_length same
    intro next
    exact (ends _ next).1 rfl
  | @call _ _ _ args _ derived recv each =>
    intro n more enough ends
    simp only [length_cons, length_append, length_nil] at enough
    refine leads_member (recv n _ (by omega) (ends_operand (by decide))) (by simp) ?_
    intro p b same
    refine reads_callOf same (fun a member => ?_) fun a member later separates => ?_
    · exact (derived a member).starts
    · have length : a.1.length ≤ (commaLexemes true (args.map Prod.fst)).length :=
        length_le_of_mem (mem_map_of_mem member) true
      refine reads_within_of_readAt (each a member) (by omega) ?_
      rcases separates with comma | close
      · exact ends_of_closer (by decide) comma
      · exact ends_of_closer (by decide) close
  | int small => exact fun n more _ _ => leads_operand (reads_literal small)
  | bool => exact fun n more _ _ => leads_operand reads_bool
  | ident => exact fun n more _ _ => leads_operand reads_ident
  | this => exact fun n more _ _ => leads_operand reads_this
  | newArray _ length =>
    intro n more enough _
    simp only [length_cons, length_append, length_nil] at enough
    exact leads_operand (reads_newArray (reads_within_of_readAt length (by omega)
      (ends_of_closer (by decide) rfl)))
  | newObject => exact fun n more _ _ => leads_operand reads_newObject

theorem Expr.bare_eq_self (x : Expr Unit) : x.bare = x := by
  induction x using Expr.partsInduction with
  | step x parts =>
    cases x with
    | call m r name as =>
      obtain ⟨recv, args⟩ := forall_mem_cons.mp parts
      have each : as.map Expr.bare = as := (map_congr_left args).trans (map_id as)
      rw [bare, map, mapList_bare, each]
      exact congrArg (Expr.call () · name as) recv
    | _ => simp_all [bare, map, Expr.parts]

/-- **Every derived expression is read, whatever closes it.** -/
theorem Layered.reads_expr {ls more : List Lexeme} {x : Expr Unit} (layered : Layered 1 ls x)
    (ends : Ends 0 more) : Reads expr ls more (·.bare = x) := by
  refine .get fun c here => ?_
  have enough : ls.length < c.bound := by
    rw [Cursor.bound_eq, here, length_append]
    omega
  simpa only [x.bare_eq_self] using reads_within_of_readAt layered.readAt enough ends

/-! ## Lexemes of trees -/

section

variable {x : Expr α} {more : List Lexeme}

theorem layered_int {v : Int32} (nonneg : 0 ≤ v.toInt) :
    Layered operandLevel [.number (toString v.toInt)] (.int () v) := by
  obtain ⟨n, isNat⟩ := Int.eq_ofNat_of_zero_le nonneg
  have value : digitsValue (toString v.toInt) = n := by rw [isNat, digitsValue_toString]
  have small : n ≤ maxLiteral := by
    have bound := v.toInt_lt
    simp only [maxLiteral]
    omega
  have back : Int32.ofNat n = v := by
    rw [← Int32.ofInt_toInt v, isNat]
    rfl
  have derived : Layered operandLevel _ (.int () (.ofNat (digitsValue (toString v.toInt)))) :=
    .int (value ▸ small)
  rwa [value, back] at derived

theorem Expr.Readable.lexemes_zero (readable : x.Readable) : x.lexemes 0 = x.lexemes 1 := by
  cases readable with
  | @binary m op l r binary _ _ =>
    have notBelow : ¬op.level < 1 := by omega
    simp only [Expr.lexemes, Nat.not_lt_zero, notBelow]
  | not | index | length | call | int | bool | ident | this | newArray | newObject => rfl

/-- **The lexemes of an expression are derived at the level that its place asks for.** -/
theorem Expr.Readable.layered (readable : x.Readable) {outer : Nat} (positive : outer ≠ 0)
    (le : outer ≤ operandLevel) : Layered outer (x.lexemes outer) x.bare := by
  have operand : ∀ {ls : List Lexeme} {y : Expr Unit} {outer : Nat}, outer ≠ 0 →
      outer ≤ operandLevel → Layered operandLevel ls y → Layered outer ls y :=
    fun positive le inner => inner.descend positive le
  induction readable generalizing outer with
  | @binary m op l r binary _ _ left right =>
    have bound := level_le_four op
    rw [Expr.lexemes]
    refine Layered.enclosed (.binary binary (left binary ?_) (right (Nat.succ_ne_zero _) ?_)) binary
      positive le
    · exact bound.trans (by decide)
    · exact Nat.succ_le_succ (bound.trans (by decide))
  | not _ inner =>
    rw [Expr.lexemes]
    exact Layered.enclosed (.not (inner (by decide) (by decide))) (by decide) positive le
  | index _ index array inside =>
    rw [Expr.lexemes, index.lexemes_zero]
    exact operand positive le (.index (array (by decide) (Nat.le_refl _))
      (inside (by decide) (by decide)))
  | length _ array => exact operand positive le (.length (array (by decide) (Nat.le_refl _)))
  | @call m r name as _ _ readable recv args =>
    have each : ∀ a ∈ as.map fun a => (a.lexemes 0, a.bare), Layered 1 a.1 a.2 := by
      intro pair member
      obtain ⟨a, isArg, rfl⟩ := mem_map.mp member
      rw [(readable a isArg).lexemes_zero]
      exact args a isArg (by decide) (by decide)
    have whole : Layered operandLevel _ (.call () r.bare name _) :=
      .call (recv (by decide) (Nat.le_refl _)) each
    rw [map_map, map_map] at whole
    rw [Expr.lexemes, Expr.lexemesEach_eq_map, Expr.bare, Expr.map, mapList_bare]
    exact operand positive le whole
  | int nonneg => exact operand positive le (layered_int nonneg)
  | bool => exact operand positive le .bool
  | ident => exact operand positive le .ident
  | this => exact operand positive le .this
  | newArray length inside =>
    rw [Expr.lexemes, length.lexemes_zero]
    exact operand positive le (.newArray (inside (by decide) (by decide)))
  | newObject => exact operand positive le .newObject

theorem Expr.Readable.lexemes_cons (readable : x.Readable) :
    ∃ l ls, x.lexemes 0 = l :: ls ∧ l.startsExpr = true := by
  rw [readable.lexemes_zero]
  exact (readable.layered (by decide) (by decide)).starts

theorem reads_expr_at (readable : x.Readable) {outer : Nat} (le : outer ≤ operandLevel)
    (ends : Ends 0 more) : Reads expr (x.lexemes outer) more (·.bare = x.bare) := by
  cases outer with
  | zero =>
    rw [readable.lexemes_zero]
    exact (readable.layered (by decide) (by decide)).reads_expr ends
  | succ outer =>
    exact ((readable.layered (Nat.succ_ne_zero _) le).descend (by decide) (by omega)).reads_expr ends

/-- **An expression is read back from its lexemes.** -/
theorem reads_expr (readable : x.Readable) (ends : Ends 0 more) :
    Reads expr (x.lexemes 0) more (·.bare = x.bare) :=
  reads_expr_at readable (Nat.zero_le _) ends

end

end JavaMinus.Syntax
