import Mathlib
import JavaMinus.Syntax

/-!
# Induction over syntax trees

The parts of an expression are the expressions directly below it, and likewise for
statements. What holds of a tree whenever it holds of its parts holds of every
tree (`Expr.partsInduction`, `Stmt.partsInduction`).
-/

namespace JavaMinus.Syntax

open List

variable {α : Type}

/-! ## Expressions -/

/-- The expressions directly below an expression, from left to right. -/
def Expr.parts : Expr α → List (Expr α)
  | .binary _ _ l r => [l, r]
  | .not _ x => [x]
  | .index _ a i => [a, i]
  | .length _ a => [a]
  | .call _ r _ as => r :: as
  | .newArray _ n => [n]
  | _ => []

mutual

/-- What holds of an expression whenever it holds of its parts holds of every
expression. -/
theorem Expr.partsInduction {P : Expr α → Prop}
    (step : ∀ x : Expr α, (∀ y ∈ x.parts, P y) → P x) : ∀ x : Expr α, P x
  | .binary _ _ l r => step _ (forall_mem_cons.mpr
      ⟨Expr.partsInduction step l, forall_mem_singleton.mpr (Expr.partsInduction step r)⟩)
  | .index _ a i => step _ (forall_mem_cons.mpr
      ⟨Expr.partsInduction step a, forall_mem_singleton.mpr (Expr.partsInduction step i)⟩)
  | .not _ x => step _ (forall_mem_singleton.mpr (Expr.partsInduction step x))
  | .length _ a => step _ (forall_mem_singleton.mpr (Expr.partsInduction step a))
  | .newArray _ n => step _ (forall_mem_singleton.mpr (Expr.partsInduction step n))
  | .call _ r _ as => step _ (forall_mem_cons.mpr
      ⟨Expr.partsInduction step r, Expr.partsInductionList step as⟩)
  | .int _ _ => step _ (forall_mem_nil _)
  | .bool _ _ => step _ (forall_mem_nil _)
  | .ident _ _ => step _ (forall_mem_nil _)
  | .this _ => step _ (forall_mem_nil _)
  | .newObject _ _ => step _ (forall_mem_nil _)
  | .hole => step _ (forall_mem_nil _)

theorem Expr.partsInductionList {P : Expr α → Prop}
    (step : ∀ x : Expr α, (∀ y ∈ x.parts, P y) → P x) : ∀ (xs : List (Expr α)), ∀ x ∈ xs, P x
  | [] => forall_mem_nil _
  | x :: rest => forall_mem_cons.mpr
      ⟨Expr.partsInduction step x, Expr.partsInductionList step rest⟩

end

/-! ## Statements -/

/-- The statements directly below a statement, in order. -/
def Stmt.parts : Stmt α → List (Stmt α)
  | .block _ ss => ss
  | .ifElse _ _ y n => [y, n]
  | .while _ _ b => [b]
  | _ => []

mutual

/-- What holds of a statement whenever it holds of its parts holds of every
statement. -/
theorem Stmt.partsInduction {P : Stmt α → Prop}
    (step : ∀ s : Stmt α, (∀ t ∈ s.parts, P t) → P s) : ∀ s : Stmt α, P s
  | .block _ ss => step _ (Stmt.partsInductionList step ss)
  | .ifElse _ _ y n => step _ (forall_mem_cons.mpr
      ⟨Stmt.partsInduction step y, forall_mem_singleton.mpr (Stmt.partsInduction step n)⟩)
  | .while _ _ b => step _ (forall_mem_singleton.mpr (Stmt.partsInduction step b))
  | .assign _ _ _ => step _ (forall_mem_nil _)
  | .arrayAssign _ _ _ _ => step _ (forall_mem_nil _)
  | .expr _ _ => step _ (forall_mem_nil _)
  | .hole => step _ (forall_mem_nil _)

theorem Stmt.partsInductionList {P : Stmt α → Prop}
    (step : ∀ s : Stmt α, (∀ t ∈ s.parts, P t) → P s) : ∀ (ss : List (Stmt α)), ∀ s ∈ ss, P s
  | [] => forall_mem_nil _
  | s :: rest => forall_mem_cons.mpr
      ⟨Stmt.partsInduction step s, Stmt.partsInductionList step rest⟩

end

end JavaMinus.Syntax
