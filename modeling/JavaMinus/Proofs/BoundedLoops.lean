import Mathlib

/-!
# Loops that end

A loop repeats its body until a condition holds. It ends after finitely many rounds
if some number falls in every round that does not yet end it (`exists_loopEnds`).

A loop can be run with a bound on its rounds. If it ends within the bound, the bound
is never noticed: what comes out is what the loop ends with (`LoopEnds.of_fuel`).
-/

namespace JavaMinus

/-- A loop that starts at `x` and goes on with `next` until `done` holds ends at
`last`, after `n` rounds. -/
structure LoopEnds {σ : Type} (next : σ → σ) (done : σ → Prop) (x : σ) (n : Nat) (last : σ) :
    Prop where
  reached : next^[n] x = last
  ended : done last
  running : ∀ k < n, ¬ done (next^[k] x)

section Loops

variable {σ τ : Type} {next : σ → σ} {done : σ → Prop} {x last : σ} {n : Nat}

theorem LoopEnds.stop (stopped : done x) : LoopEnds next done x 0 x :=
  ⟨rfl, stopped, fun k below => absurd below (Nat.not_lt_zero k)⟩

theorem LoopEnds.round (goes : ¬ done x) (ends : LoopEnds next done (next x) n last) :
    LoopEnds next done x (n + 1) last := by
  refine ⟨ends.reached, ends.ended, fun k below => ?_⟩
  cases k with
  | zero => exact goes
  | succ k => exact ends.running k (Nat.lt_of_succ_lt_succ below)

/-- **Loops end.** If rounds keep an invariant, and a number falls in every round, the
loop takes at most as many rounds as that number says at the start. -/
theorem exists_loopEnds (inv : σ → Prop) (variant : σ → Nat)
    (round : ∀ y, inv y → ¬ done y → inv (next y) ∧ variant (next y) < variant y) (start : inv x) :
    ∃ n ≤ variant x, ∃ last, LoopEnds next done x n last ∧ inv last := by
  induction size : variant x using Nat.strongRecOn generalizing x with
  | ind size ih =>
    by_cases stopped : done x
    · exact ⟨0, Nat.zero_le _, x, .stop stopped, start⟩
    · obtain ⟨kept, falls⟩ := round x start stopped
      obtain ⟨n, bound, last, ends, held⟩ := ih _ (size ▸ falls) kept rfl
      exact ⟨n + 1, by omega, last, .round stopped ends, held⟩

theorem LoopEnds.of_fuel (f : Nat → σ → τ) (out : σ → τ) (stop : ∀ r y, done y → f r y = out y)
    (go : ∀ r y, ¬ done y → f (r + 1) y = f r (next y)) (ends : LoopEnds next done x n last)
    {r : Nat} (enough : n ≤ r) : f r x = out last := by
  induction n generalizing x r with
  | zero =>
    obtain rfl : x = last := ends.reached
    exact stop r x ends.ended
  | succ n ih =>
    obtain ⟨r, rfl⟩ : ∃ r', r = r' + 1 := ⟨r - 1, by omega⟩
    rw [go r x (ends.running 0 (Nat.succ_pos n))]
    refine ih ⟨ends.reached, ends.ended, fun k below => ?_⟩ (Nat.le_of_succ_le_succ enough)
    exact ends.running (k + 1) (Nat.succ_lt_succ below)

/-- Two loops whose rounds keep to a relation, and that stop at the same time, end related. -/
theorem LoopEnds.related {next' : τ → τ} {done' : τ → Prop} {y last' : τ} {n' : Nat}
    (R : σ → τ → Prop) (step : ∀ {a b}, R a b → R (next a) (next' b))
    (together : ∀ {a b}, R a b → (done a ↔ done' b)) (start : R x y)
    (ends : LoopEnds next done x n last) (ends' : LoopEnds next' done' y n' last') :
    R last last' := by
  have along : ∀ k, R (next^[k] x) (next'^[k] y) := by
    intro k
    induction k with
    | zero => exact start
    | succ k ih =>
      rw [Function.iterate_succ_apply', Function.iterate_succ_apply']
      exact step ih
  have same : n = n' := by
    rcases Nat.lt_trichotomy n n' with less | same | less
    · exact absurd ((together (along n)).mp (ends.reached ▸ ends.ended)) (ends'.running n less)
    · exact same
    · exact absurd ((together (along n')).mpr (ends'.reached ▸ ends'.ended)) (ends.running n' less)
  subst same
  exact ends.reached ▸ ends'.reached ▸ along n

end Loops

end JavaMinus
