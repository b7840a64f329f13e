import JavaMinus.Proofs.ProperColoring

/-!
# The search misses no colouring

The search for fewer colours is given up after a number of steps. Here it is compared with one that
goes on for as long as it takes (`explore`), which also counts its steps. A search with enough
steps finds what that one finds, and one with too few finds nothing (`extend_eq_spend`).

**Nothing is missed.** A node is only given colours that earlier nodes have, and one new one. That
is enough, since the names of colours do not matter: in a colouring that gives the node some other
new colour, that colour and the one that is tried can be exchanged (`Completes.swap`).

**Main result** (`colorGraph_least`): unless the last attempt was given up, no proper colouring has
fewer colours than the one that is found.
-/

namespace JavaMinus.Registers

/-! ## A search without limit -/

/-- Try choices in order until one succeeds, and add up the steps. -/
def firstFound {α : Type} (attempt : Nat → Option α × Nat) : List Nat → Option α × Nat
  | [] => (none, 0)
  | c :: rest =>
    match (attempt c).1 with
    | some r => (some r, (attempt c).2)
    | none => ((firstFound attempt rest).1, (attempt c).2 + (firstFound attempt rest).2)

/-- Extend a colouring that uses the first `used` colours to the listed nodes, with `k` colours, as
`extend` does. The result is a colouring, if there is one, and the number of steps taken. -/
def explore (g : Neighbours) (k : Nat) : List Nat → Nat → Coloring → Option Coloring × Nat
  | [], _, col => (some col, 0)
  | v :: rest, used, col =>
    let tried := firstFound (fun c =>
        explore g k rest (if c = used then used + 1 else used) (col.setIfInBounds v (some c)))
      ((List.range (min k (used + 1))).filter (isFree g col v))
    (tried.1, tried.2 + 1)

/-- The search with a colour for the next node. -/
def exploreWith (g : Neighbours) (k v : Nat) (rest : List Nat) (used : Nat) (col : Coloring)
    (c : Nat) : Option Coloring × Nat :=
  explore g k rest (if c = used then used + 1 else used) (col.setIfInBounds v (some c))

/-- The colours that are tried for a node. -/
def choices (g : Neighbours) (k v used : Nat) (col : Coloring) : List Nat :=
  (List.range (min k (used + 1))).filter (isFree g col v)

theorem explore_cons (g : Neighbours) (k v : Nat) (rest : List Nat) (used : Nat) (col : Coloring) :
    explore g k (v :: rest) used col =
      ((firstFound (exploreWith g k v rest used col) (choices g k v used col)).1,
        (firstFound (exploreWith g k v rest used col) (choices g k v used col)).2 + 1) := rfl

/-- The outcome of a search that takes a number of steps, when there are only so many. -/
def spend {α : Type} (outcome : Option α × Nat) (steps : Nat) : Option α × Nat :=
  if outcome.2 ≤ steps then (outcome.1, steps - outcome.2) else (none, 0)

section Limits

variable {α : Type} {attempt : Nat → Nat → Option α × Nat} {tried : Nat → Option α × Nat}

theorem firstSuccess_zero (each : ∀ c steps, attempt c steps = spend (tried c) steps)
    (paid : ∀ c, 0 < (tried c).2) (choices : List Nat) :
    firstSuccess attempt choices 0 = (none, 0) := by
  induction choices with
  | nil => rfl
  | cons c rest ih =>
    rw [firstSuccess, each, spend, if_neg (Nat.not_le.mpr (paid c))]
    exact ih

/-- Trying choices with a limit is trying them without one, if steps are short for either all of
them or none. -/
theorem firstSuccess_eq_spend (each : ∀ c steps, attempt c steps = spend (tried c) steps)
    (paid : ∀ c c', 0 < (tried c).2 → 0 < (tried c').2) (choices : List Nat) (steps : Nat) :
    firstSuccess attempt choices steps = spend (firstFound tried choices) steps := by
  induction choices generalizing steps with
  | nil => simp [firstSuccess, firstFound, spend]
  | cons c rest ih =>
    rw [firstSuccess, firstFound, each, spend]
    by_cases enough : (tried c).2 ≤ steps
    · rw [if_pos enough]
      cases found : (tried c).1 with
      | some r => simp [spend, enough]
      | none =>
        simp only [ih, spend]
        by_cases more : (firstFound tried rest).2 ≤ steps - (tried c).2
        · rw [if_pos more, if_pos (by omega)]
          congr 1
          omega
        · rw [if_neg more, if_neg (by omega)]
    · rw [if_neg enough]
      simp only
      rw [firstSuccess_zero each fun c' => paid c c' (by omega)]
      cases found : (tried c).1 with
      | some r => simp [spend, enough]
      | none =>
        simp only [spend]
        rw [if_neg (by omega)]

/-- **The limit** cuts off a search that takes more steps, and is not noticed by any other. -/
theorem extend_eq_spend (g : Neighbours) (k : Nat) (order : List Nat) (used : Nat) (col : Coloring)
    (steps : Nat) :
    extend g k order used col steps = spend (explore g k order used col) steps := by
  induction order generalizing used col steps with
  | nil => simp [extend, explore, spend]
  | cons v rest ih =>
    -- Colouring the other nodes takes a step exactly if there is another node.
    have paid : ∀ c c', 0 < (exploreWith g k v rest used col c).2 →
        0 < (exploreWith g k v rest used col c').2 := by
      intro c c' positive
      cases rest with
      | nil => exact absurd positive (Nat.lt_irrefl 0)
      | cons u rest => exact Nat.succ_pos _
    have each : ∀ c left, extend g k rest (if c = used then used + 1 else used)
        (col.setIfInBounds v (some c)) left = spend (exploreWith g k v rest used col c) left :=
      fun c left => ih _ _ left
    rw [explore_cons]
    cases steps with
    | zero => simp [extend, spend]
    | succ steps =>
      rw [extend, firstSuccess_eq_spend each paid]
      simp only [spend, choices, Nat.add_le_add_iff_right, Nat.add_sub_add_right]

end Limits

/-! ## Completeness -/

/-- The graph has a proper colouring with `k` colours. -/
def Colorable (g : Neighbours) (k : Nat) : Prop :=
  ∃ f : Nat → Nat, (∀ v < g.size, f v < k) ∧ ∀ v u, Adjacent g v u → f v ≠ f u

section Complete

variable {g : Neighbours} {k : Nat}

theorem isSome_firstFound {α : Type} {tried : Nat → Option α × Nat} {choices : List Nat} {c : Nat}
    (member : c ∈ choices) (success : (tried c).1.isSome = true) :
    (firstFound tried choices).1.isSome = true := by
  induction choices with
  | nil => cases member
  | cons d rest ih =>
    rw [firstFound]
    cases found : (tried d).1 with
    | some r => rfl
    | none =>
      rcases List.mem_cons.mp member with rfl | later
      · rw [found] at success
        cases success
      · exact ih later

/-- A proper colouring `f` that gives the listed nodes some of `k` colours, and other nodes the
colours that they have in `col`: some of the first `used` ones. -/
structure Completes (g : Neighbours) (k : Nat) (order : List Nat) (used : Nat) (col : Coloring)
    (f : Nat → Nat) : Prop where
  size : col.size = g.size
  inside : ∀ v ∈ order, v < g.size
  old : ∀ v c, col.getD v none = some c → c < used
  below : ∀ v ∈ order, f v < k
  proper : ∀ v u, Adjacent g v u → f v ≠ f u
  agrees : ∀ v c, col.getD v none = some c → f v = c

namespace Completes

variable {v used : Nat} {rest : List Nat} {col : Coloring} {f : Nat → Nat}

theorem mem_choices (completes : Completes g k (v :: rest) used col f) (next : f v ≤ used) :
    f v ∈ choices g k v used col := by
  refine List.mem_filter.mpr ⟨?_, ?_⟩
  · exact List.mem_range.mpr
      (Nat.lt_min.mpr ⟨completes.below v List.mem_cons_self, Nat.lt_succ_of_le next⟩)
  · rw [isFree_iff]
    intro u adjacent colored
    exact completes.proper v u adjacent (completes.agrees u _ colored).symm

theorem put (completes : Completes g k (v :: rest) used col f) (next : f v ≤ used) :
    Completes g k rest (if f v = used then used + 1 else used) (col.setIfInBounds v (some (f v)))
      f := by
  have colors := getD_put (completes.size ▸ completes.inside v List.mem_cons_self) (f v)
  refine ⟨by simpa using completes.size,
    fun u member => completes.inside u (List.mem_cons_of_mem v member), fun u c colored => ?_,
    fun u member => completes.below u (List.mem_cons_of_mem v member), completes.proper,
    fun u c colored => ?_⟩
  · rw [colors] at colored
    split at colored
    · cases colored
      split <;> omega
    · have := completes.old u c colored
      split <;> omega
  · rw [colors] at colored
    split at colored
    case isTrue same =>
      cases colored
      rw [same]
    case isFalse => exact completes.agrees u c colored

theorem swap (completes : Completes g k (v :: rest) used col f) (fresh : used < f v) :
    Completes g k (v :: rest) used col fun u => Equiv.swap (f v) used (f u) where
  size := completes.size
  inside := completes.inside
  old := completes.old
  below u member := by
    have bound := completes.below v List.mem_cons_self
    have := completes.below u member
    rw [Equiv.swap_apply_def]
    split
    · omega
    · split <;> omega
  proper u w adjacent same := completes.proper u w adjacent ((Equiv.swap (f v) used).injective same)
  agrees u c colored := by
    have first := completes.agrees u c colored
    have second := completes.old u c colored
    rw [first, Equiv.swap_apply_of_ne_of_ne (by omega) (by omega)]

end Completes

/-- **No colouring is missed.** If a proper colouring with `k` colours completes one that uses the
first `used` colours only, then the search finds one that does. -/
theorem explore_isSome {order : List Nat} {used : Nat} {col : Coloring} {f : Nat → Nat}
    (completes : Completes g k order used col f) : (explore g k order used col).1.isSome = true := by
  induction order generalizing used col f with
  | nil => rfl
  | cons v rest ih =>
    rw [explore_cons]
    rcases Nat.lt_or_ge used (f v) with fresh | next
    · -- The colour of the node is new, and so is the one that is tried: exchange them.
      have next : Equiv.swap (f v) used (f v) ≤ used := (Equiv.swap_apply_left _ _).le
      exact isSome_firstFound ((completes.swap fresh).mem_choices next)
        (ih ((completes.swap fresh).put next))
    · exact isSome_firstFound (completes.mem_choices next) (ih (completes.put next))

theorem Colorable.mono {k' : Nat} (colorable : Colorable g k) (more : k ≤ k') : Colorable g k' := by
  obtain ⟨f, below, proper⟩ := colorable
  exact ⟨f, fun v inside => (below v inside).trans_le more, proper⟩

end Complete

/-! ## The least number of colours -/

/-- The steps that an attempt with `k` colours takes if it is not given up. -/
def stepsNeeded (g : Neighbours) (order : List Nat) (k : Nat) : Nat :=
  (explore g k order 0 (Array.replicate g.size none)).2

/-- The last attempt, with one colour less than were found, ran out of steps. With one colour there
is none. -/
def GaveUp (g : Neighbours) : Prop :=
  2 ≤ (colorGraph g).2 ∧ searchBudget < stepsNeeded g (byColor (greedy g)) ((colorGraph g).2 - 1)

section Least

variable {g : Neighbours}

theorem not_colorable_of_search {order : List Nat} {k : Nat} (inside : ∀ v ∈ order, v < g.size)
    (failed : search g order k = none) (enough : stepsNeeded g order k ≤ searchBudget) :
    ¬ Colorable g k := by
  rintro ⟨f, below, proper⟩
  have blank : ∀ v c, (Array.replicate g.size (none : Option Nat)).getD v none ≠ some c := by
    intro v c
    simp only [Array.getD_eq_getD_getElem?, Array.getElem?_replicate]
    split <;> simp
  have completes : Completes g k order 0 (Array.replicate g.size none) f :=
    ⟨by simp, inside, fun v c colored => absurd colored (blank v c),
      fun v member => below v (inside v member), proper,
      fun v c colored => absurd colored (blank v c)⟩
  have found := explore_isSome completes
  unfold stepsNeeded at enough
  rw [search, extend_eq_spend, spend, if_pos enough] at failed
  rw [failed] at found
  cases found

theorem tighten_last (attempt : Nat → Option Coloring) (n : Nat) (col : Coloring) :
    (tighten attempt n col).2 ≤ n ∧
      (2 ≤ (tighten attempt n col).2 → attempt ((tighten attempt n col).2 - 1) = none) := by
  fun_induction tighten attempt n col with
  | case1 => exact ⟨Nat.le_refl _, fun two => absurd two (Nat.not_succ_le_zero 1)⟩
  | case2 => exact ⟨Nat.le_refl _, fun two => absurd two (Nat.not_succ_le_self 1)⟩
  | case3 col k better found ih => exact ⟨ih.1.trans (Nat.le_succ _), ih.2⟩
  | case4 col k failed => exact ⟨Nat.le_refl _, fun _ => failed⟩

theorem colorGraph_le_greedy (g : Neighbours) : (colorGraph g).2 ≤ colorCount (greedy g) :=
  (tighten_last _ _ _).1

/-- **No colouring has fewer colours**, unless the last attempt to find one was given up. -/
theorem colorGraph_least (simple : Simple g) (finished : ¬ GaveUp g) {k : Nat}
    (colorable : Colorable g k) : (colorGraph g).2 ≤ k := by
  by_contra fewer
  rcases Nat.lt_or_ge (colorGraph g).2 2 with one | two
  · -- There is one colour, so there is a node, and no colour is too few.
    obtain rfl : k = 0 := by omega
    obtain ⟨f, below, _⟩ := colorable
    have empty : g.size = 0 := by
      by_contra nodes
      exact absurd (below 0 (Nat.pos_of_ne_zero nodes)) (Nat.not_lt_zero _)
    have blank : greedy g = #[] := Array.eq_empty_of_size_eq_zero ((size_greedy simple).trans empty)
    have none : colorCount (greedy g) = 0 := by rw [blank]; rfl
    have := colorGraph_le_greedy g
    omega
  · have enough : stepsNeeded g (byColor (greedy g)) ((colorGraph g).2 - 1) ≤ searchBudget :=
      Nat.not_lt.mp fun exceeded => finished ⟨two, exceeded⟩
    have failed : search g (byColor (greedy g)) ((colorGraph g).2 - 1) = none :=
      (tighten_last _ _ _).2 two
    refine not_colorable_of_search (fun v member => ?_) failed enough (colorable.mono (by omega))
    exact size_greedy simple ▸ lt_of_mem_byColor member

end Least

end JavaMinus.Registers
