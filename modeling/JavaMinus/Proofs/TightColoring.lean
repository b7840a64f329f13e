import JavaMinus.Proofs.BoundedLoops
import JavaMinus.Proofs.ProperColoring

/-!
# The greedy colouring wastes no colour

A node takes the least colour that its neighbours leave free, so whoever has a colour has
neighbours with all smaller ones (`greedy_below`). No colour is skipped, and none is greater than
the number of neighbours of the node that has it (`le_degree_of_color`). What a node has seen is
at all times what its neighbours show (`Tight`).

The nodes can be listed by colour, one colour in each round, until all of them are listed
(`byColor_ends`). The list has each node once (`byColor_perm`), in the order of the colours
(`pairwise_byColor`).
-/

namespace JavaMinus.Registers

open List

variable {g : Neighbours} {nodes : Array Node} {n : Node} {v c : Nat} {col : Coloring}

/-! ## No colour is skipped -/

theorem mem_of_lt_leastFree {seen : List Nat} (below : c < leastFree seen) : c ∈ seen := by
  unfold leastFree at below
  cases found : (List.range seen.length).find? fun c => c ∉ seen with
  | none =>
    rw [found, Option.getD_none] at below
    simpa using List.find?_eq_none.mp found c (mem_range.mpr below)
  | some d =>
    rw [found, Option.getD_some] at below
    obtain ⟨_, i, bound, rfl, earlier⟩ := List.find?_eq_some_iff_getElem.mp found
    rw [getElem_range] at below
    simpa using earlier c below

theorem mem_seenAt_of_paint {i d : Nat} (member : d ∈ seenAt (paint g nodes v c) i) :
    d ∈ seenAt nodes i ∨ d = c ∧ Adjacent g v i := by
  rw [seenAt, getElem?_paint] at member
  cases here : nodes[i]? with
  | none => simp [here] at member
  | some n =>
    simp only [here, Option.map_some, Option.getD_some] at member
    simp only [seenAt, here, Option.map_some, Option.getD_some, Adjacent]
    split at member <;> split at member <;> grind [Node.observe]

/-- A neighbour has a colour. -/
def Shows (g : Neighbours) (nodes : Array Node) (v c : Nat) : Prop :=
  ∃ u, Adjacent g v u ∧ colorAt nodes u = some c

/-- What a node has seen is shown by its neighbours, and a node takes a colour only if its
neighbours show all smaller ones. -/
structure Tight (g : Neighbours) (nodes : Array Node) : Prop where
  seen : ∀ v c, c ∈ seenAt nodes v → Shows g nodes v c
  below : ∀ v c, colorAt nodes v = some c → ∀ d < c, Shows g nodes v d

theorem Tight.paint (simple : Simple g) (tight : Tight g nodes) (here : nodes[v]? = some n)
    (blank : n.color = none) : Tight g (paint g nodes v (leastFree n.seen)) := by
  have inside : v < nodes.size := (Array.getElem?_eq_some_iff.mp here).1
  have color := colorAt_paint (g := g) (c := leastFree n.seen) inside
  have uncolored : colorAt nodes v = none := by simp [colorAt, here, blank]
  have kept : ∀ {a d}, Shows g nodes a d → Shows g (Registers.paint g nodes v (leastFree n.seen)) a d := by
    rintro a d ⟨u, adjacent, colored⟩
    refine ⟨u, adjacent, ?_⟩
    rw [color, if_neg, colored]
    rintro rfl
    rw [uncolored] at colored
    cases colored
  refine ⟨fun a d member => ?_, fun a d colored e less => kept ?_⟩
  · rcases mem_seenAt_of_paint member with old | ⟨rfl, adjacent⟩
    · exact kept (tight.seen a d old)
    · exact ⟨v, simple.symm adjacent, by rw [color, if_pos rfl]⟩
  · rw [color] at colored
    split at colored
    · next same =>
      subst same
      cases colored
      exact tight.seen a e (by simpa [seenAt, here] using mem_of_lt_leastFree less)
    · exact tight.below a d colored e less

theorem tight_greedySteps (simple : Simple g) (steps : Nat) (tight : Tight g nodes) :
    Tight g (greedySteps g steps nodes) := by
  induction steps generalizing nodes with
  | zero => exact tight
  | succ steps ih =>
    rw [greedySteps]
    split
    case h_1 => exact tight
    case h_2 v n picked =>
      obtain ⟨here, blank⟩ := pick_some picked
      exact ih (tight.paint simple here blank)

theorem tight_blankNodes : Tight g (blankNodes g) := by
  refine ⟨fun v c member => ?_, fun v c colored => ?_⟩
  · rw [seenAt, blankNodes, Array.getElem?_map] at member
    cases here : g[v]? <;> simp [here] at member
  · rw [colorAt_blankNodes] at colored
    cases colored

/-- Whoever has a colour of the greedy colouring has neighbours with all smaller ones. -/
theorem greedy_below (simple : Simple g) (colored : (greedy g).getD v none = some c) {d : Nat}
    (less : d < c) : ∃ u, Adjacent g v u ∧ (greedy g).getD u none = some d := by
  simp only [greedy, getD_map_color] at colored ⊢
  exact (tight_greedySteps simple g.size tight_blankNodes).below v c colored d less

theorem le_degree_of_color (simple : Simple g) (colored : (greedy g).getD v none = some c) :
    c ≤ (g.getD v []).length := by
  have shown : Finset.range c ⊆ ((g.getD v []).filterMap fun u => (greedy g).getD u none).toFinset := by
    intro d less
    obtain ⟨u, adjacent, colored'⟩ := greedy_below simple colored (Finset.mem_range.mp less)
    exact mem_toFinset.mpr (mem_filterMap.mpr ⟨u, adjacent, colored'⟩)
  calc c = (Finset.range c).card := (Finset.card_range c).symm
    _ ≤ _ := Finset.card_le_card shown
    _ ≤ _ := toFinset_card_le _
    _ ≤ (g.getD v []).length := length_filterMap_le _ _

/-! ## Nodes by colour -/

/-- A node comes before another by colour, and by number among those of one colour. -/
def Precedes (col : Coloring) (v u : Nat) : Prop :=
  ∃ c d, col.getD v none = some c ∧ col.getD u none = some d ∧ (c < d ∨ c = d ∧ v < u)

/-- The nodes of one colour in increasing order. -/
def ofColor (col : Coloring) (c : Nat) : List Nat :=
  (List.range col.size).filter fun v => col.getD v none = some c

theorem color_of_mem_ofColor (member : v ∈ ofColor col c) : col.getD v none = some c :=
  of_decide_eq_true (mem_filter.mp member).2

theorem pairwise_byColor : (byColor col).Pairwise (Precedes col) := by
  refine pairwise_flatMap.mpr ⟨fun c _ => ?_, ?_⟩
  · refine (pairwise_lt_range.filter _).imp_of_mem fun first second less => ?_
    exact ⟨c, c, color_of_mem_ofColor first, color_of_mem_ofColor second, .inr ⟨rfl, less⟩⟩
  · refine pairwise_lt_range.imp fun less v first u second => ?_
    exact ⟨_, _, color_of_mem_ofColor first, color_of_mem_ofColor second, .inl less⟩

theorem nodup_byColor : (byColor col).Nodup := by
  refine pairwise_byColor.imp ?_
  rintro v _ ⟨c, d, first, second, less⟩ rfl
  rw [first] at second
  cases second
  omega

theorem byColor_perm (total : ∀ v < col.size, ∃ c, col.getD v none = some c) :
    byColor col ~ List.range col.size := by
  refine (perm_ext_iff_of_nodup nodup_byColor nodup_range).mpr fun v => ?_
  rw [mem_range]
  refine ⟨lt_of_mem_byColor, fun inside => ?_⟩
  obtain ⟨c, colored⟩ := total v inside
  exact mem_byColor colored

/-- One round of listing nodes by colour: those of the next colour are added. -/
def nextColor (col : Coloring) (s : Nat × List Nat) : Nat × List Nat :=
  (s.1 + 1, s.2 ++ ofColor col s.1)

theorem iterate_nextColor (k : Nat) :
    (nextColor col)^[k] (0, []) = (k, (List.range k).flatMap (ofColor col)) := by
  induction k with
  | zero => rfl
  | succ k ih => rw [Function.iterate_succ_apply', ih, nextColor, range_succ, flatMap_append]; simp

theorem byColor_ends (total : ∀ v < col.size, ∃ c, col.getD v none = some c)
    (used : ∀ c < colorCount col, ∃ v, col.getD v none = some c) :
    LoopEnds (nextColor col) (fun s => col.size ≤ s.2.length) (0, []) (colorCount col)
      (colorCount col, byColor col) := by
  have full : (byColor col).length = col.size := by simpa using (byColor_perm total).length_eq
  refine ⟨iterate_nextColor _, full.ge, fun k less => ?_⟩
  -- The nodes of colour `k` are still missing.
  obtain ⟨v, colored⟩ := used k less
  have listed : v ∈ ofColor col k :=
    mem_filter.mpr ⟨mem_range.mpr (lt_of_mem_byColor (mem_byColor colored)), by simpa using colored⟩
  have more := (((range_sublist.mpr less).flatMap (ofColor col)).length_le).trans_eq full
  rw [range_succ, flatMap_append, length_append, flatMap_singleton] at more
  have some := length_pos_of_mem listed
  simp only [iterate_nextColor]
  omega

end JavaMinus.Registers
