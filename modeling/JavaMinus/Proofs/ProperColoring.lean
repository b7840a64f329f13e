import Mathlib
import JavaMinus.Registers.Coloring

/-!
# Colourings of graphs are proper

The colouring that `colorGraph` finds gives every node a colour, neighbours get
different ones, and all of them are below the number of colours that is returned
(`colorGraph_colors`).

The greedy colouring keeps two facts (`GreedyInv`): neighbours that have a colour
have different ones, and a node without colour has seen the colours of all its
neighbours. The search only ever takes a colour that no neighbour has, so every
colouring that it extends stays proper (`extend_colors`).
-/

namespace JavaMinus.Registers

open List

variable {col : Coloring} {n : Node}

/-! ## Graphs and colourings -/

/-- Two nodes are neighbours. -/
def Adjacent (g : Neighbours) (v u : Nat) : Prop := u ∈ g.getD v []

/-- A graph without loops whose edges go both ways. -/
structure Simple (g : Neighbours) : Prop where
  symm : ∀ {v u}, Adjacent g v u → Adjacent g u v
  irrefl : ∀ v, ¬ Adjacent g v v

theorem Adjacent.lt {g : Neighbours} {v u : Nat} (adjacent : Adjacent g v u) : v < g.size := by
  by_contra outside
  simp [Adjacent, Array.getD_eq_getD_getElem?, Array.getElem?_eq_none (Nat.not_lt.mp outside)]
    at adjacent

/-- Neighbours that have a colour have different ones. -/
def Proper (g : Neighbours) (col : Coloring) : Prop :=
  ∀ v u c, Adjacent g v u → col.getD v none = some c → col.getD u none ≠ some c

/-- A node without colour may take one that no neighbour has. -/
theorem proper_update {g : Neighbours} (simple : Simple g) {color color' : Nat → Option Nat}
    {v c : Nat} (proper : ∀ a b d, Adjacent g a b → color a = some d → color b ≠ some d)
    (free : ∀ u, Adjacent g v u → color u ≠ some c)
    (updated : ∀ u, color' u = if u = v then some c else color u) :
    ∀ a b d, Adjacent g a b → color' a = some d → color' b ≠ some d := by
  intro a b d adjacent first second
  rw [updated] at first second
  by_cases atFirst : a = v
  · subst atFirst
    have other : b ≠ a := fun same => simple.irrefl a (same ▸ adjacent)
    rw [if_pos rfl] at first
    rw [if_neg other] at second
    cases first
    exact free b adjacent second
  · rw [if_neg atFirst] at first
    by_cases atSecond : b = v
    · subst atSecond
      rw [if_pos rfl] at second
      cases second
      exact free a (simple.symm adjacent) first
    · rw [if_neg atSecond] at second
      exact proper a b d adjacent first second

/-- A proper colouring of all nodes with `n` colours. -/
structure Colors (g : Neighbours) (col : Coloring) (n : Nat) : Prop where
  proper : Proper g col
  total : ∀ v < g.size, ∃ c < n, col.getD v none = some c

/-! ## The search -/

/-- A proper colouring of some nodes with `k` colours. -/
structure PartlyColors (g : Neighbours) (col : Coloring) (k : Nat) : Prop where
  size : col.size = g.size
  proper : Proper g col
  below : ∀ v c, col.getD v none = some c → c < k

section Search

variable {g : Neighbours} {k : Nat}

theorem getD_put {v : Nat} (inside : v < col.size) (c u : Nat) :
    (col.setIfInBounds v (some c)).getD u none = if u = v then some c else col.getD u none := by
  by_cases same : u = v
  · subst same
    simp [Array.getD_eq_getD_getElem?, inside]
  · simp [Array.getD_eq_getD_getElem?, Array.getElem?_setIfInBounds_ne (Ne.symm same), same]

theorem isFree_iff {v c : Nat} :
    isFree g col v c = true ↔ ∀ u, Adjacent g v u → col.getD u none ≠ some c := by
  simp [isFree, Adjacent]

theorem PartlyColors.put (simple : Simple g) (partly : PartlyColors g col k) {v c : Nat}
    (inside : v < g.size) (free : isFree g col v c = true) (below : c < k) :
    PartlyColors g (col.setIfInBounds v (some c)) k := by
  have found := getD_put (partly.size ▸ inside) c
  rw [isFree_iff] at free
  refine ⟨by simpa using partly.size, proper_update simple partly.proper free found,
    fun u d colored => ?_⟩
  rw [found] at colored
  split at colored
  · cases colored
    exact below
  · exact partly.below u d colored

theorem exists_of_firstSuccess {α : Type} {attempt : Nat → Nat → Option α × Nat} {r : α}
    {choices : List Nat} {steps : Nat} (found : (firstSuccess attempt choices steps).1 = some r) :
    ∃ c ∈ choices, ∃ left, (attempt c left).1 = some r := by
  induction choices generalizing steps with
  | nil => cases found
  | cons c rest ih =>
    rw [firstSuccess] at found
    split at found
    case h_1 r' left tried =>
      cases found
      exact ⟨c, mem_cons_self, steps, by rw [tried]⟩
    case h_2 left tried =>
      obtain ⟨d, member, left', success⟩ := ih found
      exact ⟨d, mem_cons_of_mem _ member, left', success⟩

/-- What the search finds is proper, and gives a colour to every node that it was
asked for. -/
theorem extend_colors (simple : Simple g) {order : List Nat} (inside : ∀ v ∈ order, v < g.size)
    {used steps : Nat} {result : Coloring} (partly : PartlyColors g col k)
    (found : (extend g k order used col steps).1 = some result) :
    PartlyColors g result k ∧
      ∀ v, v ∈ order ∨ (col.getD v none).isSome → (result.getD v none).isSome := by
  induction order generalizing used steps col with
  | nil =>
    cases found
    exact ⟨partly, fun v h => h.resolve_left (by simp)⟩
  | cons v rest ih =>
    cases steps with
    | zero => cases found
    | succ steps =>
      obtain ⟨c, member, left, success⟩ := exists_of_firstSuccess found
      obtain ⟨choice, free⟩ := mem_filter.mp member
      have below : c < k := lt_of_lt_of_le (mem_range.mp choice) (Nat.min_le_left _ _)
      have here := inside v mem_cons_self
      obtain ⟨partly', covers⟩ := ih (fun u h => inside u (mem_cons_of_mem _ h))
        (partly.put simple here free below) success
      refine ⟨partly', fun u h => covers u ?_⟩
      rw [getD_put (partly.size ▸ here)]
      rcases h with listed | colored
      · rcases mem_cons.mp listed with rfl | later
        · exact .inr (by simp)
        · exact .inl later
      · refine .inr ?_
        split
        · rfl
        · exact colored

theorem search_colors (simple : Simple g) {order : List Nat} (inside : ∀ v ∈ order, v < g.size)
    (covers : ∀ v < g.size, v ∈ order) {result : Coloring}
    (found : search g order k = some result) : Colors g result k := by
  have blank : ∀ v, (Array.replicate g.size (none : Option Nat)).getD v none = none := by
    intro v
    simp only [Array.getD_eq_getD_getElem?, Array.getElem?_replicate]
    split <;> rfl
  have start : PartlyColors g (Array.replicate g.size none) k :=
    ⟨by simp, fun v u c _ colored => by simp [blank] at colored,
      fun v c colored => by simp [blank] at colored⟩
  obtain ⟨partly, total⟩ := extend_colors simple inside start found
  refine ⟨partly.proper, fun v h => ?_⟩
  obtain ⟨c, colored⟩ := Option.isSome_iff_exists.mp (total v (.inl (covers v h)))
  exact ⟨c, partly.below v c colored, colored⟩

/-- Every improvement is a colouring with the number of colours that it is said to
have. -/
theorem tighten_colors {attempt : Nat → Option Coloring}
    (sound : ∀ n col, attempt n = some col → Colors g col n) {n : Nat} (colors : Colors g col n) :
    Colors g (tighten attempt n col).1 (tighten attempt n col).2 := by
  fun_induction tighten attempt n col with
  | case1 => exact colors
  | case2 => exact colors
  | case3 col k better found ih => exact ih (sound _ _ found)
  | case4 => exact colors

end Search

/-! ## The greedy colouring -/

/-- The colour of a node in the course of the greedy colouring. -/
def colorAt (nodes : Array Node) (i : Nat) : Option Nat := nodes[i]?.bind (·.color)

/-- The colours that a node has seen. -/
def seenAt (nodes : Array Node) (i : Nat) : List Nat := (nodes[i]?.map (·.seen)).getD []

theorem pickFrom_some {best : Option (Nat × Node)} {rest : List (Node × Nat)} {v : Nat}
    (picked : pickFrom best rest = some (v, n)) :
    best = some (v, n) ∨ ((n, v) ∈ rest ∧ n.color = none) := by
  fun_induction pickFrom best rest with
  | case1 => exact .inl picked
  | case2 best node i rest c colored ih =>
    rcases ih picked with first | ⟨later, blank⟩
    · exact .inl first
    · exact .inr ⟨mem_cons_of_mem _ later, blank⟩
  | case3 node i rest blank ih | case4 node i rest j b blank better ih =>
    rcases ih picked with first | ⟨later, blank'⟩
    · cases first
      exact .inr ⟨mem_cons_self, blank⟩
    · exact .inr ⟨mem_cons_of_mem _ later, blank'⟩
  | case5 node i rest j b blank worse ih =>
    rcases ih picked with first | ⟨later, blank'⟩
    · exact .inl first
    · exact .inr ⟨mem_cons_of_mem _ later, blank'⟩

theorem pickFrom_none {best : Option (Nat × Node)} {rest : List (Node × Nat)}
    (picked : pickFrom best rest = none) :
    best = none ∧ ∀ n i, (n, i) ∈ rest → n.color ≠ none := by
  fun_induction pickFrom best rest with
  | case1 => exact ⟨picked, by simp⟩
  | case2 best node i rest c colored ih =>
    obtain ⟨none, others⟩ := ih picked
    refine ⟨none, fun n j member => ?_⟩
    rcases mem_cons.mp member with same | later
    · cases same
      simp [colored]
    · exact others n j later
  | case3 node i rest blank ih | case4 node i rest j b blank better ih => cases (ih picked).1
  | case5 node i rest j b blank worse ih => cases (ih picked).1

theorem pick_some {nodes : Array Node} {v : Nat} (picked : pick nodes = some (v, n)) :
    nodes[v]? = some n ∧ n.color = none := by
  rcases pickFrom_some picked with none | ⟨member, blank⟩
  · cases none
  · exact ⟨by simpa [mk_mem_zipIdx_iff_getElem?] using member, blank⟩

theorem pick_none {nodes : Array Node} (picked : pick nodes = none) {v : Nat}
    (inside : v < nodes.size) : colorAt nodes v ≠ none := by
  have here : nodes[v]? = some nodes[v] := Array.getElem?_eq_getElem inside
  have colored := (pickFrom_none picked).2 nodes[v] v
    (by simp [mk_mem_zipIdx_iff_getElem?, here])
  simpa [colorAt, here] using colored

theorem leastFree_not_mem (seen : List Nat) : leastFree seen ∉ seen := by
  unfold leastFree
  cases found : (List.range seen.length).find? fun c => c ∉ seen with
  | some c => simpa using List.find?_some found
  | none =>
    intro member
    rw [Option.getD_none] at member
    -- Otherwise the list would hold one number more than it has places.
    have all : Finset.range (seen.length + 1) ⊆ seen.toFinset := by
      intro c below
      rw [mem_toFinset]
      rcases Nat.lt_succ_iff_lt_or_eq.mp (Finset.mem_range.mp below) with less | rfl
      · simpa using List.find?_eq_none.mp found c (mem_range.mpr less)
      · exact member
    have count := (Finset.card_le_card all).trans seen.toFinset_card_le
    rw [Finset.card_range] at count
    omega

section Paint

variable {g : Neighbours} {nodes : Array Node} {v c : Nat}

theorem Node.observe_observe (n : Node) : (n.observe c).observe c = n.observe c := by
  simp only [Node.observe]
  split
  · simp
  · simp_all

theorem getElem?_observe_all (us : List Nat) (nodes : Array Node) (i : Nat) :
    (us.foldl (fun ns u => ns.modify u (Node.observe c)) nodes)[i]? =
      if i ∈ us then nodes[i]?.map (Node.observe c) else nodes[i]? := by
  induction us generalizing nodes with
  | nil => simp
  | cons u rest ih =>
    rw [foldl_cons, ih, Array.getElem?_modify]
    by_cases here : u = i
    · subst here
      cases nodes[u]? <;> simp [Node.observe_observe]
    · simp [here, Ne.symm here]

theorem getElem?_paint (i : Nat) : (paint g nodes v c)[i]? = nodes[i]?.map fun n =>
      let n := if i = v then { n with color := some c } else n
      if i ∈ g.getD v [] then n.observe c else n := by
  rw [paint, getElem?_observe_all, Array.getElem?_modify]
  by_cases here : v = i
  · subst here
    cases nodes[v]? <;> split <;> simp_all
  · cases nodes[i]? <;> split <;> simp_all [Ne.symm here]

theorem size_paint : (paint g nodes v c).size = nodes.size := by
  have general : ∀ (us : List Nat) (nodes : Array Node),
      (us.foldl (fun ns u => ns.modify u (Node.observe c)) nodes).size = nodes.size := by
    intro us
    induction us with
    | nil => exact fun _ => rfl
    | cons u rest ih =>
      intro nodes
      rw [foldl_cons, ih, Array.size_modify]
  rw [paint, general, Array.size_modify]

theorem Node.color_observe (n : Node) : (n.observe c).color = n.color := by
  unfold Node.observe
  split <;> rfl

theorem colorAt_paint (inside : v < nodes.size) (i : Nat) :
    colorAt (paint g nodes v c) i = if i = v then some c else colorAt nodes i := by
  rw [colorAt, getElem?_paint]
  by_cases here : i = v
  · subst here
    simp only [Array.getElem?_eq_getElem inside, if_true]
    split <;> simp [Node.color_observe]
  · simp only [here, if_false, colorAt]
    cases nodes[i]? with
    | none => rfl
    | some n => split <;> simp [Node.color_observe]

theorem mem_seenAt_paint {i d : Nat} (member : d ∈ seenAt nodes i) :
    d ∈ seenAt (paint g nodes v c) i := by
  rw [seenAt, getElem?_paint]
  cases here : nodes[i]? with
  | none => simp [seenAt, here] at member
  | some n =>
    simp only [seenAt, here, Option.map_some, Option.getD_some] at member ⊢
    split <;> split <;> grind [Node.observe]

theorem mem_seenAt_paint_of_adjacent {i : Nat} (adjacent : i ∈ g.getD v []) (other : i ≠ v)
    (inside : i < nodes.size) (blank : colorAt nodes i = none) :
    c ∈ seenAt (paint g nodes v c) i := by
  rw [seenAt, getElem?_paint]
  simp only [colorAt, Array.getElem?_eq_getElem inside, Option.bind_some] at blank
  simp only [Array.getElem?_eq_getElem inside, adjacent, other, if_true, if_false,
    Option.map_some, Option.getD_some, Node.observe, blank]
  split <;> grind

end Paint

/-- What holds in the course of the greedy colouring. -/
structure GreedyInv (g : Neighbours) (nodes : Array Node) : Prop where
  size : nodes.size = g.size
  proper : ∀ v u c, Adjacent g v u → colorAt nodes v = some c → colorAt nodes u ≠ some c
  seen : ∀ v u c, Adjacent g v u → colorAt nodes v = none → colorAt nodes u = some c →
    c ∈ seenAt nodes v

section Greedy

variable {g : Neighbours} {nodes : Array Node}

theorem GreedyInv.paint (simple : Simple g) (inv : GreedyInv g nodes) {v : Nat}
    (here : nodes[v]? = some n) (blank : n.color = none) :
    GreedyInv g (paint g nodes v (leastFree n.seen)) := by
  have inside : v < nodes.size := (Array.getElem?_eq_some_iff.mp here).1
  have color := colorAt_paint (g := g) (c := leastFree n.seen) inside
  have uncolored : colorAt nodes v = none := by simp [colorAt, here, blank]
  -- No neighbour of the node has the colour that it takes.
  have fresh : ∀ u, Adjacent g v u → colorAt nodes u ≠ some (leastFree n.seen) := by
    intro u adjacent colored
    have member := inv.seen v u _ adjacent uncolored colored
    rw [seenAt, here] at member
    exact leastFree_not_mem n.seen member
  refine ⟨size_paint.trans inv.size, proper_update simple inv.proper fresh color,
    fun a b c adjacent first second => ?_⟩
  rw [color] at first second
  have other : a ≠ v := by
    rintro rfl
    rw [if_pos rfl] at first
    cases first
  rw [if_neg other] at first
  by_cases atSecond : b = v
  · subst atSecond
    rw [if_pos rfl] at second
    cases second
    have inRange : a < nodes.size := inv.size ▸ adjacent.lt
    exact mem_seenAt_paint_of_adjacent (simple.symm adjacent) other inRange first
  · rw [if_neg atSecond] at second
    exact mem_seenAt_paint (inv.seen a b c adjacent first second)

/-- The nodes that have no colour yet. -/
def uncolored (nodes : Array Node) : Finset Nat :=
  (Finset.range nodes.size).filter fun i => colorAt nodes i = none

theorem uncolored_paint {v c : Nat} (inside : v < nodes.size) :
    uncolored (paint g nodes v c) = (uncolored nodes).erase v := by
  ext i
  simp only [uncolored, size_paint, Finset.mem_filter, Finset.mem_range, Finset.mem_erase,
    colorAt_paint inside]
  by_cases same : i = v <;> simp [same]

theorem greedySteps_inv (simple : Simple g) (steps : Nat) (inv : GreedyInv g nodes)
    (enough : (uncolored nodes).card ≤ steps) :
    GreedyInv g (greedySteps g steps nodes) ∧
      ∀ v < g.size, colorAt (greedySteps g steps nodes) v ≠ none := by
  induction steps generalizing nodes with
  | zero =>
    refine ⟨inv, fun v inside blank => ?_⟩
    have none := Finset.card_eq_zero.mp (Nat.le_zero.mp enough)
    have member : v ∈ uncolored nodes :=
      Finset.mem_filter.mpr ⟨Finset.mem_range.mpr (inv.size ▸ inside), blank⟩
    rw [none] at member
    exact Finset.notMem_empty v member
  | succ steps ih =>
    rw [greedySteps]
    split
    case h_1 picked => exact ⟨inv, fun v inside => pick_none picked (inv.size ▸ inside)⟩
    case h_2 v n picked =>
      obtain ⟨here, blank⟩ := pick_some picked
      have inside : v < nodes.size := (Array.getElem?_eq_some_iff.mp here).1
      have member : v ∈ uncolored nodes :=
        Finset.mem_filter.mpr ⟨Finset.mem_range.mpr inside, by simp [colorAt, here, blank]⟩
      refine ih (inv.paint simple here blank) ?_
      rw [uncolored_paint inside, Finset.card_erase_of_mem member]
      omega

theorem getD_map_color (nodes : Array Node) (v : Nat) :
    (nodes.map (·.color)).getD v none = colorAt nodes v := by
  rw [Array.getD_eq_getD_getElem?, Array.getElem?_map, colorAt]
  cases nodes[v]? <;> rfl

theorem mem_toList_iff_getD {c : Nat} : some c ∈ col.toList ↔ ∃ v, col.getD v none = some c := by
  simp only [Array.mem_toList_iff, Array.mem_iff_getElem?, Array.getD_eq_getD_getElem?]
  refine exists_congr fun v => ?_
  cases col[v]? <;> simp

/-- The number of colours is above exactly the colours that are used and what is below them. -/
theorem lt_colorCount_iff {c : Nat} :
    c < colorCount col ↔ ∃ d, c ≤ d ∧ ∃ v, col.getD v none = some d := by
  have general : ∀ (cs : List (Option Nat)) (n : Nat),
      c < cs.foldl (fun n c => c.elim n fun c => max n (c + 1)) n ↔
        c < n ∨ ∃ d, c ≤ d ∧ some d ∈ cs := by
    intro cs
    induction cs with
    | nil => simp
    | cons d rest ih =>
      intro n
      cases d with
      | none => simp [ih]
      | some d => simp [ih, and_or_left, exists_or, or_assoc]
  have counted : colorCount col = col.toList.foldl (fun n c => c.elim n fun c => max n (c + 1)) 0 := by
    rw [colorCount, ← Array.foldl_toList]
    congr 1
    funext n c
    cases c <;> rfl
  rw [counted, general]
  simp only [mem_toList_iff_getD, Nat.not_lt_zero, false_or]

theorem lt_colorCount {v c : Nat} (colored : col.getD v none = some c) : c < colorCount col :=
  lt_colorCount_iff.mpr ⟨c, le_rfl, v, colored⟩

/-- The nodes before the first one is coloured. -/
def blankNodes (g : Neighbours) : Array Node := g.map fun ns => { degree := ns.length }

theorem colorAt_blankNodes (v : Nat) : colorAt (blankNodes g) v = none := by
  rw [colorAt, blankNodes, Array.getElem?_map]
  cases g[v]? <;> rfl

theorem greedySteps_start (simple : Simple g) : GreedyInv g (greedySteps g g.size (blankNodes g)) ∧
    ∀ v < g.size, colorAt (greedySteps g g.size (blankNodes g)) v ≠ none := by
  refine greedySteps_inv simple g.size ⟨by simp [blankNodes], fun v u c _ colored => ?_,
    fun v u c _ _ colored => ?_⟩ ?_
  · simp [colorAt_blankNodes] at colored
  · simp [colorAt_blankNodes] at colored
  · refine (Finset.card_filter_le _ _).trans ?_
    simp [blankNodes]

theorem greedy_colors (simple : Simple g) : Colors g (greedy g) (colorCount (greedy g)) := by
  obtain ⟨inv, total⟩ := greedySteps_start simple
  refine ⟨fun v u c adjacent first => ?_, fun v inside => ?_⟩
  · rw [greedy, getD_map_color] at first ⊢
    exact inv.proper v u c adjacent first
  · obtain ⟨c, colored⟩ := Option.ne_none_iff_exists'.mp (total v inside)
    have found : (greedy g).getD v none = some c := (getD_map_color _ v).trans colored
    exact ⟨c, lt_colorCount found, found⟩

theorem size_greedy (simple : Simple g) : (greedy g).size = g.size := by
  rw [greedy, Array.size_map]
  exact (greedySteps_start simple).1.size

end Greedy

/-! ## The whole colouring -/

theorem mem_byColor {v c : Nat} (colored : col.getD v none = some c) : v ∈ byColor col := by
  have inside : v < col.size := by
    by_contra outside
    simp [Array.getD_eq_getD_getElem?, Array.getElem?_eq_none (Nat.not_lt.mp outside)] at colored
  refine mem_flatMap.mpr ⟨c, mem_range.mpr (lt_colorCount colored), ?_⟩
  exact mem_filter.mpr ⟨mem_range.mpr inside, by simpa using colored⟩

theorem lt_of_mem_byColor {v : Nat} (member : v ∈ byColor col) : v < col.size := by
  obtain ⟨c, _, listed⟩ := mem_flatMap.mp member
  exact mem_range.mp (mem_filter.mp listed).1

/-- **Colourings are proper.** Every node gets a colour below the number that is
returned, and neighbours get different ones. -/
theorem colorGraph_colors {g : Neighbours} (simple : Simple g) :
    Colors g (colorGraph g).1 (colorGraph g).2 := by
  have first := greedy_colors simple
  refine tighten_colors (fun k col found => ?_) first
  refine search_colors simple (fun v member => ?_) (fun v inside => ?_) found
  · exact size_greedy simple ▸ lt_of_mem_byColor member
  · obtain ⟨c, _, colored⟩ := first.total v inside
    exact mem_byColor colored

end JavaMinus.Registers
