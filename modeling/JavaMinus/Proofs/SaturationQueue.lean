import JavaMinus.Proofs.InterferenceGraph
import JavaMinus.Proofs.TightColoring

/-!
# The greedy colouring with a queue

The node to colour next can be found with a queue (`Heap`) instead of looking through all nodes.
An entry of the queue says how many colours a node had seen when the entry was made. When a node
sees another colour it gets a new entry and the old one stays, so an entry that is taken may be
out of date, and then nothing is coloured (`Queued.step`).

**The queue finds the greedy colouring** (`queue_ends`). Every node without colour has an entry
that tells the truth about it (`QueueInv.current`), so the first entry that is not out of date is
that of the node to colour next (`QueueInv.pick_eq`), and the queue is empty only when all nodes
have their colour. This holds for any queue that gives up a first entry and keeps the others,
however it arranges them. Colouring a node makes at most one new entry for each of its neighbours,
so the queue runs empty (`Queued.room`).

`greedy_saturates` puts together what holds of the colouring of a graph that is given by rows.
-/

namespace JavaMinus.Registers

open List

variable {g : Neighbours} {nodes : Array Node} {n : Node} {v c : Nat}

/-! ## A queue of nodes -/

/-- An entry of the queue: a node with its number of neighbours, and with the number of
colours that it had seen when the entry was made. -/
structure Entry where
  node : Nat
  sat : Nat
  degree : Nat
  deriving DecidableEq, Repr, Inhabited

/-- An entry is taken before another. -/
def Entry.Before (a b : Entry) : Prop :=
  b.sat < a.sat ∨ a.sat = b.sat ∧ (b.degree < a.degree ∨ a.degree = b.degree ∧ a.node < b.node)

instance (a b : Entry) : Decidable (a.Before b) := inferInstanceAs (Decidable (_ ∨ _))

/-- A queue, in whatever arrangement. What `pop` gives begins with the entry that is taken,
and goes on with those that stay: no other comes before the one that is taken, and none is
lost. -/
structure Heap where
  push : Entry → List Entry → List Entry
  pop : List Entry → List Entry
  push_perm : ∀ e q, push e q ~ e :: q
  pop_perm : ∀ q, pop q ~ q
  pop_first : ∀ q e rest, pop q = e :: rest → ∀ x ∈ rest, ¬ x.Before e

theorem Heap.taken (h : Heap) {q : List Entry} {e : Entry} {rest : List Entry}
    (popped : h.pop q = e :: rest) : q ~ e :: rest := popped ▸ (h.pop_perm q).symm

/-- Push entries one after another. -/
def Heap.pushAll (h : Heap) (es q : List Entry) : List Entry := es.foldl (fun q e => h.push e q) q

theorem Heap.pushAll_perm (h : Heap) (es q : List Entry) : h.pushAll es q ~ es ++ q := by
  induction es generalizing q with
  | nil => exact .refl q
  | cons e es ih =>
    calc h.pushAll (e :: es) q ~ es ++ h.push e q := ih (h.push e q)
      _ ~ es ++ e :: q := (h.push_perm e q).append_left es
      _ ~ e :: es ++ q := perm_middle

/-- The entry that tells the truth about a node. -/
def Node.entry (n : Node) (v : Nat) : Entry := ⟨v, n.seen.length, n.degree⟩

/-- The node of an entry, if it has no colour yet and has seen nothing since. -/
def Entry.current? (e : Entry) (nodes : Array Node) : Option Node :=
  nodes[e.node]?.filter fun n => n.color.isNone && e.sat == n.seen.length

/-- The entries of the neighbours that see a colour for the first time. -/
def news (g : Neighbours) (nodes : Array Node) (v c : Nat) : List Entry :=
  (g.getD v []).filterMap fun u =>
    (nodes[u]?.filter fun n => n.color.isNone && c ∉ n.seen).map fun n => (n.observe c).entry u

/-- Nodes in the course of the greedy colouring, with a queue. -/
structure Queued where
  nodes : Array Node
  queue : List Entry

/-- Every node has an entry, and none has a colour. -/
def Queued.start (h : Heap) (g : Neighbours) : Queued where
  nodes := blankNodes g
  queue := h.pushAll ((blankNodes g).toList.zipIdx.map fun x => x.1.entry x.2) []

/-- Take an entry. If it is out of date nothing else happens. Otherwise its node is
coloured, and neighbours that see the colour for the first time get new entries. -/
def Queued.step (h : Heap) (g : Neighbours) (s : Queued) : Queued :=
  match h.pop s.queue with
  | [] => s
  | e :: rest =>
    match e.current? s.nodes with
    | none => { s with queue := rest }
    | some n =>
      ⟨paint g s.nodes e.node (leastFree n.seen),
        h.pushAll (news g s.nodes e.node (leastFree n.seen)) rest⟩

theorem Entry.Before.trans {a b c : Entry} (first : a.Before b) (second : b.Before c) :
    a.Before c := by
  unfold Entry.Before at *
  omega

theorem Entry.before_of_not {a b : Entry} (behind : ¬ a.Before b) (other : a.node ≠ b.node) :
    b.Before a := by
  unfold Entry.Before at *
  omega

theorem Node.precedes_iff {a b : Node} {i j : Nat} (later : j < i) :
    a.precedes b = true ↔ (a.entry i).Before (b.entry j) := by
  simp only [Node.precedes, Entry.Before, Node.entry, Bool.or_eq_true, Bool.and_eq_true,
    decide_eq_true_eq]
  omega

/-- The node that is picked from a list comes before all others in it. -/
theorem pickFrom_first {best : Option (Nat × Node)} {rest : List (Node × Nat)}
    (picked : pickFrom best rest = some (v, n)) (sorted : rest.Pairwise (·.2 < ·.2))
    (later : ∀ j b, best = some (j, b) → ∀ x ∈ rest, j < x.2) :
    (∀ j b, best = some (j, b) → ¬ (b.entry j).Before (n.entry v)) ∧
      ∀ x ∈ rest, x.1.color = none → ¬ (x.1.entry x.2).Before (n.entry v) := by
  fun_induction pickFrom best rest with
  | case1 =>
    cases picked
    refine ⟨fun j b same => ?_, by simp⟩
    cases same
    simp [Entry.Before]
  | case2 best node i rest c colored ih =>
    obtain ⟨first, others⟩ := ih picked sorted.tail fun j b same x member =>
      later j b same x (mem_cons_of_mem _ member)
    refine ⟨first, forall_mem_cons.mpr ⟨fun blank => ?_, others⟩⟩
    rw [colored] at blank
    cases blank
  | case3 node i rest blank ih =>
    obtain ⟨first, others⟩ := ih picked sorted.tail fun j b same => by
      cases same
      exact (pairwise_cons.mp sorted).1
    exact ⟨fun _ _ same => (by cases same), forall_mem_cons.mpr ⟨fun _ => first i node rfl, others⟩⟩
  | case4 node i rest j b blank better ih =>
    obtain ⟨first, others⟩ := ih picked sorted.tail fun j b same => by
      cases same
      exact (pairwise_cons.mp sorted).1
    refine ⟨fun j' b' same before => ?_, forall_mem_cons.mpr ⟨fun _ => first i node rfl, others⟩⟩
    cases same
    have ahead := (Node.precedes_iff (later j b rfl _ mem_cons_self)).mp better
    exact first i node rfl (ahead.trans before)
  | case5 node i rest j b blank worse ih =>
    obtain ⟨first, others⟩ := ih picked sorted.tail fun j' b' same x member =>
      later j' b' same x (mem_cons_of_mem _ member)
    refine ⟨first, forall_mem_cons.mpr ⟨fun _ before => first j b rfl ?_, others⟩⟩
    have order := later j b rfl _ mem_cons_self
    rw [Node.precedes_iff order] at worse
    exact (Entry.before_of_not worse order.ne').trans before

theorem pick_first (picked : pick nodes = some (v, n)) {u : Nat} {m : Node}
    (here : nodes[u]? = some m) (blank : m.color = none) : ¬ (m.entry u).Before (n.entry v) := by
  have sorted : nodes.toList.zipIdx.Pairwise (·.2 < ·.2) := by
    rw [← pairwise_map (f := Prod.snd) (R := (· < ·)), zipIdx_map_snd]
    exact pairwise_lt_range'
  refine (pickFrom_first picked sorted fun _ _ same => (by cases same)).2 (m, u) ?_ blank
  simpa [mk_mem_zipIdx_iff_getElem?] using here

/-- What holds while entries are taken: an entry names a node and its degree, every node
without colour has an entry that tells the truth, and taking the best node again and again
leads where it would have led from the start. -/
structure QueueInv (g : Neighbours) (s : Queued) : Prop where
  entries : ∀ e ∈ s.queue, ∃ n, s.nodes[e.node]? = some n ∧ e.degree = n.degree
  current : ∀ (u : Nat) (n : Node), s.nodes[u]? = some n → n.color = none → n.entry u ∈ s.queue
  same : greedySteps g (uncolored s.nodes).card s.nodes = greedySteps g g.size (blankNodes g)

theorem Entry.current?_eq_some {e : Entry} :
    e.current? nodes = some n ↔
      nodes[e.node]? = some n ∧ n.color = none ∧ e.sat = n.seen.length := by
  rw [Entry.current?, Option.filter_eq_some_iff]
  simp

section Queue

variable {h : Heap} {s : Queued} {e : Entry} {rest : List Entry}

theorem mem_uncolored (here : nodes[v]? = some n) (blank : n.color = none) :
    v ∈ uncolored nodes := by
  have inside := (Array.getElem?_eq_some_iff.mp here).1
  exact Finset.mem_filter.mpr ⟨Finset.mem_range.mpr inside, by simp [colorAt, here, blank]⟩

/-- An entry that is not out of date is that of the node to colour next. -/
theorem QueueInv.pick_eq (inv : QueueInv g s) (popped : h.pop s.queue = e :: rest)
    (found : e.current? s.nodes = some n) : pick s.nodes = some (e.node, n) := by
  obtain ⟨here, blank, sat⟩ := Entry.current?_eq_some.mp found
  have inside := (Array.getElem?_eq_some_iff.mp here).1
  cases picked : pick s.nodes with
  | none => exact absurd (by simp [colorAt, here, blank]) (pick_none picked inside)
  | some best =>
    obtain ⟨v, m⟩ := best
    obtain ⟨there, blank'⟩ := pick_some picked
    have taken := h.taken popped
    obtain ⟨n', here', degree⟩ := inv.entries e (taken.mem_iff.mpr mem_cons_self)
    obtain rfl : n = n' := Option.some.inj (here.symm.trans here')
    have entry : n.entry e.node = e := by rw [Node.entry, ← sat, ← degree]
    have first := pick_first picked here blank
    have waiting := taken.mem_iff.mp (inv.current v m there blank')
    by_cases same : v = e.node
    · subst same
      rw [Option.some.inj (here.symm.trans there)]
    · rw [entry] at first
      rcases mem_cons.mp waiting with rfl | waiting
      · exact absurd rfl same
      · exact absurd (Entry.before_of_not first (Ne.symm same)) (h.pop_first _ _ _ popped _ waiting)

theorem mem_news {u : Nat} {m : Node} (adjacent : Adjacent g v u) (there : nodes[u]? = some m)
    (blank : m.color = none) (fresh : c ∉ m.seen) : (m.observe c).entry u ∈ news g nodes v c :=
  mem_filterMap.mpr ⟨u, adjacent, by simp [there, blank, fresh]⟩

theorem degree_getElem?_paint {u : Nat} {m : Node} (there : nodes[u]? = some m) :
    ∃ m', (paint g nodes v c)[u]? = some m' ∧ m'.degree = m.degree := by
  rw [getElem?_paint, there]
  refine ⟨_, rfl, ?_⟩
  simp only [Node.observe]
  split <;> split <;> (try split) <;> rfl

/-- A node that is left without colour is as it was, or a neighbour that sees the colour
for the first time. -/
theorem getElem?_paint_uncolored {u : Nat} {m : Node} (there : (paint g nodes v c)[u]? = some m)
    (blank : m.color = none) (inside : v < nodes.size) :
    u ≠ v ∧ (nodes[u]? = some m ∨ m.entry u ∈ news g nodes v c) := by
  have other : u ≠ v := by
    rintro rfl
    have colored := colorAt_paint (g := g) (c := c) inside u
    simp [colorAt, there, blank] at colored
  rw [getElem?_paint] at there
  obtain ⟨m₀, before, rfl⟩ := Option.map_eq_some_iff.mp there
  simp only [other, if_false] at blank ⊢
  refine ⟨other, ?_⟩
  split
  · next adjacent =>
    rw [if_pos adjacent, Node.color_observe] at blank
    by_cases fresh : c ∉ m₀.seen
    · exact .inr (mem_news adjacent before blank fresh)
    · left
      rw [Node.observe, if_neg fun h => fresh h.2, before]
  · exact .inl before

/-- The invariant is kept by a step that colours a node. -/
theorem QueueInv.paint (inv : QueueInv g s) (popped : h.pop s.queue = e :: rest)
    (found : e.current? s.nodes = some n) :
    QueueInv g ⟨paint g s.nodes e.node (leastFree n.seen),
      h.pushAll (news g s.nodes e.node (leastFree n.seen)) rest⟩ := by
  obtain ⟨here, blank, -⟩ := Entry.current?_eq_some.mp found
  have inside := (Array.getElem?_eq_some_iff.mp here).1
  have taken := h.taken popped
  have queued := h.pushAll_perm (news g s.nodes e.node (leastFree n.seen)) rest
  refine ⟨fun x member => ?_, fun u m there uncolored => ?_, ?_⟩
  · rcases mem_append.mp (queued.mem_iff.mp member) with new | old
    · obtain ⟨u, adjacent, entry⟩ := mem_filterMap.mp new
      obtain ⟨m, kept, rfl⟩ := Option.map_eq_some_iff.mp entry
      obtain ⟨m', there, degree⟩ := degree_getElem?_paint (g := g) (v := e.node) (c := leastFree n.seen)
        (Option.filter_eq_some_iff.mp kept).1
      refine ⟨m', there, ?_⟩
      rw [degree]
      simp only [Node.entry, Node.observe]
      split <;> rfl
    · obtain ⟨m, there, degree⟩ := inv.entries x (taken.mem_iff.mpr (mem_cons_of_mem _ old))
      obtain ⟨m', there', degree'⟩ := degree_getElem?_paint (g := g) (v := e.node) (c := leastFree n.seen) there
      exact ⟨m', there', degree.trans degree'.symm⟩
  · obtain ⟨other, old | new⟩ := getElem?_paint_uncolored there uncolored inside
    · refine queued.mem_iff.mpr (mem_append_right _ ?_)
      rcases mem_cons.mp (taken.mem_iff.mp (inv.current u m old uncolored)) with same | waiting
      · exact absurd (congrArg Entry.node same) other
      · exact waiting
    · exact queued.mem_iff.mpr (mem_append_left _ new)
  · have picked := inv.pick_eq popped found
    have member := mem_uncolored here blank
    obtain ⟨k, card⟩ := Nat.exists_eq_succ_of_ne_zero (Finset.card_ne_zero_of_mem member)
    rw [uncolored_paint inside, Finset.card_erase_of_mem member, ← inv.same, card]
    simp [greedySteps, picked]

theorem QueueInv.skip (inv : QueueInv g s) (popped : h.pop s.queue = e :: rest)
    (stale : e.current? s.nodes = none) : QueueInv g { s with queue := rest } := by
  have taken := h.taken popped
  refine ⟨fun x member => inv.entries x (taken.mem_iff.mpr (mem_cons_of_mem _ member)),
    fun u m there blank => ?_, inv.same⟩
  rcases mem_cons.mp (taken.mem_iff.mp (inv.current u m there blank)) with rfl | waiting
  · have found : (m.entry u).current? s.nodes = some m :=
      Entry.current?_eq_some.mpr ⟨there, blank, rfl⟩
    rw [found] at stale
    cases stale
  · exact waiting

/-- How many entries can still be taken: those of the queue, and for each node that has no
colour yet as many as all nodes have neighbours. -/
def Queued.room (g : Neighbours) (s : Queued) : Nat :=
  (uncolored s.nodes).card * ((g.toList.map length).sum + 1) + s.queue.length

theorem length_news_le (g : Neighbours) (nodes : Array Node) (v c : Nat) :
    (news g nodes v c).length ≤ (g.toList.map length).sum := by
  refine (length_filterMap_le _ _).trans ?_
  rw [Array.getD_eq_getD_getElem?]
  cases here : g[v]? with
  | none => exact Nat.zero_le _
  | some us => exact le_sum_of_mem (mem_map_of_mem (Array.mem_toList_iff.mpr (Array.mem_of_getElem? here)))

/-- **One step** keeps the invariant and uses up room. -/
theorem QueueInv.step (inv : QueueInv g s) (goes : s.queue ≠ []) :
    QueueInv g (s.step h g) ∧ (s.step h g).room g < s.room g := by
  rw [Queued.step]
  split
  · next empty => exact absurd (empty ▸ h.pop_perm s.queue).symm.eq_nil goes
  · next e rest popped =>
    have length := (h.taken popped).length_eq
    rw [length_cons] at length
    split
    · next stale =>
      refine ⟨inv.skip popped stale, ?_⟩
      simp only [Queued.room]
      omega
    · next n found =>
      refine ⟨inv.paint popped found, ?_⟩
      obtain ⟨here, blank, -⟩ := Entry.current?_eq_some.mp found
      have inside := (Array.getElem?_eq_some_iff.mp here).1
      have member := mem_uncolored here blank
      obtain ⟨k, card⟩ := Nat.exists_eq_succ_of_ne_zero (Finset.card_ne_zero_of_mem member)
      have pushed := (h.pushAll_perm (news g s.nodes e.node (leastFree n.seen)) rest).length_eq
      rw [length_append] at pushed
      have few := length_news_le g s.nodes e.node (leastFree n.seen)
      simp only [Queued.room, uncolored_paint inside, Finset.card_erase_of_mem member, card,
        Nat.succ_sub_one, Nat.succ_mul]
      omega

theorem QueueInv.start (h : Heap) (g : Neighbours) : QueueInv g (.start h g) := by
  have queued := h.pushAll_perm ((blankNodes g).toList.zipIdx.map fun x => x.1.entry x.2) []
  rw [append_nil] at queued
  refine ⟨fun e member => ?_, fun u n there _ => ?_, ?_⟩
  · obtain ⟨⟨n, v⟩, listed, rfl⟩ := mem_map.mp (queued.mem_iff.mp member)
    rw [mk_mem_zipIdx_iff_getElem?, Array.getElem?_toList] at listed
    exact ⟨n, listed, rfl⟩
  · refine queued.mem_iff.mpr (mem_map.mpr ⟨(n, u), ?_, rfl⟩)
    rwa [mk_mem_zipIdx_iff_getElem?, Array.getElem?_toList]
  · have all : uncolored (blankNodes g) = Finset.range g.size :=
      (Finset.filter_true_of_mem fun v _ => colorAt_blankNodes v).trans (by simp [blankNodes])
    rw [Queued.start, all, Finset.card_range]

/-- **The queue finds the greedy colouring**, whatever the arrangement of its entries. -/
theorem queue_ends (g : Neighbours) (h : Heap) :
    ∃ rounds last, LoopEnds (Queued.step h g) (fun s => s.queue = []) (.start h g) rounds last ∧
      last.nodes.map (·.color) = greedy g := by
  obtain ⟨rounds, -, last, ends, inv⟩ := exists_loopEnds (QueueInv g) (Queued.room g)
    (fun s inv goes => inv.step goes) (QueueInv.start h g)
  refine ⟨rounds, last, ends, ?_⟩
  have done : uncolored last.nodes = ∅ := by
    refine Finset.filter_eq_empty_iff.mpr fun v inside blank => ?_
    have here := Array.getElem?_eq_getElem (Finset.mem_range.mp inside)
    have waiting := inv.current v _ here (by simpa [colorAt, here] using blank)
    rw [ends.ended] at waiting
    cases waiting
  have reached := inv.same
  rw [done, Finset.card_empty] at reached
  rw [show last.nodes = _ from reached]
  rfl

end Queue

/-- The queue that sorts its entries whenever one is taken. -/
def Heap.sorting : Heap where
  push e q := e :: q
  pop q := q.mergeSort fun a b => decide (¬ b.Before a)
  push_perm _ _ := .refl _
  pop_perm q := mergeSort_perm q _
  pop_first q e rest popped x member := by
    have sorted : (q.mergeSort fun a b => decide (¬ b.Before a)).Pairwise fun a b =>
        decide (¬ b.Before a) = true := by
      refine pairwise_mergeSort (fun a b c => ?_) (fun a b => ?_) q
      all_goals
        simp only [decide_eq_true_eq, Bool.or_eq_true]
        unfold Entry.Before
        omega
    rw [popped] at sorted
    simpa using (pairwise_cons.mp sorted).1 x member

/-! ## Graphs that are given by rows -/

/-- **The greedy colouring** of a graph without loops whose edges go both ways. With any queue it
is found after finitely many steps. All nodes have a colour, and neighbours have different ones.
The colours that are used are those below `colorCount`, at most one more than a node has
neighbours. The nodes are listed by colour after as many rounds as there are colours, each of them
once, those of one colour in increasing order. -/
theorem greedy_saturates (rows : Array BitSet) (symm : ∀ a b, inRow rows a b → inRow rows b a)
    (irrefl : ∀ a, ¬ inRow rows a a) :
    let g := rows.map BitSet.toList
    let col := greedy g
    (∀ h : Heap, ∃ rounds last,
      LoopEnds (Queued.step h g) (fun s => s.queue = []) (.start h g) rounds last ∧
        last.nodes.map (·.color) = col) ∧
    col.size = rows.size ∧
    (∀ v u, inRow rows v u → col.getD v none ≠ col.getD u none) ∧
    (∀ v < rows.size, ∃ c < colorCount col, col.getD v none = some c) ∧
    (∀ c < colorCount col, ∃ v < rows.size, col.getD v none = some c) ∧
    (∀ d, (∀ v < rows.size, (rows.getD v .empty).size ≤ d) → colorCount col ≤ d + 1) ∧
    LoopEnds (nextColor col) (fun s => col.size ≤ s.2.length) (0, []) (colorCount col)
      (colorCount col, byColor col) ∧
    byColor col ~ List.range rows.size ∧ (byColor col).Pairwise (Precedes col) := by
  intro g col
  have simple : Simple g :=
    ⟨fun adjacent => adjacent_rows.mpr (symm _ _ (adjacent_rows.mp adjacent)),
      fun v adjacent => irrefl v (adjacent_rows.mp adjacent)⟩
  have size : col.size = rows.size := (size_greedy simple).trans (Array.size_map ..)
  have colors := greedy_colors simple
  have total : ∀ v < rows.size, ∃ c < colorCount col, col.getD v none = some c := fun v inside =>
    colors.total v (by simpa [g] using inside)
  have total' : ∀ v < col.size, ∃ c, col.getD v none = some c := fun v inside =>
    (total v (size ▸ inside)).imp fun _ colored => colored.2
  have used : ∀ c < colorCount col, ∃ v, col.getD v none = some c := by
    intro c less
    obtain ⟨d, most, v, colored⟩ := lt_colorCount_iff.mp less
    rcases most.eq_or_lt with rfl | below
    · exact ⟨v, colored⟩
    · exact (greedy_below simple colored below).imp fun _ shown => shown.2
  have listed : ∀ {v c}, col.getD v none = some c → v < rows.size := fun colored =>
    size ▸ lt_of_mem_byColor (mem_byColor colored)
  refine ⟨queue_ends g, size, fun v u joined same => ?_, total, fun c less => ?_, fun d most => ?_,
    byColor_ends total' used, size ▸ byColor_perm total', pairwise_byColor⟩
  · have adjacent : Adjacent g v u := adjacent_rows.mpr joined
    obtain ⟨c, _, colored⟩ := colors.total v adjacent.lt
    exact colors.proper v u c adjacent colored (same ▸ colored)
  · obtain ⟨v, colored⟩ := used c less
    exact ⟨v, listed colored, colored⟩
  · by_contra more
    obtain ⟨v, colored⟩ := used (d + 1) (by omega)
    have degree := (le_degree_of_color simple colored).trans_eq (congrArg length getD_rows)
    have bounded := most v (listed colored)
    rw [BitSet.size] at bounded
    omega

/-- A triangle with a tail. -/
def tailedTriangle : Array BitSet := #[⟨[6], true⟩, ⟨[5], true⟩, ⟨[11], true⟩, ⟨[4], true⟩]

theorem greedy_saturates_tailedTriangle :
    ((∀ a b, inRow tailedTriangle a b → inRow tailedTriangle b a) ∧
      ∀ a, ¬ inRow tailedTriangle a a) ∧
    byColor (greedy (tailedTriangle.map BitSet.toList)) ~ [0, 1, 2, 3] ∧
    ∃ rounds last, LoopEnds (Queued.step .sorting (tailedTriangle.map BitSet.toList))
      (fun s => s.queue = []) (.start .sorting (tailedTriangle.map BitSet.toList)) rounds last := by
  have small : ∀ {a b}, inRow tailedTriangle a b → a < 4 := fun joined =>
    (adjacent_rows.mpr joined).lt.trans_eq (by simp [tailedTriangle])
  have symm : ∀ a b, inRow tailedTriangle a b → inRow tailedTriangle b a := by
    intro a b joined
    have finite : ∀ a < 4, ∀ b ∈ (tailedTriangle.getD a .empty).toList, inRow tailedTriangle b a := by
      unfold inRow
      decide
    exact finite a (small joined) b (BitSet.mem_toList.mpr joined)
  have irrefl : ∀ a, ¬ inRow tailedTriangle a a := by
    intro a joined
    have finite : ∀ a < 4, (tailedTriangle.getD a .empty).contains a = false := by decide
    rw [inRow, finite a (small joined)] at joined
    cases joined
  obtain ⟨queue, -, -, -, -, -, -, order, -⟩ := greedy_saturates tailedTriangle symm irrefl
  exact ⟨⟨symm, irrefl⟩, order, (queue .sorting).imp fun _ ends => ends.imp fun _ both => both.1⟩

end JavaMinus.Registers
