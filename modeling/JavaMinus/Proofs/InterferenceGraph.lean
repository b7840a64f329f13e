import JavaMinus.Proofs.LivenessEquations
import JavaMinus.Proofs.ProperColoring
import JavaMinus.Registers.Placement

/-!
# Which registers interfere

The graph of interference is simple (`simple_neighbours`), and it has the edges
that it should have: a register that is written and another one that is live after
the write are neighbours, unless the write copies the other one
(`adjacent_of_write`), and so are any two registers that are live at entry
(`adjacent_at_entry`). It has no other edges (`adjacent_iff_interferes`).
-/

namespace JavaMinus.Registers

open Code List

variable {e : Option Nat × Option Nat} {n n' : String} {inst : Inst} {i : Nat} {d : Reg}

/-! ## Adding edges -/

/-- The edge joins two different nodes, in one order or the other. -/
def Joins (e : Option Nat × Option Nat) (a b : Nat) : Prop :=
  a ≠ b ∧ (e = (some a, some b) ∨ e = (some b, some a))

theorem Joins.symm {a b : Nat} (joins : Joins e a b) : Joins e b a := ⟨joins.1.symm, joins.2.symm⟩

/-- A node has another one in its row. -/
def inRow (rows : Array BitSet) (a b : Nat) : Prop := (rows.getD a .empty).contains b = true

section Rows

variable {rows : Array BitSet} {a b : Nat}

theorem getD_rows : (rows.map BitSet.toList).getD a [] = (rows.getD a .empty).toList := by
  simp only [Array.getD_eq_getD_getElem?, Array.getElem?_map]
  cases rows[a]? <;> rfl

theorem adjacent_rows : Adjacent (rows.map BitSet.toList) a b ↔ inRow rows a b := by
  rw [Adjacent, getD_rows, BitSet.mem_toList, inRow]

@[simp] theorem size_addEdge (e : Option Nat × Option Nat) : (addEdge rows e).size = rows.size := by
  rcases e with ⟨_ | i, _ | j⟩ <;> try rfl
  simp only [addEdge]
  split <;> simp

theorem getD_modify (f : BitSet → BitSet) (i : Nat) (inside : a < rows.size) :
    (rows.modify i f).getD a .empty =
      if i = a then f (rows.getD a .empty) else rows.getD a .empty := by
  rw [Array.getD_eq_getD_getElem?, Array.getElem?_modify, Array.getD_eq_getD_getElem?,
    Array.getElem?_eq_getElem inside]
  split <;> rfl

theorem inRow_addEdge (inside : a < rows.size) (e : Option Nat × Option Nat) :
    inRow (addEdge rows e) a b ↔ inRow rows a b ∨ Joins e a b := by
  rcases e with ⟨_ | i, _ | j⟩
  · simp [addEdge, Joins]
  · simp [addEdge, Joins]
  · simp [addEdge, Joins]
  · by_cases same : i = j
    · subst same
      simp only [addEdge, if_true, Joins, Prod.mk.injEq, Option.some.injEq]
      constructor
      · exact .inl
      · rintro (old | ⟨differ, ⟨rfl, rfl⟩ | ⟨rfl, rfl⟩⟩)
        · exact old
        · exact absurd rfl differ
        · exact absurd rfl differ
    · have inside' : a < (rows.modify i (·.insert j)).size := by simpa using inside
      simp only [addEdge, same, if_false, inRow, getD_modify _ _ inside', getD_modify _ _ inside,
        Joins, Prod.mk.injEq, Option.some.injEq]
      by_cases first : i = a <;> by_cases second : j = a <;>
        simp [first, second, BitSet.contains_insert] <;> grind

theorem inRow_addEdges (edges : List (Option Nat × Option Nat)) (inside : a < rows.size) :
    inRow (edges.foldl addEdge rows) a b ↔ inRow rows a b ∨ ∃ e ∈ edges, Joins e a b := by
  induction edges generalizing rows with
  | nil => simp
  | cons e rest ih =>
    have inside' : a < (addEdge rows e).size := by simpa using inside
    rw [foldl_cons, ih inside', inRow_addEdge inside]
    simp only [mem_cons, exists_eq_or_imp, or_assoc]

theorem size_addEdges (edges : List (Option Nat × Option Nat)) :
    (edges.foldl addEdge rows).size = rows.size := by
  induction edges generalizing rows with
  | nil => rfl
  | cons e rest ih => rw [foldl_cons, ih, size_addEdge]

end Rows

/-! ## Pairs -/

section

variable {α β : Type}

theorem pairs_map (f : α → β) (xs : List α) : pairs (xs.map f) = (pairs xs).map (Prod.map f f) := by
  induction xs with
  | nil => rfl
  | cons x rest ih => simp [pairs, ih, Function.comp_def]

theorem mem_pairs_of_ne {xs : List α} {x y : α} (first : x ∈ xs) (second : y ∈ xs) (ne : x ≠ y) :
    (x, y) ∈ pairs xs ∨ (y, x) ∈ pairs xs := by
  induction xs with
  | nil => cases first
  | cons z rest ih =>
    simp only [pairs, mem_append, mem_map, Prod.mk.injEq]
    rcases mem_cons.mp first with rfl | later
    · rcases mem_cons.mp second with rfl | later'
      · exact absurd rfl ne
      · exact .inl (.inl ⟨y, later', rfl, rfl⟩)
    · rcases mem_cons.mp second with rfl | later'
      · exact .inr (.inl ⟨x, later, rfl, rfl⟩)
      · rcases ih later later' with here | here
        · exact .inl (.inr here)
        · exact .inr (.inr here)

theorem mem_of_mem_pairs {xs : List α} {x y : α} (member : (x, y) ∈ pairs xs) :
    x ∈ xs ∧ y ∈ xs := by
  induction xs with
  | nil => cases member
  | cons z rest ih =>
    simp only [pairs, mem_append, mem_map, Prod.mk.injEq] at member
    rcases member with ⟨u, there, rfl, rfl⟩ | later
    · exact ⟨mem_cons_self, mem_cons_of_mem _ there⟩
    · obtain ⟨one, two⟩ := ih later
      exact ⟨mem_cons_of_mem _ one, mem_cons_of_mem _ two⟩

end

/-! ## Nodes -/

theorem nodeOf_of_mem {names : List String} (member : n ∈ names) :
    nodeOf names n = some (names.idxOf n) := by
  simp [nodeOf, idxOf_lt_length_of_mem member]

theorem lt_of_nodeOf {names : List String} (node : nodeOf names n = some i) : i < names.length := by
  simp only [nodeOf] at node
  split at node
  case isTrue inside =>
    cases node
    exact inside
  case isFalse => cases node

/-! ## The edges of a method -/

theorem writeEdges_of_dst {names : List String} {cells : Array (String × Option Nat)}
    {after : BitSet} (dst : inst.dst? = some d) :
    writeEdges names cells after inst = after.toList.filterMap fun r =>
      if (cells.getD r ("", none)).1 = copySource inst then none
      else some (nodeOf names d.name, (cells.getD r ("", none)).2) := by
  unfold writeEdges
  rw [dst]

section Edges

variable (m : Method) (names : List String)

/-- The name and the node of each declared register. -/
def cellsOf : Array (String × Option Nat) :=
  (m.vars.map fun v => (v.name, nodeOf names v.name)).toArray

/-- The pairs of nodes that interfere. -/
def edgesOf : List (Option Nat × Option Nat) :=
  (m.code.zipIdx.map fun (inst, i) => (inst, (liveness m.vars m.code).after.getD i .empty)).flatMap
    (fun (inst, after) => writeEdges names (cellsOf m names) after inst) ++
  pairs (((liveness m.vars m.code).before.getD 0 .empty).toList.map fun r =>
    ((cellsOf m names).getD r ("", none)).2)

variable {m names}

theorem interference?_some {isFixed : String → Bool} {g : Interference}
    (found : interference? isFixed m = some g) :
    g.names = freeRegisters isFixed m.code ∧
      g.rows = (edgesOf m g.names).foldl addEdge (Array.replicate g.names.length .empty) := by
  unfold interference? at found
  simp only at found
  split at found
  · cases found
  · cases found
    exact ⟨rfl, rfl⟩

theorem exists_interference (declared : ∀ n ∈ occurring m.code, n ∈ m.vars.map (·.name))
    (isFixed : String → Bool) : ∃ g, interference? isFixed m = some g := by
  unfold interference?
  simp only
  split
  case isFalse => exact ⟨_, rfl⟩
  case isTrue empty =>
    -- A register that is written is declared, so there are declarations.
    simp only [Bool.and_eq_true, any_eq_true, Prod.exists] at empty
    obtain ⟨none, inst, after, among, writes, _⟩ := empty
    obtain ⟨⟨inst', i⟩, entry, same⟩ := mem_map.mp among
    obtain rfl : inst' = inst := congrArg Prod.fst same
    obtain ⟨d, dst⟩ := Option.isSome_iff_exists.mp writes
    have known := declared _ (mem_occurring_of_dst (mem_zipIdx_iff_getElem?.mp entry) dst)
    rw [isEmpty_iff.mp none] at known
    cases known

theorem getD_cellsOf (declared : n ∈ m.vars.map (·.name)) :
    (cellsOf m names).getD (cellOf m.vars n) ("", none) = (n, nodeOf names n) := by
  obtain ⟨v, here, rfl⟩ := getElem?_cellOf declared
  simp [cellsOf, Array.getD_eq_getD_getElem?, here]

theorem lt_of_cellsOf {c : Nat} (node : ((cellsOf m names).getD c ("", none)).2 = some i) :
    i < names.length := by
  rw [cellsOf, Array.getD_eq_getD_getElem?, List.getElem?_toArray, List.getElem?_map] at node
  cases here : m.vars[c]? with
  | none => simp [here] at node
  | some v =>
    rw [here] at node
    exact lt_of_nodeOf node

theorem lt_of_mem_edgesOf (member : e ∈ edgesOf m names) {a b : Nat} (joins : Joins e a b) :
    a < names.length := by
  have both : (∀ i, e.1 = some i → i < names.length) ∧ ∀ i, e.2 = some i → i < names.length := by
    rcases mem_append.mp member with write | entry
    · obtain ⟨⟨inst, after⟩, _, edge⟩ := mem_flatMap.mp write
      cases dst : inst.dst? with
      | none => simp [writeEdges, dst] at edge
      | some d =>
        simp only [writeEdges_of_dst dst] at edge
        obtain ⟨r, _, found⟩ := mem_filterMap.mp edge
        rw [ite_eq_iff] at found
        rcases found with ⟨_, none⟩ | ⟨_, same⟩
        · cases none
        · rw [← Option.some.inj same]
          exact ⟨fun i => lt_of_nodeOf, fun i => lt_of_cellsOf⟩
    · obtain ⟨one, two⟩ := mem_of_mem_pairs (x := e.1) (y := e.2) entry
      obtain ⟨r, _, first⟩ := mem_map.mp one
      obtain ⟨r', _, second⟩ := mem_map.mp two
      rw [← first, ← second]
      exact ⟨fun i => lt_of_cellsOf, fun i => lt_of_cellsOf⟩
  rcases joins.2 with rfl | rfl
  · exact both.1 a rfl
  · exact both.2 a rfl

theorem mem_edgesOf_write (here : m.code[i]? = some inst) (dst : inst.dst? = some d)
    (declared : n ∈ m.vars.map (·.name)) (live : LiveOut m.vars m.code i n)
    (uncopied : n ≠ copySource inst) : (nodeOf names d.name, nodeOf names n) ∈ edgesOf m names := by
  refine mem_append_left _ (mem_flatMap.mpr ⟨_, mem_map_of_mem
    (mk_mem_zipIdx_iff_getElem?.mpr here), ?_⟩)
  show _ ∈ writeEdges names (cellsOf m names) ((liveness m.vars m.code).after.getD i .empty) inst
  rw [writeEdges_of_dst dst]
  refine mem_filterMap.mpr ⟨cellOf m.vars n, BitSet.mem_toList.mpr live, ?_⟩
  rw [getD_cellsOf declared, if_neg uncopied]

theorem mem_edgesOf_entry (declared : n ∈ m.vars.map (·.name))
    (declared' : n' ∈ m.vars.map (·.name)) (live : LiveIn m.vars m.code 0 n)
    (live' : LiveIn m.vars m.code 0 n') (ne : n ≠ n') :
    (nodeOf names n, nodeOf names n') ∈ edgesOf m names ∨
      (nodeOf names n', nodeOf names n) ∈ edgesOf m names := by
  have cells : cellOf m.vars n ≠ cellOf m.vars n' := fun same =>
    ne (cellOf_inj declared declared' same)
  have found := mem_pairs_of_ne (BitSet.mem_toList.mpr live) (BitSet.mem_toList.mpr live') cells
  have edge : ∀ {a b : String}, a ∈ m.vars.map (·.name) → b ∈ m.vars.map (·.name) →
      (cellOf m.vars a, cellOf m.vars b) ∈
        pairs ((liveness m.vars m.code).before.getD 0 .empty).toList →
      (nodeOf names a, nodeOf names b) ∈ edgesOf m names := by
    intro a b one two member
    refine mem_append_right _ ?_
    rw [pairs_map]
    refine mem_map.mpr ⟨_, member, ?_⟩
    rw [Prod.map_apply, getD_cellsOf one, getD_cellsOf two]
  exact found.imp (edge declared declared') (edge declared' declared)

end Edges

/-! ## The graph -/

section

variable {m : Method} {isFixed : String → Bool} {g : Interference}

theorem adjacent_iff (found : interference? isFixed m = some g) {a b : Nat} :
    Adjacent g.neighbours a b ↔ a < g.names.length ∧ ∃ e ∈ edgesOf m g.names, Joins e a b := by
  have rows := (interference?_some found).2
  have size : g.rows.size = g.names.length := by
    rw [rows, size_addEdges, Array.size_replicate]
  rw [Interference.neighbours, adjacent_rows, inRow]
  by_cases inside : a < g.names.length
  · have blank : ¬ inRow (Array.replicate g.names.length .empty) a b := by
      simp [inRow, Array.getD_eq_getD_getElem?, inside]
    have added := inRow_addEdges (b := b) (edgesOf m g.names)
      (show a < (Array.replicate g.names.length BitSet.empty).size by simpa using inside)
    rw [← rows] at added
    simpa [inside, blank, inRow] using added
  · have outside : g.rows.size ≤ a := size ▸ Nat.not_lt.mp inside
    simp [Array.getD_eq_getD_getElem?, Array.getElem?_eq_none outside, inside]

theorem size_neighbours (found : interference? isFixed m = some g) :
    g.neighbours.size = g.names.length := by
  rw [Interference.neighbours, Array.size_map, (interference?_some found).2, size_addEdges,
    Array.size_replicate]

theorem simple_neighbours (found : interference? isFixed m = some g) : Simple g.neighbours where
  symm adjacent := by
    obtain ⟨_, e, member, joins⟩ := (adjacent_iff found).mp adjacent
    exact (adjacent_iff found).mpr ⟨lt_of_mem_edgesOf member joins.symm, e, member, joins.symm⟩
  irrefl v adjacent := by
    obtain ⟨_, e, _, joins⟩ := (adjacent_iff found).mp adjacent
    exact joins.1 rfl

theorem adjacent_of_edge (found : interference? isFixed m = some g) (free : n ∈ g.names)
    (free' : n' ∈ g.names) (ne : n ≠ n')
    (edge : (nodeOf g.names n, nodeOf g.names n') ∈ edgesOf m g.names) :
    Adjacent g.neighbours (g.names.idxOf n) (g.names.idxOf n') := by
  rw [nodeOf_of_mem free, nodeOf_of_mem free'] at edge
  have nodes : g.names.idxOf n ≠ g.names.idxOf n' := fun same =>
    ne ((idxOf_inj free).mp same)
  exact (adjacent_iff found).mpr ⟨idxOf_lt_length_of_mem free, _, edge, nodes, .inl rfl⟩

/-- **Writes.** A register that is written interferes with what is live after the
write, except for the register that is copied. -/
theorem adjacent_of_write (found : interference? isFixed m = some g) (here : m.code[i]? = some inst)
    (dst : inst.dst? = some d) (declared : n ∈ m.vars.map (·.name))
    (live : LiveOut m.vars m.code i n) (uncopied : n ≠ copySource inst) (ne : d.name ≠ n)
    (free : d.name ∈ g.names) (free' : n ∈ g.names) :
    Adjacent g.neighbours (g.names.idxOf d.name) (g.names.idxOf n) :=
  adjacent_of_edge found free free' ne (mem_edgesOf_write here dst declared live uncopied)

/-- **Entry.** Registers that are live at entry interfere with each other. -/
theorem adjacent_at_entry (found : interference? isFixed m = some g)
    (declared : n ∈ m.vars.map (·.name)) (declared' : n' ∈ m.vars.map (·.name))
    (live : LiveIn m.vars m.code 0 n) (live' : LiveIn m.vars m.code 0 n') (ne : n ≠ n')
    (free : n ∈ g.names) (free' : n' ∈ g.names) :
    Adjacent g.neighbours (g.names.idxOf n) (g.names.idxOf n') := by
  rcases mem_edgesOf_entry declared declared' live live' ne with edge | edge
  · exact adjacent_of_edge found free free' ne edge
  · exact (simple_neighbours found).symm (adjacent_of_edge found free' free ne.symm edge)

end

/-! ## All edges -/

/-- The first register interferes with the second: it is written where the second is live and not
what is copied, or both are live at entry. -/
inductive Interferes (m : Method) : String → String → Prop where
  | write {i k : Nat} {inst : Inst} {d : Reg} {n : String} :
      m.code[i]? = some inst → inst.dst? = some d → k ∈ allSuccessors m.code i inst →
      LiveAlong m.code k n → n ≠ copySource inst → Interferes m d.name n
  | entry {n n' : String} : LiveAlong m.code 0 n → LiveAlong m.code 0 n' → Interferes m n n'

section Edges

variable {m : Method} {names : List String} {isFixed : String → Bool} {g : Interference}

theorem interferes_of_mem_edgesOf (declared : ∀ n ∈ occurring m.code, n ∈ m.vars.map (·.name))
    (member : e ∈ edgesOf m names) :
    ∃ n n', Interferes m n n' ∧ e = (nodeOf names n, nodeOf names n') := by
  have cell : ∀ {k c}, has (liveness m.vars m.code).before k c →
      ∃ n, (cellsOf m names).getD c ("", none) = (n, nodeOf names n) ∧ LiveAlong m.code k n := by
    intro k c live
    obtain ⟨n, rfl, along⟩ := exists_liveAlong_of_has live
    exact ⟨n, getD_cellsOf (declared n along.occurs), along⟩
  rcases mem_append.mp member with write | entry
  · obtain ⟨⟨inst, after⟩, among, edge⟩ := mem_flatMap.mp write
    obtain ⟨⟨inst', i⟩, place, same⟩ := mem_map.mp among
    cases same
    have here := mem_zipIdx_iff_getElem?.mp place
    cases dst : inst.dst? with
    | none => simp [writeEdges, dst] at edge
    | some d =>
      simp only [writeEdges_of_dst dst] at edge
      obtain ⟨c, live, found⟩ := mem_filterMap.mp edge
      obtain ⟨k, follows, live'⟩ := (contains_after_iff here c).mp (BitSet.mem_toList.mp live)
      obtain ⟨n, entry, along⟩ := cell live'
      rw [entry, ite_eq_iff] at found
      rcases found with ⟨_, none⟩ | ⟨uncopied, same⟩
      · cases none
      · exact ⟨d.name, n, .write here dst follows along uncopied, (Option.some.inj same).symm⟩
  · obtain ⟨first, second⟩ := mem_of_mem_pairs (x := e.1) (y := e.2) entry
    obtain ⟨c, live, same⟩ := mem_map.mp first
    obtain ⟨c', live', same'⟩ := mem_map.mp second
    obtain ⟨n, one, along⟩ := cell (BitSet.mem_toList.mp live)
    obtain ⟨n', two, along'⟩ := cell (BitSet.mem_toList.mp live')
    rw [one] at same
    rw [two] at same'
    exact ⟨n, n', .entry along along', Prod.ext same.symm same'.symm⟩

theorem eq_of_nodeOf (node : nodeOf names n' = some (names.idxOf n)) : n' = n := by
  simp only [nodeOf] at node
  split at node
  case isTrue inside =>
    exact (idxOf_inj (idxOf_lt_length_iff.mp inside)).mp (Option.some.inj node)
  case isFalse => cases node

/-- **Neighbours interfere**, and registers that interfere are neighbours. -/
theorem adjacent_iff_interferes (declared : ∀ n ∈ occurring m.code, n ∈ m.vars.map (·.name))
    (found : interference? isFixed m = some g) (free : n ∈ g.names) (free' : n' ∈ g.names) :
    Adjacent g.neighbours (g.names.idxOf n) (g.names.idxOf n') ↔
      n ≠ n' ∧ (Interferes m n n' ∨ Interferes m n' n) := by
  have edge : ∀ {a b}, a ∈ g.names → b ∈ g.names → a ≠ b → Interferes m a b →
      Adjacent g.neighbours (g.names.idxOf a) (g.names.idxOf b) := by
    intro a b one two ne interferes
    cases interferes with
    | write here dst follows along uncopied =>
      have known := declared _ along.occurs
      exact adjacent_of_write found here dst known
        ((liveOut_iff here _).mpr ⟨_, follows, liveIn_of_liveAlong declared along⟩) uncopied ne one two
    | entry along along' =>
      exact adjacent_at_entry found (declared _ along.occurs) (declared _ along'.occurs)
        (liveIn_of_liveAlong declared along) (liveIn_of_liveAlong declared along') ne one two
  constructor
  · intro adjacent
    obtain ⟨_, e, member, differ, joins⟩ := (adjacent_iff found).mp adjacent
    refine ⟨fun same => differ (by rw [same]), ?_⟩
    obtain ⟨a, b, interferes, rfl⟩ := interferes_of_mem_edgesOf declared member
    rcases joins with same | same
    · obtain ⟨first, second⟩ := Prod.mk.inj same
      rw [eq_of_nodeOf first, eq_of_nodeOf second] at interferes
      exact .inl interferes
    · obtain ⟨first, second⟩ := Prod.mk.inj same
      rw [eq_of_nodeOf first, eq_of_nodeOf second] at interferes
      exact .inr interferes
  · rintro ⟨ne, one | two⟩
    · exact edge free free' ne one
    · exact (simple_neighbours found).symm (edge free' free ne.symm two)

end Edges

end JavaMinus.Registers
