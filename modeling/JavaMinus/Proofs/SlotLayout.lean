import JavaMinus.Proofs.InterferenceGraph

/-!
# The layout of slots

Where `place` puts the registers of a method. The object is in slot 0, the
parameters follow in order, and nothing else is in their slots. Every register
that occurs in the code has a slot, and every slot is below the number of slots
(`layout_of_place`). Registers that interfere are in different slots
(`slot_ne_of_write`, `slot_ne_at_entry`).
-/

namespace JavaMinus.Registers

open Code List

/-! ## Slots as pairs -/

section

variable {s : Slots} {n : String} {k : Int}

theorem get?_eq_some_iff (nodup : (s.map (·.1)).Nodup) : s.get? n = some k ↔ (n, k) ∈ s := by
  induction s with
  | nil => simp [Slots.get?]
  | cons entry rest ih =>
    obtain ⟨n', k'⟩ := entry
    rw [map_cons, nodup_cons] at nodup
    have tail := ih nodup.2
    simp only [Slots.get?, lookup_cons, mem_cons, Prod.mk.injEq] at tail ⊢
    by_cases same : n = n'
    · subst same
      have absent : (n, k) ∉ rest := fun member =>
        nodup.1 (mem_map.mpr ⟨(n, k), member, rfl⟩)
      simp [absent, eq_comm]
    · rw [beq_eq_false_iff_ne.mpr same]
      simpa [same] using tail

theorem isSome_get?_iff : (s.get? n).isSome = true ↔ n ∈ s.map (·.1) := by
  induction s with
  | nil => simp [Slots.get?]
  | cons entry rest ih =>
    obtain ⟨n', k'⟩ := entry
    simp only [Slots.get?, lookup_cons, map_cons, mem_cons] at ih ⊢
    by_cases same : n = n'
    · simp [same]
    · rw [beq_eq_false_iff_ne.mpr same, ih]
      simp [same]

theorem put_of_not_mem (absent : n ∉ s.map (·.1)) : s.put n k = s ++ [(n, k)] := by
  induction s with
  | nil => rfl
  | cons entry rest ih =>
    obtain ⟨n', k'⟩ := entry
    simp only [map_cons, mem_cons, not_or] at absent
    simp only [Slots.put, if_neg (Ne.symm absent.1), ih absent.2, cons_append]

end

/-! ## Fixed places -/

/-- A method whose registers are declared once, at most one of them as the object,
whose parameters are the registers declared as such, and whose jumps have one label
to go to. -/
structure Placeable (m : Method) : Prop where
  once : (m.vars.map (·.name)).Nodup
  declared : ∀ n ∈ occurring m.code, n ∈ m.vars.map (·.name)
  this : (m.vars.filter fun v => v.kind = .this).length ≤ 1
  params : m.params.Perm (m.vars.filter fun v => v.kind = .param)
  labels : UniqueLabels m.code
  targets : ∀ t ∈ jumpTargets m.code, .label t ∈ m.code

/-- The declarations of the object. -/
def thisVars (m : Method) : List Var := m.vars.filter fun v => v.kind = .this

/-- The places of the object and of the parameters. -/
def fixedPlaces (m : Method) : Slots :=
  (thisVars m).map (fun v => (v.name, 0)) ++
    (m.params.zipIdx (thisVars m).length).map fun (v, j) => (v.name, (j : Int))

/-- The first slot that is not fixed. -/
def firstFree (m : Method) : Nat := (thisVars m).length + m.params.length

section Fixed

variable {m : Method}

theorem Placeable.wellFormed (ok : Placeable m) : WellFormed m.vars m.code where
  declared n occurs := count_eq_one_of_mem ok.once (ok.declared n occurs)
  labels := ok.labels
  targets := ok.targets

theorem Placeable.eq_of_name (ok : Placeable m) {v v' : Var} (member : v ∈ m.vars)
    (member' : v' ∈ m.vars) (same : v.name = v'.name) : v = v' :=
  inj_on_of_nodup_map ok.once member member' same

theorem mem_thisVars {v : Var} : v ∈ thisVars m ↔ v ∈ m.vars ∧ v.kind = .this := by
  simp [thisVars]

theorem Placeable.mem_params (ok : Placeable m) {v : Var} :
    v ∈ m.params ↔ v ∈ m.vars ∧ v.kind = .param := by
  rw [ok.params.mem_iff]
  simp

theorem map_fst_fixedPlaces :
    (fixedPlaces m).map (·.1) = (thisVars m).map (·.name) ++ m.params.map (·.name) := by
  have params : ∀ (ps : List Var) (start : Nat),
      ((ps.zipIdx start).map fun (v, j) => (v.name, (j : Int))).map (·.1) = ps.map (·.name) := by
    intro ps
    induction ps with
    | nil => exact fun _ => rfl
    | cons p rest ih =>
      intro start
      rw [zipIdx_cons, map_cons, map_cons, ih]
      rfl
  rw [fixedPlaces, map_append, params]
  simp [Function.comp_def]

theorem Placeable.nodup_fixed (ok : Placeable m) : ((fixedPlaces m).map (·.1)).Nodup := by
  rw [map_fst_fixedPlaces]
  refine List.Nodup.append ?_ ?_ ?_
  · exact ok.once.sublist (filter_sublist.map _)
  · exact ((ok.params.map _).nodup_iff).mpr (ok.once.sublist (filter_sublist.map _))
  · intro n first second
    obtain ⟨v, this, rfl⟩ := mem_map.mp first
    obtain ⟨v', param, same⟩ := mem_map.mp second
    obtain ⟨member, kind⟩ := mem_thisVars.mp this
    obtain ⟨member', kind'⟩ := ok.mem_params.mp param
    rw [ok.eq_of_name member' member same, kind] at kind'
    cases kind'

theorem thisSlots_eq (apart : ((thisVars m).map (·.name)).Nodup) :
    thisSlots m.vars = (thisVars m).map fun v => (v.name, 0) := by
  have filtered : thisSlots m.vars = (thisVars m).foldl (fun (s : Slots) v => s.put v.name 0) [] := by
    rw [thisVars, foldl_filter, thisSlots]
    simp
  have general : ∀ (vs : List Var) (s : Slots), (s.map (·.1) ++ vs.map (·.name)).Nodup →
      vs.foldl (fun (s : Slots) v => s.put v.name 0) s = s ++ vs.map fun v => (v.name, 0) := by
    intro vs
    induction vs with
    | nil => simp
    | cons v rest ih =>
      intro s nodup
      have absent : v.name ∉ s.map (·.1) := fun member =>
        (nodup_append.mp nodup).2.2 _ member _ (by simp) rfl
      rw [foldl_cons, put_of_not_mem absent, ih _ (by simpa using nodup)]
      simp
  rw [filtered]
  simpa using general (thisVars m) [] (by simpa using apart)

theorem paramSlots_eq {s : Slots} {ps : List Var} (next : Nat)
    (nodup : (s.map (·.1) ++ ps.map (·.name)).Nodup) :
    paramSlots s next ps = s ++ (ps.zipIdx next).map fun (v, j) => (v.name, (j : Int)) := by
  induction ps generalizing s next with
  | nil => simp [paramSlots]
  | cons p rest ih =>
    have absent : p.name ∉ s.map (·.1) := fun member =>
      (nodup_append.mp nodup).2.2 _ member _ (by simp) rfl
    have next_nodup : ((s ++ [(p.name, (next : Int))]).map (·.1) ++ rest.map (·.name)).Nodup := by
      simpa using nodup
    rw [paramSlots, put_of_not_mem absent, ih (next + 1) next_nodup, zipIdx_cons]
    simp

theorem fixedSlots_eq (apart : ((fixedPlaces m).map (·.1)).Nodup) :
    fixedSlots m = (fixedPlaces m, firstFree m) := by
  rw [map_fst_fixedPlaces] at apart
  rw [fixedSlots, thisSlots_eq apart.of_append_left, paramSlots_eq]
  · simp [fixedPlaces, firstFree]
  · simpa [Function.comp_def] using apart

end Fixed

/-! ## All places -/

/-- Where the registers of a method should be. -/
structure Layout (m : Method) (p : Placement) : Prop where
  /-- The object is in slot 0. -/
  this : ∀ v ∈ m.vars, v.kind = .this → p.slots.get? v.name = some 0
  /-- The parameters follow in order. -/
  params : ∀ (j : Nat) (v : Var), m.params[j]? = some v →
    p.slots.get? v.name = some ((m.vars.filter fun v => v.kind = .this).length + j)
  /-- Nothing else is in the slots of the object and of parameters. -/
  alone : ∀ v ∈ m.vars, v.kind = .this ∨ v.kind = .param →
    ∀ n k, p.slots.get? v.name = some k → p.slots.get? n = some k → n = v.name
  /-- Every register of the code is in some slot. -/
  placed : ∀ n ∈ occurring m.code, ∃ k, p.slots.get? n = some k
  /-- There are enough slots. -/
  inside : ∀ n k, p.slots.get? n = some k → 0 ≤ k ∧ k < p.locals

section Places

variable {m : Method} {limit : Int} {p : Placement}

/-- The places of registers that are coloured. -/
def freePlaces (m : Method) (names : List String) (col : Coloring) : Slots :=
  names.zipIdx.map fun (name, i) => (name, Int.ofNat (firstFree m + (col.getD i none).getD 0))

/-- A name has a fixed place. -/
def isFixed (m : Method) (n : String) : Bool := ((fixedPlaces m).get? n).isSome

theorem place_eq_of_interference (apart : ((fixedPlaces m).map (·.1)).Nodup) {g : Interference}
    (found : interference? (isFixed m) m = some g) (limit : Int) : place m limit =
      if 0 < limit ∧ limit < (firstFree m : Int) + (colorGraph g.neighbours).2
      then .error (.tooFewSlots m.name (firstFree m + (colorGraph g.neighbours).2) limit)
      else .ok ⟨fixedPlaces m ++ freePlaces m g.names (colorGraph g.neighbours).1,
        firstFree m + (colorGraph g.neighbours).2, (colorGraph g.neighbours).2⟩ := by
  have found' : interference? (fun n => ((fixedPlaces m).get? n).isSome) m = some g := found
  simp only [place, fixedSlots_eq apart, found', freePlaces]

theorem mem_freeRegisters {fixed : String → Bool} {n : String} {code : List Inst} :
    n ∈ freeRegisters fixed code ↔ n ∈ occurring code ∧ fixed n = false := by
  rw [freeRegisters, mem_eraseDups, mem_filter]
  simp [occurring]

theorem nodup_eraseDups (names : List String) : names.eraseDups.Nodup := by
  induction size : names.length using Nat.strongRecOn generalizing names with
  | ind size ih =>
    cases names with
    | nil => exact nodup_nil
    | cons n rest =>
      rw [eraseDups_cons]
      refine nodup_cons.mpr ⟨fun member => ?_, ?_⟩
      · rw [mem_eraseDups, mem_filter] at member
        simp at member
      · refine ih _ ?_ _ rfl
        rw [← size, length_cons]
        exact Nat.lt_succ_of_le (length_filter_le _ _)

theorem map_fst_freePlaces (names : List String) (col : Coloring) :
    (freePlaces m names col).map (·.1) = names := by
  rw [freePlaces, map_map]
  exact zipIdx_map_fst 0 names

theorem mem_freePlaces {names : List String} {col : Coloring} {n : String} {k : Int}
    (nodup : names.Nodup) : (n, k) ∈ freePlaces m names col ↔
      n ∈ names ∧ k = Int.ofNat (firstFree m + (col.getD (names.idxOf n) none).getD 0) := by
  rw [freePlaces, mem_map]
  constructor
  · rintro ⟨⟨n', i⟩, member, same⟩
    cases same
    have here := mk_mem_zipIdx_iff_getElem?.mp member
    obtain ⟨inside, rfl⟩ := List.getElem?_eq_some_iff.mp here
    rw [nodup.idxOf_getElem i inside]
    exact ⟨getElem_mem inside, rfl⟩
  · rintro ⟨member, rfl⟩
    exact ⟨(n, names.idxOf n), mk_mem_zipIdx_iff_getElem?.mpr (List.getElem?_idxOf member), rfl⟩

theorem mem_fixedPlaces {n : String} {k : Int} : (n, k) ∈ fixedPlaces m ↔
    (∃ v ∈ thisVars m, v.name = n ∧ k = 0) ∨
      ∃ (j : Nat) (v : Var), m.params[j]? = some v ∧ v.name = n ∧
        k = (((thisVars m).length + j : Nat) : Int) := by
  rw [fixedPlaces, mem_append, mem_map, mem_map]
  refine or_congr ?_ ?_
  · simp only [Prod.mk.injEq, eq_comm]
  · constructor
    · rintro ⟨⟨v, i⟩, member, same⟩
      cases same
      obtain ⟨start, here⟩ := mk_mem_zipIdx_iff_le_and_getElem?_sub.mp member
      exact ⟨i - (thisVars m).length, v, here, rfl, by omega⟩
    · rintro ⟨j, v, here, rfl, rfl⟩
      refine ⟨(v, (thisVars m).length + j), ?_, rfl⟩
      exact mk_mem_zipIdx_iff_le_and_getElem?_sub.mpr ⟨by omega, by simpa using here⟩

theorem Placeable.fixed_unique (ok : Placeable m) {n n' : String} {k : Int}
    (first : (n, k) ∈ fixedPlaces m) (second : (n', k) ∈ fixedPlaces m) : n' = n := by
  have short : (thisVars m).length ≤ 1 := ok.this
  have pos : ∀ {v}, v ∈ thisVars m → 0 < (thisVars m).length := length_pos_of_mem
  rcases mem_fixedPlaces.mp first with ⟨v, this, rfl, rfl⟩ | ⟨j, v, here, rfl, rfl⟩ <;>
    rcases mem_fixedPlaces.mp second with ⟨v', this', rfl, same⟩ | ⟨j', v', here', rfl, same⟩
  · obtain ⟨u, only⟩ := length_eq_one_iff.mp (le_antisymm short (pos this))
    rw [only, mem_singleton] at this this'
    rw [this, this']
  · have := pos this
    omega
  · have := pos this'
    omega
  · obtain rfl : j = j' := by omega
    rw [here] at here'
    cases here'
    rfl

theorem fixed_lt {n : String} {k : Int} (fixed : (n, k) ∈ fixedPlaces m) :
    0 ≤ k ∧ k < firstFree m := by
  rcases mem_fixedPlaces.mp fixed with ⟨v, this, _, rfl⟩ | ⟨j, v, here, _, rfl⟩
  · have := length_pos_of_mem this
    simp only [firstFree]
    omega
  · have := (List.getElem?_eq_some_iff.mp here).1
    simp only [firstFree]
    omega

/-- The colour of a register. -/
def colorOf (g : Interference) (n : String) : Nat :=
  ((colorGraph g.neighbours).1.getD (g.names.idxOf n) none).getD 0

section Colors

variable {g : Interference} {fixed : String → Bool} (found : interference? fixed m = some g)

include found

theorem exists_color {n : String} (free : n ∈ g.names) : colorOf g n < (colorGraph g.neighbours).2 ∧
      (colorGraph g.neighbours).1.getD (g.names.idxOf n) none = some (colorOf g n) := by
  have inside : g.names.idxOf n < g.neighbours.size := by
    rw [size_neighbours found]
    exact idxOf_lt_length_of_mem free
  obtain ⟨c, below, colored⟩ := (colorGraph_colors (simple_neighbours found)).total _ inside
  rw [colorOf, colored]
  exact ⟨below, rfl⟩

theorem colorOf_ne {n n' : String} (free : n ∈ g.names) (free' : n' ∈ g.names)
    (adjacent : Adjacent g.neighbours (g.names.idxOf n) (g.names.idxOf n')) :
    colorOf g n ≠ colorOf g n' := by
  intro same
  have proper := (colorGraph_colors (simple_neighbours found)).proper
  refine proper _ _ _ adjacent (exists_color found free).2 ?_
  rw [same]
  exact (exists_color found free').2

end Colors

/-- The slots of a placement, and the graph that they come from. -/
structure PlacedBy (m : Method) (p : Placement) (g : Interference) : Prop where
  found : interference? (isFixed m) m = some g
  slots : ∀ n k, p.slots.get? n = some k ↔
    (n, k) ∈ fixedPlaces m ∨ (n ∈ g.names ∧ k = ((firstFree m + colorOf g n : Nat) : Int))
  locals : p.locals = firstFree m + (colorGraph g.neighbours).2

section Made

variable (apart : ((fixedPlaces m).map (·.1)).Nodup)
  (declared : ∀ n ∈ occurring m.code, n ∈ m.vars.map (·.name))

include apart declared

theorem place_ok (placed : place m limit = .ok p) : ∃ g, interference? (isFixed m) m = some g ∧
      p.slots = fixedPlaces m ++ freePlaces m g.names (colorGraph g.neighbours).1 ∧
      p.locals = firstFree m + (colorGraph g.neighbours).2 := by
  obtain ⟨g, found⟩ := exists_interference declared (isFixed m)
  rw [place_eq_of_interference apart found, ite_eq_iff] at placed
  rcases placed with ⟨_, failed⟩ | ⟨_, same⟩
  · cases failed
  · cases same
    exact ⟨g, found, rfl, rfl⟩

theorem place_placedBy (placed : place m limit = .ok p) : ∃ g, PlacedBy m p g := by
  obtain ⟨g, found, slots, locals⟩ := place_ok apart declared placed
  refine ⟨g, found, fun n k => ?_, locals⟩
  have names := (interference?_some found).1
  have nodup : g.names.Nodup := by
    rw [names]
    exact nodup_eraseDups _
  have keys : (p.slots.map (·.1)).Nodup := by
    rw [slots, map_append, map_fst_freePlaces]
    refine List.Nodup.append apart nodup fun n fixed free => ?_
    rw [names, mem_freeRegisters, isFixed, ← Bool.not_eq_true, isSome_get?_iff] at free
    exact free.2 fixed
  rw [get?_eq_some_iff keys, slots, mem_append, mem_freePlaces nodup]
  rfl

end Made

namespace PlacedBy

variable {g : Interference} (origin : PlacedBy m p g)

include origin

theorem mem_names {n : String} :
    n ∈ g.names ↔ n ∈ occurring m.code ∧ ∀ k, (n, k) ∉ fixedPlaces m := by
  rw [(interference?_some origin.found).1, mem_freeRegisters, isFixed, ← Bool.not_eq_true,
    isSome_get?_iff]
  simp

theorem cases {n : String} (occurs : n ∈ occurring m.code) :
    (∃ k, (n, k) ∈ fixedPlaces m) ∨ n ∈ g.names := by
  by_cases fixed : ∃ k, (n, k) ∈ fixedPlaces m
  · exact .inl fixed
  · exact .inr (origin.mem_names.mpr ⟨occurs, not_exists.mp fixed⟩)

theorem eq_of_fixed (ok : Placeable m) {n n' : String} {k : Int} (fixed : (n, k) ∈ fixedPlaces m)
    (there : p.slots.get? n' = some k) : n' = n := by
  rcases (origin.slots n' k).mp there with fixed' | ⟨_, rfl⟩
  · exact ok.fixed_unique fixed fixed'
  · have := (fixed_lt fixed).2
    omega

theorem ne_of_adjacent (ok : Placeable m) {n n' : String} (ne : n ≠ n')
    (adjacent : n ∈ g.names → n' ∈ g.names →
      Adjacent g.neighbours (g.names.idxOf n) (g.names.idxOf n')) {k : Int}
    (here : p.slots.get? n = some k) (there : p.slots.get? n' = some k) : False := by
  rcases (origin.slots n k).mp here with fixed | ⟨free, rfl⟩
  · exact ne (origin.eq_of_fixed ok fixed there).symm
  · rcases (origin.slots n' _).mp there with fixed | ⟨free', same⟩
    · exact ne (origin.eq_of_fixed ok fixed here)
    · exact colorOf_ne origin.found free free' (adjacent free free') (by omega)

end PlacedBy

/-- **The layout of slots.** -/
theorem layout_of_place (ok : Placeable m) (placed : place m limit = .ok p) : Layout m p := by
  obtain ⟨g, origin⟩ := place_placedBy ok.nodup_fixed ok.declared placed
  have fixed_of_kind : ∀ v ∈ m.vars, v.kind = .this ∨ v.kind = .param →
      ∃ k, (v.name, k) ∈ fixedPlaces m := by
    rintro v member (this | param)
    · exact ⟨0, mem_fixedPlaces.mpr (.inl ⟨v, mem_thisVars.mpr ⟨member, this⟩, rfl, rfl⟩)⟩
    · obtain ⟨j, here⟩ := mem_iff_getElem?.mp (ok.mem_params.mpr ⟨member, param⟩)
      exact ⟨_, mem_fixedPlaces.mpr (.inr ⟨j, v, here, rfl, rfl⟩)⟩
  refine ⟨fun v member this => ?_, fun j v here => ?_, fun v member kind n k one two => ?_,
    fun n occurs => ?_, fun n k there => ?_⟩
  · exact (origin.slots _ _).mpr (.inl (mem_fixedPlaces.mpr
      (.inl ⟨v, mem_thisVars.mpr ⟨member, this⟩, rfl, rfl⟩)))
  · exact (origin.slots _ _).mpr (.inl (mem_fixedPlaces.mpr (.inr ⟨j, v, here, rfl, rfl⟩)))
  · obtain ⟨k', fixed⟩ := fixed_of_kind v member kind
    have same := (origin.slots _ _).mpr (.inl fixed)
    rw [one] at same
    cases same
    exact origin.eq_of_fixed ok fixed two
  · rcases origin.cases occurs with ⟨k, fixed⟩ | free
    · exact ⟨k, (origin.slots n k).mpr (.inl fixed)⟩
    · exact ⟨_, (origin.slots n _).mpr (.inr ⟨free, rfl⟩)⟩
  · rw [origin.locals]
    rcases (origin.slots n k).mp there with fixed | ⟨free, rfl⟩
    · have := fixed_lt fixed
      omega
    · have := (exists_color origin.found free).1
      omega

/-- A register that is written is not in the slot of another one that is live after
the write, except where it is a copy of that one. -/
theorem slot_ne_of_write (ok : Placeable m) (placed : place m limit = .ok p) {i : Nat} {inst : Inst}
    (here : m.code[i]? = some inst) {d : Reg} (dst : inst.dst? = some d) {n : String}
    (occurs : n ∈ occurring m.code) (live : LiveOut m.vars m.code i n)
    (uncopied : n ≠ copySource inst) (ne : n ≠ d.name) {k : Int}
    (slot : p.slots.get? d.name = some k) : p.slots.get? n ≠ some k := by
  obtain ⟨g, origin⟩ := place_placedBy ok.nodup_fixed ok.declared placed
  intro same
  exact origin.ne_of_adjacent ok ne.symm
    (adjacent_of_write origin.found here dst (ok.declared n occurs) live uncopied ne.symm) slot same

theorem slot_ne_at_entry (ok : Placeable m) (placed : place m limit = .ok p) {n n' : String}
    (occurs : n ∈ occurring m.code) (occurs' : n' ∈ occurring m.code)
    (live : LiveIn m.vars m.code 0 n) (live' : LiveIn m.vars m.code 0 n') (ne : n ≠ n') {k : Int}
    (slot : p.slots.get? n = some k) : p.slots.get? n' ≠ some k := by
  obtain ⟨g, origin⟩ := place_placedBy ok.nodup_fixed ok.declared placed
  intro same
  exact origin.ne_of_adjacent ok ne
    (adjacent_at_entry origin.found (ok.declared n occurs) (ok.declared n' occurs') live live' ne)
    slot same

end Places

end JavaMinus.Registers
