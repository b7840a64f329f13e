import JavaMinus.Proofs.ExhaustiveSearch
import JavaMinus.Proofs.RegisterPlacement

/-!
# Registers take as few slots as they can

The object and the parameters have slots of their own. The other registers share the rest, and the
number of slots that they take is the number of colours of a proper colouring of their graph of
interference. Unless the search for fewer colours was given up, that is the chromatic number of
the graph.

**Slots and colours.** The slots that are left to the other registers by any assignment are the
colours of a proper colouring (`SlotAssignment.colorable`), and any proper colouring gives an
assignment (`exists_slotAssignment`). Placing registers therefore fails exactly if no assignment
fits.

**Main result** (`place_takes_fewest_slots`).
-/

namespace JavaMinus.Registers

open Code List

/-! ## The graph of interference -/

/-- A register for the object or for a parameter. -/
def IsFixed (m : Method) (n : String) : Prop :=
  n ∈ (thisVars m).map (·.name) ++ m.params.map (·.name)

/-- A register of the code that is neither the object nor a parameter. -/
def IsFree (m : Method) (n : String) : Prop := n ∈ occurring m.code ∧ ¬ IsFixed m n

/-- The graph of interference of the registers that share slots. -/
def interferenceGraph (m : Method) : SimpleGraph {n // IsFree m n} :=
  SimpleGraph.fromRel fun a b => Interferes m a b

/-- A method in which every register is declared once. -/
structure DeclaredOnce (m : Method) : Prop where
  vars : (m.vars.map (·.name)).Nodup
  occurring : ∀ n ∈ occurring m.code, n ∈ m.vars.map (·.name)
  params : (m.params.map (·.name)).Nodup
  this : ∀ v ∈ m.vars, v.kind = .this → v.name ∉ m.params.map (·.name)

section Graph

variable {m : Method} {g : Interference}

theorem DeclaredOnce.nodup_fixed (ok : DeclaredOnce m) :
    ((thisVars m).map (·.name) ++ m.params.map (·.name)).Nodup := by
  refine List.Nodup.append (ok.vars.sublist (filter_sublist.map _)) ok.params ?_
  intro n first second
  obtain ⟨v, this, rfl⟩ := mem_map.mp first
  obtain ⟨member, kind⟩ := mem_thisVars.mp this
  exact ok.this v member kind second

theorem isFixed_iff {n : String} : isFixed m n = true ↔ IsFixed m n := by
  rw [isFixed, isSome_get?_iff, map_fst_fixedPlaces]
  rfl

theorem mem_names_iff (found : interference? (isFixed m) m = some g) {n : String} :
    n ∈ g.names ↔ IsFree m n := by
  rw [(interference?_some found).1, mem_freeRegisters, IsFree, ← isFixed_iff, Bool.not_eq_true]

theorem nodup_names {fixed : String → Bool} (found : interference? fixed m = some g) :
    g.names.Nodup := by
  rw [(interference?_some found).1]
  exact nodup_eraseDups _

variable (declared : ∀ n ∈ occurring m.code, n ∈ m.vars.map (·.name))
  (found : interference? (isFixed m) m = some g)

include declared found

theorem adj_iff (a b : {n // IsFree m n}) : (interferenceGraph m).Adj a b ↔
    Adjacent g.neighbours (g.names.idxOf a.1) (g.names.idxOf b.1) := by
  rw [adjacent_iff_interferes declared found ((mem_names_iff found).mpr a.2)
    ((mem_names_iff found).mpr b.2), interferenceGraph, SimpleGraph.fromRel_adj, Ne, Subtype.ext_iff]

/-- The colouring that is found, as one of the registers. -/
def registerColoring : (interferenceGraph m).Coloring (Fin (colorGraph g.neighbours).2) :=
  SimpleGraph.Coloring.mk
    (fun r => ⟨colorOf g r.1, (exists_color found ((mem_names_iff found).mpr r.2)).1⟩)
    (by
      intro a b adjacent same
      exact colorOf_ne found ((mem_names_iff found).mpr a.2) ((mem_names_iff found).mpr b.2)
        ((adj_iff declared found a b).mp adjacent) (congrArg Fin.val same))

@[simp] theorem registerColoring_apply (r : {n // IsFree m n}) :
    (registerColoring declared found r : Nat) = colorOf g r.1 := rfl

theorem colorable_of_coloring {k : Nat} (colorable : (interferenceGraph m).Colorable k) :
    Colorable g.neighbours k := by
  obtain ⟨C⟩ := colorable
  have free : ∀ {v} (inside : v < g.names.length), IsFree m g.names[v] := fun inside =>
    (mem_names_iff found).mp (getElem_mem inside)
  refine ⟨fun v => if inside : v < g.names.length then C ⟨g.names[v], free inside⟩ else 0,
    fun v inside => ?_, fun v u adjacent => ?_⟩
  · rw [size_neighbours found] at inside
    simp only [inside, dif_pos, Fin.is_lt]
  · have first : v < g.names.length := size_neighbours found ▸ adjacent.lt
    have second : u < g.names.length :=
      size_neighbours found ▸ ((simple_neighbours found).symm adjacent).lt
    simp only [first, second, dif_pos]
    refine Fin.val_ne_of_ne (C.valid ((adj_iff declared found _ _).mpr ?_))
    rwa [(nodup_names found).idxOf_getElem v first, (nodup_names found).idxOf_getElem u second]

/-- **The colours are as few as can be**, unless the last attempt was given up. -/
theorem chromaticNumber_eq (finished : ¬ GaveUp g.neighbours) :
    (interferenceGraph m).chromaticNumber = (colorGraph g.neighbours).2 := by
  refine le_antisymm ?_ ?_
  · exact SimpleGraph.Colorable.chromaticNumber_le ⟨registerColoring declared found⟩
  · refine SimpleGraph.le_chromaticNumber_iff_colorable.mpr fun k colorable => ?_
    exact colorGraph_least (simple_neighbours found) finished
      (colorable_of_coloring declared found colorable)

end Graph

/-! ## Assignments of slots -/

/-- An assignment of slots below a limit. The object and the parameters share their slots with no
other register, and registers that interfere are in different slots. -/
structure SlotAssignment (m : Method) (limit : Int) (slot : String → Nat) : Prop where
  inside : ∀ n, IsFixed m n ∨ IsFree m n → (slot n : Int) < limit
  alone : ∀ n n', IsFixed m n → IsFixed m n' ∨ IsFree m n' → slot n = slot n' → n = n'
  apart : ∀ a b : {n // IsFree m n}, (interferenceGraph m).Adj a b → slot a ≠ slot b

section Assignments

variable {m : Method} {limit : Int}

/-- The slots that an assignment leaves to the registers that share slots are colours for them. -/
theorem SlotAssignment.colorable {slot : String → Nat} (assigned : SlotAssignment m limit slot)
    (positive : 0 < limit)
    (nodup : ((thisVars m).map (·.name) ++ m.params.map (·.name)).Nodup) :
    ∃ k, (interferenceGraph m).Colorable k ∧ (firstFree m : Int) + k ≤ limit := by
  classical
  let fixed := ((thisVars m).map (·.name) ++ m.params.map (·.name)).toFinset.image slot
  have count : fixed.card = firstFree m := by
    rw [Finset.card_image_of_injOn, toFinset_card_of_nodup nodup]
    · simp [firstFree]
    · intro n first n' second same
      exact assigned.alone n n' (mem_toFinset.mp first) (.inl (mem_toFinset.mp second)) same
  have inside : fixed ⊆ Finset.range limit.toNat := by
    intro s member
    obtain ⟨n, isFixed, rfl⟩ := Finset.mem_image.mp member
    have := assigned.inside n (.inl (mem_toFinset.mp isFixed))
    exact Finset.mem_range.mpr (by omega)
  have left : ∀ r : {n // IsFree m n}, slot r.1 ∈ Finset.range limit.toNat \ fixed := by
    intro r
    have := assigned.inside r.1 (.inr r.2)
    refine Finset.mem_sdiff.mpr ⟨Finset.mem_range.mpr (by omega), fun member => ?_⟩
    obtain ⟨n, isFixed, same⟩ := Finset.mem_image.mp member
    have isFixed' := mem_toFinset.mp isFixed
    exact r.2.2 (assigned.alone n r.1 isFixed' (.inr r.2) same ▸ isFixed')
  let C : (interferenceGraph m).Coloring ↥(Finset.range limit.toNat \ fixed) :=
    SimpleGraph.Coloring.mk (fun r => ⟨slot r.1, left r⟩)
      (by
        intro a b adjacent same
        exact assigned.apart a b adjacent (congrArg Subtype.val same))
  refine ⟨_, C.colorable, ?_⟩
  have total := Finset.card_le_card inside
  rw [Fintype.card_coe, Finset.card_sdiff_of_subset inside]
  rw [Finset.card_range, count] at total ⊢
  omega

theorem exists_slotAssignment {k : Nat} (colorable : (interferenceGraph m).Colorable k)
    (room : (firstFree m : Int) + k ≤ limit) : ∃ slot, SlotAssignment m limit slot := by
  classical
  obtain ⟨C⟩ := colorable
  let names := (thisVars m).map (·.name) ++ m.params.map (·.name)
  let slot : String → Nat := fun n =>
    if free : IsFree m n then firstFree m + C ⟨n, free⟩ else names.idxOf n
  have shared : ∀ {n} (free : IsFree m n), slot n = firstFree m + C ⟨n, free⟩ := fun free =>
    dif_pos free
  have own : ∀ {n}, IsFixed m n → slot n = names.idxOf n ∧ slot n < firstFree m := by
    intro n fixed
    have same : slot n = names.idxOf n := dif_neg fun free => free.2 fixed
    have below := idxOf_lt_length_of_mem fixed
    rw [length_append, length_map, length_map] at below
    exact ⟨same, same ▸ below⟩
  refine ⟨slot, ?_, ?_, ?_⟩
  · rintro n (fixed | free)
    · have := (own fixed).2
      omega
    · have := (C ⟨n, free⟩).isLt
      rw [shared free]
      omega
  · rintro n n' fixed (fixed' | free) same
    · rw [(own fixed).1, (own fixed').1] at same
      exact (idxOf_inj fixed).mp same
    · have := (own fixed).2
      have := shared free
      omega
  · intro a b adjacent same
    rw [shared a.2, shared b.2] at same
    exact C.valid adjacent (Fin.ext (Nat.add_left_cancel same))

end Assignments

/-! ## Placing registers -/

/-- What placing the registers of a method comes to, where `g` is the graph that is coloured and
`n` the number of slots that are shared. -/
structure TakesFewestSlots (m : Method) (limit : Int) (g : Neighbours) (n : Nat) : Prop where
  /-- The number is reported, whether registers can be placed or not. -/
  reported : (∃ p, place m limit = .ok p ∧ p.colors = n) ∨
    place m limit = .error (.tooFewSlots m.name (firstFree m + n) limit)
  /-- The colouring that gives the slots is proper, and has that many colours. -/
  proper : ∃ C : (interferenceGraph m).Coloring (Fin n), ∀ p, place m limit = .ok p →
    ∀ r, p.slots.get? r.1 = some (firstFree m + C r)
  /-- The greedy colouring has no fewer colours. -/
  bounded : n ≤ colorCount (greedy g)
  /-- No colouring has fewer colours. -/
  chromatic : ¬ GaveUp g → (interferenceGraph m).chromaticNumber = n
  /-- Registers that cannot be placed do not fit at all. -/
  fails : ¬ GaveUp g → 0 < limit →
    ((∃ e, place m limit = .error e) ↔ ¬ ∃ slot, SlotAssignment m limit slot)

/-- **Registers take as few slots as they can.** In a method in which every register is declared
once it can be told who interferes with whom, and the registers other than the object and the
parameters take as many slots as their graph has colours: as few as there can be, unless the last
attempt to find a smaller colouring ran out of steps. -/
theorem place_takes_fewest_slots (m : Method) (limit : Int) (ok : DeclaredOnce m) :
    ∃ g, interference? (fun n => ((fixedSlots m).1.get? n).isSome) m = some g ∧
      TakesFewestSlots m limit g.neighbours (colorGraph g.neighbours).2 := by
  have apart : ((fixedPlaces m).map (·.1)).Nodup := by
    rw [map_fst_fixedPlaces]
    exact ok.nodup_fixed
  obtain ⟨g, found⟩ := exists_interference ok.occurring (isFixed m)
  have outcome := place_eq_of_interference apart found limit
  refine ⟨g, by rw [fixedSlots_eq apart]; exact found, ?_, ?_, colorGraph_le_greedy _,
    chromaticNumber_eq ok.occurring found, ?_⟩
  · rw [outcome]
    split
    · exact .inr rfl
    · exact .inl ⟨_, rfl, rfl⟩
  · refine ⟨registerColoring ok.occurring found, fun p placed r => ?_⟩
    obtain ⟨g', origin⟩ := place_placedBy apart ok.occurring placed
    cases found.symm.trans origin.found
    exact (origin.slots _ _).mpr (.inr ⟨(mem_names_iff found).mpr r.2, by simp⟩)
  · intro finished positive
    have least := chromaticNumber_eq ok.occurring found finished
    constructor
    · rintro ⟨e, failed⟩ ⟨slot, assigned⟩
      obtain ⟨k, colorable, room⟩ := assigned.colorable positive ok.nodup_fixed
      have fewer := colorable.chromaticNumber_le
      rw [least, Nat.cast_le] at fewer
      rw [outcome, if_neg (by omega)] at failed
      cases failed
    · intro none
      refine ⟨_, outcome.trans (if_pos ⟨positive, ?_⟩)⟩
      by_contra room
      exact none (exists_slotAssignment ⟨registerColoring ok.occurring found⟩ (Int.not_lt.mp room))

theorem place_takes_fewest_slots_remainder : DeclaredOnce remainder ∧
    ∃ g, interference? (fun n => ((fixedSlots remainder).1.get? n).isSome) remainder = some g ∧
      ¬ GaveUp g.neighbours ∧ (interferenceGraph remainder).chromaticNumber = 2 ∧
      place remainder 3 = .error (.tooFewSlots "remainder" 4 3) ∧
      ¬ ∃ slot, SlotAssignment remainder 3 slot := by
  have ok : DeclaredOnce remainder := ⟨by decide, by decide, by decide, by decide⟩
  obtain ⟨g, found, fewest⟩ := place_takes_fewest_slots remainder 3 ok
  have graph : (interference? (fun n => ((fixedSlots remainder).1.get? n).isSome) remainder).map
      (·.neighbours) = some #[[], [], [3], [2]] := by decide +kernel
  rw [found, Option.map_some, Option.some.injEq] at graph
  have finished : ¬ GaveUp g.neighbours := by
    rw [graph, GaveUp]
    decide +kernel
  have failed : place remainder 3 = .error (.tooFewSlots "remainder" 4 3) := by
    with_unfolding_all rfl
  refine ⟨ok, g, found, finished, ?_, failed, (fewest.fails finished (by decide)).mp ⟨_, failed⟩⟩
  rw [fewest.chromatic finished, graph]
  decide +kernel

end JavaMinus.Registers
