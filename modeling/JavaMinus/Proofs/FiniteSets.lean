import JavaMinus.BitSet.Signed
import JavaMinus.Proofs.BitSetElements

/-!
# Sets of small numbers behave like finite sets

The elements of a set of small numbers are a finite set of numbers (`BitSet.toFinset`). Every
operation does to the words what the operation on finite sets does to the elements, and what can be
asked of a set is told by its elements alone (`Represents`): membership, the list of elements in
increasing order, their number, and how far a visit gets.

A program over sets (`Change`) changes numbered variables, which are empty at first. Each change
keeps every variable the set that it stands for (`Change.apply_toFinset`), and so does a whole
history of changes (`Change.run_toFinset`, `history_represents`).
-/

namespace JavaMinus.BitSet

variable {i : Nat} {s t : BitSet}

/-- The elements of a set as a finite set. -/
def toFinset (s : BitSet) : Finset Nat := s.toList.toFinset

@[simp] theorem mem_toFinset : i ∈ s.toFinset ↔ s.contains i = true := by
  rw [toFinset, List.mem_toFinset, mem_toList]

/-- The elements are listed in increasing order. -/
theorem toList_eq_sort (s : BitSet) : s.toList = s.toFinset.sort (· ≤ ·) := by
  have increasing := pairwise_elements 0 s.words
  exact ((List.toFinset_sort (· ≤ ·) (increasing.imp Nat.ne_of_lt)).mpr
    (increasing.imp Nat.le_of_lt)).symm

theorem size_eq_card (s : BitSet) : s.size = s.toFinset.card := by
  rw [size, toList_eq_sort, Finset.length_sort]

/-! ## Operations -/

theorem toFinset_withRoom : withRoom.toFinset = ∅ := rfl

theorem toFinset_insert (s : BitSet) (i : Nat) : (s.insert i).toFinset = s.toFinset ∪ {i} := by
  ext j
  simp only [mem_toFinset, contains_insert, Finset.mem_union, Finset.mem_singleton,
    Bool.or_eq_true, decide_eq_true_eq]
  exact or_comm.trans (or_congr_right eq_comm)

theorem toFinset_erase (s : BitSet) (i : Nat) : (s.erase i).toFinset = s.toFinset.erase i := by
  ext j
  simp only [mem_toFinset, contains_erase, Finset.mem_erase, Bool.and_eq_true, decide_eq_true_eq]
  exact ⟨fun kept => ⟨kept.2.symm, kept.1⟩, fun kept => ⟨kept.2, kept.1.symm⟩⟩

theorem toFinset_union (s t : BitSet) : (s.union t).toFinset = s.toFinset ∪ t.toFinset := by
  ext j
  simp [contains_union]

theorem getD_andNotWords (xs ys : List UInt64) (k : Nat) :
    (andNotWords xs ys).getD k 0 = xs.getD k 0 &&& ~~~ ys.getD k 0 := by
  induction xs, ys using andNotWords.induct generalizing k with
  | case1 ys => simp [andNotWords]
  | case2 xs nonempty => cases xs <;> simp [andNotWords]
  | case3 x xs y ys ih =>
    cases k with
    | zero => simp [andNotWords]
    | succ k => simpa [andNotWords] using ih k

theorem toFinset_diff (s t : BitSet) : (s.diff t).toFinset = s.toFinset \ t.toFinset := by
  ext j
  simp only [mem_toFinset, Finset.mem_sdiff, contains, word, diff, getD_andNotWords,
    testBit_and_not _ _ (mod_small j), Bool.and_eq_true, Bool.not_eq_true', Bool.not_eq_true]

theorem toFinset_copy (s : BitSet) : s.copy.toFinset = s.toFinset := rfl

theorem equal_iff_toFinset : s.equal t = true ↔ s.toFinset = t.toFinset := by
  rw [equal_iff, Finset.ext_iff]
  exact forall_congr' fun i => by rw [mem_toFinset, mem_toFinset, Bool.eq_iff_iff]

/-- A union brings new elements exactly if it grows. -/
theorem growsBy_iff : s.growsBy t = true ↔ s.toFinset ⊂ s.toFinset ∪ t.toFinset := by
  have words : s.growsBy t = false ↔ s.equal (s.union t) = true := by
    rw [equal, sameWords_iff, growsBy, List.any_eq_false]
    simp only [List.mem_range, bne_iff_ne, ne_eq, not_not, union, getD_orWords, word]
    refine ⟨fun each k => ?_, fun all k _ => (all k).symm⟩
    by_cases inside : k < t.words.length
    · exact (each k inside).symm
    · simp [List.getElem?_eq_none (Nat.not_lt.mp inside)]
  rw [equal_iff_toFinset, toFinset_union] at words
  rw [Finset.ssubset_iff_subset_ne, ← Bool.not_eq_false, words]
  exact ⟨fun new => ⟨Finset.subset_union_left, new⟩, fun grows => grows.2⟩

/-! ## Visits -/

section

variable {σ : Type} (f : σ → Nat → σ × Bool)

/-- The state after visiting elements without asking whether to go on. -/
def after (init : σ) (seen : List Nat) : σ := seen.foldl (fun acc i => (f acc i).1) init

/-- A visit sees the elements of a list from the first one on. All visits but the last one go on,
and elements are left only where the last one says to stop. -/
structure Sees (init : σ) (listed seen left : List Nat) : Prop where
  split : listed = seen ++ left
  goesOn : ∀ before i later, seen = before ++ i :: later → later ≠ [] →
    (f (after f init before) i).2 = true
  stops : left ≠ [] → ∃ before i, seen = before ++ [i] ∧ (f (after f init before) i).2 = false

theorem visitFrom_sees (init : σ) (listed : List Nat) :
    ∃ seen left, Sees f init listed seen left ∧ visitFrom f init listed = after f init seen := by
  induction listed generalizing init with
  | nil => exact ⟨[], [], ⟨rfl, by simp, by simp⟩, rfl⟩
  | cons i rest ih =>
    rw [visitFrom]
    rcases answer : f init i with ⟨next, _ | _⟩
    · refine ⟨[i], rest, ⟨rfl, fun before j later split nonempty => ?_, fun _ => ⟨[], i, rfl, ?_⟩⟩,
        ?_⟩
      · rcases List.cons_eq_append_iff.mp split with ⟨rfl, same⟩ | ⟨_, rfl, none⟩
        · exact absurd (List.cons.inj same).2 nonempty
        · simp at none
      · simp [after, answer]
      · simp [after, answer]
    · obtain ⟨seen, left, sees, same⟩ := ih next
      have step : ∀ more, after f init (i :: more) = after f next more := by simp [after, answer]
      refine ⟨i :: seen, left, ⟨by rw [sees.split]; rfl, fun before j later split nonempty => ?_,
        fun some => ?_⟩, same.trans (step seen).symm⟩
      · rcases List.cons_eq_append_iff.mp split with ⟨rfl, first⟩ | ⟨before, rfl, others⟩
        · obtain ⟨rfl, _⟩ := List.cons.inj first
          simp [after, answer]
        · rw [step]
          exact sees.goesOn before j later others nonempty
      · obtain ⟨before, j, last, stop⟩ := sees.stops some
        exact ⟨i :: before, j, by rw [last]; rfl, by rw [step, stop]⟩

end

/-! ## Histories -/

/-- Words stand for a finite set: all that can be asked of them is told by its elements. -/
structure Represents (s : BitSet) (elems : Finset Nat) : Prop where
  contains : ∀ i, s.contains i = true ↔ i ∈ elems
  toList : s.toList = elems.sort (· ≤ ·)
  size : s.size = elems.card
  visit : ∀ {σ : Type} (init : σ) (f : σ → Nat → σ × Bool), ∃ seen left,
    Sees f init (elems.sort (· ≤ ·)) seen left ∧ s.visit init f = after f init seen

theorem represents_toFinset (s : BitSet) : s.Represents s.toFinset where
  contains _ := mem_toFinset.symm
  toList := toList_eq_sort s
  size := size_eq_card s
  visit init f := toList_eq_sort s ▸ visitFrom_sees f init s.toList

/-- A change of one of many variables that hold sets. -/
inductive Change where
  | make (k : Nat) (room : Int)
  | set (k i : Nat)
  | clear (k i : Nat)
  | or (k j : Nat)
  | andNot (k j : Nat)
  | copy (k j : Nat)

namespace Change

/-- Change words. A set can only be made if there is room for it. -/
def apply (vars : Nat → BitSet) : Change → Option (Nat → BitSet)
  | make k room => (withRoomFor? room).map (Function.update vars k)
  | set k i => some (Function.update vars k ((vars k).insert i))
  | clear k i => some (Function.update vars k ((vars k).erase i))
  | or k j => some (Function.update vars k ((vars k).union (vars j)))
  | andNot k j => some (Function.update vars k ((vars k).diff (vars j)))
  | copy k j => some (Function.update vars k (vars j).copy)

/-- Change finite sets. -/
def ideal (sets : Nat → Finset Nat) : Change → Nat → Finset Nat
  | make k _ => Function.update sets k ∅
  | set k i => Function.update sets k (sets k ∪ {i})
  | clear k i => Function.update sets k ((sets k).erase i)
  | or k j => Function.update sets k (sets k ∪ sets j)
  | andNot k j => Function.update sets k (sets k \ sets j)
  | copy k j => Function.update sets k (sets j)

/-- The change makes a set for which there is no room. -/
def LacksRoom (c : Change) : Prop := ∃ k room, c = make k room ∧ withRoomFor? room = none

variable {vars vars' : Nat → BitSet} {c : Change}

theorem apply_eq_none_iff (vars : Nat → BitSet) : c.apply vars = none ↔ c.LacksRoom := by
  cases c <;> simp [apply, LacksRoom]

theorem toFinset_update (vars : Nat → BitSet) (k : Nat) (s : BitSet) :
    (fun n => (Function.update vars k s n).toFinset) =
      Function.update (fun n => (vars n).toFinset) k s.toFinset :=
  Function.comp_update toFinset vars k s

/-- **One change** does to the elements what it does to finite sets. -/
theorem apply_toFinset (applied : c.apply vars = some vars') :
    (fun k => (vars' k).toFinset) = c.ideal fun k => (vars k).toFinset := by
  cases c with
  | make k room =>
    obtain ⟨s, found, rfl⟩ := Option.map_eq_some_iff.mp applied
    rw [withRoomFor?, Option.ite_none_right_eq_some] at found
    rw [toFinset_update, ← Option.some.inj found.2]
    rfl
  | set k i | clear k i | or k j | andNot k j | copy k j =>
    cases applied
    simp only [toFinset_update, ideal, toFinset_insert, toFinset_erase, toFinset_union,
      toFinset_diff, toFinset_copy]

theorem run_eq_none_iff (changes : List Change) (vars : Nat → BitSet) :
    changes.foldlM apply vars = none ↔ ∃ c ∈ changes, c.LacksRoom := by
  induction changes generalizing vars with
  | nil => simp
  | cons c rest ih =>
    rw [List.foldlM_cons, List.exists_mem_cons_iff, ← apply_eq_none_iff vars]
    cases applied : c.apply vars with
    | none => simp
    | some next => simpa using ih next

/-- **A history of changes** does to the elements what it does to finite sets. -/
theorem run_toFinset {changes : List Change} (run : changes.foldlM apply vars = some vars') :
    (fun k => (vars' k).toFinset) = changes.foldl ideal fun k => (vars k).toFinset := by
  induction changes generalizing vars with
  | nil =>
    cases run
    rfl
  | cons c rest ih =>
    obtain ⟨next, applied, run⟩ := Option.bind_eq_some_iff.mp run
    rw [List.foldl_cons, ← apply_toFinset applied]
    exact ih run

end Change

/-- Sets can be made with room for as many elements as there are addresses for words. -/
theorem withRoomFor?_of_le {n : Int} (nonneg : 0 ≤ n) (small : n ≤ 0x8000000000000) :
    withRoomFor? n = some withRoom := by
  have wrapped : Int.bmod (n + 63) 0x10000000000000000 = n + 63 :=
    Int.bmod_eq_of_le (by omega) (by omega)
  rw [withRoomFor?, roomFor, wrapped, Int.tdiv_eq_ediv_of_nonneg (by omega), if_pos (by omega)]

end JavaMinus.BitSet
