import Mathlib
import JavaMinus.BitSet

/-!
# The elements of a set of small numbers

`BitSet.contains` is the view through which sets are reasoned about. Every
operation is described by what it does to the elements, whatever words hold them:
`contains_insert`, `contains_erase`, `contains_union`. Sets are `equal` exactly
when they have the same elements (`equal_iff`), and `toList` lists the elements
(`mem_toList`) in increasing order (`pairwise_elements`).
-/

namespace JavaMinus.BitSet

open List

variable {j i : Nat}

/-! ## Bits of a word -/

theorem toNat_bit (small : j < 64) : (bit j).toNat = 2 ^ j := by
  have fits : 2 ^ j < 2 ^ 64 := Nat.pow_lt_pow_right (by decide) small
  have index : j.toUInt64.toNat = j := by
    rw [Nat.toUInt64_eq, UInt64.toNat_ofNat']
    exact Nat.mod_eq_of_lt (small.trans (by decide))
  rw [bit, UInt64.toNat_shiftLeft, index, Nat.mod_eq_of_lt small, UInt64.toNat_one,
    Nat.one_shiftLeft]
  exact Nat.mod_eq_of_lt fits

theorem testBit_eq (w : UInt64) (small : j < 64) : testBit w j = w.toNat.testBit j := by
  have masked : (w &&& bit j).toNat = (w.toNat.testBit j).toNat * 2 ^ j := by
    rw [UInt64.toNat_and, toNat_bit small, Nat.and_two_pow]
  have zero : w &&& bit j = 0 ↔ w.toNat.testBit j = false := by
    rw [← UInt64.toNat_inj, masked]
    cases w.toNat.testBit j <;> simp
  rw [testBit]
  cases h : w.toNat.testBit j with
  | false => simp [zero.mpr h]
  | true =>
    have nonzero : w &&& bit j ≠ 0 := fun isZero => by simp [zero.mp isZero] at h
    simp [nonzero]

theorem testBit_bit (first : i < 64) (second : j < 64) : testBit (bit i) j = decide (i = j) := by
  rw [testBit_eq _ second, toNat_bit first, Nat.testBit_two_pow]

@[simp] theorem testBit_zero (j : Nat) : testBit 0 j = false := by
  simp [testBit]

theorem testBit_or (v w : UInt64) (small : j < 64) :
    testBit (v ||| w) j = (testBit v j || testBit w j) := by
  simp only [testBit_eq _ small, UInt64.toNat_or, Nat.testBit_or]

theorem testBit_and_not (v w : UInt64) (small : j < 64) :
    testBit (v &&& ~~~ w) j = (testBit v j && !testBit w j) := by
  have flipped : (~~~ w).toNat.testBit j = !w.toNat.testBit j := by
    have bits := BitVec.getLsbD_not (x := w.toBitVec) (i := j)
    simp only [small, decide_true, Bool.true_and] at bits
    exact bits
  simp only [testBit_eq _ small, UInt64.toNat_and, Nat.testBit_and, flipped]

theorem eq_of_testBit {v w : UInt64} (same : ∀ j < 64, testBit v j = testBit w j) : v = w := by
  refine UInt64.toBitVec_inj.mp (BitVec.eq_of_getLsbD_eq fun j small => ?_)
  have bits := same j small
  rw [testBit_eq _ small, testBit_eq _ small] at bits
  exact bits

theorem testBit_or_bit (w : UInt64) (first : i < 64) (second : j < 64) :
    testBit (w ||| bit i) j = (decide (i = j) || testBit w j) := by
  rw [testBit_or _ _ second, testBit_bit first second, Bool.or_comm]

theorem testBit_and_not_bit (w : UInt64) (first : i < 64) (second : j < 64) :
    testBit (w &&& ~~~ bit i) j = (testBit w j && decide (i ≠ j)) := by
  rw [testBit_and_not _ _ second, testBit_bit first second, decide_not]

/-! ## Single elements -/

theorem index_eq_iff : i = j ↔ i / 64 = j / 64 ∧ i % 64 = j % 64 := by
  omega

theorem mod_small (i : Nat) : i % 64 < 64 := Nat.mod_lt i (by decide)

@[simp] theorem contains_empty (i : Nat) : empty.contains i = false := by
  simp [contains, word, empty]

theorem getD_grow (w k : Nat) (words : List UInt64) : (grow w words).getD k 0 = words.getD k 0 := by
  rw [grow, getD_eq_getElem?_getD, getD_eq_getElem?_getD]
  by_cases inside : k < words.length
  · rw [List.getElem?_append_left inside]
  · rw [List.getElem?_append_right (Nat.not_lt.mp inside),
      List.getElem?_eq_none (Nat.not_lt.mp inside), List.getElem?_replicate]
    split <;> rfl

theorem length_grow (w : Nat) (words : List UInt64) : w < (grow w words).length := by
  simp only [grow, length_append, length_replicate]
  omega

theorem getD_modify (f : UInt64 → UInt64) (words : List UInt64) (w k : Nat)
    (fixed : w < words.length ∨ f 0 = 0) :
    (words.modify w f).getD k 0 = if w = k then f (words.getD k 0) else words.getD k 0 := by
  rw [getD_eq_getElem?_getD, List.getElem?_modify, getD_eq_getElem?_getD]
  by_cases same : w = k
  · subst same
    cases found : words[w]? with
    | some x => simp
    | none =>
      have outside : words.length ≤ w := List.getElem?_eq_none_iff.mp found
      rcases fixed with inside | zero
      · exact absurd inside (Nat.not_lt.mpr outside)
      · simp [zero]
  · simp [same]

theorem contains_insert (s : BitSet) (i j : Nat) :
    (s.insert i).contains j = (decide (i = j) || s.contains j) := by
  simp only [contains, word, insert, getD_modify _ _ _ _ (.inl (length_grow _ _)), getD_grow]
  by_cases same : i / 64 = j / 64
  · simp only [same, if_true, testBit_or_bit _ (mod_small i) (mod_small j)]
    simp [index_eq_iff (i := i) (j := j), same]
  · simp only [same, if_false]
    simp [index_eq_iff (i := i) (j := j), same]

theorem contains_erase (s : BitSet) (i j : Nat) :
    (s.erase i).contains j = (s.contains j && decide (i ≠ j)) := by
  have zero : (0 : UInt64) &&& ~~~ bit (i % 64) = 0 := UInt64.zero_and
  simp only [contains, word, erase, getD_modify (· &&& ~~~ bit (i % 64)) _ _ _ (.inr zero)]
  by_cases same : i / 64 = j / 64
  · simp only [same, if_true, testBit_and_not_bit _ (mod_small i) (mod_small j)]
    simp [index_eq_iff (i := i) (j := j), same]
  · simp only [same, if_false]
    simp [index_eq_iff (i := i) (j := j), same]

/-! ## Whole sets -/

theorem getD_orWords (xs ys : List UInt64) (k : Nat) :
    (orWords xs ys).getD k 0 = xs.getD k 0 ||| ys.getD k 0 := by
  induction xs, ys using orWords.induct generalizing k with
  | case1 ys => simp [orWords]
  | case2 xs nonempty => cases xs <;> simp [orWords]
  | case3 x xs y ys ih =>
    cases k with
    | zero => simp [orWords]
    | succ k => simpa [orWords] using ih k

theorem contains_union (s t : BitSet) (i : Nat) :
    (s.union t).contains i = (s.contains i || t.contains i) := by
  simp only [contains, word, union, getD_orWords, testBit_or _ _ (mod_small i)]

theorem sameWords_iff (xs ys : List UInt64) :
    sameWords xs ys = true ↔ ∀ k, xs.getD k 0 = ys.getD k 0 := by
  have zeros : ∀ ws : List UInt64, (ws.all (· == 0)) = true ↔ ∀ k, ws.getD k 0 = 0 := by
    intro ws
    simp only [all_eq_true, beq_iff_eq]
    constructor
    · intro all k
      rw [getD_eq_getElem?_getD]
      cases found : ws[k]? with
      | none => rfl
      | some x => exact all x (mem_of_getElem? found)
    · intro all x member
      obtain ⟨k, bound, rfl⟩ := getElem_of_mem member
      simpa [bound] using all k
  induction xs, ys using sameWords.induct with
  | case1 ys => simp [sameWords, zeros, eq_comm]
  | case2 xs nonempty =>
    cases xs with
    | nil => exact absurd rfl nonempty
    | cons x xs => simp only [sameWords, zeros, getD_nil]
  | case3 x xs y ys ih =>
    simp only [sameWords, Bool.and_eq_true, beq_iff_eq, ih]
    constructor
    · rintro ⟨first, rest⟩ k
      cases k with
      | zero => simpa using first
      | succ k => simpa using rest k
    · intro all
      exact ⟨by simpa using all 0, fun k => by simpa using all (k + 1)⟩

theorem equal_iff (s t : BitSet) : s.equal t = true ↔ ∀ i, s.contains i = t.contains i := by
  rw [equal, sameWords_iff]
  constructor
  · intro same i
    simp only [contains, word, same]
  · intro same k
    refine eq_of_testBit fun j small => ?_
    have element := same (64 * k + j)
    simp only [contains, word] at element
    rwa [show (64 * k + j) / 64 = k by omega, show (64 * k + j) % 64 = j by omega] at element

/-! ## The list of elements -/

theorem mem_bitsOf (w : UInt64) (j : Nat) : j ∈ bitsOf w ↔ j < 64 ∧ testBit w j = true := by
  rw [bitsOf]
  split
  · next zero => simp [zero]
  · simp [mem_filter]

theorem mem_elements (start : Nat) (words : List UInt64) (i : Nat) : i ∈ elements start words ↔
      start ≤ i ∧ testBit (words.getD ((i - start) / 64) 0) ((i - start) % 64) = true := by
  induction words generalizing start with
  | nil => simp [elements]
  | cons w ws ih =>
    simp only [elements, mem_append, mem_map, mem_bitsOf, ih]
    constructor
    · rintro (⟨j, ⟨small, on⟩, rfl⟩ | ⟨later, on⟩)
      · refine ⟨Nat.le_add_right _ _, ?_⟩
        rw [Nat.add_sub_cancel_left, Nat.div_eq_of_lt small, Nat.mod_eq_of_lt small]
        exact on
      · refine ⟨by omega, ?_⟩
        rw [show (i - start) / 64 = (i - (start + 64)) / 64 + 1 by omega,
          show (i - start) % 64 = (i - (start + 64)) % 64 by omega]
        exact on
    · rintro ⟨reached, on⟩
      by_cases here : i - start < 64
      · left
        rw [Nat.div_eq_of_lt here, Nat.mod_eq_of_lt here] at on
        exact ⟨i - start, ⟨here, on⟩, Nat.add_sub_cancel' reached⟩
      · right
        rw [show (i - start) / 64 = (i - (start + 64)) / 64 + 1 by omega,
          show (i - start) % 64 = (i - (start + 64)) % 64 by omega] at on
        exact ⟨by omega, on⟩

theorem mem_toList {s : BitSet} : i ∈ s.toList ↔ s.contains i = true := by
  simp [toList, mem_elements, contains, word]

theorem pairwise_elements (start : Nat) (words : List UInt64) :
    (elements start words).Pairwise (· < ·) := by
  induction words generalizing start with
  | nil => exact .nil
  | cons w ws ih =>
    have bits : (bitsOf w).Pairwise (· < ·) := by
      rw [bitsOf]
      split
      · exact .nil
      · exact pairwise_lt_range.filter _
    refine pairwise_append.mpr ⟨bits.map _ fun a b => Nat.add_lt_add_left (k := start), ih _, ?_⟩
    intro i first j second
    obtain ⟨k, member, rfl⟩ := mem_map.mp first
    have small := ((mem_bitsOf w k).mp member).1
    have later := ((mem_elements (start + 64) ws j).mp second).1
    omega

end JavaMinus.BitSet
