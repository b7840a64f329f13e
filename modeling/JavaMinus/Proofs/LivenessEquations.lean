import JavaMinus.Proofs.BitSetElements
import JavaMinus.Proofs.BoundedLoops
import JavaMinus.Proofs.ControlFlow

/-!
# Liveness solves its equations

The sets that `liveness` finds satisfy the equations of liveness: a register is
live before an instruction when the instruction reads it, or when it is live
after the instruction and not written there (`has_before_iff`), and it is live
after an instruction when it is live before one of those that may follow
(`liveOut_iff`).

The sweeps start from empty sets. As long as every set is contained in what the
equations ask for, a sweep only adds elements (`Rising.after_sweep`), so a sweep that
changes something raises the number of elements (`Swept.sweep`). There are not more elements
than the bound on the sweeps, which is therefore never reached
(`sweepRounds_ends`). What the sweeps find is also in every other solution of
the equations (`Closed.of_sweepRounds`). A register is therefore found to be live
exactly if a path leads to an instruction that reads it and nothing on the path
writes it before (`liveIn_iff_liveAlong`).
-/

namespace JavaMinus.Code

open List

variable {i c : Nat} {inst : Inst} {name : String}

/-! ## The cells of registers -/

theorem lastDeclared_le (name : String) (vars : List Var) (start found : Nat) :
    lastDeclared name start found vars ≤ max found (start + vars.length) := by
  induction vars generalizing start found with
  | nil => simp [lastDeclared]
  | cons v rest ih =>
    refine (ih (start + 1) (if v.name = name then start else found)).trans ?_
    simp only [length_cons]
    split <;> omega

theorem cellOf_le (vars : List Var) (name : String) : cellOf vars name ≤ vars.length := by
  simpa [cellOf] using lastDeclared_le name vars 0 0

theorem getElem?_lastDeclared (name : String) (vars : List Var) (start found : Nat) :
    (∃ v, vars[lastDeclared name start found vars - start]? = some v ∧ v.name = name ∧
      start ≤ lastDeclared name start found vars) ∨
    (lastDeclared name start found vars = found ∧ name ∉ vars.map (·.name)) := by
  induction vars generalizing start found with
  | nil => exact .inr ⟨rfl, by simp⟩
  | cons v rest ih =>
    rw [lastDeclared]
    rcases ih (start + 1) (if v.name = name then start else found) with
      ⟨u, here, same, later⟩ | ⟨kept, absent⟩
    · refine .inl ⟨u, ?_, same, by omega⟩
      generalize lastDeclared name (start + 1) _ rest = k at here later ⊢
      rw [show k - start = (k - (start + 1)) + 1 by omega]
      simpa using here
    · rw [kept]
      by_cases same : v.name = name
      · exact .inl ⟨v, by simp [same], same, by simp [same]⟩
      · refine .inr ⟨if_neg same, ?_⟩
        simp only [map_cons, mem_cons, not_or]
        exact ⟨fun h => same h.symm, absent⟩

theorem getElem?_cellOf {vars : List Var} (declared : name ∈ vars.map (·.name)) :
    ∃ v, vars[cellOf vars name]? = some v ∧ v.name = name := by
  rcases getElem?_lastDeclared name vars 0 0 with ⟨v, here, same, _⟩ | ⟨_, absent⟩
  · exact ⟨v, by simpa [cellOf] using here, same⟩
  · exact absurd declared absent

theorem cellOf_inj {vars : List Var} {first second : String}
    (declared₁ : first ∈ vars.map (·.name)) (declared₂ : second ∈ vars.map (·.name))
    (same : cellOf vars first = cellOf vars second) : first = second := by
  obtain ⟨v₁, here₁, rfl⟩ := getElem?_cellOf declared₁
  obtain ⟨v₂, here₂, rfl⟩ := getElem?_cellOf declared₂
  rw [same, here₂] at here₁
  cases here₁
  rfl

/-! ## Sets before instructions -/

/-- The cell `c` is in the set before instruction `i`. -/
def has (before : Array BitSet) (i c : Nat) : Prop := (before.getD i .empty).contains c = true

/-- Every set of the first array is contained in that of the second. -/
def Contained (before later : Array BitSet) : Prop := ∀ i c, has before i c → has later i c

namespace Contained

theorem refl (before : Array BitSet) : Contained before before := fun _ _ h => h

theorem trans {first second third : Array BitSet} (one : Contained first second)
    (two : Contained second third) : Contained first third := fun i c h => two i c (one i c h)

end Contained

theorem contains_liveAfter (s : FlowStep) (before : Array BitSet) (c : Nat) :
    (s.liveAfter before).contains c = true ↔ ∃ k ∈ s.succs, has before k c := by
  have general : ∀ (succs : List Nat) (acc : BitSet),
      (succs.foldl (fun acc k => acc.union (before.getD k .empty)) acc).contains c = true ↔
        acc.contains c = true ∨ ∃ k ∈ succs, has before k c := by
    intro succs
    induction succs with
    | nil => simp
    | cons k rest ih =>
      intro acc
      simp only [foldl_cons, ih, BitSet.contains_union, Bool.or_eq_true, mem_cons,
        exists_eq_or_imp, has, or_assoc]
  rw [FlowStep.liveAfter, general]
  simp

theorem contains_liveBefore (s : FlowStep) (after : BitSet) (c : Nat) :
    (s.liveBefore after).contains c = true ↔
      c ∈ s.reads ∨ (s.kills ≠ some c ∧ after.contains c = true) := by
  have general : ∀ (reads : List Nat) (acc : BitSet),
      (reads.foldl BitSet.insert acc).contains c = true ↔ c ∈ reads ∨ acc.contains c = true := by
    intro reads
    induction reads with
    | nil => simp
    | cons k rest ih =>
      intro acc
      simp only [foldl_cons, ih, BitSet.contains_insert, Bool.or_eq_true,
        decide_eq_true_eq, mem_cons]
      constructor
      · rintro (later | here | old)
        · exact .inl (.inr later)
        · exact .inl (.inl here.symm)
        · exact .inr old
      · rintro ((here | later) | old)
        · exact .inr (.inl here.symm)
        · exact .inl later
        · exact .inr (.inr old)
  rw [FlowStep.liveBefore, general]
  cases s.kills with
  | none => simp
  | some d => simp [BitSet.contains_erase, and_comm]

/-- What the equations ask for before an instruction, when sets are as given. -/
def Wanted (steps : Array FlowStep) (before : Array BitSet) (i c : Nat) : Prop :=
  c ∈ (steps.getD i default).reads ∨
    ((steps.getD i default).kills ≠ some c ∧ ∃ k ∈ (steps.getD i default).succs, has before k c)

section Sweeps

variable {steps : Array FlowStep} {before : Array BitSet} {bound : Nat}

theorem Wanted.mono {later : Array BitSet} (sub : Contained before later)
    (wanted : Wanted steps before i c) : Wanted steps later i c := by
  rcases wanted with read | ⟨kept, k, member, live⟩
  · exact .inl read
  · exact .inr ⟨kept, k, member, sub k c live⟩

/-- The sets with that of one instruction brought up to date. -/
def refresh (steps : Array FlowStep) (before : Array BitSet) (i : Nat) : Array BitSet :=
  before.setIfInBounds i
    ((steps.getD i default).liveBefore ((steps.getD i default).liveAfter before))

theorem sweep_succ (n : Nat) (before : Array BitSet) :
    sweep steps (n + 1) before = sweep steps n (refresh steps before n) := rfl

@[simp] theorem size_refresh (before : Array BitSet) (i : Nat) :
    (refresh steps before i).size = before.size := by
  simp [refresh]

@[simp] theorem size_sweep (n : Nat) (before : Array BitSet) :
    (sweep steps n before).size = before.size := by
  induction n generalizing before with
  | zero => rfl
  | succ n ih => rw [sweep_succ, ih, size_refresh]

theorem has_refresh_self (inside : i < before.size) (c : Nat) :
    has (refresh steps before i) i c ↔ Wanted steps before i c := by
  have found : (refresh steps before i).getD i .empty =
      (steps.getD i default).liveBefore ((steps.getD i default).liveAfter before) := by
    simp [refresh, Array.getD, inside]
  rw [has, found, contains_liveBefore, contains_liveAfter]
  rfl

theorem has_refresh_of_ne {j : Nat} (other : j ≠ i) (c : Nat) :
    has (refresh steps before i) j c ↔ has before j c := by
  have found : (refresh steps before i).getD j .empty = before.getD j .empty := by
    simp only [refresh, Array.getD_eq_getD_getElem?]
    rw [Array.getElem?_setIfInBounds_ne (Ne.symm other)]
  rw [has, has, found]

/-- No set holds more than the equations ask for. -/
def Rising (steps : Array FlowStep) (before : Array BitSet) : Prop :=
  ∀ i c, has before i c → Wanted steps before i c

theorem Rising.contained_refresh (rising : Rising steps before) (inside : i < before.size) :
    Contained before (refresh steps before i) := by
  intro j c live
  by_cases same : j = i
  · subst same
    exact (has_refresh_self inside c).mpr (rising j c live)
  · exact (has_refresh_of_ne same c).mpr live

theorem Rising.after_refresh (rising : Rising steps before) (inside : i < before.size) :
    Rising steps (refresh steps before i) := by
  have sub := rising.contained_refresh inside
  intro j c live
  by_cases same : j = i
  · subst same
    exact ((has_refresh_self inside c).mp live).mono sub
  · exact (rising j c ((has_refresh_of_ne same c).mp live)).mono sub

/-- A sweep adds to sets that hold no more than the equations ask for, and they
still do not. -/
theorem Rising.after_sweep {n : Nat} (rising : Rising steps before) (inside : n ≤ before.size) :
    Contained before (sweep steps n before) ∧ Rising steps (sweep steps n before) := by
  induction n generalizing before with
  | zero => exact ⟨.refl before, rising⟩
  | succ n ih =>
    have next := ih (rising.after_refresh inside) (by simpa using Nat.le_of_succ_le inside)
    exact ⟨(rising.contained_refresh inside).trans next.1, next.2⟩

theorem Rising.wanted_of_sweep {n : Nat} (rising : Rising steps before) (inside : n ≤ before.size)
    (still : Contained (sweep steps n before) before) (below : i < n)
    (wanted : Wanted steps before i c) : has before i c := by
  induction n generalizing before with
  | zero => exact absurd below (Nat.not_lt_zero i)
  | succ n ih =>
    have rising' := rising.after_refresh inside
    have inside' : n ≤ (refresh steps before n).size := by
      simpa using Nat.le_of_succ_le inside
    have grows := rising.contained_refresh inside
    have back : Contained (refresh steps before n) before :=
      (rising'.after_sweep inside').1.trans still
    rcases Nat.lt_succ_iff_lt_or_eq.mp below with earlier | rfl
    · exact back i c (ih rising' inside' (still.trans grows) earlier (wanted.mono grows))
    · exact back i c ((has_refresh_self inside c).mpr wanted)

/-- A predicate on places and cells that the equations lead back to: it holds of
what they ask for when it holds of what the sets hold. -/
def Closed (steps : Array FlowStep) (P : Nat → Nat → Prop) : Prop :=
  ∀ i c, (c ∈ (steps.getD i default).reads ∨
    ((steps.getD i default).kills ≠ some c ∧ ∃ k ∈ (steps.getD i default).succs, P k c)) → P i c

theorem Closed.after_sweep {P : Nat → Nat → Prop} (closed : Closed steps P) {n : Nat}
    (inside : n ≤ before.size) (within : ∀ i c, has before i c → P i c) :
    ∀ i c, has (sweep steps n before) i c → P i c := by
  induction n generalizing before with
  | zero => exact within
  | succ n ih =>
    refine ih (by simpa using Nat.le_of_succ_le inside) fun i c live => ?_
    by_cases same : i = n
    · subst same
      rcases (has_refresh_self inside c).mp live with read | ⟨kept, k, member, later⟩
      · exact closed i c (.inl read)
      · exact closed i c (.inr ⟨kept, k, member, within k c later⟩)
    · exact within i c ((has_refresh_of_ne same c).mp live)

/-- The elements of all sets that are below a bound. -/
def held (before : Array BitSet) (bound : Nat) : Finset (Nat × Nat) :=
  (Finset.range before.size ×ˢ Finset.range bound).filter fun p =>
    (before.getD p.1 .empty).contains p.2 = true

theorem mem_held : (i, c) ∈ held before bound ↔ (i < before.size ∧ c < bound) ∧ has before i c := by
  simp [held, has]

theorem card_held_le (before : Array BitSet) (bound : Nat) :
    (held before bound).card ≤ before.size * bound := by
  refine (Finset.card_filter_le _ _).trans ?_
  rw [Finset.card_product, Finset.card_range, Finset.card_range]

theorem not_has_of_size_le (outside : before.size ≤ i) (c : Nat) : ¬ has before i c := by
  simp [has, Array.getD, Nat.not_lt.mpr outside]

theorem sameSets_iff {later : Array BitSet} (sized : later.size = before.size) :
    sameSets before later = true ↔ ∀ i c, has before i c ↔ has later i c := by
  simp only [sameSets, all_eq_true, mem_range, BitSet.equal_iff]
  constructor
  · intro same i c
    rcases Nat.lt_or_ge i before.size with inside | outside
    · rw [has, has, same i inside]
    · exact iff_of_false (not_has_of_size_le outside c) (not_has_of_size_le (sized ▸ outside) c)
  · intro same i _ c
    exact Bool.eq_iff_iff.mpr (same i c)

/-- The sets solve the equations. -/
def Solved (steps : Array FlowStep) (before : Array BitSet) : Prop :=
  ∀ i c, has before i c ↔ Wanted steps before i c

theorem not_wanted_of_size_le (outside : steps.size ≤ i) (c : Nat) : ¬ Wanted steps before i c := by
  simp [Wanted, Array.getD, Nat.not_lt.mpr outside, default, instInhabitedFlowStep.default]

/-- What holds in the course of the sweeps, where all elements are below a bound. -/
structure Swept (steps : Array FlowStep) (bound : Nat) (before : Array BitSet) : Prop where
  sized : before.size = steps.size
  rising : Rising steps before
  bounded : ∀ i c, has before i c → c < bound

/-- How many elements can still be added. -/
def room (steps : Array FlowStep) (bound : Nat) (before : Array BitSet) : Nat :=
  steps.size * bound - (held before bound).card

theorem Swept.sweep (reads : Closed steps fun _ c => c < bound) (swept : Swept steps bound before)
    (differ : ¬ sameSets before (sweep steps steps.size before) = true) :
    Swept steps bound (sweep steps steps.size before) ∧
      room steps bound (sweep steps steps.size before) < room steps bound before := by
  have inside : steps.size ≤ before.size := swept.sized.ge
  obtain ⟨grows, rising⟩ := swept.rising.after_sweep inside
  have bounded := reads.after_sweep inside swept.bounded
  have size : (Code.sweep steps steps.size before).size = before.size := size_sweep _ _
  refine ⟨⟨size.trans swept.sized, rising, bounded⟩, ?_⟩
  have more : held before bound ⊂ held (Code.sweep steps steps.size before) bound := by
    refine Finset.ssubset_iff_subset_ne.mpr ⟨fun ⟨i, c⟩ member => ?_, fun equal => differ ?_⟩
    · obtain ⟨range, live⟩ := mem_held.mp member
      exact mem_held.mpr ⟨by simpa using range, grows i c live⟩
    · refine (sameSets_iff size).mpr fun i c => ⟨grows i c, fun live => ?_⟩
      rcases Nat.lt_or_ge i before.size with below | outside
      · have member : (i, c) ∈ held (Code.sweep steps steps.size before) bound :=
          mem_held.mpr ⟨⟨by simpa using below, bounded i c live⟩, live⟩
        exact (mem_held.mp (equal ▸ member)).2
      · exact absurd live (not_has_of_size_le (by simpa using outside) c)
  have less := Finset.card_lt_card more
  have most := card_held_le (Code.sweep steps steps.size before) bound
  rw [size, swept.sized] at most
  unfold room
  omega

theorem Swept.solved (swept : Swept steps bound before)
    (same : sameSets before (Code.sweep steps steps.size before) = true) : Solved steps before := by
  have size : (Code.sweep steps steps.size before).size = before.size := size_sweep _ _
  have still : Contained (Code.sweep steps steps.size before) before :=
    fun i c live => ((sameSets_iff size).mp same i c).mpr live
  refine fun i c => ⟨swept.rising i c, fun wanted => ?_⟩
  rcases Nat.lt_or_ge i steps.size with below | outside
  · exact swept.rising.wanted_of_sweep swept.sized.ge still below wanted
  · exact absurd wanted (not_wanted_of_size_le outside c)

/-- The sweeps end in a solution, within a bound that is as large as the number of
elements that can still be added. -/
theorem sweepRounds_ends (reads : Closed steps fun _ c => c < bound)
    (swept : Swept steps bound before) (rounds : Nat) (enough : steps.size * bound ≤ rounds) :
    Solved steps (sweepRounds steps rounds before) ∧
      ∃ n ≤ steps.size * bound, LoopEnds (Code.sweep steps steps.size)
        (fun b => sameSets b (Code.sweep steps steps.size b) = true) before n
        (sweepRounds steps rounds before) := by
  obtain ⟨n, most, last, ends, swept'⟩ :=
    exists_loopEnds (Swept steps bound) (room steps bound) (fun _ => Swept.sweep reads) swept
  have most' : n ≤ steps.size * bound := most.trans (Nat.sub_le _ _)
  have found : sweepRounds steps rounds before = last := by
    refine ends.of_fuel (sweepRounds steps) id (fun r y same => ?_) (fun r y differ => ?_)
      (most'.trans enough)
    · cases r with
      | zero => rfl
      | succ r => simp [sweepRounds, same]
    · simp [sweepRounds, differ]
  rw [found]
  exact ⟨swept'.solved ends.ended, n, most', ends⟩

theorem Closed.of_sweepRounds {P : Nat → Nat → Prop} (closed : Closed steps P) (rounds : Nat)
    (sized : before.size = steps.size) (within : ∀ i c, has before i c → P i c)
    (live : has (sweepRounds steps rounds before) i c) : P i c := by
  induction rounds generalizing before with
  | zero => exact within i c live
  | succ rounds ih =>
    rw [sweepRounds] at live
    split at live
    · exact within i c live
    · exact ih (by simpa using sized) (closed.after_sweep sized.ge within) live

theorem size_sweepRounds (rounds : Nat) (before : Array BitSet) :
    (sweepRounds steps rounds before).size = before.size := by
  induction rounds generalizing before with
  | zero => rfl
  | succ rounds ih =>
    rw [sweepRounds]
    split
    · rfl
    · rw [ih, size_sweep]

end Sweeps

/-! ## The sets of a piece of code -/

section

variable (vars : List Var) (code : List Inst)

/-- The register is in the set before an instruction. -/
def LiveIn (i : Nat) (name : String) : Prop :=
  has (liveness vars code).before i (cellOf vars name)

/-- The register is in the set after an instruction. -/
def LiveOut (i : Nat) (name : String) : Prop :=
  (liveness vars code).isLiveAfter vars i name = true

variable {vars code}

theorem getD_flowSteps (here : code[i]? = some inst) :
    (flowSteps vars code).toArray.getD i default = FlowStep.ofInst vars code i inst := by
  simp [Array.getD_eq_getD_getElem?, flowSteps, List.getElem?_zipIdx, here]

@[simp] theorem length_flowSteps : (flowSteps vars code).length = code.length := by
  simp [flowSteps]

theorem not_has_replicate (n i c : Nat) : ¬ has (Array.replicate n .empty) i c := by
  simp only [has, Array.getD_eq_getD_getElem?, Array.getElem?_replicate]
  split <;> simp

/-- **The sweeps over any code end** in a solution of its equations. -/
theorem liveness_ends (vars : List Var) (code : List Inst) :
    Solved (flowSteps vars code).toArray (liveness vars code).before ∧
      ∃ n ≤ code.length * (vars.length + 1), LoopEnds (sweep (flowSteps vars code).toArray code.length)
        (fun b => sameSets b (sweep (flowSteps vars code).toArray code.length b) = true)
        (Array.replicate code.length .empty) n (liveness vars code).before := by
  have reads : Closed (flowSteps vars code).toArray fun _ c => c < vars.length + 1 := by
    rintro i c (read | ⟨_, _, _, bounded⟩)
    · cases here : code[i]? with
      | none =>
        simp [Array.getD_eq_getD_getElem?, flowSteps, List.getElem?_zipIdx, here, default,
          instInhabitedFlowStep.default] at read
      | some inst =>
        rw [getD_flowSteps here] at read
        obtain ⟨u, _, rfl⟩ := mem_map.mp read
        exact Nat.lt_succ_of_le (cellOf_le vars u.name)
    · exact bounded
  have size : (flowSteps vars code).toArray.size = code.length := by simp
  have blank : Swept (flowSteps vars code).toArray (vars.length + 1)
      (Array.replicate code.length .empty) :=
    ⟨by simp, fun i c live => absurd live (not_has_replicate _ i c),
      fun i c live => absurd live (not_has_replicate _ i c)⟩
  have ends := sweepRounds_ends reads blank (code.length * (vars.length + 1) + 1)
    (by rw [size]; omega)
  rw [size] at ends
  exact ends

theorem solved_liveness : Solved (flowSteps vars code).toArray (liveness vars code).before :=
  (liveness_ends vars code).1

theorem LiveIn.lt (live : LiveIn vars code i name) : i < code.length := by
  by_contra outside
  refine not_has_of_size_le ?_ _ live
  have size : (liveness vars code).before.size = code.length := by
    simp [liveness, size_sweepRounds]
  rw [size]
  exact Nat.not_lt.mp outside

theorem contains_after_iff (here : code[i]? = some inst) (c : Nat) :
    ((liveness vars code).after.getD i .empty).contains c = true ↔
      ∃ k ∈ allSuccessors code i inst, has (liveness vars code).before k c := by
  have found : (liveness vars code).after.getD i .empty =
      (FlowStep.ofInst vars code i inst).liveAfter (liveness vars code).before := by
    simp [liveness, Array.getD_eq_getD_getElem?, flowSteps, List.getElem?_zipIdx, here]
  rw [found, contains_liveAfter]
  rfl

theorem has_before_iff (here : code[i]? = some inst) (c : Nat) :
    has (liveness vars code).before i c ↔ c ∈ inst.uses.map (fun u => cellOf vars u.name) ∨
      (inst.dst?.map (fun d => cellOf vars d.name) ≠ some c ∧
        ((liveness vars code).after.getD i .empty).contains c = true) := by
  rw [solved_liveness i c, Wanted, getD_flowSteps here, contains_after_iff here]
  rfl

/-- **Live after an instruction** is what is live before one that control can go
to. -/
theorem liveOut_iff (here : code[i]? = some inst) (name : String) :
    LiveOut vars code i name ↔ ∃ k ∈ allSuccessors code i inst, LiveIn vars code k name :=
  contains_after_iff here (cellOf vars name)

theorem liveIn_of_use (here : code[i]? = some inst) {r : Reg} (use : r ∈ inst.uses) :
    LiveIn vars code i r.name :=
  (has_before_iff here _).mpr (.inl (mem_map_of_mem use))

theorem liveIn_of_liveOut (here : code[i]? = some inst) (declared : name ∈ vars.map (·.name))
    (written : ∀ d ∈ inst.dst?, d.name ∈ vars.map (·.name) ∧ d.name ≠ name)
    (live : LiveOut vars code i name) : LiveIn vars code i name := by
  refine (has_before_iff here _).mpr (.inr ⟨?_, live⟩)
  intro same
  obtain ⟨d, isDst, cell⟩ := Option.map_eq_some_iff.mp same
  exact (written d isDst).2 (cellOf_inj (written d isDst).1 declared cell)

end

/-! ## Paths to a use -/

/-- Control may go on with the next instruction. -/
def Inst.fallsThrough : Inst → Bool
  | .goto _ => false
  | .ret _ => false
  | .retVoid => false
  | _ => true

/-- Control may go from an instruction at position `i` to position `k`. -/
def Inst.LeadsTo (code : List Inst) (inst : Inst) (i k : Nat) : Prop :=
  (inst.fallsThrough = true ∧ k = i + 1) ∨ ∃ t, inst.target? = some t ∧ k = labelAt code t

/-- A register is live at a position: some path leads from there to an instruction
that reads it, and nothing before that on the path writes it. -/
inductive LiveAt (code : List Inst) : Nat → String → Prop where
  | use {i : Nat} {inst : Inst} {r : Reg} :
      code[i]? = some inst → r ∈ inst.uses → LiveAt code i r.name
  | pass {i k : Nat} {inst : Inst} {n : String} :
      code[i]? = some inst → (∀ d ∈ inst.dst?, d.name ≠ n) → inst.LeadsTo code i k →
      LiveAt code k n → LiveAt code i n

section Paths

variable {vars : List Var} {code : List Inst} {n : String}

theorem LiveAt.lt (live : LiveAt code i n) : i < code.length := by
  cases live with
  | use here _ | pass here _ _ _ => exact (List.getElem?_eq_some_iff.mp here).1

theorem LiveAt.occurs (live : LiveAt code i n) : n ∈ occurring code := by
  induction live with
  | use here read => exact mem_occurring_of_use here read
  | pass _ _ _ _ ih => exact ih

theorem mem_nextPos_iff {size k : Nat} : k ∈ nextPos size i ↔ k = i + 1 ∧ k < size := by
  unfold nextPos
  split
  · simp only [mem_singleton]
    omega
  · simp only [not_mem_nil, false_iff]
    omega

theorem mem_allSuccessors_iff (wf : WellFormed vars code) {k : Nat} (here : code[i]? = some inst) :
    k ∈ allSuccessors code i inst ↔ inst.LeadsTo code i k ∧ k < code.length := by
  have position : ∀ {t}, inst.target? = some t →
      labelPos code t = labelAt code t ∧ labelAt code t < code.length := fun target =>
    have member := wf.label_mem here target
    ⟨labelPos_eq wf.labels member, idxOf_lt_length_of_mem member⟩
  cases inst with
  | ret | retVoid => simp [allSuccessors, successors, Inst.LeadsTo, Inst.fallsThrough, Inst.target?]
  | goto t =>
    obtain ⟨same, inside⟩ := position rfl
    simp only [allSuccessors, successors, Inst.LeadsTo, Inst.fallsThrough, Inst.target?,
      mem_singleton, same, Option.some.injEq]
    constructor
    · rintro rfl
      exact ⟨.inr ⟨t, rfl, rfl⟩, inside⟩
    · rintro ⟨⟨next, _⟩ | ⟨_, rfl, rfl⟩, _⟩
      · cases next
      · rfl
  | branch c t =>
    obtain ⟨same, inside⟩ := position rfl
    simp only [allSuccessors, successors, Inst.LeadsTo, Inst.fallsThrough, Inst.target?,
      mem_cons, same, mem_nextPos_iff, Option.some.injEq]
    constructor
    · rintro (rfl | ⟨rfl, next⟩)
      · exact ⟨.inr ⟨t, rfl, rfl⟩, inside⟩
      · exact ⟨.inl ⟨trivial, rfl⟩, next⟩
    · rintro ⟨⟨_, rfl⟩ | ⟨_, rfl, rfl⟩, next⟩
      · exact .inr ⟨rfl, next⟩
      · exact .inl rfl
  | _ =>
    simp [allSuccessors, successors, Inst.LeadsTo, Inst.fallsThrough, Inst.target?, mem_nextPos_iff]

/-- A register is live at a position, where jumps go as the analysis has it. Labels may be missing
or occur twice. -/
inductive LiveAlong (code : List Inst) : Nat → String → Prop where
  | use {i : Nat} {inst : Inst} {r : Reg} :
      code[i]? = some inst → r ∈ inst.uses → LiveAlong code i r.name
  | pass {i k : Nat} {inst : Inst} {n : String} :
      code[i]? = some inst → (∀ d ∈ inst.dst?, d.name ≠ n) → k ∈ allSuccessors code i inst →
      LiveAlong code k n → LiveAlong code i n

theorem LiveAlong.occurs (live : LiveAlong code i n) : n ∈ occurring code := by
  induction live with
  | use here read => exact mem_occurring_of_use here read
  | pass _ _ _ _ ih => exact ih

theorem liveIn_of_liveAlong (declared : ∀ n ∈ occurring code, n ∈ vars.map (·.name))
    (live : LiveAlong code i n) : LiveIn vars code i n := by
  induction live with
  | use here read => exact liveIn_of_use here read
  | pass here unwritten member later ih =>
    refine liveIn_of_liveOut here (declared _ later.occurs)
      (fun d dst => ⟨declared _ (mem_occurring_of_dst here dst), unwritten d dst⟩) ?_
    exact (liveOut_iff here _).mpr ⟨_, member, ih⟩

theorem exists_liveAlong_of_has (live : has (liveness vars code).before i c) :
    ∃ n, cellOf vars n = c ∧ LiveAlong code i n := by
  have closed : Closed (flowSteps vars code).toArray
      fun i c => ∃ n, cellOf vars n = c ∧ LiveAlong code i n := by
    intro i c found
    cases here : code[i]? with
    | none =>
      simp [Array.getD_eq_getD_getElem?, flowSteps, List.getElem?_zipIdx, here, default,
        instInhabitedFlowStep.default] at found
    | some inst =>
      rw [getD_flowSteps here] at found
      rcases found with read | ⟨kept, k, member, n, rfl, later⟩
      · obtain ⟨r, use, rfl⟩ := mem_map.mp read
        exact ⟨r.name, rfl, .use here use⟩
      · refine ⟨n, rfl, .pass here (fun d dst same => kept ?_) member later⟩
        rw [FlowStep.ofInst, dst, Option.map_some, same]
  exact closed.of_sweepRounds _ (by simp) (fun i c h => absurd h (not_has_replicate _ i c)) live

/-- **The analysis finds the live registers** where all registers are declared: those that some
path leads from to a use. -/
theorem liveIn_iff_liveAlong (declared : ∀ n ∈ occurring code, n ∈ vars.map (·.name))
    (known : n ∈ vars.map (·.name)) : LiveIn vars code i n ↔ LiveAlong code i n := by
  refine ⟨fun live => ?_, liveIn_of_liveAlong declared⟩
  obtain ⟨n', same, live'⟩ := exists_liveAlong_of_has live
  rwa [← cellOf_inj (declared _ live'.occurs) known same]

theorem liveAlong_iff_liveAt (wf : WellFormed vars code) :
    LiveAlong code i n ↔ LiveAt code i n := by
  constructor
  · intro live
    induction live with
    | use here read => exact .use here read
    | pass here unwritten member _ ih =>
      exact .pass here unwritten ((mem_allSuccessors_iff wf here).mp member).1 ih
  · intro live
    induction live with
    | use here read => exact .use here read
    | pass here unwritten leads later ih =>
      exact .pass here unwritten ((mem_allSuccessors_iff wf here).mpr ⟨leads, later.lt⟩) ih

theorem liveIn_of_liveAt (wf : WellFormed vars code) (live : LiveAt code i n) :
    LiveIn vars code i n :=
  liveIn_of_liveAlong (fun _ => wf.mem_vars) ((liveAlong_iff_liveAt wf).mpr live)

/-- **The analysis finds the live registers** of well-formed code. -/
theorem liveIn_iff_liveAt (wf : WellFormed vars code) (occurs : n ∈ occurring code) :
    LiveIn vars code i n ↔ LiveAt code i n :=
  (liveIn_iff_liveAlong (fun _ => wf.mem_vars) (wf.mem_vars occurs)).trans (liveAlong_iff_liveAt wf)

end Paths

end JavaMinus.Code
