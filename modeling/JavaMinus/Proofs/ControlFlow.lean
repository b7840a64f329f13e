import JavaMinus.Proofs.Thinning

/-!
# Where control goes

Code is well formed (`WellFormed`) when every register is declared once, no label
occurs twice and every jump has a label to go to. In such code a jump goes to the only label of its name (`labelPos_eq`), and `successors`
names every position that a run can go to from an instruction
(`mem_successors_of_next`, `mem_successors_of_jump`), also when it is given what
is known of conditions, as long as that is true.
-/

namespace JavaMinus.Code

open List

variable {i : Nat} {n name t : String}

/-! ## Labels that occur once -/

/-- The name of a label. -/
def Inst.labelName? : Inst → Option String
  | .label n => some n
  | _ => none

theorem Inst.labelName?_eq_some {inst : Inst} : inst.labelName? = some n ↔ inst = .label n := by
  cases inst <;> simp [labelName?]

/-- The labels of code, in order. -/
def labelNames (code : List Inst) : List String := code.filterMap Inst.labelName?

/-- No label occurs twice. -/
def UniqueLabels (code : List Inst) : Prop := (labelNames code).Nodup

instance (code : List Inst) : Decidable (UniqueLabels code) :=
  inferInstanceAs (Decidable (labelNames code).Nodup)

theorem mem_labelNames {code : List Inst} : n ∈ labelNames code ↔ .label n ∈ code := by
  simp [labelNames, Inst.labelName?_eq_some]

theorem position_unique_of_nodup {ι : Type} {name? : ι → Option String} {code : List ι}
    (unique : (code.filterMap name?).Nodup) {j : Nat} {a b : ι} (first : code[i]? = some a)
    (second : code[j]? = some b) (isNamed : name? a = some n) (isNamed' : name? b = some n) :
    i = j := by
  rw [List.Nodup, pairwise_filterMap, pairwise_iff_getElem] at unique
  obtain ⟨bound₁, rfl⟩ := List.getElem?_eq_some_iff.mp first
  obtain ⟨bound₂, rfl⟩ := List.getElem?_eq_some_iff.mp second
  rcases Nat.lt_trichotomy i j with before | same | after
  · exact absurd rfl (unique i j bound₁ bound₂ before n isNamed n isNamed')
  · exact same
  · exact absurd rfl (unique j i bound₂ bound₁ after n isNamed' n isNamed)

theorem UniqueLabels.position_unique {code : List Inst} (unique : UniqueLabels code) {j : Nat}
    (first : code[i]? = some (.label n)) (second : code[j]? = some (.label n)) : i = j :=
  position_unique_of_nodup unique first second rfl rfl

theorem lastLabel_of_not_mem {code : List Inst} (absent : .label name ∉ code) (start found : Nat) :
    lastLabel name start found code = found := by
  induction code generalizing start with
  | nil => rfl
  | cons inst rest ih =>
    have later : .label name ∉ rest := fun h => absent (mem_cons_of_mem _ h)
    cases inst with
    | label n =>
      have other : n ≠ name := by
        rintro rfl
        exact absent mem_cons_self
      rw [lastLabel, if_neg other]
      exact ih later (start + 1)
    | _ => exact ih later (start + 1)

theorem lastLabel_of_get {code : List Inst} (here : code[i]? = some (.label name))
    (only : ∀ j, code[j]? = some (.label name) → j = i) (start found : Nat) :
    lastLabel name start found code = start + i := by
  induction code generalizing i start found with
  | nil => simp at here
  | cons inst rest ih =>
    cases i with
    | zero =>
      simp only [List.getElem?_cons_zero, Option.some.injEq] at here
      subst here
      have absent : .label name ∉ rest := by
        intro member
        obtain ⟨j, bound, same⟩ := getElem_of_mem member
        have twice := only (j + 1) (by simp [List.getElem?_eq_getElem bound, same])
        omega
      simp [lastLabel, lastLabel_of_not_mem absent]
    | succ i =>
      rw [List.getElem?_cons_succ] at here
      have rest_only : ∀ j, rest[j]? = some (.label name) → j = i := fun j h =>
        Nat.succ.inj (only (j + 1) (by simpa using h))
      have tail := fun found => ih here rest_only (start + 1) found
      cases inst with
      | label n => rw [lastLabel, tail]; omega
      | _ => rw [lastLabel, tail]; omega; simp

theorem labelPos_eq {code : List Inst} (unique : UniqueLabels code) (member : .label name ∈ code) :
    labelPos code name = labelAt code name := by
  have here := getElem?_labelAt member
  rw [labelPos, lastLabel_of_get here (fun _ there => unique.position_unique there here), Nat.zero_add]

/-! ## Well-formed code -/

/-- Code over declared registers in which every jump can be made. -/
structure WellFormed (vars : List Var) (code : List Inst) : Prop where
  declared : ∀ n ∈ occurring code, (vars.map (·.name)).count n = 1
  labels : UniqueLabels code
  targets : ∀ t ∈ jumpTargets code, .label t ∈ code

section WellFormed

variable {vars : List Var} {code : List Inst}

theorem mem_occurring_of_use {inst : Inst} (here : code[i]? = some inst) {r : Reg}
    (use : r ∈ inst.uses) : r.name ∈ occurring code := by
  refine mem_flatMap.mpr ⟨inst, mem_of_getElem? here, ?_⟩
  exact mem_map_of_mem (mem_append_right _ use)

theorem mem_occurring_of_dst {inst : Inst} (here : code[i]? = some inst) {d : Reg}
    (dst : d ∈ inst.dst?) : d.name ∈ occurring code := by
  refine mem_flatMap.mpr ⟨inst, mem_of_getElem? here, ?_⟩
  exact mem_map_of_mem (mem_append_left _ (Option.mem_toList.mpr dst))

theorem WellFormed.mem_vars (wf : WellFormed vars code) (occurs : n ∈ occurring code) :
    n ∈ vars.map (·.name) :=
  count_pos_iff.mp (by rw [wf.declared n occurs]; exact Nat.one_pos)

theorem WellFormed.label_mem (wf : WellFormed vars code) {inst : Inst} (here : code[i]? = some inst)
    (target : inst.target? = some t) : .label t ∈ code :=
  wf.targets t (mem_filterMap.mpr ⟨inst, mem_of_getElem? here, target⟩)

end WellFormed

/-! ## Successors -/

section

variable {w : World} {obj : Value} {read : String → Value} {heap : w.Heap}

theorem Effect.perform_ne_jump {a : Action} {dst : Option Reg} :
    Effect.perform w a dst heap ≠ .jump t := by
  unfold Effect.perform
  split <;> simp

theorem Inst.target?_of_jump {inst : Inst} (jumps : inst.effect w obj read heap = .jump t) :
    inst.target? = some t := by
  cases inst with
  | goto t' => cases jumps; rfl
  | branch c t' =>
    simp only [effect] at jumps
    split at jumps <;> cases jumps
    rfl
  | assign | unary | getField | label | ret | retVoid | hole => cases jumps
  | binary d op l r =>
    simp only [effect] at jumps
    split at jumps <;> cases jumps
  | _ => exact absurd jumps Effect.perform_ne_jump

/-- What is known of conditions agrees with the values that are read. -/
def Agrees (w : World) (known : Option Operand → Option Bool) (read : String → Value)
    (inst : Inst) : Prop :=
  ∀ c ∈ inst.operands, ∀ b, known c = some b → w.isTrue (operandValue read c) = b

variable {code : List Inst} {known : Option Operand → Option Bool} {inst : Inst}

theorem agrees_unknown : Agrees w (fun _ => none) read inst := by
  intro c _ b h
  cases h

theorem mem_nextPos {size : Nat} (inside : i + 1 < size) : i + 1 ∈ nextPos size i := by
  simp [nextPos, inside]

theorem lastLabel_lt (name : String) {start found : Nat} {code : List Inst}
    (inside : found < start + code.length) :
    lastLabel name start found code < start + code.length := by
  induction code generalizing start found with
  | nil => exact inside
  | cons inst rest ih =>
    have step : ∀ {found'}, found' < start + 1 + rest.length →
        lastLabel name (start + 1) found' rest < start + (rest.length + 1) := fun below => by
      have := ih below
      omega
    rw [length_cons] at inside ⊢
    cases inst with
    | label n =>
      rw [lastLabel]
      refine step ?_
      split <;> omega
    | _ => exact step (by omega)

theorem successors_lt {s : Nat} (here : code[i]? = some inst)
    (member : s ∈ successors code known i inst) : s < code.length := by
  have next : ∀ {s}, s ∈ nextPos code.length i → s < code.length := by
    intro s h
    unfold nextPos at h
    split at h
    · rwa [mem_singleton.mp h]
    · cases h
  have jump : ∀ t, labelPos code t < code.length := fun t => by
    have inside : i < code.length := (List.getElem?_eq_some_iff.mp here).1
    have found : 0 < 0 + code.length := by omega
    simpa [labelPos] using lastLabel_lt t found
  cases inst with
  | ret | retVoid => cases member
  | goto t => exact mem_singleton.mp member ▸ jump t
  | branch c t =>
    simp only [successors] at member
    split at member
    · exact mem_singleton.mp member ▸ jump t
    · exact next member
    · rcases mem_cons.mp member with rfl | later
      · exact jump t
      · exact next later
  | _ => exact next member

theorem mem_successors_of_next (agrees : Agrees w known read inst) {acts : List Action}
    {write : Option (String × Value)} {heap' : w.Heap}
    (goes : inst.effect w obj read heap = .next acts write heap') (inside : i + 1 < code.length) :
    i + 1 ∈ successors code known i inst := by
  cases inst with
  | ret | retVoid | goto => cases goes
  | branch c t =>
    have untrue : w.isTrue (operandValue read c) = false := by
      by_contra isTrue
      simp only [Bool.not_eq_false] at isTrue
      simp [Inst.effect, isTrue] at goes
    cases decided : known c with
    | none => simpa [successors, decided] using .inr (mem_nextPos inside)
    | some b =>
      obtain rfl : false = b := untrue.symm.trans (agrees c (by simp [Inst.operands]) b decided)
      simpa [successors, decided] using mem_nextPos inside
  | _ => exact mem_nextPos inside

theorem mem_successors_of_jump (agrees : Agrees w known read inst)
    (jumps : inst.effect w obj read heap = .jump t) :
    labelPos code t ∈ successors code known i inst := by
  have target := Inst.target?_of_jump jumps
  cases inst with
  | goto t' =>
    cases target
    exact mem_singleton_self _
  | branch c t' =>
    cases target
    have holds : w.isTrue (operandValue read c) = true := by
      by_contra untrue
      simp [Inst.effect, untrue] at jumps
    cases decided : known c with
    | none => simp [successors, decided]
    | some b =>
      obtain rfl : true = b := holds.symm.trans (agrees c (by simp [Inst.operands]) b decided)
      simp [successors, decided]
  | _ => cases target

end

end JavaMinus.Code
