import JavaMinus.Proofs.Simplification

/-!
# Control stays in the code

A control-flow path starts at the first instruction and follows control to the next
instruction or to the label of a jump, whatever the conditions are (`OnPath`). Code stays
inside (`StaysInside`) when no such path runs past the last instruction.

**Passes.** Thinned code stays inside if positions of the old code can be chosen that every
path of the new code keeps to (`Tracks.staysInside`). Where only labels and dead writes are
dropped these are the positions that the old code reaches. Where a jump to what follows is
dropped, the labels in front of its target count as well (`tracks_idleJumps`). Where constants are
put in, only the positions that were visited count (`tracks_propagate`).
-/

namespace JavaMinus.Code

/-! ## Paths -/

/-- Control can go on from the instruction to the one behind it. -/
def Inst.goesOn : Inst → Bool
  | .goto _ => false
  | .ret _ => false
  | .retVoid => false
  | _ => true

/-- A control-flow path leads from the first instruction to the position. -/
inductive OnPath (code : List Inst) : Nat → Prop where
  | start : OnPath code 0
  | next {i : Nat} {inst : Inst} : OnPath code i → code[i]? = some inst → inst.goesOn = true →
      OnPath code (i + 1)
  | jump {i j : Nat} {inst : Inst} {t : String} : OnPath code i → code[i]? = some inst →
      inst.target? = some t → code[j]? = some (.label t) → OnPath code j

/-- No control-flow path runs past the last instruction. -/
def StaysInside (code : List Inst) : Prop := ∀ i, OnPath code i → i < code.length

theorem staysInside_of_last (code : List Inst) {last : Inst} (ends : last.goesOn = false) :
    StaysInside (code ++ [last]) := by
  intro i reaches
  cases reaches with
  | start => simp
  | @next i inst _ here goes =>
    have bound := (List.getElem?_eq_some_iff.mp here).1
    rw [List.length_append, List.length_singleton] at bound ⊢
    have other : i ≠ code.length := by
      rintro rfl
      rw [List.getElem?_concat_length] at here
      cases here
      rw [ends] at goes
      cases goes
    omega
  | jump _ _ _ there => exact (List.getElem?_eq_some_iff.mp there).1

/-! ## Thinned code -/

/-- Positions of code that the paths of thinned code keep to. -/
structure Tracks (keep : Nat → Inst → Option Inst) (code : List Inst) (P : Nat → Prop) : Prop where
  labels : ∀ i inst n, keep i inst = some (.label n) → inst = .label n
  start : P 0
  inside : ∀ i, P i → i < code.length
  next : ∀ {i : Nat} {inst inst' : Inst}, P i → code[i]? = some inst → keep i inst = some inst' →
    inst'.goesOn = true → P (i + 1)
  jump : ∀ {i j : Nat} {inst inst' : Inst} {t : String}, P i → code[i]? = some inst →
    keep i inst = some inst' → inst'.target? = some t → code[j]? = some (.label t) → P j
  dropped : ∀ {i : Nat} {inst : Inst}, P i → code[i]? = some inst → keep i inst = none → P (i + 1)

namespace Tracks

variable {keep : Nat → Inst → Option Inst} {code : List Inst} {P : Nat → Prop}

/-- From a tracked position on there is one whose instruction is kept. What holds there holds at
the first position as well, if it holds before what is dropped when it holds behind. -/
theorem exists_kept (tracks : Tracks keep code P) {i : Nat} (tracked : P i) :
    ∃ p inst inst', P p ∧ spot keep code p = spot keep code i ∧ code[p]? = some inst ∧
      keep p inst = some inst' ∧ ∀ Q : Nat → Prop,
        (∀ j inst, P j → code[j]? = some inst → keep j inst = none → Q (j + 1) → Q j) →
        Q p → Q i := by
  obtain ⟨n, rest⟩ : ∃ n, code.length - i = n := ⟨_, rfl⟩
  -- What is dropped leads to the next position, and the end of the code is not tracked.
  induction n generalizing i with
  | zero =>
    have := tracks.inside i tracked
    omega
  | succ n ih =>
    have here : code[i]? = some _ := List.getElem?_eq_getElem (tracks.inside i tracked)
    cases kept : keep i code[i] with
    | some inst' => exact ⟨i, _, inst', tracked, rfl, here, kept, fun _ _ => id⟩
    | none =>
      obtain ⟨p, inst, inst', at_p, same, there, stays, back⟩ :=
        ih (tracks.dropped tracked here kept) (by omega)
      rw [spot_dropped here kept] at same
      exact ⟨p, inst, inst', at_p, same, there, stays,
        fun Q passes atP => passes i _ tracked here kept (back Q passes atP)⟩

theorem onPath (tracks : Tracks keep code P) {k : Nat} (reached : OnPath (thin keep code) k) :
    ∃ i, P i ∧ spot keep code i = k := by
  -- The instruction that a path is at comes from a tracked position.
  have origin : ∀ {k inst''}, (∃ i, P i ∧ spot keep code i = k) →
      (thin keep code)[k]? = some inst'' →
      ∃ p inst, P p ∧ spot keep code p = k ∧ code[p]? = some inst ∧ keep p inst = some inst'' := by
    rintro _ inst'' ⟨i, tracked, rfl⟩ there
    obtain ⟨p, inst, inst', at_p, same, here, kept, _⟩ := tracks.exists_kept tracked
    rw [← same, getElem?_thin_spot here kept] at there
    cases there
    exact ⟨p, inst, at_p, same, here, kept⟩
  induction reached with
  | start => exact ⟨0, tracks.start, spot_zero⟩
  | next _ there goes ih =>
    obtain ⟨p, inst, at_p, rfl, here, kept⟩ := origin ih there
    exact ⟨p + 1, tracks.next at_p here kept goes, spot_kept here kept⟩
  | @jump k k' inst' t _ there target label ih =>
    obtain ⟨p, inst, at_p, rfl, here, kept⟩ := origin ih there
    have bound : k' < spot keep code code.length := by
      rw [spot_of_end (Nat.le_refl _)]
      exact (List.getElem?_eq_some_iff.mp label).1
    have lower : spot keep code 0 ≤ k' := Nat.zero_le k'
    obtain ⟨q, first, second, _, _, at_q, stays, rfl⟩ := exists_of_spot_le lower bound
    rw [getElem?_thin_spot at_q stays] at label
    cases label
    obtain rfl := tracks.labels q first t stays
    exact ⟨q, tracks.jump at_p here kept target at_q, rfl⟩

/-- **Thinned code stays inside** if its paths keep to positions of the old code. -/
theorem staysInside (tracks : Tracks keep code P) : StaysInside (thin keep code) := by
  intro k reached
  obtain ⟨i, tracked, rfl⟩ := tracks.onPath reached
  obtain ⟨p, inst, inst', _, same, here, kept, _⟩ := tracks.exists_kept tracked
  rw [← same]
  exact (List.getElem?_eq_some_iff.mp (getElem?_thin_spot here kept)).1

end Tracks

/-! ## Passes that drop instructions -/

section

variable {keep : Nat → Inst → Option Inst} {vars : List Var} {code : List Inst}

theorem tracks_of_drop (inside : StaysInside code)
    (only : ∀ i inst inst', keep i inst = some inst' → inst' = inst)
    (idle : ∀ i inst, keep i inst = none → inst.goesOn = true) : Tracks keep code (OnPath code) := by
  refine ⟨?_, .start, inside, ?_, ?_, ?_⟩
  · intro i inst n kept
    exact (only i inst _ kept).symm
  · intro i inst inst' reached here kept goes
    exact reached.next here (only i inst inst' kept ▸ goes)
  · intro i j inst inst' t reached here kept target label
    exact reached.jump here (only i inst inst' kept ▸ target) label
  · intro i inst reached here gone
    exact reached.next here (idle i inst gone)

theorem tracks_idleLabels (inside : StaysInside code) :
    Tracks (keepLabel (jumpTargets code)) code (OnPath code) := by
  refine tracks_of_drop inside (fun _ _ _ => keepLabel_some) fun i inst gone => ?_
  obtain ⟨n, rfl⟩ := keepLabel_none gone
  rfl

theorem tracks_deadStores (inside : StaysInside code) :
    Tracks (keepStore vars code) code (OnPath code) := by
  refine tracks_of_drop inside (fun _ _ _ => keepStore_some) fun i inst gone => ?_
  obtain ⟨d, dst, _⟩ := keepStore_none gone
  cases inst with
  | goto | ret | retVoid => cases dst
  | _ => rfl

end

/-! ## Jumps to what follows -/

/-- Only labels stand between the position and one that is reached. -/
def OnPathPastLabels (code : List Inst) (k : Nat) : Prop :=
  ∃ j, k ≤ j ∧ OnPath code j ∧ ∀ i, k ≤ i → i < j → ∃ n, code[i]? = some (.label n)

section IdleJumps

variable {code : List Inst}

theorem OnPathPastLabels.of_onPath {k : Nat} (reached : OnPath code k) : OnPathPastLabels code k :=
  ⟨k, Nat.le_refl k, reached, fun _ above below => by omega⟩

/-- The position is reached itself, or a label stands there and the next position is reached
past labels. -/
theorem OnPathPastLabels.cases {k : Nat} (ahead : OnPathPastLabels code k) :
    OnPath code k ∨ (∃ n, code[k]? = some (.label n)) ∧ OnPathPastLabels code (k + 1) := by
  obtain ⟨j, le, reached, between⟩ := ahead
  rcases Nat.eq_or_lt_of_le le with rfl | before
  · exact .inl reached
  · exact .inr ⟨between k (Nat.le_refl k) before, j, before, reached,
      fun i above below => between i (by omega) below⟩

theorem tracks_idleJumps (inside : StaysInside code) :
    Tracks (keepJump code) code (OnPathPastLabels code) := by
  refine ⟨(reshaping_idleJumps code).labels, .of_onPath .start, ?_, ?_, ?_, ?_⟩
  · rintro k ⟨j, le, reached, _⟩
    exact Nat.lt_of_le_of_lt le (inside j reached)
  · intro k inst inst' ahead here kept goes
    rcases ahead.cases with reached | ⟨_, next⟩
    · exact .of_onPath (reached.next here (keepJump_some kept ▸ goes))
    · exact next
  · intro k j inst inst' t ahead here kept target label
    rcases ahead.cases with reached | ⟨⟨n, isLabel⟩, _⟩
    · exact .of_onPath (reached.jump here (keepJump_some kept ▸ target) label)
    · rw [here] at isLabel
      cases isLabel
      rw [keepJump_some kept] at target
      cases target
  · intro k inst ahead here gone
    obtain ⟨t, rfl, found⟩ := keepJump_none gone
    rcases ahead.cases with reached | ⟨_, next⟩
    · obtain ⟨m, there, between⟩ := exists_of_labelAhead found
      rw [List.getElem?_drop] at there
      refine ⟨k + 1 + m, Nat.le_add_right _ _, reached.jump here rfl there, fun i above below => ?_⟩
      obtain ⟨n, isLabel⟩ := between (i - (k + 1)) (by omega)
      rw [List.getElem?_drop, show k + 1 + (i - (k + 1)) = i by omega] at isLabel
      exact ⟨n, isLabel⟩
    · exact next

end IdleJumps

/-! ## Constants -/

section

/-- What an instruction turns into when it is computed: itself, the number that an operator
gives, or a jump for a branch that is always taken. -/
theorem Inst.evaluate_inv {inst inst' : Inst} (computed : inst.evaluate = some inst') :
    inst' = inst ∨ (∃ d op a ta b tb v, inst = .binary d op (some (.imm a ta)) (some (.imm b tb)) ∧
        inst' = .assign d (some (.imm v d.type))) ∨
      (∃ d a ta v, inst = .unary d .not (some (.imm a ta)) ∧
        inst' = .assign d (some (.imm v d.type))) ∨
      ∃ c ty t, c ≠ 0 ∧ inst = .branch (some (.imm c ty)) t ∧ inst' = .goto t := by
  unfold evaluate at computed
  split at computed
  case h_1 d op a ta b tb =>
    split at computed
    case h_1 v _ =>
      cases computed
      exact .inr (.inl ⟨d, op, a, ta, b, tb, v, rfl, rfl⟩)
    case h_2 =>
      cases computed
      exact .inl rfl
  case h_2 d a ta =>
    cases computed
    exact .inr (.inr (.inl ⟨d, a, ta, _, rfl, rfl⟩))
  case h_3 c ty t =>
    split at computed
    case isTrue => cases computed
    case isFalse nonzero =>
      cases computed
      exact .inr (.inr (.inr ⟨c, ty, t, nonzero, rfl, rfl⟩))
  case h_4 =>
    cases computed
    exact .inl rfl

theorem Inst.evaluate_cases {inst inst' : Inst} (computed : inst.evaluate = some inst') :
    inst' = inst ∨ (∃ d v, inst.dst? = some d ∧ inst.target? = none ∧ inst.goesOn = true ∧
        inst' = .assign d (some (.imm v d.type))) ∨
      ∃ c ty t, c ≠ 0 ∧ inst = .branch (some (.imm c ty)) t ∧ inst' = .goto t := by
  rcases evaluate_inv computed with same | ⟨d, _, _, _, _, _, v, rfl, rfl⟩ | ⟨d, _, _, v, rfl, rfl⟩ |
    branch
  · exact .inl same
  · exact .inr (.inl ⟨d, v, rfl, rfl, rfl, rfl⟩)
  · exact .inr (.inl ⟨d, v, rfl, rfl, rfl, rfl⟩)
  · exact .inr (.inr branch)

theorem Inst.evaluate_none {inst : Inst} (gone : inst.evaluate = none) :
    ∃ ty t, inst = .branch (some (.imm 0 ty)) t := by
  unfold evaluate at gone
  split at gone
  case h_1 => split at gone <;> cases gone
  case h_2 => cases gone
  case h_3 c ty t =>
    split at gone
    case isTrue zero => exact ⟨ty, t, by rw [zero]⟩
    case isFalse => cases gone
  case h_4 => cases gone

theorem Inst.goesOn_mapOperands (inst : Inst) (f : Operand → Operand) :
    (inst.mapOperands f).goesOn = inst.goesOn := by
  cases inst <;> rfl

theorem State.decides_of_subst {regs : List String} {st : State} {cond : Option Operand}
    {v : Int32} {ty : Ty}
    (number : (cond.bind fun o => some (st.subst regs o)) = some (.imm v ty)) :
    st.decides regs cond = some (v != 0) := by
  cases cond with
  | none => cases number
  | some o =>
    cases o with
    | imm w t =>
      cases number
      rfl
    | reg r =>
      have known : st.get regs r.name = .const v := by
        simp only [Option.bind_some, Option.some.injEq, State.subst] at number
        split at number <;> cases number
        assumption
      simp [decides, value, known]

theorem State.subst_of_decides {regs : List String} {st : State} {cond : Option Operand} {b : Bool}
    (decided : st.decides regs cond = some b) :
    ∃ v ty, (cond.bind fun o => some (st.subst regs o)) = some (.imm v ty) ∧ b = (v != 0) := by
  cases cond with
  | none => cases decided
  | some o =>
    cases o with
    | imm w t =>
      cases decided
      exact ⟨w, t, rfl, rfl⟩
    | reg r =>
      simp only [decides, value] at decided
      split at decided
      case h_1 v known =>
        cases decided
        exact ⟨v, r.type, by simp [State.subst, known], rfl⟩
      case h_2 => cases decided

variable {vars : List Var} {code : List Inst} {regs : List String} {st : State} {i : Nat}
  {inst inst' : Inst}

theorem successors_branch_cases (code : List Inst) (i : Nat) (c : Option Operand) (t : String) :
    (∃ v ty, (c.bind fun o => some (st.subst regs o)) = some (.imm v ty) ∧
      successors code (st.decides regs) i (.branch c t) =
        if v = 0 then nextPos code.length i else [labelPos code t]) ∨
    (∀ v ty, (c.bind fun o => some (st.subst regs o)) ≠ some (.imm v ty)) ∧
      successors code (st.decides regs) i (.branch c t) = labelPos code t :: nextPos code.length i := by
  cases decided : st.decides regs c with
  | none =>
    refine .inr ⟨fun v ty number => ?_, by simp [successors, decided]⟩
    rw [State.decides_of_subst number] at decided
    cases decided
  | some b =>
    obtain ⟨v, ty, number, rfl⟩ := State.subst_of_decides decided
    refine .inl ⟨v, ty, number, ?_⟩
    by_cases zero : v = 0
    · simp [successors, decided, zero]
    · simp [successors, decided, zero, bne_iff_ne.mpr zero]

theorem specialize_branch_cases (c : Option Operand) (t : String)
    (left : (Inst.branch c t).specialize regs (some st) = some inst') :
    labelPos code t ∈ successors code (st.decides regs) i (.branch c t) ∧
      (inst'.goesOn = true → i + 1 < code.length →
        i + 1 ∈ successors code (st.decides regs) i (.branch c t)) := by
  have computed : (Inst.branch (c.bind fun o => some (st.subst regs o)) t).evaluate = some inst' :=
    left
  rcases successors_branch_cases code i c t with ⟨v, ty, number, succs⟩ | ⟨_, succs⟩
  · rw [number, Inst.evaluate] at computed
    split at computed
    case isTrue => cases computed
    case isFalse nonzero =>
      cases computed
      rw [succs, if_neg nonzero]
      exact ⟨List.mem_singleton_self _, fun goes => nomatch goes⟩
  · rw [succs]
    exact ⟨List.mem_cons_self, fun _ inside => List.mem_cons_of_mem _ (mem_nextPos inside)⟩

theorem successors_of_goesOn {known : Option Operand → Option Bool} (goes : inst.goesOn = true)
    (plain : inst.target? = none) : successors code known i inst = nextPos code.length i := by
  cases inst with
  | goto | ret | retVoid => cases goes
  | branch => cases plain
  | _ => rfl

theorem Inst.goesOn_of_specialize (left : inst.specialize regs (some st) = some inst')
    (goes : inst'.goesOn = true) : inst.goesOn = true := by
  rw [← goesOn_mapOperands inst (st.subst regs)]
  rcases evaluate_cases left with rfl | ⟨_, _, _, _, goes', _⟩ | ⟨_, _, _, _, _, rfl⟩
  · exact goes
  · exact goes'
  · cases goes

theorem mem_successors_of_goesOn (left : inst.specialize regs (some st) = some inst')
    (goes : inst'.goesOn = true) (inside : i + 1 < code.length) :
    i + 1 ∈ successors code (st.decides regs) i inst := by
  have before := Inst.goesOn_of_specialize left goes
  cases target : inst.target? with
  | none =>
    rw [successors_of_goesOn before target]
    exact mem_nextPos inside
  | some t =>
    cases inst with
    | branch c t' => exact (specialize_branch_cases c t' left).2 goes inside
    | goto => cases before
    | _ => cases target

theorem mem_successors_of_target (left : inst.specialize regs (some st) = some inst') {t : String}
    (target : inst.target? = some t) : labelPos code t ∈ successors code (st.decides regs) i inst := by
  cases inst with
  | branch c t' =>
    cases target
    exact (specialize_branch_cases c t left).1
  | goto t' =>
    cases target
    exact List.mem_singleton_self _
  | _ => cases target

theorem mem_successors_of_dropped (gone : inst.specialize regs (some st) = none) :
    inst.goesOn = true ∧
      (i + 1 < code.length → i + 1 ∈ successors code (st.decides regs) i inst) := by
  obtain ⟨ty, t, same⟩ := Inst.evaluate_none gone
  cases inst with
  | branch c t' =>
    obtain ⟨number, rfl⟩ := Inst.branch.inj same
    refine ⟨rfl, fun inside => ?_⟩
    simpa [successors, State.decides_of_subst number] using mem_nextPos inside
  | _ => cases same

theorem tracks_propagate (wf : WellFormed vars code) (inside : StaysInside code) :
    Tracks (putConstants vars code) code
      fun i => OnPath code i ∧ ∃ st, (lastVisits vars code).at? i = some st := by
  obtain ⟨valid, done⟩ := lastVisits_valid wf
  have shape := reshaping_propagate vars code
  -- A position that is visited hands what is known on to its successors.
  have handed : ∀ {i inst st k}, (lastVisits vars code).at? i = some st → code[i]? = some inst →
      k ∈ successors code (st.decides (registersOf vars code)) i inst →
      ∃ st', (lastVisits vars code).at? k = some st' := by
    intro i inst st k found here follows
    obtain ⟨st', found', _⟩ := valid.handed i (by simp [done]) st inst found here k follows
    exact ⟨st', found'⟩
  refine ⟨shape.labels, ⟨.start, ?_⟩, fun i tracked => inside i tracked.1, ?_, ?_, ?_⟩
  · obtain ⟨st, found, _⟩ := valid.start (inside 0 .start)
    exact ⟨st, found⟩
  · rintro i inst inst' ⟨reached, st, found⟩ here left goes
    rw [putConstants, found] at left
    have next := reached.next here (Inst.goesOn_of_specialize left goes)
    exact ⟨next, handed found here (mem_successors_of_goesOn left goes (inside _ next))⟩
  · rintro i j inst inst' t ⟨reached, st, found⟩ here left target label
    have before := shape.targets i inst inst' t left target
    rw [putConstants, found] at left
    refine ⟨reached.jump here before label, ?_⟩
    have position : labelPos code t = j := by
      have member := List.mem_of_getElem? label
      rw [labelPos_eq wf.labels member]
      exact wf.labels.position_unique (getElem?_labelAt member) label
    exact position ▸ handed found here (mem_successors_of_target left before)
  · rintro i inst ⟨reached, st, found⟩ here gone
    rw [putConstants, found] at gone
    obtain ⟨goes, follows⟩ := mem_successors_of_dropped gone
    have next := reached.next here goes
    exact ⟨next, handed found here (follows (inside _ next))⟩

end

end JavaMinus.Code
