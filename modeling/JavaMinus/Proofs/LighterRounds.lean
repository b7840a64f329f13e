import JavaMinus.Proofs.ControlPaths

/-!
# Simplification ends

Simplification has three loops: the visits that find constants, the sweeps that find
live registers, and the rounds around both. None of them has a bound of its own, and
none asks that the code makes sense: labels may be missing or occur twice, registers
may be undeclared, and parts of the code may be out of reach.

**Rounds.** An instruction that a pass leaves is the one that stood there, or a
lighter one (`Inst.specialize_lighter`). A pass therefore leaves the code as it is or
makes it lighter (`Lighter`), and so does a round (`simplifyRound_lighter`). The rounds
are compared by their texts. Code that is not changed has the same text, so every
round that goes on has made the code lighter, and there are at most as many rounds as
the code has weight (`rounds_end`).

**Main result** (`simplify_terminates`): the three loops end on every method.
-/

namespace JavaMinus.Code

open List

variable {inst inst' : Inst}

/-! ## The weight of what a pass leaves -/

@[simp] theorem weight_nil : weight [] = 0 := rfl

@[simp] theorem weight_cons (inst : Inst) (rest : List Inst) :
    weight (inst :: rest) = inst.weight + weight rest := rfl

theorem Inst.weight_pos (inst : Inst) : 0 < inst.weight := by
  unfold weight
  omega

/-- Code that is as it was, or has become lighter. -/
def Lighter (code' code : List Inst) : Prop := code' = code ∨ weight code' < weight code

theorem Lighter.trans {code₁ code₂ code₃ : List Inst} (first : Lighter code₂ code₁)
    (second : Lighter code₃ code₂) : Lighter code₃ code₁ := by
  rcases first with rfl | less
  · exact second
  · rcases second with rfl | less'
    · exact .inr less
    · exact .inr (less'.trans less)

/-- A pass that leaves instructions as they are or makes them lighter does so with
the whole code. -/
theorem thinFrom_lighter {keep : Nat → Inst → Option Inst}
    (each : ∀ i inst inst', keep i inst = some inst' → inst' = inst ∨ inst'.weight < inst.weight)
    (start : Nat) (code : List Inst) : Lighter (thinFrom keep start code) code := by
  induction code generalizing start with
  | nil => exact .inl rfl
  | cons inst rest ih =>
    have tail : weight (thinFrom keep (start + 1) rest) ≤ weight rest := by
      rcases ih (start + 1) with same | less
      · rw [same]
      · exact less.le
    rw [thinFrom_cons]
    cases kept : keep start inst with
    | none =>
      refine .inr ?_
      have := inst.weight_pos
      simp only [Option.toList_none, nil_append, weight_cons]
      omega
    | some inst' =>
      simp only [Option.toList_some, singleton_append, Lighter, weight_cons]
      rcases each start inst inst' kept with rfl | less
      · rcases ih (start + 1) with same | less
        · exact .inl (by rw [same])
        · exact .inr (by omega)
      · exact .inr (by omega)

/-! ## Constants -/

section

variable {f : Operand → Operand}

/-- Registers are left as they are or replaced by something that is no register. -/
def Shrinks (f : Operand → Operand) : Prop :=
  ∀ o, f o = o ∨ o.reg?.isSome = true ∧ (f o).reg? = none

theorem State.shrinks_subst (regs : List String) (st : State) : Shrinks (st.subst regs) := by
  intro o
  cases o with
  | imm v t => exact .inl rfl
  | reg r =>
    simp only [State.subst]
    split
    · exact .inr ⟨rfl, rfl⟩
    · exact .inl rfl

/-- The registers among operands. -/
def registersAmong (os : List (Option Operand)) : List Reg := os.filterMap (·.bind Operand.reg?)

theorem registersAmong_lighter (shrinks : Shrinks f) (os : List (Option Operand)) :
    (∀ o, some o ∈ os → f o = o) ∨
      (registersAmong (os.map (·.bind fun o => some (f o)))).length < (registersAmong os).length := by
  induction os with
  | nil => exact .inl fun o member => (not_mem_nil member).elim
  | cons o rest ih =>
    simp only [registersAmong, map_cons, filterMap_cons, mem_cons] at ih ⊢
    have tail : ((rest.map (·.bind fun o => some (f o))).filterMap (·.bind Operand.reg?)).length ≤
        (rest.filterMap (·.bind Operand.reg?)).length := by
      rcases ih with same | less
      · rw [map_congr_left (g := id) fun o member => ?_, map_id]
        cases o with
        | none => rfl
        | some o => exact congrArg some (same o member)
      · exact less.le
    cases o with
    | none => simpa using ih
    | some o =>
      simp only [Option.bind_some, Option.some.injEq]
      rcases shrinks o with same | ⟨before, after⟩
      · rw [same]
        rcases ih with same' | less
        · refine .inl fun x member => ?_
          rcases member with rfl | later
          · exact same
          · exact same' x later
        · refine .inr ?_
          cases o.reg? with
          | none => exact less
          | some r => exact Nat.succ_lt_succ less
      · obtain ⟨r, isReg⟩ := Option.isSome_iff_exists.mp before
        rw [isReg, after]
        exact .inr (Nat.lt_succ_of_le tail)

theorem Inst.mapOperands_congr {g : Operand → Operand}
    (same : ∀ o, some o ∈ inst.operands → f o = g o) : inst.mapOperands f = inst.mapOperands g := by
  have each : inst.operands.map (·.bind fun o => some (f o)) =
      inst.operands.map (·.bind fun o => some (g o)) := by
    refine map_congr_left fun o member => ?_
    cases o with
    | none => rfl
    | some o => exact congrArg some (same o member)
  cases inst <;> simp_all [mapOperands, bindOperands, operands]

theorem Inst.mapOperands_id (inst : Inst) : inst.mapOperands id = inst := by
  cases inst <;> simp [mapOperands, bindOperands]

theorem Inst.mapOperands_eq_self (same : ∀ o, some o ∈ inst.operands → f o = o) :
    inst.mapOperands f = inst :=
  (mapOperands_congr same).trans inst.mapOperands_id

theorem Inst.weight_mapOperands (inst : Inst) (f : Operand → Operand) :
    (inst.mapOperands f).weight + inst.uses.length =
      inst.weight + (inst.mapOperands f).uses.length := by
  cases inst <;> simp only [mapOperands, bindOperands, weight] <;> omega

theorem Inst.mapOperands_lighter (inst : Inst) (shrinks : Shrinks f) :
    inst.mapOperands f = inst ∨ (inst.mapOperands f).weight < inst.weight := by
  rcases registersAmong_lighter shrinks inst.operands with same | less
  · exact .inl (mapOperands_eq_self same)
  · have uses : (inst.mapOperands f).uses.length < inst.uses.length := by
      rw [uses, operands_mapOperands]
      exact less
    have := inst.weight_mapOperands f
    exact .inr (by omega)

theorem Inst.evaluate_lighter (computed : inst.evaluate = some inst') :
    inst' = inst ∨ inst'.weight < inst.weight := by
  rcases evaluate_inv computed with same | ⟨_, _, _, _, _, _, _, rfl, rfl⟩ |
    ⟨_, _, _, _, rfl, rfl⟩ | ⟨_, _, _, _, rfl, rfl⟩
  · exact .inl same
  · exact .inr (Nat.lt_add_one 1)
  · exact .inr (Nat.lt_add_one 1)
  · exact .inr (Nat.lt_add_one 1)

/-- **What is left of an instruction** when constants are put in is the instruction, or
lighter. -/
theorem Inst.specialize_lighter {regs : List String} {st : Option State}
    (left : inst.specialize regs st = some inst') : inst' = inst ∨ inst'.weight < inst.weight := by
  rcases specialize_cases left with same | ⟨known, _, computed⟩
  · exact .inl same
  · have first := inst.mapOperands_lighter (known.shrinks_subst regs)
    rcases evaluate_lighter computed with rfl | less
    · exact first
    · rcases first with same | less'
      · rw [same] at less
        exact .inr less
      · exact .inr (less.trans less')

end

/-! ## Passes and rounds -/

section

variable {vars : List Var} {code : List Inst}

theorem thin_lighter_of_drop {keep : Nat → Inst → Option Inst}
    (only : ∀ i inst inst', keep i inst = some inst' → inst' = inst) (code : List Inst) :
    Lighter (thin keep code) code :=
  thinFrom_lighter (fun i inst inst' kept => .inl (only i inst inst' kept)) 0 code

/-- **A round** leaves the code as it is or makes it lighter. -/
theorem simplifyRound_lighter (vars : List Var) (code : List Inst) :
    Lighter (simplifyRound vars code) code := by
  have constants : Lighter (propagate vars code) code := by
    rw [propagate_eq]
    exact thinFrom_lighter (fun _ _ _ left => Inst.specialize_lighter left) 0 code
  have jumps (code : List Inst) : Lighter (dropIdleJumps code) code := by
    rw [dropIdleJumps_eq]
    exact thin_lighter_of_drop (fun _ _ _ => keepJump_some) code
  have labels (code : List Inst) : Lighter (dropIdleLabels code) code := by
    rw [dropIdleLabels_eq]
    exact thin_lighter_of_drop (fun _ _ _ => keepLabel_some) code
  have stores (code : List Inst) : Lighter (dropDeadStores vars code) code := by
    rw [dropDeadStores_eq]
    exact thin_lighter_of_drop (fun _ _ _ => keepStore_some) code
  unfold simplifyRound tidyLabels
  exact ((constants.trans (jumps _)).trans (labels _)).trans (stores _)

/-- The method after one more round. -/
def Method.round (m : Method) : Method := { m with code := simplifyRound m.vars m.code }

/-- A round leaves the text of the method as it was. -/
def Method.Settled (m : Method) : Prop := m.text? = m.round.text?

theorem Method.weight_round {m : Method} (unsettled : ¬ m.Settled) :
    weight m.round.code < weight m.code := by
  refine (simplifyRound_lighter m.vars m.code).resolve_left fun same => unsettled ?_
  have unchanged : m.round = m := by rw [round, same]
  rw [Settled, unchanged]

/-- The rounds end, within as many rounds as the code has weight, and simplification
gives what they end with. -/
def RoundsEnd (m : Method) : Prop :=
  ∃ n ≤ weight m.code, ∃ last,
    LoopEnds Method.round Method.Settled m n last ∧ m.simplify = pruneVars last.round

theorem rounds_end (m : Method) : RoundsEnd m := by
  obtain ⟨n, bound, last, ends, _⟩ : ∃ n ≤ weight m.code, ∃ last,
      LoopEnds Method.round Method.Settled m n last ∧ True :=
    exists_loopEnds (fun _ => True) (fun m : Method => weight m.code)
      (fun y _ unsettled => ⟨trivial, Method.weight_round unsettled⟩) trivial
  refine ⟨n, bound, last, ends, ?_⟩
  refine congrArg pruneVars (ends.of_fuel (fun r => simplifyRounds (r + 1)) Method.round ?_ ?_ bound)
  · intro r y settled
    exact if_pos settled
  · intro r y unsettled
    exact if_neg unsettled

end

/-! ## Texts of rounds -/

section

theorem Inst.isSome_line?_mapOperands (f : Operand → Operand) (shown : inst.line?.isSome = true) :
    (inst.mapOperands f).line?.isSome = true := by
  cases inst with
  | putField field s | store a i s =>
    cases s with
    | none => cases shown
    | some s => rfl
  | ret x =>
    cases x with
    | none => cases shown
    | some x => rfl
  | _ => rfl

theorem Inst.isSome_line?_specialize {regs : List String} {st : Option State}
    (shown : inst.line?.isSome = true) (left : inst.specialize regs st = some inst') :
    inst'.line?.isSome = true := by
  rcases specialize_cases left with rfl | ⟨_, _, computed⟩
  · exact shown
  · rcases evaluate_cases computed with rfl | ⟨_, _, _, _, _, rfl⟩ | ⟨_, _, _, _, _, rfl⟩
    · exact isSome_line?_mapOperands _ shown
    · rfl
    · rfl

/-- What putting constants in keeps of every instruction, a round keeps of the whole code. -/
theorem forall_mem_simplifyRound {P : Inst → Prop} {vars : List Var} {code : List Inst}
    (keeps : ∀ {regs : List String} {st : Option State} {inst inst' : Inst}, P inst →
      inst.specialize regs st = some inst' → P inst')
    (each : ∀ inst ∈ code, P inst) : ∀ inst ∈ simplifyRound vars code, P inst := by
  intro inst member
  unfold simplifyRound tidyLabels at member
  rw [dropDeadStores_eq, dropIdleLabels_eq, dropIdleJumps_eq, propagate_eq] at member
  obtain ⟨_, _, at₁, kept₁⟩ := mem_thin.mp member
  obtain ⟨_, _, at₂, kept₂⟩ := mem_thin.mp (mem_of_getElem? at₁)
  obtain ⟨_, _, at₃, kept₃⟩ := mem_thin.mp (mem_of_getElem? at₂)
  obtain ⟨_, source, at₄, left⟩ := mem_thin.mp (mem_of_getElem? at₃)
  rw [keepStore_some kept₁, keepLabel_some kept₂, keepJump_some kept₃]
  exact keeps (each source (mem_of_getElem? at₄)) left

theorem Method.isSome_text?_round {m : Method} (shown : m.text?.isSome = true) :
    m.round.text?.isSome = true := by
  rw [isSome_text?_iff] at shown ⊢
  exact forall_mem_simplifyRound Inst.isSome_line?_specialize shown

end

/-! ## All loops -/

/-- The visits that find what is known of registers end: no place is left on the list
of places to visit, and what is known is what was found by then. -/
def VisitsEnd (vars : List Var) (code : List Inst) : Prop :=
  ∃ n ≤ code.length * (2 * (registersOf vars code).length + 1) + 1, ∃ last,
    LoopEnds (Visits.visitNext (registersOf vars code) code) (fun v => v.work = [])
      (firstVisits vars code) n last ∧ knownStates vars code = last.states

/-- The sweeps that find live registers end: one more sweep leaves the sets as they
are. -/
def SweepsEnd (vars : List Var) (code : List Inst) : Prop :=
  ∃ n ≤ code.length * (vars.length + 1), LoopEnds (sweep (flowSteps vars code).toArray code.length)
      (fun sets => sameSets sets (sweep (flowSteps vars code).toArray code.length sets) = true)
      (Array.replicate code.length .empty) n (liveness vars code).before

/-- **Simplification ends** on every method, whatever its code is. The visits and the
sweeps end on every code with every declarations. A round that changes the code makes
it lighter, and the rounds end when one of them does not show in the text. A method
that has a text has one after every round, so texts can always be compared. -/
theorem simplify_terminates (m : Method) :
    (∀ vars code, VisitsEnd vars code ∧ SweepsEnd vars code) ∧
    (∀ vars code, simplifyRound vars code ≠ code → weight (simplifyRound vars code) < weight code) ∧
    RoundsEnd m ∧
    (m.text?.isSome = true → ∀ k, (Method.round^[k] m).text?.isSome = true) := by
  refine ⟨fun vars code => ⟨?_, (liveness_ends vars code).2⟩,
    fun vars code => (simplifyRound_lighter vars code).resolve_left, rounds_end m, fun shown k => ?_⟩
  · obtain ⟨n, bound, ends⟩ := lastVisits_ends vars code
    exact ⟨n, bound, _, ends, knownStates_eq vars code⟩
  · exact Function.Iterate.rec _ shown (fun _ => Method.isSome_text?_round) k

end JavaMinus.Code
