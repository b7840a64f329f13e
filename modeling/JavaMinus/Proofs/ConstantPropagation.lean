import JavaMinus.Proofs.ConstantStates

/-!
# Putting constants in

An instruction in which operands are replaced by others of the same value does the
same (`Inst.effect_mapOperands`), and so does an instruction that is computed from
its constants (`Inst.effect_evaluate`). Since what is known of registers is true
along every run, putting constants in cannot be observed (`propagate_thinning`).
-/

namespace JavaMinus.Code

/-! ## Single instructions -/

section

variable {w : World} {obj : Value} {read : String → Value} {heap : w.Heap}

theorem Inst.effect_mapOperands {inst : Inst} {f : Operand → Operand}
    (same : ∀ o, some o ∈ inst.operands →
      operandValue read (some (f o)) = operandValue read (some o)) :
    (inst.mapOperands f).effect w obj read heap = inst.effect w obj read heap := by
  have replaced : ∀ o ∈ inst.operands,
      operandValue read (o.bind fun x => some (f x)) = operandValue read o := by
    intro o member
    cases o with
    | none => rfl
    | some o => exact same o member
  cases inst with
  | call c =>
    have args : (c.args.map (·.bind fun x => some (f x))).map (operandValue read) =
        c.args.map (operandValue read) := by
      rw [List.map_map]
      exact List.map_congr_left fun o h => replaced o (by simp [operands, h])
    have action : ({ c with
        recv := c.recv.bind fun x => some (f x),
        args := c.args.map (·.bind fun x => some (f x)) } : Call).action read =
        c.action read := by
      cases h : c.recv with
      | none => simp only [Call.action, h, args, Call.site, Option.bind_none]
      | some r =>
        have recv := same r (by simp [operands, h])
        simp only [Call.action, h, args, Call.site, Option.bind_some, Option.map_some, recv]
    exact congrArg (fun a => Effect.perform w a c.dst heap) action
  | _ => simp_all [mapOperands, bindOperands, effect, operands]

theorem Inst.effect_evaluate {inst inst' : Inst} (computed : inst.evaluate = some inst') :
    inst'.effect w obj read heap = inst.effect w obj read heap := by
  unfold evaluate at computed
  split at computed
  case h_1 d op a ta b tb =>
    split at computed
    case h_1 v value =>
      cases computed
      simp [effect, operandValue, World.binary, World.number, machineResult_eq_eval, value]
    case h_2 => cases computed; rfl
  case h_2 d a ta =>
    cases computed
    rfl
  case h_3 c tc t =>
    split at computed
    case isTrue => cases computed
    case isFalse nonzero =>
      cases computed
      simp [effect, operandValue, World.isTrue, World.number, nonzero]
  case h_4 => cases computed; rfl

theorem Inst.effect_of_evaluate_none {inst : Inst} (gone : inst.evaluate = none) :
    inst.effect w obj read heap = .next [] none heap := by
  unfold evaluate at gone
  split at gone
  case h_1 => split at gone <;> cases gone
  case h_2 => cases gone
  case h_3 c tc t =>
    split at gone
    case isTrue zero => simp [effect, operandValue, World.isTrue, World.number, zero]
    case isFalse => cases gone
  case h_4 => cases gone

theorem State.Sound.subst {regs : List String} {st : State} (sound : st.Sound regs read)
    {o : Operand} (declared : ∀ r ∈ o.reg?, r.name ∈ regs) :
    operandValue read (some (st.subst regs o)) = operandValue read (some o) := by
  cases o with
  | imm v t => rfl
  | reg r =>
    have holds := sound r.name (declared r rfl)
    simp only [State.subst]
    split
    case h_1 v known =>
      rw [known] at holds
      exact holds.symm
    case h_2 => rfl

end

/-! ## Labels and jumps of what is left -/

theorem Inst.evaluate_eq_label {inst : Inst} {n : String}
    (computed : inst.evaluate = some (.label n)) : inst = .label n := by
  unfold evaluate at computed
  split at computed
  case h_1 => split at computed <;> cases computed
  case h_2 => cases computed
  case h_3 => split at computed <;> cases computed
  case h_4 => exact Option.some.inj computed

theorem Inst.mapOperands_eq_label {inst : Inst} {f : Operand → Operand} {n : String}
    (same : inst.mapOperands f = .label n) : inst = .label n := by
  cases inst <;> first | exact same | cases same

theorem Inst.specialize_eq_label {regs : List String} {st : Option State} {inst : Inst}
    {n : String} (left : inst.specialize regs st = some (.label n)) : inst = .label n := by
  cases st with
  | none =>
    simp only [specialize] at left
    split at left
    · exact Option.some.inj left
    · cases left
  | some st => exact mapOperands_eq_label (evaluate_eq_label left)

theorem Inst.specialize_label (regs : List String) (st : Option State) (n : String) :
    (Inst.label n).specialize regs st = some (.label n) := by
  cases st <;> rfl

/-! ## The pass -/

section

variable {vars : List Var} {code : List Inst}

/-- What the pass does with an instruction. -/
def putConstants (vars : List Var) (code : List Inst) (i : Nat) (inst : Inst) : Option Inst :=
  inst.specialize (registersOf vars code) ((lastVisits vars code).at? i)

theorem propagate_eq : propagate vars code = thin (putConstants vars code) code := rfl

/-- What is known at a position is true of the registers. -/
def KnownAt (vars : List Var) (code : List Inst) (i : Nat) (read : String → Value) : Prop :=
  i < code.length →
    ∃ st, (lastVisits vars code).at? i = some st ∧ st.Sound (registersOf vars code) read

theorem knownAt_zero (wf : WellFormed vars code) (read : String → Value) :
    KnownAt vars code 0 read := fun nonempty => by
  obtain ⟨st, found, sound⟩ := (lastVisits_valid wf).1.start nonempty
  exact ⟨st, found, sound read⟩

variable {w : World} {obj : Value} {heap : w.Heap} {read : String → Value}

section Step

variable (wf : WellFormed vars code) {i : Nat} {inst : Inst} (here : code[i]? = some inst)
  (known : KnownAt vars code i read)

include wf here

theorem uses_mem_registersOf : ∀ r ∈ inst.uses, r.name ∈ registersOf vars code :=
  fun _ use => wf.mem_registersOf (mem_occurring_of_use here use)

theorem dst_mem_registersOf : ∀ d ∈ inst.dst?, d.name ∈ registersOf vars code :=
  fun _ dst => wf.mem_registersOf (mem_occurring_of_dst here dst)

include known

theorem KnownAt.next {acts : List Action} {write : Option (String × Value)} {heap' : w.Heap}
    (goes : inst.effect w obj read heap = .next acts write heap') :
    KnownAt vars code (i + 1) (named.write read write) := by
  intro inside
  obtain ⟨st, found, sound⟩ := known (Nat.lt_of_succ_lt inside)
  obtain ⟨valid, done⟩ := lastVisits_valid wf
  have uses := uses_mem_registersOf wf here
  have handed := valid.handed i (by simp [done]) st inst found here (i + 1)
    (mem_successors_of_next (sound.agrees w uses) goes inside)
  obtain ⟨st', found', implies⟩ := handed
  exact ⟨st', found', implies _ (sound.after (valid.sized.length i st found) uses
    (dst_mem_registersOf wf here) goes)⟩

theorem KnownAt.jump {t : String} (jumps : inst.effect w obj read heap = .jump t) :
    KnownAt vars code (labelAt code t) read := by
  intro _
  have member := wf.label_mem here (Inst.target?_of_jump jumps)
  obtain ⟨st, found, sound⟩ := known (List.getElem?_eq_some_iff.mp here).1
  obtain ⟨valid, done⟩ := lastVisits_valid wf
  have handed := valid.handed i (by simp [done]) st inst found here (labelPos code t)
    (mem_successors_of_jump (sound.agrees w (uses_mem_registersOf wf here)) jumps)
  obtain ⟨st', found', implies⟩ := handed
  rw [labelPos_eq wf.labels member] at found'
  exact ⟨st', found', implies _ (sound.after_jump jumps)⟩

end Step

/-- **Putting constants in** cannot be observed. -/
theorem propagate_thinning (w : World) (obj : Value) (wf : WellFormed vars code) :
    Thinning w obj (putConstants vars code) code
      fun i regs regs' => regs' = regs ∧ KnownAt vars code i regs where
  labels i inst n left := Inst.specialize_eq_label left
  same := by
    rintro i inst inst' regs _ heap here left ⟨rfl, known⟩
    obtain ⟨st, found, sound⟩ := known (List.getElem?_eq_some_iff.mp here).1
    rw [putConstants, found] at left
    rw [Inst.effect_evaluate left]
    refine Inst.effect_mapOperands fun o member => sound.subst fun r found => ?_
    exact uses_mem_registersOf wf here r (List.mem_filterMap.mpr ⟨some o, member, found⟩)
  next := by
    rintro i inst inst' regs _ heap heap' acts write here _ ⟨rfl, known⟩ goes
    exact ⟨rfl, known.next wf here goes⟩
  jump := by
    rintro i inst inst' regs _ heap t here _ ⟨rfl, known⟩ jumps
    exact ⟨wf.label_mem here (Inst.target?_of_jump jumps), Inst.specialize_label _ _ t, rfl,
      known.jump wf here jumps⟩
  dropped := by
    rintro i inst _ regs heap here gone ⟨rfl, known⟩
    obtain ⟨st, found, sound⟩ := known (List.getElem?_eq_some_iff.mp here).1
    rw [putConstants, found] at gone
    have idle : inst.effect w obj regs heap = .next [] none heap := by
      rw [← Inst.effect_of_evaluate_none gone]
      refine (Inst.effect_mapOperands fun o member => sound.subst fun r found => ?_).symm
      exact uses_mem_registersOf wf here r (List.mem_filterMap.mpr ⟨some o, member, found⟩)
    refine ⟨i + 1, regs, ?_, Nat.lt_succ_self i, ⟨rfl, known.next wf here idle⟩, ?_⟩
    · rw [step_of_get here]
      exact congrArg (Effect.move named code _) idle
    · intro k _ _ after before
      omega

end

end JavaMinus.Code
