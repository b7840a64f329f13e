import JavaMinus.Proofs.TypedCode

/-!
# Types in simplified code

Simplification puts numbers in place of registers. For the types to stay right, a number must
never take the place of a reference. It does not: what is known of a register is a number
only if the register is for words (`KeepsWords`). This holds where control starts, every
typed instruction keeps it (`KeepsWords.after`), and so it holds of all states that are found
(`keepsWords_lastVisits`).

**Types** (`classCode_type_correct`). Every instruction of an accepted file whose receivers
have known types is of the right types, and so is every instruction that simplification leaves.
-/

namespace JavaMinus.Code

open List

open Syntax (File parse)
open Typing (analyze typeOf)

/-! ## Type-correct instructions -/

/-- The operands and the destination of an instruction are of the types that it works on, the
receiver of a call on an object is a reference, and constants are integers or truth values, so
that none stands for a reference. -/
structure Inst.TypeCorrect (field? : String → Option Ty) (ret : Ty) (inst : Inst) : Prop where
  typed : inst.Typed field? ret
  receiver : ∀ c, inst = .call c → c.kind ≠ .static → OfType (·.isRef = true) c.recv
  words : ∀ v t, some (.imm v t) ∈ inst.operands → t.isWord = true

section Instructions

variable {field? : String → Option Ty} {ret : Ty} {inst inst' : Inst} {f : Operand → Operand}

theorem OfType.map {P : Ty → Prop} {o : Option Operand} (same : ∀ o, (f o).type = o.type)
    (typed : OfType P o) : OfType P (o.bind fun o => some (f o)) := by
  obtain ⟨v, rfl, holds⟩ := typed
  exact ⟨f v, rfl, (same v).symm ▸ holds⟩

theorem Inst.Typed.mapOperands (same : ∀ o, (f o).type = o.type) (typed : inst.Typed field? ret) :
    (inst.mapOperands f).Typed field? ret := by
  cases inst with
  | assign d src => exact OfType.map same (P := (·.Alike d.type)) typed
  | binary d op l r => exact ⟨typed.1, typed.2.1.map same, typed.2.2.map same⟩
  | unary d op x => exact ⟨typed.1, typed.2.map same⟩
  | putField name src => exact fun t found => (typed t found).map same
  | load d a i => exact ⟨typed.1.map same, typed.2.map same⟩
  | store a i v =>
    refine ⟨?_, typed.2.map same⟩
    obtain ⟨array, rfl, isArray, stored⟩ := typed.1
    exact ⟨f array, rfl, (same array).symm ▸ ⟨isArray, stored.map same⟩⟩
  | length d a | newArray d n => exact ⟨typed.1, typed.2.map same⟩
  | branch c t => exact OfType.map same (P := (· = .boolean)) typed
  | ret x => exact OfType.map same (P := (·.Alike ret)) typed
  | call c =>
    refine ⟨?_, typed.result⟩
    rw [forall₂_map_left_iff]
    exact typed.args.imp fun _ _ arg => arg.map same
  | getField | new | goto | label | retVoid | hole => exact typed

theorem Inst.TypeCorrect.mapOperands (same : ∀ o, (f o).type = o.type)
    (correct : inst.TypeCorrect field? ret)
    (words : ∀ o, some o ∈ inst.operands → ∀ v t, f o = .imm v t → t.isWord = true) :
    (inst.mapOperands f).TypeCorrect field? ret := by
  refine ⟨correct.typed.mapOperands same, fun c isCall onObject => ?_, fun v t member => ?_⟩
  · cases inst with
    | call c' =>
      cases isCall
      exact (correct.receiver c' rfl onObject).map same
    | _ => cases isCall
  · rw [Inst.operands_mapOperands] at member
    obtain ⟨o, among, isImm⟩ := mem_map.mp member
    obtain ⟨o', rfl, isImm⟩ := Option.bind_eq_some_iff.mp isImm
    exact words o' among v t (Option.some.inj isImm)

theorem Inst.TypeCorrect.evaluate (correct : inst.TypeCorrect field? ret)
    (computed : inst.evaluate = some inst') : inst'.TypeCorrect field? ret := by
  have assigned : ∀ (d : Reg) (v : Int32), d.type.isWord = true →
      (Inst.assign d (some (.imm v d.type))).TypeCorrect field? ret := by
    refine fun d v word => ⟨⟨_, rfl, .inr ⟨word, word⟩⟩, fun _ => Inst.noConfusion, ?_⟩
    intro v' t member
    cases mem_singleton.mp member
    exact word
  unfold Inst.evaluate at computed
  split at computed
  case h_1 d op a ta b tb =>
    split at computed <;> cases computed
    · exact assigned d _ correct.typed.1
    · exact correct
  case h_2 d a ta =>
    cases computed
    exact assigned d _ correct.typed.1
  case h_3 c ty t =>
    split at computed <;> cases computed
    exact ⟨trivial, fun _ => Inst.noConfusion, by simp [Inst.operands]⟩
  case h_4 =>
    cases computed
    exact correct

end Instructions

/-! ## Numbers in registers for words -/

/-- What is known of a register is a number only if the register is for words. -/
structure KeepsWords (vars : List Var) (regs : List String) (st : State) : Prop where
  length : st.length = regs.length
  word : ∀ v ∈ vars, ∀ n, st.get regs v.name = .const n → v.type.isWord = true

section States

variable {vars : List Var} {code : List Inst} {ret : Ty} {field? : String → Option Ty} {n : Int32}

theorem mem_registersOf {v : Var} (declared : v ∈ vars) : v.name ∈ registersOf vars code := by
  rw [registersOf, mem_eraseDups]
  exact mem_append_left _ (mem_map_of_mem declared)

theorem Known.const_of_meet {k k' : Known} (met : k.meet k' = .const n) :
    k = .const n ∨ k' = .const n := by
  cases k with
  | unset => exact .inr met
  | varying => cases k' <;> cases met
  | const a =>
    cases k' with
    | unset => exact .inl met
    | varying => cases met
    | const b =>
      simp only [Known.meet] at met
      split at met
      · exact .inl met
      · cases met

theorem KeepsWords.meet {st st' : State} (first : KeepsWords vars (registersOf vars code) st)
    (second : KeepsWords vars (registersOf vars code) st') :
    KeepsWords vars (registersOf vars code) (st.meet st') := by
  refine ⟨State.length_meet first.length second.length, fun v declared n met => ?_⟩
  rw [State.get_meet first.length second.length (mem_registersOf declared)] at met
  rcases Known.const_of_meet met with known | known
  · exact first.word v declared n known
  · exact second.word v declared n known

variable {regs : List String} {st : State}

theorem KeepsWords.value (keeps : KeepsWords vars regs st) {o : Operand}
    (declared : ∀ r, o.reg? = some r → Declared vars r)
    (words : ∀ v t, o = .imm v t → t.isWord = true) (known : st.value regs (some o) = .const n) :
    o.type.isWord = true := by
  cases o with
  | imm v t => exact words v t rfl
  | reg r =>
    obtain ⟨v, among, isName, isType⟩ := declared r rfl
    have known' : st.get regs v.name = .const n := isName ▸ known
    have word := keeps.word v among n known'
    exact (isType ▸ word : r.type.isWord = true)

/-- The result of a typed instruction is known to be a number only if it goes to a register for
words. -/
theorem KeepsWords.result (keeps : KeepsWords vars regs st) {inst : Inst} {d : Reg}
    (correct : inst.TypeCorrect field? ret) (declared : ∀ r ∈ inst.registers, Declared vars r)
    (dst : inst.dst? = some d) (known : st.result regs inst = .const n) : d.type.isWord = true := by
  cases inst with
  | assign d' src =>
    cases dst
    obtain ⟨o, rfl, alike⟩ := correct.typed
    refine alike.symm.isWord (keeps.value (fun r isReg => declared r ?_) ?_ known)
    · refine mem_append_right _ (mem_filterMap.mpr ⟨some o, ?_, isReg⟩)
      exact mem_singleton_self _
    · rintro v t rfl
      exact correct.words v t (mem_singleton_self _)
  | binary d' op l r | unary d' op x =>
    cases dst
    exact correct.typed.1
  | _ => cases known

theorem KeepsWords.after (keeps : KeepsWords vars regs st) (once : (vars.map (·.name)).Nodup)
    {inst : Inst} (correct : inst.TypeCorrect field? ret)
    (declared : ∀ r ∈ inst.registers, Declared vars r)
    (listed : ∀ v ∈ vars, v.name ∈ regs) : KeepsWords vars regs (st.after regs inst) := by
  refine ⟨(State.length_after inst).trans keeps.length, fun v among n known => ?_⟩
  unfold State.after at known
  cases dst : inst.dst? with
  | none =>
    rw [dst] at known
    exact keeps.word v among n known
  | some d =>
    obtain ⟨w, isVar, isName, isType⟩ := declared d
      (mem_append_left _ (Option.mem_toList.mpr dst))
    simp only [dst] at known
    rw [State.get_set keeps.length (listed v among) (isName ▸ listed w isVar)] at known
    split at known
    case isTrue same =>
      obtain rfl : v = w := inj_on_of_nodup_map once among isVar (same.trans isName.symm)
      exact isType ▸ keeps.result correct declared dst known
    case isFalse => exact keeps.word v among n known

theorem keepsWords_entryState : KeepsWords vars (registersOf vars code) (entryState vars code) := by
  refine ⟨by simp [entryState], fun v among n known => ?_⟩
  rw [get_entryState (mem_registersOf among) (mem_map_of_mem among)] at known
  cases known

end States

/-! ## Passes -/

section

variable {vars : List Var} {code : List Inst} {ret : Ty} {field? : String → Option Ty}

/-- **Numbers are found for words only.** -/
theorem keepsWords_lastVisits (once : (vars.map (·.name)).Nodup) (sound : SoundCode vars ret code)
    (correct : ∀ inst ∈ code, inst.TypeCorrect field? ret) {i : Nat} {st : State}
    (found : (lastVisits vars code).at? i = some st) :
    KeepsWords vars (registersOf vars code) st := by
  refine allStates_lastVisits (Q := fun _ => KeepsWords vars (registersOf vars code))
    (fun _ _ _ first second => first.meet second) (fun j inst st' here keeps _ _ => ?_)
    (fun _ => keepsWords_entryState) i st found
  have member := mem_of_getElem? here
  exact keeps.after once (correct inst member) (sound.declared inst member) fun v => mem_registersOf

theorem typeCorrect_propagate (once : (vars.map (·.name)).Nodup) (sound : SoundCode vars ret code)
    (correct : ∀ inst ∈ code, inst.TypeCorrect field? ret) :
    ∀ inst ∈ propagate vars code, inst.TypeCorrect field? ret := by
  intro inst' member
  rw [propagate_eq] at member
  obtain ⟨i, inst, here, left⟩ := mem_thin.mp member
  have before := correct inst (mem_of_getElem? here)
  unfold putConstants at left
  cases state : (lastVisits vars code).at? i with
  | none =>
    rw [state] at left
    simp only [Inst.specialize] at left
    split at left <;> cases left
    exact before
  | some st =>
    rw [state] at left
    refine (before.mapOperands (State.type_subst _ _) fun o among v t same => ?_).evaluate left
    have keeps := keepsWords_lastVisits once sound correct state
    cases o with
    | imm v' t' =>
      cases same
      exact before.words v t among
    | reg r =>
      simp only [State.subst] at same
      split at same <;> cases same
      case h_1 known =>
        refine keeps.value (o := .reg r) (fun r' isReg => ?_) (fun _ _ => Operand.noConfusion) known
        refine sound.declared inst (mem_of_getElem? here) r' (mem_append_right _ ?_)
        exact mem_filterMap.mpr ⟨some (.reg r), among, isReg⟩

/-- What holds of every instruction that constants leave holds of every instruction that a round
leaves. -/
theorem forall_simplifyRound {Q : Inst → Prop} (each : ∀ inst ∈ propagate vars code, Q inst) :
    ∀ inst ∈ simplifyRound vars code, Q inst := by
  have thinned : ∀ {code code' : List Inst} {keep : Nat → Inst → Option Inst},
      code' = thin keep code → (∀ i inst inst', keep i inst = some inst' → inst' = inst) →
      (∀ inst ∈ code, Q inst) → ∀ inst ∈ code', Q inst := by
    rintro code _ keep rfl only before inst' member
    obtain ⟨i, inst, here, kept⟩ := mem_thin.mp member
    exact only i inst inst' kept ▸ before inst (mem_of_getElem? here)
  have jumps := thinned (dropIdleJumps_eq (propagate vars code)) (fun _ _ _ => keepJump_some) each
  have labels := thinned (dropIdleLabels_eq _) (fun _ _ _ => keepLabel_some) jumps
  exact thinned dropDeadStores_eq (fun _ _ _ => keepStore_some) labels

theorem forall_simplify {Q : Inst → Prop} {m : Method} (sound : SoundMethod m)
    (keeps : ∀ code, SoundCode m.vars m.ret code → (∀ inst ∈ code, Q inst) →
      ∀ inst ∈ propagate m.vars code, Q inst)
    (each : ∀ inst ∈ m.code, Q inst) : ∀ inst ∈ m.simplify.code, Q inst := by
  have rounds : ∀ (n : Nat) (code : List Inst), SoundCode m.vars m.ret code →
      (∀ inst ∈ code, Q inst) → ∀ inst ∈ (simplifyRounds n { m with code }).code, Q inst := by
    intro n
    induction n with
    | zero => exact fun code _ each => each
    | succ n ih =>
      intro code sound each
      have next := forall_simplifyRound (keeps code sound each)
      rw [simplifyRounds]
      split
      · exact next
      · exact ih _ sound.simplifyRound next
  exact rounds _ m.code sound.code each

end

/-! ## Classes -/

/-- **Code is of the right types.** For a text that is read, whose table is built and whose tree is
checked without errors, and in which the type of every receiver is known, every instruction of
every method is of the right types. The method has a simplest form, and every instruction of that
form is of the right types too. -/
theorem classCode_type_correct {bytes : List UInt8} {f : File Pos} (read : parse bytes = .ok f)
    (built : hasErrors (buildTable f).reports = false)
    (analysed : hasErrors (analyze (buildTable f).value f).reports = false)
    (known : ∀ x ∈ (analyze (buildTable f).value f).value.file.receivers,
      (typeOf x).isUnknown = false) :
    ∀ m ∈ (classCode (analyze (buildTable f).value f).value).value.methods,
      (∀ inst ∈ m.code, inst.TypeCorrect
        (classCode (analyze (buildTable f).value f).value).value.fieldType? m.ret) ∧
      ∃ m', m.simplify? = some m' ∧ ∀ inst ∈ m'.code, inst.TypeCorrect
        (classCode (analyze (buildTable f).value f).value).value.fieldType? m.ret := by
  have accepted : Accepted bytes f := ⟨read, built, analysed⟩
  have strict : ReceiversFit False (analysisOf f).file.receivers :=
    fun x listed unknown => by rw [known x listed] at unknown; cases unknown
  intro m member
  have sound := accepted.soundMethods m member
  have correct : ∀ inst ∈ m.code, inst.TypeCorrect
      (classCode (analysisOf f)).value.fieldType? m.ret := by
    intro inst among
    have lowered := accepted.lowered strict m member inst among
    refine ⟨lowered.typed, fun c isCall onObject => ?_, lowered.words⟩
    obtain ⟨r, isRecv, ref⟩ := lowered.receiver c isCall onObject
    exact ⟨r, isRecv, ref.resolve_right fun never => never.1⟩
  refine ⟨correct, m.simplify, sound.simplify?_eq, forall_simplify sound (fun code => ?_) correct⟩
  exact typeCorrect_propagate sound.placeable.once

theorem classCode_type_correct_calling : ∃ f, parse callingText = .ok f ∧
    hasErrors (buildTable f).reports = false ∧
    hasErrors (analyze (buildTable f).value f).reports = false ∧
    (∀ x ∈ (analyze (buildTable f).value f).value.file.receivers, (typeOf x).isUnknown = false) ∧
    ∀ m ∈ (classCode (analyze (buildTable f).value f).value).value.methods,
      (∀ inst ∈ m.code, inst.TypeCorrect
        (classCode (analyze (buildTable f).value f).value).value.fieldType? m.ret) ∧
      ∃ m', m.simplify? = some m' ∧ ∀ inst ∈ m'.code, inst.TypeCorrect
        (classCode (analyze (buildTable f).value f).value).value.fieldType? m.ret := by
  obtain ⟨f, read, built, analysed, known⟩ := exists_calling
  exact ⟨f, read, built, analysed, known, classCode_type_correct read built analysed known⟩

end JavaMinus.Code
