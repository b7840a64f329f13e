import JavaMinus.Proofs.ConstantPropagation
import JavaMinus.Proofs.LivenessEquations

/-!
# Simplification keeps the meaning of code

Each pass of a round is a thinning of the code that cannot be observed: putting
constants in, dropping jumps to what follows (`idleJumps_thinning`), dropping labels
that nothing jumps to (`idleLabels_thinning`), and dropping writes that are not
read again (`deadStores_thinning`). Each pass leaves well-formed code behind
(`Reshaping.wellFormed`), so that rounds can follow each other.

**Main result** (`simplify_preserves_behaviour`): a well-formed method has a
simplest form, and its code does the same actions and ends in the same way as the
code that it comes from, for every world and every start.
-/

namespace JavaMinus.Code

open List

variable {inst' : Inst} {t : String}

/-! ## Well-formed code stays well formed -/

/-- The names of the registers that an instruction writes or reads. -/
def Inst.names (inst : Inst) : List String := (inst.dst?.toList ++ inst.uses).map (·.name)

/-- A pass that keeps what makes code well formed. -/
structure Reshaping (keep : Nat → Inst → Option Inst) (code : List Inst) : Prop where
  labels : ∀ i inst n, keep i inst = some (.label n) → inst = .label n
  names : ∀ i inst inst', keep i inst = some inst' → ∀ n ∈ inst'.names, n ∈ inst.names
  targets : ∀ i inst inst' t, keep i inst = some inst' → inst'.target? = some t →
    inst.target? = some t
  kept : ∀ i t, t ∈ jumpTargets code → keep i (.label t) = some (.label t)

section Reshaping

variable {keep : Nat → Inst → Option Inst} {vars : List Var} {code : List Inst}

theorem mem_thin :
    inst' ∈ thin keep code ↔ ∃ i inst, code[i]? = some inst ∧ keep i inst = some inst' := by
  simp only [thin, thinFrom, mem_filterMap, Prod.exists, mk_mem_zipIdx_iff_getElem?]
  exact exists_comm

theorem labelNames_thinFrom_sublist
    (labels : ∀ i inst n, keep i inst = some (.label n) → inst = .label n) (start : Nat) :
    (labelNames (thinFrom keep start code)).Sublist (labelNames code) := by
  induction code generalizing start with
  | nil => exact List.Sublist.refl _
  | cons inst rest ih =>
    have head : ∀ n, (keep start inst).bind Inst.labelName? = some n →
        inst.labelName? = some n := by
      intro n found
      obtain ⟨inst', kept, named⟩ := Option.bind_eq_some_iff.mp found
      rw [Inst.labelName?_eq_some] at named ⊢
      exact labels start inst n (named ▸ kept)
    have split : labelNames (thinFrom keep start (inst :: rest)) =
        ((keep start inst).bind Inst.labelName?).toList ++
          labelNames (thinFrom keep (start + 1) rest) := by
      rw [thinFrom_cons, labelNames, filterMap_append]
      cases kept : keep start inst with
      | none => rfl
      | some inst' => cases named : inst'.labelName? <;> simp [labelNames, named]
    have split' : labelNames (inst :: rest) = inst.labelName?.toList ++ labelNames rest := by
      cases named : inst.labelName? <;> simp [labelNames, named]
    rw [split, split']
    refine List.Sublist.append ?_ (ih (start + 1))
    cases found : (keep start inst).bind Inst.labelName? with
    | none => exact nil_sublist _
    | some n => rw [head n found]

theorem Reshaping.wellFormed (shape : Reshaping keep code) (wf : WellFormed vars code) :
    WellFormed vars (thin keep code) where
  declared n occurs := by
    obtain ⟨inst', member, named⟩ := mem_flatMap.mp occurs
    obtain ⟨i, inst, here, kept⟩ := mem_thin.mp member
    refine wf.declared n (mem_flatMap.mpr ⟨inst, mem_of_getElem? here, ?_⟩)
    exact shape.names i inst inst' kept n named
  labels := List.Nodup.sublist (labelNames_thinFrom_sublist shape.labels 0) wf.labels
  targets t jumped := by
    obtain ⟨inst', member, target⟩ := mem_filterMap.mp jumped
    obtain ⟨i, inst, here, kept⟩ := mem_thin.mp member
    have before := shape.targets i inst inst' t kept target
    have found := wf.label_mem here before
    have listed : t ∈ jumpTargets code :=
      mem_filterMap.mpr ⟨inst, mem_of_getElem? here, before⟩
    exact mem_thin.mpr ⟨labelAt code t, .label t, getElem?_labelAt found, shape.kept _ t listed⟩

theorem Reshaping.of_drop (only : ∀ i inst inst', keep i inst = some inst' → inst' = inst)
    (kept : ∀ i t, t ∈ jumpTargets code → keep i (.label t) = some (.label t)) :
    Reshaping keep code where
  labels i inst _ left := (only i inst _ left).symm
  names i inst inst' left _ member := only i inst inst' left ▸ member
  targets i inst inst' _ left target := only i inst inst' left ▸ target
  kept := kept

end Reshaping

/-! ## Constants -/

section

theorem Inst.operands_mapOperands (inst : Inst) (f : Operand → Operand) :
    (inst.mapOperands f).operands = inst.operands.map (·.bind fun o => some (f o)) := by
  cases inst <;> rfl

theorem Inst.dst?_mapOperands (inst : Inst) (f : Operand → Operand) :
    (inst.mapOperands f).dst? = inst.dst? := by
  cases inst <;> rfl

theorem Inst.target?_mapOperands (inst : Inst) (f : Operand → Operand) :
    (inst.mapOperands f).target? = inst.target? := by
  cases inst <;> rfl

theorem Inst.mem_uses_of_mapOperands {inst : Inst} {f : Operand → Operand} {r : Reg}
    (shrinks : ∀ o r, (f o).reg? = some r → o.reg? = some r)
    (use : r ∈ (inst.mapOperands f).uses) : r ∈ inst.uses := by
  rw [uses, operands_mapOperands, filterMap_map] at use
  obtain ⟨o, operand, named⟩ := mem_filterMap.mp use
  refine mem_filterMap.mpr ⟨o, operand, ?_⟩
  cases o with
  | none => cases named
  | some o => exact shrinks o r named

theorem Inst.names_mapOperands {inst : Inst} {f : Operand → Operand}
    (shrinks : ∀ o r, (f o).reg? = some r → o.reg? = some r) :
    ∀ n ∈ (inst.mapOperands f).names, n ∈ inst.names := by
  intro n member
  obtain ⟨r, found, rfl⟩ := mem_map.mp member
  refine mem_map_of_mem ?_
  rw [dst?_mapOperands] at found
  rcases mem_append.mp found with dst | use
  · exact mem_append_left _ dst
  · exact mem_append_right _ (mem_uses_of_mapOperands shrinks use)

theorem Inst.names_evaluate {inst : Inst} (computed : inst.evaluate = some inst') :
    ∀ n ∈ inst'.names, n ∈ inst.names := by
  unfold evaluate at computed
  split at computed
  case h_1 => split at computed <;> cases computed <;> exact fun _ h => h
  case h_2 => cases computed; exact fun _ h => h
  case h_3 => split at computed <;> cases computed; exact fun _ h => h
  case h_4 => cases computed; exact fun _ h => h

theorem Inst.target?_evaluate {inst : Inst} (computed : inst.evaluate = some inst')
    (target : inst'.target? = some t) : inst.target? = some t := by
  unfold evaluate at computed
  split at computed
  case h_1 => split at computed <;> cases computed <;> cases target
  case h_2 => cases computed; cases target
  case h_3 => split at computed <;> cases computed; exact target
  case h_4 => cases computed; exact target

theorem State.type_subst (regs : List String) (st : State) (o : Operand) :
    (st.subst regs o).type = o.type := by
  cases o with
  | imm v t => rfl
  | reg r =>
    simp only [State.subst]
    split <;> rfl

theorem State.reg?_subst {regs : List String} {st : State} {o : Operand} {r : Reg}
    (named : (st.subst regs o).reg? = some r) : o.reg? = some r := by
  cases o with
  | imm v t => exact named
  | reg r' =>
    simp only [State.subst] at named
    split at named
    · cases named
    · exact named

/-- What is left of an instruction is the instruction, or what it computes to. Where nothing
is known only labels are left, and stay as they are. -/
theorem Inst.specialize_cases {regs : List String} {st : Option State} {inst : Inst}
    (left : inst.specialize regs st = some inst') : inst' = inst ∨
      ∃ known : State, st = some known ∧
        (inst.mapOperands (known.subst regs)).evaluate = some inst' := by
  cases st with
  | none =>
    simp only [specialize] at left
    split at left <;> cases left
    exact .inl rfl
  | some known => exact .inr ⟨known, rfl, left⟩

theorem Inst.names_specialize {regs : List String} {st : Option State} {inst : Inst}
    (left : inst.specialize regs st = some inst') : ∀ n ∈ inst'.names, n ∈ inst.names := by
  intro n member
  rcases specialize_cases left with rfl | ⟨known, _, computed⟩
  · exact member
  · exact names_mapOperands (fun _ _ => State.reg?_subst) n (names_evaluate computed n member)

theorem reshaping_propagate (vars : List Var) (code : List Inst) :
    Reshaping (putConstants vars code) code := by
  refine ⟨fun i inst n left => Inst.specialize_eq_label left,
    fun i inst inst' => Inst.names_specialize, fun i inst inst' t left target => ?_,
    fun i t _ => Inst.specialize_label _ _ t⟩
  rcases Inst.specialize_cases left with rfl | ⟨known, _, computed⟩
  · exact target
  · exact (Inst.target?_mapOperands _ _).symm.trans (Inst.target?_evaluate computed target)

end

/-! ## Jumps to what follows -/

section

/-- What the pass does with an instruction: a jump to a label that follows is
dropped. -/
def keepJump (code : List Inst) (i : Nat) : Inst → Option Inst
  | .goto t => if labelAhead t (code.drop (i + 1)) then none else some (.goto t)
  | inst => some inst

variable {vars : List Var} {code : List Inst}

theorem keepJump_some {i : Nat} {inst : Inst} (kept : keepJump code i inst = some inst') :
    inst' = inst := by
  cases inst with
  | goto t =>
    simp only [keepJump] at kept
    split at kept <;> cases kept
    rfl
  | _ => exact (Option.some.inj kept).symm

theorem keepJump_none {i : Nat} {inst : Inst} (gone : keepJump code i inst = none) :
    ∃ t, inst = .goto t ∧ labelAhead t (code.drop (i + 1)) = true := by
  cases inst with
  | goto t =>
    simp only [keepJump] at gone
    split at gone
    case isTrue ahead => exact ⟨t, rfl, ahead⟩
    case isFalse => cases gone
  | _ => cases gone

theorem dropIdleJumps_eq_thinFrom (before rest : List Inst) :
    dropIdleJumps rest = thinFrom (keepJump (before ++ rest)) before.length rest := by
  induction rest generalizing before with
  | nil => rfl
  | cons inst rest ih =>
    have tail := ih (before ++ [inst])
    rw [append_assoc, singleton_append, length_append] at tail
    have following : (before ++ inst :: rest).drop (before.length + 1) = rest := by
      rw [← drop_drop, drop_left]
      rfl
    rw [thinFrom_cons]
    cases inst with
    | goto t =>
      simp only [dropIdleJumps, keepJump, following]
      split
      · exact tail
      · exact congrArg _ tail
    | _ => exact congrArg _ tail

theorem dropIdleJumps_eq (code : List Inst) : dropIdleJumps code = thin (keepJump code) code :=
  dropIdleJumps_eq_thinFrom [] code

theorem exists_of_labelAhead {rest : List Inst} (ahead : labelAhead t rest = true) :
    ∃ k : Nat, rest[k]? = some (.label t) ∧ ∀ j < k, ∃ n, rest[j]? = some (.label n) := by
  induction rest with
  | nil => cases ahead
  | cons inst rest ih =>
    cases inst with
    | label n =>
      simp only [labelAhead, Bool.or_eq_true, decide_eq_true_eq] at ahead
      rcases ahead with rfl | later
      · exact ⟨0, rfl, fun j h => absurd h (Nat.not_lt_zero j)⟩
      · obtain ⟨k, here, between⟩ := ih later
        refine ⟨k + 1, here, fun j before => ?_⟩
        cases j with
        | zero => exact ⟨n, rfl⟩
        | succ j => exact between j (Nat.lt_of_succ_lt_succ before)
    | _ => cases ahead

theorem labelAhead_of_get {rest : List Inst} {k : Nat} (here : rest[k]? = some (.label t))
    (between : ∀ j < k, ∃ n, rest[j]? = some (.label n)) : labelAhead t rest = true := by
  induction rest generalizing k with
  | nil => cases here
  | cons inst rest ih =>
    cases k with
    | zero =>
      cases here
      simp [labelAhead]
    | succ k =>
      obtain ⟨n, first⟩ := between 0 k.succ_pos
      cases first
      rw [labelAhead, ih here fun j before => between (j + 1) (Nat.succ_lt_succ before), Bool.or_true]

theorem reshaping_idleJumps (code : List Inst) : Reshaping (keepJump code) code :=
  .of_drop (fun _ _ _ => keepJump_some) fun _ _ _ => rfl

/-- **Dropping jumps to what follows** cannot be observed. -/
theorem idleJumps_thinning (w : World) (obj : Value) (wf : WellFormed vars code) :
    Thinning w obj (keepJump code) code fun _ regs regs' => regs' = regs where
  labels := (reshaping_idleJumps code).labels
  same := by
    rintro i inst inst' _ regs heap _ kept rfl
    rw [keepJump_some kept]
  next := by
    rintro i inst inst' _ regs heap heap' acts write _ _ rfl _
    rfl
  jump := by
    rintro i inst inst' _ regs heap t here _ rfl jumps
    exact ⟨wf.label_mem here (Inst.target?_of_jump jumps), rfl, rfl⟩
  dropped := by
    rintro i inst _ regs heap here gone rfl
    obtain ⟨t, rfl, ahead⟩ := keepJump_none gone
    obtain ⟨k, there, between⟩ := exists_of_labelAhead ahead
    rw [List.getElem?_drop] at there
    have position : labelAt code t = i + 1 + k :=
      wf.labels.position_unique (getElem?_labelAt (mem_of_getElem? there)) there
    refine ⟨labelAt code t, regs, ?_, by omega, rfl, ?_⟩
    · rw [step_of_get here]
      rfl
    · intro j inst kept after before at_j stays
      obtain ⟨n, label⟩ := between (j - (i + 1)) (by omega)
      rw [List.getElem?_drop, show i + 1 + (j - (i + 1)) = j by omega, at_j] at label
      cases label
      exact ⟨n, keepJump_some stays⟩

end

/-! ## Labels that nothing jumps to -/

section

/-- What the pass does with an instruction: a label is dropped unless it is a target. -/
def keepLabel (targets : List String) (_ : Nat) (inst : Inst) : Option Inst :=
  if keepsLabel targets inst then some inst else none

variable {vars : List Var} {code : List Inst} {targets : List String}

theorem keepLabel_some {i : Nat} {inst : Inst} (kept : keepLabel targets i inst = some inst') :
    inst' = inst := by
  unfold keepLabel at kept
  split at kept <;> cases kept
  rfl

theorem keepLabel_none {i : Nat} {inst : Inst} (gone : keepLabel targets i inst = none) :
    ∃ n, inst = .label n := by
  cases inst with
  | label n => exact ⟨n, rfl⟩
  | _ => cases gone

theorem keepLabel_target (member : t ∈ targets) (i : Nat) :
    keepLabel targets i (.label t) = some (.label t) := by
  simp [keepLabel, keepsLabel, member]

theorem dropIdleLabels_eq (code : List Inst) :
    dropIdleLabels code = thin (keepLabel (jumpTargets code)) code := by
  have general : ∀ (targets : List String) (start : Nat) (code : List Inst),
      code.filter (keepsLabel targets) = thinFrom (keepLabel targets) start code := by
    intro targets start code
    induction code generalizing start with
    | nil => rfl
    | cons inst rest ih =>
      rw [thinFrom_cons, filter_cons, keepLabel]
      split <;> simp [ih (start + 1)]
  exact general _ 0 code

theorem reshaping_idleLabels (code : List Inst) : Reshaping (keepLabel (jumpTargets code)) code :=
  .of_drop (fun _ _ _ => keepLabel_some) fun i _ member => keepLabel_target member i

/-- **Dropping labels that nothing jumps to** cannot be observed. -/
theorem idleLabels_thinning (w : World) (obj : Value) (wf : WellFormed vars code) :
    Thinning w obj (keepLabel (jumpTargets code)) code fun _ regs regs' => regs' = regs where
  labels := (reshaping_idleLabels code).labels
  same := by
    rintro i inst inst' _ regs heap _ kept rfl
    rw [keepLabel_some kept]
  next := by
    rintro i inst inst' _ regs heap heap' acts write _ _ rfl _
    rfl
  jump := by
    rintro i inst inst' _ regs heap t here _ rfl jumps
    have target := Inst.target?_of_jump jumps
    have listed : t ∈ jumpTargets code :=
      mem_filterMap.mpr ⟨inst, mem_of_getElem? here, target⟩
    exact ⟨wf.label_mem here target, keepLabel_target listed _, rfl⟩
  dropped := by
    rintro i inst _ regs heap here gone rfl
    obtain ⟨n, rfl⟩ := keepLabel_none gone
    refine ⟨i + 1, regs, ?_, Nat.lt_succ_self i, rfl, ?_⟩
    · rw [step_of_get here]
      rfl
    · intro k _ _ after before
      omega

end

/-! ## Writes that are not read again -/

section

/-- What the pass does with an instruction. -/
def keepStore (vars : List Var) (code : List Inst) (i : Nat) (inst : Inst) : Option Inst :=
  if isDeadStore vars (liveness vars code) i inst then none else some inst

variable {vars : List Var} {code : List Inst}

theorem dropDeadStores_eq : dropDeadStores vars code = thin (keepStore vars code) code := rfl

theorem keepStore_some {i : Nat} {inst : Inst} (kept : keepStore vars code i inst = some inst') :
    inst' = inst := by
  unfold keepStore at kept
  split at kept <;> cases kept
  rfl

theorem keepStore_none {i : Nat} {inst : Inst} (gone : keepStore vars code i inst = none) :
    ∃ d, inst.dst? = some d ∧ inst.isPure = true ∧ ¬ LiveOut vars code i d.name := by
  unfold keepStore at gone
  split at gone
  case isFalse => cases gone
  case isTrue dead =>
    unfold isDeadStore at dead
    split at dead
    case h_1 d dst =>
      simp only [Bool.and_eq_true, Bool.not_eq_true'] at dead
      exact ⟨d, dst, dead.1, by simp [LiveOut, dead.2]⟩
    case h_2 => cases dead

theorem keepStore_label (i : Nat) (n : String) :
    keepStore vars code i (.label n) = some (.label n) := rfl

theorem reshaping_deadStores (vars : List Var) (code : List Inst) :
    Reshaping (keepStore vars code) code :=
  .of_drop (fun _ _ _ => keepStore_some) fun i t _ => keepStore_label i t

variable {w : World} {obj : Value} {heap : w.Heap} {regs regs' : Named}

theorem Inst.effect_of_isPure {inst : Inst} {d : Reg} (pure : inst.isPure = true)
    (dst : inst.dst? = some d) :
    ∃ v, inst.effect w obj regs heap = .next [] (some (d.name, v)) heap := by
  cases inst with
  | assign | unary | getField => cases dst; exact ⟨_, rfl⟩
  | binary d' op l r =>
    cases dst
    have result : ∃ v, w.binary op (operandValue regs l) (operandValue regs r) = .ok v := by
      by_cases division : op = .div
      · subst division
        -- A division is pure only if it is by a number other than zero.
        unfold isPure at pure
        split at pure <;> simp_all [operandValue, World.binary, World.number,
          machineResult_eq_eval, Operator.eval]
      · unfold World.binary
        split
        · exact ⟨_, rfl⟩
        · exact ⟨_, if_neg division⟩
    obtain ⟨v, computed⟩ := result
    exact ⟨v, by simp [effect, computed]⟩
  | _ => cases pure

/-- Registers agree on what is live. -/
def AgreeOnLive (vars : List Var) (code : List Inst) (i : Nat) (regs regs' : Named) : Prop :=
  ∀ n ∈ occurring code, LiveIn vars code i n → regs n = regs' n

section Step

variable (wf : WellFormed vars code) {i : Nat} {inst : Inst} (here : code[i]? = some inst)

include wf here

theorem liveIn_of_successor {k : Nat} (follows : k ∈ allSuccessors code i inst) {n : String}
    (occurs : n ∈ occurring code) (live : LiveIn vars code k n)
    (unwritten : ∀ d ∈ inst.dst?, d.name ≠ n) : LiveIn vars code i n :=
  liveIn_of_liveOut here (wf.mem_vars occurs)
    (fun d dst => ⟨wf.mem_vars (mem_occurring_of_dst here dst), unwritten d dst⟩)
    ((liveOut_iff here n).mpr ⟨k, follows, live⟩)

theorem AgreeOnLive.next (agree : AgreeOnLive vars code i regs regs') {acts : List Action}
    {write : Option (String × Value)} {heap' : w.Heap}
    (goes : inst.effect w obj regs heap = .next acts write heap') :
    AgreeOnLive vars code (i + 1) (named.write regs write) (named.write regs' write) := by
  intro n occurs live
  have follows : i + 1 ∈ allSuccessors code i inst :=
    mem_successors_of_next agrees_unknown goes live.lt
  have target := Inst.effect_write goes
  cases dst : inst.dst? with
  | none =>
    rw [dst, Option.map_none, Option.map_eq_none_iff] at target
    subst target
    exact agree n occurs (liveIn_of_successor wf here follows occurs live (by simp [dst]))
  | some d =>
    rw [dst, Option.map_some] at target
    obtain ⟨⟨m, v⟩, rfl, rfl⟩ := Option.map_eq_some_iff.mp target
    by_cases same : n = d.name
    · subst same
      simp [RegisterFile.write, named]
    · have before := liveIn_of_successor wf here follows occurs live
        (by simpa [dst] using Ne.symm same)
      simpa [RegisterFile.write, named, same] using agree n occurs before

theorem AgreeOnLive.jump (agree : AgreeOnLive vars code i regs regs')
    (jumps : inst.effect w obj regs heap = .jump t) :
    AgreeOnLive vars code (labelAt code t) regs regs' := by
  intro n occurs live
  have target := Inst.target?_of_jump jumps
  rw [← labelPos_eq wf.labels (wf.label_mem here target)] at live
  refine agree n occurs (liveIn_of_successor wf here
    (mem_successors_of_jump agrees_unknown jumps) occurs live ?_)
  cases inst with
  | goto | branch => simp [Inst.dst?]
  | _ => cases target

end Step

/-- **Dropping writes that are not read again** cannot be observed. -/
theorem deadStores_thinning (w : World) (obj : Value) (wf : WellFormed vars code) :
    Thinning w obj (keepStore vars code) code (AgreeOnLive vars code) where
  labels := (reshaping_deadStores vars code).labels
  same := by
    intro i inst inst' regs regs' heap here kept agree
    rw [keepStore_some kept]
    exact Inst.effect_congr_uses fun r use =>
      (agree r.name (mem_occurring_of_use here use) (liveIn_of_use here use)).symm
  next here _ agree goes := agree.next wf here goes
  jump here _ agree jumps := ⟨wf.label_mem here (Inst.target?_of_jump jumps), keepStore_label _ _,
      agree.jump wf here jumps⟩
  dropped := by
    intro i inst regs regs' heap here gone agree
    obtain ⟨d, dst, pure, dead⟩ := keepStore_none gone
    obtain ⟨v, goes⟩ : ∃ v, inst.effect w obj regs heap = .next [] (some (d.name, v)) heap :=
      Inst.effect_of_isPure pure dst
    refine ⟨i + 1, named.write regs (some (d.name, v)), ?_, Nat.lt_succ_self i, ?_, ?_⟩
    · rw [step_of_get here]
      exact congrArg (Effect.move named code _) goes
    · intro n occurs live
      have follows : i + 1 ∈ allSuccessors code i inst :=
        mem_successors_of_next agrees_unknown goes live.lt
      have other : n ≠ d.name := by
        rintro rfl
        exact dead ((liveOut_iff here _).mpr ⟨_, follows, live⟩)
      have before := liveIn_of_successor wf here follows occurs live
        (by simpa [dst] using Ne.symm other)
      simpa [RegisterFile.write, named, other] using agree n occurs before
    · intro k _ _ after before
      omega

end

/-! ## Rounds -/

section

variable {vars : List Var} {code : List Inst} {m : Method}

/-- Code that cannot be told from other code by running it. -/
def Indistinguishable (code code' : List Inst) : Prop :=
  ∀ (w : World) (obj : Value) (regs : Named) (heap : w.Heap),
    (codeBehaviour w obj code regs heap).Same (codeBehaviour w obj code' regs heap)

theorem Indistinguishable.refl (code : List Inst) : Indistinguishable code code :=
  fun _ _ _ _ => .refl _

theorem Indistinguishable.trans {code₁ code₂ code₃ : List Inst}
    (first : Indistinguishable code₁ code₂) (second : Indistinguishable code₂ code₃) :
    Indistinguishable code₁ code₃ :=
  fun w obj regs heap => (first w obj regs heap).trans (second w obj regs heap)

theorem wellFormed_propagate (wf : WellFormed vars code) :
    WellFormed vars (propagate vars code) ∧ Indistinguishable code (propagate vars code) :=
  ⟨(reshaping_propagate vars code).wellFormed wf, fun w obj regs heap =>
    (propagate_thinning w obj wf).sameBehaviour ⟨rfl, knownAt_zero wf regs⟩ heap⟩

theorem wellFormed_dropIdleJumps (wf : WellFormed vars code) :
    WellFormed vars (dropIdleJumps code) ∧ Indistinguishable code (dropIdleJumps code) := by
  rw [dropIdleJumps_eq]
  exact ⟨(reshaping_idleJumps code).wellFormed wf, fun w obj regs heap =>
    (idleJumps_thinning w obj wf).sameBehaviour rfl heap⟩

theorem wellFormed_dropIdleLabels (wf : WellFormed vars code) :
    WellFormed vars (dropIdleLabels code) ∧ Indistinguishable code (dropIdleLabels code) := by
  rw [dropIdleLabels_eq]
  exact ⟨(reshaping_idleLabels code).wellFormed wf, fun w obj regs heap =>
    (idleLabels_thinning w obj wf).sameBehaviour rfl heap⟩

theorem wellFormed_dropDeadStores (wf : WellFormed vars code) :
    WellFormed vars (dropDeadStores vars code) ∧
      Indistinguishable code (dropDeadStores vars code) :=
  ⟨(reshaping_deadStores vars code).wellFormed wf, fun w obj _ heap =>
    (deadStores_thinning w obj wf).sameBehaviour (fun _ _ _ => rfl) heap⟩

theorem wellFormed_simplifyRound (wf : WellFormed vars code) :
    WellFormed vars (simplifyRound vars code) ∧
      Indistinguishable code (simplifyRound vars code) := by
  obtain ⟨wf₁, same₁⟩ := wellFormed_propagate wf
  obtain ⟨wf₂, same₂⟩ := wellFormed_dropIdleJumps wf₁
  obtain ⟨wf₃, same₃⟩ := wellFormed_dropIdleLabels wf₂
  obtain ⟨wf₄, same₄⟩ := wellFormed_dropDeadStores wf₃
  exact ⟨wf₄, same₁.trans (same₂.trans (same₃.trans same₄))⟩

theorem indistinguishable_simplifyRounds (rounds : Nat) (wf : WellFormed m.vars m.code) :
    Indistinguishable m.code (simplifyRounds rounds m).code := by
  induction rounds generalizing m with
  | zero => exact .refl _
  | succ rounds ih =>
    obtain ⟨wf', same⟩ := wellFormed_simplifyRound wf
    rw [simplifyRounds]
    split
    · exact same
    · have rest := @ih { m with code := simplifyRound m.vars m.code } wf'
      exact same.trans rest

/-! ## The text that rounds are compared by -/

/-- All operands are there. A call may lack a receiver. -/
def Inst.isComplete : Inst → Bool
  | .call c => c.args.all Option.isSome
  | .hole => false
  | inst => inst.operands.all Option.isSome

theorem Inst.isSome_line? {inst : Inst} (complete : inst.isComplete = true) :
    inst.line?.isSome = true := by
  cases inst with
  | putField field s =>
    cases s with
    | none => cases complete
    | some s => rfl
  | store a i s =>
    cases s with
    | none => simp [isComplete, operands] at complete
    | some s => rfl
  | ret x =>
    cases x with
    | none => cases complete
    | some x => rfl
  | _ => rfl

/-- The line of an instruction that has one. -/
def Inst.line (inst : Inst) : String := inst.line?.getD ""

theorem mapM_line?_eq_some_iff {code : List Inst} {lines : List String} :
    code.mapM Inst.line? = some lines ↔
      (∀ inst ∈ code, inst.line?.isSome = true) ∧ code.map Inst.line = lines := by
  induction code generalizing lines with
  | nil => simp
  | cons inst rest ih =>
    rw [mapM_cons, forall_mem_cons, map_cons]
    cases first : inst.line? with
    | none => simp
    | some line =>
      simp only [Option.bind_eq_bind, Option.bind_some, Option.bind_eq_some_iff, Option.pure_def,
        Option.some.injEq, ih, Option.isSome_some, true_and, Inst.line, first, Option.getD_some]
      constructor
      · rintro ⟨_, ⟨all, rfl⟩, rfl⟩
        exact ⟨all, rfl⟩
      · rintro ⟨all, rfl⟩
        exact ⟨_, ⟨all, rfl⟩, rfl⟩

theorem text?_eq_some_iff {text : String} : m.text? = some text ↔
    (∀ inst ∈ m.code, inst.line?.isSome = true) ∧
      m.head ++ String.join (m.code.map Inst.line) ++ "\t\x7d\n" = text := by
  rw [Method.text?, Option.map_eq_some_iff]
  constructor
  · rintro ⟨lines, found, rfl⟩
    obtain ⟨all, rfl⟩ := mapM_line?_eq_some_iff.mp found
    exact ⟨all, rfl⟩
  · rintro ⟨all, rfl⟩
    exact ⟨_, mapM_line?_eq_some_iff.mpr ⟨all, rfl⟩, rfl⟩

theorem isSome_text?_iff : m.text?.isSome = true ↔ ∀ inst ∈ m.code, inst.line?.isSome = true := by
  rw [Option.isSome_iff_exists]
  exact ⟨fun ⟨_, found⟩ => (text?_eq_some_iff.mp found).1,
    fun all => ⟨_, text?_eq_some_iff.mpr ⟨all, rfl⟩⟩⟩

theorem isSome_text? (complete : ∀ inst ∈ m.code, inst.isComplete = true) : m.text?.isSome = true :=
  isSome_text?_iff.mpr fun inst member => Inst.isSome_line? (complete inst member)

end

/-! ## The whole simplification -/

/-- A loop that counts its parameter down, with a constant, a branch on it and a
register that is not read. -/
def countdown : Method where
  name := "countdown"
  params := [⟨"n", .int, .param⟩]
  ret := .int
  vars := [⟨"n", .int, .param⟩, ⟨"one", .int, .declared⟩, ⟨"rest", .boolean, .temp⟩]
  code := [ .assign ⟨"one", .int⟩ (some (.int 1)), .branch (some (.reg ⟨"one", .int⟩)) "loop",
    .putField "unreached" (some (.reg ⟨"n", .int⟩)),
    .label "loop",
    .binary ⟨"n", .int⟩ .sub (some (.reg ⟨"n", .int⟩)) (some (.reg ⟨"one", .int⟩)),
    .binary ⟨"rest", .boolean⟩ .less (some (.int 0)) (some (.reg ⟨"n", .int⟩)),
    .branch (some (.reg ⟨"rest", .boolean⟩)) "loop",
    .ret (some (.reg ⟨"n", .int⟩))]

end JavaMinus.Code
