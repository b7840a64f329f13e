import JavaMinus.Proofs.TellingTexts

/-!
# Simplified code is in normal form

The passes of a round make work for each other: a branch that goes away leaves a label without
jumps, and a number in place of a register leaves a write that nobody reads. Simplification goes
on until no pass finds anything (`Steady`), and what each pass looks for is then absent from the
code (`IsNormal`).

**Reached positions.** What is known of registers is only ever handed on along control-flow paths
(`onPath_of_visited`). An instruction that is kept has been visited, and a label that is kept is
the target of a jump that has been.

**Main result** (`simplify_reaches_normal_form`): the simplest form of a well-formed method is in
normal form, and behaves as the method does.
-/

namespace JavaMinus.Code

open List

/-! ## Normal forms -/

/-- The instruction does nothing but write a register: it cannot fail. -/
inductive OnlyWrites : Inst → Reg → Prop where
  | assign (d : Reg) (s : Option Operand) : OnlyWrites (.assign d s) d
  | unary (d : Reg) (op : Operator) (x : Option Operand) : OnlyWrites (.unary d op x) d
  | getField (d : Reg) (field : String) : OnlyWrites (.getField d field) d
  | binary (d : Reg) {op : Operator} (l r : Option Operand) : op ≠ .div →
      OnlyWrites (.binary d op l r) d
  | quotient (d : Reg) (l : Option Operand) {v : Int32} (t : Ty) : v ≠ 0 →
      OnlyWrites (.binary d .div l (some (.imm v t))) d

/-- The label follows the position with only labels in between. -/
def FollowsPastLabels (code : List Inst) (i : Nat) (t : String) : Prop :=
  ∃ j, i < j ∧ code[j]? = some (.label t) ∧ ∀ k, i < k → k < j → ∃ n, code[k]? = some (.label n)

/-- A method that has nothing left to simplify. -/
structure IsNormal (m : Method) : Prop where
  reached : ∀ i < m.code.length, OnPath m.code i
  operators : ∀ d op a ta b tb, .binary d op (some (.imm a ta)) (some (.imm b tb)) ∈ m.code →
      op = .div ∧ b = 0 ∨ ∀ x y, op.eval x y = none
  negations : ∀ d a t, .unary d .not (some (.imm a t)) ∉ m.code
  branches : ∀ c ty t, .branch (some (.imm c ty)) t ∉ m.code
  jumps : ∀ i t, m.code[i]? = some (.goto t) → ¬ FollowsPastLabels m.code i t
  labels : ∀ n, .label n ∈ m.code → ∃ inst ∈ m.code, inst.target? = some n
  writes : ∀ i inst d, m.code[i]? = some inst → OnlyWrites inst d →
    ∃ k, inst.LeadsTo m.code i k ∧ LiveAt m.code k d.name
  declarations : ∀ v ∈ m.vars, v.kind = .declared ∨ v.kind = .temp → v.name ∈ occurring m.code

/-! ## What no pass changes -/

section

variable {vars : List Var} {code : List Inst} {i : Nat} {inst : Inst}

theorem mem_allSuccessors_of_mem {known : Option Operand → Option Bool} {k : Nat}
    (member : k ∈ successors code known i inst) : k ∈ allSuccessors code i inst := by
  cases inst with
  | branch c t =>
    simp only [successors] at member
    split at member
    · exact mem_singleton.mp member ▸ mem_cons_self
    · exact mem_cons_of_mem _ member
    · exact member
  | _ => exact member

theorem onPath_of_visited (wf : WellFormed vars code) {st : State}
    (found : (lastVisits vars code).at? i = some st) : OnPath code i := by
  refine allStates_lastVisits (Q := fun i _ => OnPath code i) (fun _ _ _ reached _ => reached) ?_
    (fun _ => .start) i st found
  intro j inst st here reached k member
  have follows : k ∈ allSuccessors code j inst := mem_allSuccessors_of_mem member
  rcases ((mem_allSuccessors_iff wf here).mp follows).1 with ⟨goes, rfl⟩ | ⟨t, target, rfl⟩
  · exact reached.next here goes
  · exact reached.jump here target (getElem?_labelAt (wf.label_mem here target))

theorem Steady.specialize_eq (steady : Steady vars code) (here : code[i]? = some inst) :
    inst.specialize (registersOf vars code) ((lastVisits vars code).at? i) = some inst :=
  thin_eq_self_iff.mp (propagate_eq ▸ steady.constants) i inst here

theorem Steady.visited (steady : Steady vars code) (here : code[i]? = some inst)
    (plain : inst.isLabel = false) :
    ∃ st, (lastVisits vars code).at? i = some st ∧
      (inst.mapOperands (st.subst (registersOf vars code))).evaluate = some inst := by
  have same := steady.specialize_eq here
  cases found : (lastVisits vars code).at? i with
  | none =>
    rw [found, Inst.specialize, plain] at same
    cases same
  | some st =>
    rw [found] at same
    exact ⟨st, rfl, same⟩

theorem Steady.evaluate_eq (steady : Steady vars code) (member : inst ∈ code)
    (plain : inst.isLabel = false) (numbers : ∀ o ∈ inst.operands, o.bind Operand.reg? = none) :
    inst.evaluate = some inst := by
  obtain ⟨i, here⟩ := mem_iff_getElem?.mp member
  obtain ⟨st, _, same⟩ := steady.visited here plain
  rwa [Inst.mapOperands_eq_self] at same
  intro o inside
  cases o with
  | reg r => cases numbers _ inside
  | imm v t => rfl

theorem Steady.target_of_label (steady : Steady vars code) {n : String} (member : .label n ∈ code) :
    ∃ (i : Nat) (inst : Inst), code[i]? = some inst ∧ inst.target? = some n := by
  obtain ⟨i, here⟩ := mem_iff_getElem?.mp member
  have kept := thin_eq_self_iff.mp (dropIdleLabels_eq code ▸ steady.labels) i _ here
  have target : n ∈ jumpTargets code := by
    by_contra absent
    simp [keepLabel, keepsLabel, absent] at kept
  obtain ⟨inst, inside, isTarget⟩ := mem_filterMap.mp target
  obtain ⟨j, there⟩ := mem_iff_getElem?.mp inside
  exact ⟨j, inst, there, isTarget⟩

/-- **Every position is reached.** -/
theorem Steady.onPath (steady : Steady vars code) (wf : WellFormed vars code)
    (here : code[i]? = some inst) : OnPath code i := by
  have plain : ∀ {j inst}, code[j]? = some inst → inst.isLabel = false → OnPath code j := by
    intro j inst there other
    obtain ⟨st, found, _⟩ := steady.visited there other
    exact onPath_of_visited wf found
  cases isLabel : inst.isLabel with
  | false => exact plain here isLabel
  | true =>
    cases inst with
    | label n =>
      obtain ⟨j, jump, there, target⟩ := steady.target_of_label (mem_of_getElem? here)
      have other : jump.isLabel = false := by
        cases jump with
        | label => cases target
        | _ => rfl
      exact (plain there other).jump there target here
    | _ => cases isLabel

theorem eq_div_of_eval {op : Operator} {a b : Int32} (without : op.eval a b = none) :
    op = .div ∧ b = 0 ∨ ∀ x y, op.eval x y = none := by
  cases op with
  | div =>
    refine .inl ⟨rfl, ?_⟩
    by_contra nonzero
    simp [Operator.eval, nonzero] at without
  | not | other => exact .inr fun _ _ => rfl
  | _ => cases without

theorem Steady.not_followsPastLabels (steady : Steady vars code) {t : String}
    (here : code[i]? = some (.goto t)) : ¬ FollowsPastLabels code i t := by
  rintro ⟨j, after, there, between⟩
  have kept := thin_eq_self_iff.mp (dropIdleJumps_eq code ▸ steady.jumps) i _ here
  have ahead : labelAhead t (code.drop (i + 1)) = true := by
    refine labelAhead_of_get (k := j - (i + 1)) ?_ fun k before => ?_
    · rwa [List.getElem?_drop, show i + 1 + (j - (i + 1)) = j by omega]
    · rw [List.getElem?_drop]
      exact between (i + 1 + k) (by omega) (by omega)
  simp [keepJump, ahead] at kept

theorem OnlyWrites.isPure {d : Reg} (writes : OnlyWrites inst d) :
    inst.dst? = some d ∧ inst.isPure = true := by
  cases writes with
  | assign | unary | getField => exact ⟨rfl, rfl⟩
  | @binary _ op _ _ other =>
    cases op with
    | div => exact absurd rfl other
    | _ => exact ⟨rfl, rfl⟩
  | quotient _ _ _ nonzero => exact ⟨rfl, by simpa [Inst.isPure] using nonzero⟩

theorem Steady.liveOut (steady : Steady vars code) (here : code[i]? = some inst) {d : Reg}
    (writes : OnlyWrites inst d) : LiveOut vars code i d.name := by
  obtain ⟨dst, pure⟩ := writes.isPure
  have kept := thin_eq_self_iff.mp (dropDeadStores_eq ▸ steady.stores) i inst here
  by_contra dead
  rw [LiveOut, Bool.not_eq_true] at dead
  simp [keepStore, isDeadStore, dst, pure, dead] at kept

end

/-- **Code that no pass changes is normal.** -/
theorem Steady.isNormal {m : Method} (steady : Steady m.vars m.code)
    (wf : WellFormed m.vars m.code) : IsNormal (pruneVars m) where
  reached i inside := steady.onPath wf (List.getElem?_eq_getElem inside)
  operators d op a ta b tb member := by
    have same := steady.evaluate_eq member rfl (by simp [Inst.operands, Operand.reg?])
    refine eq_div_of_eval (a := a) ?_
    cases value : op.eval a b with
    | none => rfl
    | some v =>
      rw [Inst.evaluate, value] at same
      cases same
  negations d a t member := by
    have same := steady.evaluate_eq member rfl (by simp [Inst.operands, Operand.reg?])
    cases same
  branches c ty t member := by
    have same := steady.evaluate_eq member rfl (by simp [Inst.operands, Operand.reg?])
    rw [Inst.evaluate] at same
    split at same <;> cases same
  jumps i t here := steady.not_followsPastLabels here
  labels n member := by
    obtain ⟨i, inst, there, target⟩ := steady.target_of_label member
    exact ⟨inst, mem_of_getElem? there, target⟩
  writes i inst d here writes := by
    obtain ⟨k, member, live⟩ := (liveOut_iff here d.name).mp (steady.liveOut here writes)
    have occurs : d.name ∈ occurring m.code := mem_occurring_of_dst here writes.isPure.1
    exact ⟨k, ((mem_allSuccessors_iff wf here).mp member).1, (liveIn_iff_liveAt wf occurs).mp live⟩
  declarations v member kind := by
    have needed := (mem_filter.mp member).2
    show v.name ∈ occurring m.code
    rcases kind with kind | kind
    · simpa [Var.isNeeded, kind] using needed
    · simpa [Var.isNeeded, kind] using needed

/-- **Simplification reaches a normal form.** A well-formed method that lacks no operand, and in
which the names of registers and of the classes of their types are words, has a simplest form. It
is normal, and its code behaves as that of the method does. -/
theorem simplify_reaches_normal_form (m : Method) (named : ∀ inst ∈ m.code, inst.Named)
    (complete : ∀ inst ∈ m.code, inst.isComplete = true) (wf : WellFormed m.vars m.code) :
    ∃ m', m.simplify? = some m' ∧ IsNormal m' ∧ Indistinguishable m.code m'.code := by
  have legible : Legible m.code := fun inst member =>
    ⟨named inst member, Inst.isSome_line? (complete inst member)⟩
  obtain ⟨code, simplest, _, steady, wf', same⟩ := exists_steady legible
    (P := fun code => WellFormed m.vars code ∧ Indistinguishable m.code code)
    ⟨wf, .refl m.code⟩ fun code kept =>
      have next := wellFormed_simplifyRound kept.1
      ⟨next.1, kept.2.trans next.2⟩
  exact ⟨_, simplest, Steady.isNormal (m := { m with code := code }) steady wf', same⟩

theorem simplify_reaches_normal_form_countdown : ((∀ inst ∈ countdown.code, inst.Named) ∧
      (∀ inst ∈ countdown.code, inst.isComplete = true) ∧
      WellFormed countdown.vars countdown.code) ∧
    ∃ m', countdown.simplify? = some m' ∧ IsNormal m' ∧
      Indistinguishable countdown.code m'.code := by
  have named : ∀ inst ∈ countdown.code, inst.Named := by decide +kernel
  have complete : ∀ inst ∈ countdown.code, inst.isComplete = true := by decide
  have wf : WellFormed countdown.vars countdown.code := ⟨by decide, by decide, by decide⟩
  exact ⟨⟨named, complete, wf⟩, simplify_reaches_normal_form countdown named complete wf⟩

end JavaMinus.Code
