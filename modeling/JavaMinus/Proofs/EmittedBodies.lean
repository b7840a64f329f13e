import JavaMinus.Proofs.RegisterLimit
import JavaMinus.Proofs.TypedSimplification

/-!
# Labels and slots of emitted bodies

A body is closed (`Assembly.Closed`) when no label is defined twice, every jump names a label of
the body, and every slot that is read or written is below the number of slots of the method.

Several stages have to work together for this. The labels of code are numbered apart from those
of comparisons, and are of other kinds (`not_isComparisonLabel`). Fields are accessed through the
slot of the object, and only where there is one (`Accepted.declares_this`). Simplification adds
neither labels nor field accesses (`apart_simplify`), and placing gives every register a slot
below the number of slots.

**Emitted bodies** (`compile_bodies_closed`). Every body that is emitted for a source text is
closed.
-/

namespace JavaMinus

open List

open Syntax (File parse)
open Typing (analyze)
open Code (Inst Method SoundMethod Accepted analysisOf classCode labelKinds labelName)
open Assembly (accessesField lineLabels Instr)
open Registers (place placed finalForm limitReports)

variable {bytes : List UInt8} {m : Method} {f : File Pos}

/-! ## Closed bodies -/

/-- No label is defined twice, every jump is to a label of the body, and every slot is below a
number. -/
structure Assembly.Closed (body : List Instr) (locals : Int) : Prop where
  once : (lineLabels body).Nodup
  targets : ∀ i ∈ body, ∀ t, i.target? = some t → (lineLabels body).count t = 1
  slots : ∀ i ∈ body, ∀ s, i.slot? = some s → 0 ≤ s ∧ s < locals

namespace Code

/-! ## Code that is kept apart -/

/-- Fields are accessed only where there is an object, and labels are of the kinds that code is
made with. -/
structure Apart (isStatic : Bool) (inst : Inst) : Prop where
  object : accessesField inst = true → isStatic = false
  label : ∀ n, inst = .label n → ∃ kind ∈ labelKinds, ∃ k, n = labelName kind k

theorem not_isComparisonLabel {isStatic : Bool} {name : String}
    (apart : Apart isStatic (.label name)) : ¬ Assembly.IsComparisonLabel name := by
  intro comparison
  obtain ⟨kind, listed, k, rfl⟩ := apart.label name rfl
  rcases Assembly.kind_of_isComparisonLabel comparison with rfl | rfl
  · exact absurd listed (by decide)
  · exact absurd listed (by decide)

theorem accessesField_specialize {regs : List String} {st : Option State} {inst inst' : Inst}
    (left : inst.specialize regs st = some inst') (accesses : accessesField inst' = true) :
    accessesField inst = true := by
  cases st with
  | none =>
    simp only [Inst.specialize] at left
    split at left <;> cases left
    exact accesses
  | some st =>
    have kept : accessesField (inst.mapOperands (st.subst regs)) = accessesField inst := by
      cases inst <;> rfl
    rcases Inst.evaluate_cases left with rfl | ⟨d, v, _, _, _, rfl⟩ | ⟨_, _, t, _, _, rfl⟩
    · exact kept ▸ accesses
    · cases accesses
    · cases accesses

theorem apart_simplify (sound : SoundMethod m) {isStatic : Bool}
    (each : ∀ inst ∈ m.code, Apart isStatic inst) :
    ∀ inst ∈ m.simplify.code, Apart isStatic inst := by
  refine forall_simplify sound (fun code _ each inst' member => ?_) each
  rw [propagate_eq] at member
  obtain ⟨i, inst, here, left⟩ := mem_thin.mp member
  have before := each inst (mem_of_getElem? here)
  refine ⟨fun accesses => before.object (accessesField_specialize left accesses), fun n same => ?_⟩
  exact before.label n (Inst.specialize_eq_label (same ▸ left))

theorem Accepted.declares_this (accepted : Accepted bytes f) :
    ∀ m ∈ (classCode (analysisOf f)).value.methods, m.isStatic = false →
      ∃ v ∈ m.vars, v.kind = .this := by
  refine accepted.forall_methods (fun _ => ⟨_, mem_singleton_self _, rfl⟩) ?_
  intro i d declared object
  have runnable := accepted.runnable declared
  refine ⟨⟨"this", .object (buildTable f).value.cls, .this⟩, ?_, rfl⟩
  refine (methodCode_body runnable rfl).1.symm ▸ (bodyValue_tidy runnable).more.subset ?_
  have isStatic : (methodSymbol i d).value.isStatic = false := object
  simp [declaredVars, isStatic]

theorem declares_this_simplify {v : Var} (declared : v ∈ m.vars) (isThis : v.kind = .this) :
    v ∈ m.simplify.vars := by
  obtain ⟨code, same⟩ := simplifyRounds_shape (weight m.code + 1) m
  rw [Method.simplify, same]
  refine mem_filter.mpr ⟨declared, ?_⟩
  rw [Var.isNeeded, isThis]

end Code

/-! ## Bodies of methods -/

/-- What an assembled body needs of its method. -/
structure ReadyMethod (m : Method) : Prop where
  sound : SoundMethod m
  apart : ∃ isStatic, (∀ inst ∈ m.code, Code.Apart isStatic inst) ∧
    (isStatic = false → ∃ v ∈ m.vars, v.kind = .this)

theorem ReadyMethod.finalForm (ready : ReadyMethod m) (simplify : Bool) :
    ReadyMethod (finalForm simplify m) := by
  refine ⟨Registers.soundMethod_finalForm ready.sound simplify, ?_⟩
  unfold Registers.finalForm
  split
  · obtain ⟨isStatic, apart, object⟩ := ready.apart
    refine ⟨isStatic, Code.apart_simplify ready.sound apart, fun dynamic => ?_⟩
    obtain ⟨v, declared, isThis⟩ := object dynamic
    exact ⟨v, Code.declares_this_simplify declared isThis, isThis⟩
  · exact ready.apart

theorem Code.Accepted.readyMethods (accepted : Accepted bytes f) :
    ∀ m ∈ (classCode (analysisOf f)).value.methods, ReadyMethod m := by
  intro m member
  have fits : Code.ReceiversFit True (analysisOf f).file.receivers := fun _ _ _ => trivial
  have lowered := accepted.lowered fits
  refine ⟨accepted.soundMethods m member, m.isStatic, fun inst among => ?_,
    accepted.declares_this m member⟩
  have made := lowered m member inst among
  exact ⟨made.object, made.label⟩

theorem ReadyMethod.closed (ready : ReadyMethod m) {limit : Int} {p : Registers.Placement}
    (found : place m limit = .ok p) {cls : Code.Class} {made : Assembly.Method}
    (assembled : Assembly.assembleMethod cls { m with slots := some p.slots, locals := p.locals } =
      .ok made) :
    Assembly.Closed made.body made.locals := by
  obtain ⟨slots, isPlaced, _, locals, selected⟩ := Assembly.assembleMethod_selectAll assembled
  obtain rfl : p.slots = slots := Option.some.inj isPlaced
  obtain ⟨isStatic, apart, object⟩ := ready.apart
  have layout := Registers.layout_of_place ready.sound.placeable found
  have once : (lineLabels made.body).Nodup := by
    rw [Assembly.labels_selectAll selected]
    exact Assembly.nodup_bodyLabels ready.sound.placeable.labels
      (fun name isLabel => Code.not_isComparisonLabel (apart _ isLabel)) 0
  refine ⟨once, fun i member t target => ?_, fun i member s slot => ?_⟩
  · have defined := Assembly.target_mem_selectAll selected ready.sound.placeable.targets member target
    exact count_eq_one_of_mem once (Assembly.mem_lineLabels.mpr defined)
  · rw [locals]
    obtain ⟨inst, among, ⟨name, isSlot⟩ | ⟨rfl, accesses⟩⟩ :=
      Assembly.slots_selectAll selected member slot
    · exact layout.inside name s isSlot
    · -- The first slot is that of the object, which only a static method lacks.
      obtain ⟨v, declared, isThis⟩ := object ((apart inst among).object accesses)
      exact layout.inside v.name 0 (layout.this v declared isThis)

/-! ## Texts that are compiled -/

theorem Code.Accepted.reports_eq_nil (accepted : Accepted bytes f)
    (passed : hasErrors (classCode (analysisOf f)).reports = false) :
    (classCode (analysisOf f)).reports = [] := by
  refine eq_nil_iff_forall_not_mem.mpr fun r member => ?_
  have isReport := member
  rw [accepted.reports] at isReport
  obtain ⟨call, _, rfl⟩ := mem_map.mp isReport
  exact absurd rfl (any_eq_false.mp passed _ member)

theorem exists_accepted {opts : Options} {text : String}
    (compiled : (compile opts bytes).value.assembly = some text) :
    ∃ f, Accepted bytes f ∧ (classCode (analysisOf f)).reports = [] := by
  rw [compile] at compiled
  split at compiled
  case h_1 => cases compiled
  case h_2 f read =>
    unfold checkStage at compiled
    simp only at compiled
    split at compiled
    case isTrue => cases compiled
    case isFalse checked =>
      simp only [hasErrors, any_append, Bool.or_eq_true, not_or, Bool.not_eq_true] at checked
      have accepted : Accepted bytes f := ⟨read, checked.1, checked.2⟩
      unfold codeStage at compiled
      simp only at compiled
      split at compiled
      case isTrue => cases compiled
      case isFalse coded =>
        exact ⟨f, accepted, accepted.reports_eq_nil (Bool.eq_false_iff.mpr coded)⟩

theorem exists_finished {opts : Options} {text : String}
    (compiled : (compile opts bytes).value.assembly = some text) :
    ∃ f a, Accepted bytes f ∧ (∀ m ∈ (classCode (analysisOf f)).value.methods,
        limitReports opts.maxRegisters (finalForm opts.optimize m) = []) ∧
      (compile opts bytes).value.finished =
        some (finishedClass opts (classCode (analysisOf f)).value) ∧
      Assembly.assemble (finishedClass opts (classCode (analysisOf f)).value) = .ok a ∧
      text = a.text := by
  obtain ⟨f, accepted, silent⟩ := exists_accepted compiled
  obtain ⟨last, stage, finished, _, failed, assembled⟩ :=
    placeStage_eq opts accepted.soundMethods (codedFile f)
  rw [compile_of_code opts accepted silent, stage] at compiled ⊢
  have passed : hasErrors (slotReports opts (classCode (analysisOf f)).value) = false := by
    refine Bool.eq_false_iff.mpr fun reported => ?_
    have none := (failed reported).symm.trans compiled
    cases none
  obtain ⟨a, isAssembled, isText⟩ := assembled passed
  refine ⟨f, a, accepted, fun m member => ?_, finished, isAssembled,
    Option.some.inj (compiled.symm.trans isText)⟩
  refine eq_nil_iff_forall_not_mem.mpr fun r among => ?_
  exact any_eq_false.mp passed r (mem_flatMap.mpr ⟨m, member, among⟩)
    (Registers.mem_limitReports among)

/-- **Emitted bodies are closed.** Whenever a text is compiled to assembly, simplified or not and
with any limit on registers, the assembly is the text of a class in each of whose bodies no
label is defined twice, every jump names a label that is defined once, and every slot is below
the number of slots that is printed before the body. -/
theorem compile_bodies_closed {opts : Options} {bytes : List UInt8} {text : String}
    (compiled : (compile opts bytes).value.assembly = some text) :
    ∃ finished a, (compile opts bytes).value.finished = some finished ∧
      Assembly.assemble finished = .ok a ∧ text = a.text ∧
      ∀ made ∈ a.methods, ∃ locals, Assembly.Closed made.body locals ∧
        ∃ start, made.text = start ++ "\t.limit locals " ++ toString locals ++ "\n" ++
          String.join (made.body.map Instr.line) ++ ".end method\n" := by
  obtain ⟨f, a, accepted, fits, finished, assembled, isText⟩ := exists_finished compiled
  refine ⟨_, a, finished, assembled, isText, fun made member => ⟨made.locals, ?_, _, rfl⟩⟩
  obtain ⟨m', listed, here⟩ := Assembly.exists_assembled assembled member
  obtain ⟨m, isMethod, rfl⟩ := mem_map.mp listed
  have ready := (accepted.readyMethods m isMethod).finalForm opts.optimize
  obtain ⟨p, found, isPlaced⟩ := Registers.placed_of_not_reported ready.sound (fits m isMethod)
  rw [isPlaced] at here
  exact ready.closed found here

theorem compile_bodies_closed_busy : ∃ text,
    (compile ⟨true, 0⟩ Code.busyText).value.assembly = some text ∧
    ∃ finished a, (compile ⟨true, 0⟩ Code.busyText).value.finished = some finished ∧
      Assembly.assemble finished = .ok a ∧ text = a.text ∧
      ∀ made ∈ a.methods, ∃ locals, Assembly.Closed made.body locals ∧
        ∃ start, made.text = start ++ "\t.limit locals " ++ toString locals ++ "\n" ++
          String.join (made.body.map Instr.line) ++ ".end method\n" := by
  obtain ⟨f, read, checked⟩ := exists_read Code.busyText Code.passes (by decide +kernel)
  obtain ⟨built, analysed, silent⟩ := Code.passes_iff.mp checked
  have accepted : Accepted Code.busyText f := ⟨read, built, analysed⟩
  obtain ⟨last, stage, _, _, _, assembled⟩ :=
    placeStage_eq ⟨true, 0⟩ accepted.soundMethods (codedFile f)
  -- Without a limit no method is reported.
  have passed : hasErrors (slotReports ⟨true, 0⟩ (classCode (analysisOf f)).value) = false := by
    refine Bool.eq_false_iff.mpr fun reported => ?_
    have limited := ((hasErrors_slotReports ⟨true, 0⟩ accepted.soundMethods).mp reported).1
    exact absurd limited (by decide)
  obtain ⟨a, _, isText⟩ := assembled passed
  have compiled : (compile ⟨true, 0⟩ Code.busyText).value.assembly = some a.text := by
    rw [compile_of_code ⟨true, 0⟩ accepted silent, stage]
    exact isText
  exact ⟨a.text, compiled, compile_bodies_closed compiled⟩

end JavaMinus
