import JavaMinus.Proofs.CarefulCode
import JavaMinus.Proofs.WellMadeMethods

/-!
# Temporaries are written before they are read

On every control-flow path each temporary that an instruction reads is written by an instruction
before it (`TempsWritten`). This comes to the same as that no temporary is live at the start of
the code (`tempsWritten_of_not_liveAt`).

**Making code.** No temporary is live at the start of the code of a method, since the code is
careful (`methodCode_not_liveAt`).

**Simplifying.** A register that is live at the start of simplified code was live before
(`SoundCode.liveAt_simplifyRound`). Paths of thinned code keep to tracked positions of the old code,
where what is left of an instruction reads less, writes the same register and leads nowhere else
(`Tracks.liveAt`). What is dropped on the way writes nothing, or a register that is not read any
more.

**Main result.** `classCode_temporaries_written`: for an accepted text the temporaries of every
method of the class are written before they are read, and so are those of its simplest form.
-/

namespace JavaMinus.Code

open List

open Syntax (File parse)
open Typing (Mark Scope analyze checkMethod)

/-! ## Paths -/

/-- A control-flow path leads from the first instruction past the given ones to the position. -/
inductive PathPast (code : List Inst) : List Inst → Nat → Prop where
  | start : PathPast code [] 0
  | next {passed : List Inst} {i : Nat} {inst : Inst} : PathPast code passed i →
      code[i]? = some inst → inst.goesOn = true → PathPast code (passed ++ [inst]) (i + 1)
  | jump {passed : List Inst} {i j : Nat} {inst : Inst} {t : String} : PathPast code passed i →
      code[i]? = some inst → inst.target? = some t → code[j]? = some (.label t) →
      PathPast code (passed ++ [inst]) j

/-- On every control-flow path, an instruction that reads a temporary stands behind one that
writes it. -/
def TempsWritten (m : Method) : Prop :=
  ∀ passed i inst, PathPast m.code passed i → m.code[i]? = some inst → ∀ r ∈ inst.uses,
    (∃ v ∈ m.vars, v.name = r.name ∧ v.kind = .temp) →
      ∃ inst' ∈ passed, ∃ d, inst'.dst? = some d ∧ d.name = r.name

section Paths

variable {code : List Inst} {x : String}

theorem Inst.fallsThrough_eq (inst : Inst) : inst.fallsThrough = inst.goesOn := by
  cases inst <;> rfl

/-- A register that is live at the end of a path is live at its start, or written on the path. -/
theorem PathPast.liveAt (unique : UniqueLabels code) {passed : List Inst} {i : Nat}
    (path : PathPast code passed i) (live : LiveAt code i x) :
    LiveAt code 0 x ∨ ∃ inst ∈ passed, ∃ d, inst.dst? = some d ∧ d.name = x := by
  induction path with
  | start => exact .inl live
  | @next passed i inst _ here goes ih =>
    by_cases written : ∃ d, inst.dst? = some d ∧ d.name = x
    · exact .inr ⟨inst, by simp, written⟩
    · have leads : inst.LeadsTo code i (i + 1) := .inl ⟨inst.fallsThrough_eq.trans goes, rfl⟩
      refine (ih (.pass here (fun d dst same => written ⟨d, dst, same⟩) leads live)).imp_right ?_
      rintro ⟨inst', member, found⟩
      exact ⟨inst', by simp [member], found⟩
  | @jump passed i j inst t _ here target label ih =>
    by_cases written : ∃ d, inst.dst? = some d ∧ d.name = x
    · exact .inr ⟨inst, by simp, written⟩
    · have position : j = labelAt code t :=
        unique.position_unique label (getElem?_labelAt (mem_of_getElem? label))
      have leads : inst.LeadsTo code i j := .inr ⟨t, target, position⟩
      refine (ih (.pass here (fun d dst same => written ⟨d, dst, same⟩) leads live)).imp_right ?_
      rintro ⟨inst', member, found⟩
      exact ⟨inst', by simp [member], found⟩

theorem tempsWritten_of_not_liveAt {m : Method} (unique : UniqueLabels m.code)
    (unread : ∀ v ∈ m.vars, v.kind = .temp → ¬LiveAt m.code 0 v.name) : TempsWritten m := by
  rintro passed i inst path here r read ⟨v, member, same, isTemp⟩
  have notLive : ¬LiveAt m.code 0 r.name := same ▸ unread v member isTemp
  exact (path.liveAt unique (.use here read)).resolve_left notLive

end Paths

/-! ## Thinned code -/

/-- What a pass leaves of an instruction reads less, writes the same and does not go on where the
instruction did not. -/
structure ReadsLess (inst inst' : Inst) : Prop where
  uses : ∀ r ∈ inst'.uses, r ∈ inst.uses
  dst : inst'.dst? = inst.dst?
  goesOn : inst'.goesOn = true → inst.goesOn = true

theorem ReadsLess.refl (inst : Inst) : ReadsLess inst inst := ⟨fun _ => id, rfl, id⟩

theorem readsLess_specialize {regs : List String} {st : Option State} {inst inst' : Inst}
    (left : inst.specialize regs st = some inst') : ReadsLess inst inst' := by
  rcases Inst.specialize_cases left with rfl | ⟨known, rfl, computed⟩
  · exact .refl _
  have goesOn := Inst.goesOn_of_specialize left
  rcases Inst.evaluate_cases computed with same | ⟨d, v, dst, _, _, rfl⟩ | ⟨c, ty, t, _, branch, rfl⟩
  · subst same
    exact ⟨fun r => Inst.mem_uses_of_mapOperands fun _ _ => State.reg?_subst,
      Inst.dst?_mapOperands _ _, goesOn⟩
  · refine ⟨by simp [Inst.uses, Inst.operands, Operand.reg?], ?_, goesOn⟩
    rw [Inst.dst?_mapOperands] at dst
    exact dst.symm
  · refine ⟨by simp [Inst.uses, Inst.operands], ?_, goesOn⟩
    rw [← Inst.dst?_mapOperands inst (known.subst regs), branch]
    rfl

section Thinned

variable {keep : Nat → Inst → Option Inst} {vars : List Var} {ret : Ty} {code : List Inst}
  {P : Nat → Prop} {x : String}

/-- **A register that is live in thinned code** is live at the position that the path of the
thinned code keeps to. -/
theorem Tracks.liveAt (tracks : Tracks keep code P) (shape : Reshaping keep code)
    (wf : WellFormed vars code)
    (less : ∀ i inst inst', keep i inst = some inst' → ReadsLess inst inst')
    (dropped : ∀ i inst, P i → code[i]? = some inst → keep i inst = none →
      LiveAt code (i + 1) x → LiveAt code i x)
    {k : Nat} (live : LiveAt (thin keep code) k x) :
    ∀ i, P i → spot keep code i = k → LiveAt code i x := by
  induction live with
  | use there read =>
    rintro i tracked rfl
    obtain ⟨p, inst, inst', _, same, here, kept, back⟩ := tracks.exists_kept tracked
    rw [← same, getElem?_thin_spot here kept] at there
    cases there
    exact back (LiveAt code · _) dropped (.use here ((less p inst _ kept).uses _ read))
  | pass there unwritten leads _ ih =>
    rintro i tracked rfl
    obtain ⟨p, inst, inst', at_p, same, here, kept, back⟩ := tracks.exists_kept tracked
    rw [← same, getElem?_thin_spot here kept] at there
    cases there
    refine back (LiveAt code · _) dropped ?_
    have unwritten' := (less p inst _ kept).dst ▸ unwritten
    rcases leads with ⟨falls, rfl⟩ | ⟨t, target, rfl⟩
    · rw [Inst.fallsThrough_eq] at falls
      have goes := (less p inst _ kept).goesOn falls
      refine .pass here unwritten' (.inl ⟨(Inst.fallsThrough_eq inst).trans goes, rfl⟩)
        (ih dropped (p + 1) (tracks.next at_p here kept falls) ?_)
      rw [spot_kept here kept, same]
    · have before := shape.targets p inst _ t kept target
      have member := wf.label_mem here before
      have listed : t ∈ jumpTargets code :=
        mem_filterMap.mpr ⟨inst, mem_of_getElem? here, before⟩
      refine .pass here unwritten' (.inr ⟨t, before, rfl⟩) (ih dropped _
        (tracks.jump at_p here kept target (getElem?_labelAt member)) ?_)
      exact (labelAt_thin member (shape.kept _ t listed) shape.labels).symm

theorem LiveAt.of_next {i : Nat} {inst : Inst} (here : code[i]? = some inst)
    (unwritten : ∀ d ∈ inst.dst?, d.name ≠ x) (goes : inst.goesOn = true)
    (live : LiveAt code (i + 1) x) : LiveAt code i x :=
  .pass here unwritten (.inl ⟨inst.fallsThrough_eq.trans goes, rfl⟩) live

theorem LiveAt.past_label {i : Nat} {n : String} (live : LiveAt code i x)
    (here : code[i]? = some (.label n)) : LiveAt code (i + 1) x := by
  cases live with
  | use there read =>
    cases here.symm.trans there
    cases read
  | pass there _ leads later =>
    cases here.symm.trans there
    rcases leads with ⟨_, rfl⟩ | ⟨_, target, _⟩
    · exact later
    · cases target

namespace SoundCode

variable (sound : SoundCode vars ret code)

include sound

theorem liveAt_propagate (live : LiveAt (Code.propagate vars code) 0 x) : LiveAt code 0 x := by
  have tracks := tracks_propagate sound.wellFormed sound.inside
  refine tracks.liveAt (reshaping_propagate vars code) sound.wellFormed
    (fun _ _ _ => readsLess_specialize) ?_ live 0 tracks.start spot_zero
  rintro i inst ⟨_, st, found⟩ here gone next
  rw [putConstants, found] at gone
  obtain ⟨ty, t, same⟩ := Inst.evaluate_none gone
  refine .of_next here ?_ ?_ next
  · rw [← Inst.dst?_mapOperands inst (st.subst (registersOf vars code)), same]
    simp [Inst.dst?]
  · rw [← Inst.goesOn_mapOperands inst (st.subst (registersOf vars code)), same]
    rfl

theorem liveAt_dropIdleLabels (live : LiveAt (Code.dropIdleLabels code) 0 x) : LiveAt code 0 x := by
  have tracks := tracks_idleLabels sound.inside
  rw [dropIdleLabels_eq] at live
  refine tracks.liveAt (reshaping_idleLabels code) sound.wellFormed
    (fun i inst inst' kept => keepLabel_some kept ▸ .refl inst) ?_ live 0 tracks.start spot_zero
  intro i inst _ here gone next
  obtain ⟨n, rfl⟩ := keepLabel_none gone
  exact .of_next here (by simp [Inst.dst?]) rfl next

theorem liveAt_dropDeadStores (live : LiveAt (Code.dropDeadStores vars code) 0 x) :
    LiveAt code 0 x := by
  have tracks : Tracks (keepStore vars code) code (OnPath code) := tracks_deadStores sound.inside
  refine tracks.liveAt (reshaping_deadStores vars code) sound.wellFormed
    (fun i inst inst' kept => keepStore_some kept ▸ .refl inst) ?_ live 0 tracks.start spot_zero
  intro i inst _ here gone next
  obtain ⟨d, dst, isPure, dead⟩ := keepStore_none gone
  have goes : inst.goesOn = true := by
    cases inst with
    | goto | ret | retVoid => cases dst
    | _ => rfl
  refine .of_next here ?_ goes next
  rintro d' dst' rfl
  rw [dst] at dst'
  cases dst'
  have leads : inst.LeadsTo code i (i + 1) := .inl ⟨(Inst.fallsThrough_eq inst).trans goes, rfl⟩
  exact dead ((liveOut_iff here _).mpr ⟨i + 1,
    (mem_allSuccessors_iff sound.wellFormed here).mpr ⟨leads, next.lt⟩,
    liveIn_of_liveAt sound.wellFormed next⟩)

theorem liveAt_dropIdleJumps (live : LiveAt (Code.dropIdleJumps code) 0 x) : LiveAt code 0 x := by
  have tracks := tracks_idleJumps sound.inside
  rw [dropIdleJumps_eq] at live
  refine tracks.liveAt (reshaping_idleJumps code) sound.wellFormed
    (fun i inst inst' kept => keepJump_some kept ▸ .refl inst) ?_ live 0 tracks.start spot_zero
  intro i inst _ here gone next
  obtain ⟨t, rfl, ahead⟩ := keepJump_none gone
  obtain ⟨m, there, between⟩ := exists_of_labelAhead ahead
  have past : ∀ q ≤ m, LiveAt code (i + 1 + q) x := by
    intro q
    induction q with
    | zero => exact fun _ => next
    | succ q ih =>
      intro le
      obtain ⟨n, label⟩ := between q le
      rw [List.getElem?_drop] at label
      exact (ih (by omega)).past_label label
  rw [List.getElem?_drop] at there
  have position : i + 1 + m = labelAt code t := sound.wellFormed.labels.position_unique there
    (getElem?_labelAt (mem_of_getElem? there))
  exact .pass here (by simp [Inst.dst?]) (.inr ⟨t, rfl, position⟩) (past m (Nat.le_refl m))

/-- **A round of simplification** makes no register live. -/
theorem liveAt_simplifyRound (live : LiveAt (Code.simplifyRound vars code) 0 x) : LiveAt code 0 x :=
  sound.liveAt_propagate (sound.propagate.liveAt_dropIdleJumps
    (sound.propagate.dropIdleJumps.liveAt_dropIdleLabels
      (sound.propagate.dropIdleJumps.dropIdleLabels.liveAt_dropDeadStores live)))

end SoundCode

end Thinned

/-! ## Methods -/

/-- No temporary of the method is live at its start. -/
def NoLiveTemps (m : Method) : Prop := ∀ v ∈ m.vars, v.kind = .temp → ¬LiveAt m.code 0 v.name

section Methods

variable {m : Method}

theorem noLiveTemps_simplifyRounds (rounds : Nat) (sound : SoundCode m.vars m.ret m.code)
    (unread : NoLiveTemps m) : NoLiveTemps (simplifyRounds rounds m) := by
  induction rounds generalizing m with
  | zero => exact unread
  | succ rounds ih =>
    have next : NoLiveTemps { m with code := simplifyRound m.vars m.code } :=
      fun v member isTemp live => unread v member isTemp (sound.liveAt_simplifyRound live)
    rw [simplifyRounds]
    split
    · exact next
    · exact ih sound.simplifyRound next

theorem NoLiveTemps.simplify (unread : NoLiveTemps m) (sound : SoundMethod m) :
    NoLiveTemps m.simplify := by
  have rounds := noLiveTemps_simplifyRounds (weight m.code + 1) sound.code unread
  exact fun v member => rounds v (mem_of_mem_filter member)

theorem SoundMethod.tempsWritten (sound : SoundMethod m) (unread : NoLiveTemps m) :
    TempsWritten m :=
  tempsWritten_of_not_liveAt sound.code.wellFormed.labels unread

end Methods

section Bodies

variable {cls : String} {method : MethodSymbol} {sc : Scope} {loose : Prop} {m : Syntax.Method Mark}

/-- The names of the registers that a method starts with. -/
def startNames (cls : String) (method : MethodSymbol) : Set String :=
  {n | ∃ v ∈ declaredVars cls method, v.name = n}

theorem kind_declaredVars {v : Var} (member : v ∈ declaredVars cls method) : v.kind ≠ .temp := by
  simp only [declaredVars, mem_append, mem_map] at member
  rcases member with (this | ⟨p, _, rfl⟩) | ⟨l, _, rfl⟩
  · split at this
    · cases this
    · rw [mem_singleton.mp this]
      exact VarKind.noConfusion
  · exact VarKind.noConfusion
  · exact VarKind.noConfusion

theorem bodyValue_careful (runnable : RunnableMethod sc loose m) (s : Supply) :
    Carefully (startNames sc.table.cls sc.method) (fun W v => ∀ o, v = some o → Held W o)
      (bodyValue sc.table.cls m s) := by
  have knows := knows_declaredVars sc.table.cls sc.method
  have listed : ∀ v ∈ declaredVars sc.table.cls sc.method,
      v.name ∈ startNames sc.table.cls sc.method := fun v member => ⟨v, member, rfl⟩
  refine .bind (stmtsCode_careful (fun x member => (runnable.body x member).built.careful knows listed)
    Set.Subset.rfl) fun _ s' W more _ => ?_
  cases given : m.result with
  | none => exact .silent rfl (by rintro o ⟨⟩)
  | some x =>
    rw [resultValue, map_eq_pure_bind]
    refine .bind ((runnable.result x given).1.built.careful knows listed none s' W more)
      fun v s'' W' _ filled => ?_
    exact .silent rfl fun o same => Option.some.inj same ▸ filled.1

/-- **The code of a runnable method** does not read a temporary before it is written. -/
theorem noLiveTemps_methodCode (runnable : RunnableMethod sc loose m)
    (once : ((declaredVars sc.table.cls sc.method).map (·.name)).Nodup) :
    NoLiveTemps (methodCode sc.table.cls sc.method m).value := by
  have tidy := bodyValue_tidy runnable
  have careful := bodyValue_careful runnable { vars := declaredVars sc.table.cls sc.method }
  have unique := uniqueLabels_methodCode runnable
  obtain ⟨isVars, isCode, _⟩ := methodCode_body runnable rfl
  rw [isCode] at unique
  unfold NoLiveTemps
  rw [isVars, isCode]
  generalize bodyValue sc.table.cls m { vars := declaredVars sc.table.cls sc.method } = made at *
  obtain ⟨temps, vars, _⟩ := tidy.temps
  obtain ⟨W, body, held⟩ := careful
  obtain ⟨_, _, noTarget, _, operands⟩ := returnInst_ends made.value
  have returned : ∀ r ∈ (returnInst made.value).uses, r.name ∈ W := by
    intro r read
    rw [Inst.uses, operands] at read
    obtain ⟨o, member, named⟩ := mem_filterMap.mp read
    obtain ⟨v, isValue, rfl⟩ := mem_map.mp member
    exact held v (Option.mem_toList.mp isValue) r named
  intro v member isTemp
  refine (body.append (.plain noTarget returned .nil)).not_liveAt unique ?_
  rintro ⟨u, declared, same⟩
  -- Only temporaries are declared behind the registers that the method starts with.
  have distinct := tidy.nodup once
  rw [vars] at member distinct
  rw [map_append, nodup_append] at distinct
  rcases mem_append.mp member with early | late
  · exact absurd isTemp (kind_declaredVars early)
  · exact distinct.2.2 _ (mem_map_of_mem declared) _ (mem_map_of_mem late) same

end Bodies

/-- **Temporaries are written before they are read.** For a text that is read, whose table is built
and whose tree is checked without errors, this holds of every method of the class, and it has a
simplest form, of which it holds too. -/
theorem classCode_temporaries_written {bytes : List UInt8} {f : File Pos} (read : parse bytes = .ok f)
    (built : hasErrors (buildTable f).reports = false)
    (analysed : hasErrors (analyze (buildTable f).value f).reports = false) :
    ∀ m ∈ (classCode (analyze (buildTable f).value f).value).value.methods,
      TempsWritten m ∧ ∃ m', m.simplify? = some m' ∧ TempsWritten m' := by
  have accepted : Accepted bytes f := ⟨read, built, analysed⟩
  have unread : ∀ m ∈ (classCode (analysisOf f)).value.methods, NoLiveTemps m := by
    refine accepted.forall_methods (by simp [NoLiveTemps, constructorCode]) fun i d declared => ?_
    exact noLiveTemps_methodCode (accepted.runnable declared)
      (nodup_declaredVars (accepted.methodReadable (mem_of_getElem? declared)))
  intro m member
  have sound := accepted.soundMethods m member
  exact ⟨sound.tempsWritten (unread m member), m.simplify, sound.simplify?_eq,
    sound.simplify.tempsWritten ((unread m member).simplify sound)⟩

theorem classCode_temporaries_written_busy : ∃ f, parse busyText = .ok f ∧
    hasErrors (buildTable f).reports = false ∧
    hasErrors (analyze (buildTable f).value f).reports = false ∧
    ∀ m ∈ (classCode (analyze (buildTable f).value f).value).value.methods,
      TempsWritten m ∧ ∃ m', m.simplify? = some m' ∧ TempsWritten m' := by
  obtain ⟨f, read, checked⟩ := exists_read busyText passes (by decide +kernel)
  obtain ⟨built, analysed, _⟩ := passes_iff.mp checked
  exact ⟨f, read, built, analysed, classCode_temporaries_written read built analysed⟩

end JavaMinus.Code
