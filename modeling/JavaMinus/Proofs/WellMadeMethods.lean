import JavaMinus.Proofs.AcceptedPrograms
import JavaMinus.Proofs.ControlPaths
import JavaMinus.Proofs.SlotLayout

/-!
# Methods are well made

What a method needs so that all later stages can handle it (`SoundMethod`): every register is
declared once and used at its declared type, jumps have their labels, no control-flow path runs
past the end, every instruction lacks nothing, and only a void method returns nothing.

**Making code.** Every method of an accepted file is sound (`soundMethod_methodCode`), since its
code is made tidily and ends with a return. **Simplifying** keeps a method sound
(`SoundMethod.simplify`): what a pass leaves of an instruction is simpler than the instruction
(`Simpler`), and declarations that are dropped are not needed.

**Main result.** `classCode_wellMade`: for an accepted text every method of the class is well made
(`WellMade`), and so is its simplest form.
-/

namespace JavaMinus.Code

open List

open Syntax (File parse)
open Typing (Mark Scope analyze checkMethod)
open Registers (Placeable)

/-! ## Sound methods -/

/-- Code over declared registers that lacks nothing and stays inside. -/
structure SoundCode (vars : List Var) (ret : Ty) (code : List Inst) : Prop where
  wellFormed : WellFormed vars code
  sound : ∀ inst ∈ code, inst.Sound
  declared : ∀ inst ∈ code, ∀ r ∈ inst.registers, Declared vars r
  inside : StaysInside code
  returns : ret.isVoid = false → .retVoid ∉ code

/-- A method with sound code whose registers can be placed. -/
structure SoundMethod (m : Method) : Prop where
  placeable : Placeable m
  code : SoundCode m.vars m.ret m.code

/-! ## Simplification -/

/-- What a pass may leave of an instruction. -/
structure Simpler (inst inst' : Inst) : Prop where
  sound : inst.Sound → inst'.Sound
  registers : ∀ r ∈ inst'.registers, r ∈ inst.registers
  returns : inst' = .retVoid → inst = .retVoid

theorem Simpler.refl (inst : Inst) : Simpler inst inst := ⟨id, fun _ => id, id⟩

theorem Simpler.trans {inst₁ inst₂ inst₃ : Inst} (first : Simpler inst₁ inst₂)
    (second : Simpler inst₂ inst₃) : Simpler inst₁ inst₃ :=
  ⟨second.sound ∘ first.sound, fun r member => first.registers r (second.registers r member),
    first.returns ∘ second.returns⟩

section Passes

variable {inst inst' : Inst}

theorem simpler_mapOperands {f : Operand → Operand}
    (shrinks : ∀ o r, (f o).reg? = some r → o.reg? = some r) :
    Simpler inst (inst.mapOperands f) := by
  have present : ∀ o : Option Operand, (o.bind fun x => some (f x)).isSome = o.isSome := by
    rintro (_ | _) <;> rfl
  refine ⟨fun sound => ?_, fun r member => ?_, fun same => ?_⟩
  · cases inst with
    | binary d op l r =>
      exact ⟨sound.1, (present l).trans sound.2.1, (present r).trans sound.2.2⟩
    | unary d op x => exact ⟨sound.1, (present x).trans sound.2⟩
    | call c =>
      refine ⟨by simpa using sound.arity, ?_, by simpa [present] using sound.receiver, sound.stored⟩
      intro a member
      obtain ⟨o, among, rfl⟩ := mem_map.mp member
      exact (present o).trans (sound.args o among)
    | hole => exact sound
    | _ =>
      intro o member
      rw [Inst.operands_mapOperands] at member
      obtain ⟨o', among, rfl⟩ := mem_map.mp member
      exact (present o').trans (sound o' among)
  · rw [Inst.registers, Inst.dst?_mapOperands] at member
    rcases mem_append.mp member with dst | use
    · exact mem_append_left _ dst
    · exact mem_append_right _ (Inst.mem_uses_of_mapOperands shrinks use)
  · cases inst <;> first | rfl | cases same

theorem simpler_evaluate (computed : inst.evaluate = some inst') : Simpler inst inst' := by
  rcases Inst.evaluate_cases computed with rfl | ⟨d, v, dst, _, _, rfl⟩ | ⟨c, ty, t, _, rfl, rfl⟩
  · exact .refl _
  · refine ⟨fun _ => by simp [Inst.Sound, Inst.operands], fun r member => ?_, Inst.noConfusion⟩
    obtain rfl : r = d := by
      simpa [Inst.registers, Inst.dst?, Inst.uses, Inst.operands, Operand.reg?] using member
    exact mem_append_left _ (Option.mem_toList.mpr dst)
  · refine ⟨fun _ => by simp [Inst.Sound, Inst.operands], fun r member => ?_, Inst.noConfusion⟩
    simp [Inst.registers, Inst.dst?, Inst.uses, Inst.operands] at member

theorem simpler_specialize {regs : List String} {st : Option State}
    (left : inst.specialize regs st = some inst') : Simpler inst inst' := by
  cases st with
  | none =>
    simp only [Inst.specialize] at left
    split at left <;> cases left
    exact .refl _
  | some st =>
    exact (simpler_mapOperands fun _ _ => State.reg?_subst).trans (simpler_evaluate left)

end Passes

namespace SoundCode

variable {keep : Nat → Inst → Option Inst} {vars : List Var} {ret : Ty} {code : List Inst}

theorem pass {P : Nat → Prop} (sound : SoundCode vars ret code) (shape : Reshaping keep code)
    (tracks : Tracks keep code P)
    (simpler : ∀ i inst inst', keep i inst = some inst' → Simpler inst inst') :
    SoundCode vars ret (thin keep code) := by
  have origin : ∀ inst' ∈ thin keep code, ∃ inst ∈ code, Simpler inst inst' := by
    intro inst' member
    obtain ⟨i, inst, here, kept⟩ := mem_thin.mp member
    exact ⟨inst, mem_of_getElem? here, simpler i inst inst' kept⟩
  refine ⟨shape.wellFormed sound.wellFormed, fun inst' member => ?_, fun inst' member r named => ?_,
    tracks.staysInside, fun valued member => ?_⟩
  · obtain ⟨inst, before, simpler⟩ := origin inst' member
    exact simpler.sound (sound.sound inst before)
  · obtain ⟨inst, before, simpler⟩ := origin inst' member
    exact sound.declared inst before r (simpler.registers r named)
  · obtain ⟨inst, before, simpler⟩ := origin _ member
    exact sound.returns valued (simpler.returns rfl ▸ before)

theorem drop {P : Nat → Prop} (sound : SoundCode vars ret code) (shape : Reshaping keep code)
    (tracks : Tracks keep code P)
    (only : ∀ i inst inst', keep i inst = some inst' → inst' = inst) :
    SoundCode vars ret (thin keep code) :=
  sound.pass shape tracks fun i inst inst' kept => only i inst inst' kept ▸ .refl inst

theorem propagate (sound : SoundCode vars ret code) : SoundCode vars ret (propagate vars code) :=
  sound.pass (reshaping_propagate vars code) (tracks_propagate sound.wellFormed sound.inside)
    fun _ _ _ => simpler_specialize

theorem dropIdleJumps (sound : SoundCode vars ret code) : SoundCode vars ret (dropIdleJumps code) := by
  rw [dropIdleJumps_eq]
  exact sound.drop (reshaping_idleJumps code) (tracks_idleJumps sound.inside)
    fun _ _ _ => keepJump_some

theorem dropIdleLabels (sound : SoundCode vars ret code) :
    SoundCode vars ret (dropIdleLabels code) := by
  rw [dropIdleLabels_eq]
  exact sound.drop (reshaping_idleLabels code) (tracks_idleLabels sound.inside)
    fun _ _ _ => keepLabel_some

theorem dropDeadStores (sound : SoundCode vars ret code) :
    SoundCode vars ret (dropDeadStores vars code) :=
  sound.drop (reshaping_deadStores vars code) (tracks_deadStores sound.inside)
    fun _ _ _ => keepStore_some

theorem simplifyRound (sound : SoundCode vars ret code) :
    SoundCode vars ret (simplifyRound vars code) :=
  sound.propagate.dropIdleJumps.dropIdleLabels.dropDeadStores

end SoundCode

/-! ## Rounds and declarations -/

section

variable {m : Method}

theorem simplifyRounds_shape (rounds : Nat) (m : Method) :
    ∃ code, simplifyRounds rounds m = { m with code } := by
  induction rounds generalizing m with
  | zero => exact ⟨m.code, rfl⟩
  | succ rounds ih =>
    rw [simplifyRounds]
    split
    · exact ⟨_, rfl⟩
    · obtain ⟨code, same⟩ := ih { m with code := simplifyRound m.vars m.code }
      exact ⟨code, same⟩

theorem soundCode_simplifyRounds (rounds : Nat) (sound : SoundCode m.vars m.ret m.code) :
    SoundCode m.vars m.ret (simplifyRounds rounds m).code := by
  induction rounds generalizing m with
  | zero => exact sound
  | succ rounds ih =>
    have next := sound.simplifyRound
    rw [simplifyRounds]
    split
    · exact next
    · have rest := @ih { m with code := simplifyRound m.vars m.code } next
      exact rest

theorem SoundMethod.simplifyRounds (sound : SoundMethod m) (rounds : Nat) :
    SoundMethod (simplifyRounds rounds m) := by
  have code := soundCode_simplifyRounds rounds sound.code
  obtain ⟨body, same⟩ := simplifyRounds_shape rounds m
  rw [same] at code ⊢
  exact ⟨⟨sound.placeable.once, fun n occurs => code.wellFormed.mem_vars occurs,
    sound.placeable.this, sound.placeable.params, code.wellFormed.labels, code.wellFormed.targets⟩,
    code⟩

theorem mem_pruned {names : List String} {v : Var} {vars : List Var} (member : v ∈ vars)
    (occurs : v.name ∈ names) : v ∈ vars.filter (Var.isNeeded names) := by
  refine mem_filter.mpr ⟨member, ?_⟩
  unfold Var.isNeeded
  split <;> simp [occurs]

theorem SoundMethod.pruneVars (sound : SoundMethod m) : SoundMethod (pruneVars m) := by
  have fixed : ∀ kind : VarKind, kind = .this ∨ kind = .param →
      ((Code.pruneVars m).vars.filter fun v => v.kind = kind) =
        m.vars.filter fun v => v.kind = kind := by
    intro kind isFixed
    simp only [Code.pruneVars, filter_filter]
    refine filter_congr fun v _ => ?_
    by_cases same : v.kind = kind
    · rcases isFixed with rfl | rfl <;> simp [Var.isNeeded, same]
    · simp [same]
  have once : ((Code.pruneVars m).vars.map (·.name)).Nodup :=
    sound.placeable.once.sublist (filter_sublist.map _)
  have declared : ∀ inst ∈ m.code, ∀ r ∈ inst.registers, Declared (Code.pruneVars m).vars r := by
    intro inst member r named
    obtain ⟨v, among, isName, isType⟩ := sound.code.declared inst member r named
    refine ⟨v, mem_pruned among ?_, isName, isType⟩
    exact mem_flatMap.mpr ⟨inst, member, isName ▸ mem_map_of_mem named⟩
  have occurs : ∀ n ∈ occurring m.code, n ∈ (Code.pruneVars m).vars.map (·.name) := by
    intro n found
    obtain ⟨inst, member, named⟩ := mem_flatMap.mp found
    obtain ⟨r, isRegister, rfl⟩ := mem_map.mp named
    obtain ⟨v, among, isName, _⟩ := declared inst member r isRegister
    exact isName ▸ mem_map_of_mem among
  have placeable : Placeable (Code.pruneVars m) := by
    refine ⟨once, occurs, ?_, ?_, sound.placeable.labels, sound.placeable.targets⟩
    · rw [fixed .this (.inl rfl)]
      exact sound.placeable.this
    · rw [fixed .param (.inr rfl)]
      exact sound.placeable.params
  exact ⟨placeable, placeable.wellFormed, sound.code.sound, declared, sound.code.inside,
    sound.code.returns⟩

/-- **Simplification** keeps a method sound. -/
theorem SoundMethod.simplify (sound : SoundMethod m) : SoundMethod m.simplify :=
  (sound.simplifyRounds _).pruneVars

theorem SoundMethod.simplify?_eq (sound : SoundMethod m) : m.simplify? = some m.simplify :=
  if_pos (isSome_text? fun inst member => (sound.code.sound inst member).isComplete)

end

/-! ## Declared variables -/

section

theorem nodup_declaredVars {cls : String} {i : Nat} {d : Syntax.Method Pos}
    (readable : d.Readable) :
    ((declaredVars cls (methodSymbol i d).value).map (·.name)).Nodup := by
  have names : (declaredVars cls (methodSymbol i d).value).map (·.name) =
      (if (methodSymbol i d).value.isStatic then [] else ["this"]) ++
        ((methodSymbol i d).value.params ++ (methodSymbol i d).value.locals).map (·.name) := by
    unfold declaredVars
    split <;> simp [Function.comp_def]
  rw [names]
  refine List.Nodup.append (by split <;> simp) ?_ fun n this listed => ?_
  · rw [methodSymbol_indexed (d, i)]
    exact nodup_vars_indexedMethod (d, i)
  · -- No variable is called like the object.
    obtain ⟨v, among, rfl⟩ := mem_map.mp listed
    obtain ⟨decl, member, rfl⟩ := mem_vars_declared among
    split at this
    · cases this
    · have named : decl.name = "this" := mem_singleton.mp this
      refine readable.wellRead.names decl member ?_
      rw [named]
      decide

end

/-! ## The code of a method -/

section

variable {sc : Scope} {loose : Prop} {m : Syntax.Method Mark}

theorem returnInst_ends (v : Option Operand) : (returnInst v).Sound ∧
    (returnInst v).goesOn = false ∧ (returnInst v).target? = none ∧ (returnInst v).dst? = none ∧
    (returnInst v).operands = v.toList.map some := by
  cases v with
  | none | some v => exact ⟨by simp [returnInst, Inst.Sound, Inst.operands], rfl, rfl, rfl, rfl⟩

theorem filter_declaredVars (cls : String) (method : MethodSymbol) {temps : List Var}
    (isTemp : ∀ v ∈ temps, v.kind = .temp) :
    ((declaredVars cls method ++ temps).filter fun v => v.kind = .this).length ≤ 1 ∧
      ((declaredVars cls method ++ temps).filter fun v => v.kind = .param) =
        method.params.map fun p => ⟨p.name, p.type, .param⟩ := by
  have none : ∀ kind : VarKind, kind ≠ .temp → (temps.filter fun v => v.kind = kind) = [] := by
    intro kind other
    refine filter_eq_nil_iff.mpr fun v member => ?_
    simpa [isTemp v member] using other.symm
  rw [filter_append, filter_append, none .this (by decide), none .param (by decide)]
  cases isStatic : method.isStatic <;>
    simp [declaredVars, isStatic, filter_append, filter_map, Function.comp_def]

/-- **The code of a runnable method** is sound. -/
theorem soundMethod_methodCode (runnable : RunnableMethod sc loose m)
    (once : ((declaredVars sc.table.cls sc.method).map (·.name)).Nodup) :
    SoundMethod (methodCode sc.table.cls sc.method m).value := by
  have tidy := bodyValue_tidy runnable
  have unique := uniqueLabels_methodCode runnable
  obtain ⟨isVars, isCode, _⟩ := methodCode_body runnable rfl
  rw [isCode] at unique
  generalize bodyValue sc.table.cls m { vars := declaredVars sc.table.cls sc.method } = made at *
  obtain ⟨temps, vars, isTemp⟩ := tidy.temps
  obtain ⟨sound, ends, noTarget, noDst, operands⟩ := returnInst_ends made.value
  have last : ∀ r ∈ (returnInst made.value).registers, Declared made.supply.vars r := by
    refine declared_registers (by simp [noDst]) fun o member => (tidy.value.2 o ?_).1
    simpa [operands] using member
  have typed : ∀ inst ∈ made.code ++ [returnInst made.value], ∀ r ∈ inst.registers,
      Declared made.supply.vars r := by
    intro inst member
    rcases mem_append.mp member with before | here
    · exact (tidy.proper inst before).declared
    · exact mem_singleton.mp here ▸ last
  have occurs : ∀ n ∈ occurring (made.code ++ [returnInst made.value]),
      n ∈ made.supply.vars.map (·.name) := by
    intro n found
    obtain ⟨inst, member, named⟩ := mem_flatMap.mp found
    obtain ⟨r, isRegister, rfl⟩ := mem_map.mp named
    obtain ⟨v, among, isName, _⟩ := typed inst member r isRegister
    exact isName ▸ mem_map_of_mem among
  have targets : ∀ t ∈ jumpTargets (made.code ++ [returnInst made.value]),
      .label t ∈ made.code ++ [returnInst made.value] := by
    intro t jumped
    rw [jumpTargets_append] at jumped
    rcases mem_append.mp jumped with before | here
    · exact mem_append_left _ ((tidy.targets t before).resolve_left not_mem_nil)
    · simp [jumpTargets, noTarget] at here
  obtain ⟨this, params⟩ := filter_declaredVars sc.table.cls sc.method isTemp
  have placeable : Placeable (methodCode sc.table.cls sc.method m).value := by
    refine ⟨?_, ?_, ?_, ?_, ?_, ?_⟩
    all_goals simp only [isVars, isCode]
    · exact tidy.nodup once
    · exact occurs
    · rw [vars]
      exact this
    · rw [vars, params]
      exact List.Perm.refl _
    · exact unique
    · exact targets
  refine ⟨placeable, placeable.wellFormed, ?_, ?_, ?_, ?_⟩
  all_goals simp only [isVars, isCode]
  · intro inst member
    rcases mem_append.mp member with before | here
    · exact (tidy.proper inst before).made.sound
    · exact mem_singleton.mp here ▸ sound
  · exact typed
  · exact staysInside_of_last _ ends
  · intro valued member
    have returned : made.value.isSome = true := by
      rw [tidy.value.1, runnable.returns]
      exact congrArg not valued
    rcases mem_append.mp member with before | here
    · exact (tidy.proper _ before).goesOn rfl
    · obtain ⟨v, isValue⟩ := Option.isSome_iff_exists.mp returned
      rw [isValue] at here
      cases mem_singleton.mp here

theorem soundMethod_constructorCode (cls super : String) : SoundMethod (constructorCode cls super) := by
  have placeable : Placeable (constructorCode cls super) := by
    refine ⟨?_, ?_, ?_, ?_, nodup_nil, forall_mem_nil _⟩
    · simp [constructorCode]
    · simp [constructorCode, occurring, Inst.dst?, Inst.uses, Inst.operands, Operand.reg?]
    · simp [constructorCode]
    · simp [constructorCode]
  refine ⟨placeable, placeable.wellFormed, ?_, ?_, ?_, fun valued => Bool.noConfusion valued⟩
  · refine forall_mem_cons.mpr ⟨⟨rfl, by simp, by simp, by simp⟩, ?_⟩
    simp [Inst.Sound, Inst.operands]
  · simp [constructorCode, Inst.registers, Inst.dst?, Inst.uses, Inst.operands, Operand.reg?,
      Declared]
  · exact staysInside_of_last [_] rfl

end

/-! ## The methods of a class -/

theorem Accepted.soundMethods {bytes : List UInt8} {f : File Pos} (accepted : Accepted bytes f) :
    ∀ m ∈ (classCode (analysisOf f)).value.methods, SoundMethod m := by
  refine accepted.forall_methods (soundMethod_constructorCode _ _) fun i d declared => ?_
  exact soundMethod_methodCode (accepted.runnable declared)
    (nodup_declaredVars (accepted.methodReadable (mem_of_getElem? declared)))

/-- A method that is well made: each register that occurs is declared once, with the type that
it has wherever it occurs, each label occurs once and each jump has its label, no control-flow
path runs past the last instruction, each call has as many parameters as arguments, a receiver
unless it is static, and a destination only if it has a result, and a method with a result never
returns without one. -/
structure WellMade (m : Method) : Prop where
  wellFormed : WellFormed m.vars m.code
  typed : ∀ inst ∈ m.code, ∀ r ∈ inst.registers, ∃ v ∈ m.vars, v.name = r.name ∧ v.type = r.type
  inside : ∀ i, OnPath m.code i → i < m.code.length
  calls : ∀ c, .call c ∈ m.code → c.params.length = c.args.length ∧
    (c.recv.isSome = true ↔ c.kind ≠ .static) ∧ (c.dst.isSome = true → c.ret.isVoid = false)
  returns : m.ret.isVoid = false → .retVoid ∉ m.code

theorem SoundMethod.wellMade {m : Method} (sound : SoundMethod m) : WellMade m where
  wellFormed := sound.code.wellFormed
  typed := sound.code.declared
  inside := sound.code.inside
  calls c member := have call : c.Sound := sound.code.sound _ member
    ⟨call.arity, call.receiver, call.stored⟩
  returns := sound.code.returns

/-- **Methods are well made.** For a text that is read, whose table is built and whose tree is
checked without errors, every method of the class is well made, and it has a simplest form,
which is well made too. -/
theorem classCode_wellMade {bytes : List UInt8} {f : File Pos} (read : parse bytes = .ok f)
    (built : hasErrors (buildTable f).reports = false)
    (analysed : hasErrors (analyze (buildTable f).value f).reports = false) :
    ∀ m ∈ (classCode (analyze (buildTable f).value f).value).value.methods,
      WellMade m ∧ ∃ m', m.simplify? = some m' ∧ WellMade m' := by
  have accepted : Accepted bytes f := ⟨read, built, analysed⟩
  intro m member
  have sound := accepted.soundMethods m member
  exact ⟨sound.wellMade, m.simplify, sound.simplify?_eq, sound.simplify.wellMade⟩

theorem classCode_wellMade_busy : ∃ f, parse busyText = .ok f ∧
    hasErrors (buildTable f).reports = false ∧
    hasErrors (analyze (buildTable f).value f).reports = false ∧
    ∀ m ∈ (classCode (analyze (buildTable f).value f).value).value.methods,
      WellMade m ∧ ∃ m', m.simplify? = some m' ∧ WellMade m' := by
  obtain ⟨f, read, checked⟩ := exists_read busyText passes (by decide +kernel)
  obtain ⟨built, analysed, _⟩ := passes_iff.mp checked
  exact ⟨f, read, built, analysed, classCode_wellMade read built analysed⟩

end JavaMinus.Code
