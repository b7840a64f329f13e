import JavaMinus.Compiler
import JavaMinus.Proofs.InstructionSelection
import JavaMinus.Proofs.WellMadeMethods

/-!
# Only the limit on registers can fail

After code has been made, the registers of each method are placed in slots, and instructions
are selected. The registers of a sound method can always be placed, unless it needs more slots
than the user allows (`place_eq`), and instructions can always be selected for it once they
are (`assembleMethod_succeeds`).

**Main result.** `compile_limited_by_slots`: for an accepted text for which code is made without
reports, compiling reports one error for each method that needs too many slots, and nothing else
after the reports of the checker. If there is no such method, the class is assembled.
-/

namespace JavaMinus.Assembly

open Code (Operand Reg Inst Call)

/-! ## Instructions that can be selected -/

section

variable {f : Frame} {inst : Inst}

/-- The registers have slots. -/
def Frame.Holds (f : Frame) (rs : List Reg) : Prop := ∀ r ∈ rs, ∃ k, f.slots.get? r.name = some k

theorem slot_succeeds {r : Reg} (placed : ∃ k, f.slots.get? r.name = some k) :
    ∃ k, f.slot r = .ok k := by
  obtain ⟨k, found⟩ := placed
  exact ⟨k, by rw [Frame.slot, found]⟩

theorem store_succeeds {d : Reg} (holds : f.Holds inst.registers) (dst : inst.dst? = some d) :
    ∃ is, f.store d = .ok is := by
  have member : d ∈ inst.registers := List.mem_append_left _ (Option.mem_toList.mpr dst)
  obtain ⟨k, found⟩ := slot_succeeds (holds d member)
  exact ⟨_, by rw [Frame.store, found]; rfl⟩

theorem load_succeeds {o : Option Operand} (holds : f.Holds inst.registers)
    (member : o ∈ inst.operands) (present : o.isSome = true) : ∃ is, f.load o = .ok is := by
  obtain ⟨x, rfl⟩ := Option.isSome_iff_exists.mp present
  cases x with
  | imm v t => exact ⟨_, rfl⟩
  | reg r =>
    have read : r ∈ inst.registers :=
      List.mem_append_right _ (List.mem_filterMap.mpr ⟨_, member, rfl⟩)
    obtain ⟨k, found⟩ := slot_succeeds (holds r read)
    exact ⟨_, by rw [Frame.load, found]; rfl⟩

theorem loads_succeeds {os : List (Option Operand)} (each : ∀ o ∈ os, ∃ is, f.load o = .ok is) :
    ∃ is, f.loads os = .ok is := by
  induction os with
  | nil => exact ⟨[], rfl⟩
  | cons o rest ih =>
    obtain ⟨⟨first, isFirst⟩, others⟩ := List.forall_mem_cons.mp each
    obtain ⟨more, isMore⟩ := ih others
    exact ⟨first ++ more, by rw [Frame.loads, isFirst, isMore]; rfl⟩

theorem operator_succeeds {op : Operator} (supported : (Typing.operatorTypes op).isSome = true)
    (n : Nat) : ∃ is, Frame.operator n op = .ok is := by
  cases op with
  | add | sub | mul | div | less | and => exact ⟨_, rfl⟩
  | _ => cases supported

theorem pushed_present (sound : inst.Sound) {o : Option Operand} (member : o ∈ pushed inst) :
    o ∈ inst.operands ∧ o.isSome = true := by
  cases inst with
  | call c =>
    rw [pushed] at member
    split at member
    case isTrue => exact ⟨List.mem_cons_of_mem _ member, sound.args o member⟩
    case isFalse other =>
      refine ⟨member, ?_⟩
      obtain rfl | isArg := List.mem_cons.mp member
      · exact sound.receiver.mpr other
      · exact sound.args o isArg
  | hole => exact sound.elim
  | _ => exact ⟨member, List.all_eq_true.mp sound.isComplete o member⟩

theorem work_succeeds (sound : inst.Sound) (n : Nat) : ∃ is, f.work n inst = .ok is := by
  cases inst with
  | binary => exact operator_succeeds sound.1 n
  | unary =>
    obtain ⟨rfl, _⟩ := sound
    exact ⟨_, rfl⟩
  | hole => exact sound.elim
  | _ => exact ⟨_, rfl⟩

theorem finish_succeeds (holds : f.Holds inst.registers) : ∃ is, f.finish inst = .ok is := by
  unfold Frame.finish
  split
  case h_1 d dst => exact store_succeeds holds dst
  all_goals exact ⟨_, rfl⟩

theorem select_succeeds (holds : f.Holds inst.registers) (sound : inst.Sound) (n : Nat) :
    ∃ is, f.select n inst = .ok is := by
  cases small : inPlace? inst with
  | some step =>
    have dst : step.1 ∈ inst.registers := List.mem_append_left _ (by
      cases inst with
      | binary =>
        obtain ⟨_, _, rfl⟩ := Option.map_eq_some_iff.mp small
        exact List.mem_singleton_self _
      | _ => cases small)
    obtain ⟨k, isSlot⟩ := slot_succeeds (holds _ dst)
    exact ⟨_, (select_inPlace small).mpr ⟨k, isSlot, rfl⟩⟩
  | none =>
    obtain ⟨values, loaded⟩ := loads_succeeds fun o member =>
      load_succeeds holds (pushed_present sound member).1 (pushed_present sound member).2
    obtain ⟨work, worked⟩ := work_succeeds (f := f) sound n
    obtain ⟨result, finished⟩ := finish_succeeds holds
    exact ⟨_, (select_parts small).mpr ⟨values, work, result, loaded, worked, finished, rfl⟩⟩

theorem selectAll_succeeds {code : List Inst} (each : ∀ inst ∈ code, ∀ n, ∃ is, f.select n inst = .ok is)
    (n : Nat) : ∃ is, f.selectAll n code = .ok is := by
  induction code generalizing n with
  | nil => exact ⟨[], rfl⟩
  | cons inst rest ih =>
    obtain ⟨first, others⟩ := List.forall_mem_cons.mp each
    obtain ⟨lines, isLines⟩ := first n
    obtain ⟨more, isMore⟩ := ih others (n + Frame.comparisons inst)
    exact ⟨lines ++ more, by rw [Frame.selectAll, isLines, isMore]⟩

end

end JavaMinus.Assembly

namespace JavaMinus.Registers

open Code List

/-! ## Placing with a limit -/

section

variable {m : Method}

theorem place_eq (sound : SoundMethod m) : ∃ p, place m 0 = .ok p ∧
    ∀ limit, place m limit = if 0 < limit ∧ limit < p.locals
      then .error (.tooFewSlots m.name p.locals limit) else .ok p := by
  obtain ⟨g, found⟩ := exists_interference sound.placeable.declared (isFixed m)
  have byLimit := place_eq_of_interference sound.placeable.nodup_fixed found
  exact ⟨_, (byLimit 0).trans (if_neg (by simp)), byLimit⟩

end

/-! ## Finishing a class -/

section

/-- The form of a method whose registers are placed. -/
def finalForm (simplify : Bool) (m : Method) : Method := if simplify then m.simplify else m

theorem soundMethod_finalForm {m : Method} (sound : SoundMethod m) (simplify : Bool) :
    SoundMethod (finalForm simplify m) := by
  unfold finalForm
  split
  · exact sound.simplify
  · exact sound

/-- What is reported of a method that needs more slots than a limit allows, where 0 is no
limit. -/
def limitReports (limit : Int) (m : Method) : List Diagnostic :=
  match place m 0 with
  | .ok p =>
    if 0 < limit ∧ limit < p.locals then
      [.error .optimization m.line 0 ("method " ++ m.name ++ " needs " ++ toString p.locals ++
        " registers, at most " ++ toString limit ++ " allowed")]
    else []
  | .error _ => []

/-- A method with its registers placed, if they can be. -/
def placed (limit : Int) (m : Method) : Method :=
  match place m limit with
  | .ok p => { m with slots := some p.slots, locals := p.locals }
  | .error _ => m

variable {m : Method} (sound : SoundMethod m) (opts : CodeOptions)

include sound

theorem finishMethod_eq : finishMethod opts m = some
    ⟨placed opts.maxSlots (finalForm opts.simplify m),
      limitReports opts.maxSlots (finalForm opts.simplify m)⟩ := by
  have chosen : (if opts.simplify then m.simplify? else some m) =
      some (finalForm opts.simplify m) := by
    unfold finalForm
    split
    · exact sound.simplify?_eq
    · rfl
  obtain ⟨p, unlimited, byLimit⟩ := place_eq (soundMethod_finalForm sound opts.simplify)
  have steps : finishMethod opts m = ((if opts.simplify then m.simplify? else some m).bind fun m =>
      match place m opts.maxSlots with
      | .ok p => some ⟨{ m with slots := some p.slots, locals := p.locals }, []⟩
      | .error e => e.message?.bind fun message =>
        some ⟨m, [.error .optimization m.line 0 message]⟩) := by
    unfold finishMethod
    split <;> rfl
  rw [steps, chosen]
  by_cases tooMany : 0 < opts.maxSlots ∧ opts.maxSlots < p.locals
  · simp only [Option.bind_some, placed, limitReports, unlimited, byLimit opts.maxSlots,
      if_pos tooMany]
    rfl
  · simp only [Option.bind_some, placed, limitReports, unlimited, byLimit opts.maxSlots,
      if_neg tooMany]

omit sound in
theorem mem_limitReports {limit : Int} {m : Method} {r : Diagnostic}
    (member : r ∈ limitReports limit m) : r.isError = true := by
  unfold limitReports at member
  split at member
  · split at member
    · rw [mem_singleton.mp member]
      rfl
    · cases member
  · cases member

theorem limitReports_ne_nil {limit : Int} : limitReports limit m ≠ [] ↔
    0 < limit ∧ ∃ p, place m 0 = .ok p ∧ limit < p.locals := by
  obtain ⟨p, unlimited, _⟩ := place_eq sound
  simp [limitReports, unlimited]

theorem placed_of_not_reported {limit : Int} (silent : limitReports limit m = []) :
    ∃ p, place m limit = .ok p ∧
      placed limit m = { m with slots := some p.slots, locals := p.locals } := by
  obtain ⟨p, unlimited, byLimit⟩ := place_eq sound
  have fits : ¬ (0 < limit ∧ limit < p.locals) := by
    intro tooMany
    simp [limitReports, unlimited, tooMany] at silent
  have found : place m limit = .ok p := by rw [byLimit, if_neg fits]
  exact ⟨p, found, by rw [placed, found]⟩

theorem assembleMethod_succeeds (cls : Code.Class) {limit : Int} {p : Placement}
    (found : place m limit = .ok p) :
    ∃ made, Assembly.assembleMethod cls { m with slots := some p.slots, locals := p.locals } =
      .ok made := by
  have layout := layout_of_place sound.placeable found
  have each : ∀ inst ∈ m.code, ∀ n, ∃ is, Assembly.Frame.select ⟨cls, p.slots⟩ n inst = .ok is := by
    intro inst member n
    refine Assembly.select_succeeds (fun r named => ?_) (sound.code.sound inst member) n
    exact layout.placed r.name (mem_flatMap.mpr ⟨inst, member, mem_map_of_mem named⟩)
  obtain ⟨body, selected⟩ := Assembly.selectAll_succeeds each 0
  unfold Assembly.assembleMethod
  simp only [selected]
  exact ⟨_, rfl⟩

end

section Classes

variable {c : Code.Class} (sound : ∀ m ∈ c.methods, SoundMethod m) (opts : CodeOptions)

include sound

theorem finishClass_eq : finishClass opts c = some
    ⟨{ c with methods := c.methods.map fun m => placed opts.maxSlots (finalForm opts.simplify m) },
      c.methods.flatMap fun m => limitReports opts.maxSlots (finalForm opts.simplify m)⟩ := by
  have each : ∀ ms : List Method, (∀ m ∈ ms, SoundMethod m) → ms.mapM (finishMethod opts) =
      some (ms.map fun m => ⟨placed opts.maxSlots (finalForm opts.simplify m),
        limitReports opts.maxSlots (finalForm opts.simplify m)⟩) := by
    intro ms sound
    induction ms with
    | nil => rfl
    | cons m rest ih =>
      obtain ⟨first, others⟩ := forall_mem_cons.mp sound
      rw [mapM_cons, finishMethod_eq first, ih others]
      rfl
  rw [finishClass, each c.methods sound]
  simp [flatMap_map]

theorem assemble_succeeds
    (silent : ∀ m ∈ c.methods, limitReports opts.maxSlots (finalForm opts.simplify m) = []) :
    ∃ a, Assembly.assemble { c with
      methods := c.methods.map fun m => placed opts.maxSlots (finalForm opts.simplify m) } =
        .ok a := by
  have each : ∀ (cls : Code.Class) (ms : List Method), (∀ m ∈ ms, SoundMethod m) →
      (∀ m ∈ ms, limitReports opts.maxSlots (finalForm opts.simplify m) = []) →
      ∃ made, (ms.map fun m => placed opts.maxSlots (finalForm opts.simplify m)).mapM
        (Assembly.assembleMethod cls) = .ok made := by
    intro cls ms sound silent
    induction ms with
    | nil => exact ⟨[], rfl⟩
    | cons m rest ih =>
      obtain ⟨first, others⟩ := forall_mem_cons.mp sound
      obtain ⟨quiet, quieter⟩ := forall_mem_cons.mp silent
      have final := soundMethod_finalForm first opts.simplify
      obtain ⟨p, found, isPlaced⟩ := placed_of_not_reported final quiet
      obtain ⟨made, isMade⟩ := assembleMethod_succeeds final cls found
      obtain ⟨more, isMore⟩ := ih others quieter
      refine ⟨made :: more, ?_⟩
      rw [map_cons, mapM_cons, isPlaced, isMade, isMore]
      rfl
  obtain ⟨made, isMade⟩ := each { c with
    methods := c.methods.map fun m => placed opts.maxSlots (finalForm opts.simplify m) }
    c.methods sound silent
  exact ⟨_, by rw [Assembly.assemble, isMade]; rfl⟩

end Classes

/-! ## The listing -/

theorem isSome_classText? {c : Code.Class}
    (complete : ∀ m ∈ c.methods, ∀ inst ∈ m.code, inst.isComplete = true) :
    c.text?.isSome = true := by
  have texts : ∀ ms : List Method, (∀ m ∈ ms, ∀ inst ∈ m.code, inst.isComplete = true) →
      (ms.mapM Method.text?).isSome = true := by
    intro ms complete
    induction ms with
    | nil => rfl
    | cons m rest ih =>
      obtain ⟨first, others⟩ := forall_mem_cons.mp complete
      obtain ⟨text, isText⟩ := Option.isSome_iff_exists.mp (isSome_text? first)
      obtain ⟨more, isMore⟩ := Option.isSome_iff_exists.mp (ih others)
      simp [mapM_cons, isText, isMore]
  simpa [Class.text?] using texts c.methods complete

theorem code_placed (limit : Int) (m : Method) : (placed limit m).code = m.code := by
  unfold placed
  split <;> rfl

end JavaMinus.Registers

namespace JavaMinus

open Syntax (File parse)
open Typing (analyze)
open Code (classCode SoundMethod)
open Registers (place finalForm limitReports placed)

/-! ## Compiling -/

section

variable (opts : Options) {cls : Code.Class} (sound : ∀ m ∈ cls.methods, SoundMethod m)

/-- The class with its registers placed. -/
def finishedClass (opts : Options) (cls : Code.Class) : Code.Class :=
  { cls with
    methods := cls.methods.map fun m => placed opts.maxRegisters (finalForm opts.optimize m) }

/-- What is reported of the methods of a class. -/
def slotReports (opts : Options) (cls : Code.Class) : List Diagnostic :=
  cls.methods.flatMap fun m => limitReports opts.maxRegisters (finalForm opts.optimize m)

include sound

theorem hasErrors_slotReports : hasErrors (slotReports opts cls) = true ↔
    0 < opts.maxRegisters ∧ ∃ m ∈ cls.methods, ∃ p, place (finalForm opts.optimize m) 0 = .ok p ∧
      opts.maxRegisters < p.locals := by
  have reported : hasErrors (slotReports opts cls) = true ↔ ∃ m ∈ cls.methods,
      limitReports opts.maxRegisters (finalForm opts.optimize m) ≠ [] := by
    simp only [hasErrors, slotReports, List.any_flatMap, List.any_eq_true]
    refine exists_congr fun m => and_congr_right fun _ => ⟨?_, fun some => ?_⟩
    · rintro ⟨r, member, _⟩ none
      rw [none] at member
      cases member
    · obtain ⟨r, member⟩ := List.exists_mem_of_ne_nil _ some
      exact ⟨r, member, Registers.mem_limitReports member⟩
  rw [reported]
  constructor
  · rintro ⟨m, member, some⟩
    obtain ⟨limited, p, found, tooMany⟩ := (Registers.limitReports_ne_nil
      (Registers.soundMethod_finalForm (sound m member) _)).mp some
    exact ⟨limited, m, member, p, found, tooMany⟩
  · rintro ⟨limited, m, member, p, found, tooMany⟩
    exact ⟨m, member, (Registers.limitReports_ne_nil
      (Registers.soundMethod_finalForm (sound m member) _)).mpr ⟨limited, p, found, tooMany⟩⟩

theorem isSome_listing : cls.text?.isSome = true ∧ (finishedClass opts cls).text?.isSome = true := by
  constructor
  · exact Registers.isSome_classText? fun m member inst among =>
      ((sound m member).code.sound inst among).isComplete
  · refine Registers.isSome_classText? fun m member inst among => ?_
    obtain ⟨m', isMethod, rfl⟩ := List.mem_map.mp member
    rw [Registers.code_placed] at among
    exact ((Registers.soundMethod_finalForm (sound m' isMethod) _).code.sound inst among).isComplete

theorem placeStage_eq (c : Compilation) : ∃ last, placeStage opts c cls =
      ⟨last, slotReports opts cls⟩ ∧ last.finished = some (finishedClass opts cls) ∧
    last.listing = (if opts.optimize then (finishedClass opts cls).text? else c.listing) ∧
    (hasErrors (slotReports opts cls) = true → last.assembly = c.assembly) ∧
    (hasErrors (slotReports opts cls) = false → ∃ a,
      Assembly.assemble (finishedClass opts cls) = .ok a ∧ last.assembly = some a.text) := by
  have finish : Registers.finishClass ⟨opts.optimize, opts.maxRegisters⟩ cls =
      some ⟨finishedClass opts cls, slotReports opts cls⟩ :=
    Registers.finishClass_eq sound _
  unfold placeStage
  rw [finish]
  simp only
  split
  case isTrue failed => exact ⟨_, rfl, rfl, rfl, fun _ => rfl, fun none => by simp_all⟩
  case isFalse passed =>
    have silent : ∀ m ∈ cls.methods,
        limitReports opts.maxRegisters (finalForm opts.optimize m) = [] := by
      intro m member
      by_contra reported
      obtain ⟨r, among⟩ := List.exists_mem_of_ne_nil _ reported
      exact passed (List.any_eq_true.mpr ⟨r, List.mem_flatMap.mpr ⟨m, member, among⟩,
        Registers.mem_limitReports among⟩)
    obtain ⟨a, assembled⟩ : ∃ a, Assembly.assemble (finishedClass opts cls) = .ok a :=
      Registers.assemble_succeeds sound ⟨opts.optimize, opts.maxRegisters⟩ silent
    simp only [assembleStage, assembled, List.append_nil]
    exact ⟨_, rfl, rfl, rfl, fun failed => absurd failed passed, fun _ => ⟨a, rfl, rfl⟩⟩

end

/-- The artifacts of a file that has been checked. -/
def checkedFile (f : File Pos) : Compilation where
  className := f.cls.name
  symbols := some (buildTable f).value.listing
  tree := some (Code.analysisOf f).json

/-- The artifacts of a file for which code has been made. -/
def codedFile (f : File Pos) : Compilation :=
  { checkedFile f with listing := (classCode (Code.analysisOf f)).value.text? }

theorem compile_of_code {bytes : List UInt8} {f : File Pos} (opts : Options)
    (accepted : Code.Accepted bytes f) (silent : (classCode (Code.analysisOf f)).reports = []) :
    compile opts bytes =
      ⟨(placeStage opts (codedFile f) (classCode (Code.analysisOf f)).value).value,
        (buildTable f).reports ++ (analyze (buildTable f).value f).reports ++
          (placeStage opts (codedFile f) (classCode (Code.analysisOf f)).value).reports⟩ := by
  have clean : hasErrors ((buildTable f).reports ++ (analyze (buildTable f).value f).reports) =
      false := by
    have built : hasErrors (buildTable f).reports = false := accepted.built
    have analysed : hasErrors (analyze (buildTable f).value f).reports = false := accepted.analysed
    simp only [hasErrors] at built analysed ⊢
    rw [List.any_append, built, analysed]
    rfl
  have coded : codeStage opts (checkedFile f) (Code.analysisOf f) =
      placeStage opts (codedFile f) (classCode (Code.analysisOf f)).value := by
    unfold codeStage
    simp only [silent]
    rfl
  rw [compile, accepted.read]
  unfold checkStage
  simp only [clean, Bool.false_eq_true, if_false]
  rw [← coded]
  rfl

end JavaMinus
