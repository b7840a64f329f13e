import JavaMinus.Proofs.AssembledMethods

/-!
# The lines of selected instructions

What the lines that are selected for an instruction of register code have to do with labels,
jumps and slots. Most instructions give lines without labels and jumps (`Plain`); the others
are jumps, labels and comparisons. This is said once (`select_selected`), and the labels, the
targets and the slots of a whole body follow from it (`labels_selectAll`,
`targets_selectAll`, `slots_selectAll`).
-/

namespace JavaMinus.Assembly

open List

open Code (Inst Operand Reg Call)

variable {i : Instr} {t : String} {s : Int}

/-! ## What a line names -/

/-- The label that a line is. -/
def Instr.label? : Instr → Option String
  | label name => some name
  | _ => none

/-- The slot that a line reads or writes. -/
def Instr.slot? : Instr → Option Int
  | load _ s => some s
  | store _ s => some s
  | increment s _ => some s
  | _ => none

/-- The labels of lines, in order. -/
def lineLabels (lines : List Instr) : List String := lines.filterMap Instr.label?

theorem lineLabels_append (lines lines' : List Instr) :
    lineLabels (lines ++ lines') = lineLabels lines ++ lineLabels lines' :=
  filterMap_append

theorem mem_lineLabels {lines : List Instr} {name : String} :
    name ∈ lineLabels lines ↔ .label name ∈ lines := by
  simp only [lineLabels, mem_filterMap]
  constructor
  · rintro ⟨i, member, isLabel⟩
    cases i with
    | label _ => cases isLabel; exact member
    | _ => cases isLabel
  · exact fun member => ⟨_, member, rfl⟩

/-- The slot is one of a register, or it is the first one and the instruction looks there for
the object. -/
def Frame.Names (f : Frame) (inst : Inst) (s : Int) : Prop :=
  (∃ name, f.slots.get? name = some s) ∨ s = 0 ∧ accessesField inst = true

/-! ## Lines without labels and jumps -/

/-- The lines have no labels and no jumps. -/
def Plain (f : Frame) (inst : Inst) (lines : List Instr) : Prop :=
  ∀ i ∈ lines, i.label? = none ∧ i.target? = none ∧ ∀ s, i.slot? = some s → f.Names inst s

section Pieces

variable {f : Frame} {inst : Inst} {lines lines' : List Instr}

theorem Plain.append (first : Plain f inst lines) (second : Plain f inst lines') :
    Plain f inst (lines ++ lines') :=
  forall_mem_append.mpr ⟨first, second⟩

theorem Plain.nil : Plain f inst [] := forall_mem_nil _

theorem Plain.one (noLabel : i.label? = none) (noTarget : i.target? = none)
    (noSlot : i.slot? = none) : Plain f inst [i] :=
  forall_mem_singleton.mpr ⟨noLabel, noTarget, fun s slot => by simp [noSlot] at slot⟩

theorem plain_slot {r : Reg} (found : f.slot r = .ok s) (noLabel : i.label? = none)
    (noTarget : i.target? = none) (slot : i.slot? = some s) : Plain f inst [i] := by
  refine forall_mem_singleton.mpr ⟨noLabel, noTarget, fun s' slot' => ?_⟩
  obtain rfl : s = s' := Option.some.inj (slot.symm.trans slot')
  exact .inl ⟨r.name, slot_ok found⟩

theorem plain_load {o : Option Operand} (loaded : f.load o = .ok lines) : Plain f inst lines := by
  match o, loaded with
  | some (.imm v t), loaded =>
    cases loaded
    exact .one rfl rfl rfl
  | some (.reg r), loaded =>
    obtain ⟨s, found, done⟩ := ok_of_bind loaded
    cases done
    exact plain_slot found rfl rfl rfl

theorem plain_loads {os : List (Option Operand)} (loaded : f.loads os = .ok lines) :
    Plain f inst lines := by
  induction os generalizing lines with
  | nil =>
    cases loaded
    exact .nil
  | cons o rest ih =>
    obtain ⟨_, first, loaded⟩ := ok_of_bind loaded
    obtain ⟨_, others, done⟩ := ok_of_bind loaded
    cases done
    exact (plain_load first).append (ih others)

theorem plain_store {d : Reg} (stored : f.store d = .ok lines) : Plain f inst lines := by
  obtain ⟨s, found, done⟩ := ok_of_bind stored
  cases done
  exact plain_slot found rfl rfl rfl

theorem plain_object : Plain f inst (objectLines inst) := by
  have object : accessesField inst = true → Plain f inst [.load .ref 0] := by
    refine fun accesses => forall_mem_singleton.mpr ⟨rfl, rfl, fun s slot => ?_⟩
    cases slot
    exact .inr ⟨rfl, accesses⟩
  cases inst with
  | getField | putField => exact object rfl
  | _ => exact .nil

theorem plain_finish (finished : f.finish inst = .ok lines) : Plain f inst lines := by
  unfold Frame.finish at finished
  split at finished
  · exact plain_store finished
  · cases finished
    split
    · exact .one rfl rfl rfl
    · exact .nil
  · cases finished
    exact .nil

end Pieces

/-! ## Selected lines -/

/-- The lines of an instruction, by what they have to do with labels and jumps. -/
inductive Selected (f : Frame) (n : Nat) : Inst → List Instr → Prop where
  | plain {inst : Inst} {lines : List Instr} : Plain f inst lines → selectedLabels n inst = [] →
      Selected f n inst lines
  | branch {c : Option Operand} {t : String} {lines : List Instr} : Plain f (.branch c t) lines →
      Selected f n (.branch c t) (lines ++ [.ifNonzero t])
  | goto {t : String} : Selected f n (.goto t) [.goto t]
  | label {name : String} : Selected f n (.label name) [.label name]
  | less {d : Reg} {l r : Option Operand} {before after : List Instr} :
      Plain f (.binary d .less l r) before → Plain f (.binary d .less l r) after →
      Selected f n (.binary d .less l r) (before ++ Frame.compare n ++ after)

section Instructions

variable {f : Frame} {n : Nat} {lines : List Instr}

/-- **What the lines of an instruction have to do with labels, jumps and slots.** -/
theorem select_selected {inst : Inst} (selected : f.select n inst = .ok lines) :
    Selected f n inst lines := by
  cases small : inPlace? inst with
  | some step =>
    obtain ⟨s, found, rfl⟩ := (select_inPlace small).mp selected
    refine .plain (plain_slot found rfl rfl rfl) ?_
    cases inst with
    | binary d op l r =>
      cases op with
      | less => cases small
      | _ => rfl
    | _ => cases small
  | none =>
  obtain ⟨_, work, result, loaded, worked, finished, rfl⟩ := (select_parts small).mp selected
  have before : Plain f inst (objectLines inst ++ _) := plain_object.append (plain_loads loaded)
  have after := plain_finish finished
  have plain : ∀ {work : List Instr}, Plain f inst work → selectedLabels n inst = [] →
      Selected f n inst (objectLines inst ++ _ ++ work ++ result) :=
    fun middle unlabelled => .plain ((before.append middle).append after) unlabelled
  cases inst with
  | assign =>
    cases worked
    exact plain .nil rfl
  | binary d op l r =>
    cases op with
    | less =>
      cases worked
      exact .less before after
    | not | other => cases worked
    | _ =>
      cases worked
      exact plain (.one rfl rfl rfl) rfl
  | unary d op x =>
    cases op with
    | not =>
      cases worked
      exact plain ((Plain.one rfl rfl rfl).append (.one (i := .arith .xor) rfl rfl rfl)) rfl
    | _ => cases worked
  | newArray =>
    cases worked
    refine plain ?_ rfl
    split <;> exact .one rfl rfl rfl
  | branch =>
    cases worked
    cases finished
    rw [append_nil]
    exact .branch before
  | goto =>
    cases loaded
    cases worked
    cases finished
    exact .goto
  | label =>
    cases loaded
    cases worked
    cases finished
    exact .label
  | hole => cases worked
  | _ =>
    cases worked
    exact plain (.one rfl rfl rfl) rfl

theorem Plain.labels {inst : Inst} (plain : Plain f inst lines) : lineLabels lines = [] :=
  filterMap_eq_nil_iff.mpr fun i member => (plain i member).1

theorem Selected.labels {inst : Inst} (selected : Selected f n inst lines) :
    lineLabels lines = selectedLabels n inst := by
  cases selected with
  | plain plain none => rw [plain.labels, none]
  | branch plain =>
    rw [lineLabels_append, plain.labels]
    rfl
  | goto | label => rfl
  | less before after =>
    rw [lineLabels_append, lineLabels_append, before.labels, after.labels]
    rfl

theorem Selected.targets {inst : Inst} (selected : Selected f n inst lines) (member : i ∈ lines)
    (target : i.target? = some t) : inst.target? = some t ∨ t ∈ selectedLabels n inst := by
  have never : ∀ {lines : List Instr}, Plain f inst lines → i ∉ lines :=
    fun plain member => by simp [(plain i member).2.1] at target
  cases selected with
  | plain plain => exact absurd member (never plain)
  | branch plain =>
    rcases mem_append.mp member with there | last
    · exact absurd there (never plain)
    · rw [mem_singleton.mp last] at target
      exact .inl target
  | goto =>
    rw [mem_singleton.mp member] at target
    exact .inl target
  | label =>
    rw [mem_singleton.mp member] at target
    cases target
  | less before after =>
    rw [append_assoc, mem_append, mem_append] at member
    rcases member with first | compared | last
    · exact absurd first (never before)
    · right
      simp only [Frame.compare, mem_cons, not_mem_nil, or_false] at compared
      rcases compared with rfl | rfl | rfl | rfl | rfl | rfl
      all_goals simp_all [Instr.target?, selectedLabels]
    · exact absurd last (never after)

theorem Selected.slots {inst : Inst} (selected : Selected f n inst lines) (member : i ∈ lines)
    (slot : i.slot? = some s) : f.Names inst s := by
  cases selected with
  | plain plain => exact (plain i member).2.2 s slot
  | branch plain =>
    rcases mem_append.mp member with there | last
    · exact (plain i there).2.2 s slot
    · rw [mem_singleton.mp last] at slot
      cases slot
  | goto | label =>
    rw [mem_singleton.mp member] at slot
    cases slot
  | less before after =>
    rw [append_assoc, mem_append, mem_append] at member
    rcases member with first | compared | last
    · exact (before i first).2.2 s slot
    · simp only [Frame.compare, mem_cons, not_mem_nil, or_false] at compared
      rcases compared with rfl | rfl | rfl | rfl | rfl | rfl
      all_goals cases slot
    · exact (after i last).2.2 s slot

end Instructions

/-! ## Bodies -/

section

variable {f : Frame} {n : Nat} {code : List Inst} {body : List Instr}

theorem labels_selectAll (selected : f.selectAll n code = .ok body) :
    lineLabels body = bodyLabels n code := by
  induction code generalizing n body with
  | nil =>
    cases selected
    rfl
  | cons inst rest ih =>
    obtain ⟨lines, others, first, remaining, rfl⟩ := selectAll_cons selected
    rw [lineLabels_append, ih remaining, (select_selected first).labels, bodyLabels]

theorem label_mem_selectAll (selected : f.selectAll n code = .ok body) {name : String}
    (member : .label name ∈ code) : .label name ∈ body := by
  induction code generalizing n body with
  | nil => cases member
  | cons inst rest ih =>
    obtain ⟨lines, others, first, remaining, rfl⟩ := selectAll_cons selected
    rcases mem_cons.mp member with rfl | later
    · cases first
      exact mem_append_left _ (mem_singleton_self _)
    · exact mem_append_right _ (ih remaining later)

theorem targets_selectAll (selected : f.selectAll n code = .ok body) (member : i ∈ body)
    (target : i.target? = some t) : (∃ inst ∈ code, inst.target? = some t) ∨ .label t ∈ body := by
  induction code generalizing n body with
  | nil =>
    cases selected
    cases member
  | cons inst rest ih =>
    obtain ⟨lines, others, first, remaining, rfl⟩ := selectAll_cons selected
    rcases mem_append.mp member with here | later
    · rcases (select_selected first).targets here target with same | inside
      · exact .inl ⟨inst, mem_cons_self, same⟩
      · rw [← (select_selected first).labels, mem_lineLabels] at inside
        exact .inr (mem_append_left _ inside)
    · rcases ih remaining later with ⟨inst', there, same⟩ | inside
      · exact .inl ⟨inst', mem_cons_of_mem _ there, same⟩
      · exact .inr (mem_append_right _ inside)

theorem target_mem_selectAll (selected : f.selectAll n code = .ok body)
    (targets : ∀ t ∈ Code.jumpTargets code, .label t ∈ code) (member : i ∈ body)
    (target : i.target? = some t) : .label t ∈ body := by
  rcases targets_selectAll selected member target with ⟨inst, there, same⟩ | inside
  · exact label_mem_selectAll selected (targets t (mem_filterMap.mpr ⟨inst, there, same⟩))
  · exact inside

/-- The slots of a body are those of registers, and the first one for the fields of the
object. -/
theorem slots_selectAll (selected : f.selectAll n code = .ok body) (member : i ∈ body)
    (slot : i.slot? = some s) : ∃ inst ∈ code, f.Names inst s := by
  induction code generalizing n body with
  | nil =>
    cases selected
    cases member
  | cons inst rest ih =>
    obtain ⟨lines, others, first, remaining, rfl⟩ := selectAll_cons selected
    rcases mem_append.mp member with here | later
    · exact ⟨inst, mem_cons_self, (select_selected first).slots here slot⟩
    · obtain ⟨inst', there, names⟩ := ih remaining later
      exact ⟨inst', mem_cons_of_mem _ there, names⟩

end

/-! ## Assembled methods -/

theorem assembleMethod_selectAll {c : Code.Class} {m : Code.Method} {made : Method}
    (assembled : assembleMethod c m = .ok made) :
    ∃ slots, m.slots = some slots ∧ made.head = methodHead c m ∧ made.locals = m.locals ∧
      Frame.selectAll ⟨c, slots⟩ 0 m.code = .ok made.body := by
  unfold assembleMethod at assembled
  split at assembled
  case h_1 => cases assembled
  case h_2 slots isPlaced =>
    split at assembled
    case h_1 => cases assembled
    case h_2 body selected =>
      cases assembled
      exact ⟨slots, isPlaced, rfl, rfl, selected⟩

theorem exists_assembled {c : Code.Class} {a : Class} (assembled : assemble c = .ok a) {made : Method}
    (member : made ∈ a.methods) : ∃ m ∈ c.methods, assembleMethod c m = .ok made := by
  unfold assemble at assembled
  obtain ⟨methods, each, done⟩ := ok_of_bind assembled
  cases done
  obtain ⟨⟨k, inside⟩, rfl⟩ := mem_iff_get.mp member
  have sources := forall₂_of_mapM each
  have inside' : k < c.methods.length := sources.length_eq ▸ inside
  exact ⟨c.methods.get ⟨k, inside'⟩, get_mem _ _, sources.get inside' inside⟩

end JavaMinus.Assembly
