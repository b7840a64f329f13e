import JavaMinus.Proofs.EmittedCode
import JavaMinus.Proofs.InstructionSelection

/-!
# Assembled methods

The body of an assembled method falls into blocks of operations, one for each
instruction of register code (`selectAll_blocks`), and each block does what its
instruction does (`assemble_carries_instructions`). Two facts make the blocks fit together:
the labels of comparisons are numbered within the method, so that no label of the
body occurs twice (`nodup_bodyLabels`), and registers are never placed before slot 0
(`slotsStart_of_place`).
-/

namespace JavaMinus.Assembly

open List

open Code (Value Inst Operand Reg Call Slots Var UniqueLabels labelNames labelName labelName_inj
  StandsAt)

variable {code : List Inst} {n : Nat}

/-! ## Slots of placed registers -/

section

variable {s : Slots}

theorem slotsStart_of_forall (each : ∀ e ∈ s, 0 ≤ e.2) : SlotsStart s := by
  intro n k found
  induction s with
  | nil => cases found
  | cons entry rest ih =>
    obtain ⟨n', k'⟩ := entry
    rw [Slots.get?, lookup_cons] at found
    split at found
    · cases found
      exact each _ mem_cons_self
    · exact ih (fun e member => each e (mem_cons_of_mem _ member)) found

theorem forall_put (each : ∀ e ∈ s, 0 ≤ e.2) {n : String} {k : Int} (start : 0 ≤ k) :
    ∀ e ∈ s.put n k, 0 ≤ e.2 := by
  induction s with
  | nil => simpa [Slots.put] using start
  | cons entry rest ih =>
    obtain ⟨first, others⟩ := forall_mem_cons.mp each
    rw [Slots.put]
    split
    · exact forall_mem_cons.mpr ⟨start, others⟩
    · exact forall_mem_cons.mpr ⟨first, ih others⟩

theorem forall_thisSlots (vars : List Var) : ∀ e ∈ Registers.thisSlots vars, 0 ≤ e.2 := by
  refine List.foldlRecOn vars _ (motive := fun s : Slots => ∀ e ∈ s, 0 ≤ e.2) (by simp) ?_
  intro s each v _
  split
  · exact forall_put each (Int.le_refl 0)
  · exact each

theorem forall_paramSlots (each : ∀ e ∈ s, 0 ≤ e.2) (next : Nat) (params : List Var) :
    ∀ e ∈ Registers.paramSlots s next params, 0 ≤ e.2 := by
  induction params generalizing s next with
  | nil => exact each
  | cons p rest ih => exact ih (forall_put each (Int.natCast_nonneg next)) (next + 1)

theorem slotsStart_of_place {m : Code.Method} {limit : Int} {p : Registers.Placement}
    (placed : Registers.place m limit = .ok p) : SlotsStart p.slots := by
  unfold Registers.place Registers.fixedSlots at placed
  simp only at placed
  split at placed
  · cases placed
  · split at placed
    · cases placed
    · cases placed
      refine slotsStart_of_forall fun e member => ?_
      rcases mem_append.mp member with fixed | free
      · exact forall_paramSlots (forall_thisSlots m.vars) _ _ e fixed
      · obtain ⟨_, _, rfl⟩ := mem_map.mp free
        exact Int.natCast_nonneg _

end

/-! ## Blocks of operations -/

/-- Where the block of an instruction starts in the body. -/
def blockStart (blocks : List (List Op)) (i : Nat) : Nat := (blocks.take i).flatten.length

section Blocks

variable {blocks : List (List Op)} {block : List Op} {i : Nat}

theorem blockStart_succ (here : blocks[i]? = some block) :
    blockStart blocks (i + 1) = blockStart blocks i + block.length := by
  simp [blockStart, take_add_one, here]

theorem standsAt_block (here : blocks[i]? = some block) :
    StandsAt blocks.flatten (blockStart blocks i) block := by
  obtain ⟨inside, rfl⟩ := List.getElem?_eq_some_iff.mp here
  have split : blocks.flatten = (blocks.take i).flatten ++
      (blocks[i] ++ (blocks.drop (i + 1)).flatten) := by
    rw [← flatten_cons, ← drop_eq_getElem_cons inside, ← flatten_append,
      take_append_drop]
  have whole := StandsAt.whole blocks.flatten
  rw [split] at whole ⊢
  exact (whole.right (Nat.zero_add _).symm).left

end Blocks

/-! ## Labels of a body -/

/-- The labels of a body, with comparisons numbered from `n` on. -/
def bodyLabels (n : Nat) : List Inst → List String
  | [] => []
  | inst :: rest => selectedLabels n inst ++ bodyLabels (n + Frame.comparisons inst) rest

/-- The name has the form of a label of a comparison. -/
def IsComparisonLabel (name : String) : Prop :=
  ∃ n : Nat, name = "cmp_true_" ++ toString n ∨ name = "cmp_end_" ++ toString n

theorem kind_of_isComparisonLabel {kind : String}
    (comparison : IsComparisonLabel (labelName kind n)) : kind = "cmp_true" ∨ kind = "cmp_end" := by
  obtain ⟨k, same | same⟩ := comparison
  · exact .inl (labelName_inj (show labelName kind n = labelName "cmp_true" k from same)).1
  · exact .inr (labelName_inj (show labelName kind n = labelName "cmp_end" k from same)).1

theorem selectedLabels_cases (n : Nat) (inst : Inst) :
    (∃ name, inst = .label name) ∨ (∃ d l r, inst = .binary d .less l r) ∨
      selectedLabels n inst = [] := by
  cases inst with
  | label name => exact .inl ⟨name, rfl⟩
  | binary d op l r =>
    cases op with
    | less => exact .inr (.inl ⟨d, l, r, rfl⟩)
    | _ => exact .inr (.inr rfl)
  | _ => exact .inr (.inr rfl)

theorem mem_selectedLabels_less {d : Reg} {l r : Option Operand} {name : String} :
    name ∈ selectedLabels n (.binary d .less l r) ↔
      name = labelName "cmp_true" n ∨ name = labelName "cmp_end" n := by
  rw [selectedLabels, mem_cons, mem_singleton]
  rfl

theorem mem_bodyLabels {name : String} (member : name ∈ bodyLabels n code) : .label name ∈ code ∨
      ∃ k ≥ n, name = labelName "cmp_true" k ∨ name = labelName "cmp_end" k := by
  induction code generalizing n with
  | nil => cases member
  | cons inst rest ih =>
    rcases mem_append.mp member with here | later
    · rcases selectedLabels_cases n inst with ⟨_, rfl⟩ | ⟨d, l, r, rfl⟩ | plain
      · rw [mem_singleton.mp here]
        exact .inl mem_cons_self
      · exact .inr ⟨n, Nat.le_refl n, mem_selectedLabels_less.mp here⟩
      · rw [plain] at here
        cases here
    · rcases ih later with old | ⟨k, above, new⟩
      · exact .inl (mem_cons_of_mem _ old)
      · exact .inr ⟨k, (Nat.le_add_right _ _).trans above, new⟩

theorem nodup_bodyLabels (unique : UniqueLabels code)
    (free : ∀ name, .label name ∈ code → ¬ IsComparisonLabel name) (n : Nat) :
    (bodyLabels n code).Nodup := by
  induction code generalizing n with
  | nil => exact nodup_nil
  | cons inst rest ih =>
    have uniqueRest : UniqueLabels rest :=
      List.Nodup.sublist ((sublist_cons_self inst rest).filterMap _) unique
    have later := ih uniqueRest (fun name member => free name (mem_cons_of_mem _ member))
      (n + Frame.comparisons inst)
    rcases selectedLabels_cases n inst with ⟨name, rfl⟩ | ⟨d, l, r, rfl⟩ | plain
    · refine nodup_cons.mpr ⟨fun there => ?_, later⟩
      rcases mem_bodyLabels there with old | ⟨k, _, new⟩
      · exact (nodup_cons.mp unique).1 (Code.mem_labelNames.mpr old)
      · exact free _ mem_cons_self ⟨k, new⟩
    · -- The labels of this comparison carry a number that no later one has.
      refine nodup_append'.mpr ⟨?_, later, fun name here there => ?_⟩
      · refine nodup_cons.mpr ⟨fun member => ?_, nodup_singleton _⟩
        have same : labelName "cmp_true" n = labelName "cmp_end" n := mem_singleton.mp member
        exact absurd (labelName_inj same).1 (by decide)
      · have isHere := mem_selectedLabels_less.mp here
        rcases mem_bodyLabels there with old | ⟨k, above, isThere⟩
        · exact free _ (mem_cons_of_mem _ old) ⟨n, isHere⟩
        · have same : n = k := by
            rcases isHere with rfl | rfl <;> rcases isThere with same | same <;>
              exact (labelName_inj same).2
          simp only [Frame.comparisons] at above
          omega
    · rw [bodyLabels, plain]
      exact later

/-! ## Methods -/

section

variable {f : Frame} (start : SlotsStart f.slots)

theorem selectAll_cons {inst : Inst} {body : List Instr}
    (selected : f.selectAll n (inst :: code) = .ok body) :
    ∃ lines others, f.select n inst = .ok lines ∧
      f.selectAll (n + Frame.comparisons inst) code = .ok others ∧ body = lines ++ others := by
  unfold Frame.selectAll at selected
  split at selected
  case h_1 => cases selected
  case h_2 lines first =>
    split at selected
    case h_1 => cases selected
    case h_2 others remaining =>
      cases selected
      exact ⟨lines, others, first, remaining, rfl⟩

include start

theorem select_block {inst : Inst} (fits : ∀ c, inst = .call c → CallFits c) {lines : List Instr}
    (selected : f.select n inst = .ok lines) :
    ∃ block, Encodes lines block ∧ Implements f.cls f.slots inst block ∧
      opLabels block = selectedLabels n inst ∧ ∀ name, inst = .label name → block = [.label name] := by
  by_cases isLabel : ∃ name, inst = .label name
  · obtain ⟨name, rfl⟩ := isLabel
    cases selected
    refine ⟨[.label name], .one rfl, fun _ _ _ _ _ _ _ stands => reaches_next stands.head rfl, rfl, ?_⟩
    rintro _ ⟨⟩
    rfl
  · obtain ⟨block, code, implements, labels⟩ := select_implemented start fits selected
    exact ⟨block, code, implements, labels, fun name same => absurd ⟨name, same⟩ isLabel⟩

/-- The lines for the instructions of code are those of blocks of operations, one block for each
instruction. -/
theorem selectAll_blocks (fits : ∀ c, .call c ∈ code → CallFits c) {body : List Instr}
    (selected : f.selectAll n code = .ok body) :
    ∃ blocks : List (List Op), blocks.length = code.length ∧ Encodes body blocks.flatten ∧
      opLabels blocks.flatten = bodyLabels n code ∧
      ∀ (i : Nat) (inst : Inst), code[i]? = some inst → ∃ n lines block,
        f.select n inst = .ok lines ∧ blocks[i]? = some block ∧ Encodes lines block ∧
          Implements f.cls f.slots inst block ∧ ∀ name, inst = .label name → block = [.label name] := by
  induction code generalizing n body with
  | nil =>
    cases selected
    exact ⟨[], rfl, .nil, rfl, fun i inst here => by cases here⟩
  | cons inst rest ih =>
    obtain ⟨lines, others, first, remaining, rfl⟩ := selectAll_cons selected
    obtain ⟨blocks, count, code, labels, each⟩ :=
      ih (fun c member => fits c (mem_cons_of_mem _ member)) remaining
    obtain ⟨block, blockCode, implements, blockLabels, alone⟩ :=
      select_block start (fun c same => fits c (same ▸ mem_cons_self)) first
    refine ⟨block :: blocks, ?_, blockCode.append code, ?_, ?_⟩
    · rw [length_cons, length_cons, count]
    · rw [flatten_cons, opLabels_append, blockLabels, labels]
      rfl
    · intro i inst' here
      cases i with
      | zero =>
        cases here
        exact ⟨n, lines, block, first, rfl, blockCode, implements, alone⟩
      | succ i => exact each i inst' here

end

/-- The body of an assembled method, as operations in blocks, carries out the code: each
instruction is carried out by the lines that are selected for it, from the start of its block to
the start of the next, and every jump goes to the block of its label. -/
structure CarriedOut (c : Code.Class) (m : Code.Method) (slots : Slots) (body : List Instr)
    (blocks : List (List Op)) : Prop where
  placed : m.slots = some slots
  count : blocks.length = m.code.length
  lines : Encodes body blocks.flatten
  selected : ∀ (i : Nat) (inst : Inst), m.code[i]? = some inst → ∃ n lines block,
    Frame.select ⟨c, slots⟩ n inst = .ok lines ∧ blocks[i]? = some block ∧ Encodes lines block ∧
      Implements c slots inst block
  carries : ∀ (i : Nat) (inst : Inst), m.code[i]? = some inst →
    ∀ (W : Machine) (compute : Operator → List Value → Value) (locals : Locals) (heap : W.Heap),
      Carries W compute c slots blocks.flatten inst (blockStart blocks i) (blockStart blocks (i + 1))
        locals heap
  labels : ∀ (i : Nat) (name : String), m.code[i]? = some (.label name) →
    position blocks.flatten name = blockStart blocks i

/-- A method whose registers are in the slots where they were placed, whose labels occur once and
are not those of comparisons, and whose calls can be made. -/
structure Selectable (m : Code.Method) : Prop where
  placed : ∃ limit p, Registers.place m limit = .ok p ∧ m.slots = some p.slots
  unique : UniqueLabels m.code
  free : ∀ name, .label name ∈ m.code → ¬ IsComparisonLabel name
  fits : ∀ call, .call call ∈ m.code → CallFits call

theorem assembleMethod_carriedOut {c : Code.Class} {m : Code.Method} (ready : Selectable m)
    {made : Method} (assembled : assembleMethod c m = .ok made) :
    ∃ slots blocks, CarriedOut c m slots made.body blocks := by
  obtain ⟨limit, p, placed, slots⟩ := ready.placed
  unfold assembleMethod at assembled
  rw [slots] at assembled
  simp only at assembled
  split at assembled
  case h_1 => cases assembled
  case h_2 body selected =>
    cases assembled
    obtain ⟨blocks, count, lines, labels, each⟩ :=
      selectAll_blocks (f := ⟨c, p.slots⟩) (slotsStart_of_place placed) ready.fits selected
    have once : (opLabels blocks.flatten).Nodup :=
      labels ▸ nodup_bodyLabels ready.unique ready.free 0
    refine ⟨p.slots, blocks, slots, count, lines, ?_, ?_, ?_⟩
    · intro i inst here
      obtain ⟨n, lines, block, isSelected, there, code, implements, _⟩ := each i inst here
      exact ⟨n, lines, block, isSelected, there, code, implements⟩
    · intro i inst here W compute locals heap
      obtain ⟨_, _, block, _, there, _, implements, _⟩ := each i inst here
      rw [blockStart_succ there]
      exact implements W compute _ _ locals heap once (standsAt_block there)
    · intro i name here
      obtain ⟨_, _, block, _, there, _, _, alone⟩ := each i _ here
      have stands := standsAt_block there
      rw [alone name rfl] at stands
      exact position_eq once stands.head

/-! ## Classes -/

theorem forall₂_of_mapM {ε α β : Type} {g : α → Except ε β} {xs : List α} {ys : List β}
    (done : xs.mapM g = .ok ys) : List.Forall₂ (fun x y => g x = .ok y) xs ys := by
  induction xs generalizing ys with
  | nil =>
    cases done
    exact .nil
  | cons x rest ih =>
    rw [mapM_cons] at done
    obtain ⟨y, first, done⟩ := ok_of_bind done
    obtain ⟨others, remaining, done⟩ := ok_of_bind done
    cases done
    exact .cons first (ih remaining)

/-- **Selecting instructions preserves meaning.** When a class is assembled, every instruction of
every method is carried out by its own lines. -/
theorem assemble_carries_instructions {c : Code.Class} {a : Class}
    (ready : ∀ m ∈ c.methods, Selectable m) (assembled : assemble c = .ok a) :
    List.Forall₂ (fun m made => ∃ slots blocks, CarriedOut c m slots made.body blocks)
      c.methods a.methods := by
  unfold assemble at assembled
  obtain ⟨methods, each, done⟩ := ok_of_bind assembled
  cases done
  refine ((forall₂_and_left _ _).mpr ⟨ready, forall₂_of_mapM each⟩).imp ?_
  rintro m made ⟨readyHere, here⟩
  exact assembleMethod_carriedOut readyHere here

/-! ### A class with a loop -/

/-- A method that counts in steps at both ends of what a byte holds, compares, calls with and
without a result, and reads and writes a field. -/
def counting : Code.Method where
  name := "count"
  params := [⟨"n", .int, .param⟩]
  ret := .int
  vars := [⟨"this", .object "A", .this⟩, ⟨"n", .int, .param⟩, ⟨"i", .int, .declared⟩,
    ⟨"t0", .boolean, .temp⟩, ⟨"t1", .int, .temp⟩]
  code := [ .assign ⟨"i", .int⟩ (some (.int (-2147483648))), .label "while_0",
    .binary ⟨"t0", .boolean⟩ .less (some (.reg ⟨"i", .int⟩)) (some (.reg ⟨"n", .int⟩)),
    .unary ⟨"t0", .boolean⟩ .not (some (.reg ⟨"t0", .boolean⟩)),
    .branch (some (.reg ⟨"t0", .boolean⟩)) "end_0",
    .binary ⟨"i", .int⟩ .sub (some (.reg ⟨"i", .int⟩)) (some (.int (-127))),
    .binary ⟨"i", .int⟩ .sub (some (.reg ⟨"i", .int⟩)) (some (.int (-128))),
    .call { kind := .virtual, owner := "A", recv := some (.reg ⟨"this", .object "A"⟩),
            method := "next", args := [some (.reg ⟨"i", .int⟩)], params := [.int], ret := .int },
    .call { kind := .static, dst := some ⟨"t1", .int⟩, owner := "B", method := "size",
            ret := .int },
    .putField "last" (some (.reg ⟨"t1", .int⟩)),
    .goto "while_0",
    .label "end_0",
    .getField ⟨"t1", .int⟩ "last",
    .ret (some (.reg ⟨"t1", .int⟩))]

/-- The class of that method, with its registers placed. -/
def countingClass : Code.Class where
  name := "A"
  fields := [⟨"last", .int⟩]
  methods := [{ counting with
    slots := some [("this", 0), ("n", 1), ("i", 2), ("t0", 3), ("t1", 3)], locals := 4 }]

theorem selectable_counting : ∀ m ∈ countingClass.methods, Selectable m := by
  intro m member
  rw [mem_singleton.mp member]
  refine ⟨⟨0, ⟨_, 4, 2⟩, by with_unfolding_all rfl, rfl⟩, by decide, ?_, ?_⟩
  · intro name isLabel
    have either : name = "while_0" ∨ name = "end_0" := by simpa [counting] using isLabel
    intro comparison
    rcases either with rfl | rfl
    · exact absurd (kind_of_isComparisonLabel (show IsComparisonLabel (labelName "while" 0) from
        comparison)) (by decide)
    · exact absurd (kind_of_isComparisonLabel (show IsComparisonLabel (labelName "end" 0) from
        comparison)) (by decide)
  · intro call isCall
    simp only [counting, mem_cons, Inst.call.injEq, reduceCtorEq, false_or, not_mem_nil,
      or_false] at isCall
    rcases isCall with rfl | rfl
    all_goals exact ⟨by decide, rfl, by decide⟩

theorem assemble_carries_counting : ∃ a, assemble countingClass = .ok a ∧
    (∀ m ∈ countingClass.methods, Selectable m) ∧
    List.Forall₂ (fun m made => ∃ slots blocks, CarriedOut countingClass m slots made.body blocks)
      countingClass.methods a.methods := by
  have succeeds : (assemble countingClass).isOk = true := by decide +kernel
  cases assembled : assemble countingClass with
  | error e => simp [assembled, Except.isOk, Except.toBool] at succeeds
  | ok a => exact ⟨a, rfl, selectable_counting,
      assemble_carries_instructions selectable_counting assembled⟩

end JavaMinus.Assembly
