import JavaMinus.Proofs.SelectedOperations
import JavaMinus.Registers.Placement

/-!
# Selecting an instruction preserves its meaning

The lines that are selected for an instruction of register code do what the
instruction does (`Implemented`): they are the lines of operations that, wherever
they stand in a program whose labels occur once, carry the instruction out
(`select_implemented`).

Three kinds need care. A step by a constant that fits in a byte is done in place
(`select_increment`). A comparison brings its own labels and leaves a number on the
stack on both ways to its end (`compareOps_run`). A call takes its arguments and its
receiver from the stack, and its result is stored, or dropped if nobody wants it
(`implemented_call`); this is right only for calls that the machine can make (`CallFits`).
-/

namespace JavaMinus.Assembly

open List

open Code (Value Inst Operand Reg Call Slots Action CallSite CallKind Effect World operandValue
  StandsAt machineResult machineResult_eq_eval)

variable {values : List (Locals → Value)} {workLines : List Instr} {inst : Inst}

/-! ## Labels -/

/-- The labels of a program. -/
def opLabels (program : List Op) : List String := program.filterMap Op.label?

theorem position_eq {program : List Op} (unique : (opLabels program).Nodup) {p : Nat} {t : String}
    (here : program[p]? = some (.label t)) : position program t = p := by
  have there : program[position program t]? = some (.label t) :=
    List.getElem?_idxOf (mem_of_getElem? here)
  exact Code.position_unique_of_nodup unique there here rfl rfl

/-- The operations do what an instruction does, wherever they stand. -/
def Implements (c : Code.Class) (slots : Slots) (inst : Inst) (ops : List Op) : Prop :=
  ∀ (W : Machine) (compute : Operator → List Value → Value) (program : List Op) (p : Nat)
    (locals : Locals) (heap : W.Heap), (opLabels program).Nodup → StandsAt program p ops →
    Carries W compute c slots program inst p (p + ops.length) locals heap

/-- The labels that are selected for an instruction, with number `n` for a comparison. -/
def selectedLabels (n : Nat) : Inst → List String
  | .label name => [name]
  | .binary _ .less _ _ => ["cmp_true_" ++ toString n, "cmp_end_" ++ toString n]
  | _ => []

/-- The lines are those of operations that do what the instruction does, and have its labels. -/
def Implemented (f : Frame) (n : Nat) (inst : Inst) (lines : List Instr) : Prop :=
  ∃ ops, Encodes lines ops ∧ Implements f.cls f.slots inst ops ∧ opLabels ops = selectedLabels n inst

theorem opLabels_append (ops ops' : List Op) : opLabels (ops ++ ops') = opLabels ops ++ opLabels ops' :=
  filterMap_append

theorem opLabels_one {op : Op} (plain : op.label? = none) : opLabels [op] = [] :=
  filterMap_cons_none plain

theorem opLabels_pushes {ops : List Op} (each : List.Forall₂ Pushes values ops) :
    opLabels ops = [] := by
  induction each with
  | nil => rfl
  | cons pushes _ ih =>
    rw [opLabels, filterMap_cons_none pushes.plain]
    exact ih

/-! ## Actions -/

/-- What is on the stack after an action goes into the slot of the destination, if there is
one. -/
structure Finishes (slots : Slots) (dst : Option Reg) (rest : Value → List Value)
    (finish : List Op) : Prop where
  run : ∀ (W : Machine) (program : List Op) (p : Nat) (locals : Locals) (heap : W.Heap) (v : Value),
    StandsAt program p finish → Reaches (W.step program) 0 ⟨p, rest v, locals, heap⟩ []
      ⟨p + finish.length, [], (inSlots slots).write locals (dst.map fun d => (d.name, v)), heap⟩
  plain : opLabels finish = []

theorem Finishes.store {slots : Slots} {d : Reg} {op : Op} (stores : Stores slots d op) :
    Finishes slots (some d) (fun v => [v]) [op] where
  run _ _ _ _ _ _ stands := reaches_store stores stands.head
  plain := filterMap_cons_none stores.plain

theorem Finishes.nothing (slots : Slots) : Finishes slots none (fun _ => []) [] where
  run _ _ _ _ _ _ _ := .refl _
  plain := rfl

theorem Finishes.drop (slots : Slots) : Finishes slots none (fun v => [v]) [.pop] where
  run _ _ _ _ _ _ stands := reaches_next stands.head rfl
  plain := rfl

theorem implemented_perform (op : Op) {f : Frame} {n : Nat} {before finish : List Op}
    {beforeLines finishLines : List Instr} {work : Instr} {action : Locals → Action}
    {dst : Option Reg} {rest : Value → List Value} (beforeCode : Encodes beforeLines before)
    (line : work.line = op.line) (finishCode : Encodes finishLines finish)
    (pushes : List.Forall₂ Pushes values before) (finishes : Finishes f.slots dst rest finish)
    (plain : op.label? = none) (unlabelled : selectedLabels n inst = [])
    (effect : ∀ (w : World) (locals : Locals) (heap : w.Heap),
      inst.effect w (locals 0) ((inSlots f.slots).get locals) heap =
        Effect.perform w (action locals) dst heap)
    (exec : ∀ (W : Machine) (locals : Locals) (heap : W.Heap),
      op.exec W locals heap (values.map fun value => value locals).reverse =
        .perform W (machineAction f.cls inst (action locals)) locals heap rest) :
    Implemented f n inst (beforeLines ++ [work] ++ finishLines) := by
  refine ⟨before ++ [op] ++ finish, (beforeCode.append (.one line)).append finishCode, ?_, ?_⟩
  · intro W compute program p locals heap unique stands
    have total : p + (before ++ [op] ++ finish).length = p + before.length + 1 + finish.length := by
      rw [length_append, length_append, length_singleton]
      omega
    rw [total]
    have ready : Reaches (W.step program) 0 ⟨p, [], locals, heap⟩ [] _ :=
      reaches_pushes pushes stands.left.left
    rw [append_nil] at ready
    have behind : StandsAt program (p + before.length + 1) finish := by
      refine stands.right ?_
      rw [length_append, length_singleton]
      omega
    exact carries_perform (effect (W.world f.cls inst compute) locals heap) ready
      (stands.left.right rfl).head (exec W locals heap)
      fun v heap' => finishes.run W program _ locals heap' v behind
  · rw [opLabels_append, opLabels_append, opLabels_pushes pushes, opLabels_one plain, finishes.plain,
      unlabelled]
    rfl

/-- Operands, operations that compute a value from them without an action, and a store. -/
theorem implemented_store (result : (W : Machine) → Locals → W.Heap → Value) {f : Frame} {n : Nat}
    {before work : List Op} {store : Op} {beforeLines storeLines : List Instr} {d : Reg}
    (beforeCode : Encodes beforeLines before) (workCode : Encodes workLines work)
    (storeCode : Encodes storeLines [store]) (pushes : List.Forall₂ Pushes values before)
    (stores : Stores f.slots d store) (labelled : opLabels work = selectedLabels n inst)
    (effect : ∀ (W : Machine) compute (locals : Locals) (heap : W.Heap),
      inst.effect (W.world f.cls inst compute) (locals 0) ((inSlots f.slots).get locals) heap =
        .next [] (some (d.name, result W locals heap)) heap)
    (run : ∀ (W : Machine) program p locals (heap : W.Heap), (opLabels program).Nodup →
      StandsAt program p work → Reaches (W.step program) 0
        ⟨p, (values.map fun value => value locals).reverse, locals, heap⟩ []
        ⟨p + work.length, [result W locals heap], locals, heap⟩) :
    Implemented f n inst (beforeLines ++ workLines ++ storeLines) := by
  refine ⟨before ++ work ++ [store], (beforeCode.append workCode).append storeCode, ?_, ?_⟩
  · intro W compute program p locals heap unique stands
    have total : p + (before ++ work ++ [store]).length = p + before.length + work.length + 1 := by
      rw [length_append, length_append, length_singleton]
      omega
    have storeAt : StandsAt program (p + before.length + work.length) [store] := by
      refine stands.right ?_
      rw [length_append, Nat.add_assoc]
    have ready : Reaches (W.step program) 0 ⟨p, [], locals, heap⟩ [] _ :=
      reaches_pushes pushes stands.left.left
    rw [append_nil] at ready
    rw [total]
    exact carries_store (effect W compute locals heap)
      (ready.trans (run W program _ locals heap unique (stands.left.right rfl))) storeAt.head stores
  · rw [opLabels_append, opLabels_append, opLabels_pushes pushes, labelled]
    rw [opLabels_one stores.plain]
    simp

theorem implemented_last (op : Op) {f : Frame} {n : Nat} {before : List Op}
    {beforeLines : List Instr} {work : Instr} (beforeCode : Encodes beforeLines before)
    (line : work.line = op.line) (pushes : List.Forall₂ Pushes values before)
    (labelled : opLabels [op] = selectedLabels n inst)
    (carries : ∀ (W : Machine) compute program p mid locals (heap : W.Heap),
      Reaches (W.step program) 0 ⟨p, [], locals, heap⟩ []
        ⟨mid, (values.map fun value => value locals).reverse, locals, heap⟩ →
      program[mid]? = some op →
      Carries W compute f.cls f.slots program inst p (mid + 1) locals heap) :
    Implemented f n inst (beforeLines ++ [work] ++ []) := by
  rw [append_nil]
  refine ⟨before ++ [op], beforeCode.append (.one line), ?_, ?_⟩
  · intro W compute program p locals heap unique stands
    have ready : Reaches (W.step program) 0 ⟨p, [], locals, heap⟩ [] _ :=
      reaches_pushes pushes stands.left
    rw [append_nil] at ready
    rw [length_append, ← Nat.add_assoc]
    exact carries W compute program p _ locals heap ready (stands.right rfl).head
  · rw [opLabels_append, opLabels_pushes pushes, labelled, nil_append]

/-! ## Arithmetic -/

section

variable {w : World} {d : Reg} {op : Operator} {l r : Option Operand} {read : String → Value}
  {obj : Value} {heap : w.Heap}

theorem binary_effect_ok {v : Value}
    (result : w.binary op (operandValue read l) (operandValue read r) = .ok v) :
    (Inst.binary d op l r).effect w obj read heap = .next [] (some (d.name, v)) heap := by
  simp only [Inst.effect, result]

theorem binary_effect_error {e : w.Failure}
    (result : w.binary op (operandValue read l) (operandValue read r) = .error e) :
    (Inst.binary d op l r).effect w obj read heap = .fail [] e heap := by
  simp only [Inst.effect, result]

end

theorem binary_of_stepBy {w : World} {d : Reg} {op : Operator} {l r : Option Operand} {v : Int}
    (moved : Frame.stepBy d op l r = some v) (read : String → Value) :
    w.binary op (operandValue read l) (operandValue read r) =
      .ok (.num (w.number (read d.name) + Int32.ofInt v)) := by
  unfold Frame.stepBy at moved
  split at moved
  case h_1 x c t =>
    rw [Option.ite_none_right_eq_some] at moved
    obtain ⟨same, moved⟩ := moved
    cases moved
    simp [World.binary, machineResult, operandValue, same, Int32.ofInt_add, World.number]
  case h_2 c t x =>
    rw [Option.ite_none_right_eq_some] at moved
    obtain ⟨same, moved⟩ := moved
    cases moved
    simp [World.binary, machineResult, operandValue, same, Int32.ofInt_add, World.number, Int32.add_comm]
  case h_3 x c t =>
    rw [Option.ite_none_right_eq_some] at moved
    obtain ⟨same, moved⟩ := moved
    cases moved
    simp [World.binary, machineResult, operandValue, same, Int.sub_eq_add_neg, Int32.ofInt_add,
      World.number]
  case h_4 => cases moved

section Instructions

variable {f : Frame} {n : Nat} {d : Reg} {c : Call}

/-- The operations of a comparison. -/
def compareOps (n : Nat) : List Op :=
  [.ifLess ("cmp_true_" ++ toString n), .small 0, .goto ("cmp_end_" ++ toString n),
    .label ("cmp_true_" ++ toString n), .small 1, .label ("cmp_end_" ++ toString n)]

theorem compareOps_run {W : Machine} {program : List Op} {p : Nat} {a b : Value} {locals : Locals}
    {heap : W.Heap} (unique : (opLabels program).Nodup) (stands : StandsAt program p (compareOps n)) :
    Reaches (W.step program) 0 ⟨p, [b, a], locals, heap⟩ []
      ⟨p + 6, [.num (if W.number a < W.number b then 1 else 0)], locals, heap⟩ := by
  have yesAt := stands.tail.tail.tail.head
  have endAt := stands.tail.tail.tail.tail.tail.head
  have last : ∀ stack : List Value, Reaches (W.step program) 0 ⟨p + 5, stack, locals, heap⟩ []
      ⟨p + 6, stack, locals, heap⟩ := fun stack => reaches_next endAt rfl
  by_cases less : W.number a < W.number b
  · have jump : Reaches (W.step program) 0 ⟨p, [b, a], locals, heap⟩ [] ⟨p + 3, [], locals, heap⟩ := by
      rw [← position_eq unique yesAt]
      exact reaches_jump stands.head (by simp only [Op.exec, take2, if_pos less])
    have one : Reaches (W.step program) 0 ⟨p + 4, [], locals, heap⟩ []
        ⟨p + 5, [.num 1], locals, heap⟩ := reaches_next stands.tail.tail.tail.tail.head rfl
    rw [if_pos less]
    exact ((jump.trans (reaches_next yesAt rfl)).trans one).trans (last _)
  · have zero : Reaches (W.step program) 0 ⟨p + 1, [], locals, heap⟩ []
        ⟨p + 2, [.num 0], locals, heap⟩ := reaches_next stands.tail.head rfl
    have jump : Reaches (W.step program) 0 ⟨p + 2, [.num 0], locals, heap⟩ []
        ⟨p + 5, [.num 0], locals, heap⟩ := by
      rw [← position_eq unique endAt]
      exact reaches_jump stands.tail.tail.head rfl
    rw [if_neg less]
    have go : Reaches (W.step program) 0 ⟨p, [b, a], locals, heap⟩ [] ⟨p + 1, [], locals, heap⟩ :=
      reaches_next stands.head (by simp only [Op.exec, take2, if_neg less])
    exact ((go.trans zero).trans jump).trans (last _)

/-! ### Calls -/

/-- A call that the machine can make: it is static, virtual or special, there are as many
arguments as parameters, and only a call with a result has a destination. -/
structure CallFits (c : Call) : Prop where
  kind : c.kind ≠ .other
  count : c.params.length = c.args.length
  result : c.ret.isVoid = true → c.dst = none

theorem CallFits.kind_text (fits : CallFits c) : c.kind.text = (invokeKind c.kind).text := by
  cases kind : c.kind with
  | other => exact absurd kind fits.kind
  | _ => rfl

theorem line_invoke (fits : CallFits c) (takes : Nat) (leaves : Bool) :
    (Instr.invoke c.kind.text (f.cls.qualify c.owner) c.method (callDescriptor f.cls c.params c.ret)
      takes leaves).line = (Op.invoke (invokeKind c.kind) (methodNameOf f.cls c.site)).line := by
  simp only [Instr.line, Instr.text, Op.line, Op.text, text_methodNameOf, fits.kind_text,
    String.append_assoc]
  rfl

variable {lines : List Instr} (start : SlotsStart f.slots)

include start

theorem finish_call_encoded (fits : CallFits c) (finished : f.finish (.call c) = .ok lines) :
    ∃ finish, Encodes lines finish ∧
      Finishes f.slots c.dst ((methodNameOf f.cls c.site).leave []) finish := by
  have left : ∀ v, (methodNameOf f.cls c.site).leave [] v = if c.ret.isVoid then [] else [v] := by
    intro v
    have void : (methodNameOf f.cls c.site).result = .void ↔ c.ret.isVoid = true :=
      descriptorOf_eq_void f.cls
    simp only [MethodName.leave, void]
  rw [funext left]
  cases void : c.ret.isVoid with
  | true =>
    simp only [Frame.finish, Inst.dst?, fits.result void, void] at finished
    cases finished
    rw [fits.result void]
    exact ⟨[], .nil, .nothing _⟩
  | false =>
    cases isDst : c.dst with
    | some d =>
      simp only [Frame.finish, Inst.dst?, isDst] at finished
      obtain ⟨store, storeCode, stores⟩ := store_encoded start finished
      exact ⟨[store], storeCode, .store stores⟩
    | none =>
      simp only [Frame.finish, Inst.dst?, isDst, void] at finished
      cases finished
      exact ⟨[.pop], .one rfl, .drop _⟩

/-! ### Arithmetic -/

theorem select_increment {v : Int} (small : inPlace? inst = some (d, v))
    (selected : f.select n inst = .ok lines) : Implemented f n inst lines := by
  obtain ⟨s, found, rfl⟩ := (select_inPlace small).mp selected
  cases inst with
  | binary d op l r =>
    obtain ⟨_, small, same⟩ := Option.map_eq_some_iff.mp small
    cases same
    have there := slot_ok found
    have from0 := start _ _ there
    rw [Frame.smallStep, Option.filter_eq_some_iff] at small
    obtain ⟨moved, fits⟩ := small
    simp only [Bool.and_eq_true, decide_eq_true_eq] at fits
    obtain ⟨held, extended⟩ := toInt32_byte fits.1 fits.2
    refine ⟨[.increment s.toNat (.ofInt v)], .one ?_, ?_, ?_⟩
    · simp only [Instr.line, Instr.text, Op.line, Op.text, held, toString_toNat from0]
    · intro W compute program p locals heap unique stands
      have result := binary_of_stepBy (w := W.world f.cls (.binary d op l r) compute) moved
        ((inSlots f.slots).get locals)
      have before : (inSlots f.slots).get locals d.name = locals s.toNat := by simp [inSlots, there]
      have written : ∀ v, (inSlots f.slots).write locals (some (d.name, v)) =
          Function.update locals s.toNat v := by simp [inSlots, Code.RegisterFile.write, there]
      rw [before, number_world, ← extended] at result
      refine carries_next (binary_effect_ok result) ?_
      rw [written]
      exact reaches_next stands.head rfl
    · cases op with
      | less => cases moved
      | _ => rfl
  | _ => cases small

section Binary

variable {op : Operator} {l r : Option Operand} {before : List Op} {beforeLines : List Instr}
  (beforeCode : Encodes beforeLines before)
  (pushes : List.Forall₂ Pushes (pushedValues f.slots (.binary d op l r)) before)
  (stored : f.store d = .ok lines)

include beforeCode pushes stored

theorem implemented_arith {ar : Arith} (unlabelled : selectedLabels n (.binary d op l r) = [])
    (evals : ∀ a b, machineResult op a b = ar.eval a b)
    (total : op ≠ .div → ∀ a b, ar.eval a b ≠ none) :
    Implemented f n (.binary d op l r) (beforeLines ++ [.arith ar] ++ lines) := by
  obtain ⟨store, storeCode, stores⟩ := store_encoded start stored
  refine ⟨before ++ [.arith ar] ++ [store], (beforeCode.append (.one rfl)).append storeCode, ?_, ?_⟩
  · intro W compute program p locals heap unique stands
    have ready : Reaches (W.step program) 0 ⟨p, [], locals, heap⟩ [] _ :=
      reaches_pushes pushes stands.left.left
    have arithAt := (stands.left.right rfl).head
    have next : p + (before ++ [Op.arith ar]).length = p + before.length + 1 := by
      rw [length_append, length_singleton, Nat.add_assoc]
    have storeAt := (stands.right next.symm).head
    rw [length_append, ← Nat.add_assoc, next]
    cases evaluated : ar.eval (W.number (valueIn f.slots l locals))
        (W.number (valueIn f.slots r locals)) with
    | some x =>
      have result : (W.world f.cls (.binary d op l r) compute).binary op (valueIn f.slots l locals)
          (valueIn f.slots r locals) = .ok (.num x) := by
        simp [World.binary, evals, evaluated]
      exact carries_store (binary_effect_ok result)
        (ready.trans (reaches_next arithAt (exec_arith_some evaluated))) storeAt stores
    | none =>
      have isDiv : op = .div := by
        by_contra other
        exact total other _ _ evaluated
      have result : (W.world f.cls (.binary d op l r) compute).binary op (valueIn f.slots l locals)
          (valueIn f.slots r locals) = .error W.divisionByZero := by
        simp only [World.binary, evals, number_world, evaluated, if_pos isDiv]
        rfl
      exact carries_fail (binary_effect_error result)
        (ready.halts (halts_failed arithAt (exec_arith_none evaluated)))
  · rw [opLabels_append, opLabels_append, opLabels_pushes pushes, opLabels_one stores.plain,
      unlabelled]
    rfl

theorem implemented_binary (worked : Frame.operator n op = .ok workLines) :
    Implemented f n (.binary d op l r) (beforeLines ++ workLines ++ lines) := by
  cases op with
  | add | sub | mul | and | div =>
    cases worked
    refine implemented_arith start beforeCode pushes stored rfl (fun a b => ?_) (fun other a b => ?_)
    · exact machineResult_eq_eval _ a b
    · first
        | exact absurd rfl other
        | exact Option.some_ne_none _
  | less =>
    cases worked
    obtain ⟨store, storeCode, stores⟩ := store_encoded start stored
    have workCode : Encodes (Frame.compare n) (compareOps n) := rfl
    refine implemented_store (fun W locals _ => .num
        (if W.number (valueIn f.slots l locals) < W.number (valueIn f.slots r locals) then 1 else 0))
      beforeCode workCode storeCode pushes stores rfl
      (fun W compute locals heap => binary_effect_ok ?_) fun _ _ _ _ _ unique stands =>
        compareOps_run unique stands
    simp [World.binary, machineResult, Int32.lt_iff_toInt_lt]
  | not | other => cases worked

end Binary

/-! ### All of them -/

theorem implemented_call (fits : CallFits c) {before : List Op} {beforeLines : List Instr}
    (beforeCode : Encodes beforeLines before)
    (pushes : List.Forall₂ Pushes (pushedValues f.slots (.call c)) before)
    (loaded : f.loads (pushed (.call c)) = .ok beforeLines)
    (worked : f.work n (.call c) = .ok workLines) (finished : f.finish (.call c) = .ok lines) :
    Implemented f n (.call c) (beforeLines ++ workLines ++ lines) := by
  cases worked
  obtain ⟨finish, finishCode, finishes⟩ := finish_call_encoded start fits finished
  refine implemented_perform (.invoke (invokeKind c.kind) (methodNameOf f.cls c.site)) beforeCode
    (line_invoke fits _ _) finishCode pushes finishes rfl rfl (fun w locals heap => rfl)
    fun W locals heap => ?_
  have received : c.kind ≠ .static → c.recv ≠ none := by
    intro dynamic missing
    rw [pushed, if_neg dynamic, missing] at loaded
    cases loaded
  have stack : ((pushedValues f.slots (.call c)).map fun value => value locals).reverse =
      (c.args.map fun o => valueIn f.slots o locals).reverse ++ (if c.kind = .static then none
        else c.recv.map fun r => valueIn f.slots (some r) locals).toList := by
    by_cases static : c.kind = .static
    · simp [pushedValues, static, Function.comp_def]
    · obtain ⟨r, isRecv⟩ := Option.ne_none_iff_exists'.mp (received static)
      simp [pushedValues, static, isRecv, Function.comp_def]
  rw [stack]
  refine exec_invoke ?_ ?_
  · rw [length_map, methodNameOf, length_map, ← fits.count]
    rfl
  · cases kind : c.kind with
    | other => exact absurd kind fits.kind
    | _ => simp_all [invokeKind]

/-- **The lines that are selected for an instruction do what it does.** -/
theorem select_implemented (fits : ∀ c, inst = .call c → CallFits c)
    (selected : f.select n inst = .ok lines) : Implemented f n inst lines := by
  cases small : inPlace? inst with
  | some step => exact select_increment start small selected
  | none =>
  obtain ⟨_, work, result, loaded, worked, finished, rfl⟩ := (select_parts small).mp selected
  obtain ⟨before, beforeCode, pushes⟩ := pushed_encoded start loaded
  cases inst with
  | assign d s =>
    cases worked
    obtain ⟨store, storeCode, stores⟩ := store_encoded start finished
    exact implemented_store _ beforeCode .nil storeCode pushes stores rfl (fun _ _ _ _ => rfl)
      fun _ _ _ _ _ _ _ => .refl _
  | binary => exact implemented_binary start beforeCode pushes finished worked
  | unary d op x =>
    cases op with
    | not =>
      cases worked
      obtain ⟨store, storeCode, stores⟩ := store_encoded start finished
      have workCode : Encodes [.const 1, .arith .xor] [.small 1, .arith .xor] := rfl
      refine implemented_store (fun W locals _ => .num (W.number (valueIn f.slots x locals) ^^^ 1))
        beforeCode workCode storeCode pushes stores rfl (fun W compute locals heap => ?_)
        fun W program p locals heap _ stands => ?_
      · simp [Inst.effect, World.unary]
      · exact (reaches_next stands.head rfl).trans (reaches_next stands.tail.head rfl)
    | _ => cases worked
  | getField d field =>
    cases worked
    obtain ⟨store, storeCode, stores⟩ := store_encoded start finished
    have line : (Instr.getField f.cls.name field (fieldDescriptor f.cls field d.type)).line =
        (Op.getField (fieldNameOf f.cls field d.type)).line := by
      simp only [Instr.line, Instr.text, Op.line, Op.text, text_fieldNameOf, String.append_assoc]
    exact implemented_store _ beforeCode (.one line) storeCode pushes stores rfl
      (fun _ _ _ _ => rfl) fun W program p locals heap _ stands => reaches_next stands.head rfl
  | putField field s =>
    cases worked
    cases finished
    cases s with
    | none => cases loaded
    | some x =>
      refine implemented_perform (.putField (fieldNameOf f.cls field x.type)) beforeCode ?_ .nil
        pushes (.nothing _) rfl rfl (fun _ _ _ => rfl) fun _ _ _ => rfl
      simp only [Instr.line, Instr.text, Op.line, Op.text, text_fieldNameOf, String.append_assoc]
      rfl
  | load d a i =>
    cases worked
    obtain ⟨store, storeCode, stores⟩ := store_encoded start finished
    exact implemented_perform (.arrayLoad (Frame.elementCategory a)) beforeCode rfl storeCode pushes
      (.store stores) rfl rfl (fun _ _ _ => rfl) fun _ _ _ => rfl
  | store a i s =>
    cases worked
    cases finished
    exact implemented_perform (.arrayStore (Frame.elementCategory a)) beforeCode rfl .nil pushes
      (.nothing _) rfl rfl (fun _ _ _ => rfl) fun _ _ _ => rfl
  | length d a =>
    cases worked
    obtain ⟨store, storeCode, stores⟩ := store_encoded start finished
    exact implemented_perform .arrayLength beforeCode rfl storeCode pushes (.store stores) rfl rfl
      (fun _ _ _ => rfl) fun _ _ _ => rfl
  | call c => exact implemented_call start (fits c rfl) beforeCode pushes loaded worked finished
  | new d name =>
    cases worked
    obtain ⟨store, storeCode, stores⟩ := store_encoded start finished
    exact implemented_perform (.new (f.cls.qualify name)) beforeCode rfl storeCode pushes
      (.store stores) rfl rfl (fun _ _ _ => rfl) fun _ _ _ => rfl
  | newArray d len =>
    cases worked
    obtain ⟨store, storeCode, stores⟩ := store_encoded start finished
    by_cases int : d.type.base = .int
    · rw [if_pos int]
      refine implemented_perform .newIntArray beforeCode rfl storeCode pushes (.store stores) rfl rfl
        (fun _ _ _ => rfl) fun W locals heap => ?_
      rw [machineAction, madeBase, if_pos int]
      rfl
    · rw [if_neg int]
      refine implemented_perform (.newRefArray (elementName f.cls d.type.base)) beforeCode rfl
        storeCode pushes (.store stores) rfl rfl (fun _ _ _ => rfl) fun W locals heap => ?_
      rw [machineAction, madeBase, if_neg int]
      rfl
  | branch o t =>
    cases worked
    cases finished
    refine implemented_last (.ifNonzero t) beforeCode rfl pushes rfl
      fun W compute program p mid locals heap ready here => ?_
    unfold Carries
    simp only [Inst.effect, World.isTrue, number_world, bne_iff_ne]
    by_cases holds : W.number (valueIn f.slots o locals) ≠ 0
    · rw [if_pos holds]
      exact ready.trans (reaches_jump here (if_pos holds))
    · rw [if_neg holds]
      exact ready.trans (reaches_next here (if_neg holds))
  | ret o =>
    cases worked
    cases finished
    exact implemented_last (.valueReturn (Frame.operandCategory o)) beforeCode rfl pushes rfl
      fun _ _ _ _ _ _ _ ready here => ready.halts (halts_returned here rfl)
  | goto t =>
    cases worked
    cases finished
    exact implemented_last (.goto t) beforeCode rfl pushes rfl
      fun _ _ _ _ _ _ _ ready here => ready.trans (reaches_jump here rfl)
  | label name =>
    cases worked
    cases finished
    exact implemented_last (.label name) beforeCode rfl pushes rfl
      fun _ _ _ _ _ _ _ ready here => ready.trans (reaches_next here rfl)
  | retVoid =>
    cases worked
    cases finished
    exact implemented_last .voidReturn beforeCode rfl pushes rfl
      fun _ _ _ _ _ _ _ ready here => ready.halts (halts_returned here rfl)
  | hole => cases worked

end Instructions

end JavaMinus.Assembly
