import JavaMinus.Proofs.StackMachine

/-!
# Selected operations do what register code does

The lines that are selected for an instruction of register code are those of
operations of the stack machine that do the same, with registers kept in slots.
-/

namespace JavaMinus.Assembly

open List

open Code (Value Inst Operand Reg Call Slots Action CallSite CallKind Effect World RegisterFile
  operandValue StandsAt)

/-! ## Operations for lines -/

/-- The lines are those of the operations. -/
def Encodes (lines : List Instr) (ops : List Op) : Prop :=
  lines.map Instr.line = ops.map Op.line

theorem Encodes.append {lines lines' : List Instr} {ops ops' : List Op}
    (first : Encodes lines ops) (second : Encodes lines' ops') :
    Encodes (lines ++ lines') (ops ++ ops') := by
  simp only [Encodes, map_append] at first second ⊢
  rw [first, second]

theorem Encodes.nil : Encodes [] [] := rfl

theorem Encodes.one {i : Instr} {op : Op} (same : i.line = op.line) : Encodes [i] [op] := by
  simp only [Encodes, map_cons, map_nil, same]

theorem toString_toNat {n : Int} (start : 0 ≤ n) : toString n.toNat = toString n := by
  obtain ⟨k, rfl⟩ := Int.eq_ofNat_of_zero_le start
  rfl

theorem toInt32_byte {n : Int} (low : -128 ≤ n) (high : n ≤ 127) :
    (Int8.ofInt n).toInt = n ∧ (Int8.ofInt n).toInt32 = Int32.ofInt n := by
  have held : (Int8.ofInt n).toInt = n := Int8.toInt_ofInt_of_le (by omega) (by omega)
  refine ⟨held, Int32.toInt_inj.mp ?_⟩
  rw [Int8.toInt_toInt32, held, Int32.toInt_ofInt_of_le (by omega) (by omega)]

theorem toInt32_short {n : Int} (low : -32768 ≤ n) (high : n ≤ 32767) :
    (Int16.ofInt n).toInt = n ∧ (Int16.ofInt n).toInt32 = Int32.ofInt n := by
  have held : (Int16.ofInt n).toInt = n := Int16.toInt_ofInt_of_le (by omega) (by omega)
  refine ⟨held, Int32.toInt_inj.mp ?_⟩
  rw [Int16.toInt_toInt32, held, Int32.toInt_ofInt_of_le (by omega) (by omega)]

/-- The operation pushes a value that depends on the slots. -/
structure Pushes (value : Locals → Value) (op : Op) : Prop where
  exec : ∀ (W : Machine) (locals : Locals) (heap : W.Heap) (stack : List Value),
    op.exec W locals heap stack = .next [] (value locals :: stack) locals heap
  plain : op.label? = none

theorem exists_const (v : Int32) :
    ∃ op : Op, (Instr.const v).line = op.line ∧ Pushes (fun _ => .num v) op := by
  simp only [Instr.line, Instr.text, Instr.constText]
  split_ifs with minus small byte short
  · have isMinusOne : v = -1 := Int32.toInt_inj.mp (minus.trans (by decide))
    refine ⟨.minusOne, rfl, fun W locals heap stack => ?_, rfl⟩
    rw [isMinusOne]
    rfl
  · refine ⟨.small ⟨v.toInt.toNat, by omega⟩, ?_, fun W locals heap stack => ?_, rfl⟩
    · simp only [Op.line, Op.text, toString_toNat small.1]
    · change After.next [] (.num (.ofInt (v.toInt.toNat : Int)) :: stack) locals heap = _
      rw [Int.toNat_of_nonneg small.1, Int32.ofInt_toInt]
  · obtain ⟨held, extended⟩ := toInt32_byte byte.1 byte.2
    refine ⟨.byte (.ofInt v.toInt), ?_, fun W locals heap stack => ?_, rfl⟩
    · simp only [Op.line, Op.text, held]
    · change After.next [] (.num (Int8.ofInt v.toInt).toInt32 :: stack) locals heap = _
      rw [extended, Int32.ofInt_toInt]
  · obtain ⟨held, extended⟩ := toInt32_short short.1 short.2
    refine ⟨.short (.ofInt v.toInt), ?_, fun W locals heap stack => ?_, rfl⟩
    · simp only [Op.line, Op.text, held]
    · change After.next [] (.num (Int16.ofInt v.toInt).toInt32 :: stack) locals heap = _
      rw [extended, Int32.ofInt_toInt]
  · exact ⟨.word v, rfl, fun W locals heap stack => rfl, rfl⟩

theorem slot_line (letter word : String) {s : Int} (start : 0 ≤ s) :
    "\t" ++ (letter ++ word ++ Instr.slotText s) ++ "\n" =
      if s ≤ 3 then "\t" ++ (letter ++ (word ++ "_") ++ toString s.toNat) ++ "\n"
      else "\t" ++ (letter ++ (word ++ " ") ++ toString s.toNat) ++ "\n" := by
  rw [Instr.slotText, toString_toNat start]
  split_ifs <;> simp only [String.append_assoc]

theorem exists_load (c : Category) {s : Int} (start : 0 ≤ s) :
    ∃ op : Op, (Instr.load c s).line = op.line ∧ Pushes (fun locals => locals s.toNat) op := by
  have line := slot_line c.letter "load" start
  by_cases first : s ≤ 3
  · rw [if_pos first] at line
    exact ⟨.loadFirst c ⟨s.toNat, by omega⟩, line, fun W locals heap stack => rfl, rfl⟩
  · rw [if_neg first] at line
    exact ⟨.load c s.toNat, line, fun W locals heap stack => rfl, rfl⟩

/-! ## Types and names -/

section

variable (c : Code.Class)

/-- The type that stands for a base. -/
def baseOf : Base → Descriptor
  | .unknown => .int
  | .int => .int
  | .boolean => .boolean
  | .string => .object "java/lang/String"
  | .void => .void
  | .object name => .object (c.qualify name)

/-- The type in the names of the machine. -/
def descriptorOf (t : Ty) : Descriptor :=
  if t.array then .array (baseOf c t.base) else baseOf c t.base

/-- The full name of a field, by its declaration or else by its use. -/
def fieldNameOf (name : String) (used : Ty) : FieldName :=
  ⟨c.name, name, descriptorOf c (((c.field? name).map (·.type)).getD used)⟩

/-- The full name of the method that a call is about. -/
def methodNameOf (site : CallSite) : MethodName :=
  ⟨c.qualify site.owner, site.method, site.params.map (descriptorOf c), descriptorOf c site.ret⟩

theorem text_baseOf (b : Base) : (baseOf c b).text = baseDescriptor c b := by
  cases b <;> rfl

theorem text_descriptorOf (t : Ty) : (descriptorOf c t).text = descriptor c t := by
  unfold descriptorOf descriptor
  split
  · rw [Descriptor.text, text_baseOf]
  · exact text_baseOf c t.base

theorem text_fieldNameOf (name : String) (used : Ty) :
    (fieldNameOf c name used).text = c.name ++ "/" ++ name ++ " " ++ fieldDescriptor c name used := by
  simp only [FieldName.text, fieldNameOf, text_descriptorOf, fieldDescriptor]
  cases c.field? name <;> rfl

theorem text_methodNameOf (site : CallSite) : (methodNameOf c site).text =
      c.qualify site.owner ++ "/" ++ site.method ++ callDescriptor c site.params site.ret := by
  have params : Descriptor.text ∘ descriptorOf c = descriptor c := funext (text_descriptorOf c)
  simp only [MethodName.text, methodNameOf, callDescriptor, map_map, params, text_descriptorOf]

theorem descriptorOf_eq_void {t : Ty} : descriptorOf c t = .void ↔ t.isVoid = true := by
  obtain ⟨base, array⟩ := t
  cases array <;> cases base <;> simp [descriptorOf, baseOf, Ty.isVoid, Ty.void]

end

/-! ## Actions -/

/-- The way to call a method on the machine. -/
def invokeKind : CallKind → InvokeKind
  | .static => .static
  | .special => .special
  | _ => .virtual

section Worlds

variable (c : Code.Class) (inst : Inst)

/-- The type that an instruction uses a field with. -/
def usedType : Inst → Ty
  | .getField d _ => d.type
  | .putField _ (some x) => x.type
  | _ => .unknown

/-- The category of the elements of the array that an instruction accesses. -/
def accessedCategory : Inst → Category
  | .load _ a _ => Frame.elementCategory a
  | .store a _ _ => Frame.elementCategory a
  | _ => .int

/-- The base of the array that an instruction makes. -/
def madeBase : Inst → Base
  | .newArray d _ => d.type.base
  | _ => .unknown

/-- The action of the machine that an action of an instruction is: the same, of the same
values, with names in full. -/
def machineAction : Action → MachineAction
  | .putField object field v => .putField (fieldNameOf c field (usedType inst)) object v
  | .load array index => .arrayLoad (accessedCategory inst) array index
  | .store array index v => .arrayStore (accessedCategory inst) array index v
  | .length array => .arrayLength array
  | .call site recv args => .invoke (invokeKind site.kind) (methodNameOf c site) recv args
  | .new name => .new (c.qualify name)
  | .newArray len =>
    if madeBase inst = .int then .newIntArray len
    else .newRefArray (elementName c (madeBase inst)) len

/-- The world of a machine, as an instruction of register code sees it. What operators
compute that the machine does not have is of no account. -/
def Machine.world (W : Machine) (compute : Operator → List Value → Value) : World where
  Heap := W.Heap
  Failure := W.Failure
  divisionByZero := W.divisionByZero
  numberOf := W.numberOf
  compute := compute
  field heap object name := W.field heap (fieldNameOf c name (usedType inst)) object
  perform a heap := W.perform (machineAction c inst a) heap

@[simp] theorem number_world (W : Machine) (compute : Operator → List Value → Value) (v : Value) :
    (W.world c inst compute).number v = W.number v := by
  cases v <;> rfl

end Worlds

/-! ## Operands and results -/

/-- The register file that keeps each register in its slot. -/
def inSlots (slots : Slots) : RegisterFile Locals where
  get locals n := match slots.get? n with
    | some k => locals k.toNat
    | none => .num 0
  set locals n v := match slots.get? n with
    | some k => Function.update locals k.toNat v
    | none => locals

/-- No slot is before the first. -/
def SlotsStart (slots : Slots) : Prop := ∀ n k, slots.get? n = some k → 0 ≤ k

/-- The operation stores the value on the stack into a register. -/
structure Stores (slots : Slots) (d : Reg) (op : Op) : Prop where
  exec : ∀ (W : Machine) (locals : Locals) (heap : W.Heap) (v : Value) (stack : List Value),
    op.exec W locals heap (v :: stack) = .next [] stack ((inSlots slots).set locals d.name v) heap
  plain : op.label? = none

/-- The value of an operand when registers are in slots. -/
abbrev valueIn (slots : Slots) (o : Option Operand) (locals : Locals) : Value :=
  operandValue ((inSlots slots).get locals) o

theorem ok_of_bind {ε α β : Type} {x : Except ε α} {g : α → Except ε β} {b : β}
    (done : x >>= g = .ok b) : ∃ a, x = .ok a ∧ g a = .ok b := by
  cases x with
  | error e => cases done
  | ok a => exact ⟨a, rfl, done⟩

theorem bind_eq_ok {ε α β : Type} {x : Except ε α} {g : α → Except ε β} {b : β} :
    x >>= g = .ok b ↔ ∃ a, x = .ok a ∧ g a = .ok b := by
  refine ⟨ok_of_bind, ?_⟩
  rintro ⟨a, rfl, done⟩
  exact done

section Pieces

variable {f : Frame} {lines : List Instr}

theorem slot_ok {r : Reg} {s : Int} (found : f.slot r = .ok s) : f.slots.get? r.name = some s := by
  unfold Frame.slot at found
  split at found
  case h_1 k there =>
    cases found
    exact there
  case h_2 => cases found

theorem load_encoded (start : SlotsStart f.slots) {o : Option Operand} (loaded : f.load o = .ok lines) :
    ∃ op, Encodes lines [op] ∧ Pushes (valueIn f.slots o) op := by
  match o, loaded with
  | some (.imm v t), loaded =>
    cases loaded
    obtain ⟨op, line, pushes⟩ := exists_const v
    exact ⟨op, .one line, pushes⟩
  | some (.reg r), loaded =>
    rw [Frame.load] at loaded
    obtain ⟨s, found, done⟩ := ok_of_bind loaded
    cases done
    have there := slot_ok found
    obtain ⟨op, line, pushes⟩ := exists_load (categoryOf r.type) (start _ _ there)
    refine ⟨op, .one line, fun W locals heap stack => ?_, pushes.plain⟩
    rw [pushes.exec W locals heap stack]
    simp [valueIn, operandValue, inSlots, there]
  | none, loaded => cases loaded

theorem loads_encoded (start : SlotsStart f.slots) {os : List (Option Operand)}
    (loaded : f.loads os = .ok lines) :
    ∃ ops, Encodes lines ops ∧ List.Forall₂ Pushes (os.map (valueIn f.slots)) ops := by
  induction os generalizing lines with
  | nil =>
    cases loaded
    exact ⟨[], rfl, .nil⟩
  | cons o rest ih =>
    rw [Frame.loads] at loaded
    obtain ⟨_, first, loaded⟩ := ok_of_bind loaded
    obtain ⟨_, others, done⟩ := ok_of_bind loaded
    cases done
    obtain ⟨op, line, pushes⟩ := load_encoded start first
    obtain ⟨ops, lines, each⟩ := ih others
    exact ⟨op :: ops, line.append lines, .cons pushes each⟩

theorem store_encoded (start : SlotsStart f.slots) {d : Reg} (stored : f.store d = .ok lines) :
    ∃ op, Encodes lines [op] ∧ Stores f.slots d op := by
  rw [Frame.store] at stored
  obtain ⟨s, found, done⟩ := ok_of_bind stored
  cases done
  have there := slot_ok found
  have from0 := start _ _ there
  have line := slot_line (categoryOf d.type).letter "store" from0
  have set : ∀ locals v, Function.update locals s.toNat v = (inSlots f.slots).set locals d.name v := by
    intro locals v
    simp [inSlots, there]
  by_cases first : s ≤ 3
  · rw [if_pos first] at line
    refine ⟨.storeFirst (categoryOf d.type) ⟨s.toNat, by omega⟩, .one line, ?_, rfl⟩
    intro W locals heap v stack
    rw [← set]
    rfl
  · rw [if_neg first] at line
    refine ⟨.store (categoryOf d.type) s.toNat, .one line, ?_, rfl⟩
    intro W locals heap v stack
    rw [← set]
    rfl

end Pieces

/-! ## The parts of a selection -/

/-- The instruction reads or writes a field of the object. -/
def accessesField : Inst → Bool
  | .getField _ _ => true
  | .putField _ _ => true
  | _ => false

/-- The line that pushes the object whose field is accessed. -/
@[simp] def objectLines : Inst → List Instr
  | .getField _ _ => [.load .ref 0]
  | .putField _ _ => [.load .ref 0]
  | _ => []

/-- The operands that are on the stack when an instruction does its work. -/
@[simp] def pushed : Inst → List (Option Operand)
  | .call c => if c.kind = .static then c.args else c.recv :: c.args
  | inst => inst.operands

/-- The step of a register that is done in place. -/
def inPlace? : Inst → Option (Reg × Int)
  | .binary d op l r => (Frame.smallStep d op l r).map (d, ·)
  | _ => none

namespace Frame

/-- The lines that work on the operands of an instruction. -/
@[simp] def work (f : Frame) (n : Nat) : Inst → Except SelectionError (List Instr)
  | .assign _ _ => .ok []
  | .binary _ op _ _ => operator n op
  | .unary _ .not _ => .ok [.const 1, .arith .xor]
  | .unary _ op _ => .error (.operator op)
  | .getField d field => .ok [.getField f.cls.name field (fieldDescriptor f.cls field d.type)]
  | .putField field s =>
    .ok [.putField f.cls.name field (fieldDescriptor f.cls field ((s.map (·.type)).getD .unknown))]
  | .load _ a _ => .ok [.arrayLoad (elementCategory a)]
  | .store a _ _ => .ok [.arrayStore (elementCategory a)]
  | .length _ _ => .ok [.arrayLength]
  | .call c => .ok [.invoke c.kind.text (f.cls.qualify c.owner) c.method
      (callDescriptor f.cls c.params c.ret) (c.args.length + if c.kind = .static then 0 else 1)
      (!c.ret.isVoid)]
  | .new _ name => .ok [.new (f.cls.qualify name)]
  | .newArray d _ => .ok [if d.type.base = .int then .newIntArray
      else .newRefArray (elementName f.cls d.type.base)]
  | .branch _ t => .ok [.ifNonzero t]
  | .goto t => .ok [.goto t]
  | .label name => .ok [.label name]
  | .ret x => .ok [.valueReturn (operandCategory x)]
  | .retVoid => .ok [.voidReturn]
  | .hole => .error .noInstruction

/-- The lines for the result of an instruction. A result of a call that nobody wants is
dropped. -/
@[simp] def finish (f : Frame) (inst : Inst) : Except SelectionError (List Instr) :=
  match inst.dst?, inst with
  | some d, _ => f.store d
  | none, .call c => .ok (if !c.ret.isVoid then [.pop] else [])
  | none, _ => .ok []

end Frame

section Parts

variable {f : Frame} {n : Nat} {inst : Inst} {lines : List Instr}

theorem select_inPlace {d : Reg} {v : Int} (small : inPlace? inst = some (d, v)) :
    f.select n inst = .ok lines ↔ ∃ s, f.slot d = .ok s ∧ [.increment s v] = lines := by
  cases inst with
  | binary _ op l r =>
    obtain ⟨_, isSmall, same⟩ := Option.map_eq_some_iff.mp small
    cases same
    rw [Frame.select, isSmall]
    simp [bind_eq_ok, pure, Except.pure]
  | _ => cases small

/-- **What is selected.** Operands are pushed, the work is done, and the result is stored, unless
the instruction is a step that is done in place. -/
theorem select_parts (large : inPlace? inst = none) :
    f.select n inst = .ok lines ↔ ∃ operands work result, f.loads (pushed inst) = .ok operands ∧
      f.work n inst = .ok work ∧ f.finish inst = .ok result ∧
      objectLines inst ++ operands ++ work ++ result = lines := by
  cases inst with
  | binary d op l r =>
    rw [Frame.select, Option.map_eq_none_iff.mp large]
    simp [bind_eq_ok, pure, Except.pure, Frame.loads, Inst.operands, Inst.dst?]
  | unary d op x =>
    cases op <;>
      simp [bind_eq_ok, pure, Except.pure, Frame.select, Frame.loads, Inst.operands, Inst.dst?]
  | putField field s =>
    cases s <;>
      simp [bind_eq_ok, pure, Except.pure, Frame.select, Frame.load, Frame.loads, Inst.operands,
        Inst.dst?]
  | load | store =>
    simp [bind_eq_ok, pure, Except.pure, Frame.select, Inst.operands, Inst.dst?]
  | call c =>
    obtain ⟨kind, dst, owner, recv, method, args, params, ret⟩ := c
    cases kind <;> cases recv <;> cases dst <;>
      simp [bind_eq_ok, pure, Except.pure, Frame.select, Frame.call, Frame.load, Frame.loads,
        Inst.dst?]
  | _ => simp [bind_eq_ok, pure, Except.pure, Frame.select, Frame.loads, Inst.operands, Inst.dst?]

/-- What is on the stack when an instruction does its work, the object first. -/
def pushedValues (slots : Slots) (inst : Inst) : List (Locals → Value) :=
  (objectLines inst).map (fun _ locals => locals 0) ++ (pushed inst).map (valueIn slots)

theorem pushed_encoded (start : SlotsStart f.slots) (loaded : f.loads (pushed inst) = .ok lines) :
    ∃ ops, Encodes (objectLines inst ++ lines) ops ∧
      List.Forall₂ Pushes (pushedValues f.slots inst) ops := by
  obtain ⟨ops, code, each⟩ := loads_encoded start loaded
  obtain ⟨object, objectLine, pushes⟩ := exists_load .ref (Int.le_refl 0)
  have objects : ∃ ops, Encodes (objectLines inst) ops ∧
      List.Forall₂ Pushes ((objectLines inst).map fun _ locals => locals 0) ops := by
    cases inst with
    | getField | putField => exact ⟨[object], .one objectLine, .cons pushes .nil⟩
    | _ => exact ⟨[], .nil, .nil⟩
  obtain ⟨before, beforeCode, beforeEach⟩ := objects
  exact ⟨before ++ ops, beforeCode.append code, rel_append beforeEach each⟩

end Parts

/-! ## What an instruction comes to -/

/-- Executed from one position, the program does what an instruction of register code does to
registers in slots, with an empty stack before and after: it comes to the other position with
the result in the slot of the destination and all else unchanged, or it jumps to the same
label, returns the same value or fails in the same way. Fields are those of the object in
slot 0. -/
def Carries (W : Machine) (compute : Operator → List Value → Value) (c : Code.Class)
    (slots : Slots) (program : List Op) (inst : Inst) (p q : Nat) (locals : Locals)
    (heap : W.Heap) : Prop :=
  match inst.effect (W.world c inst compute) (locals 0) ((inSlots slots).get locals) heap with
  | .next acts write heap' =>
    Reaches (W.step program) 0 ⟨p, [], locals, heap⟩ (acts.map (machineAction c inst))
      ⟨q, [], (inSlots slots).write locals write, heap'⟩
  | .jump t => Reaches (W.step program) 0 ⟨p, [], locals, heap⟩ []
      ⟨position program t, [], locals, heap⟩
  | .ret v => Halts (W.step program) ⟨p, [], locals, heap⟩ [] ⟨.returned v, heap⟩
  | .fail acts e heap' =>
    Halts (W.step program) ⟨p, [], locals, heap⟩ (acts.map (machineAction c inst)) ⟨.failed e, heap'⟩
  | .stuck => False

section Runs

variable {W : Machine} {compute : Operator → List Value → Value} {c : Code.Class} {slots : Slots}
  {program ops : List Op} {op : Op} {inst : Inst} {p q : Nat} {locals : Locals} {heap : W.Heap}
  {stack : List Value}

theorem reaches_pushes {values : List (Locals → Value)} (each : List.Forall₂ Pushes values ops)
    (stands : StandsAt program p ops) :
    Reaches (W.step program) 0 ⟨p, stack, locals, heap⟩ []
      ⟨p + ops.length, (values.map fun value => value locals).reverse ++ stack, locals, heap⟩ := by
  induction each generalizing p stack with
  | nil => exact .refl _
  | @cons value op values ops pushes _ ih =>
    have first := reaches_next stands.head (pushes.exec W locals heap stack)
    have total : p + (op :: ops).length = p + 1 + ops.length := by
      rw [length_cons]
      omega
    rw [total, map_cons, reverse_cons, append_assoc]
    exact first.trans (ih stands.tail)

theorem carries_next {write : Option (String × Value)}
    (effect : inst.effect (W.world c inst compute) (locals 0) ((inSlots slots).get locals) heap =
      .next [] write heap)
    (run : Reaches (W.step program) 0 ⟨p, [], locals, heap⟩ []
      ⟨q, [], (inSlots slots).write locals write, heap⟩) :
    Carries W compute c slots program inst p q locals heap := by
  unfold Carries
  rw [effect]
  exact run

theorem carries_fail {e : W.Failure}
    (effect : inst.effect (W.world c inst compute) (locals 0) ((inSlots slots).get locals) heap =
      .fail [] e heap)
    (run : Halts (W.step program) ⟨p, [], locals, heap⟩ [] ⟨.failed e, heap⟩) :
    Carries W compute c slots program inst p q locals heap := by
  unfold Carries
  rw [effect]
  exact run

theorem carries_perform {a : Action} {dst : Option Reg} {rest : Value → List Value} {mid : Nat}
    (effect : inst.effect (W.world c inst compute) (locals 0) ((inSlots slots).get locals) heap =
      Effect.perform (W.world c inst compute) a dst heap)
    (ready : Reaches (W.step program) 0 ⟨p, [], locals, heap⟩ [] ⟨mid, stack, locals, heap⟩)
    (here : program[mid]? = some op)
    (exec : op.exec W locals heap stack = .perform W (machineAction c inst a) locals heap rest)
    (finish : ∀ v heap', Reaches (W.step program) 0 ⟨mid + 1, rest v, locals, heap'⟩ []
      ⟨q, [], (inSlots slots).write locals (dst.map fun d => (d.name, v)), heap'⟩) :
    Carries W compute c slots program inst p q locals heap := by
  unfold Carries
  rw [effect]
  unfold Effect.perform
  unfold After.perform at exec
  have same : (W.world c inst compute).perform a heap = W.perform (machineAction c inst a) heap := rfl
  rw [same]
  rcases given : W.perform (machineAction c inst a) heap with ⟨e | v, heap'⟩
  · rw [given] at exec
    exact ready.halts (halts_failed here exec)
  · rw [given] at exec
    simpa using (ready.trans (reaches_next here exec)).trans (finish v heap')

theorem reaches_store {d : Reg} {v : Value} (stores : Stores slots d op)
    (here : program[p]? = some op) :
    Reaches (W.step program) 0 ⟨p, [v], locals, heap⟩ []
      ⟨p + 1, [], (inSlots slots).write locals (some (d.name, v)), heap⟩ :=
  reaches_next here (stores.exec W locals heap v [])

theorem carries_store {d : Reg} {v : Value} {mid : Nat}
    (effect : inst.effect (W.world c inst compute) (locals 0) ((inSlots slots).get locals) heap =
      .next [] (some (d.name, v)) heap)
    (ready : Reaches (W.step program) 0 ⟨p, [], locals, heap⟩ [] ⟨mid, [v], locals, heap⟩)
    (here : program[mid]? = some op) (stores : Stores slots d op) :
    Carries W compute c slots program inst p (mid + 1) locals heap :=
  carries_next effect (ready.trans (reaches_store stores here))

end Runs

end JavaMinus.Assembly
