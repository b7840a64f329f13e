import JavaMinus.Assembly
import JavaMinus.Code.Text

/-!
# Selecting instructions

Each instruction of register code becomes a few instructions of the stack
machine: operands are pushed, the operation is done, and the result is stored
into the slot of the destination. The operand stack is empty between two
instructions of register code.

Adding a small constant to a register and storing the sum there is done in
place. A comparison has no instruction that leaves a truth value; it becomes a
jump over one of two constants, with labels numbered within the method.
-/

namespace JavaMinus.Assembly

open Code (Operand Reg Inst Call Slots)

/-- Why an instruction cannot be selected. -/
inductive SelectionError where
  | operator (op : Operator)
  | noOperand
  | noSlot (register : String)
  | noReceiver (kind : Code.CallKind)
  | noInstruction
  deriving DecidableEq, Repr, Inhabited

/-- What a failure says. -/
def SelectionError.message : SelectionError → String
  | operator op => "unsupported operator " ++ op.symbol
  | noOperand => "bad operand <nil>"
  | noSlot r => "no slot for register " ++ r
  | noReceiver kind => kind.text ++ " without receiver"
  | noInstruction => "unsupported instruction <nil>"

/-! ## Descriptors -/

/-- The descriptor of a base type. What is unknown passes for an integer. -/
def baseDescriptor (c : Code.Class) : Base → String
  | .unknown => "I"
  | .int => "I"
  | .boolean => "Z"
  | .string => "Ljava/lang/String;"
  | .void => "V"
  | .object name => "L" ++ c.qualify name ++ ";"

/-- The descriptor of a type. -/
def descriptor (c : Code.Class) (t : Ty) : String :=
  if t.array then "[" ++ baseDescriptor c t.base else baseDescriptor c t.base

/-- The descriptor of a method. -/
def callDescriptor (c : Code.Class) (params : List Ty) (ret : Ty) : String :=
  "(" ++ String.join (params.map (descriptor c)) ++ ")" ++ descriptor c ret

/-- The descriptor of a field: by its declaration, or by its use if it has none. -/
def fieldDescriptor (c : Code.Class) (name : String) (used : Ty) : String :=
  match c.field? name with
  | some f => descriptor c f.type
  | none => descriptor c used

/-- The name of the element class of an array of references. -/
def elementName (c : Code.Class) : Base → String
  | .string => "java/lang/String"
  | .object name => c.qualify name
  | base => baseDescriptor c base

/-- The category of the values of a type. -/
def categoryOf (t : Ty) : Category := if t.isRef then .ref else .int

/-! ## Instructions -/

/-- What selection knows: the class, and the slots of the method. -/
structure Frame where
  cls : Code.Class
  slots : Slots

namespace Frame

/-- The slot of a register. -/
def slot (f : Frame) (r : Reg) : Except SelectionError Int :=
  match f.slots.get? r.name with
  | some s => .ok s
  | none => .error (.noSlot r.name)

/-- Push an operand. -/
def load (f : Frame) : Option Operand → Except SelectionError (List Instr)
  | some (.imm v _) => .ok [.const v]
  | some (.reg r) => do
    let s ← f.slot r
    return [.load (categoryOf r.type) s]
  | none => .error .noOperand

/-- Push operands in order. -/
def loads (f : Frame) : List (Option Operand) → Except SelectionError (List Instr)
  | [] => .ok []
  | o :: rest => do
    let first ← f.load o
    let others ← f.loads rest
    return first ++ others

/-- Store the value on the stack into a register. -/
def store (f : Frame) (r : Reg) : Except SelectionError (List Instr) := do
  let s ← f.slot r
  return [.store (categoryOf r.type) s]

/-- Leave 1 for a first number less than the second, and 0 otherwise. -/
def compare (n : Nat) : List Instr :=
  let yes := "cmp_true_" ++ toString n
  let done := "cmp_end_" ++ toString n
  [.ifLess yes, .const 0, .goto done, .label yes, .const 1, .label done]

/-- The instructions of a binary operator on two numbers on the stack. -/
def operator (n : Nat) : Operator → Except SelectionError (List Instr)
  | .add => .ok [.arith .add]
  | .sub => .ok [.arith .sub]
  | .mul => .ok [.arith .mul]
  | .div => .ok [.arith .div]
  | .and => .ok [.arith .and]
  | .less => .ok (compare n)
  | op => .error (.operator op)

/-- The constant by which an operation moves its own destination: `x := x + c`,
`x := c + x` or `x := x - c`. -/
def stepBy (dst : Reg) (op : Operator) (l r : Option Operand) : Option Int :=
  match op, l, r with
  | .add, some (.reg x), some (.imm c _) => if x.name = dst.name then some c.toInt else none
  | .add, some (.imm c _), some (.reg x) => if x.name = dst.name then some c.toInt else none
  | .sub, some (.reg x), some (.imm c _) => if x.name = dst.name then some (-c.toInt) else none
  | _, _, _ => none

/-- The constant of a step that is done in place: it fits in a byte. -/
def smallStep (dst : Reg) (op : Operator) (l r : Option Operand) : Option Int :=
  (stepBy dst op l r).filter fun v => decide (-128 ≤ v) && decide (v ≤ 127)

/-- The instructions of a call. -/
def call (f : Frame) (c : Call) : Except SelectionError (List Instr) := do
  let receiver ← match c.kind, c.recv with
    | .static, _ => pure []
    | kind, none => .error (.noReceiver kind)
    | _, some r => f.load (some r)
  let args ← f.loads c.args
  let takes := c.args.length + if c.kind = .static then 0 else 1
  let leaves := !c.ret.isVoid
  let invoke : Instr := .invoke c.kind.text (f.cls.qualify c.owner) c.method
    (callDescriptor f.cls c.params c.ret) takes leaves
  let result ← match c.dst with
    | some d => f.store d
    | none => pure (if leaves then [.pop] else [])
  return receiver ++ args ++ [invoke] ++ result

/-- The category of the elements of an array operand. -/
def elementCategory (array : Option Operand) : Category :=
  match array with
  | some a => categoryOf a.type.elem
  | none => .int

/-- The category of an operand. -/
def operandCategory (o : Option Operand) : Category :=
  match o with
  | some x => categoryOf x.type
  | none => .int

/-- The instructions for an instruction of register code; `n` is the number of a
comparison that it may contain. -/
def select (f : Frame) (n : Nat) : Inst → Except SelectionError (List Instr)
  | .assign d s => do
    let value ← f.load s
    return value ++ (← f.store d)
  | .binary d op l r =>
    match smallStep d op l r with
    | some v => do
      let s ← f.slot d
      return [.increment s v]
    | none => do
      let left ← f.load l
      let right ← f.load r
      let work ← operator n op
      return left ++ right ++ work ++ (← f.store d)
  | .unary d .not x => do
    let value ← f.load x
    return value ++ [.const 1, .arith .xor] ++ (← f.store d)
  | .unary _ op _ => .error (.operator op)
  | .getField d field => do
    let result ← f.store d
    return [.load .ref 0, .getField f.cls.name field (fieldDescriptor f.cls field d.type)] ++ result
  | .putField field s => do
    let value ← f.load s
    let used := match s with
      | some x => x.type
      | none => .unknown
    return .load .ref 0 :: value ++ [.putField f.cls.name field (fieldDescriptor f.cls field used)]
  | .load d a i => do
    let operands ← f.loads [a, i]
    return operands ++ [.arrayLoad (elementCategory a)] ++ (← f.store d)
  | .store a i s => do
    let operands ← f.loads [a, i, s]
    return operands ++ [.arrayStore (elementCategory a)]
  | .length d a => do
    let array ← f.load a
    return array ++ [.arrayLength] ++ (← f.store d)
  | .call c => f.call c
  | .new d name => do
    let result ← f.store d
    return .new (f.cls.qualify name) :: result
  | .newArray d len => do
    let size ← f.load len
    let make : Instr := if d.type.base = .int then .newIntArray
      else .newRefArray (elementName f.cls d.type.base)
    return size ++ [make] ++ (← f.store d)
  | .branch c t => do
    let cond ← f.load c
    return cond ++ [.ifNonzero t]
  | .goto t => .ok [.goto t]
  | .label name => .ok [.label name]
  | .ret x => do
    let value ← f.load x
    return value ++ [.valueReturn (operandCategory x)]
  | .retVoid => .ok [.voidReturn]
  | .hole => .error .noInstruction

/-- How many comparison labels an instruction takes. -/
def comparisons : Inst → Nat
  | .binary _ .less _ _ => 1
  | _ => 0

/-- The instructions for the code of a method, from comparison number `n` on. On
failure the instruction at fault is given with the cause. -/
def selectAll (f : Frame) (n : Nat) : List Inst → Except (Inst × SelectionError) (List Instr)
  | [] => .ok []
  | i :: rest =>
    match f.select n i with
    | .error e => .error (i, e)
    | .ok lines =>
      match f.selectAll (n + comparisons i) rest with
      | .error e => .error e
      | .ok others => .ok (lines ++ others)

end Frame

/-! ## Methods and classes -/

/-- Why a class cannot be assembled. -/
inductive AssemblyError where
  /-- The registers of a method have no slots. -/
  | notPlaced (method : String)
  /-- An instruction of a method cannot be selected. -/
  | instruction (method : String) (inst : Inst) (cause : SelectionError)
  deriving DecidableEq, Repr, Inhabited

/-- What a failure says. There is no message if the instruction at fault has no
text. -/
def AssemblyError.message? : AssemblyError → Option String
  | notPlaced m => some ("method " ++ m ++ ": registers are not allocated")
  | instruction m inst cause =>
    inst.text?.map fun t => "method " ++ m ++ ": " ++ t ++ ": " ++ cause.message

/-- The head of a method: modifiers, name and descriptor. -/
def methodHead (c : Code.Class) (m : Code.Method) : String :=
  if m.isConstructor then "<init>()V"
  else
    (if m.isStatic then "static " else "") ++ m.name ++
      callDescriptor c (m.params.map (·.type)) m.ret

/-- Assemble a method. -/
def assembleMethod (c : Code.Class) (m : Code.Method) : Except AssemblyError Method :=
  match m.slots with
  | none => .error (.notPlaced m.name)
  | some slots =>
    match Frame.selectAll ⟨c, slots⟩ 0 m.code with
    | .error (inst, cause) => .error (.instruction m.name inst cause)
    | .ok body => .ok { head := methodHead c m, locals := m.locals, body }

/-- Assemble a class whose registers have been placed. -/
def assemble (c : Code.Class) : Except AssemblyError Class := do
  let methods ← c.methods.mapM (assembleMethod c)
  return {
    name := c.name
    super := c.qualify c.super
    fields := c.fields.map fun f => (f.name, descriptor c f.type)
    methods }

end JavaMinus.Assembly
