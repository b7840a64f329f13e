import JavaMinus.Assembly.Selection
import JavaMinus.Proofs.CodeSegments

/-!
# The stack machine

The meaning of assembly. An operation of the machine (`Op`) takes its operands from
a stack and leaves its result there; the variables of a method are in numbered
slots. Constants and amounts are of the width that their operation has room for, so
that a number which does not fit cannot be written down at all: `bipush` holds 8
bits, `sipush` 16 bits, and both extend the sign. A call takes as many values from
the stack as its method has parameters, and leaves one unless the result is void.

As for register code, calls, allocations, array accesses and writes to fields are
actions, and what they do is left to a `Machine`. The actions of the machine name
classes, fields and methods in full, with their types.

Arithmetic is that of 32-bit numbers. A value that is a reference has some number as
well, so that all code can be run.
-/

namespace JavaMinus.Assembly

open Code (Value)

/-! ## Names of fields and methods -/

/-- A type in the name of a field or a method. -/
inductive Descriptor where
  | int
  | boolean
  | void
  | object (name : String)
  | array (element : Descriptor)
  deriving DecidableEq, Repr, Inhabited

/-- The text of a type. -/
def Descriptor.text : Descriptor → String
  | int => "I"
  | boolean => "Z"
  | void => "V"
  | object name => "L" ++ name ++ ";"
  | array element => "[" ++ element.text

/-- The full name of a field. -/
structure FieldName where
  owner : String
  field : String
  type : Descriptor
  deriving DecidableEq, Repr, Inhabited

/-- The full name of a method. -/
structure MethodName where
  owner : String
  method : String
  params : List Descriptor
  result : Descriptor
  deriving DecidableEq, Repr, Inhabited

/-- The text of the full name of a field. -/
def FieldName.text (f : FieldName) : String := f.owner ++ "/" ++ f.field ++ " " ++ f.type.text

/-- The text of the full name of a method. -/
def MethodName.text (m : MethodName) : String :=
  m.owner ++ "/" ++ m.method ++
    ("(" ++ String.join (m.params.map Descriptor.text) ++ ")" ++ m.result.text)

/-- The ways to call a method. -/
inductive InvokeKind where
  | static
  | virtual
  | special
  deriving DecidableEq, Repr, Inhabited

/-- The operation of a way to call. -/
def InvokeKind.text : InvokeKind → String
  | static => "invokestatic"
  | virtual => "invokevirtual"
  | special => "invokespecial"

/-! ## Operations -/

/-- An operation of the machine. The first four slots have operations of their own. -/
inductive Op where
  | minusOne
  | small (n : Fin 6)
  | byte (v : Int8)
  | short (v : Int16)
  | word (v : Int32)
  | load (c : Category) (slot : Nat)
  | loadFirst (c : Category) (slot : Fin 4)
  | store (c : Category) (slot : Nat)
  | storeFirst (c : Category) (slot : Fin 4)
  | increment (slot : Nat) (amount : Int8)
  | arith (op : Arith)
  | getField (f : FieldName)
  | putField (f : FieldName)
  | arrayLoad (c : Category)
  | arrayStore (c : Category)
  | arrayLength
  | invoke (kind : InvokeKind) (m : MethodName)
  | pop
  | new (name : String)
  | newIntArray
  | newRefArray (name : String)
  | ifNonzero (target : String)
  | ifLess (target : String)
  | goto (target : String)
  | label (name : String)
  | valueReturn (c : Category)
  | voidReturn
  deriving DecidableEq, Repr, Inhabited

namespace Op

/-- The text of an operation. -/
def text : Op → String
  | minusOne => "iconst_m1"
  | small n => "iconst_" ++ toString n.val
  | byte v => "bipush " ++ toString v.toInt
  | short v => "sipush " ++ toString v.toInt
  | word v => "ldc " ++ toString v.toInt
  | load c s => c.letter ++ "load " ++ toString s
  | loadFirst c s => c.letter ++ "load_" ++ toString s.val
  | store c s => c.letter ++ "store " ++ toString s
  | storeFirst c s => c.letter ++ "store_" ++ toString s.val
  | increment s v => "iinc " ++ toString s ++ " " ++ toString v.toInt
  | arith op => op.text
  | getField f => "getfield " ++ f.text
  | putField f => "putfield " ++ f.text
  | arrayLoad c => c.letter ++ "aload"
  | arrayStore c => c.letter ++ "astore"
  | arrayLength => "arraylength"
  | invoke kind m => kind.text ++ " " ++ m.text
  | pop => "pop"
  | new name => "new " ++ name
  | newIntArray => "newarray int"
  | newRefArray name => "anewarray " ++ name
  | ifNonzero t => "ifne " ++ t
  | ifLess t => "if_icmplt " ++ t
  | goto t => "goto " ++ t
  | label name => name ++ ":"
  | valueReturn c => c.letter ++ "return"
  | voidReturn => "return"

/-- The line of an operation. Labels stand at the left margin. -/
def line (o : Op) : String :=
  match o with
  | label _ => o.text ++ "\n"
  | _ => "\t" ++ o.text ++ "\n"

/-- The name of a label. -/
def label? : Op → Option String
  | label name => some name
  | _ => none

end Op

/-! ## Machines -/

/-- Something that is done to the heap or outside of the method, with the values that it is
done to. -/
inductive MachineAction where
  | putField (f : FieldName) (object value : Value)
  | arrayLoad (c : Category) (array index : Value)
  | arrayStore (c : Category) (array index value : Value)
  | arrayLength (array : Value)
  | invoke (kind : InvokeKind) (m : MethodName) (object : Option Value) (args : List Value)
  | new (name : String)
  | newIntArray (len : Value)
  | newRefArray (name : String) (len : Value)
  deriving DecidableEq, Repr, Inhabited

/-- What assembly leaves open. -/
structure Machine where
  Heap : Type
  Failure : Type
  divisionByZero : Failure
  numberOf : Nat → Int32
  field : Heap → FieldName → Value → Value
  perform : MachineAction → Heap → Except Failure Value × Heap

/-- The contents of the slots. -/
abbrev Locals := Nat → Value

/-- The result of an arithmetic operation. There is none for a division by zero. -/
def Arith.eval : Arith → Int32 → Int32 → Option Int32
  | .add, a, b => some (a + b)
  | .sub, a, b => some (a - b)
  | .mul, a, b => some (a * b)
  | .div, a, b => if b = 0 then none else some (a / b)
  | .and, a, b => some (a &&& b)
  | .xor, a, b => some (a ^^^ b)

/-- What an operation leads to. -/
inductive After (W : Machine) where
  | next (acts : List MachineAction) (stack : List Value) (locals : Locals) (heap : W.Heap)
  | jump (target : String) (stack : List Value)
  | returned (result : Option Value)
  | failed (acts : List MachineAction) (e : W.Failure) (heap : W.Heap)
  | stuck

/-- Do an action. `rest` is the stack afterwards, for the value that the action gives. -/
def After.perform (W : Machine) (a : MachineAction) (locals : Locals) (heap : W.Heap)
    (rest : Value → List Value) : After W :=
  match W.perform a heap with
  | (.ok v, heap') => .next [a] (rest v) locals heap'
  | (.error e, heap') => .failed [a] e heap'

section Execution

variable (W : Machine)

/-- The number that arithmetic finds in a value. -/
def Machine.number : Value → Int32
  | .num v => v
  | .ref a => W.numberOf a

/-- Put the result of a method on the stack, if it has one. -/
def MethodName.leave (m : MethodName) (stack : List Value) (v : Value) : List Value :=
  if m.result = .void then stack else v :: stack

variable {W} in
/-- Take the operand from the top of the stack. -/
def take1 (stack : List Value) (go : Value → List Value → After W) : After W :=
  match stack with
  | a :: rest => go a rest
  | _ => .stuck

variable {W} in
/-- Take two operands. The last one is on top of the stack. -/
def take2 (stack : List Value) (go : Value → Value → List Value → After W) : After W :=
  match stack with
  | b :: a :: rest => go a b rest
  | _ => .stuck

variable {W} in
/-- Take three operands. -/
def take3 (stack : List Value) (go : Value → Value → Value → List Value → After W) : After W :=
  match stack with
  | c :: b :: a :: rest => go a b c rest
  | _ => .stuck

variable {W} in
/-- Take a number of operands, in order. -/
def takeAll (n : Nat) (stack : List Value) (go : List Value → List Value → After W) : After W :=
  if stack.length < n then .stuck else go (stack.take n).reverse (stack.drop n)

/-- Execute an operation. -/
def Op.exec (locals : Locals) (heap : W.Heap) (op : Op) (stack : List Value) : After W :=
  match op with
  | minusOne => .next [] (.num (-1) :: stack) locals heap
  | small n => .next [] (.num (.ofInt n.val) :: stack) locals heap
  | byte v => .next [] (.num v.toInt32 :: stack) locals heap
  | short v => .next [] (.num v.toInt32 :: stack) locals heap
  | word v => .next [] (.num v :: stack) locals heap
  | load _ s => .next [] (locals s :: stack) locals heap
  | loadFirst _ s => .next [] (locals s :: stack) locals heap
  | store _ s => take1 stack fun v rest => .next [] rest (Function.update locals s v) heap
  | storeFirst _ s => take1 stack fun v rest => .next [] rest (Function.update locals s v) heap
  | increment s v =>
    .next [] stack (Function.update locals s (.num (W.number (locals s) + v.toInt32))) heap
  | arith op => take2 stack fun a b rest =>
    match op.eval (W.number a) (W.number b) with
    | some v => .next [] (.num v :: rest) locals heap
    | none => .failed [] W.divisionByZero heap
  | getField f => take1 stack fun object rest =>
    .next [] (W.field heap f object :: rest) locals heap
  | putField f => take2 stack fun object v rest =>
    .perform W (.putField f object v) locals heap fun _ => rest
  | arrayLoad c => take2 stack fun a i rest =>
    .perform W (.arrayLoad c a i) locals heap fun v => v :: rest
  | arrayStore c => take3 stack fun a i v rest =>
    .perform W (.arrayStore c a i v) locals heap fun _ => rest
  | arrayLength => take1 stack fun a rest =>
    .perform W (.arrayLength a) locals heap fun v => v :: rest
  | invoke kind m => takeAll m.params.length stack fun args rest =>
    match kind with
    | .static => .perform W (.invoke kind m none args) locals heap (m.leave rest)
    | _ => take1 rest fun object rest =>
      .perform W (.invoke kind m (some object) args) locals heap (m.leave rest)
  | pop => take1 stack fun _ rest => .next [] rest locals heap
  | new name => .perform W (.new name) locals heap fun v => v :: stack
  | newIntArray => take1 stack fun n rest =>
    .perform W (.newIntArray n) locals heap fun v => v :: rest
  | newRefArray name => take1 stack fun n rest =>
    .perform W (.newRefArray name n) locals heap fun v => v :: rest
  | ifNonzero t => take1 stack fun v rest =>
    if W.number v ≠ 0 then .jump t rest else .next [] rest locals heap
  | ifLess t => take2 stack fun a b rest =>
    if W.number a < W.number b then .jump t rest else .next [] rest locals heap
  | goto t => .jump t stack
  | label _ => .next [] stack locals heap
  | valueReturn _ => take1 stack fun v _ => .returned (some v)
  | voidReturn => .returned none

section

variable {W} {ar : Arith} {a b : Value} {locals : Locals} {heap : W.Heap} {stack : List Value}

theorem exec_arith_some {x : Int32} (result : ar.eval (W.number a) (W.number b) = some x) :
    (Op.arith ar).exec W locals heap (b :: a :: stack) = .next [] (.num x :: stack) locals heap := by
  simp only [Op.exec, take2, result]

theorem exec_invoke {kind : InvokeKind} {m : MethodName} {object : Option Value} {args : List Value}
    (count : args.length = m.params.length) (receives : kind = .static ↔ object = none) :
    (Op.invoke kind m).exec W locals heap (args.reverse ++ object.toList) =
      .perform W (.invoke kind m object args) locals heap (m.leave []) := by
  have enough : ¬ (args.reverse ++ object.toList).length < m.params.length := by
    rw [List.length_append, List.length_reverse]
    omega
  have reversed : args.reverse.length = m.params.length := by rw [List.length_reverse, count]
  rw [Op.exec, takeAll, if_neg enough, List.take_left' reversed, List.drop_left' reversed,
    List.reverse_reverse]
  cases object with
  | none =>
    rw [receives.mpr rfl]
    rfl
  | some v =>
    cases kind with
    | static => cases receives.mp rfl
    | virtual => rfl
    | special => rfl

theorem exec_arith_none (result : ar.eval (W.number a) (W.number b) = none) :
    (Op.arith ar).exec W locals heap (b :: a :: stack) = .failed [] W.divisionByZero heap := by
  simp only [Op.exec, take2, result]

end

/-! ## Runs -/

/-- A point of a run. -/
structure Point where
  pc : Nat
  stack : List Value
  locals : Locals
  heap : W.Heap

/-- How a run ends. -/
inductive Ending where
  | returned (result : Option Value)
  | failed (e : W.Failure)
  | ranOut
  | stuck

/-- The end of a run, with the heap that is left. -/
structure Stop where
  ending : Ending W
  heap : W.Heap

variable {W}

/-- The position of a label: behind the last operation if there is none. -/
def position (program : List Op) (name : String) : Nat := program.idxOf (.label name)

/-- Go on after an operation. -/
def After.move (program : List Op) (c : Point W) :
    After W → Move MachineAction (Point W) (Stop W)
  | .next acts stack locals heap => .go acts ⟨c.pc + 1, stack, locals, heap⟩
  | .jump t stack => .go [] ⟨position program t, stack, c.locals, c.heap⟩
  | .returned result => .stop [] ⟨.returned result, c.heap⟩
  | .failed acts e heap => .stop acts ⟨.failed e, heap⟩
  | .stuck => .stop [] ⟨.stuck, c.heap⟩

variable (W)

/-- One step of a run. -/
def Machine.step (program : List Op) (c : Point W) : Move MachineAction (Point W) (Stop W) :=
  match program[c.pc]? with
  | some op => (op.exec W c.locals c.heap c.stack).move program c
  | none => .stop [] ⟨.ranOut, c.heap⟩

variable {W} {program : List Op} {op : Op} {p : Nat} {stack stack' : List Value}
  {locals locals' : Locals} {heap heap' : W.Heap} {acts : List MachineAction}

theorem step_of_op (here : program[p]? = some op) : W.step program ⟨p, stack, locals, heap⟩ =
      (op.exec W locals heap stack).move program ⟨p, stack, locals, heap⟩ := by
  simp only [Machine.step, here]

theorem reaches_next (here : program[p]? = some op)
    (exec : op.exec W locals heap stack = .next acts stack' locals' heap') :
    Reaches (W.step program) 0 ⟨p, stack, locals, heap⟩ acts ⟨p + 1, stack', locals', heap'⟩ := by
  refine (Reaches.of_step ?_).mono (Nat.zero_le 1)
  rw [step_of_op here, exec]
  rfl

theorem reaches_jump {t : String} (here : program[p]? = some op)
    (exec : op.exec W locals heap stack = .jump t stack') :
    Reaches (W.step program) 0 ⟨p, stack, locals, heap⟩ []
      ⟨position program t, stack', locals, heap⟩ := by
  refine (Reaches.of_step ?_).mono (Nat.zero_le 1)
  rw [step_of_op here, exec]
  rfl

theorem halts_returned {result : Option Value} (here : program[p]? = some op)
    (exec : op.exec W locals heap stack = .returned result) :
    Halts (W.step program) ⟨p, stack, locals, heap⟩ [] ⟨.returned result, heap⟩ := by
  refine Halts.of_step ?_
  rw [step_of_op here, exec]
  rfl

theorem halts_failed {e : W.Failure} (here : program[p]? = some op)
    (exec : op.exec W locals heap stack = .failed acts e heap') :
    Halts (W.step program) ⟨p, stack, locals, heap⟩ acts ⟨.failed e, heap'⟩ := by
  refine Halts.of_step ?_
  rw [step_of_op here, exec]
  rfl

end Execution

end JavaMinus.Assembly
