import JavaMinus.Code.Simplify
import JavaMinus.Proofs.Behaviour

/-!
# Running register code

The meaning of register code. A register holds a 32-bit number or a reference. An
instruction reads its operands, and then it writes a register, jumps, returns or
fails. Calls, allocations, array accesses and writes to fields are actions: what
they do to the heap, which value they give and whether they fail is left to a
`World`, so that all statements hold for every world. Reading a field is not an
action, since it changes nothing.

Arithmetic is that of the virtual machine, said on mathematical integers and cut
to 32 bits (`machineResult`). It is also defined on references, which have some
number in every world, so that code without sense can be run as well.

`Inst.effect` says what one instruction does, from the values that it reads.
`step` runs code over any kind of register file; `Named` keeps the values of
registers by name.
-/

namespace JavaMinus.Code

/-! ## Values and actions -/

/-- What a register, a field or an element of an array holds. Truth values are the
numbers 0 and 1. -/
inductive Value where
  | num (v : Int32)
  | ref (address : Nat)
  deriving DecidableEq, Repr, Inhabited

/-- What a call says about the method that it calls. -/
structure CallSite where
  kind : CallKind
  owner : String
  method : String
  params : List Ty
  ret : Ty
  deriving DecidableEq, Repr, Inhabited

/-- Something that is done to the heap or outside of the method, with the values
that it is done to. A static call has no receiver. -/
inductive Action where
  | putField (object : Value) (field : String) (value : Value)
  | load (array index : Value)
  | store (array index value : Value)
  | length (array : Value)
  | call (site : CallSite) (recv : Option Value) (args : List Value)
  | new (name : String)
  | newArray (len : Value)
  deriving DecidableEq, Repr, Inhabited

/-- What code leaves open. An action gives a value or fails, and changes the heap.
Arithmetic finds a number in every reference. An operator that the machine does
not have computes something from its operands alone. -/
structure World where
  Heap : Type
  Failure : Type
  divisionByZero : Failure
  numberOf : Nat → Int32
  compute : Operator → List Value → Value
  field : Heap → Value → String → Value
  perform : Action → Heap → Except Failure Value × Heap

/-! ## Arithmetic -/

/-- The result of a binary operation of the machine, if it has one: sums,
differences and products are taken modulo 2³², a quotient is cut toward zero, and
a comparison gives a truth value. -/
def machineResult (op : Operator) (a b : Int32) : Option Int32 :=
  match op with
  | .add => some (.ofInt (a.toInt + b.toInt))
  | .sub => some (.ofInt (a.toInt - b.toInt))
  | .mul => some (.ofInt (a.toInt * b.toInt))
  | .div => if b.toInt = 0 then none else some (.ofInt (a.toInt.tdiv b.toInt))
  | .less => some (if a.toInt < b.toInt then 1 else 0)
  | .and => some (a &&& b)
  | .not => none
  | .other _ => none

theorem machineResult_eq_eval (op : Operator) (a b : Int32) :
    machineResult op a b = op.eval a b := by
  cases op with
  | add => simp [machineResult, Operator.eval, Int32.ofInt_add]
  | sub => simp [machineResult, Operator.eval, Int32.ofInt_sub]
  | mul => simp [machineResult, Operator.eval, Int32.ofInt_mul]
  | div =>
    have quotient : Int32.ofInt (a.toInt.tdiv b.toInt) = a / b := by
      rw [Int32.ofInt_tdiv a.minValue_le_toInt a.toInt_le b.minValue_le_toInt b.toInt_le]
      simp
    simp [machineResult, Operator.eval, quotient, ← Int32.toInt_inj]
  | less => simp [machineResult, Operator.eval, Int32.lt_iff_toInt_lt]
  | and => rfl
  | not => rfl
  | other s => rfl

namespace World

variable (w : World)

/-- The number that arithmetic finds in a value. -/
def number : Value → Int32
  | .num v => v
  | .ref a => w.numberOf a

/-- A condition holds. -/
def isTrue (v : Value) : Bool := w.number v != 0

/-- The result of a binary operator. Division by zero fails. -/
def binary (op : Operator) (a b : Value) : Except w.Failure Value :=
  match machineResult op (w.number a) (w.number b) with
  | some v => .ok (.num v)
  | none => if op = .div then .error w.divisionByZero else .ok (w.compute op [a, b])

/-- The result of a unary operator: `!` turns 0 into 1 and 1 into 0. -/
def unary (op : Operator) (a : Value) : Value :=
  if op = .not then .num (w.number a ^^^ 1) else w.compute op [a]

end World

/-! ## Instructions -/

/-- The value of an operand, where `read` gives the values of registers. -/
def operandValue (read : String → Value) : Option Operand → Value
  | some (.reg r) => read r.name
  | some (.imm v _) => .num v
  | none => .num 0

/-- What an instruction does: it may write a register and go on with the next
instruction, jump to a label, return, or fail. -/
inductive Effect (w : World) where
  | next (acts : List Action) (write : Option (String × Value)) (heap : w.Heap)
  | jump (target : String)
  | ret (result : Option Value)
  | fail (acts : List Action) (e : w.Failure) (heap : w.Heap)
  | stuck

/-- Do an action, and write what it gives if there is a register for it. -/
def Effect.perform (w : World) (a : Action) (dst : Option Reg) (heap : w.Heap) : Effect w :=
  match w.perform a heap with
  | (.ok v, heap') => .next [a] (dst.map fun d => (d.name, v)) heap'
  | (.error e, heap') => .fail [a] e heap'

/-- What a call says about the method that it calls. -/
def Call.site (c : Call) : CallSite := ⟨c.kind, c.owner, c.method, c.params, c.ret⟩

/-- The action of a call. -/
def Call.action (read : String → Value) (c : Call) : Action :=
  .call c.site (if c.kind = .static then none else c.recv.map fun r => operandValue read (some r))
    (c.args.map (operandValue read))

/-- What an instruction does in the frame of an object whose fields it may
access. -/
def Inst.effect (w : World) (obj : Value) (read : String → Value) (heap : w.Heap) :
    Inst → Effect w
  | .assign d s => .next [] (some (d.name, operandValue read s)) heap
  | .binary d op l r =>
    match w.binary op (operandValue read l) (operandValue read r) with
    | .ok v => .next [] (some (d.name, v)) heap
    | .error e => .fail [] e heap
  | .unary d op x => .next [] (some (d.name, w.unary op (operandValue read x))) heap
  | .getField d field => .next [] (some (d.name, w.field heap obj field)) heap
  | .putField field s => .perform w (.putField obj field (operandValue read s)) none heap
  | .load d a i => .perform w (.load (operandValue read a) (operandValue read i)) (some d) heap
  | .store a i s =>
    .perform w (.store (operandValue read a) (operandValue read i) (operandValue read s)) none heap
  | .length d a => .perform w (.length (operandValue read a)) (some d) heap
  | .call c => .perform w (c.action read) c.dst heap
  | .new d name => .perform w (.new name) (some d) heap
  | .newArray d n => .perform w (.newArray (operandValue read n)) (some d) heap
  | .branch c t => if w.isTrue (operandValue read c) then .jump t else .next [] none heap
  | .goto t => .jump t
  | .label _ => .next [] none heap
  | .ret x => .ret (some (operandValue read x))
  | .retVoid => .ret none
  | .hole => .stuck

/-! ## Runs -/

/-- A way to keep the values of registers. -/
structure RegisterFile (σ : Type) where
  get : σ → String → Value
  set : σ → String → Value → σ

/-- Registers kept by name. -/
abbrev Named := String → Value

/-- The register file of registers kept by name. -/
def named : RegisterFile Named where
  get regs n := regs n
  set regs n v := Function.update regs n v

/-- A point of a run: the position in the code, the registers and the heap. -/
structure Config (w : World) (σ : Type) where
  pc : Nat
  regs : σ
  heap : w.Heap

/-- How a run ends: with a return, with a failure, behind the last instruction, or at
a missing instruction. -/
inductive Ending (w : World) where
  | returned (result : Option Value)
  | failed (e : w.Failure)
  | ranOut
  | stuck

/-- The end of a run, with what is left. -/
structure Halt (w : World) (σ : Type) where
  ending : Ending w
  regs : σ
  heap : w.Heap

/-- The position of a label: behind the last instruction if there is none. -/
def labelAt (code : List Inst) (name : String) : Nat := code.idxOf (.label name)

section Step

variable {σ : Type} (w : World) (obj : Value) (file : RegisterFile σ)

/-- Write a register, if there is one to write. -/
def RegisterFile.write (regs : σ) : Option (String × Value) → σ
  | some (n, v) => file.set regs n v
  | none => regs

/-- Go on after what an instruction did. -/
def Effect.move {w : World} (code : List Inst) (c : Config w σ) :
    Effect w → Move Action (Config w σ) (Halt w σ)
  | .next acts write heap => .go acts ⟨c.pc + 1, file.write c.regs write, heap⟩
  | .jump t => .go [] ⟨labelAt code t, c.regs, c.heap⟩
  | .ret v => .stop [] ⟨.returned v, c.regs, c.heap⟩
  | .fail acts e heap => .stop acts ⟨.failed e, c.regs, heap⟩
  | .stuck => .stop [] ⟨.stuck, c.regs, c.heap⟩

/-- One step of a run. -/
def step (code : List Inst) (c : Config w σ) : Move Action (Config w σ) (Halt w σ) :=
  match code[c.pc]? with
  | some inst => (inst.effect w obj (file.get c.regs) c.heap).move file code c
  | none => .stop [] ⟨.ranOut, c.regs, c.heap⟩

variable {w obj file}

theorem step_of_get {code : List Inst} {c : Config w σ} {inst : Inst}
    (here : code[c.pc]? = some inst) :
    step w obj file code c = (inst.effect w obj (file.get c.regs) c.heap).move file code c := by
  simp only [step, here]

theorem step_of_end {code : List Inst} {c : Config w σ} (here : code[c.pc]? = none) :
    step w obj file code c = .stop [] ⟨.ranOut, c.regs, c.heap⟩ := by
  simp only [step, here]

end Step

/-- What is seen of the end of a run from outside: how it ended, and the heap. -/
def Halt.seen {w : World} {σ : Type} (h : Halt w σ) : Ending w × w.Heap := (h.ending, h.heap)

/-- The behaviour of code from its first instruction on. -/
def codeBehaviour (w : World) (obj : Value) (code : List Inst) (regs : Named) (heap : w.Heap) :
    Behaviour Action (Ending w × w.Heap) :=
  behaviour (step w obj named code) Halt.seen ⟨0, regs, heap⟩

/-! ## What an effect depends on -/

section

variable {w : World} {obj : Value} {heap : w.Heap} {read read' : String → Value}

theorem operandValue_congr {o : Option Operand}
    (agree : ∀ r ∈ o.bind Operand.reg?, read r.name = read' r.name) :
    operandValue read o = operandValue read' o := by
  cases o with
  | none => rfl
  | some o =>
    cases o with
    | reg r => exact agree r rfl
    | imm v t => rfl

theorem Inst.effect_congr {inst : Inst}
    (agree : ∀ o ∈ inst.operands, operandValue read o = operandValue read' o) :
    inst.effect w obj read heap = inst.effect w obj read' heap := by
  cases inst with
  | call c =>
    have recv : ∀ r, c.recv = some r → operandValue read (some r) = operandValue read' (some r) :=
      fun r h => agree _ (by simp [operands, h])
    have args : c.args.map (operandValue read) = c.args.map (operandValue read') :=
      List.map_congr_left fun o h => agree o (by simp [operands, h])
    cases h : c.recv with
    | none => simp [effect, Call.action, args, h]
    | some r => simp [effect, Call.action, args, h, recv r h]
  | _ => simp_all [effect, operands]

/-- An instruction does the same whenever the registers that it uses hold the same
values. -/
theorem Inst.effect_congr_uses {inst : Inst} (agree : ∀ r ∈ inst.uses, read r.name = read' r.name) :
    inst.effect w obj read heap = inst.effect w obj read' heap := by
  refine Inst.effect_congr fun o member => operandValue_congr fun r found => ?_
  exact agree r (List.mem_filterMap.mpr ⟨o, member, found⟩)

theorem Effect.perform_next {a : Action} {dst : Option Reg} {acts : List Action}
    {write : Option (String × Value)} {heap' : w.Heap}
    (h : Effect.perform w a dst heap = .next acts write heap') :
    write.map (·.1) = dst.map (·.name) := by
  unfold Effect.perform at h
  split at h
  · cases h
    cases dst <;> rfl
  · cases h

theorem Inst.effect_write {inst : Inst} {acts : List Action} {write : Option (String × Value)}
    {heap' : w.Heap} (h : inst.effect w obj read heap = .next acts write heap') :
    write.map (·.1) = inst.dst?.map (·.name) := by
  cases inst with
  | assign | unary | getField | label => cases h; rfl
  | binary d op l r | branch c t =>
    simp only [effect] at h
    split at h <;> cases h
    rfl
  | goto | ret | retVoid | hole => cases h
  | _ => exact Effect.perform_next h

end

end JavaMinus.Code
