import JavaMinus.Typing.Analysis
import JavaMinus.Proofs.Execution

/-!
# The meaning of a method body

Statements and expressions of an analysed tree are executed directly, over the
same worlds as register code: calls, allocations, array accesses and writes to
fields are actions of the `World`, and reading a field is not.

Computing an expression always comes to an end. It does some actions and gives a
value or fails (`Outcome`), and it changes no variable. Operands are computed
from left to right, a receiver before the arguments, and the right side of `&&`
only when the left side is true. An object is made in two actions, the
allocation and the call of the constructor.

Executing a statement may go on for ever. `run` executes it for a number of
rounds: every round of a loop leaves one round less to all that follows, and what
is not over by then is `unfinished`. The parts for all numbers of rounds make up
the behaviour of a method body (`bodyBehaviour`).
-/

namespace JavaMinus.Meaning

open Syntax Typing
open Code (World Value Action CallSite Named Ending Halt)

/-! ## Computations -/

/-- What a computation comes to: the actions that it does, the value that it gives or
the failure that it ends with, and the heap that it leaves. -/
structure Outcome (w : World) (α : Type) where
  acts : List Action
  result : Except w.Failure α
  heap : w.Heap

/-- A computation. -/
def Eval (w : World) (α : Type) := w.Heap → Outcome w α

namespace Eval

variable {w : World} {α β γ : Type}

/-- A value that is at hand. -/
def pure (a : α) : Eval w α := fun heap => ⟨[], .ok a, heap⟩

/-- Go on with a value, unless the computation fails. -/
def bind (x : Eval w α) (f : α → Eval w β) : Eval w β := fun heap =>
  match x heap with
  | ⟨acts, .ok a, heap'⟩ =>
    ⟨acts ++ (f a heap').acts, (f a heap').result, (f a heap').heap⟩
  | ⟨acts, .error e, heap'⟩ => ⟨acts, .error e, heap'⟩

instance : Monad (Eval w) where
  pure := Eval.pure
  bind := Eval.bind

/-- Do an action. -/
def perform (a : Action) : Eval w Value := fun heap =>
  ⟨[a], (w.perform a heap).1, (w.perform a heap).2⟩

/-- Read a field of an object. -/
def field (obj : Value) (name : String) : Eval w Value := fun heap =>
  ⟨[], .ok (w.field heap obj name), heap⟩

/-- Give a value or fail without doing anything. -/
def ofExcept (r : Except w.Failure α) : Eval w α := fun heap => ⟨[], r, heap⟩

theorem perform_apply {a : Action} {r : Except w.Failure Value} {heap heap' : w.Heap}
    (given : w.perform a heap = (r, heap')) : perform a heap = ⟨[a], r, heap'⟩ := by
  simp only [perform, given]

theorem pure_apply (a : α) (heap : w.Heap) :
    (Pure.pure a : Eval w α) heap = ⟨[], .ok a, heap⟩ := rfl

theorem bind_apply_ok {x : Eval w α} {f : α → Eval w β} {heap heap' : w.Heap}
    {acts : List Action} {a : α} (given : x heap = ⟨acts, .ok a, heap'⟩) :
    (x >>= f) heap = ⟨acts ++ (f a heap').acts, (f a heap').result, (f a heap').heap⟩ := by
  simp only [Bind.bind, Eval.bind, given]

theorem bind_apply_error {x : Eval w α} {f : α → Eval w β} {heap heap' : w.Heap}
    {acts : List Action} {e : w.Failure} (failed : x heap = ⟨acts, .error e, heap'⟩) :
    (x >>= f) heap = ⟨acts, .error e, heap'⟩ := by
  simp only [Bind.bind, Eval.bind, failed]

end Eval

instance {w : World} : LawfulMonad (Eval w) := by
  refine LawfulMonad.mk' _ (fun x => ?_) (fun a f => ?_) (fun x f g => ?_)
  · funext heap
    rcases given : x heap with ⟨acts, _ | a, heap'⟩
    · exact Eval.bind_apply_error given
    · exact (Eval.bind_apply_ok given).trans (by simp [Eval.pure])
  · funext heap
    exact (Eval.bind_apply_ok (Eval.pure_apply a heap)).trans (by simp)
  · funext heap
    rcases given : x heap with ⟨acts, e | a, heap'⟩
    · rw [Eval.bind_apply_error given, Eval.bind_apply_error (Eval.bind_apply_error given)]
    · rcases next : f a heap' with ⟨acts', e | b, heap''⟩
      · have both := Eval.bind_apply_ok (f := f) given
        rw [next] at both
        rw [Eval.bind_apply_error both, Eval.bind_apply_ok given, Eval.bind_apply_error next]
      · have both := Eval.bind_apply_ok (f := f) given
        rw [next] at both
        rw [Eval.bind_apply_ok both, Eval.bind_apply_ok given, Eval.bind_apply_ok next]
        simp

/-! ## Expressions -/

/-- Where a body is executed: the method, and the object that it is called on. -/
structure Frame where
  method : MethodSymbol
  obj : Value

/-- The name is that of a parameter or a local variable. -/
def Frame.hasVar (fr : Frame) (name : String) : Bool := (fr.method.var? name).isSome

/-- A receiver that is the name of a class. -/
def namesClass : Expr Mark → Bool
  | .ident m _ => m.ref.any fun r => r.kind = .cls
  | _ => false

/-- The type of the value of an expression. -/
def staticType (x : Expr Mark) : Ty := (x.mark?.bind (·.useType?)).getD .int

/-- What a call says about the method that it calls. `used` is the type that the
result is used with if the method is not known. -/
def callSite (callee : Callee) (onClass : Bool) (name : String) (argTypes : List Ty) (used : Ty) :
    CallSite where
  kind := if onClass then .static else .virtual
  owner := callee.owner
  method := name
  params := match callee.method with
    | some m => m.paramTypes
    | none => argTypes
  ret := match callee.method with
    | some m => m.ret
    | none => used

/-- The call of the constructor of a class. -/
def constructorSite (name : String) : CallSite := ⟨.special, name, "<init>", [], .void⟩

section

variable {w : World}

/-- The value of a name: of a variable, or else of a field. -/
def Frame.valueOf (fr : Frame) (locals : Named) (name : String) : Eval w Value :=
  if fr.hasVar name then pure (locals name) else .field fr.obj name

/-- Compute a receiver and arguments, and call a method. A class is no value, and a
call on it has no receiver. -/
def invoke (callee : Callee) (onClass : Bool) (name : String) (argTypes : List Ty) (used : Ty)
    (recv : Eval w Value) (args : Eval w (List Value)) : Eval w Value := do
  if onClass then
    let values ← args
    .perform (.call (callSite callee onClass name argTypes used) none values)
  else
    let object ← recv
    let values ← args
    .perform (.call (callSite callee onClass name argTypes used) (some object) values)

/-- Make an object: allocate it and call its constructor. -/
def create (name : String) : Eval w Value := do
  let object ← .perform (.new name)
  let _ ← Eval.perform (.call (constructorSite name) (some object) [])
  return object

mutual

/-- Compute an expression. -/
def eval (fr : Frame) (locals : Named) : Expr Mark → Eval w Value
  | .int _ v => pure (.num v)
  | .bool _ b => pure (.num (if b then 1 else 0))
  | .this _ => pure fr.obj
  | .ident _ name => fr.valueOf locals name
  | .binary _ .and l r => do
    let a ← eval fr locals l
    if w.isTrue a then eval fr locals r else pure a
  | .binary _ op l r => do
    let a ← eval fr locals l
    let b ← eval fr locals r
    .ofExcept (w.binary op a b)
  | .not _ x => do
    let a ← eval fr locals x
    return w.unary .not a
  | .index _ a i => do
    let array ← eval fr locals a
    let index ← eval fr locals i
    .perform (.load array index)
  | .length _ a => do
    let array ← eval fr locals a
    .perform (.length array)
  | .newArray _ n => do
    let len ← eval fr locals n
    .perform (.newArray len)
  | .newObject _ name => create name
  | .call m r name as =>
    match m.callee with
    | some callee =>
      invoke callee (namesClass r) name (as.map staticType) (m.useType?.getD .int)
        (eval fr locals r) (evalList fr locals as)
    | none => pure (.num 0)
  | .hole => pure (.num 0)

/-- Compute expressions in order. -/
def evalList (fr : Frame) (locals : Named) : List (Expr Mark) → Eval w (List Value)
  | [] => pure []
  | x :: rest => do
    let first ← eval fr locals x
    let others ← evalList fr locals rest
    return first :: others

end

/-- Compute an expression whose value is dropped. Where nothing is known of the result
of a call, none is expected. -/
def evalDropped (fr : Frame) (locals : Named) : Expr Mark → Eval w Value
  | .call m r name as =>
    match m.callee with
    | some callee =>
      invoke callee (namesClass r) name (as.map staticType) (m.useType?.getD .void)
        (eval fr locals r) (evalList fr locals as)
    | none => pure (.num 0)
  | x => eval fr locals x

end

/-! ## Statements -/

/-- How far an execution has come. -/
inductive Progress (w : World) where
  | done
  | raised (e : w.Failure)
  | unfinished

/-- What an execution has done, how far it has come, and the variables and the heap
that it leaves. -/
structure Trace (w : World) where
  acts : List Action
  progress : Progress w
  locals : Named
  heap : w.Heap

section

variable {w : World} {α : Type}

/-- The trace after some actions. -/
def Trace.after (acts : List Action) (t : Trace w) : Trace w := { t with acts := acts ++ t.acts }

/-- Go on after an execution that is done. -/
def Trace.andThen (t : Trace w) (next : Named → w.Heap → Trace w) : Trace w :=
  match t.progress with
  | .done => (next t.locals t.heap).after t.acts
  | _ => t

/-- Go on with the value of a computation, which changes no variable. -/
def Outcome.andThen (o : Outcome w α) (locals : Named) (next : α → w.Heap → Trace w) : Trace w :=
  match o.result with
  | .ok a => (next a o.heap).after o.acts
  | .error e => ⟨o.acts, .raised e, locals, o.heap⟩

/-- Nothing is left to do. -/
def Trace.rest (locals : Named) (heap : w.Heap) : Trace w := ⟨[], .done, locals, heap⟩

/-- Execute the rounds of a loop. A round leaves one round less to its body and to the
rounds after it. -/
def loop (cond : Named → Eval w Value) (body : Nat → Named → w.Heap → Trace w) :
    Nat → Named → w.Heap → Trace w
  | 0, locals, heap => ⟨[], .unfinished, locals, heap⟩
  | n + 1, locals, heap =>
    (cond locals heap).andThen locals fun c heap' =>
      if w.isTrue c then (body n locals heap').andThen (loop cond body n)
      else .rest locals heap'

/-- Assign to a name: to a variable, or else to a field. -/
def Frame.assign (fr : Frame) (locals : Named) (name : String) (v : Value) (heap : w.Heap) :
    Trace w :=
  if fr.hasVar name then .rest (Function.update locals name v) heap
  else (Eval.perform (.putField fr.obj name v) heap).andThen locals fun _ => .rest locals

mutual

/-- Execute a statement for a number of rounds. -/
def run (fr : Frame) : Stmt Mark → Nat → Named → w.Heap → Trace w
  | .block _ ss, n, locals, heap => runList fr ss n locals heap
  | .ifElse _ c yes no, n, locals, heap =>
    (eval fr locals c heap).andThen locals fun v heap' =>
      if w.isTrue v then run fr yes n locals heap' else run fr no n locals heap'
  | .while _ c b, n, locals, heap =>
    loop (fun locals => eval fr locals c) (run fr b) n locals heap
  | .assign _ t v, _, locals, heap =>
    (eval fr locals v heap).andThen locals (fr.assign locals t.name)
  | .arrayAssign _ t i v, _, locals, heap =>
    let stored : Eval w Value := do
      let array ← fr.valueOf locals t.name
      let index ← eval fr locals i
      let value ← eval fr locals v
      .perform (.store array index value)
    (stored heap).andThen locals fun _ => .rest locals
  | .expr _ x, _, locals, heap =>
    (evalDropped fr locals x heap).andThen locals fun _ => .rest locals
  | .hole, _, locals, heap => .rest locals heap

/-- Execute statements in order. -/
def runList (fr : Frame) : List (Stmt Mark) → Nat → Named → w.Heap → Trace w
  | [], _, locals, heap => .rest locals heap
  | s :: rest, n, locals, heap => (run fr s n locals heap).andThen (runList fr rest n)

end

/-! ## Bodies -/

/-- Compute the result of a method and return. -/
def returned (fr : Frame) (result : Option (Expr Mark)) (locals : Named) (heap : w.Heap) :
    List Action × Halt w Named :=
  match result with
  | none => ([], ⟨.returned none, locals, heap⟩)
  | some x =>
    let o : Outcome w Value := eval fr locals x heap
    (o.acts, ⟨match o.result with
      | .ok v => .returned (some v)
      | .error e => .failed e, locals, o.heap⟩)

/-- The behaviour of a method: part `n` is the execution for `n` rounds. It ends with
the values of the variables and the heap. -/
def bodyBehaviour (fr : Frame) (m : Method Mark) (locals : Named) (heap : w.Heap) :
    Behaviour Action (Halt w Named) := fun n =>
  let t := runList fr m.body n locals heap
  match t.progress with
  | .unfinished => (t.acts, none)
  | .raised e => (t.acts, some ⟨.failed e, t.locals, t.heap⟩)
  | .done =>
    let last := returned fr m.result t.locals t.heap
    (t.acts ++ last.1, some last.2)

end

end JavaMinus.Meaning
