import JavaMinus.Proofs.CodeSegments
import JavaMinus.Proofs.SourceMeaning
import JavaMinus.Proofs.TidyCode

/-!
# The code of expressions computes them

The code of an expression, wherever it stands in a method, does what computing the
expression does: the same actions in the same order, and at the end its operand
has the value of the expression, or the run fails with the same failure.

The registers that are declared before keep their values (`Keeps`), except for the
one that the value has to go to. That one is written last, so a failure leaves it
as it was, with one exception: an object is put into the register before its
constructor is called (`spoiled`).

`Realized` relates a computation with a run through a part of the code, and
computations that follow one another are realized by parts that do
(`Realized.bind`). The main result is `Valued.computes`.
-/

namespace JavaMinus.Code

open List

open Syntax (Expr)
open Typing (Mark Scope)
open Meaning (Frame Eval Outcome eval evalList namesClass staticType)
open Emit (emit temp)

variable {w : World} {α β : Type} {name : String} {inst : Reg → List Operand → Inst}
  {callee : Typing.Callee} {as : List (Expr Mark)} {d : Reg}

/-! ## Registers and variables -/

/-- The names of declared registers. -/
def varNames (vars : List Var) : List String := vars.map (·.name)

/-- The registers hold the values of the variables, and `this` holds the object. -/
structure Holds (fr : Frame) (locals regs : Named) : Prop where
  value : ∀ n, fr.hasVar n = true → regs n = locals n
  object : fr.method.isStatic = false → regs "this" = fr.obj

/-- Declared registers keep their values, with the exception of one. -/
def Keeps (vars : List Var) (dst : Option Reg) (regs regs' : Named) : Prop :=
  ∀ n ∈ varNames vars, (∀ d ∈ dst, n ≠ d.name) → regs' n = regs n

section Registers

variable {fr : Frame} {cls : String} {vars vars' : List Var} {dst : Option Reg}
  {locals regs regs' regs'' : Code.Named}

theorem varNames_subset (more : vars <+: vars') : varNames vars ⊆ varNames vars' :=
  map_subset _ more.subset

theorem Declared.mem {r : Reg} (declared : Declared vars r) : r.name ∈ varNames vars := by
  obtain ⟨v, member, same, _⟩ := declared
  exact mem_map.mpr ⟨v, member, same⟩

theorem Knows.mem (knows : Knows cls fr.method vars) {n : String} (has : fr.hasVar n = true) :
    n ∈ varNames vars := by
  obtain ⟨v, found⟩ := Option.isSome_iff_exists.mp has
  exact (knows.var n v found).mem

theorem Keeps.refl (vars : List Var) (dst : Option Reg) (regs : Named) : Keeps vars dst regs regs :=
  fun _ _ _ => rfl

theorem Keeps.of_none (keeps : Keeps vars none regs regs') : Keeps vars dst regs regs' :=
  fun n member _ => keeps n member (by simp)

theorem Keeps.trans (first : Keeps vars dst regs regs') (more : vars <+: vars')
    (second : Keeps vars' dst regs' regs'') : Keeps vars dst regs regs'' :=
  fun n member other =>
    (second n (varNames_subset more member) other).trans (first n member other)

theorem Keeps.shrink (keeps : Keeps vars' dst regs regs') (more : vars <+: vars') :
    Keeps vars dst regs regs' :=
  fun n member other => keeps n (varNames_subset more member) other

theorem Keeps.of_fresh (keeps : Keeps vars (some d) regs regs') (fresh : d.name ∉ varNames vars) :
    Keeps vars dst regs regs' := by
  refine Keeps.of_none fun n member _ => keeps n member fun d' same => ?_
  obtain rfl := Option.some.inj same
  rintro rfl
  exact fresh member

theorem Keeps.write (d : Reg) (v : Value) :
    Keeps vars (some d) regs (named.write regs (some (d.name, v))) :=
  fun _ _ other => Function.update_of_ne (other d rfl) _ _

theorem Holds.keep (holds : Holds fr locals regs) (knows : Knows cls fr.method vars)
    (keeps : Keeps vars none regs regs') : Holds fr locals regs' :=
  ⟨fun n has => (keeps n (knows.mem has) (by simp)).trans (holds.value n has),
    fun object => (keeps "this" (knows.this object).mem (by simp)).trans (holds.object object)⟩

theorem OperandDeclared.value_eq {o : Operand} (declared : OperandDeclared vars o)
    (keeps : Keeps vars none regs regs') :
    operandValue regs' (some o) = operandValue regs (some o) :=
  operandValue_congr fun r found => keeps r.name (declared r found).mem (by simp)

end Registers

/-! ## Computations and runs -/

/-- A computation and a run from a point: the run does the same actions, and it comes to
the given position or fails as the computation does. -/
def Realized (obj : Value) (code : List Inst) (o : Outcome w α) (start : Config w Named)
    (stop : Nat) (done : α → Named → Prop) (failed : Named → Prop) : Prop :=
  match o.result with
  | .ok a => ∃ regs, Reaches obj code 0 start o.acts ⟨stop, regs, o.heap⟩ ∧ done a regs
  | .error e => ∃ regs, Halts obj code start o.acts ⟨.failed e, regs, o.heap⟩ ∧ failed regs

namespace Realized

variable {obj : Value} {code : List Inst} {start : Config w Named} {p mid stop : Nat}
  {done : α → Named → Prop} {failed failed' : Named → Prop} {done' : β → Named → Prop}
  {regs : Named} {heap : w.Heap}

protected theorem pure {a : α} (holds : done a regs) :
    Realized obj code ((pure a : Eval w α) heap) ⟨p, regs, heap⟩ p done failed :=
  ⟨regs, .refl _, holds⟩

theorem mono {o : Outcome w α} {done' : α → Named → Prop}
    (realized : Realized obj code o start stop done failed)
    (after : ∀ a regs, done a regs → done' a regs) (afterFailure : ∀ regs, failed regs → failed' regs) :
    Realized obj code o start stop done' failed' := by
  unfold Realized at realized ⊢
  split
  case h_1 a given =>
    rw [given] at realized
    obtain ⟨regs, run, holds⟩ := realized
    exact ⟨regs, run, after a regs holds⟩
  case h_2 e given =>
    rw [given] at realized
    obtain ⟨regs, run, holds⟩ := realized
    exact ⟨regs, run, afterFailure regs holds⟩

theorem after {o : Outcome w α} {c : Config w Named} (first : Reaches obj code 0 start [] c)
    (realized : Realized obj code o c stop done failed) :
    Realized obj code o start stop done failed := by
  unfold Realized at realized ⊢
  split
  case h_1 a given =>
    rw [given] at realized
    obtain ⟨regs, run, holds⟩ := realized
    exact ⟨regs, first.trans run, holds⟩
  case h_2 e given =>
    rw [given] at realized
    obtain ⟨regs, run, holds⟩ := realized
    exact ⟨regs, first.halts run, holds⟩

/-- Computations that follow one another. -/
protected theorem bind {x : Eval w α} {f : α → Eval w β}
    (first : Realized obj code (x heap) start mid done failed)
    (second : ∀ a regs heap', done a regs →
      Realized obj code (f a heap') ⟨mid, regs, heap'⟩ stop done' failed')
    (early : ∀ regs, failed regs → failed' regs) :
    Realized obj code ((x >>= f) heap) start stop done' failed' := by
  rcases given : x heap with ⟨acts, e | a, heap'⟩
  · rw [given] at first
    obtain ⟨regs, run, holds⟩ := first
    rw [Eval.bind_apply_error given]
    exact ⟨regs, run, early regs holds⟩
  · rw [given] at first
    obtain ⟨regs, run, holds⟩ := first
    have next := second a regs heap' holds
    rw [Eval.bind_apply_ok given]
    unfold Realized at next ⊢
    dsimp only
    split
    case h_1 b rest =>
      rw [rest] at next
      obtain ⟨regs', run', holds'⟩ := next
      exact ⟨regs', run.trans run', holds'⟩
    case h_2 e rest =>
      rw [rest] at next
      obtain ⟨regs', run', holds'⟩ := next
      exact ⟨regs', run.halts run', holds'⟩

end Realized

/-! ## Operands -/

/-- The register that a failure may leave changed: only making an object writes its
register before the end. -/
def spoiled (x : Expr Mark) (dst : Option Reg) : Option Reg :=
  match x with
  | .newObject _ _ => dst
  | _ => none

/-- The code of an expression computes it, wherever it stands. -/
def Computes (w : World) (fr : Frame) (cls : String) (code : List Inst) (x : Expr Mark) : Prop :=
  ∀ (dst : Option Reg) (s : Supply) (p : Nat) (locals regs : Named) (heap : w.Heap),
    StandsAt code p (exprValue cls dst x s).code → Knows cls fr.method s.vars →
    Holds fr locals regs →
    Realized fr.obj code (eval fr locals x heap) ⟨p, regs, heap⟩
      (p + (exprValue cls dst x s).code.length)
      (fun v regs' => operandValue regs' (some (exprValue cls dst x s).value) = v ∧
        Keeps s.vars dst regs regs')
      (fun regs' => Keeps s.vars (spoiled x dst) regs regs')

/-- It is known how the code of the expression is made, and the code computes it. -/
def Done (w : World) (fr : Frame) (t : Table) (loose : Prop) (code : List Inst) (x : Expr Mark) :
    Prop :=
  Built ⟨t, fr.method⟩ loose x ∧ Computes w fr t.cls code x

section Operands

variable {fr : Frame} {t : Table} {loose : Prop} {code : List Inst} {x : Expr Mark} {xs : List (Expr Mark)}
  {m : Mark} {dst : Option Reg} {s : Supply} {p : Nat} {locals regs : Named} {heap : w.Heap}

theorem destination_cases (m : Mark) (dst : Option Reg) (s : Supply) :
    (destination m dst s).code = [] ∧ (destination m dst s).reports = [] ∧
      (dst = some (destination m dst s).value ∨
        dst = none ∧ (destination m dst s).value.name ∉ varNames s.vars) := by
  cases dst with
  | some d => exact ⟨rfl, rfl, .inl rfl⟩
  | none => exact ⟨rfl, rfl, .inr ⟨rfl, temp_fresh _ s⟩⟩

theorem argValues_cons (cls : String) (x : Expr Mark) (rest : List (Expr Mark)) (s : Supply) :
    argValues cls (x :: rest) s =
      { value := (exprValue cls none x s).value ::
          (argValues cls rest (exprValue cls none x s).supply).value
        code := (exprValue cls none x s).code ++
          (argValues cls rest (exprValue cls none x s).supply).code
        reports := (exprValue cls none x s).reports ++
          (argValues cls rest (exprValue cls none x s).supply).reports
        supply := (argValues cls rest (exprValue cls none x s).supply).supply } := by
  rw [argValues]
  exact Emitted.eq rfl (congrArg (fun l => (exprValue cls none x s).code ++ l) (append_nil _))
    (congrArg (fun l => (exprValue cls none x s).reports ++ l) (append_nil _)) rfl

/-- The values of operands. -/
def operandValues (regs : Named) (os : List Operand) : List Value :=
  os.map fun o => operandValue regs (some o)

theorem argValues_realized (each : ∀ x ∈ xs, Done w fr t loose code x)
    (stands : StandsAt code p (argValues t.cls xs s).code) (knows : Knows t.cls fr.method s.vars)
    (holds : Holds fr locals regs) :
    Realized fr.obj code (evalList fr locals xs heap) ⟨p, regs, heap⟩
      (p + (argValues t.cls xs s).code.length)
      (fun vs regs' => operandValues regs' (argValues t.cls xs s).value = vs ∧
        Keeps s.vars none regs regs')
      (fun regs' => Keeps s.vars none regs regs') := by
  induction xs generalizing s p regs heap with
  | nil => exact .pure ⟨rfl, .refl _ _ _⟩
  | cons x rest ih =>
    obtain ⟨first, others⟩ := forall_mem_cons.mp each
    rw [argValues_cons] at stands ⊢
    dsimp only at stands ⊢
    have tidy := first.1.tidy [] none s knows (by simp)
    have more := tidy.more
    have declared := tidy.value.1
    have one := first.2 none s p locals regs heap stands.left knows holds
    generalize exprValue t.cls none x s = head at *
    rw [evalList, length_append, ← Nat.add_assoc]
    refine .bind one (fun v regs' heap' ⟨value, keeps⟩ => ?_) fun regs' keeps => ?_
    · refine .bind (ih others (stands.right rfl) (knows.mono more) (holds.keep knows keeps))
        (fun vs regs'' heap'' ⟨values, keeps'⟩ => .pure ?_) fun regs'' keeps' => ?_
      · refine ⟨?_, keeps.trans more keeps'⟩
        rw [operandValues, map_cons, declared.value_eq keeps', value]
        exact congrArg _ values
      · exact keeps.trans more keeps'
    · cases x <;> exact keeps

/-! ## Instructions over operands -/

/-- What an instruction does that does a computation and writes a register. -/
def effectOf (o : Outcome w Value) (dst : Option Reg) : Effect w :=
  match o.result with
  | .ok v => .next o.acts (dst.map fun d => (d.name, v)) o.heap
  | .error e => .fail o.acts e o.heap

theorem inst_realized {obj : Value} {inst : Inst} {dst : Option Reg} {o : Outcome w Value}
    (here : code[p]? = some inst) (effect : inst.effect w obj regs heap = effectOf o dst) :
    Realized obj code o ⟨p, regs, heap⟩ (p + 1)
      (fun v regs' => regs' = named.write regs (dst.map fun d => (d.name, v)))
      (fun regs' => regs' = regs) := by
  unfold Realized
  unfold effectOf at effect
  split
  case h_1 v given =>
    rw [given] at effect
    exact ⟨_, (Reaches.next here effect).mono (Nat.zero_le _), rfl⟩
  case h_2 e given =>
    rw [given] at effect
    exact ⟨_, .fail here effect, rfl⟩

theorem computeWith_emitted (cls : String) (m : Mark) (dst : Option Reg) (xs : List (Expr Mark))
    (inst : Reg → List Operand → Inst) (s : Supply) :
    computeWith cls m dst xs inst s =
      { value := .reg (destination m dst (argValues cls xs s).supply).value
        code := (argValues cls xs s).code ++
          [inst (destination m dst (argValues cls xs s).supply).value (argValues cls xs s).value]
        reports := (argValues cls xs s).reports
        supply := (destination m dst (argValues cls xs s).supply).supply } := by
  obtain ⟨noCode, noReports, _⟩ := destination_cases m dst (argValues cls xs s).supply
  rw [computeWith]
  refine Emitted.eq rfl ?_ ?_ rfl
  · simp only [bind_code, noCode, emit_emitted, pure_emitted, nil_append, append_nil]
  · simp only [bind_reports, noReports, emit_emitted, pure_emitted, append_nil]

/-- Operands and an instruction over them. The instruction writes the register that the
value has to go to, or a new one. -/
theorem computeWith_realized {sem : List Value → Eval w Value}
    (each : ∀ x ∈ xs, Done w fr t loose code x)
    (effect : ∀ d vs regs (heap : w.Heap), ComputedAll xs vs →
      (inst d vs).effect w fr.obj regs heap = effectOf (sem (operandValues regs vs) heap) (some d))
    (stands : StandsAt code p (computeWith t.cls m dst xs inst s).code)
    (knows : Knows t.cls fr.method s.vars) (holds : Holds fr locals regs) :
    Realized fr.obj code ((evalList fr locals xs >>= sem) heap) ⟨p, regs, heap⟩
      (p + (computeWith t.cls m dst xs inst s).code.length)
      (fun v regs' => operandValue regs' (some (computeWith t.cls m dst xs inst s).value) = v ∧
        Keeps s.vars dst regs regs')
      (fun regs' => Keeps s.vars none regs regs') := by
  rw [computeWith_emitted] at stands ⊢
  dsimp only at stands ⊢
  have tidy : Tidy (Made ⟨t, fr.method⟩ loose) s [] [] [] _ (argValues t.cls xs s) :=
    argValues_tidy (fun x member => (each x member).1.tidy) knows
  have more := tidy.more
  obtain ⟨_, _, place⟩ := destination_cases m dst (argValues t.cls xs s).supply
  generalize (destination m dst (argValues t.cls xs s).supply).value = d at *
  rw [length_append, ← Nat.add_assoc]
  refine .bind (argValues_realized each stands.left knows holds)
    (fun vs regs' heap' ⟨values, keeps⟩ => ?_) fun regs' keeps => keeps
  subst values
  refine (inst_realized (stands.right rfl).head (effect d _ regs' heap' tidy.value.2)).mono ?_ ?_
  · rintro v _ rfl
    refine ⟨Function.update_self _ _ _, ?_⟩
    rcases place with rfl | ⟨rfl, fresh⟩
    · exact keeps.of_none.trans more (.write d v)
    · exact keeps.trans more ((Keeps.write d v).of_fresh fresh)
  · rintro _ rfl
    exact keeps

end Operands

/-! ## Where values are found -/

section Places

variable {cls : String} {m : Mark}

theorem Built.moved {sc : Scope} {loose : Prop} {x : Expr Mark} (built : Built sc loose x) (d : Reg)
    (s : Supply) : (exprValue sc.table.cls (some d) x s).value = .reg d := by
  cases built with
  | atHand same | computed _ _ same => rw [same]; rfl
  | and | newObject => rw [exprValue]; rfl

theorem useOf_eq_staticType (x : Expr Mark) : useOf x = staticType x := by
  rw [useOf, staticType]
  cases x.mark? <;> rfl

theorem types_of_computed {xs : List (Expr Mark)} {vs : List Operand} (given : ComputedAll xs vs) :
    vs.map Operand.type = xs.map staticType := by
  induction given with
  | nil => rfl
  | cons computed _ ih => rw [map_cons, map_cons, ih, computed.type, useOf_eq_staticType]

theorem exprValue_var {dst : Option Reg}
    (kind : (refOf m).kind = .localVar ∨ (refOf m).kind = .param) :
    exprValue cls dst (.ident m name) = settle (.reg ⟨name, (refOf m).type⟩) dst := by
  rcases kind with kind | kind <;> simp [exprValue, nameValue, kind]

end Places

/-! ## Expressions -/

/-- A value among the values of operands. -/
def argAt (vs : List Value) (i : Nat) : Value := vs[i]?.getD (.num 0)

theorem operandValue_getElem? (regs : Named) (os : List Operand) (i : Nat) :
    operandValue regs os[i]? = argAt (operandValues regs os) i := by
  rw [argAt, operandValues, List.getElem?_map]
  cases os[i]? <;> rfl

theorem perform_eq_effectOf (a : Action) (dst : Option Reg) (heap : w.Heap) :
    Effect.perform w a dst heap = effectOf (Eval.perform a heap) dst := by
  unfold Effect.perform effectOf Eval.perform
  rcases w.perform a heap with ⟨_ | _, _⟩ <;> rfl

section Expressions

variable {fr : Frame} {t : Table} {loose : Prop} {code : List Inst} {x l r : Expr Mark} {m : Mark}
  {dst : Option Reg} {s : Supply} {p : Nat} {locals regs : Named} {heap : w.Heap}

attribute [local simp] eval evalList

theorem settle_realized {obj : Value} {v : Operand} {failed : Named → Prop}
    (stands : StandsAt code p (settle v dst s).code) :
    Realized obj code ((pure (operandValue regs (some v)) : Eval w Value) heap) ⟨p, regs, heap⟩
      (p + (settle v dst s).code.length)
      (fun u regs' => operandValue regs' (some (settle v dst s).value) = u ∧
        Keeps s.vars dst regs regs') failed := by
  cases dst with
  | none => exact .pure ⟨rfl, .refl _ _ _⟩
  | some d =>
    refine ⟨_, (Reaches.next stands.head rfl).mono (Nat.zero_le _), ?_⟩
    exact ⟨Function.update_self _ _ _, .write d _⟩

theorem Computes.of_computeWith {xs : List (Expr Mark)} (f : List Value → Eval w Value)
    (plain : spoiled x = fun _ => none)
    (shape : ∀ dst, exprValue t.cls dst x = computeWith t.cls m dst xs inst)
    (meaning : ∀ locals, eval fr locals x = evalList fr locals xs >>= f)
    (each : ∀ y ∈ xs, Done w fr t loose code y)
    (effect : ∀ d vs regs (heap : w.Heap), ComputedAll xs vs →
      (inst d vs).effect w fr.obj regs heap = effectOf (f (operandValues regs vs) heap) (some d)) :
    Computes w fr t.cls code x := by
  intro dst s p locals regs heap stands knows holds
  rw [shape] at stands ⊢
  rw [meaning, plain]
  exact computeWith_realized each effect stands knows holds

theorem Computes.binary {op : Operator} (strict : op ≠ .and)
    (each : ∀ y ∈ [l, r], Done w fr t loose code y) : Computes w fr t.cls code (.binary m op l r) := by
  refine .of_computeWith (fun vs => .ofExcept (w.binary op (argAt vs 0) (argAt vs 1))) rfl
    (fun dst => exprValue_binary t.cls m dst strict l r) (fun locals => ?_) each ?_
  · rw [eval]
    · simp [argAt]
    · exact strict
  · intro d vs regs heap _
    simp only [Inst.effect, operandValue_getElem?, effectOf, Eval.ofExcept]
    cases w.binary op _ _ <;> rfl

theorem Computes.not (each : ∀ y ∈ [x], Done w fr t loose code y) :
    Computes w fr t.cls code (.not m x) := by
  refine .of_computeWith (fun vs => pure (w.unary .not (argAt vs 0))) rfl
    (fun dst => exprValue_not t.cls m dst x) (fun locals => ?_) each ?_
  · simp [argAt]
  · intro d vs regs heap _
    simp only [Inst.effect, operandValue_getElem?]
    rfl

theorem Computes.index (each : ∀ y ∈ [l, r], Done w fr t loose code y) :
    Computes w fr t.cls code (.index m l r) := by
  refine .of_computeWith (fun vs => .perform (.load (argAt vs 0) (argAt vs 1))) rfl
    (fun dst => exprValue_index t.cls m dst l r) (fun locals => ?_) each ?_
  · simp [argAt]
  · intro d vs regs heap _
    simp only [Inst.effect, operandValue_getElem?, perform_eq_effectOf]

theorem Computes.length (each : ∀ y ∈ [x], Done w fr t loose code y) :
    Computes w fr t.cls code (.length m x) := by
  refine .of_computeWith (fun vs => .perform (.length (argAt vs 0))) rfl
    (fun dst => exprValue_length t.cls m dst x) (fun locals => ?_) each ?_
  · simp [argAt]
  · intro d vs regs heap _
    simp only [Inst.effect, operandValue_getElem?, perform_eq_effectOf]

theorem Computes.newArray (each : ∀ y ∈ [x], Done w fr t loose code y) :
    Computes w fr t.cls code (.newArray m x) := by
  refine .of_computeWith (fun vs => .perform (.newArray (argAt vs 0))) rfl
    (fun dst => exprValue_newArray t.cls m dst x) (fun locals => ?_) each ?_
  · simp [argAt]
  · intro d vs regs heap _
    simp only [Inst.effect, operandValue_getElem?, perform_eq_effectOf]

theorem Computes.ident {t : Table} (named : NameFound ⟨t, fr.method⟩ m name) :
    Computes w fr t.cls code (.ident m name) := by
  rcases named.place with ⟨v, found, kind, _⟩ | ⟨missing, kind⟩
  · intro dst s p locals regs heap stands knows holds
    have has : fr.hasVar name = true := by simp [Frame.hasVar, found]
    rw [exprValue_var kind] at stands ⊢
    rw [eval, Frame.valueOf, if_pos has, ← holds.value name has]
    exact settle_realized stands
  · have hasNot : fr.hasVar name = false := by simp [Frame.hasVar, missing]
    refine .of_computeWith (fun _ => .field fr.obj name) rfl
      (fun dst => exprValue_field t.cls m dst kind) (fun locals => ?_)
      (forall_mem_nil (Done w fr t True code)) fun _ _ _ _ _ => rfl
    simp [Frame.valueOf, hasNot]

/-! ### Calls -/

/-- The action of a call, from the values of its operands. -/
def callAction (callee : Typing.Callee) (name : String) (argTypes : List Ty) (used : Ty)
    (vs : List Value) : Action :=
  .call (Meaning.callSite callee callee.isStatic name argTypes used)
    (if callee.isStatic then none else vs.head?) (if callee.isStatic then vs else vs.tail)

theorem callOver_effect {used : Ty} {os : List Operand}
    (given : ComputedAll (callOperands callee r as) os) :
    (Inst.call (callOver callee dst name used os)).effect w fr.obj regs heap =
      effectOf (Eval.perform
        (callAction callee name (as.map staticType) used (operandValues regs os)) heap) dst := by
  have types := types_of_computed given
  rw [Inst.effect, perform_eq_effectOf, callAction]
  cases called : callee.isStatic with
  | true =>
    simp only [callOperands, called, if_true] at types
    simp only [callOver, called, if_true, Call.action, Call.site, callInst, Meaning.callSite,
      operandValues, map_map, types]
    rfl
  | false =>
    simp only [callOperands, called, Bool.false_eq_true, if_false] at types
    have argTypes : os.tail.map Operand.type = as.map staticType := by
      rw [map_tail, types, map_cons, tail_cons]
    simp only [callOver, called, Bool.false_eq_true, if_false, Call.action, Call.site, callInst,
      Meaning.callSite, operandValues, map_map, List.head?_map, ← map_tail, argTypes]
    rfl

theorem invoke_eq {used : Ty} (static : callee.isStatic = namesClass r) :
    (Meaning.invoke callee (namesClass r) name (as.map staticType) used (eval fr locals r)
      (evalList fr locals as) : Eval w Value) =
      evalList fr locals (callOperands callee r as) >>= fun vs =>
        .perform (callAction callee name (as.map staticType) used vs) := by
  rw [← static]
  cases called : callee.isStatic with
  | true | false => simp [Meaning.invoke, callOperands, callAction, called]

theorem Computes.call (found : CallFound m as callee) (value : (valueType m).isVoid = false)
    (static : callee.isStatic = namesClass r)
    (each : ∀ y ∈ callOperands callee r as, Done w fr t loose code y) :
    Computes w fr t.cls code (.call m r name as) := by
  refine .of_computeWith
    (fun vs => .perform (callAction callee name (as.map staticType) (valueType m) vs)) rfl
    (fun dst => exprValue_call t.cls m dst found.found (by rwa [found.ret]))
    (fun locals => ?_) each fun d vs regs heap => callOver_effect
  rw [eval, found.found]
  exact invoke_eq static

/-! ### Objects -/

/-- The call of the constructor of a class on the object in a register. -/
def constructorCall (d : Reg) (name : String) : Call :=
  { kind := .special, owner := name, recv := some (.reg d), method := "<init>", ret := .void }

theorem create_apply {v : Value} {heap' : w.Heap}
    (made : w.perform (.new name) heap = (.ok v, heap')) :
    (Meaning.create name : Eval w Value) heap =
      ⟨[.new name, .call (Meaning.constructorSite name) (some v) []],
        (w.perform (.call (Meaning.constructorSite name) (some v) []) heap').1.map fun _ => v,
        (w.perform (.call (Meaning.constructorSite name) (some v) []) heap').2⟩ := by
  rw [Meaning.create, Eval.bind_apply_ok (Eval.perform_apply made)]
  rcases called : w.perform (.call (Meaning.constructorSite name) (some v) []) heap' with
    ⟨e | u, heap''⟩
  · rw [Eval.bind_apply_error (Eval.perform_apply called)]
    rfl
  · rw [Eval.bind_apply_ok (Eval.perform_apply called)]
    rfl

/-- An object is put into its register before its constructor is called, so the object is
there when the constructor fails. -/
theorem create_run (fr : Frame) (regs : Named) (heap : w.Heap)
    (first : code[p]? = some (.new d name))
    (second : code[p + 1]? = some (.call (constructorCall d name))) :
    (∃ v, (Meaning.create name heap).result = .ok v ∧
      Reaches fr.obj code 0 ⟨p, regs, heap⟩ (Meaning.create name heap).acts
        ⟨p + 2, Function.update regs d.name v, (Meaning.create name heap).heap⟩) ∨
    (∃ e regs', (Meaning.create name heap).result = .error e ∧
      Halts fr.obj code ⟨p, regs, heap⟩ (Meaning.create name heap).acts
        ⟨.failed e, regs', (Meaning.create name heap).heap⟩ ∧
      (regs' = regs ∨ ∃ v before, regs' = Function.update regs d.name v ∧
        (Meaning.create name heap).acts =
          before ++ [.call (Meaning.constructorSite name) (some v) []])) := by
  rcases made : w.perform (.new name) heap with ⟨e | v, heap'⟩
  · have all : (Meaning.create name : Eval w Value) heap = ⟨[.new name], .error e, heap'⟩ :=
      Eval.bind_apply_error (Eval.perform_apply made)
    rw [all]
    exact .inr ⟨e, regs, rfl, .fail first (by simp [Inst.effect, Effect.perform, made]), .inl rfl⟩
  · have allocated : (Inst.new d name).effect w fr.obj regs heap =
        .next [.new name] (some (d.name, v)) heap' := by
      simp [Inst.effect, Effect.perform, made]
    have put := Reaches.next first allocated
    have effect : (Inst.call (constructorCall d name)).effect w fr.obj
        (Function.update regs d.name v) heap' =
        .perform w (.call (Meaning.constructorSite name) (some v) []) none heap' := by
      simp [Inst.effect, Call.action, Call.site, constructorCall, operandValue,
        Meaning.constructorSite]
    rw [create_apply made]
    rcases called : w.perform (.call (Meaning.constructorSite name) (some v) []) heap' with
      ⟨e | u, heap''⟩
    · refine .inr ⟨e, Function.update regs d.name v, rfl, put.halts (Halts.fail second ?_),
        .inr ⟨v, [.new name], rfl, rfl⟩⟩
      exact effect.trans (by simp [Effect.perform, called])
    · have answered := effect.trans (show _ = Effect.next _ none heap'' by
        simp only [Effect.perform, called]
        rfl)
      exact .inl ⟨v, rfl, (put.trans (Reaches.next second answered)).mono (Nat.zero_le _)⟩

theorem newObject_emitted (cls : String) (dst : Option Reg) (m : Mark) (name : String)
    (s : Supply) :
    exprValue cls dst (.newObject m name) s =
      { value := .reg (destination m dst s).value
        code := [.new (destination m dst s).value name,
          .call (constructorCall (destination m dst s).value name)]
        supply := (destination m dst s).supply } := by
  obtain ⟨noCode, noReports, _⟩ := destination_cases m dst s
  rw [exprValue]
  refine Emitted.eq rfl ?_ ?_ rfl
  · simp only [bind_code, noCode, emit_emitted, pure_emitted, nil_append, append_nil]
    rfl
  · simp only [bind_reports, noReports, emit_emitted, pure_emitted, append_nil]

theorem Computes.newObject : Computes w fr t.cls code (.newObject m name) := by
  intro dst s p locals regs heap stands knows holds
  rw [newObject_emitted] at stands ⊢
  dsimp only at stands ⊢
  obtain ⟨_, _, place⟩ := destination_cases m dst s
  generalize (destination m dst s).value = d at *
  have keeps : ∀ v, Keeps s.vars dst regs (Function.update regs d.name v) := by
    intro v
    rcases place with rfl | ⟨rfl, fresh⟩
    · exact .write d v
    · exact (Keeps.write d v).of_fresh fresh
  rw [eval]
  unfold Realized
  rcases create_run fr regs heap stands.head stands.tail.head with
    ⟨v, given, run⟩ | ⟨e, regs', given, run, left⟩
  · rw [given]
    exact ⟨_, run, Function.update_self _ _ _, keeps v⟩
  · rw [given]
    refine ⟨regs', run, ?_⟩
    rcases left with rfl | ⟨v, _, rfl, _⟩
    · exact .refl _ _ _
    · exact keeps v

/-! ### Short circuit -/

theorem Keeps.of_spoiled {vars : List Var} {regs' : Named}
    (keeps : Keeps vars (spoiled x (some d)) regs regs') : Keeps vars (some d) regs regs' := by
  cases x with
  | newObject => exact keeps
  | _ => exact keeps.of_none

theorem Computes.and (unique : UniqueLabels code) (left : Done w fr t loose code l)
    (isLeft : useOf l = .boolean) (right : Done w fr t loose code r) (isRight : useOf r = .boolean) :
    Computes w fr t.cls code (.binary m .and l r) := by
  intro dst s p locals regs heap stands knows holds
  rw [exprValue_and t.cls m dst l r s rfl rfl rfl rfl] at stands ⊢
  dsimp only at stands ⊢
  have tidy : Tidy (Made ⟨t, fr.method⟩ loose) { s with labels := s.labels + 1 } [] [] [] _
      (temp .boolean { s with labels := s.labels + 1 }) := .temp _
  have new : s.vars <+: _ := tidy.more
  have boolean : Ty.boolean.HasValues := ⟨rfl, rfl⟩
  have lands : Lands .boolean _ _ := ⟨tidy.value.1, tidy.value.2 ▸ boolean.alike⟩
  have fresh : (temp .boolean { s with labels := s.labels + 1 }).value.name ∉ varNames s.vars :=
    temp_fresh .boolean { s with labels := s.labels + 1 }
  generalize temp .boolean { s with labels := s.labels + 1 } = made at *
  have first := (left.1.tidy [] (some made.value) made.supply (knows.mono new)
    (by simpa [isLeft] using lands)).more
  have inLeft := left.1.moved made.value made.supply
  have runLeft := left.2 (some made.value) made.supply p locals regs heap stands.left
    (knows.mono new) holds
  generalize exprValue t.cls (some made.value) l made.supply = leftCode at *
  have second := (right.1.tidy [] (some made.value) leftCode.supply (knows.mono (new.trans first))
    (by simpa [isRight] using lands.mono first)).more
  have inRight := right.1.moved made.value leftCode.supply
  have runRight := fun p regs (heap : w.Heap) stands => right.2 (some made.value) leftCode.supply p
    locals regs heap stands (knows.mono (new.trans first))
  generalize exprValue t.cls (some made.value) r leftCode.supply = rightCode at *
  have stable : ∀ {regs regs' : Named}, Keeps made.supply.vars (some made.value) regs regs' →
      Keeps s.vars none regs regs' := fun keeps => (keeps.shrink new).of_fresh fresh
  -- The places of the branch, the jump, the two labels and the right side.
  have behind := stands.right rfl
  have branchAt := behind.left.head
  have gotoAt := behind.left.tail.head
  have rhsAt := behind.left.tail.tail.head
  have rightAt : StandsAt code (p + leftCode.code.length + 3) _ := behind.right rfl
  have endAt := (rightAt.right rfl).left.head
  have lastAt := (rightAt.right rfl).right rfl
  have settled : ∀ (v : Value) (regs' : Named) (heap' : w.Heap),
      regs' made.value.name = v → Keeps s.vars none regs regs' →
      Realized fr.obj code ((pure v : Eval w Value) heap')
        ⟨p + leftCode.code.length + 3 + rightCode.code.length, regs', heap'⟩
        (p + leftCode.code.length + 3 + rightCode.code.length + 1 +
          (settle (.reg made.value) dst rightCode.supply).code.length)
        (fun v regs' => operandValue regs'
          (some (settle (.reg made.value) dst rightCode.supply).value) = v ∧
          Keeps s.vars dst regs regs')
        (fun regs' => Keeps s.vars none regs regs') := by
    rintro _ regs' heap' rfl keeps
    refine .after ((Reaches.label endAt).mono (Nat.zero_le _)) ?_
    refine (settle_realized lastAt).mono (fun v regs'' settled => ⟨settled.1, ?_⟩) fun _ h => h
    exact keeps.of_none.trans (new.trans (first.trans second)) settled.2
  rw [eval]
  have total : ∀ a b c d : Inst, p + (leftCode.code ++ ([a, b, c] ++ (rightCode.code ++ ([d] ++
      (settle (.reg made.value) dst rightCode.supply).code)))).length =
      p + leftCode.code.length + 3 + rightCode.code.length + 1 +
        (settle (.reg made.value) dst rightCode.supply).code.length := by
    intro a b c d
    simp only [length_append, length_cons, length_nil]
    omega
  rw [total]
  refine .bind runLeft (fun a regs' heap' ran => ?_) fun regs' keeps => stable keeps.of_spoiled
  obtain ⟨value, keeps⟩ := ran
  rw [inLeft] at value
  have condition : (Inst.branch (some (.reg made.value)) (labelName "and_rhs" s.labels)).effect w
      fr.obj regs' heap' = if w.isTrue a then .jump (labelName "and_rhs" s.labels)
        else .next [] none heap' := by
    rw [Inst.effect, value]
  cases holdsTrue : w.isTrue a with
  | true =>
    rw [holdsTrue] at condition
    have enter := (Reaches.jump unique branchAt condition rhsAt).trans (Reaches.label rhsAt)
    refine .after (enter.mono (Nat.zero_le _)) ?_
    simp only [if_true]
    rw [← bind_pure (eval fr locals r)]
    have holds' := holds.keep knows (stable keeps)
    refine .bind (runRight _ regs' heap' rightAt.left holds')
      (fun b regs'' heap'' ran => ?_) fun regs'' keeps' => ?_
    · obtain ⟨value, keeps'⟩ := ran
      rw [inRight] at value
      exact settled b regs'' heap'' value (stable (keeps.trans first keeps'))
    · exact stable (keeps.trans first keeps'.of_spoiled)
  | false =>
    rw [holdsTrue] at condition
    have skip := (Reaches.next branchAt condition).trans (Reaches.jump unique gotoAt rfl endAt)
    refine .after (skip.mono (Nat.zero_le _)) ?_
    simp only [Bool.false_eq_true, if_false]
    exact settled a regs' heap' value (stable keeps)

/-! ### Every expression -/

theorem Done.pair (left : Done w fr t loose code l) (right : Done w fr t loose code r) :
    ∀ y ∈ [l, r], Done w fr t loose code y :=
  forall_mem_cons.mpr ⟨left, forall_mem_singleton.mpr right⟩

theorem Valued.computes (unique : UniqueLabels code)
    (valued : Valued ⟨t, fr.method⟩ loose x) : Computes w fr t.cls code x := by
  induction valued with
  | int | bool =>
    intro dst s p locals regs heap stands _ _
    exact settle_realized stands
  | this object =>
    intro dst s p locals regs heap stands _ holds
    rw [eval, ← holds.object object]
    exact settle_realized stands
  | ident named => exact .ident named
  | @binary m op l r _ _ types _ left isLeft right isRight ihl ihr =>
    by_cases short : op = .and
    · subst short
      cases types
      exact .and unique ⟨left.built, ihl⟩ isLeft ⟨right.built, ihr⟩ isRight
    · exact .binary short (.pair ⟨left.built, ihl⟩ ⟨right.built, ihr⟩)
  | not _ inner _ ih => exact .not (forall_mem_singleton.mpr ⟨inner.built, ih⟩)
  | index _ array _ _ index _ iha ihi =>
    exact .index (.pair ⟨array.built, iha⟩ ⟨index.built, ihi⟩)
  | length _ array _ ih => exact .length (forall_mem_singleton.mpr ⟨array.built, ih⟩)
  | newArray _ len _ ih => exact .newArray (forall_mem_singleton.mpr ⟨len.built, ih⟩)
  | newObject => exact .newObject
  | call found fits recv args values ihr ihs =>
    exact .call found values.2 fits.static (forall_callOperands
      (fun object => ⟨(recv object).built, ihr object⟩)
      fun y member => ⟨(args y member).built, ihs y member⟩)

theorem Valued.done (unique : UniqueLabels code) (valued : Valued ⟨t, fr.method⟩ loose x) :
    Done w fr t loose code x :=
  ⟨valued.built, valued.computes unique⟩

end Expressions

end JavaMinus.Code
