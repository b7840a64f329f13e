import JavaMinus.Proofs.ExpressionCode

/-!
# The code of statements executes them

The code of a statement, wherever it stands in a method, does what executing the
statement for a number of rounds does (`Follows`). Where the execution is done, the
run comes to the end of the code, with the same values in the variables. Where it
fails, the run fails. Where the rounds are used up, the run has taken at least as
many steps as there were rounds, so a run that goes on for ever does so on both
sides.

After a failure the variables have the same values with one exception. An object
that is assigned to a variable is put there before its constructor is called, and
stays there when the constructor fails (`ObjectLeft`).

The main result is `Runnable.executes`.
-/

namespace JavaMinus.Code

open List

open Syntax (Expr Stmt Target)
open Typing (Mark)
open Meaning (Frame Eval Outcome Trace eval evalList run runList constructorSite)

variable {w : World} {α β : Type} {ss : List (Stmt Mark)} {st : Stmt Mark}

/-! ## What is left behind -/

/-- The registers of the variables have the given values. -/
def SameVars (fr : Frame) (locals regs : Named) : Prop :=
  ∀ n, fr.hasVar n = true → regs n = locals n

mutual

/-- The assignments of a new object in a statement: the name that is assigned to, and
the class. -/
def objectAssignments : Stmt Mark → List (String × String)
  | .block _ ss => objectAssignmentsList ss
  | .ifElse _ _ y n => objectAssignments y ++ objectAssignments n
  | .while _ _ b => objectAssignments b
  | .assign _ t (.newObject _ c) => [(t.name, c)]
  | _ => []

/-- The assignments of a new object in statements. -/
def objectAssignmentsList : List (Stmt Mark) → List (String × String)
  | [] => []
  | s :: rest => objectAssignments s ++ objectAssignmentsList rest

end

/-- The variables have the given values, but for a new object in the variable that it is
assigned to, and the last action is the call of its constructor. -/
def ObjectLeft (fr : Frame) (made : List (String × String)) (acts : List Action)
    (locals regs : Named) : Prop :=
  ∃ x c v before, (x, c) ∈ made ∧ acts = before ++ [.call (constructorSite c) (some v) []] ∧
    SameVars fr (Function.update locals x v) regs

theorem objectAssignments_subset (member : st ∈ ss) :
    objectAssignments st ⊆ objectAssignmentsList ss := by
  induction ss with
  | nil => cases member
  | cons first rest ih =>
    rw [objectAssignmentsList]
    rcases mem_cons.mp member with rfl | member
    · exact subset_append_left _ _
    · exact subset_append_of_subset_right _ (ih member)

theorem ObjectLeft.after {fr : Frame} {made : List (String × String)} {acts : List Action}
    {locals regs : Named} (left : ObjectLeft fr made acts locals regs) (earlier : List Action) :
    ObjectLeft fr made (earlier ++ acts) locals regs := by
  obtain ⟨x, c, v, before, member, rfl, same⟩ := left
  exact ⟨x, c, v, earlier ++ before, member, by rw [append_assoc], same⟩

/-! ## Executions and runs -/

/-- A run from a point follows an execution for a number of rounds. -/
def Follows (fr : Frame) (code : List Inst) (made : List (String × String)) (n : Nat)
    (t : Trace w) (start : Config w Named) (stop : Nat) : Prop :=
  match t.progress with
  | .done => ∃ regs, Reaches fr.obj code 0 start t.acts ⟨stop, regs, t.heap⟩ ∧
      Holds fr t.locals regs
  | .raised e => ∃ regs, Halts fr.obj code start t.acts ⟨.failed e, regs, t.heap⟩ ∧
      (SameVars fr t.locals regs ∨ ObjectLeft fr made t.acts t.locals regs)
  | .unfinished => ∃ c, Reaches fr.obj code n start t.acts c

namespace Follows

variable {fr : Frame} {code : List Inst} {made : List (String × String)} {k n mid stop : Nat}
  {t : Trace w} {start c : Config w Named} {locals regs : Named} {heap : w.Heap}

theorem rest (holds : Holds fr locals regs) :
    Follows fr code made n (.rest locals heap) ⟨stop, regs, heap⟩ stop :=
  ⟨regs, .refl _, holds⟩

theorem after {acts : List Action} (first : Reaches fr.obj code k start acts c)
    (follows : Follows fr code made n t c stop) :
    Follows fr code made (k + n) (t.after acts) start stop := by
  rcases t with ⟨acts', progress, locals, heap⟩
  cases progress with
  | done =>
    obtain ⟨regs, run, holds⟩ := follows
    exact ⟨regs, (first.trans run).mono (Nat.zero_le _), holds⟩
  | raised e =>
    obtain ⟨regs, run, left⟩ := follows
    exact ⟨regs, first.halts run, left.imp_right fun left => left.after acts⟩
  | unfinished =>
    obtain ⟨c', run⟩ := follows
    exact ⟨c', first.trans run⟩

theorem later (first : Reaches fr.obj code k start [] c) (follows : Follows fr code made n t c stop) :
    Follows fr code made (k + n) t start stop :=
  follows.after first

theorem mono (le : k ≤ n) (follows : Follows fr code made n t c stop) :
    Follows fr code made k t c stop := by
  rcases t with ⟨acts', progress, locals, heap⟩
  cases progress with
  | done | raised e => exact follows
  | unfinished =>
    obtain ⟨c', run⟩ := follows
    exact ⟨c', run.mono le⟩

theorem andThen {next : Named → w.Heap → Trace w} (first : Follows fr code made n t start mid)
    (second : ∀ locals regs heap, Holds fr locals regs →
      Follows fr code made n (next locals heap) ⟨mid, regs, heap⟩ stop) :
    Follows fr code made n (t.andThen next) start stop := by
  rcases t with ⟨acts, progress, locals, heap⟩
  cases progress with
  | done =>
    obtain ⟨regs, run, holds⟩ := first
    exact ((second locals regs heap holds).after run).mono (Nat.le_add_left _ _)
  | raised e => exact first
  | unfinished => exact first

theorem of_realized {o : Outcome w α} {done : α → Named → Prop} {failed : Named → Prop}
    {next : α → w.Heap → Trace w} (first : Realized fr.obj code o start mid done failed)
    (early : ∀ regs, failed regs → SameVars fr locals regs)
    (second : ∀ a regs heap, done a regs →
      Follows fr code made n (next a heap) ⟨mid, regs, heap⟩ stop) :
    Follows fr code made n (o.andThen locals next) start stop := by
  rcases o with ⟨acts, e | a, heap⟩
  · obtain ⟨regs, run, holds⟩ := first
    exact ⟨regs, run, .inl (early regs holds)⟩
  · obtain ⟨regs, run, holds⟩ := first
    exact ((second a regs heap holds).after run).mono (Nat.le_add_left _ _)

end Follows

/-! ## Statements of one instruction -/

theorem Holds.sameVars {fr : Frame} {locals regs : Named} (holds : Holds fr locals regs) :
    SameVars fr locals regs :=
  holds.value

theorem andThen_bind (x : Eval w α) (f : α → Eval w β) (heap : w.Heap) (locals : Named)
    (next : β → w.Heap → Trace w) :
    ((x >>= f) heap).andThen locals next =
      (x heap).andThen locals fun a heap' => (f a heap').andThen locals next := by
  rcases given : x heap with ⟨acts, e | a, heap'⟩
  · rw [Eval.bind_apply_error given]
    rfl
  · rw [Eval.bind_apply_ok given]
    change _ = ((f a heap').andThen locals next).after acts
    rcases f a heap' with ⟨acts', e | b, heap''⟩
    · rfl
    · simp [Outcome.andThen, Trace.after]

section Statements

variable {fr : Frame} {table : Table} {loose : Prop} {code : List Inst} {made : List (String × String)} {m : Mark}
  {t : Target Mark} {x v : Expr Mark} {xs : List (Expr Mark)} {s : Supply} {p n : Nat}
  {locals regs : Named} {heap : w.Heap}

attribute [local simp] eval evalList run stmtCode

theorem emitWith_emitted (cls : String) (xs : List (Expr Mark)) (inst : List Operand → Inst)
    (s : Supply) :
    emitWith cls xs inst s =
      { value := ()
        code := (argValues cls xs s).code ++ [inst (argValues cls xs s).value]
        reports := (argValues cls xs s).reports
        supply := (argValues cls xs s).supply } :=
  Emitted.eq rfl rfl (append_nil _) rfl

theorem emitWith_follows {inst : List Operand → Inst} (f : List Value → Eval w Value)
    (each : ∀ y ∈ xs, Done w fr table loose code y)
    (effect : ∀ vs regs (heap : w.Heap), ComputedAll xs vs →
      (inst vs).effect w fr.obj regs heap = effectOf (f (operandValues regs vs) heap) none)
    (stands : StandsAt code p (emitWith table.cls xs inst s).code) (knows : Knows table.cls fr.method s.vars)
    (holds : Holds fr locals regs) :
    Follows fr code made n
      (((evalList fr locals xs >>= f) heap).andThen locals fun _ => .rest locals) ⟨p, regs, heap⟩
      (p + (emitWith table.cls xs inst s).code.length) := by
  have tidy : Tidy (Made ⟨table, fr.method⟩ loose) s [] [] [] _ (argValues table.cls xs s) :=
    argValues_tidy (fun x member => (each x member).1.tidy) knows
  rw [emitWith_emitted] at stands ⊢
  dsimp only at stands ⊢
  rw [length_append, ← Nat.add_assoc, andThen_bind]
  refine .of_realized (argValues_realized each stands.left knows holds)
    (fun regs' keeps => (holds.keep knows keeps).sameVars) fun vs regs' heap' ⟨values, keeps⟩ => ?_
  subst values
  have holds' := holds.keep knows keeps
  refine .of_realized (inst_realized (stands.right rfl).head (effect _ regs' heap' tidy.value.2)) ?_ ?_
  · rintro _ rfl
    exact holds'.sameVars
  · rintro v _ heap'' rfl
    exact .rest holds'

/-- The code of a statement executes it, wherever it stands. -/
def Executes (w : World) (fr : Frame) (cls : String) (code : List Inst)
    (made : List (String × String)) (st : Stmt Mark) : Prop :=
  ∀ (s : Supply) (p n : Nat) (locals regs : Named) (heap : w.Heap),
    (stmtCode cls st s).reports = [] → StandsAt code p (stmtCode cls st s).code →
    Knows cls fr.method s.vars → Holds fr locals regs →
    Follows fr code made n (run fr st n locals heap) ⟨p, regs, heap⟩
      (p + (stmtCode cls st s).code.length)

theorem Executes.assign_field (missing : fr.method.var? t.name = none)
    (kind : (refOf t.mark).kind = .field ∨ (refOf t.mark).kind = .assumed)
    (value : Done w fr table loose code v) : Executes w fr table.cls code made (.assign m t v) := by
  intro s p n locals regs heap _ stands knows holds
  have hasNot : fr.hasVar t.name = false := by simp [Frame.hasVar, missing]
  have meaning : run fr (.assign m t v) n locals heap =
      ((evalList fr locals [v] >>= fun vs => Eval.perform (.putField fr.obj t.name (argAt vs 0)))
        heap).andThen locals fun _ => .rest locals := by
    have one : (evalList fr locals [v] : Eval w (List Value)) =
        eval fr locals v >>= fun a => pure [a] := by
      simp
    have member : fr.assign locals t.name = fun a (heap' : w.Heap) =>
        (Eval.perform (.putField fr.obj t.name a) heap').andThen locals fun _ => .rest locals := by
      funext a heap'
      simp [Frame.assign, hasNot]
    rw [one, bind_assoc, andThen_bind]
    simp [member, argAt]
  rw [stmtCode, assignTo_field _ _ kind] at stands ⊢
  rw [meaning]
  refine emitWith_follows _ (forall_mem_singleton.mpr value) ?_ stands knows holds
  intro vs regs heap _
  simp only [Inst.effect, operandValue_getElem?, perform_eq_effectOf]

theorem bind_unit_emitted (e : Emit α) (s : Supply) : (e >>= fun _ => pure ()) s =
      { value := (), code := (e s).code, reports := (e s).reports, supply := (e s).supply } :=
  Emitted.eq rfl (append_nil _) (append_nil _) rfl

theorem assignTo_var (cls : String) (v : Expr Mark)
    (kind : (refOf t.mark).kind = .localVar ∨ (refOf t.mark).kind = .param) :
    assignTo cls t v =
      exprValue cls (some ⟨t.name, (refOf t.mark).type⟩) v >>= fun _ => pure () := by
  rcases kind with kind | kind <;> rw [assignTo, kind]

theorem Holds.update {d : Reg} {regs' : Named} {v : Value} (noThis : fr.hasVar "this" = false)
    (holds : Holds fr locals regs) (knows : Knows table.cls fr.method s.vars) (has : fr.hasVar d.name = true)
    (value : regs' d.name = v) (keeps : Keeps s.vars (some d) regs regs') :
    Holds fr (Function.update locals d.name v) regs' := by
  have others : ∀ n, n ∈ varNames s.vars → n ≠ d.name → regs' n = regs n := by
    intro n member other
    refine keeps n member fun d' same => ?_
    obtain rfl := Option.some.inj same
    exact other
  refine ⟨fun n hasVar => ?_, fun onObject => ?_⟩
  · by_cases same : n = d.name
    · rw [same, Function.update_self, value]
    · rw [Function.update_of_ne same, others n (knows.mem hasVar) same, holds.value n hasVar]
  · have other : "this" ≠ d.name := by
      intro same
      rw [← same, noThis] at has
      cases has
    rw [others _ (knows.this onObject).mem other, holds.object onObject]

theorem newObject_or_spoiled_none (x : Expr Mark) :
    (∃ m c, x = .newObject m c) ∨ spoiled x = fun _ => none := by
  cases x with
  | newObject m c => exact .inl ⟨m, c, rfl⟩
  | _ => exact .inr rfl

theorem Executes.assign_var (noThis : fr.hasVar "this" = false) (has : fr.hasVar t.name = true)
    (kind : (refOf t.mark).kind = .localVar ∨ (refOf t.mark).kind = .param)
    (value : Done w fr table loose code v) (known : objectAssignments (.assign m t v) ⊆ made) :
    Executes w fr table.cls code made (.assign m t v) := by
  intro s p n locals regs heap _ stands knows holds
  rw [stmtCode, assignTo_var table.cls v kind, bind_unit_emitted] at stands ⊢
  have assigned : fr.assign locals t.name = fun a (heap' : w.Heap) =>
      .rest (Function.update locals t.name a) heap' := by
    funext a heap'
    simp [Frame.assign, has]
  rw [run, assigned]
  rcases newObject_or_spoiled_none v with ⟨m', c, rfl⟩ | plain
  · rw [newObject_emitted] at stands ⊢
    have written : ∀ a, Holds fr (Function.update locals t.name a)
        (Function.update regs t.name a) := fun a =>
      holds.update (d := ⟨t.name, (refOf t.mark).type⟩) noThis knows has
        (Function.update_self _ _ _) (.write _ a)
    rw [eval]
    rcases create_run fr regs heap stands.head stands.tail.head with
      ⟨a, given, run⟩ | ⟨e, regs', given, run, left⟩
    · rw [Outcome.andThen, given]
      exact .mono (Nat.le_add_left n 0) (.after run (.rest (written a)))
    · rw [Outcome.andThen, given]
      refine ⟨regs', run, ?_⟩
      rcases left with rfl | ⟨a, before, rfl, acts⟩
      · exact .inl holds.sameVars
      · exact .inr ⟨t.name, c, a, before, known (by simp [objectAssignments]), acts,
          (written a).sameVars⟩
  · have computed := value.2 (some ⟨t.name, (refOf t.mark).type⟩) s p locals regs heap stands knows
      holds
    rw [value.1.moved, plain] at computed
    refine .of_realized computed (fun regs' keeps => (holds.keep knows keeps).sameVars) ?_
    intro a regs' heap' ⟨there, keeps⟩
    exact .rest (holds.update noThis knows has there keeps)

theorem Executes.arrayAssign {i : Expr Mark}
    (named : NameFound ⟨table, fr.method⟩ t.mark t.name)
    (each : ∀ y ∈ [i, v], Done w fr table loose code y) :
    Executes w fr table.cls code made (.arrayAssign m t i v) := by
  intro s p n locals regs heap _ stands knows holds
  have meaning : run fr (.arrayAssign m t i v) n locals heap =
      ((evalList fr locals [.ident t.mark t.name, i, v] >>= fun vs =>
        Eval.perform (.store (argAt vs 0) (argAt vs 1) (argAt vs 2))) heap).andThen locals
        fun _ => .rest locals := by
    simp [argAt]
  rw [stmtCode_arrayAssign] at stands ⊢
  rw [meaning]
  refine emitWith_follows _ (forall_mem_cons.mpr ⟨⟨name_built named, .ident named⟩, each⟩) ?_
    stands knows holds
  intro vs regs heap _
  simp only [Inst.effect, operandValue_getElem?, perform_eq_effectOf]

theorem Executes.dropped (computed : Done w fr table loose code x)
    (shape : stmtCode table.cls (.expr m x) = exprValue table.cls none x >>= fun _ => pure ())
    (meaning : ∀ locals, (Meaning.evalDropped fr locals x : Eval w Value) = eval fr locals x) :
    Executes w fr table.cls code made (.expr m x) := by
  intro s p n locals regs heap _ stands knows holds
  rw [shape, bind_unit_emitted] at stands ⊢
  have plain : spoiled x none = none := by cases x <;> rfl
  have value := computed.2 none s p locals regs heap stands knows holds
  rw [plain] at value
  rw [run, meaning]
  exact .of_realized value (fun regs' keeps => (holds.keep knows keeps).sameVars)
    fun a regs' heap' ⟨_, keeps⟩ => .rest (holds.keep knows keeps)

theorem Executes.call_stmt {m' : Mark} {r : Expr Mark} {name : String} {as : List (Expr Mark)}
    {callee : Typing.Callee} (found : m'.callee = some callee)
    (static : callee.isStatic = Meaning.namesClass r)
    (each : ∀ y ∈ callOperands callee r as, Done w fr table loose code y) :
    Executes w fr table.cls code made (.expr m (.call m' r name as)) := by
  intro s p n locals regs heap _ stands knows holds
  rw [stmtCode, callStmt_eq table.cls m' found] at stands ⊢
  rw [run, Meaning.evalDropped, found]
  dsimp only
  rw [invoke_eq static]
  exact emitWith_follows _ each (fun vs regs heap => callOver_effect) stands knows holds

theorem stmtsCode_follows
    (each : ∀ st ∈ ss, BuiltStmt ⟨table, fr.method⟩ loose st ∧ Executes w fr table.cls code made st)
    (silent : (stmtsCode table.cls ss s).reports = [])
    (stands : StandsAt code p (stmtsCode table.cls ss s).code) (knows : Knows table.cls fr.method s.vars)
    (holds : Holds fr locals regs) :
    Follows fr code made n (runList fr ss n locals heap) ⟨p, regs, heap⟩
      (p + (stmtsCode table.cls ss s).code.length) := by
  induction ss generalizing s p locals regs heap with
  | nil => exact .rest holds
  | cons st rest ih =>
    obtain ⟨first, others⟩ := forall_mem_cons.mp each
    rw [stmtsCode] at silent stands ⊢
    simp only [bind_code, bind_reports] at silent stands ⊢
    obtain ⟨quiet, silent⟩ := append_eq_nil_iff.mp silent
    rw [runList, length_append, ← Nat.add_assoc]
    refine .andThen (first.2 s p n locals regs heap quiet stands.left knows holds) ?_
    intro locals' regs' heap' holds'
    exact ih others silent (stands.right rfl) (knows.mono (first.1.tidy [] s knows).more)
      holds'

theorem Executes.block
    (each : ∀ st ∈ ss, BuiltStmt ⟨table, fr.method⟩ loose st ∧ Executes w fr table.cls code made st) :
    Executes w fr table.cls code made (.block m ss) := by
  intro s p n locals regs heap silent stands knows holds
  rw [stmtCode] at silent stands ⊢
  rw [run]
  exact stmtsCode_follows each silent stands knows holds

/-! ## Conditionals and loops -/

theorem branch_reaches {obj : Value} {o : Operand} {a : Value} {target : String} {q : Nat}
    (unique : UniqueLabels code) (here : code[p]? = some (.branch (some o) target))
    (there : code[q]? = some (.label target)) (value : operandValue regs (some o) = a) :
    Reaches obj code 1 ⟨p, regs, heap⟩ [] ⟨if w.isTrue a then q else p + 1, regs, heap⟩ := by
  subst value
  split
  case isTrue holds =>
    exact .jump unique here (by rw [Inst.effect, if_pos holds]) there
  case isFalse fails =>
    exact .next here (show Inst.effect w obj regs heap _ = _ by rw [Inst.effect, if_neg fails])

theorem condition_follows {c : Expr Mark} {e : Emitted Operand} {q stop : Nat} {target : String}
    {next : Value → w.Heap → Trace w} (unique : UniqueLabels code) (cond : Done w fr table loose code c)
    (isCond : e = exprValue table.cls none c s)
    (stands : StandsAt code p (e.code ++ [.branch (some e.value) target]))
    (there : code[q]? = some (.label target)) (knows : Knows table.cls fr.method s.vars)
    (holds : Holds fr locals regs)
    (after : ∀ a regs' heap', Holds fr locals regs' → Follows fr code made n (next a heap')
      ⟨if w.isTrue a then q else p + e.code.length + 1, regs', heap'⟩ stop) :
    Follows fr code made n ((eval fr locals c heap).andThen locals next) ⟨p, regs, heap⟩ stop := by
  subst isCond
  have plain : spoiled c none = none := by cases c <;> rfl
  have run := cond.2 none s p locals regs heap stands.left knows holds
  rw [plain] at run
  refine .of_realized run (fun regs' keeps => (holds.keep knows keeps).sameVars) ?_
  intro a regs' heap' ⟨value, keeps⟩
  refine .mono (Nat.le_add_left n 1) (.later ?_ (after a regs' heap' (holds.keep knows keeps)))
  exact branch_reaches unique (stands.right rfl).head there value

theorem Trace.andThen_rest (t : Trace w) : t.andThen .rest = t := by
  rcases t with ⟨acts, progress, locals, heap⟩
  cases progress with
  | done => simp [Trace.andThen, Trace.after, Trace.rest]
  | raised e => rfl
  | unfinished => rfl

theorem Executes.andThen {e : Emitted Unit} {stop : Nat} {next : Named → w.Heap → Trace w}
    (executes : Executes w fr table.cls code made st) (isCode : e = stmtCode table.cls st s)
    (silent : e.reports = []) (stands : StandsAt code p e.code)
    (knows : Knows table.cls fr.method s.vars) (holds : Holds fr locals regs)
    (after : ∀ locals' regs' heap', Holds fr locals' regs' →
      Follows fr code made n (next locals' heap') ⟨p + e.code.length, regs', heap'⟩ stop) :
    Follows fr code made n ((run fr st n locals heap).andThen next) ⟨p, regs, heap⟩ stop := by
  subst isCode
  exact (executes s p n locals regs heap silent stands knows holds).andThen after

theorem Executes.ifElse {c : Expr Mark} {yes no : Stmt Mark} (unique : UniqueLabels code)
    (cond : Done w fr table loose code c) (first : Executes w fr table.cls code made yes)
    (built : BuiltStmt ⟨table, fr.method⟩ loose no) (second : Executes w fr table.cls code made no) :
    Executes w fr table.cls code made (.ifElse m c yes no) := by
  intro s p n locals regs heap silent stands knows holds
  obtain ⟨condCode, isCond⟩ : ∃ e, e = exprValue table.cls none c { s with labels := s.labels + 1 } :=
    ⟨_, rfl⟩
  obtain ⟨noCode, isNo⟩ : ∃ e, e = stmtCode table.cls no condCode.supply := ⟨_, rfl⟩
  obtain ⟨yesCode, isYes⟩ : ∃ e, e = stmtCode table.cls yes noCode.supply := ⟨_, rfl⟩
  rw [stmtCode_ifElse table.cls m c yes no s isCond isNo isYes] at silent stands ⊢
  dsimp only at silent stands ⊢
  obtain ⟨quietNo, quietYes⟩ := append_eq_nil_iff.mp (append_eq_nil_iff.mp silent).2
  have knowsNo : Knows table.cls fr.method condCode.supply.vars := by
    rw [isCond]
    exact knows.mono (cond.1.tidy [] none { s with labels := s.labels + 1 } knows (by simp)).more
  have knowsYes : Knows table.cls fr.method noCode.supply.vars := by
    rw [isNo]
    exact knowsNo.mono (built.tidy [] condCode.supply knowsNo).more
  -- The places of the branches, of the jump over the second, and of the labels.
  have behind := stands.right rfl
  have noAt := (behind.right rfl).left
  have jumpAt := ((behind.right rfl).right rfl).left
  have yesAt := (((behind.right rfl).right rfl).right rfl).left
  have endAt := ((((behind.right rfl).right rfl).right rfl).right rfl).head
  have upToBranch := stands
  rw [← append_assoc] at upToBranch
  have total : ∀ a b c d : Inst, p + (condCode.code ++ ([a] ++ (noCode.code ++ ([b, c] ++
      (yesCode.code ++ [d]))))).length =
      p + condCode.code.length + 1 + noCode.code.length + 2 + yesCode.code.length + 1 := by
    intro a b c d
    simp only [length_append, length_cons, length_nil]
    omega
  rw [total, run]
  refine condition_follows unique cond isCond upToBranch.left jumpAt.tail.head knows holds ?_
  intro a regs' heap' holds'
  cases w.isTrue a with
  | true =>
    simp only [if_true]
    rw [← Trace.andThen_rest (run fr yes n locals heap')]
    refine .mono (Nat.le_add_left n 1) (.later (.label jumpAt.tail.head) ?_)
    refine first.andThen isYes quietYes yesAt knowsYes holds' fun locals' regs'' heap'' last => ?_
    exact .mono (Nat.le_add_left n 1) (.later (.label endAt) (.rest last))
  | false =>
    simp only [Bool.false_eq_true, if_false]
    rw [← Trace.andThen_rest (run fr no n locals heap')]
    refine second.andThen isNo quietNo noAt knowsNo holds' fun locals' regs'' heap'' last => ?_
    refine .mono (Nat.le_add_left n 1) (.later (.jump unique jumpAt.head rfl endAt) ?_)
    exact .mono (Nat.le_add_left n 1) (.later (.label endAt) (.rest last))

theorem Executes.while {c : Expr Mark} {b : Stmt Mark} (unique : UniqueLabels code)
    (cond : Done w fr table loose code c) (built : BuiltStmt ⟨table, fr.method⟩ loose b)
    (body : Executes w fr table.cls code made b) :
    Executes w fr table.cls code made (.while m c b) := by
  intro s p n locals regs heap silent stands knows holds
  obtain ⟨bodyCode, isBody⟩ : ∃ e, e = stmtCode table.cls b { s with labels := s.labels + 1 } := ⟨_, rfl⟩
  obtain ⟨condCode, isCond⟩ : ∃ e, e = exprValue table.cls none c bodyCode.supply := ⟨_, rfl⟩
  rw [stmtCode_while table.cls m c b s isBody isCond] at silent stands ⊢
  dsimp only at silent stands ⊢
  have quietBody := (append_eq_nil_iff.mp silent).1
  have knowsCond : Knows table.cls fr.method bodyCode.supply.vars := by
    rw [isBody]
    exact knows.mono (built.tidy [] { s with labels := s.labels + 1 } knows).more
  have behind := stands.right rfl
  have bodyAt := behind.left
  have labelAt := (behind.right rfl).left.head
  have condAt := (behind.right rfl).right rfl
  have total : ∀ a b c d : Inst, p + ([a, b] ++ (bodyCode.code ++ ([c] ++
      (condCode.code ++ [d])))).length =
      p + 2 + bodyCode.code.length + 1 + condCode.code.length + 1 := by
    intro a b c d
    simp only [length_append, length_cons, length_nil]
    omega
  rw [total, run]
  have rounds : ∀ n locals regs (heap : w.Heap), Holds fr locals regs →
      Follows fr code made n (Meaning.loop (fun locals => eval fr locals c) (run fr b) n locals heap)
        ⟨p + 2 + bodyCode.code.length, regs, heap⟩
        (p + 2 + bodyCode.code.length + 1 + condCode.code.length + 1) := by
    intro n
    induction n with
    | zero =>
      intro locals regs heap _
      exact ⟨_, .refl _⟩
    | succ n ih =>
      intro locals regs heap holds
      rw [Meaning.loop]
      -- The step over the label is the one that this round adds.
      refine .mono (Nat.le_of_eq (Nat.add_comm n 1)) (.later (.label labelAt) ?_)
      refine condition_follows unique cond isCond condAt stands.left.tail.head knowsCond holds ?_
      intro a regs' heap' holds'
      cases w.isTrue a with
      | true =>
        simp only [if_true]
        refine .mono (Nat.le_add_left n 1) (.later (.label stands.left.tail.head) ?_)
        exact body.andThen isBody quietBody bodyAt knows holds' fun locals' regs'' heap'' last =>
          ih locals' regs'' heap'' last
      | false =>
        simp only [Bool.false_eq_true, if_false]
        exact .rest holds'
  exact .mono (Nat.le_add_left n 1) (.later (.jump unique stands.left.head rfl labelAt)
    (rounds n locals regs heap holds))

/-! ## Every statement -/

theorem Runnable.executes (unique : UniqueLabels code)
    (noThis : fr.hasVar "this" = false) (runnable : Runnable ⟨table, fr.method⟩ loose st)
    (known : objectAssignments st ⊆ made) : Executes w fr table.cls code made st := by
  induction runnable with
  | block each ih =>
    rw [objectAssignments] at known
    exact .block fun st member => ⟨(each st member).built,
      ih st member (List.Subset.trans (objectAssignments_subset member) known)⟩
  | ifElse cond _ yes no ihy ihn =>
    rw [objectAssignments, append_subset] at known
    exact .ifElse unique (cond.done unique) (ihy known.1) no.built (ihn known.2)
  | «while» cond _ body ih =>
    rw [objectAssignments] at known
    exact .while unique (cond.done unique) body.built (ih known)
  | assign named value =>
    rcases named.place with ⟨v, found, kind, _⟩ | ⟨missing, kind⟩
    · exact .assign_var noThis (by simp [Frame.hasVar, found]) kind (value.done unique) known
    · exact .assign_field missing kind (value.done unique)
  | assignVoid _ assumed calling isMethod void =>
    -- A void call whose value is assigned is reported.
    intro s p n locals regs heap silent
    rw [stmtCode_assignVoid _ assumed calling isMethod void] at silent
    simp [voidCall, Emit.complain] at silent
  | arrayAssign named _ index _ value =>
    exact .arrayAssign named (.pair (index.done unique) (value.done unique))
  | call calling =>
    exact .call_stmt calling.found.found calling.fits.static (forall_callOperands
      (fun object => (calling.recv object).done unique)
      fun x member => (calling.args x member).done unique)
  | @expr p x noCall value =>
    cases x with
    | call m r name as => exact absurd rfl (noCall m r name as)
    | _ => exact .dropped (value.done unique) (by simp) fun _ => rfl

end Statements

end JavaMinus.Code
