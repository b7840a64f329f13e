import JavaMinus.Proofs.AcceptedFiles
import JavaMinus.Proofs.StatementCode

/-!
# The code of a method behaves as its body

A source text that is read, checked and turned into code without errors has code for
each of its methods, and that code does what the body of the method does. In every
world, and from all values of the variables, both do the same actions in the same
order. If one ends, the other ends in the same way, with the same heap, and with the
same values in the variables (`RunsBody`).

**One exception.** In `x = new C()` the object is put into the variable `x` before the
constructor is called. If the constructor fails, the code leaves the object in `x`,
where the body leaves the value that `x` had before
(`failed_constructor_leaves_object`).

**Main result.** `classCode_runs_bodies` follows a text through all stages.
-/

namespace JavaMinus.Code

open List

open Syntax (Expr Stmt File parse)
open Typing (Mark analyze)
open Meaning (Frame Eval Outcome Trace eval run runList bodyBehaviour returned)

/-! ## The end of a body -/

section

variable {w : World} {fr : Frame} {t : Table} {loose : Prop} {code : List Inst} {s : Supply} {p : Nat}
  {locals regs : Named} {heap : w.Heap} {m : Syntax.Method Mark}

theorem returned_regs (fr : Frame) (result : Option (Expr Mark)) (locals : Named) (heap : w.Heap) :
    (returned fr result locals heap).2.regs = locals := by
  cases result <;> rfl

theorem returnCode_halts (heap : w.Heap) (unique : UniqueLabels code)
    (runnable : RunnableMethod ⟨t, fr.method⟩ loose m)
    (stands : StandsAt code p (returnCode t.cls fr.method.ret m.result s).code)
    (knows : Knows t.cls fr.method s.vars) (holds : Holds fr locals regs) :
    ∃ regs', Halts fr.obj code ⟨p, regs, heap⟩ (returned fr m.result locals heap).1
        ⟨(returned fr m.result locals heap).2.ending, regs',
          (returned fr m.result locals heap).2.heap⟩ ∧
      SameVars fr locals regs' := by
  have returns := runnable.returns
  cases given : m.result with
  | none =>
    rw [given] at stands
    exact ⟨regs, .ret stands.head rfl, holds.sameVars⟩
  | some x =>
    have valued : fr.method.ret.isVoid = false := by simpa [given] using returns
    simp only [given, returnCode, valued, Bool.false_eq_true, if_false] at stands
    simp only [bind_code, emit_emitted] at stands
    have plain : spoiled x none = none := by cases x <;> rfl
    have value := (runnable.result x given).1.computes unique none s p locals regs heap stands.left
      knows holds
    rw [plain] at value
    rw [returned]
    generalize eval fr locals x heap = o at value
    rcases o with ⟨acts, e | v, heap'⟩
    · obtain ⟨regs', run, keeps⟩ := value
      exact ⟨regs', run, (holds.keep knows keeps).sameVars⟩
    · obtain ⟨regs', run, there, keeps⟩ := value
      refine ⟨regs', ?_, (holds.keep knows keeps).sameVars⟩
      have last : Halts fr.obj code ⟨_, regs', heap'⟩ [] ⟨.returned (some v), regs', heap'⟩ :=
        .ret (stands.right rfl).head (by rw [Inst.effect, there])
      simpa using run.halts last

/-- How a run of the code may end where the body ends: in the same way, with the same heap and
the same values in the variables, unless one of the given objects is left behind by a
constructor that failed. -/
structure EndsAlike (fr : Frame) (made : List (String × String)) (acts : List Action)
    (e e' : Halt w Named) : Prop where
  ending : e'.ending = e.ending
  heap : e'.heap = e.heap
  vars : SameVars fr e.regs e'.regs ∨
    (∃ f, e.ending = .failed f) ∧ ObjectLeft fr made acts e.regs e'.regs

theorem body_milestone {first last : Emitted Unit} (unique : UniqueLabels code)
    (noThis : fr.hasVar "this" = false) (runnable : RunnableMethod ⟨t, fr.method⟩ loose m)
    (isFirst : first = stmtsCode t.cls m.body s)
    (isLast : last = returnCode t.cls fr.method.ret m.result first.supply)
    (silent : first.reports ++ last.reports = [])
    (stands : StandsAt code 0 (first.code ++ last.code)) (knows : Knows t.cls fr.method s.vars)
    (holds : Holds fr locals regs) (n : Nat) :
    (∃ k e e', (bodyBehaviour fr m locals heap n).2 = some e ∧
      walk (step w fr.obj named code) k ⟨0, regs, heap⟩ =
        ((bodyBehaviour fr m locals heap n).1, .inr e') ∧
      EndsAlike fr (objectAssignmentsList m.body) (bodyBehaviour fr m locals heap n).1 e e') ∨
    (∃ k c, n ≤ k ∧ (bodyBehaviour fr m locals heap n).2 = none ∧
      walk (step w fr.obj named code) k ⟨0, regs, heap⟩ =
        ((bodyBehaviour fr m locals heap n).1, .inl c)) := by
  have quiet := (append_eq_nil_iff.mp silent).1
  have more : s.vars <+: first.supply.vars := by
    rw [isFirst]
    have tidy : Tidy (Made ⟨t, fr.method⟩ loose) s [] [] _ _ (stmtsCode t.cls m.body s) :=
      stmtsCode_tidy (fun x member => (runnable.body x member).tidy) knows
    exact tidy.more
  have body : Follows fr code (objectAssignmentsList m.body) n (runList fr m.body n locals heap)
      ⟨0, regs, heap⟩ (0 + first.code.length) := by
    subst isFirst
    exact stmtsCode_follows (fun st member => ⟨(runnable.body st member).built,
      (runnable.body st member).executes unique noThis (objectAssignments_subset member)⟩) quiet
      stands.left knows holds
  unfold bodyBehaviour
  generalize runList fr m.body n locals heap = trace at body
  rcases trace with ⟨acts, progress, locals', heap'⟩
  cases progress with
  | done =>
    obtain ⟨regs', run, holds'⟩ := body
    subst isLast
    obtain ⟨regs'', last, same⟩ := returnCode_halts heap' unique runnable (stands.right rfl)
      (knows.mono more) holds'
    obtain ⟨k, halted⟩ := run.halts last
    refine .inl ⟨k, _, _, rfl, halted, rfl, rfl, .inl ?_⟩
    rwa [returned_regs]
  | raised e =>
    obtain ⟨regs', ⟨k, run⟩, left⟩ := body
    exact .inl ⟨k, _, _, rfl, run, rfl, rfl, left.imp_right fun left => ⟨⟨e, rfl⟩, left⟩⟩
  | unfinished =>
    obtain ⟨c, k, enough, run⟩ := body
    exact .inr ⟨k, c, enough, rfl, run⟩

theorem methodCode_matches (noThis : fr.hasVar "this" = false)
    (runnable : RunnableMethod ⟨t, fr.method⟩ loose m)
    (silent : (methodCode t.cls fr.method m).reports = []) (holds : Holds fr locals regs) :
    (bodyBehaviour fr m locals heap).Matches (EndsAlike fr (objectAssignmentsList m.body))
      (behaviour (step w fr.obj named (methodCode t.cls fr.method m).value.code) id
        ⟨0, regs, heap⟩) :=
  matches_of_milestones (body_milestone (uniqueLabels_methodCode runnable) noThis runnable
    rfl rfl silent (.whole _) (knows_declaredVars t.cls fr.method) holds)

end

/-! ## Every method of a source text -/

/-- The code does what the body of the method does: in every world, called on any object, and
from all values of the variables. Only the given objects may be left behind. -/
def RunsBody (s : MethodSymbol) (body : Syntax.Method Mark) (made : List (String × String))
    (code : List Inst) : Prop :=
  ∀ (w : World) (obj : Value) (locals regs : Named) (heap : w.Heap), Holds ⟨s, obj⟩ locals regs →
    (bodyBehaviour ⟨s, obj⟩ body locals heap).Matches (EndsAlike ⟨s, obj⟩ made)
      (behaviour (step w obj named code) id ⟨0, regs, heap⟩)

theorem this_not_var {i : Nat} {d : Syntax.Method Pos} (wellRead : Syntax.WellRead d) :
    (methodSymbol i d).value.var? "this" = none := by
  refine Option.eq_none_iff_forall_ne_some.mpr fun v found => ?_
  obtain ⟨decl, member, _, named⟩ := var?_declared found
  refine wellRead.names decl member ?_
  rw [named]
  decide

/-- **Making code preserves meaning.** Where a source text is read, where its table is built
and its tree is checked without errors, and code is made without reports, every method has
its tree, with marks added, and code that does what the tree says. -/
theorem classCode_runs_bodies {bytes : List UInt8} {f : File Pos} {i : Nat}
    {d : Syntax.Method Pos} (read : parse bytes = .ok f)
    (built : hasErrors (buildTable f).reports = false)
    (analysed : hasErrors (analyze (buildTable f).value f).reports = false)
    (silent : (classCode (analyze (buildTable f).value f).value).reports = [])
    (declared : f.cls.methods[i]? = some d) :
    ∃ s body made, (buildTable f).value.methods[i]? = some s ∧
      (analyze (buildTable f).value f).value.file.cls.methods[i]? = some body ∧
      body.map (fun _ => ()) = d.map (fun _ => ()) ∧
      (classCode (analyze (buildTable f).value f).value).value.methods[i + 1]? = some made ∧
      RunsBody s body (objectAssignmentsList body.body) made.code := by
  have accepted : Accepted bytes f := ⟨read, built, analysed⟩
  have checked := (analyze_methods built analysed declared).2
  obtain ⟨quiet, coded⟩ := classCode_methods built analysed silent declared rfl rfl
  have wellRead := Syntax.parse_wellRead read d (mem_of_getElem? declared)
  refine ⟨_, _, _, getElem?_methods built declared, checked, Typing.erase_checkMethod d, coded, ?_⟩
  intro w obj locals regs heap holds
  exact methodCode_matches (by simp [Frame.hasVar, this_not_var wellRead])
    (accepted.runnable declared) quiet holds

/-- The text of a class with a loop, a conditional, `&&`, a field and calls. -/
def busyText : List UInt8 :=
  ("class A\x7bint n;public int f(int k)\x7bA a;boolean b;a=new A();b=true&&k<3;" ++
    "while(b)\x7bk=k+a.f(k*2);n=k;b=k<10&&!b;\x7dif(b)\x7bn=1;\x7delse\x7bn=2;\x7dreturn n-1;\x7d\x7d").toUTF8.toList

/-- A file passes all stages after reading without errors. -/
def passes (f : File Pos) : Bool :=
  !hasErrors (buildTable f).reports && !hasErrors (analyze (buildTable f).value f).reports &&
    (classCode (analyze (buildTable f).value f).value).reports.isEmpty

theorem passes_iff {f : File Pos} : passes f = true ↔ hasErrors (buildTable f).reports = false ∧
    hasErrors (analyze (buildTable f).value f).reports = false ∧
    (classCode (analyze (buildTable f).value f).value).reports = [] := by
  simp [passes, and_assoc]

theorem classCode_runs_busy_body : ∃ f d, parse busyText = .ok f ∧
    hasErrors (buildTable f).reports = false ∧
    hasErrors (analyze (buildTable f).value f).reports = false ∧
    (classCode (analyze (buildTable f).value f).value).reports = [] ∧
    f.cls.methods[0]? = some d ∧
    ∃ s body made, (buildTable f).value.methods[0]? = some s ∧
      (analyze (buildTable f).value f).value.file.cls.methods[0]? = some body ∧
      body.map (fun _ => ()) = d.map (fun _ => ()) ∧
      (classCode (analyze (buildTable f).value f).value).value.methods[0 + 1]? = some made ∧
      RunsBody s body (objectAssignmentsList body.body) made.code := by
  obtain ⟨f, read, checked⟩ := exists_read busyText
    (fun f => passes f && f.cls.methods[0]?.isSome) (by decide +kernel)
  simp only [Bool.and_eq_true, passes_iff] at checked
  obtain ⟨⟨built, analysed, silent⟩, some⟩ := checked
  obtain ⟨d, declared⟩ := Option.isSome_iff_exists.mp some
  exact ⟨f, d, read, built, analysed, silent, declared,
    classCode_runs_bodies read built analysed silent declared⟩

/-! ## A constructor that fails -/

/-- The text of a method that makes an object. -/
def makingText : List UInt8 :=
  "class A\x7bpublic int f()\x7bA x;x=new A();return 0;\x7d\x7d".toUTF8.toList

/-- A world in which objects can be allocated, and every call fails. -/
def failingWorld : World where
  Heap := Unit
  Failure := Unit
  divisionByZero := ()
  numberOf := fun _ => 0
  compute := fun _ _ => .num 0
  field := fun _ _ _ => .num 0
  perform := fun a _ =>
    match a with
    | .new _ => (.ok (.ref 1), ())
    | _ => (.error (), ())

/-- In that world, when all variables are 0 at the start, `x` is 0 where the body ends, and
the object where the code ends. -/
def leavesObject (s : MethodSymbol) (body : Syntax.Method Mark) (code : List Inst) : Bool :=
  Frame.hasVar ⟨s, .num 0⟩ "x" && ((bodyBehaviour ⟨s, .num 0⟩ body (fun _ => .num 0) () 0 :
        List Action × Option (Halt failingWorld Named)).2.any fun e => e.regs "x" = .num 0) &&
    ((behaviour (step failingWorld (.num 0) named code) id ⟨0, fun _ => .num 0, ()⟩ 2).2.any
      fun e => e.regs "x" = .ref 1)

theorem not_runsBody_of_leavesObject {s : MethodSymbol} {body : Syntax.Method Mark}
    {code : List Inst} (leaves : leavesObject s body code = true) : ¬ RunsBody s body [] code := by
  intro runs
  simp only [leavesObject, Bool.and_eq_true, Option.any_eq_true, decide_eq_true_eq] at leaves
  obtain ⟨⟨has, e, ends, before⟩, e', ends', after⟩ := leaves
  have alike := runs failingWorld (.num 0) (fun _ => .num 0) (fun _ => .num 0) ()
    ⟨fun _ _ => rfl, fun _ => rfl⟩
  obtain ⟨last, ⟨n, seen⟩, like⟩ := alike.forth _ e ⟨0, Prod.ext rfl ends⟩
  obtain rfl := behaviour_end_unique ends' (congrArg Prod.snd seen)
  rcases like.vars with same | ⟨_, x, c, v, _, member, _⟩
  · have equal := same "x" has
    rw [before, after] at equal
    cases equal
  · cases member

/-- The object that is made stays in its variable when its constructor fails, so the variables
are not always the same at the end. -/
theorem failed_constructor_leaves_object : ∃ f d s body made, parse makingText = .ok f ∧
    hasErrors (buildTable f).reports = false ∧
    hasErrors (analyze (buildTable f).value f).reports = false ∧
    (classCode (analyze (buildTable f).value f).value).reports = [] ∧
    f.cls.methods[0]? = some d ∧ (buildTable f).value.methods[0]? = some s ∧
    (analyze (buildTable f).value f).value.file.cls.methods[0]? = some body ∧
    (classCode (analyze (buildTable f).value f).value).value.methods[1]? = some made ∧
    ¬ RunsBody s body [] made.code := by
  obtain ⟨f, read, checked⟩ := exists_read makingText (fun f => passes f &&
    f.cls.methods[0]?.any fun d =>
      let s := (methodSymbol 0 d).value
      let body := (Typing.checkMethod ⟨(buildTable f).value, s⟩ d).value
      leavesObject s body (methodCode (buildTable f).value.cls s body).value.code)
    (by decide +kernel)
  simp only [Bool.and_eq_true, passes_iff, Option.any_eq_true] at checked
  obtain ⟨⟨built, analysed, silent⟩, d, declared, leaves⟩ := checked
  exact ⟨f, d, _, _, _, read, built, analysed, silent, declared, getElem?_methods built declared,
    (analyze_methods built analysed declared).2,
    (classCode_methods built analysed silent declared rfl rfl).2,
    not_runsBody_of_leavesObject leaves⟩

end JavaMinus.Code
