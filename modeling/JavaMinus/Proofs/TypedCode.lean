import JavaMinus.Proofs.SelectedLines
import JavaMinus.Proofs.WellMadeMethods

/-!
# Types in emitted code

Every instruction of every method of an accepted file is typed, and what else is known of made
instructions holds of it (`Accepted.lowered`).

**Receivers** (`classCode_receivers_are_references`). The receiver of a call on an object is
a reference if the type of every receiver in the tree is known. The checker accepts calls on
receivers of unknown type as well, and these are held in registers for integers
(`receiver_held_as_integer`).
-/

namespace JavaMinus.Code

open List

open Syntax (File parse)
open Typing (Mark Scope typeOf analyze)

/-! ## Methods -/

section

variable {s : Scope} {loose : Prop} {m : Syntax.Method Mark}

/-- **The code of a runnable method** is as it has to be. -/
theorem methodCode_lowered (runnable : RunnableMethod s loose m) :
    ∀ inst ∈ (methodCode s.table.cls s.method m).value.code,
      Lowered (fieldType? s.table) s.method.isStatic s.method.ret loose inst := by
  have body := bodyValue_tidy runnable
  rw [(methodCode_body runnable rfl).2.1]
  generalize bodyValue s.table.cls m { vars := declaredVars s.table.cls s.method } = made at body
  refine forall_mem_append.mpr ⟨fun inst member => (body.proper inst member).made.lowered,
    forall_mem_singleton.mpr ?_⟩
  cases returned : made.value with
  | none =>
    exact .of_plain rfl trivial (by simp [returnInst, Inst.operands])
  | some v =>
    obtain ⟨_, x, given, computed⟩ := body.value.2 v returned
    exact .of_one rfl ⟨v, rfl, computed.alike (runnable.result x given).2⟩ computed rfl

theorem constructorCode_lowered (field? : String → Option Ty) (cls super : String) :
    ∀ inst ∈ (constructorCode cls super).code, Lowered field? false .void loose inst := by
  refine forall_mem_cons.mpr ⟨lowered_constructorCall rfl, forall_mem_singleton.mpr ?_⟩
  exact .of_plain rfl trivial (by simp [Inst.operands])

end

/-! ## Classes -/

/-- The declared type of a field. -/
def Class.fieldType? (c : Class) (name : String) : Option Ty := (c.field? name).map (·.type)

theorem fieldType?_classCode (a : Typing.Analysis) :
    (classCode a).value.fieldType? = Code.fieldType? a.table := by
  funext name
  simp only [Class.fieldType?, Class.field?, classCode, Logged.value_bind, Logged.value_pure,
    Code.fieldType?, Table.field?, List.find?_map, Option.map_map]
  rfl

/-- **Accepted files.** The code of every method is as it has to be. -/
theorem Accepted.lowered {bytes : List UInt8} {f : File Pos} {loose : Prop}
    (accepted : Accepted bytes f) (fits : ReceiversFit loose (analysisOf f).file.receivers) :
    ∀ m ∈ (classCode (analysisOf f)).value.methods, ∀ inst ∈ m.code,
      Lowered (classCode (analysisOf f)).value.fieldType? m.isStatic m.ret loose inst := by
  rw [fieldType?_classCode]
  refine accepted.forall_methods (constructorCode_lowered _ _ _) fun i d declared => ?_
  exact methodCode_lowered (accepted.runnable_of_fits declared fits)

/-! ## Receivers -/

theorem load_of_isRef {r : Operand} (ref : r.type.isRef = true)
    (words : ∀ v t, r = .imm v t → t.isWord = true) {fr : Assembly.Frame}
    {lines : List Assembly.Instr} (loaded : fr.load (some r) = .ok lines) :
    ∃ k, lines = [.load .ref k] := by
  cases r with
  | imm v t =>
    have noRef : (Operand.imm v t).type.isRef = false := Ty.isRef_of_isWord (words v t rfl)
    rw [noRef] at ref
    cases ref
  | reg r =>
    obtain ⟨k, _, done⟩ := Assembly.ok_of_bind loaded
    cases done
    have isRef : Assembly.categoryOf r.type = .ref := if_pos ref
    exact ⟨k, by rw [isRef]⟩

/-- **Receivers are references.** For a text that is read, whose table is built and whose tree is
checked without errors, every call on an object has a receiver. It is a reference, or else it is
the integer that stands for a receiver of which not even the class is known. If the type of every
receiver in the tree is known, it is a reference, and is pushed as one. -/
theorem classCode_receivers_are_references {bytes : List UInt8} {f : File Pos}
    (read : parse bytes = .ok f) (built : hasErrors (buildTable f).reports = false)
    (analysed : hasErrors (analyze (buildTable f).value f).reports = false) :
    ∀ m ∈ (classCode (analyze (buildTable f).value f).value).value.methods, ∀ c, .call c ∈ m.code →
      c.kind = .virtual ∨ c.kind = .special → ∃ r, c.recv = some r ∧
        (r.type.isRef = true ∨ c.kind = .virtual ∧ c.owner = "" ∧ r.type = .int) ∧
        ((∀ x ∈ (analyze (buildTable f).value f).value.file.receivers,
            (typeOf x).isUnknown = false) →
          r.type.isRef = true ∧ ∀ (fr : Assembly.Frame) lines, fr.load (some r) = .ok lines →
            ∃ k, lines = [.load .ref k]) := by
  have accepted : Accepted bytes f := ⟨read, built, analysed⟩
  intro m member c isCall kind
  have onObject : c.kind ≠ .static := by rcases kind with kind | kind <;> simp [kind]
  have anything : ReceiversFit True (analysisOf f).file.receivers := fun _ _ _ => trivial
  have lowered := accepted.lowered anything m member _ isCall
  obtain ⟨r, isRecv, typed⟩ := lowered.receiver c rfl onObject
  refine ⟨r, isRecv, typed.imp_right And.right, fun known => ?_⟩
  have strict : ReceiversFit False (analysisOf f).file.receivers :=
    fun x listed unknown => by rw [known x listed] at unknown; cases unknown
  obtain ⟨r', isRecv', typed'⟩ := (accepted.lowered strict m member _ isCall).receiver c rfl onObject
  obtain rfl : r' = r := Option.some.inj (isRecv'.symm.trans isRecv)
  have ref : r'.type.isRef = true := typed'.resolve_right fun never => never.1
  refine ⟨ref, fun fr lines loaded => load_of_isRef ref (fun v t same => ?_) loaded⟩
  refine lowered.words v t ?_
  rw [← same, ← isRecv]
  exact mem_cons_self

/-- The text of a class that calls methods of an imported class on receivers of known type. -/
def callingText : List UInt8 :=
  ("import B;class A\x7bint[] xs;B b;public boolean f(A a,int k)\x7bB c;int n;c=new B();n=2*3;" ++
    "xs=new int[b.size()+n];xs[n]=b.g(this,!c.h())+xs.length;" ++
    "if(a.f(this,xs[0])&&n<k)\x7bb=c;\x7delse\x7bb.i();\x7dreturn c.j();\x7d\x7d").toUTF8.toList

theorem exists_calling : ∃ f, parse callingText = .ok f ∧ hasErrors (buildTable f).reports = false ∧
    hasErrors (analyze (buildTable f).value f).reports = false ∧
    ∀ x ∈ (analyze (buildTable f).value f).value.file.receivers, (typeOf x).isUnknown = false := by
  obtain ⟨f, read, checked⟩ := exists_read callingText
    (fun f => passes f && (analyze (buildTable f).value f).value.file.receivers.all
      fun x => !(typeOf x).isUnknown) (by decide +kernel)
  rw [Bool.and_eq_true, all_eq_true] at checked
  obtain ⟨built, analysed, _⟩ := passes_iff.mp checked.1
  exact ⟨f, read, built, analysed, fun x listed => by simpa using checked.2 x listed⟩

theorem classCode_receivers_of_calling_text : ∃ f, parse callingText = .ok f ∧
    hasErrors (buildTable f).reports = false ∧
    hasErrors (analyze (buildTable f).value f).reports = false ∧
    (∀ x ∈ (analyze (buildTable f).value f).value.file.receivers, (typeOf x).isUnknown = false) ∧
    ∀ m ∈ (classCode (analyze (buildTable f).value f).value).value.methods, ∀ c, .call c ∈ m.code →
      c.kind = .virtual ∨ c.kind = .special → ∃ r, c.recv = some r ∧ r.type.isRef = true := by
  obtain ⟨f, read, built, analysed, known⟩ := exists_calling
  refine ⟨f, read, built, analysed, known, fun m member c isCall kind => ?_⟩
  obtain ⟨r, isRecv, _, strict⟩ :=
    classCode_receivers_are_references read built analysed m member c isCall kind
  exact ⟨r, isRecv, (strict known).1⟩

/-- The text of a class that calls a method on the result of a method of an imported class. -/
def chainedText : List UInt8 :=
  "import B;class A\x7bpublic int f()\x7bB b;b=new B();b.g().h();return 0;\x7d\x7d".toUTF8.toList

/-- A text for which code is made without reports, with a call on an integer. -/
theorem receiver_held_as_integer : ∃ f, parse chainedText = .ok f ∧
    hasErrors (buildTable f).reports = false ∧
    hasErrors (analyze (buildTable f).value f).reports = false ∧
    (classCode (analyze (buildTable f).value f).value).reports = [] ∧
    ∃ m ∈ (classCode (analyze (buildTable f).value f).value).value.methods,
      .call ⟨.virtual, none, "", some (.reg ⟨"t0", .int⟩), "h", [], [], .void⟩ ∈ m.code := by
  obtain ⟨f, read, checked⟩ := exists_read chainedText
    (fun f => passes f && decide (∃ m ∈ (classCode (analyze (buildTable f).value f).value).value.methods,
      .call ⟨.virtual, none, "", some (.reg ⟨"t0", .int⟩), "h", [], [], .void⟩ ∈ m.code))
    (by decide +kernel)
  rw [Bool.and_eq_true, decide_eq_true_eq] at checked
  obtain ⟨built, analysed, silent⟩ := passes_iff.mp checked.1
  exact ⟨f, read, built, analysed, silent, checked.2⟩

end JavaMinus.Code
