import JavaMinus.Proofs.MethodCode

/-!
# Accepted programs have code

The methods of an accepted file are runnable, so code is made for the whole class.

**What is reported.** Making code for an accepted file reports the void calls that are
assigned to members of an imported superclass, one error for each, and nothing else
(`classCode_reports_assigned_voids`). Such an assignment passes the checker, because a member
that is only assumed has an unknown type and takes any value
(`void_call_assigned_to_assumed_member`).
-/

namespace JavaMinus.Code

open List

open Syntax (Expr Stmt File parse)
open Typing (Mark Scope analyze checkMethod)

/-! ## Reports of a method -/

section

variable {sc : Scope} {loose : Prop} {m : Syntax.Method Mark}

theorem methodCode_reports (runnable : RunnableMethod sc loose m) :
    (methodCode sc.table.cls sc.method m).reports = (assignedVoidsList m.body).map voidReport := by
  rw [(methodCode_body runnable rfl).2.2, (bodyValue_tidy runnable).reports]

theorem areComputable_of_forall {xs : List (Expr Mark)} (each : ∀ x ∈ xs, isComputable x = true) :
    areComputable xs = true := by
  induction xs with
  | nil => rfl
  | cons x rest ih =>
    obtain ⟨first, others⟩ := forall_mem_cons.mp each
    rw [areComputable, first, ih others]
    rfl

theorem areExecutable_of_forall {xs : List (Stmt Mark)} (each : ∀ x ∈ xs, isExecutable x = true) :
    areExecutable xs = true := by
  induction xs with
  | nil => rfl
  | cons x rest ih =>
    obtain ⟨first, others⟩ := forall_mem_cons.mp each
    rw [areExecutable, first, ih others]
    rfl

theorem isComputable_call {c : Mark} {recv : Expr Mark} {name : String} {as : List (Expr Mark)}
    {callee : Typing.Callee} (found : CallFound c as callee)
    (onObject : callee.isStatic = false → isComputable recv = true)
    (args : ∀ x ∈ as, isComputable x = true) : isComputable (.call c recv name as) = true := by
  rw [isComputable, found.found]
  cases isStatic : callee.isStatic with
  | true => simp [isStatic, areComputable_of_forall args]
  | false => simp [isStatic, onObject isStatic, areComputable_of_forall args]

theorem Valued.isComputable {x : Expr Mark} (valued : Valued sc loose x) :
    Code.isComputable x = true := by
  induction valued with
  | int | bool | this | ident | newObject => rfl
  | binary _ _ _ _ _ _ left right => rw [Code.isComputable, left, right]; rfl
  | not _ _ _ inner => rwa [Code.isComputable]
  | index _ _ _ _ _ _ array index => rw [Code.isComputable, array, index]; rfl
  | length _ _ _ array | newArray _ _ _ len => rwa [Code.isComputable]
  | call found _ _ _ _ recv args => exact isComputable_call found recv args

theorem Calling.isComputable {c : Mark} {recv : Expr Mark} {name : String} {as : List (Expr Mark)}
    {callee : Typing.Callee} (calling : Calling sc loose c recv as callee) :
    Code.isComputable (.call c recv name as) = true :=
  isComputable_call calling.found (fun object => (calling.recv object).isComputable)
    fun x member => (calling.args x member).isComputable

theorem Runnable.isExecutable {x : Stmt Mark} (runnable : Runnable sc loose x) :
    Code.isExecutable x = true := by
  induction runnable with
  | block _ each => exact areExecutable_of_forall each
  | ifElse cond _ _ _ yes no => rw [Code.isExecutable, cond.isComputable, yes, no]; rfl
  | «while» cond _ _ body => rw [Code.isExecutable, cond.isComputable, body]; rfl
  | assign _ value => exact value.isComputable
  | assignVoid _ _ calling _ _ => exact calling.isComputable
  | arrayAssign _ _ index _ value =>
    rw [Code.isExecutable, index.isComputable, value.isComputable]
    rfl
  | call calling => exact calling.isComputable
  | expr _ value => exact value.isComputable

end

/-! ## Reports of a class -/

section

variable {bytes : List UInt8} {f : File Pos}

theorem Accepted.methodAt (accepted : Accepted bytes f) {s : MethodSymbol}
    (member : s ∈ (buildTable f).value.methods) :
    ∃ m, (analysisOf f).file.cls.methods[s.decl]? = some m ∧
      RunnableMethod ⟨(buildTable f).value, s⟩ True m := by
  obtain ⟨i, d, declared, rfl⟩ := accepted.mem_methods member
  exact ⟨_, (analyze_methods accepted.built accepted.analysed declared).2,
    accepted.runnable declared⟩

theorem Accepted.checkedAt (accepted : Accepted bytes f) {i : Nat} {d : Syntax.Method Pos}
    (declared : f.cls.methods[i]? = some d) :
    (analysisOf f).file.cls.methods[(methodSymbol i d).value.decl]? =
      some (checkMethod (scopeOf f i d) d).value :=
  (analyze_methods accepted.built accepted.analysed declared).2

/-- What holds of the constructor and of the code of each declared method holds of all methods of
the class. -/
theorem Accepted.forall_methods (accepted : Accepted bytes f) {P : Method → Prop}
    (constructor : P (constructorCode (analysisOf f).table.cls (analysisOf f).table.super))
    (each : ∀ i d, f.cls.methods[i]? = some d → P (methodCode (analysisOf f).table.cls
      (methodSymbol i d).value (checkMethod (scopeOf f i d) d).value).value) :
    ∀ m ∈ (classCode (analysisOf f)).value.methods, P m := by
  simp only [classCode, Logged.value_bind, Logged.value_mapM, Logged.value_pure]
  refine forall_mem_cons.mpr ⟨constructor, fun m member => ?_⟩
  obtain ⟨s, listed, rfl⟩ := mem_map.mp member
  obtain ⟨i, d, declared, rfl⟩ := accepted.mem_methods listed
  rw [accepted.checkedAt declared]
  exact each i d declared

theorem Accepted.hasCode (accepted : Accepted bytes f) : Code.hasCode (analysisOf f) = true := by
  refine all_eq_true.mpr fun s member => ?_
  obtain ⟨m, found, runnable⟩ := accepted.methodAt member
  rw [found]
  have body : areExecutable m.body = true :=
    areExecutable_of_forall fun x among => (runnable.body x among).isExecutable
  have result : m.result.all isComputable = true := by
    rw [Option.all_eq_true]
    exact fun x given => (runnable.result x given).1.isComputable
  simp [body, result]

theorem Accepted.reports (accepted : Accepted bytes f) :
    (classCode (analysisOf f)).reports = ((analysisOf f).file.cls.methods.flatMap
      fun m => assignedVoidsList m.body).map voidReport := by
  have checked : (analysisOf f).file.cls.methods =
      f.cls.methods.zipIdx.map fun e => (Typing.checkMethodAt (buildTable f).value e).value :=
    Logged.value_mapM _ _
  have listed : (analysisOf f).table.methods =
      f.cls.methods.zipIdx.map fun e => (methodSymbol e.2 e.1).value :=
    buildTable_methods accepted.built
  simp only [classCode, Logged.reports_bind, Logged.reports_mapM, Logged.reports_pure,
    append_nil]
  conv_rhs => rw [checked]
  rw [listed, flatMap_map, flatMap_map, map_flatMap]
  refine flatMap_congr fun e member => ?_
  obtain ⟨d, i⟩ := e
  have declared : f.cls.methods[i]? = some d := mem_zipIdx_iff_getElem?.mp member
  have entry : Typing.checkMethodAt (buildTable f).value (d, i) = checkMethod (scopeOf f i d) d := by
    rw [Typing.checkMethodAt, methodAt?_eq accepted.built declared]
  simp only [accepted.checkedAt declared, entry]
  exact methodCode_reports (accepted.runnable declared)

/-- **Accepted programs have code.** For a text that is read, whose table is built and whose tree
is checked without errors, the class has code, and what is reported is one error for each void call
that is assigned to a member of an imported superclass, in the order of the code. -/
theorem classCode_reports_assigned_voids {bytes : List UInt8} {f : File Pos}
    (read : parse bytes = .ok f) (built : hasErrors (buildTable f).reports = false)
    (analysed : hasErrors (analyze (buildTable f).value f).reports = false) :
    hasCode (analyze (buildTable f).value f).value = true ∧
      ∃ cls, classCode? (some (analyze (buildTable f).value f).value) =
        ⟨some cls, ((analyze (buildTable f).value f).value.file.cls.methods.flatMap
          fun m => assignedVoidsList m.body).map voidReport⟩ := by
  have accepted : Accepted bytes f := ⟨read, built, analysed⟩
  refine ⟨accepted.hasCode, (classCode (analysisOf f)).value, ?_⟩
  have same : classCode? (some (analysisOf f)) =
      ⟨some (classCode (analysisOf f)).value, (classCode (analysisOf f)).reports ++ []⟩ :=
    map_eq_pure_bind _ _
  rw [same, append_nil, accepted.reports]

end

/-! ## A void call that is assigned -/

/-- The text of a class that assigns void calls to names that it does not declare. -/
def assigningText : List UInt8 :=
  ("import B;class A extends B\x7bpublic void f()\x7b\x7dpublic int g()\x7b" ++
    "if(true)\x7bx=this.f();\x7delse\x7by=this.f();\x7dreturn 0;\x7d\x7d").toUTF8.toList

theorem classCode_reports_assigning_text : ∃ f, parse assigningText = .ok f ∧
    hasErrors (buildTable f).reports = false ∧
    hasErrors (analyze (buildTable f).value f).reports = false ∧
    hasCode (analyze (buildTable f).value f).value = true ∧
    ∃ cls, classCode? (some (analyze (buildTable f).value f).value) =
      ⟨some cls, ((analyze (buildTable f).value f).value.file.cls.methods.flatMap
        fun m => assignedVoidsList m.body).map voidReport⟩ := by
  obtain ⟨f, read, checked⟩ := exists_read assigningText
    (fun f => !hasErrors (buildTable f).reports && !hasErrors (analyze (buildTable f).value f).reports)
    (by decide +kernel)
  simp only [Bool.and_eq_true, Bool.not_eq_true'] at checked
  exact ⟨f, read, checked.1, checked.2, classCode_reports_assigned_voids read checked.1 checked.2⟩

/-- A text that is accepted, and for which code is not made without reports. -/
theorem void_call_assigned_to_assumed_member : ∃ f, parse assigningText = .ok f ∧
    hasErrors (buildTable f).reports = false ∧
    hasErrors (analyze (buildTable f).value f).reports = false ∧
    (classCode? (some (analyze (buildTable f).value f).value)).reports =
      [.error .generation 1 92 "void call f used as a value",
        .error .generation 1 75 "void call f used as a value"] := by
  obtain ⟨f, read, checked⟩ := exists_read assigningText
    (fun f => !hasErrors (buildTable f).reports &&
      !hasErrors (analyze (buildTable f).value f).reports &&
      decide ((classCode? (some (analyze (buildTable f).value f).value)).reports =
        [.error .generation 1 92 "void call f used as a value",
          .error .generation 1 75 "void call f used as a value"]))
    (by decide +kernel)
  simp only [Bool.and_eq_true, Bool.not_eq_true', decide_eq_true_eq] at checked
  exact ⟨f, read, checked.1.1, checked.1.2, checked.2⟩

end JavaMinus.Code
