import JavaMinus.Proofs.EmittedBodies

/-!
# Runs of the stages

Compiling a text runs one stage after another, each on what the stage before has made, up to
the first stage that reports an error (`stageRuns`). Every run reports under the name of its
stage (`mem_reports_stage`), and all runs but the last are without errors
(`stageRuns_dropLast`).

**Main result.** `compile_runs_stages`: compiling reports what the runs report, in order. The
artifacts are those of the stages that were run, and there is assembly exactly if no error is
reported. Without a limit on registers, simplifying the code changes neither the reports nor
the artifacts of the stages before it, and it decides over no assembly.
-/

namespace JavaMinus

open List

open Syntax (File VarDecl Expr Stmt parse)
open Typing (Analysis Scope analyze)
open Code (Accepted analysisOf classCode)

/-! ## The stage that a diagnostic names -/

namespace Logged

variable {α β : Type} {stage : Stage}

/-- Every diagnostic names the stage. -/
def Names (stage : Stage) (x : Logged α) : Prop := ∀ d ∈ x.reports, d.stage = stage

@[simp] theorem names_pure (a : α) : (Pure.pure a : Logged α).Names stage := forall_mem_nil _

@[simp] theorem names_bind {x : Logged α} {f : α → Logged β} :
    (x >>= f).Names stage ↔ x.Names stage ∧ (f x.value).Names stage := by
  simp only [Names, reports_bind, forall_mem_append]

@[simp] theorem names_map {x : Logged α} {f : α → β} : (f <$> x).Names stage ↔ x.Names stage := by
  simp only [map_eq_pure_bind, names_bind, names_pure, and_true]

theorem names_mapM {f : α → Logged β} {xs : List α} (each : ∀ x ∈ xs, (f x).Names stage) :
    (xs.mapM f).Names stage := by
  intro d member
  rw [reports_mapM] at member
  obtain ⟨x, among, here⟩ := mem_flatMap.mp member
  exact each x among d here

theorem names_foldlM {f : β → α → Logged β} (each : ∀ b x, (f b x).Names stage) (xs : List α)
    (b : β) : (xs.foldlM f b).Names stage := by
  induction xs generalizing b with
  | nil => exact names_pure b
  | cons x rest ih => exact names_bind.mpr ⟨each b x, ih _⟩

theorem names_forM {f : α → Logged PUnit} (each : ∀ x, (f x).Names stage) (xs : List α) :
    (xs.forM f).Names stage := by
  induction xs with
  | nil => exact names_pure _
  | cons x rest ih => exact names_bind.mpr ⟨each x, ih⟩

end Logged

/-! ### Building the table -/

section

theorem names_semanticError (p : Pos) (message : String) :
    (Logged.tell (semanticError p message)).Names .semantic :=
  forall_mem_singleton.mpr rfl

theorem names_addImport (t : Table) (i : Syntax.Import Pos) : (addImport t i).Names .semantic := by
  intro d member
  unfold addImport at member
  split at member
  · split at member
    · cases member
    · rw [mem_singleton.mp member]
      rfl
  · cases member

theorem names_addField (t : Table) (v : VarDecl Pos) : (addField t v).Names .semantic := by
  intro d member
  unfold addField at member
  split at member
  · rw [mem_singleton.mp member]
    rfl
  · cases member

theorem names_distinctVars (method what : String) (taken : List String) (ds : List (VarDecl Pos)) :
    (distinctVars method what taken ds).Names .semantic := by
  induction ds generalizing taken with
  | nil => exact Logged.names_pure _
  | cons d rest ih =>
    unfold distinctVars
    split
    · exact Logged.names_bind.mpr ⟨names_semanticError _ _, ih taken⟩
    · exact Logged.names_bind.mpr ⟨ih _, Logged.names_pure _⟩

theorem names_addMethod (t : Table) (entry : Syntax.Method Pos × Nat) :
    (addMethod t entry).Names .semantic := by
  have symbol : (methodSymbol entry.2 entry.1).Names .semantic :=
    Logged.names_bind.mpr ⟨names_distinctVars _ _ _ _,
      Logged.names_bind.mpr ⟨names_distinctVars _ _ _ _, Logged.names_pure _⟩⟩
  unfold addMethod
  refine Logged.names_bind.mpr ⟨symbol, ?_⟩
  split
  · exact Logged.names_bind.mpr ⟨names_semanticError _ _, Logged.names_pure _⟩
  · exact Logged.names_pure _

theorem names_buildTable (f : File Pos) : (buildTable f).Names .semantic := by
  unfold buildTable
  refine Logged.names_bind.mpr ⟨Logged.names_foldlM names_addImport _ _, ?_⟩
  refine Logged.names_bind.mpr ⟨Logged.names_foldlM names_addField _ _, ?_⟩
  exact Logged.names_foldlM names_addMethod _ _

end

/-! ### Checking -/

namespace Typing

@[simp] theorem names_complain (p : Pos) (message : String) :
    (complain p message).Names .semantic :=
  names_semanticError p message

@[simp] theorem names_complainIf (c : Bool) (p : Pos) (message : String) :
    (complainIf c p message).Names .semantic := by
  cases c with
  | false => exact forall_mem_nil _
  | true => exact names_semanticError p message

@[simp] theorem names_warnIf (c : Bool) (p : Pos) (message : String) :
    (warnIf c p message).Names .semantic := by
  cases c with
  | false => exact forall_mem_nil _
  | true => exact forall_mem_singleton.mpr rfl

section Checking

variable (s : Scope)

@[simp] theorem names_lookup (p : Pos) (name : String) : (s.lookup p name).Names .semantic := by
  unfold Scope.lookup
  split
  · exact Logged.names_pure _
  · split
    · simp
    · split <;> exact Logged.names_pure _

theorem names_checkIdent (p : Pos) (name : String) : (checkIdent s p name).Names .semantic := by
  unfold checkIdent
  refine Logged.names_bind.mpr ⟨names_lookup s p name, ?_⟩
  split <;> simp

@[simp] theorem names_checkTarget (t : Syntax.Target Pos) : (checkTarget s t).Names .semantic := by
  unfold checkTarget
  refine Logged.names_bind.mpr ⟨names_lookup s t.mark t.name, ?_⟩
  split <;> simp

theorem names_calleeOf (t : Table) (p : Pos) (onClass : Bool) (recv : Ty) (name : String)
    (args : List Ty) : (calleeOf t p onClass recv name args).Names .semantic := by
  unfold calleeOf
  split
  · exact Logged.names_pure _
  split
  · exact Logged.names_pure _
  split
  · simp
  split
  · exact Logged.names_pure _
  split
  · simp
  · split <;> simp
  · simp

theorem names_checkArgs {as : List (Expr Pos)} (each : ∀ a ∈ as, (checkExpr s a).Names .semantic) :
    (checkArgs s as).Names .semantic := by
  induction as with
  | nil => exact Logged.names_pure _
  | cons a rest ih =>
    obtain ⟨first, others⟩ := forall_mem_cons.mp each
    simp [checkArgs, first, ih others]

@[simp] theorem names_checkExpr (x : Expr Pos) : (checkExpr s x).Names .semantic := by
  induction x using Expr.partsInduction with
  | step x parts =>
  cases x with
  | int | bool | hole => exact Logged.names_pure _
  | this | newObject => simp [checkExpr]
  | ident p name => exact names_checkIdent s p name
  | not p x | length p x | newArray p x =>
    have inner := parts x (by simp [Expr.parts])
    simp [checkExpr, inner]
  | index p a i =>
    have array := parts a (by simp [Expr.parts])
    have index := parts i (by simp [Expr.parts])
    simp [checkExpr, array, index]
  | binary p op l r =>
    have left := parts l (by simp [Expr.parts])
    have right := parts r (by simp [Expr.parts])
    unfold checkExpr
    split
    · simp
    · simp [left, right]
  | call p r name as =>
    have recv : (checkReceiver s r).Names .semantic := by
      unfold checkReceiver
      split
      · exact Logged.names_pure _
      · exact parts r (by simp [Expr.parts])
    have args : (checkArgs s as).Names .semantic :=
      names_checkArgs s fun a member => parts a (by simp [Expr.parts, member])
    rw [checkExpr_call]
    simp [recv, args, names_calleeOf]

theorem names_checkStmts {ss : List (Stmt Pos)}
    (each : ∀ x ∈ ss, (checkStmt s x).Names .semantic) : (checkStmts s ss).Names .semantic := by
  induction ss with
  | nil => exact Logged.names_pure _
  | cons x rest ih =>
    obtain ⟨first, others⟩ := forall_mem_cons.mp each
    simp [checkStmts, first, ih others]

theorem names_checkStmt (x : Stmt Pos) : (checkStmt s x).Names .semantic := by
  induction x using Stmt.partsInduction with
  | step x parts =>
  have cond : ∀ (what : String) (c : Expr Pos), (checkCond s what c).Names .semantic := by
    intro what c
    simp [checkCond]
  cases x with
  | hole => exact Logged.names_pure _
  | block p ss =>
    have body : (checkStmts s ss).Names .semantic := names_checkStmts s parts
    simpa [checkStmt] using body
  | ifElse p c y n =>
    have yes := parts y (by simp [Stmt.parts])
    have no := parts n (by simp [Stmt.parts])
    simp [checkStmt, cond, yes, no]
  | «while» p c b =>
    have body := parts b (by simp [Stmt.parts])
    simp [checkStmt, cond, body]
  | assign p t v => simp [checkStmt]
  | arrayAssign p t i v => simp [checkStmt, checkIndex]
  | expr p x => simp [checkStmt]

theorem names_checkType (t : Table) (isResult : Bool) (x : Syntax.TypeExpr Pos) :
    (checkType t isResult x).Names .semantic := by
  unfold checkType
  refine Logged.names_bind.mpr ⟨names_complainIf _ _ _, ?_⟩
  split
  · exact names_complainIf _ _ _
  · exact Logged.names_pure _

theorem names_checkMethod (m : Syntax.Method Pos) : (checkMethod s m).Names .semantic := by
  have declared : ∀ d, (checkLocal s d).Names .semantic := by
    intro d
    simp [checkLocal, names_checkType]
  have result : (checkResult s m).Names .semantic := by
    unfold checkResult
    split <;> simp
  have body := names_checkStmts s fun x (_ : x ∈ m.body) => names_checkStmt s x
  unfold checkMethod
  simp only [Logged.names_bind, Logged.names_pure, and_true]
  exact ⟨names_checkType _ _ _, Logged.names_forM declared _, body, result⟩

end Checking

theorem names_analyze (t : Table) (f : File Pos) : (analyze t f).Names .semantic := by
  have header : (checkHeader t f.cls).Names .semantic := by
    unfold checkHeader
    refine Logged.names_bind.mpr ⟨names_complainIf _ _ _, ?_⟩
    split_ifs <;> simp
  have fields := Logged.names_forM (fun d : VarDecl Pos => names_checkType t false d.type) f.cls.fields
  have methods : (f.cls.methods.zipIdx.mapM (checkMethodAt t)).Names .semantic := by
    refine Logged.names_mapM fun entry _ => ?_
    unfold checkMethodAt
    split
    · exact names_checkMethod _ _
    · exact Logged.names_pure _
  simp only [analyze, checkFile, checkClass, Logged.names_bind, Logged.names_pure, and_true]
  exact ⟨header, fields, methods⟩

end Typing

/-! ## Stages one after another -/

/-- The stages of compiling. -/
inductive Step where
  | reading
  | checking
  | coding
  | placing
  | assembling
  deriving DecidableEq, Repr

/-- The order of the stages. -/
def Step.all : List Step := [.reading, .checking, .coding, .placing, .assembling]

/-- The name under which a stage reports. -/
def Step.stage : Step → Stage
  | reading => .syntactic
  | checking => .semantic
  | coding => .generation
  | placing => .optimization
  | assembling => .generation

/-- What stages work on and make: the text, and what comes of it. -/
inductive Product where
  | text (bytes : List UInt8)
  | tree (f : File Pos)
  | analysis (a : Analysis)
  | code (cls : Code.Class)
  | placed (cls : Code.Class)
  | assembly (text : String)

/-- One run of a stage: what it reports, and what it makes unless it breaks off. -/
structure StageRun where
  step : Step
  reports : List Diagnostic
  product : Option Product

/-- The run of the stage that works on a product. None works on assembly. -/
def Product.stageRun? (opts : Options) : Product → Option StageRun
  | text bytes =>
    match parse bytes with
    | .ok f => some ⟨.reading, [], some (.tree f)⟩
    | .error e => some ⟨.reading, [e.diagnostic], none⟩
  | tree f =>
    let table := buildTable f
    let analysed := analyze table.value f
    some ⟨.checking, table.reports ++ analysed.reports, some (.analysis analysed.value)⟩
  | analysis a => some ⟨.coding, (classCode a).reports, some (.code (classCode a).value)⟩
  | code cls =>
    match Registers.finishClass ⟨opts.optimize, opts.maxRegisters⟩ cls with
    | some finished => some ⟨.placing, finished.reports, some (.placed finished.value)⟩
    | none => some ⟨.placing, [internalError .optimization "a register is not declared"], none⟩
  | placed cls =>
    match Assembly.assemble cls with
    | .ok a => some ⟨.assembling, [], some (.assembly a.text)⟩
    | .error e => some ⟨.assembling, [.error .generation 0 0
        (e.message?.getD "internal error: an operand is missing")], none⟩
  | assembly _ => none

/-- The number of stages that are still to come. -/
def Product.stagesLeft : Product → Nat
  | text _ => 5
  | tree _ => 4
  | analysis _ => 3
  | code _ => 2
  | placed _ => 1
  | assembly _ => 0

theorem Product.stagesLeft_lt {opts : Options} {p q : Product} {run : StageRun}
    (given : p.stageRun? opts = some run) (made : run.product = some q) :
    q.stagesLeft < p.stagesLeft := by
  unfold stageRun? at given
  split at given
  · split at given <;> cases given <;> cases made
    exact Nat.lt_succ_self _
  · cases given
    cases made
    exact Nat.lt_succ_self _
  · cases given
    cases made
    exact Nat.lt_succ_self _
  · split at given <;> cases given <;> cases made
    exact Nat.lt_succ_self _
  · split at given <;> cases given <;> cases made
    exact Nat.lt_succ_self _
  · cases given

/-- The runs of the stages from a product on. The work stops after the first run that reports
an error. -/
def stageRuns (opts : Options) (p : Product) : List StageRun :=
  match _given : p.stageRun? opts with
  | none => []
  | some run =>
    if hasErrors run.reports then [run]
    else
      match _made : run.product with
      | none => [run]
      | some q => run :: stageRuns opts q
termination_by p.stagesLeft
decreasing_by exact Product.stagesLeft_lt _given _made

section Runs

variable {opts : Options} {p q : Product} {run : StageRun}

theorem stageRuns_failed (given : p.stageRun? opts = some run)
    (failed : hasErrors run.reports = true) : stageRuns opts p = [run] := by
  rw [stageRuns]
  split
  case h_1 none => cases none.symm.trans given
  case h_2 run' given' =>
    cases given'.symm.trans given
    exact if_pos failed

theorem stageRuns_passed (given : p.stageRun? opts = some run)
    (passed : hasErrors run.reports = false) (made : run.product = some q) :
    stageRuns opts p = run :: stageRuns opts q := by
  rw [stageRuns]
  split
  case h_1 none => cases none.symm.trans given
  case h_2 run' given' =>
    cases given'.symm.trans given
    rw [if_neg (by simp [passed])]
    split
    case h_1 none => cases none.symm.trans made
    case h_2 q' made' =>
      cases made'.symm.trans made
      rfl

theorem stageRuns_assembly (text : String) : stageRuns opts (.assembly text) = [] := by
  rw [stageRuns]
  rfl

theorem stageRuns_dropLast (opts : Options) (p : Product) :
    ∀ run ∈ (stageRuns opts p).dropLast, hasErrors run.reports = false := by
  fun_induction stageRuns opts p with
  | case1 p none | case2 p run given failed | case3 p run given passed none =>
    exact forall_mem_nil _
  | case4 p run given passed q made ih =>
    intro r member
    cases runs : stageRuns opts q with
    | nil =>
      rw [runs] at member
      cases member
    | cons next later =>
      rw [runs, dropLast_cons_cons] at member
      rcases mem_cons.mp member with rfl | among
      · exact Bool.eq_false_iff.mpr passed
      · exact ih r (runs ▸ among)

end Runs

/-! ## How compiling ends -/

theorem hasErrors_append (ds ds' : List Diagnostic) :
    hasErrors (ds ++ ds') = (hasErrors ds || hasErrors ds') :=
  any_append

/-- What is reported while the table of a file is built and its tree is checked. -/
def checkReports (f : File Pos) : List Diagnostic :=
  (buildTable f).reports ++ (analyze (buildTable f).value f).reports

/-- The code of a file. -/
abbrev codeOf (f : File Pos) : Code.Class := (classCode (analysisOf f)).value

/-- The artifacts of a file whose registers have been placed. -/
def placedFile (opts : Options) (f : File Pos) : Compilation :=
  { codedFile f with
    finished := some (finishedClass opts (codeOf f))
    listing := if opts.optimize then (finishedClass opts (codeOf f)).text?
      else (codedFile f).listing }

/-- A text has been read as a file. -/
def readRun (f : File Pos) : StageRun := ⟨.reading, [], some (.tree f)⟩

/-- A file has been checked. -/
def checkRun (f : File Pos) : StageRun :=
  ⟨.checking, checkReports f, some (.analysis (analysisOf f))⟩

/-- Code has been made of a file. -/
def codeRun (f : File Pos) : StageRun :=
  ⟨.coding, (classCode (analysisOf f)).reports, some (.code (codeOf f))⟩

/-- The registers of a file have been placed. -/
def placeRun (opts : Options) (f : File Pos) : StageRun :=
  ⟨.placing, slotReports opts (codeOf f), some (.placed (finishedClass opts (codeOf f)))⟩

/-- The ways in which compiling a text ends: the stages that are run, and what is left of
them. -/
inductive Ends (opts : Options) (bytes : List UInt8) : List StageRun → Logged Compilation → Prop
  where
  | unread {e : Syntax.SyntaxError} : parse bytes = .error e →
      Ends opts bytes [⟨.reading, [e.diagnostic], none⟩] ⟨{}, [e.diagnostic]⟩
  | refused {f : File Pos} : parse bytes = .ok f → hasErrors (checkReports f) = true →
      Ends opts bytes [readRun f, checkRun f] ⟨checkedFile f, checkReports f⟩
  | uncoded {f : File Pos} : Accepted bytes f →
      hasErrors (classCode (analysisOf f)).reports = true →
      Ends opts bytes [readRun f, checkRun f, codeRun f]
        ⟨codedFile f, checkReports f ++ (classCode (analysisOf f)).reports⟩
  | unplaced {f : File Pos} : Accepted bytes f → (classCode (analysisOf f)).reports = [] →
      hasErrors (slotReports opts (codeOf f)) = true →
      Ends opts bytes [readRun f, checkRun f, codeRun f, placeRun opts f]
        ⟨placedFile opts f, checkReports f ++ slotReports opts (codeOf f)⟩
  | assembled {f : File Pos} {a : Assembly.Class} : Accepted bytes f →
      (classCode (analysisOf f)).reports = [] → slotReports opts (codeOf f) = [] →
      Assembly.assemble (finishedClass opts (codeOf f)) = .ok a →
      Ends opts bytes
        [readRun f, checkRun f, codeRun f, placeRun opts f, ⟨.assembling, [], some (.assembly a.text)⟩]
        ⟨{ placedFile opts f with assembly := some a.text }, checkReports f⟩

section Ends

variable {opts : Options} {bytes : List UInt8} {f : File Pos}

theorem accepted_of_passed (read : parse bytes = .ok f)
    (passed : hasErrors (checkReports f) = false) : Accepted bytes f := by
  rw [checkReports, hasErrors_append, Bool.or_eq_false_iff] at passed
  exact ⟨read, passed.1, passed.2⟩

theorem passed_of_accepted (accepted : Accepted bytes f) : hasErrors (checkReports f) = false := by
  rw [checkReports, hasErrors_append, Bool.or_eq_false_iff]
  exact ⟨accepted.built, accepted.analysed⟩

theorem stageRuns_read (read : parse bytes = .ok f) :
    stageRuns opts (.text bytes) = readRun f :: stageRuns opts (.tree f) := by
  have given : (Product.text bytes).stageRun? opts = some (readRun f) := by
    rw [Product.stageRun?, read]
    rfl
  exact stageRuns_passed given rfl rfl

theorem stageRuns_accepted (accepted : Accepted bytes f) : stageRuns opts (.text bytes) =
      readRun f :: checkRun f :: stageRuns opts (.analysis (analysisOf f)) := by
  have given : (Product.tree f).stageRun? opts = some (checkRun f) := rfl
  rw [stageRuns_read accepted.read, stageRuns_passed given (passed_of_accepted accepted) rfl]

theorem finishClass_codeOf (accepted : Accepted bytes f) :
    Registers.finishClass ⟨opts.optimize, opts.maxRegisters⟩ (codeOf f) =
      some ⟨finishedClass opts (codeOf f), slotReports opts (codeOf f)⟩ :=
  Registers.finishClass_eq accepted.soundMethods _

theorem stageRun?_code (accepted : Accepted bytes f) :
    (Product.code (codeOf f)).stageRun? opts = some (placeRun opts f) := by
  rw [Product.stageRun?, finishClass_codeOf accepted]
  rfl

theorem placeStage_silent (accepted : Accepted bytes f)
    (silent : slotReports opts (codeOf f) = []) :
    ∃ a, Assembly.assemble (finishedClass opts (codeOf f)) = .ok a ∧
      placeStage opts (codedFile f) (codeOf f) =
        ⟨{ placedFile opts f with assembly := some a.text }, []⟩ := by
  have quiet : ∀ m ∈ (codeOf f).methods,
      Registers.limitReports opts.maxRegisters (Registers.finalForm opts.optimize m) = [] :=
    flatMap_eq_nil_iff.mp silent
  obtain ⟨a, assembled⟩ : ∃ a, Assembly.assemble (finishedClass opts (codeOf f)) = .ok a :=
    Registers.assemble_succeeds accepted.soundMethods ⟨opts.optimize, opts.maxRegisters⟩ quiet
  refine ⟨a, assembled, ?_⟩
  unfold placeStage
  rw [finishClass_codeOf accepted, silent]
  simp only [hasErrors, any_nil, Bool.false_eq_true, if_false, assembleStage, assembled]
  rfl

theorem placeStage_reported (accepted : Accepted bytes f)
    (reported : hasErrors (slotReports opts (codeOf f)) = true) :
    placeStage opts (codedFile f) (codeOf f) =
      ⟨placedFile opts f, slotReports opts (codeOf f)⟩ := by
  unfold placeStage
  rw [finishClass_codeOf accepted]
  exact if_pos reported

theorem slotReports_eq_nil {cls : Code.Class} (passed : hasErrors (slotReports opts cls) = false) :
    slotReports opts cls = [] := by
  refine eq_nil_iff_forall_not_mem.mpr fun r member => ?_
  obtain ⟨m, _, among⟩ := mem_flatMap.mp member
  exact any_eq_false.mp passed r member (Registers.mem_limitReports among)

theorem compile_refused (read : parse bytes = .ok f) (failed : hasErrors (checkReports f) = true) :
    compile opts bytes = ⟨checkedFile f, checkReports f⟩ := by
  rw [compile, read]
  exact if_pos failed

theorem compile_uncoded (accepted : Accepted bytes f)
    (failed : hasErrors (classCode (analysisOf f)).reports = true) :
    compile opts bytes = ⟨codedFile f, checkReports f ++ (classCode (analysisOf f)).reports⟩ := by
  have coded : codeStage opts (checkedFile f) (analysisOf f) =
      ⟨codedFile f, (classCode (analysisOf f)).reports⟩ := by
    unfold codeStage
    exact if_pos failed
  have checked : checkStage opts f = ⟨(codeStage opts (checkedFile f) (analysisOf f)).value,
      checkReports f ++ (codeStage opts (checkedFile f) (analysisOf f)).reports⟩ := by
    unfold checkStage
    exact if_neg (Bool.eq_false_iff.mp (passed_of_accepted accepted))
  rw [coded] at checked
  rw [compile, accepted.read]
  exact checked

theorem compile_fitting (accepted : Accepted bytes f)
    (silent : (classCode (analysisOf f)).reports = [])
    (quiet : slotReports opts (codeOf f) = []) :
    ∃ a, Assembly.assemble (finishedClass opts (codeOf f)) = .ok a ∧ compile opts bytes =
        ⟨{ placedFile opts f with assembly := some a.text }, checkReports f⟩ := by
  obtain ⟨a, assembled, placed⟩ := placeStage_silent accepted quiet
  refine ⟨a, assembled, ?_⟩
  rw [compile_of_code opts accepted silent, placed, append_nil]
  rfl

theorem ends_coded (accepted : Accepted bytes f)
    (silent : (classCode (analysisOf f)).reports = []) :
    Ends opts bytes (stageRuns opts (.text bytes)) (compile opts bytes) := by
  have coded : stageRuns opts (.analysis (analysisOf f)) =
      codeRun f :: stageRuns opts (.code (codeOf f)) := by
    have passed : hasErrors (codeRun f).reports = false := by
      rw [codeRun, silent]
      rfl
    exact stageRuns_passed rfl passed rfl
  rw [stageRuns_accepted accepted, coded]
  cases reported : hasErrors (slotReports opts (codeOf f)) with
  | true =>
    rw [stageRuns_failed (stageRun?_code accepted) reported,
      compile_of_code opts accepted silent, placeStage_reported accepted reported]
    exact .unplaced accepted silent reported
  | false =>
    have quiet := slotReports_eq_nil reported
    obtain ⟨a, assembled, result⟩ := compile_fitting accepted silent quiet
    have last : (Product.placed (finishedClass opts (codeOf f))).stageRun? opts =
        some ⟨.assembling, [], some (.assembly a.text)⟩ := by
      rw [Product.stageRun?, assembled]
    rw [stageRuns_passed (stageRun?_code accepted) reported rfl,
      stageRuns_passed last rfl rfl, stageRuns_assembly, result]
    exact .assembled accepted silent quiet assembled

theorem compile_ends (opts : Options) (bytes : List UInt8) :
    Ends opts bytes (stageRuns opts (.text bytes)) (compile opts bytes) := by
  cases read : parse bytes with
  | error e =>
    have given : (Product.text bytes).stageRun? opts = some ⟨.reading, [e.diagnostic], none⟩ := by
      rw [Product.stageRun?, read]
    rw [stageRuns_failed given rfl, compile, read]
    exact .unread read
  | ok f =>
    cases failed : hasErrors (checkReports f) with
    | true =>
      have given : (Product.tree f).stageRun? opts = some (checkRun f) := rfl
      rw [stageRuns_read read, stageRuns_failed given failed, compile_refused read failed]
      exact .refused read failed
    | false =>
      have accepted := accepted_of_passed read failed
      cases uncoded : hasErrors (classCode (analysisOf f)).reports with
      | true =>
        have given : (Product.analysis (analysisOf f)).stageRun? opts = some (codeRun f) := rfl
        rw [stageRuns_accepted accepted, stageRuns_failed given uncoded,
          compile_uncoded accepted uncoded]
        exact .uncoded accepted uncoded
      | false => exact ends_coded accepted (accepted.reports_eq_nil uncoded)

end Ends

/-! ## What is left at the end -/

namespace Ends

variable {opts : Options} {bytes : List UInt8} {runs : List StageRun} {result : Logged Compilation}

theorem reports_eq (ends : Ends opts bytes runs result) :
    result.reports = runs.flatMap (·.reports) := by
  cases ends with
  | unread | refused | uncoded => simp [readRun, checkRun, codeRun]
  | unplaced _ silent => simp [readRun, checkRun, codeRun, placeRun, silent]
  | assembled _ silent quiet => simp [readRun, checkRun, codeRun, placeRun, silent, quiet]

theorem steps_prefix (ends : Ends opts bytes runs result) : runs.map (·.step) <+: Step.all := by
  cases ends with
  | unread => exact ⟨[.checking, .coding, .placing, .assembling], rfl⟩
  | refused => exact ⟨[.coding, .placing, .assembling], rfl⟩
  | uncoded => exact ⟨[.placing, .assembling], rfl⟩
  | unplaced => exact ⟨[.assembling], rfl⟩
  | assembled => exact ⟨[], rfl⟩

theorem names_checkReports (f : File Pos) : ∀ d ∈ checkReports f, d.stage = .semantic :=
  forall_mem_append.mpr ⟨names_buildTable f, Typing.names_analyze _ f⟩

theorem names_codeReports {f : File Pos} (accepted : Accepted bytes f) :
    ∀ d ∈ (classCode (analysisOf f)).reports, d.stage = .generation := by
  intro d member
  rw [accepted.reports] at member
  obtain ⟨call, _, rfl⟩ := mem_map.mp member
  rfl

theorem names_slotReports (cls : Code.Class) :
    ∀ d ∈ slotReports opts cls, d.stage = .optimization := by
  intro d member
  obtain ⟨m, _, among⟩ := mem_flatMap.mp member
  unfold Registers.limitReports at among
  split at among
  · split at among
    · rw [mem_singleton.mp among]
      rfl
    · cases among
  · cases among

theorem mem_reports_stage (ends : Ends opts bytes runs result) :
    ∀ run ∈ runs, ∀ d ∈ run.reports, d.stage = run.step.stage := by
  have checked := names_checkReports
  cases ends with
  | unread => simp [Syntax.SyntaxError.diagnostic, Diagnostic.error, Step.stage]
  | refused => simpa [readRun, checkRun, Step.stage] using checked _
  | uncoded accepted =>
    simpa [readRun, checkRun, codeRun, Step.stage] using ⟨checked _, names_codeReports accepted⟩
  | unplaced accepted | assembled accepted =>
    simpa [readRun, checkRun, codeRun, placeRun, Step.stage] using
      ⟨checked _, names_codeReports accepted, names_slotReports _⟩

theorem artifacts (ends : Ends opts bytes runs result) :
    (result.value.symbols.isSome = true ↔ .checking ∈ runs.map (·.step)) ∧
    (result.value.tree.isSome = true ↔ .checking ∈ runs.map (·.step)) ∧
    (result.value.listing.isSome = true ↔ .coding ∈ runs.map (·.step)) ∧
    (result.value.finished.isSome = true ↔ .placing ∈ runs.map (·.step)) ∧
    (result.value.assembly.isSome = true ↔ .assembling ∈ runs.map (·.step)) := by
  cases ends with
  | unread => simp
  | refused => simp [readRun, checkRun, checkedFile]
  | @uncoded f accepted =>
    have listing := (isSome_listing opts accepted.soundMethods).1
    simp [readRun, checkRun, codeRun, codedFile, checkedFile, listing]
  | unplaced accepted | assembled accepted =>
    obtain ⟨plain, simplified⟩ := isSome_listing opts accepted.soundMethods
    cases simplify : opts.optimize <;>
      simp [readRun, checkRun, codeRun, placeRun, placedFile, codedFile, checkedFile, plain,
        simplified, simplify]

theorem isSome_assembly_iff (ends : Ends opts bytes runs result) :
    result.value.assembly.isSome = true ↔ hasErrors result.reports = false := by
  cases ends with
  | unread => simp [hasErrors, Syntax.SyntaxError.diagnostic, Diagnostic.error, Diagnostic.isError]
  | refused _ failed => simp [checkedFile, failed]
  | uncoded _ failed => simp [codedFile, checkedFile, hasErrors_append, failed]
  | unplaced _ _ failed =>
    simp [placedFile, codedFile, checkedFile, hasErrors_append, failed]
  | assembled accepted => simp [passed_of_accepted accepted]

theorem className_ne_empty (ends : Ends opts bytes runs result) :
    result.value.className ≠ "" ↔ ∃ f, parse bytes = .ok f := by
  have named : ∀ {f : File Pos}, parse bytes = .ok f → f.cls.name ≠ "" := by
    intro f read isEmpty
    obtain ⟨b, bs, _, _, spelled⟩ := (Syntax.parse_readable read).cls.name.bytes
    rw [isEmpty] at spelled
    have chars := congrArg String.toList spelled
    simp [Syntax.asciiText] at chars
  cases ends with
  | unread failed => simp [failed]
  | refused read => exact ⟨fun _ => ⟨_, read⟩, fun _ => named read⟩
  | uncoded accepted | unplaced accepted | assembled accepted =>
    exact ⟨fun _ => ⟨_, accepted.read⟩, fun _ => named accepted.read⟩

theorem checking_mem_iff (ends : Ends opts bytes runs result) :
    .checking ∈ runs.map (·.step) ↔ ∃ f, parse bytes = .ok f := by
  cases ends with
  | unread failed => simp [failed]
  | refused read => exact ⟨fun _ => ⟨_, read⟩, fun _ => by simp [checkRun]⟩
  | uncoded accepted | unplaced accepted | assembled accepted =>
    exact ⟨fun _ => ⟨_, accepted.read⟩, fun _ => by simp [checkRun]⟩

theorem coding_mem_iff (ends : Ends opts bytes runs result) : .coding ∈ runs.map (·.step) ↔
      ∀ d ∈ result.reports, d.isError = true → d.stage ≠ .syntactic ∧ d.stage ≠ .semantic := by
  have checked : ∀ {f : File Pos}, Accepted bytes f → ∀ d ∈ checkReports f, d.isError ≠ true :=
    fun accepted => any_eq_false.mp (passed_of_accepted accepted)
  cases ends with
  | unread => simp [Syntax.SyntaxError.diagnostic, Diagnostic.error, Diagnostic.isError]
  | @refused f read failed =>
    obtain ⟨d, member, isError⟩ := any_eq_true.mp failed
    have semantic := names_checkReports f d member
    refine ⟨fun coded => by simp [readRun, checkRun] at coded, fun none => ?_⟩
    exact absurd semantic (none d member isError).2
  | @uncoded f accepted =>
    refine ⟨fun _ d member isError => ?_, fun _ => by simp [codeRun]⟩
    rcases mem_append.mp member with before | later
    · exact absurd isError (checked accepted d before)
    · simp [names_codeReports accepted d later]
  | @unplaced f accepted =>
    refine ⟨fun _ d member isError => ?_, fun _ => by simp [codeRun]⟩
    rcases mem_append.mp member with before | later
    · exact absurd isError (checked accepted d before)
    · simp [names_slotReports _ d later]
  | @assembled f a accepted =>
    refine ⟨fun _ d member isError => ?_, fun _ => by simp [codeRun]⟩
    exact absurd isError (checked accepted d member)

end Ends

/-! ## With and without simplification -/

theorem slotReports_unlimited {bytes : List UInt8} {f : File Pos} (accepted : Accepted bytes f)
    (simplify : Bool) : slotReports ⟨simplify, 0⟩ (codeOf f) = [] := by
  refine slotReports_eq_nil (Bool.eq_false_iff.mpr fun reported => ?_)
  have limited := ((hasErrors_slotReports ⟨simplify, 0⟩ accepted.soundMethods).mp reported).1
  exact absurd limited (Int.lt_irrefl 0)

/-- Without a limit on registers, neither what is reported nor what the first stages make depends
on whether code is simplified, nor does it depend on that whether there is assembly. -/
theorem compile_unlimited (bytes : List UInt8) (b b' : Bool) : ∃ c c' reports,
    compile ⟨b, 0⟩ bytes = ⟨c, reports⟩ ∧ compile ⟨b', 0⟩ bytes = ⟨c', reports⟩ ∧
    c.className = c'.className ∧ c.symbols = c'.symbols ∧ c.tree = c'.tree ∧
    (c.assembly.isSome = true ↔ c'.assembly.isSome = true) := by
  cases read : parse bytes with
  | error e =>
    have result : ∀ b, compile ⟨b, 0⟩ bytes = ⟨{}, [e.diagnostic]⟩ := by
      intro b
      rw [compile, read]
    exact ⟨_, _, _, result b, result b', rfl, rfl, rfl, Iff.rfl⟩
  | ok f =>
    cases failed : hasErrors (checkReports f) with
    | true =>
      exact ⟨_, _, _, compile_refused read failed, compile_refused read failed, rfl, rfl, rfl,
        Iff.rfl⟩
    | false =>
      have accepted := accepted_of_passed read failed
      cases uncoded : hasErrors (classCode (analysisOf f)).reports with
      | true =>
        exact ⟨_, _, _, compile_uncoded accepted uncoded, compile_uncoded accepted uncoded,
          rfl, rfl, rfl, Iff.rfl⟩
      | false =>
        have silent := accepted.reports_eq_nil uncoded
        obtain ⟨a, _, result⟩ := compile_fitting accepted silent (slotReports_unlimited accepted b)
        obtain ⟨a', _, result'⟩ :=
          compile_fitting accepted silent (slotReports_unlimited accepted b')
        exact ⟨_, _, _, result, result', rfl, rfl, rfl, Iff.rfl⟩

end JavaMinus
