import JavaMinus.Proofs.AcceptedPrograms
import JavaMinus.Proofs.CheckedTypes

/-!
# Files that can be typed

The equivalence between the checker and the typing rules, carried on from statements to methods
(`wellTypedMethod_iff`) and files (`wellTypedFile_iff`). A file that was read and whose
declarations are in order is accepted exactly if it has a typing, and then it has only one: the
types that the checker leaves on the expressions (`analyze_accepts_iff`).
-/

namespace JavaMinus.Typing

open Syntax List

/-! ## Declarations -/

section

variable {t : Table} {Δ : Declarations} (lists : Lists t Δ)

include lists

theorem clean_checkType {isResult : Bool} {x : TypeExpr Pos} :
    (checkType t isResult x).Clean ↔ Δ.KnowsType x.ty ∧ (isResult = false → x.ty ≠ .void) := by
  rw [checkType, Logged.clean_bind, clean_complainIf, and_comm]
  refine and_congr ?_ ?_
  · rw [Declarations.KnowsType]
    cases base : x.ty.base with
    | object c => simp [knowsClass_iff lists]
    | _ => simp
  · cases isResult <;> simp [Ty.isVoid]

theorem wellTypedVars_iff {xs : List (VarDecl Pos)} {ys : List (VarDecl (Option Ty))}
    (same : ys.map (VarDecl.map fun _ => ()) = xs.map (VarDecl.map fun _ => ())) :
    (∀ d ∈ ys, WellTypedVar Δ d) ↔ ∀ d ∈ xs, (checkType t false d.type).Clean := by
  have types := congrArg (List.map fun d : VarDecl Unit => d.type.ty) same
  rw [map_map, map_map] at types
  have mine := forall_mem_map (l := ys) (f := fun d => d.type.ty)
    (P := fun τ => Δ.KnowsType τ ∧ τ ≠ .void)
  have theirs := forall_mem_map (l := xs) (f := fun d => d.type.ty)
    (P := fun τ => Δ.KnowsType τ ∧ τ ≠ .void)
  simp only [clean_checkType lists, forall_const]
  rw [← theirs]
  refine mine.symm.trans ?_
  exact iff_of_eq (congrArg (fun l : List Ty => ∀ τ ∈ l, Δ.KnowsType τ ∧ τ ≠ .void) types)

theorem wellTypedHeader_iff {c : Syntax.Class Pos} (name : c.name = Δ.cls)
    (super : c.super = Δ.super) : WellTypedHeader Δ ↔ (checkHeader t c).Clean := by
  have rules : WellTypedHeader Δ ↔ Δ.cls ∉ Δ.imports ∧ (Δ.super = "" ∨ Δ.ExtendsImport) := by
    constructor
    · rintro ⟨own, super⟩
      exact ⟨own, super⟩
    · rintro ⟨own, super⟩
      exact ⟨own, super⟩
  rw [rules, checkHeader, Logged.clean_bind, clean_complainIf, name, super]
  refine and_congr ?_ ?_
  · rw [← lists.imports, Bool.not_eq_true]
  · rw [Declarations.ExtendsImport]
    by_cases alone : Δ.super = ""
    · simp [alone]
    · by_cases own : Δ.super = Δ.cls
      · rw [if_neg alone, if_pos own]
        refine iff_of_false ?_ (not_clean_complain _ _)
        rintro (empty | ⟨_, other, _⟩)
        · exact alone empty
        · exact other own
      · rw [if_neg alone, if_neg own]
        simp [alone, own, ← lists.imports]

end

/-! ## Methods -/

theorem returns_none_iff {Γ : Context} {ret : Ty} : Returns Γ ret none ↔ ret = .void := by
  constructor
  · intro returned
    cases returned
    rfl
  · rintro rfl
    exact .nothing

theorem returns_some_iff {Γ : Context} {ret : Ty} {x : Expr (Option Ty)} : Returns Γ ret (some x) ↔
      ret ≠ .void ∧ WellTyped Γ x ∧ Assignable Γ.toDeclarations ret (carried x) := by
  constructor
  · intro returned
    cases returned with
    | value proper typed assigned => exact ⟨proper, typed, assigned⟩
  · rintro ⟨proper, typed, assigned⟩
    exact .value proper typed assigned

section Methods

variable {s : Scope} {Γ : Context} (shows : Shows s Γ)

include shows

theorem returns_iff {m : Syntax.Method Pos} (complete : m.result.all Expr.isCheckable = true)
    {y : Option (Expr (Option Ty))} (same : y.map bare = m.result.map bare) :
    Returns Γ s.method.ret y ↔ (checkResult s m).Passes (Option.map (Expr.map Mark.type)) y := by
  rw [checkResult]
  cases written : m.result with
  | none =>
    rw [written] at same
    obtain rfl : y = none := Option.map_eq_none_iff.mp same
    rw [returns_none_iff]
    cases void : s.method.ret.isVoid with
    | true => exact iff_of_true (of_decide_eq_true void) ⟨rfl, rfl⟩
    | false =>
      simp only [Logged.passes_bind, not_clean_complain, false_and, iff_false]
      exact of_decide_eq_false void
  | some x =>
    rw [written] at same complete
    obtain ⟨z, rfl, sameValue⟩ := Option.map_eq_some_iff.mp same
    rw [returns_some_iff, wellTyped_iff shows complete sameValue]
    cases void : s.method.ret.isVoid with
    | true =>
      simp only [Logged.passes_bind, not_clean_complain, false_and, iff_false]
      exact fun returned => returned.1 (of_decide_eq_true void)
    | false =>
      simp only [Logged.passes_bind, Logged.passes_pure, clean_complainIf, Option.map_some,
        Option.some.injEq, types_hinted, Bool.not_eq_false', ← assignable_iff shows.table,
        typeOf_eq_carried]
      constructor
      · rintro ⟨_, ⟨clean, rfl⟩, assigned⟩
        exact ⟨clean, assigned, rfl⟩
      · rintro ⟨clean, assigned, rfl⟩
        exact ⟨of_decide_eq_false void, ⟨clean, rfl⟩, assigned⟩

end Methods

/-- The expressions and statements of a method, with their types. -/
def typedParts (m : Syntax.Method Mark) : List (Stmt (Option Ty)) × Option (Expr (Option Ty)) :=
  (m.body.map (Stmt.map Mark.type), m.result.map (Expr.map Mark.type))

/-- A method is well typed exactly if it is checked without errors and its expressions carry the
types that are found. -/
theorem wellTypedMethod_iff {t : Table} {Δ : Declarations} {m : Syntax.Method Pos} {i : Nat}
    (shows : Shows ⟨t, declaredMethod i m⟩ (Δ.within m)) (complete : m.isCheckable = true)
    {y : Syntax.Method (Option Ty)} (same : y.map (fun _ => ()) = m.map fun _ => ()) :
    WellTypedMethod Δ y ↔
      (checkMethod ⟨t, declaredMethod i m⟩ m).Passes typedParts (y.body, y.result) := by
  have lists : Lists t Δ := shows.table
  have within : Δ.within y = Δ.within m := by
    rw [← within_map (fun _ => ()) Δ y, same, within_map]
  simp only [Syntax.Method.map, Syntax.Method.mk.injEq, stmt_mapList_eq_map] at same
  obtain ⟨_, _, sameRet, _, sameParams, sameLocals, sameBody, sameResult⟩ := same
  have ret : y.ret.ty = m.ret.ty := by
    have types := congrArg TypeExpr.ty sameRet
    exact types
  have vars : (∀ d ∈ y.params ++ y.locals, WellTypedVar Δ d) ↔
      ((m.params ++ m.locals).forM (checkLocal ⟨t, declaredMethod i m⟩)).Clean := by
    have sameVars : (y.params ++ y.locals).map (VarDecl.map fun _ => ()) =
        (m.params ++ m.locals).map (VarDecl.map fun _ => ()) := by
      rw [map_append, map_append, sameParams, sameLocals]
    simp only [wellTypedVars_iff lists sameVars, Code.clean_forM, checkLocal, Logged.clean_bind,
      clean_warnIf, and_true]
  rw [Method.isCheckable, Bool.and_eq_true] at complete
  have body := wellTypedStmts_iff shows complete.1 sameBody
  have result := returns_iff shows complete.2 sameResult
  simp only [checkMethod, Logged.passes_bind, Logged.passes_pure, clean_checkType lists,
    typedParts, Prod.mk.injEq, ← vars]
  constructor
  · rintro ⟨knownRet, typedVars, typedBody, typedResult⟩
    rw [ret] at knownRet typedResult
    rw [within] at typedBody typedResult
    obtain ⟨cleanBody, bodyTypes⟩ := body.mp typedBody
    obtain ⟨cleanResult, resultTypes⟩ := result.mp typedResult
    exact ⟨⟨knownRet, by simp⟩, typedVars, cleanBody, cleanResult, bodyTypes, resultTypes⟩
  · rintro ⟨⟨knownRet, _⟩, typedVars, cleanBody, cleanResult, bodyTypes, resultTypes⟩
    refine ⟨ret ▸ knownRet, typedVars, ?_, ?_⟩
    · rw [within]
      exact body.mpr ⟨cleanBody, bodyTypes⟩
    · rw [within, ret]
      exact result.mpr ⟨cleanResult, resultTypes⟩

/-! ## Marks of whole trees -/

section

variable {α β : Type} (g : α → β)

theorem bareStmt_map (x : Stmt α) : bareStmt (x.map g) = bareStmt x := by
  have target : ∀ t : Target α, (t.map g).map (fun _ => ()) = t.map fun _ => () := fun _ => rfl
  induction x using Stmt.partsInduction with
  | step x parts =>
  cases x <;> simp_all [bareStmt, Stmt.map, Stmt.parts, stmt_mapList_eq_map, map_map_eq_of_const]

theorem erase_map (m : Syntax.Method α) : (m.map g).map (fun _ => ()) = m.map fun _ => () := by
  have body : m.body.map (bareStmt ∘ Stmt.map g) = m.body.map bareStmt :=
    map_congr_left fun x _ => bareStmt_map g x
  have result : (m.result.map (Expr.map g)).map bare = m.result.map bare := by
    rw [Option.map_map]
    exact Option.map_congr fun x _ => map_map_eq_of_const () g x
  simp only [Syntax.Method.map, stmt_mapList_eq_map, Syntax.Method.mk.injEq, map_map, true_and]
  exact ⟨rfl, rfl, rfl, body, result⟩

theorem eraseFile_map (f : File α) : (f.map g).map (fun _ => ()) = f.map fun _ => () := by
  have methods : (f.cls.methods.map (Method.map g)).map (Method.map fun _ => ()) =
      f.cls.methods.map (Method.map fun _ => ()) := by
    rw [map_map]
    exact map_congr_left fun m _ => erase_map g m
  simp only [File.map, Class.map, File.mk.injEq, Class.mk.injEq, methods, map_map, true_and,
    and_true]
  exact ⟨rfl, rfl⟩

theorem marksList_eq_flatMap (xs : List (Expr α)) : Expr.marksList xs = xs.flatMap Expr.marks := by
  induction xs with
  | nil => rfl
  | cons x rest ih => rw [Expr.marksList, ih, flatMap_cons]

theorem marks_map (x : Expr α) : (x.map g).marks = x.marks.map g := by
  induction x using Expr.partsInduction with
  | step x parts =>
  cases x with
  | call m r name as =>
    have args : (as.map (Expr.map g)).flatMap Expr.marks = (as.flatMap Expr.marks).map g := by
      rw [flatMap_map, map_flatMap]
      exact flatMap_congr fun a member => parts a (by simp [Expr.parts, member])
    simp [Expr.map, Expr.marks, mapList_eq_map, marksList_eq_flatMap, args,
      parts r (by simp [Expr.parts])]
  | _ => simp_all [Expr.map, Expr.marks, Expr.parts]

theorem exprMarksList_eq_flatMap (xs : List (Stmt α)) :
    Stmt.exprMarksList xs = xs.flatMap Stmt.exprMarks := by
  induction xs with
  | nil => rfl
  | cons x rest ih => rw [Stmt.exprMarksList, ih, flatMap_cons]

theorem exprMarks_map (x : Stmt α) : (x.map g).exprMarks = x.exprMarks.map g := by
  induction x using Stmt.partsInduction with
  | step x parts =>
  cases x with
  | block m ss =>
    have each : (ss.map (Stmt.map g)).flatMap Stmt.exprMarks =
        (ss.flatMap Stmt.exprMarks).map g := by
      rw [flatMap_map, map_flatMap]
      exact flatMap_congr fun x member => parts x member
    simp [Stmt.map, Stmt.exprMarks, stmt_mapList_eq_map, exprMarksList_eq_flatMap, each]
  | _ => simp_all [Stmt.map, Stmt.exprMarks, Stmt.parts, marks_map, Target.map]

end

/-- The marks of the expressions in statements and in a result. -/
def partMarks {α : Type} (parts : List (Stmt α) × Option (Expr α)) : List α :=
  parts.1.flatMap Stmt.exprMarks ++ (parts.2.map Expr.marks).getD []

theorem exprMarks_eq_partMarks {α : Type} (m : Syntax.Method α) :
    m.exprMarks = partMarks (m.body, m.result) := by
  rw [Method.exprMarks, exprMarksList_eq_flatMap, partMarks]
  cases m.result <;> rfl

theorem partMarks_typedParts (m : Syntax.Method Mark) :
    partMarks (typedParts m) = m.exprMarks.map Mark.type := by
  rw [exprMarks_eq_partMarks, partMarks, partMarks, typedParts, map_append, flatMap_map,
    map_flatMap]
  refine congrArg₂ (· ++ ·) (flatMap_congr fun x _ => exprMarks_map Mark.type x) ?_
  cases m.result with
  | none => rfl
  | some x => exact marks_map Mark.type x

/-! ## Files -/

section

variable {α β γ : Type}

theorem passes_mapM {g : α → Logged β} {view : β → γ} {xs : List α} {cs : List γ} :
    (xs.mapM g).Passes (List.map view) cs ↔
      List.Forall₂ (fun x c => (g x).Passes view c) xs cs := by
  induction xs generalizing cs with
  | nil =>
    rw [mapM_nil, forall₂_nil_left_iff]
    exact ⟨fun passes => passes.2.symm, fun same => ⟨rfl, same.symm⟩⟩
  | cons x xs ih =>
    rw [mapM_cons]
    cases cs with
    | nil =>
      refine iff_of_false ?_ (by simp)
      rintro ⟨_, none⟩
      cases none
    | cons c cs =>
      rw [forall₂_cons, ← ih]
      simp only [Logged.passes_bind, Logged.passes_pure, map_cons, List.cons.injEq]
      exact (and_and_and_comm.trans and_assoc).symm

theorem forall₂_iff_forall {R Q : α → β → Prop} {P : β → Prop} {xs : List α} {ys : List β}
    (related : List.Forall₂ R xs ys) (each : ∀ x ∈ xs, ∀ y, R x y → (Q x y ↔ P y)) :
    List.Forall₂ Q xs ys ↔ ∀ y ∈ ys, P y := by
  induction related with
  | nil => simp
  | cons here _ ih =>
    obtain ⟨first, others⟩ := forall_mem_cons.mp each
    rw [forall₂_cons, forall_mem_cons, first _ here, ih others]

end

section Files

variable {f : File Pos}

/-- A file is well typed exactly if it is checked without errors and its expressions carry the
types that are found. -/
theorem wellTypedFile_iff (readable : f.Readable) (silent : (buildTable f).reports = [])
    {y : File (Option Ty)} (same : y.map (fun _ => ()) = f.map fun _ => ()) :
    WellTypedFile y ↔ (analyze (buildTable f).value f).Passes
      (fun a => a.file.cls.methods.map typedParts)
      (y.cls.methods.map fun m => (m.body, m.result)) := by
  have consistent := (buildTable_reports readable).mp silent
  have lists := lists_declaredTable consistent
  rw [← buildTable_value readable silent] at lists
  have declarations : declarationsOf y = declarationsOf f := by
    rw [← declarationsOf_map (fun _ => ()) y, same, declarationsOf_map]
  simp only [File.map, Class.map, File.mk.injEq, Class.mk.injEq] at same
  obtain ⟨_, _, _, _, _, sameFields, sameMethods⟩ := same
  have header : WellTypedHeader (declarationsOf f) ↔
      (checkHeader (buildTable f).value f.cls).Clean := wellTypedHeader_iff lists rfl rfl
  have fields := wellTypedVars_iff lists sameFields
  have related : List.Forall₂ (fun (e : Syntax.Method Pos × Nat) (m : Syntax.Method (Option Ty)) =>
        e.1.map (fun _ => ()) = m.map fun _ => ()) f.cls.methods.zipIdx y.cls.methods := by
    have maps : List.Forall₂ (· = ·) (f.cls.methods.zipIdx.map fun e => e.1.map fun _ => ())
        (y.cls.methods.map (Method.map fun _ => ())) := by
      rw [forall₂_eq_eq_eq, sameMethods]
      exact map_zipIdx_fst _ _
    exact forall₂_map_right_iff.mp (forall₂_map_left_iff.mp maps)
  have methods : (f.cls.methods.zipIdx.mapM (checkMethodAt (buildTable f).value)).Passes
      (List.map typedParts) (y.cls.methods.map fun m => (m.body, m.result)) ↔
        ∀ m ∈ y.cls.methods, WellTypedMethod (declarationsOf f) m := by
    rw [passes_mapM, forall₂_map_right_iff]
    refine forall₂_iff_forall related fun e member m sameMethod => ?_
    have declared := mem_zipIdx_iff_getElem?.mp member
    have among := mem_of_getElem? declared
    have shows := shows_declaredMethod consistent among e.2
    rw [← buildTable_value readable silent] at shows
    rw [checkMethodAt, methodAt?_declared readable silent declared]
    have complete := (readable.cls.methods e.1 among).wellRead.complete
    exact (wellTypedMethod_iff shows complete sameMethod.symm).symm
  have passes : (analyze (buildTable f).value f).Passes
      (fun a => a.file.cls.methods.map typedParts) (y.cls.methods.map fun m => (m.body, m.result)) ↔
        (checkHeader (buildTable f).value f.cls).Clean ∧
          (∀ d ∈ f.cls.fields, (checkType (buildTable f).value false d.type).Clean) ∧
          (f.cls.methods.zipIdx.mapM (checkMethodAt (buildTable f).value)).Passes
            (List.map typedParts) (y.cls.methods.map fun m => (m.body, m.result)) := by
    simp only [Logged.Passes, analyze, checkFile, checkClass, Logged.clean_bind, Logged.clean_pure,
      and_true, Logged.value_bind, Logged.value_pure, Code.clean_forM, and_assoc]
  rw [passes, ← header, ← fields, methods, ← declarations]
  constructor
  · rintro ⟨header, fields, methods⟩
    exact ⟨header, fields, methods⟩
  · rintro ⟨header, fields, methods⟩
    exact ⟨header, fields, methods⟩

theorem erase_analyze (t : Table) (f : File Pos) :
    (analyze t f).value.file.map (fun _ => ()) = f.map fun _ => () := by
  have methods : ((f.cls.methods.zipIdx.mapM (checkMethodAt t)).value.map
      (Method.map fun _ => ())) = f.cls.methods.map (Method.map fun _ => ()) := by
    rw [Logged.value_mapM, map_map]
    refine (map_congr_left fun e _ => ?_).trans (map_zipIdx_fst (Method.map fun _ => ()) _)
    rw [Function.comp_apply, checkMethodAt]
    cases t.methodAt? e.2 with
    | none => exact erase_map _ _
    | some m => exact erase_checkMethod e.1
  simp only [analyze, checkFile, checkClass, Logged.value_bind, Logged.value_pure, File.map,
    Class.map, File.mk.injEq, Class.mk.injEq, map_map, methods, true_and, and_true]
  exact ⟨rfl, rfl⟩

/-- **The checker follows the rules.** A file that was read, and on whose declarations nothing is
reported, is analysed without errors exactly if it can be typed, and then every expression gets
the type that it has in each typing. -/
theorem analyze_accepts_iff {bytes : List UInt8} (read : parse bytes = .ok f)
    (built : (buildTable f).reports = []) :
    (hasErrors (analyze (buildTable f).value f).reports = false ↔
      ∃ y : File (Option Ty), y.map (fun _ => ()) = f.map (fun _ => ()) ∧ WellTypedFile y) ∧
    ∀ y : File (Option Ty), y.map (fun _ => ()) = f.map (fun _ => ()) → WellTypedFile y →
      (analyze (buildTable f).value f).value.file.exprMarks.map Mark.type = y.exprMarks := by
  have readable := parse_readable read
  refine ⟨⟨fun clean => ?_, ?_⟩, fun y same typed => ?_⟩
  · let y := (analyze (buildTable f).value f).value.file.map Mark.type
    have same : y.map (fun _ => ()) = f.map fun _ => () :=
      (eraseFile_map _ _).trans (erase_analyze _ f)
    refine ⟨y, same, (wellTypedFile_iff readable built same).mpr ⟨clean, ?_⟩⟩
    simp only [y, File.map, Class.map, map_map]
    refine map_congr_left fun m _ => ?_
    simp only [Function.comp_apply, typedParts, Syntax.Method.map, stmt_mapList_eq_map]
  · rintro ⟨y, same, typed⟩
    exact ((wellTypedFile_iff readable built same).mp typed).1
  · have parts : (analyze (buildTable f).value f).value.file.cls.methods.map typedParts =
        y.cls.methods.map fun m => (m.body, m.result) :=
      ((wellTypedFile_iff readable built same).mp typed).2
    calc (analyze (buildTable f).value f).value.file.exprMarks.map Mark.type
        = (analyze (buildTable f).value f).value.file.cls.methods.flatMap
            fun m => partMarks (typedParts m) := by
          rw [File.exprMarks, map_flatMap]
          exact flatMap_congr fun m _ => (partMarks_typedParts m).symm
      _ = ((analyze (buildTable f).value f).value.file.cls.methods.map typedParts).flatMap
            partMarks := by rw [flatMap_map]
      _ = (y.cls.methods.map fun m => (m.body, m.result)).flatMap partMarks := by rw [parts]
      _ = y.exprMarks := by
          rw [flatMap_map, File.exprMarks]
          exact flatMap_congr fun m _ => (exprMarks_eq_partMarks m).symm

/-- A class that extends an imported one and uses members that it does not declare, two overloads
and static methods of an imported class. -/
def openText : List UInt8 :=
  ("import a.B;import a.C;class A extends B\x7bint[] xs;" ++
    "public int f(int k)\x7breturn xs[k]+xs.length;\x7d" ++
    "public int f(B b)\x7bb=this;hidden=C.make(b);return this.f(1)+this.missing(b)*hidden;\x7d" ++
    "public static void main(String[] a)\x7bA o;o=new A();" ++
    "if(o.f(2)<3&&!C.test())\x7bo.f(new A());\x7delse\x7b\x7d\x7d\x7d").toUTF8.toList

/-- A class that calls a method with an argument that fits no overload. -/
def mistypedText : List UInt8 :=
  "class A\x7bpublic int f(int k)\x7breturn this.f(true);\x7d\x7d".toUTF8.toList

theorem analyze_accepts_iff_open : (∃ f y, parse openText = .ok f ∧ (buildTable f).reports = [] ∧
      y.map (fun _ => ()) = f.map (fun _ => ()) ∧ WellTypedFile y ∧
      (analyze (buildTable f).value f).value.file.exprMarks.map Mark.type = y.exprMarks ∧
      y.exprMarks.length = 35) ∧
    ∃ f, parse mistypedText = .ok f ∧ (buildTable f).reports = [] ∧
      ¬∃ y : File (Option Ty), y.map (fun _ => ()) = f.map (fun _ => ()) ∧ WellTypedFile y := by
  constructor
  · obtain ⟨f, read, checked⟩ := exists_read openText (fun f => (buildTable f).reports.isEmpty &&
        !hasErrors (analyze (buildTable f).value f).reports &&
        (analyze (buildTable f).value f).value.file.exprMarks.length = 35) (by decide +kernel)
    simp only [Bool.and_eq_true, List.isEmpty_iff, Bool.not_eq_true', decide_eq_true_eq] at checked
    obtain ⟨⟨built, clean⟩, count⟩ := checked
    obtain ⟨y, same, typed⟩ := (analyze_accepts_iff read built).1.mp clean
    have types := (analyze_accepts_iff read built).2 y same typed
    refine ⟨f, y, read, built, same, typed, types, ?_⟩
    rw [← types, List.length_map, count]
  · obtain ⟨f, read, checked⟩ := exists_read mistypedText
      (fun f => (buildTable f).reports.isEmpty &&
        hasErrors (analyze (buildTable f).value f).reports) (by decide +kernel)
    simp only [Bool.and_eq_true, List.isEmpty_iff] at checked
    obtain ⟨built, failed⟩ := checked
    refine ⟨f, read, built, fun typing => ?_⟩
    rw [(analyze_accepts_iff read built).1.mpr typing] at failed
    cases failed

end Files

end JavaMinus.Typing
