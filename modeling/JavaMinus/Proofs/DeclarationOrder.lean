import JavaMinus.Proofs.BuiltTables
import JavaMinus.Proofs.MethodCode

/-!
# The order of declarations

The checker looks declarations up by name, so the order in which imports, fields and methods
stand in a file should not matter. The one thing that shows the order is the place of a method
in its class, which is part of its symbol; `Mark.anywhere` takes it out of what is found for a
call.

Two tables are interchangeable (`Table.Interchangeable`) if they answer the same to every
question of the checker. Overloads are the delicate part: candidates are scanned in the order of
declaration, but a method is chosen only if it is the only candidate, so that the choice does
not depend on the order (`resolve_anywhere`). From interchangeable tables every part of a class
gets the same reports and, up to the places of methods, the same findings
(`checkMethod_sameUpTo`). Reordering a file makes its table interchangeable with the one
before, and so it only reorders the reports of its methods and fields (`analyze_reordered`).
-/

namespace JavaMinus

open Syntax List

/-! ## Stages that agree up to a view of their results -/

namespace Logged

variable {α β γ δ : Type}

/-- Two stages report the same, and their results look the same. -/
structure SameUpTo (view : α → γ) (x y : Logged α) : Prop where
  reports : x.reports = y.reports
  value : view x.value = view y.value

namespace SameUpTo

variable {view : α → γ}

theorem refl (view : α → γ) (x : Logged α) : SameUpTo view x x := ⟨rfl, rfl⟩

theorem pure {a b : α} (same : view a = view b) :
    SameUpTo view (Pure.pure a) (Pure.pure b) := ⟨rfl, same⟩

theorem bind {seen : β → δ} {x y : Logged α} {f g : α → Logged β} (first : SameUpTo view x y)
    (next : ∀ a b, view a = view b → SameUpTo seen (f a) (g b)) :
    SameUpTo seen (x >>= f) (y >>= g) := by
  obtain ⟨reports, value⟩ := next _ _ first.value
  exact ⟨by rw [reports_bind, reports_bind, first.reports, reports], value⟩

theorem ite {c : Prop} [Decidable c] {x x' y y' : Logged α} (yes : SameUpTo view x y)
    (no : SameUpTo view x' y') : SameUpTo view (if c then x else x') (if c then y else y') := by
  split
  · exact yes
  · exact no

theorem bind_right {seen : β → δ} (x : Logged α) {f g : α → Logged β}
    (next : ∀ a, SameUpTo seen (f a) (g a)) : SameUpTo seen (x >>= f) (x >>= g) :=
  (refl id x).bind fun a b (same : a = b) => same ▸ next a

end SameUpTo

theorem reports_forM (f : α → Logged PUnit) (xs : List α) :
    (xs.forM f).reports = xs.flatMap fun x => (f x).reports := by
  induction xs with
  | nil => rfl
  | cons x rest ih => exact congrArg ((f x).reports ++ ·) ih

end Logged

/-! ## Findings without places -/

/-- A method wherever it is declared. -/
def MethodSymbol.anywhere (m : MethodSymbol) : MethodSymbol := { m with decl := 0 }

theorem MethodSymbol.congr_anywhere {α : Type} (view : MethodSymbol → α)
    (blind : ∀ m : MethodSymbol, view m.anywhere = view m) {m n : MethodSymbol}
    (same : m.anywhere = n.anywhere) : view m = view n := by
  rw [← blind m, same, blind]

namespace Typing

/-- A callee wherever it is declared. -/
def Callee.anywhere (c : Callee) : Callee := { c with method := c.method.map (·.anywhere) }

/-- What was found out about a node, wherever the callee is declared. -/
def Mark.anywhere (m : Mark) : Mark := { m with callee := m.callee.map (·.anywhere) }

section Views

theorem typeOf_anywhere (x : Expr Mark) : typeOf (x.map Mark.anywhere) = typeOf x := by
  cases x <;> rfl

theorem typeOf_congr {x y : Expr Mark} (same : x.map Mark.anywhere = y.map Mark.anywhere) :
    typeOf x = typeOf y := by
  rw [← typeOf_anywhere x, same, typeOf_anywhere]

theorem hinted_anywhere (want : Ty) (x : Expr Mark) :
    (hinted want x).map Mark.anywhere = hinted want (x.map Mark.anywhere) := by
  unfold hinted
  rw [typeOf_anywhere]
  split
  · rfl
  · cases x <;> rfl

theorem hinted_congr (want : Ty) {x y : Expr Mark}
    (same : x.map Mark.anywhere = y.map Mark.anywhere) :
    (hinted want x).map Mark.anywhere = (hinted want y).map Mark.anywhere := by
  rw [hinted_anywhere, hinted_anywhere, same]

theorem hintArgs_anywhere (callee : Option Callee) (args : List (Expr Mark)) :
    (hintArgs callee args).map (Expr.map Mark.anywhere) =
      hintArgs (callee.map Callee.anywhere) (args.map (Expr.map Mark.anywhere)) := by
  unfold hintArgs
  cases callee with
  | none => rfl
  | some c =>
    cases known : c.method with
    | none => simp [Callee.anywhere, known]
    | some m =>
      simp only [Option.bind_some, Option.map_some, Callee.anywhere, known,
        map_zipWith, zipWith_map_right, hinted_anywhere]
      rfl

end Views

end Typing

/-! ## Interchangeable tables -/

/-- Two tables answer the same to every question of the checker. -/
structure Table.Interchangeable (t u : Table) : Prop where
  cls : t.cls = u.cls
  super : t.super = u.super
  isImported : t.isImported = u.isImported
  field? : t.field? = u.field?
  methods : (t.methods.map MethodSymbol.anywhere).Perm (u.methods.map MethodSymbol.anywhere)

namespace Typing

section Tables

variable {t u : Table} (same : t.Interchangeable u)

include same

theorem superImported_congr : t.superImported = u.superImported := by
  rw [Table.superImported, Table.superImported, same.cls, same.super, same.isImported]

theorem knowsClass_congr : t.knowsClass = u.knowsClass := by
  funext name
  rw [Table.knowsClass, Table.knowsClass, same.cls, same.isImported]

theorem assignable_congr : assignable t = assignable u := by
  funext want found
  rw [assignable, assignable, Table.isA, Table.isA, same.cls, same.super]

theorem applicable_congr (args : List Ty) (m : MethodSymbol) :
    applicable t args m = applicable u args m.anywhere := by
  rw [applicable, applicable, assignable_congr same]
  rfl

end Tables

/-! ## Overloads -/

/-- The outcome of looking for an overload, wherever it is declared. -/
def Resolution.anywhere : Resolution → Resolution
  | .found m => .found m.anywhere
  | r => r

theorem pick_anywhere (exact fitting : List MethodSymbol) : (pick exact fitting).anywhere =
      pick (exact.map MethodSymbol.anywhere) (fitting.map MethodSymbol.anywhere) := by
  rcases exact with _ | ⟨m, _ | ⟨m', exact⟩⟩ <;> rcases fitting with _ | ⟨n, _ | ⟨n', fitting⟩⟩ <;>
    rfl

theorem only_perm {α : Type} {l l' : List α} (perm : l.Perm l') : only l = only l' := by
  refine Option.ext fun a => ?_
  rw [only_eq_some, only_eq_some]
  constructor
  · rintro rfl
    exact (singleton_perm.mp perm).symm
  · rintro rfl
    exact perm_singleton.mp perm

theorem pick_perm {exact exact' fitting fitting' : List MethodSymbol}
    (exactly : exact.Perm exact') (fits : fitting.Perm fitting') :
    pick exact fitting = pick exact' fitting' := by
  have empty : fitting = [] ↔ fitting' = [] := by
    constructor
    · rintro rfl
      exact nil_perm.mp fits
    · rintro rfl
      exact perm_nil.mp fits
  rw [pick_eq, pick_eq, only_perm exactly, only_perm fits, if_congr empty rfl rfl]

theorem resolve_anywhere {t u : Table} (same : t.Interchangeable u) (name : String)
    (args : List Ty) : (resolve t name args).anywhere = (resolve u name args).anywhere := by
  have view : ∀ v : Table, v.Interchangeable u → (resolve v name args).anywhere = pick
        ((((v.methods.map MethodSymbol.anywhere).filter fun m => m.name = name).filter
          (applicable u args)).filter fun m => m.paramTypes = args)
        (((v.methods.map MethodSymbol.anywhere).filter fun m => m.name = name).filter
          (applicable u args)) := by
    intro v sees
    rw [resolve_eq, pick_anywhere]
    simp only [Table.methodsNamed, filter_map, Function.comp_def,
      funext (applicable_congr sees args)]
    rfl
  rw [view t same, view u ⟨rfl, rfl, rfl, rfl, List.Perm.refl _⟩]
  exact pick_perm (((same.methods.filter _).filter _).filter _) ((same.methods.filter _).filter _)

/-! ## Expressions -/

/-- Two scopes answer the same to every question of the checker. -/
structure Scope.Interchangeable (s u : Scope) : Prop where
  table : s.table.Interchangeable u.table
  method : s.method.anywhere = u.method.anywhere

section Expressions

variable {s u : Scope} (same : s.Interchangeable u)

include same

theorem Scope.Interchangeable.isStatic : s.method.isStatic = u.method.isStatic :=
  MethodSymbol.congr_anywhere MethodSymbol.isStatic (fun _ => rfl) same.method

theorem Scope.Interchangeable.name : s.method.name = u.method.name :=
  MethodSymbol.congr_anywhere MethodSymbol.name (fun _ => rfl) same.method

theorem Scope.Interchangeable.ret : s.method.ret = u.method.ret :=
  MethodSymbol.congr_anywhere MethodSymbol.ret (fun _ => rfl) same.method

theorem Scope.Interchangeable.var? : s.method.var? = u.method.var? :=
  MethodSymbol.congr_anywhere MethodSymbol.var? (fun _ => rfl) same.method

theorem Scope.Interchangeable.isParam : s.method.isParam = u.method.isParam :=
  MethodSymbol.congr_anywhere MethodSymbol.isParam (fun _ => rfl) same.method

theorem lookup_congr : s.lookup = u.lookup := by
  funext p name
  simp only [Scope.lookup, same.var?, same.isParam, same.table.field?, same.isStatic, same.name,
    superImported_congr same.table]

theorem receiverClass?_congr : s.receiverClass? = u.receiverClass? := by
  funext r
  cases r with
  | ident p name =>
    rw [Scope.receiverClass?, Scope.receiverClass?, Scope.varOrField?, Scope.varOrField?,
      same.var?, same.table.field?, knowsClass_congr same.table]
  | _ => rfl

theorem checkIdent_congr : checkIdent s = checkIdent u := by
  funext p name
  rw [checkIdent, checkIdent, lookup_congr same, knowsClass_congr same.table]

omit same

theorem calleeOf_sameUpTo {t u : Table} (same : t.Interchangeable u) (p : Pos) (onClass : Bool)
    (recv : Ty) (name : String) (args : List Ty) :
    Logged.SameUpTo (Option.map Callee.anywhere) (calleeOf t p onClass recv name args)
      (calleeOf u p onClass recv name args) := by
  have chosen := resolve_anywhere same name args
  rw [calleeOf, calleeOf, same.cls, superImported_congr same]
  refine .ite (.refl _ _) (.ite (.refl _ _) (.ite (.refl _ _) (.ite (.refl _ _) ?_)))
  cases here : resolve t name args with
  | ambiguous | missing =>
    cases there : resolve u name args <;> rw [here, there] at chosen <;> cases chosen
    exact .refl _ _
  | found m =>
    cases there : resolve u name args with
    | found n =>
      rw [here, there] at chosen
      have symbol : m.anywhere = n.anywhere := Resolution.found.inj chosen
      have isStatic : m.isStatic = n.isStatic :=
        MethodSymbol.congr_anywhere MethodSymbol.isStatic (fun _ => rfl) symbol
      have signature : m.signature = n.signature :=
        MethodSymbol.congr_anywhere MethodSymbol.signature (fun _ => rfl) symbol
      have ret : m.ret = n.ret := MethodSymbol.congr_anywhere MethodSymbol.ret (fun _ => rfl) symbol
      dsimp only
      rw [isStatic, signature, ret]
      refine .bind_right _ fun _ => .bind_right _ fun _ => .pure ?_
      simp only [Option.map_some, Callee.anywhere, symbol]
    | _ =>
      rw [here, there] at chosen
      cases chosen

theorem checkArgs_sameUpTo {as : List (Expr Pos)}
    (each : ∀ a ∈ as, Logged.SameUpTo (Expr.map Mark.anywhere) (checkExpr s a) (checkExpr u a)) :
    Logged.SameUpTo (List.map (Expr.map Mark.anywhere)) (checkArgs s as) (checkArgs u as) := by
  induction as with
  | nil => exact .refl _ _
  | cons a rest ih =>
    obtain ⟨first, others⟩ := forall_mem_cons.mp each
    rw [checkArgs, checkArgs]
    refine first.bind fun x y seen => ?_
    rw [typeOf_congr seen]
    refine .bind_right _ fun _ => (ih others).bind fun xs ys seenRest => .pure ?_
    rw [map_cons, map_cons, seen, seenRest]

theorem checkExpr_sameUpTo (same : s.Interchangeable u) (x : Expr Pos) :
    Logged.SameUpTo (Expr.map Mark.anywhere) (checkExpr s x) (checkExpr u x) := by
  induction x using Expr.partsInduction with
  | step x parts =>
  cases x with
  | int | bool | hole => exact .refl _ _
  | this p =>
    rw [checkExpr, checkExpr, same.isStatic, same.name, same.table.cls]
    exact .refl _ _
  | ident p name =>
    rw [checkExpr, checkExpr, checkIdent_congr same]
    exact .refl _ _
  | newObject p name =>
    rw [checkExpr, checkExpr, knowsClass_congr same.table]
    exact .refl _ _
  | not p x =>
    rw [checkExpr, checkExpr]
    refine (parts x (by simp [Expr.parts])).bind fun y y' seen => ?_
    rw [typeOf_congr seen]
    refine .bind_right _ fun _ => .pure ?_
    exact congrArg (Expr.not _) (hinted_congr _ seen)
  | length p a =>
    rw [checkExpr, checkExpr]
    refine (parts a (by simp [Expr.parts])).bind fun y y' seen => ?_
    dsimp only
    rw [typeOf_congr seen]
    refine .bind_right _ fun _ => .pure ?_
    exact congrArg (Expr.length _) (hinted_congr _ seen)
  | newArray p n =>
    rw [checkExpr, checkExpr]
    refine (parts n (by simp [Expr.parts])).bind fun y y' seen => ?_
    rw [typeOf_congr seen]
    refine .bind_right _ fun _ => .pure ?_
    exact congrArg (Expr.newArray _) (hinted_congr _ seen)
  | index p a i =>
    rw [checkExpr, checkExpr]
    refine (parts a (by simp [Expr.parts])).bind fun y y' seen => ?_
    dsimp only
    rw [typeOf_congr seen]
    refine .bind_right _ fun _ => (parts i (by simp [Expr.parts])).bind fun z z' seenIndex => ?_
    rw [typeOf_congr seenIndex]
    refine .bind_right _ fun _ => .pure ?_
    exact congrArg₂ (Expr.index _) (hinted_congr _ seen) (hinted_congr _ seenIndex)
  | binary p op l r =>
    cases types : operatorTypes op with
    | none =>
      simp only [checkExpr, types]
      exact .refl _ _
    | some t =>
      simp only [checkExpr, types]
      refine (parts l (by simp [Expr.parts])).bind fun y y' seen => ?_
      refine (parts r (by simp [Expr.parts])).bind fun z z' seenRight => ?_
      rw [typeOf_congr seen, typeOf_congr seenRight]
      refine .bind_right _ fun _ => .pure ?_
      exact congrArg₂ (Expr.binary _ op) (hinted_congr _ seen) (hinted_congr _ seenRight)
  | call p r name as =>
    have recv : Logged.SameUpTo (Expr.map Mark.anywhere) (checkReceiver s r)
        (checkReceiver u r) := by
      unfold checkReceiver
      rw [receiverClass?_congr same]
      cases u.receiverClass? r with
      | some named => exact .refl _ _
      | none => exact parts r (by simp [Expr.parts])
    rw [checkExpr_call, checkExpr_call, receiverClass?_congr same]
    refine recv.bind fun y y' seen => ?_
    refine (checkArgs_sameUpTo fun a member => parts a (by simp [Expr.parts, member])).bind
      fun xs xs' seenArgs => ?_
    have types : xs.map typeOf = xs'.map typeOf := by
      have views := congrArg (List.map typeOf) seenArgs
      simpa only [map_map, Function.comp_def, typeOf_anywhere] using views
    rw [typeOf_congr seen, types]
    refine (calleeOf_sameUpTo same.table p _ _ name _).bind fun c c' seenCallee => .pure ?_
    have mark : (callMark p c).anywhere = (callMark p c').anywhere := by
      cases c <;> cases c' <;> simp_all [callMark, Mark.anywhere, Callee.anywhere]
    simp only [Expr.map, mapList_eq_map, mark, seen, hintArgs_anywhere, seenCallee, seenArgs]

end Expressions

/-! ## Statements and methods -/

section

variable {s u : Scope}

theorem checkWanted_sameUpTo (same : s.Interchangeable u) (want : Ty) (p : Pos)
    (message : Ty → String) (x : Expr Pos) :
    Logged.SameUpTo (Expr.map Mark.anywhere)
      (do
        let y ← checkExpr s x
        complainIf (clashes (typeOf y) want) p (message (typeOf y))
        return hinted want y)
      (do
        let y ← checkExpr u x
        complainIf (clashes (typeOf y) want) p (message (typeOf y))
        return hinted want y) := by
  refine (checkExpr_sameUpTo same x).bind fun y y' seen => ?_
  rw [typeOf_congr seen]
  exact .bind_right _ fun _ => .pure (hinted_congr _ seen)

theorem checkCond_sameUpTo (same : s.Interchangeable u) (what : String) (x : Expr Pos) :
    Logged.SameUpTo (Expr.map Mark.anywhere) (checkCond s what x) (checkCond u what x) :=
  checkWanted_sameUpTo same .boolean _
    (fun t => what ++ " condition must be boolean, got " ++ t.text) x

theorem checkIndex_sameUpTo (same : s.Interchangeable u) (x : Expr Pos) :
    Logged.SameUpTo (Expr.map Mark.anywhere) (checkIndex s x) (checkIndex u x) :=
  checkWanted_sameUpTo same .int _ (fun t => "array index must be int, got " ++ t.text) x

theorem checkTarget_congr (same : s.Interchangeable u) (t : Target Pos) :
    checkTarget s t = checkTarget u t := by
  rw [checkTarget, checkTarget, lookup_congr same]

theorem checkStmts_sameUpTo {ss : List (Stmt Pos)}
    (each : ∀ x ∈ ss, Logged.SameUpTo (Stmt.map Mark.anywhere) (checkStmt s x) (checkStmt u x)) :
    Logged.SameUpTo (List.map (Stmt.map Mark.anywhere)) (checkStmts s ss) (checkStmts u ss) := by
  induction ss with
  | nil => exact .refl _ _
  | cons x rest ih =>
    obtain ⟨first, others⟩ := forall_mem_cons.mp each
    rw [checkStmts, checkStmts]
    refine first.bind fun y y' seen => (ih others).bind fun ys ys' seenRest => .pure ?_
    rw [map_cons, map_cons, seen, seenRest]

theorem checkStmt_sameUpTo (same : s.Interchangeable u) (x : Stmt Pos) :
    Logged.SameUpTo (Stmt.map Mark.anywhere) (checkStmt s x) (checkStmt u x) := by
  induction x using Stmt.partsInduction with
  | step x parts =>
  cases x with
  | hole => exact .refl _ _
  | block p ss =>
    rw [checkStmt, checkStmt]
    refine (checkStmts_sameUpTo parts).bind fun ys ys' seen => .pure ?_
    rw [Stmt.map, Stmt.map, stmt_mapList_eq_map, stmt_mapList_eq_map, seen]
  | ifElse p c y n =>
    rw [checkStmt, checkStmt]
    refine (checkCond_sameUpTo same "if" c).bind fun d d' seen => ?_
    refine (parts y (by simp [Stmt.parts])).bind fun z z' seenYes => ?_
    refine (parts n (by simp [Stmt.parts])).bind fun w w' seenNo => .pure ?_
    rw [Stmt.map, Stmt.map, seen, seenYes, seenNo]
  | «while» p c b =>
    rw [checkStmt, checkStmt]
    refine (checkCond_sameUpTo same "while" c).bind fun d d' seen => ?_
    refine (parts b (by simp [Stmt.parts])).bind fun z z' seenBody => .pure ?_
    rw [Stmt.map, Stmt.map, seen, seenBody]
  | assign p t v =>
    rw [checkStmt, checkStmt, checkTarget_congr same, assignable_congr same.table]
    refine .bind_right _ fun target => (checkExpr_sameUpTo same v).bind fun y y' seen => ?_
    rw [typeOf_congr seen]
    refine .bind_right _ fun _ => .pure ?_
    rw [Stmt.map, Stmt.map, hinted_congr _ seen]
  | arrayAssign p t i v =>
    rw [checkStmt, checkStmt, checkTarget_congr same, assignable_congr same.table]
    refine .bind_right _ fun target => .bind_right _ fun _ => ?_
    refine (checkIndex_sameUpTo same i).bind fun z z' seenIndex => ?_
    refine (checkExpr_sameUpTo same v).bind fun y y' seen => ?_
    rw [typeOf_congr seen]
    refine .bind_right _ fun _ => .pure ?_
    rw [Stmt.map, Stmt.map, seenIndex, hinted_congr _ seen]
  | expr p x =>
    rw [checkStmt, checkStmt]
    refine (checkExpr_sameUpTo same x).bind fun y y' seen => .bind_right _ fun _ => .pure ?_
    rw [Stmt.map, Stmt.map, seen]

theorem checkType_congr {t u : Table} (same : t.Interchangeable u) : checkType t = checkType u := by
  funext isResult x
  rw [checkType, checkType, knowsClass_congr same]

theorem checkLocal_congr (same : s.Interchangeable u) : checkLocal s = checkLocal u := by
  funext d
  rw [checkLocal, checkLocal, checkType_congr same.table, same.table.field?, same.isStatic]

theorem checkResult_sameUpTo (same : s.Interchangeable u) (m : Syntax.Method Pos) :
    Logged.SameUpTo (Option.map (Expr.map Mark.anywhere)) (checkResult s m) (checkResult u m) := by
  rw [checkResult, checkResult, same.ret, same.name, assignable_congr same.table]
  cases m.result with
  | none => cases u.method.ret.isVoid <;> exact .refl _ _
  | some x =>
    cases u.method.ret.isVoid with
    | true =>
      refine .bind_right _ fun _ => (checkExpr_sameUpTo same x).bind fun y y' seen => .pure ?_
      exact congrArg some seen
    | false =>
      refine (checkExpr_sameUpTo same x).bind fun y y' seen => ?_
      rw [typeOf_congr seen]
      exact .bind_right _ fun _ => .pure (congrArg some (hinted_congr _ seen))

theorem checkMethod_sameUpTo (same : s.Interchangeable u) (m : Syntax.Method Pos) :
    Logged.SameUpTo (Method.map Mark.anywhere) (checkMethod s m) (checkMethod u m) := by
  rw [checkMethod, checkMethod, checkType_congr same.table, checkLocal_congr same]
  refine .bind_right _ fun _ => .bind_right _ fun _ => ?_
  refine (checkStmts_sameUpTo fun x _ => checkStmt_sameUpTo same x).bind fun ys ys' seen => ?_
  refine (checkResult_sameUpTo same m).bind fun r r' seenResult => .pure ?_
  simp only [Method.map, stmt_mapList_eq_map, seen, seenResult]

theorem checkHeader_congr {t u : Table} (same : t.Interchangeable u) :
    checkHeader t = checkHeader u := by
  funext c
  rw [checkHeader, checkHeader, same.isImported]

end

end Typing

/-! ## Reordered files -/

/-- A file has the declarations of another, in some order. -/
structure Syntax.File.Reordered (f g : File Pos) : Prop where
  mark : g.mark = f.mark
  imports : g.imports.Perm f.imports
  header : (g.cls.mark, g.cls.name, g.cls.super) = (f.cls.mark, f.cls.name, f.cls.super)
  fields : g.cls.fields.Perm f.cls.fields
  methods : g.cls.methods.Perm f.cls.methods

section Reordered

open Typing

variable {f g : File Pos} (reordered : f.Reordered g)

include reordered

theorem Syntax.File.Reordered.readable (readable : f.Readable) : g.Readable := by
  have header := reordered.header
  simp only [Prod.mk.injEq] at header
  obtain ⟨_, name, super⟩ := header
  refine ⟨fun i member => readable.imports i (reordered.imports.mem_iff.mp member), ?_, ?_, ?_, ?_⟩
  · rw [name]
    exact readable.cls.name
  · rw [super]
    exact readable.cls.super
  · exact fun d member => readable.cls.fields d (reordered.fields.mem_iff.mp member)
  · exact fun m member => readable.cls.methods m (reordered.methods.mem_iff.mp member)

theorem Syntax.File.Reordered.consistent (consistent : f.Consistent) : g.Consistent where
  imports := by
    refine (reordered.imports.pairwise_iff ?_).mpr consistent.imports
    exact fun agree same => (agree same.symm).symm
  fields := (reordered.fields.map _).nodup_iff.mpr consistent.fields
  vars m member := consistent.vars m (reordered.methods.mem_iff.mp member)
  methods := (reordered.methods.map _).nodup_iff.mpr consistent.methods

theorem Syntax.File.Reordered.table (consistent : f.Consistent) :
    (declaredTable g).Interchangeable (declaredTable f) := by
  have header := reordered.header
  simp only [Prod.mk.injEq] at header
  obtain ⟨_, name, super⟩ := header
  have fieldNames : ∀ h : File Pos,
      (declaredTable h).fields.map (·.name) = h.cls.fields.map (·.name) := by
    intro h
    rw [declaredTable, map_map]
    rfl
  have methods : ∀ h : File Pos, (declaredTable h).methods.map MethodSymbol.anywhere =
      h.cls.methods.map (declaredMethod 0) := by
    intro h
    rw [declaredTable, map_map]
    exact map_zipIdx_fst (declaredMethod 0) h.cls.methods
  refine ⟨name, super, ?_, ?_, ?_⟩
  · funext c
    rw [isImported_declaredTable, isImported_declaredTable]
    exact reordered.imports.any_eq
  · funext c
    refine Option.ext fun s => ?_
    have here := (reordered.consistent consistent).fields
    have there := consistent.fields
    rw [← fieldNames] at here there
    rw [Table.field?, Table.field?, find?_name_eq_some here, find?_name_eq_some there]
    exact and_congr_left fun _ => (reordered.fields.map declSymbol).mem_iff
  · rw [methods, methods]
    exact reordered.methods.map _

end Reordered

/-! ## The analysis of reordered files -/

section

open Typing

variable {f g : File Pos}

theorem checkMethodAt_sameUpTo (readable : f.Readable) (silent : (buildTable f).reports = [])
    {i : Nat} {m : Syntax.Method Pos} (declared : f.cls.methods[i]? = some m) {u : Table}
    (same : u.Interchangeable (declaredTable f)) :
    Logged.SameUpTo (Method.map Mark.anywhere) (checkMethod ⟨u, declaredMethod 0 m⟩ m)
      (checkMethodAt (buildTable f).value (m, i)) := by
  rw [checkMethodAt, methodAt?_declared readable silent declared]
  rw [← buildTable_value readable silent] at same
  exact checkMethod_sameUpTo (s := ⟨u, declaredMethod 0 m⟩)
    (u := ⟨(buildTable f).value, declaredMethod i m⟩) ⟨same, rfl⟩ m

theorem analyze_reports (readable : f.Readable) (silent : (buildTable f).reports = []) {u : Table}
    (same : u.Interchangeable (declaredTable f)) :
    (analyze (buildTable f).value f).reports = (checkHeader u f.cls).reports ++
      (f.cls.fields.flatMap (fun d => (checkType u false d.type).reports) ++
        f.cls.methods.flatMap fun m => (checkMethod ⟨u, declaredMethod 0 m⟩ m).reports) := by
  have methods : f.cls.methods.zipIdx.flatMap
      (fun e => (checkMethodAt (buildTable f).value e).reports) =
        f.cls.methods.flatMap fun m => (checkMethod ⟨u, declaredMethod 0 m⟩ m).reports := by
    rw [flatMap_def, flatMap_def]
    refine congrArg List.flatten (.trans (map_congr_left fun e member => ?_)
      (map_zipIdx_fst _ _))
    have declared := mem_zipIdx_iff_getElem?.mp member
    exact (checkMethodAt_sameUpTo readable silent declared same).reports.symm
  simp only [analyze, checkFile, checkClass, Logged.reports_bind, Logged.reports_mapM,
    Logged.reports_forM, Logged.reports_pure, append_nil, methods]
  rw [buildTable_value readable silent, checkHeader_congr same, checkType_congr same]

/-- **Declaration order.** If nothing is reported on the declarations of a file, then nothing is
in any other order of imports, fields and methods; the reports of the checker are the same up to
order, and so is, wherever its callees are declared, what it finds for every node of a
method. -/
theorem analyze_reordered {bytes : List UInt8} (read : parse bytes = .ok f)
    (built : (buildTable f).reports = []) (reordered : f.Reordered g) :
    (buildTable g).reports = [] ∧
      (analyze (buildTable g).value g).reports.Perm (analyze (buildTable f).value f).reports ∧
      ∀ (i j : Nat) (m : Syntax.Method Pos), f.cls.methods[i]? = some m →
        g.cls.methods[j]? = some m →
        ∃ a b, (analyze (buildTable f).value f).value.file.cls.methods[i]? = some a ∧
          (analyze (buildTable g).value g).value.file.cls.methods[j]? = some b ∧
          a.map Mark.anywhere = b.map Mark.anywhere := by
  have readable := parse_readable read
  have readable' := reordered.readable readable
  have consistent := (buildTable_reports readable).mp built
  have built' := (buildTable_reports readable').mpr (reordered.consistent consistent)
  have same := reordered.table consistent
  have self : ∀ t : Table, t.Interchangeable t := fun t => ⟨rfl, rfl, rfl, rfl, .refl _⟩
  have checked : ∀ (h : File Pos) (k : Nat) (m : Syntax.Method Pos), h.cls.methods[k]? = some m →
      (analyze (buildTable h).value h).value.file.cls.methods[k]? =
        some (checkMethodAt (buildTable h).value (m, k)).value := by
    intro h k m declared
    have methods : (analyze (buildTable h).value h).value.file.cls.methods =
        h.cls.methods.zipIdx.map fun e => (checkMethodAt (buildTable h).value e).value :=
      Logged.value_mapM _ _
    simp [methods, declared]
  refine ⟨built', ?_, fun i j m here there => ⟨_, _, checked f i m here, checked g j m there, ?_⟩⟩
  · have header : checkHeader (declaredTable g) g.cls = checkHeader (declaredTable g) f.cls := by
      have parts := reordered.header
      simp only [Prod.mk.injEq] at parts
      rw [checkHeader, checkHeader, parts.1, parts.2.1, parts.2.2]
    rw [analyze_reports readable' built' (self _), analyze_reports readable built same, header]
    refine (List.Perm.append_left _ (List.Perm.append ?_ ?_))
    · exact reordered.fields.flatMap_right _
    · exact reordered.methods.flatMap_right _
  · exact (checkMethodAt_sameUpTo readable built here same).value.symm.trans
      (checkMethodAt_sameUpTo readable' built' there (self _)).value

/-- A class with an error in each of two methods: an overload that is not unique, for an argument
of unknown type, and an operand that is no number. -/
def overloadedText : List UInt8 :=
  ("import a.B;import a.C;class A extends B\x7bint x;C c;public int f(int k)\x7breturn k+x;\x7d" ++
    "public int f(boolean b)\x7bx=this.f(1);return this.f(c.g());\x7d" ++
    "public int h()\x7breturn this.f(true)+b+c;\x7d\x7d").toUTF8.toList

theorem analyze_reordered_overloaded : ∃ f g m, parse overloadedText = .ok f ∧
    (buildTable f).reports = [] ∧ f.Reordered g ∧ f.cls.methods[0]? = some m ∧
    g.cls.methods[2]? = some m ∧ (analyze (buildTable f).value f).reports.length = 2 ∧
    (buildTable g).reports = [] ∧
    (analyze (buildTable g).value g).reports.Perm (analyze (buildTable f).value f).reports ∧
    ∃ a b, (analyze (buildTable f).value f).value.file.cls.methods[0]? = some a ∧
      (analyze (buildTable g).value g).value.file.cls.methods[2]? = some b ∧
      a.map Mark.anywhere = b.map Mark.anywhere := by
  obtain ⟨f, read, checked⟩ := exists_read overloadedText
    (fun f => (buildTable f).reports.isEmpty && f.cls.methods.length = 3 &&
      (analyze (buildTable f).value f).reports.length = 2) (by decide +kernel)
  simp only [Bool.and_eq_true, List.isEmpty_iff, decide_eq_true_eq] at checked
  obtain ⟨⟨built, three⟩, two⟩ := checked
  let g : File Pos := { f with
    imports := f.imports.reverse
    cls := { f.cls with fields := f.cls.fields.reverse, methods := f.cls.methods.reverse } }
  have reordered : f.Reordered g :=
    ⟨rfl, f.imports.reverse_perm, rfl, f.cls.fields.reverse_perm, f.cls.methods.reverse_perm⟩
  obtain ⟨m, here⟩ : ∃ m, f.cls.methods[0]? = some m := ⟨_, List.getElem?_eq_getElem (by omega)⟩
  have there : g.cls.methods[2]? = some m := by
    rw [List.getElem?_reverse (by omega), three]
    exact here
  obtain ⟨built', reports, found⟩ := analyze_reordered read built reordered
  exact ⟨f, g, m, read, built, reordered, here, there, two, built', reports,
    found 0 2 m here there⟩

end

end JavaMinus
