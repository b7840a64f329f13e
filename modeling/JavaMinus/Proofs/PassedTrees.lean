import JavaMinus.Proofs.SourceMeaning
import JavaMinus.Proofs.TreeInduction
import JavaMinus.Proofs.TypingRules

/-!
# What checking without errors leaves

What the checker leaves of a method in which it finds no error is told node by node (`Passed`,
`PassedStmt`, `checkMethod_passed`): each name refers to something, each call has a callee, and
no type is in the place of another. Checking changes nothing of a tree but its marks
(`erase_checkMethod`).
-/

namespace JavaMinus

/-! ## Stages without errors -/

namespace Logged

variable {α β : Type}

/-- No diagnostic is an error. -/
def Clean (x : Logged α) : Prop := hasErrors x.reports = false

@[simp] theorem value_pure (a : α) : (Pure.pure a : Logged α).value = a := rfl

@[simp] theorem value_bind (x : Logged α) (f : α → Logged β) :
    (x >>= f).value = (f x.value).value := rfl

@[simp] theorem clean_pure (a : α) : (Pure.pure a : Logged α).Clean := rfl

@[simp] theorem clean_bind {x : Logged α} {f : α → Logged β} :
    (x >>= f).Clean ↔ x.Clean ∧ (f x.value).Clean := by
  have reports : (x >>= f).reports = x.reports ++ (f x.value).reports := rfl
  simp [Clean, hasErrors, reports]

@[simp] theorem not_clean_tell_error (stage : Stage) (line col : Int) (message : String) :
    ¬ (tell (.error stage line col message)).Clean := by
  simp [Clean, hasErrors, tell, Diagnostic.error, Diagnostic.isError]

end Logged

namespace Typing

open Syntax List
open Meaning (namesClass)

variable {name : String} {args : List Ty} {x : Expr Mark} {m : MethodSymbol} {onClass : Bool}
  {t : Table} {p : Pos} {recv : Ty}

@[simp] theorem not_clean_complain (p : Pos) (message : String) : ¬ (complain p message).Clean :=
  Logged.not_clean_tell_error _ _ _ _

@[simp] theorem clean_complainIf {c : Bool} {message : String} :
    (complainIf c p message).Clean ↔ c = false := by
  cases c <;> simp [complainIf, Logged.tellIf, Logged.Clean, hasErrors, semanticError,
    Diagnostic.error, Diagnostic.isError]

@[simp] theorem clean_warnIf (c : Bool) (p : Pos) (message : String) :
    (warnIf c p message).Clean := by
  cases c <;> simp [warnIf, Logged.tellIf, Logged.Clean, hasErrors, Diagnostic.warning,
    Diagnostic.isError]

theorem forall_hintArgs {P : Expr Mark → Prop} {callee : Option Callee} {args : List (Expr Mark)}
    (each : ∀ x ∈ args, P x)
    (hints : ∀ m, callee.bind (·.method) = some m → ∀ t ∈ m.paramTypes, ∀ x, P x →
      P (hinted t x)) : ∀ x ∈ hintArgs callee args, P x := by
  unfold hintArgs
  split
  case h_1 m found =>
    intro x member
    obtain ⟨i, bound, rfl⟩ := mem_iff_getElem.mp member
    rw [getElem_zipWith]
    exact hints m found _ (getElem_mem _) _ (each _ (getElem_mem _))
  case h_2 => exact each

/-! ## Calls -/

theorem resolve_applies (found : resolve t name args = .found m) :
    m ∈ (t.methodsNamed name).filter (applicable t args) := by
  unfold resolve at found
  dsimp only at found
  split at found
  case h_1 only =>
    cases found
    exact mem_of_mem_filter (only ▸ mem_singleton_self _)
  case h_2 only _ =>
    cases found
    exact only ▸ mem_singleton_self _
  all_goals cases found

theorem resolve_arity (found : resolve t name args = .found m) : m.params.length = args.length := by
  have applies := of_mem_filter (resolve_applies found)
  simp only [applicable, Bool.and_eq_true, decide_eq_true_eq] at applies
  exact applies.1

theorem calleeOf_method
    (found : (calleeOf t p onClass recv name args).value.bind (·.method) = some m) :
    resolve t name args = .found m := by
  unfold calleeOf at found
  split at found
  · cases found
  split at found
  · cases found
  split at found
  · cases found
  split at found
  · cases found
  split at found
  · cases found
  · split at found <;> cases found
  · cases found
    assumption

/-- A call that is checked without errors has a callee, which is static exactly on a
class. -/
theorem calleeOf_static (clean : (calleeOf t p onClass recv name args).Clean)
    (named : onClass = true → ∃ c, recv = .object c) :
    ∃ callee, (calleeOf t p onClass recv name args).value = some callee ∧
      callee.isStatic = onClass := by
  unfold calleeOf at clean ⊢
  split
  case isTrue other =>
    rw [Bool.and_eq_true] at other
    exact ⟨_, rfl, other.1.symm⟩
  case isFalse own =>
  rw [if_neg own] at clean
  have instance_of : ∀ t : Ty, recv = t → t.isObject = false → onClass = false := by
    rintro _ rfl none
    cases onClass with
    | false => rfl
    | true =>
      obtain ⟨c, rfl⟩ := named rfl
      cases none
  split
  case isTrue unknown =>
    refine ⟨_, rfl, (instance_of recv rfl ?_).symm⟩
    rcases recv with ⟨_ | _ | _ | _ | _ | c, _ | _⟩ <;> simp_all [Ty.isUnknown, Ty.isObject]
  case isFalse known =>
  rw [if_neg known] at clean
  split
  case isTrue value =>
    rw [if_pos value] at clean
    simp at clean
  case isFalse object =>
  rw [if_neg object] at clean
  split
  case isTrue foreign =>
    refine ⟨_, rfl, ?_⟩
    cases onClass with
    | false => rfl
    | true => exact absurd (by simp [foreign]) own
  case isFalse mine =>
  rw [if_neg mine] at clean
  split
  case h_1 ambiguous =>
    rw [ambiguous] at clean
    simp at clean
  case h_2 missing =>
    rw [missing] at clean
    split
    case isTrue assumed =>
      refine ⟨_, rfl, ?_⟩
      simp_all [assumedCallee]
    case isFalse none =>
      rw [if_neg none] at clean
      simp at clean
  case h_3 m found =>
    rw [found] at clean
    simp only [Logged.clean_bind, clean_complainIf] at clean
    refine ⟨_, rfl, ?_⟩
    obtain ⟨onlyStatic, onlyInstance, _⟩ := clean
    cases onClass <;> simp_all

/-- Check the receiver of a call, which may be a class. -/
def checkReceiver (s : Scope) (r : Expr Pos) : Logged (Expr Mark) :=
  match s.receiverClass? r with
  | some (q, c) =>
    pure (.ident { pos := q, type := some (.object c), ref := some ⟨.cls, .object c⟩ } c)
  | none => checkExpr s r

/-- What is found out about a call. -/
def callMark (p : Pos) (callee : Option Callee) : Mark where
  pos := p
  type := some (match callee with
    | some c => c.ret
    | none => .unknown)
  callee := callee

theorem checkExpr_call (s : Scope) (p : Pos) (r : Expr Pos) (name : String)
    (as : List (Expr Pos)) :
    checkExpr s (.call p r name as) = (do
      let recv ← checkReceiver s r
      let args ← checkArgs s as
      let callee ← calleeOf s.table p (s.receiverClass? r).isSome (typeOf recv) name
        (args.map typeOf)
      return .call (callMark p callee) recv name (hintArgs callee args)) := by
  rw [checkExpr, checkReceiver]
  cases s.receiverClass? r <;> rfl

/-! ## Checking changes only marks -/

section

variable {s : Scope}

theorem mapList_eq_map {α β : Type} (f : α → β) (xs : List (Expr α)) :
    Expr.mapList f xs = xs.map (Expr.map f) := by
  induction xs with
  | nil => rfl
  | cons x rest ih => rw [Expr.mapList, ih, map_cons]

theorem map_map_eq_of_const {α β γ : Type} (c : γ) (f : α → β) (x : Expr α) :
    (x.map f).map (fun _ => c) = x.map fun _ => c := by
  induction x using Expr.partsInduction with
  | step x parts =>
  cases x <;> simp_all [Expr.map, Expr.parts, mapList_eq_map]

/-- The expression without marks. -/
def bare {α : Type} (x : Expr α) : Expr Unit := x.map fun _ => ()

theorem bare_hinted (want : Ty) (x : Expr Mark) : bare (hinted want x) = bare x := by
  unfold hinted
  split
  · rfl
  · cases x <;> rfl

theorem map_hintArgs {α : Type} {view : Expr Mark → α}
    (blind : ∀ want x, view (hinted want x) = view x) (args : List (Expr Mark)) :
    (hintArgs (calleeOf t p onClass recv name (args.map typeOf)).value args).map view =
      args.map view := by
  unfold hintArgs
  split
  case h_2 => rfl
  case h_1 m found =>
    have arity : m.paramTypes.length = args.length := by
      simpa [MethodSymbol.paramTypes] using resolve_arity (calleeOf_method found)
    refine ext_getElem (by simp [arity]) fun i _ _ => ?_
    simp [blind]

theorem bare_checkIdent (p : Pos) (name : String) :
    bare (checkIdent s p name).value = .ident () name := by
  unfold checkIdent
  rw [Logged.value_bind]
  split <;> rfl

theorem bare_checkArgs {as : List (Expr Pos)}
    (each : ∀ a ∈ as, bare (checkExpr s a).value = bare a) :
    (checkArgs s as).value.map bare = as.map bare := by
  induction as with
  | nil => rfl
  | cons a rest ih =>
    obtain ⟨first, others⟩ := forall_mem_cons.mp each
    exact congrArg₂ List.cons first (ih others)

theorem bare_checkExpr (x : Expr Pos) : bare (checkExpr s x).value = bare x := by
  induction x using Expr.partsInduction with
  | step x parts =>
  cases x with
  | int | bool | hole => rfl
  | this | newObject => rfl
  | ident p name => exact bare_checkIdent p name
  | not p x =>
    exact congrArg (Expr.not ()) ((bare_hinted _ _).trans (parts x (by simp [Expr.parts])))
  | length p a =>
    exact congrArg (Expr.length ()) ((bare_hinted _ _).trans (parts a (by simp [Expr.parts])))
  | newArray p n =>
    exact congrArg (Expr.newArray ()) ((bare_hinted _ _).trans (parts n (by simp [Expr.parts])))
  | index p a i =>
    exact congrArg₂ (Expr.index ()) ((bare_hinted _ _).trans (parts a (by simp [Expr.parts])))
      ((bare_hinted _ _).trans (parts i (by simp [Expr.parts])))
  | binary p op l r =>
    cases types : operatorTypes op with
    | none =>
      simp only [checkExpr, types]
      exact congrArg₂ (Expr.binary () op) (map_map_eq_of_const () _ l) (map_map_eq_of_const () _ r)
    | some t =>
      simp only [checkExpr, types]
      exact congrArg₂ (Expr.binary () op) ((bare_hinted _ _).trans (parts l (by simp [Expr.parts])))
        ((bare_hinted _ _).trans (parts r (by simp [Expr.parts])))
  | call p r name as =>
    have recv : bare (checkReceiver s r).value = bare r := by
      unfold checkReceiver
      cases named : s.receiverClass? r with
      | none => exact parts r (by simp [Expr.parts])
      | some q =>
        cases r with
        | ident p n =>
          simp only [Scope.receiverClass?] at named
          split at named <;> cases named
          rfl
        | _ => cases named
    have args : (checkArgs s as).value.map bare = as.map bare :=
      bare_checkArgs fun a member => parts a (by simp [Expr.parts, member])
    simp only [checkExpr_call, Logged.value_bind, Logged.value_pure, bare, Expr.map,
      mapList_eq_map, Expr.call.injEq, true_and]
    exact ⟨recv, (map_hintArgs bare_hinted _).trans args⟩

theorem stmt_mapList_eq_map {α β : Type} (f : α → β) (ss : List (Stmt α)) :
    Stmt.mapList f ss = ss.map (Stmt.map f) := by
  induction ss with
  | nil => rfl
  | cons x rest ih => rw [Stmt.mapList, ih, map_cons]

/-- The statement without marks. -/
def bareStmt {α : Type} (x : Stmt α) : Stmt Unit := x.map fun _ => ()

theorem name_checkTarget (t : Target Pos) : (checkTarget s t).value.1.name = t.name := by
  unfold checkTarget
  rw [Logged.value_bind]
  split <;> rfl

theorem bareStmt_checkStmts {ss : List (Stmt Pos)}
    (each : ∀ x ∈ ss, bareStmt (checkStmt s x).value = bareStmt x) :
    (checkStmts s ss).value.map bareStmt = ss.map bareStmt := by
  induction ss with
  | nil => rfl
  | cons x rest ih =>
    obtain ⟨first, others⟩ := forall_mem_cons.mp each
    exact congrArg₂ List.cons first (ih others)

theorem bareStmt_checkStmt (x : Stmt Pos) : bareStmt (checkStmt s x).value = bareStmt x := by
  induction x using Stmt.partsInduction with
  | step x parts =>
  have cond : ∀ (what : String) (c : Expr Pos), bare (checkCond s what c).value = bare c :=
    fun what c => (bare_hinted _ _).trans (bare_checkExpr c)
  have target : ∀ t : Target Pos, (checkTarget s t).value.1.map (fun _ => ()) = t.map fun _ => () :=
    fun t => congrArg (Target.mk ()) (name_checkTarget t)
  cases x with
  | hole => rfl
  | block p ss =>
    simp only [checkStmt, Logged.value_bind, Logged.value_pure, bareStmt, Stmt.map,
      stmt_mapList_eq_map, Stmt.block.injEq, true_and]
    exact bareStmt_checkStmts parts
  | ifElse p c y n =>
    simp only [checkStmt, Logged.value_bind, Logged.value_pure, bareStmt, Stmt.map,
      Stmt.ifElse.injEq, true_and]
    exact ⟨cond _ c, parts y (by simp [Stmt.parts]), parts n (by simp [Stmt.parts])⟩
  | «while» p c b =>
    simp only [checkStmt, Logged.value_bind, Logged.value_pure, bareStmt, Stmt.map,
      Stmt.while.injEq, true_and]
    exact ⟨cond _ c, parts b (by simp [Stmt.parts])⟩
  | assign p t v =>
    simp only [checkStmt, Logged.value_bind, Logged.value_pure, bareStmt, Stmt.map,
      Stmt.assign.injEq, true_and]
    exact ⟨target t, (bare_hinted _ _).trans (bare_checkExpr v)⟩
  | arrayAssign p t i v =>
    simp only [checkStmt, Logged.value_bind, Logged.value_pure, bareStmt, Stmt.map,
      Stmt.arrayAssign.injEq, true_and]
    refine ⟨?_, (bare_hinted _ _).trans (bare_checkExpr i), (bare_hinted _ _).trans (bare_checkExpr v)⟩
    split <;> exact target t
  | expr p x =>
    simp only [checkStmt, Logged.value_bind, Logged.value_pure, bareStmt, Stmt.map,
      Stmt.expr.injEq, true_and]
    exact bare_checkExpr x

theorem erase_checkMethod (m : Syntax.Method Pos) :
    (checkMethod s m).value.map (fun _ => ()) = m.map fun _ => () := by
  have body : (checkStmts s m.body).value.map bareStmt = m.body.map bareStmt :=
    bareStmt_checkStmts fun x _ => bareStmt_checkStmt x
  have result : (checkResult s m).value.map bare = m.result.map bare := by
    unfold checkResult
    cases m.result with
    | none => cases s.method.ret.isVoid <;> rfl
    | some x =>
      cases s.method.ret.isVoid with
      | true => exact congrArg some (bare_checkExpr x)
      | false => exact congrArg some ((bare_hinted _ _).trans (bare_checkExpr x))
  simp only [checkMethod, Logged.value_bind, Logged.value_pure, Syntax.Method.map,
    stmt_mapList_eq_map, Syntax.Method.mk.injEq, map_map, true_and]
  exact ⟨rfl, rfl, rfl, body, result⟩

end

/-! ## Trees without errors -/

theorem elem_assigned (t : Ty) :
    (if t.isUnknown then Ty.intArray else if t.array then t else Ty.unknown.arrayOf).elem =
      indexed t := by
  unfold indexed
  split_ifs <;> rfl

/-- A look-up without errors finds what a name refers to. -/
structure Finds (s : Scope) (p : Pos) (name : String) (r : Ref) : Prop where
  clean : (s.lookup p name).Clean
  found : (s.lookup p name).value = some r

/-- What is found out about a name. -/
def refMark (p : Pos) (r : Ref) : Mark := { pos := p, type := some r.type, ref := some r }

/-- What is found out about the name of an array. -/
def arrayMark (p : Pos) (r : Ref) : Mark :=
  if r.type.isUnknown then { refMark p r with hint := some .intArray } else refMark p r

/-- A call without errors finds its callee. -/
structure Calls (s : Scope) (p : Pos) (recv : Expr Mark) (name : String) (args : List (Expr Mark))
    (callee : Callee) : Prop where
  clean : (calleeOf s.table p callee.isStatic (typeOf recv) name (args.map typeOf)).Clean
  found : (calleeOf s.table p callee.isStatic (typeOf recv) name (args.map typeOf)).value =
    some callee

/-- The name stands for a class where a receiver is wanted. -/
def Scope.namesClass (s : Scope) (c : String) : Bool :=
  s.table.knowsClass c && (s.varOrField? c).isNone

/-- What the checker leaves of the receiver of a call: a class, or a value. -/
inductive Receives (s : Scope) : (onClass : Bool) → Expr Mark → Prop where
  | onClass {q : Pos} {c : String} : s.namesClass c = true →
      Receives s true (.ident { pos := q, type := some (.object c), ref := some ⟨.cls, .object c⟩ } c)
  | onValue {x : Expr Mark} : (∀ m c, x = .ident m c → s.namesClass c = false) → Receives s false x

/-- What the checker leaves of an expression in which it finds no error. -/
inductive Passed (s : Scope) : Expr Mark → Prop where
  | int {p : Pos} {v : Int32} : Passed s (.int { pos := p, type := some .int } v)
  | bool {p : Pos} {b : Bool} : Passed s (.bool { pos := p, type := some .boolean } b)
  | this {p : Pos} : s.method.isStatic = false →
      Passed s (.this { pos := p, type := some (.object s.table.cls) })
  | ident {p : Pos} {name : String} {r : Ref} : Finds s p name r →
      Passed s (.ident (refMark p r) name)
  | binary {p : Pos} {op : Operator} {operand result : Ty} {l r : Expr Mark} :
      operatorTypes op = some (operand, result) → Passed s l → Passed s r →
      clashes (typeOf l) operand = false → clashes (typeOf r) operand = false →
      Passed s (.binary { pos := p, type := some result } op (hinted operand l) (hinted operand r))
  | not {p : Pos} {x : Expr Mark} : Passed s x → clashes (typeOf x) .boolean = false →
      Passed s (.not { pos := p, type := some .boolean } (hinted .boolean x))
  | index {p : Pos} {a i : Expr Mark} : Passed s a →
      (!(typeOf a).isUnknown && !(typeOf a).array) = false → Passed s i →
      clashes (typeOf i) .int = false →
      Passed s (.index { pos := p, type := some (indexed (typeOf a)) } (hinted .intArray a)
        (hinted .int i))
  | length {p : Pos} {a : Expr Mark} : Passed s a →
      (!(typeOf a).isUnknown && !(typeOf a).array) = false →
      Passed s (.length { pos := p, type := some .int } (hinted .intArray a))
  | newArray {p : Pos} {n : Expr Mark} : Passed s n → clashes (typeOf n) .int = false →
      Passed s (.newArray { pos := p, type := some .intArray } (hinted .int n))
  | newObject {p : Pos} {name : String} : s.table.knowsClass name = true →
      Passed s (.newObject { pos := p, type := some (.object name) } name)
  | call {p : Pos} {recv : Expr Mark} {name : String} {args : List (Expr Mark)}
      {callee : Callee} : Calls s p recv name args callee →
      Receives s callee.isStatic recv → (callee.isStatic = false → Passed s recv) →
      (∀ x ∈ args, Passed s x) → (∀ x ∈ args, (typeOf x).isVoid = false) →
      Passed s (.call (callMark p (some callee)) recv name (hintArgs (some callee) args))

/-- What the checker leaves of a statement in which it finds no error. -/
inductive PassedStmt (s : Scope) : Stmt Mark → Prop where
  | block {p : Pos} {ss : List (Stmt Mark)} : (∀ x ∈ ss, PassedStmt s x) →
      PassedStmt s (.block (.plain p) ss)
  | ifElse {p : Pos} {c : Expr Mark} {y n : Stmt Mark} : Passed s c →
      clashes (typeOf c) .boolean = false → PassedStmt s y → PassedStmt s n →
      PassedStmt s (.ifElse (.plain p) (hinted .boolean c) y n)
  | while {p : Pos} {c : Expr Mark} {b : Stmt Mark} : Passed s c →
      clashes (typeOf c) .boolean = false → PassedStmt s b →
      PassedStmt s (.while (.plain p) (hinted .boolean c) b)
  | assign {p q : Pos} {name : String} {r : Ref} {v : Expr Mark} : Finds s q name r →
      Passed s v → assignable s.table r.type (typeOf v) = true →
      PassedStmt s (.assign (.plain p) ⟨refMark q r, name⟩ (hinted r.type v))
  | arrayAssign {p q : Pos} {name : String} {r : Ref} {i v : Expr Mark} :
      Finds s q name r → (!r.type.isUnknown && !r.type.array) = false → Passed s i →
      clashes (typeOf i) .int = false → Passed s v →
      assignable s.table (indexed r.type) (typeOf v) = true →
      PassedStmt s (.arrayAssign (.plain p) ⟨arrayMark q r, name⟩ (hinted .int i)
        (hinted (indexed r.type) v))
  | expr {p : Pos} {x : Expr Mark} : Passed s x → PassedStmt s (.expr (.plain p) x)

/-- What the checker leaves of a method in which it finds no error. -/
structure PassedMethod (s : Scope) (m : Syntax.Method Mark) : Prop where
  body : ∀ x ∈ m.body, PassedStmt s x
  result : ∀ x ∈ m.result, ∃ y, Passed s y ∧
    assignable s.table s.method.ret (typeOf y) = true ∧ x = hinted s.method.ret y
  returns : m.result.isSome = !s.method.ret.isVoid

section Trees

variable {s : Scope}

theorem Receives.class_of_static (receives : Receives s true x) :
    namesClass x = true ∧ ∃ c, typeOf x = .object c := by
  cases receives
  exact ⟨by simp [Meaning.namesClass], _, rfl⟩

theorem checkReceiver_receives (r : Expr Pos) :
    Receives s (s.receiverClass? r).isSome (checkReceiver s r).value := by
  unfold checkReceiver
  cases named : s.receiverClass? r with
  | some entry =>
    cases r with
    | ident p name =>
      obtain ⟨isClass, same⟩ := Option.ite_none_right_eq_some.mp named
      cases same
      exact .onClass isClass
    | _ => cases named
  | none =>
    refine .onValue fun m c isName => ?_
    have same := bare_checkExpr (s := s) r
    rw [isName] at same
    cases r with
    | ident p name =>
      obtain rfl : c = name := (Expr.ident.inj same).2
      exact Bool.eq_false_iff.mpr fun isClass =>
        Option.some_ne_none _ (ite_eq_right_iff.mp named isClass)
    | _ => cases same

theorem checkArgs_passed {as : List (Expr Pos)} (clean : (checkArgs s as).Clean)
    (each : ∀ a ∈ as, (checkExpr s a).Clean → Passed s (checkExpr s a).value) :
    ∀ x ∈ (checkArgs s as).value, Passed s x ∧ (typeOf x).isVoid = false := by
  induction as with
  | nil => exact forall_mem_nil _
  | cons a rest ih =>
    obtain ⟨first, others⟩ := forall_mem_cons.mp each
    simp only [checkArgs, Logged.clean_bind, clean_complainIf] at clean
    exact forall_mem_cons.mpr ⟨⟨first clean.1, clean.2.1⟩, ih clean.2.2.1 others⟩

theorem isCheckable_of_mem {α : Type} {as : List (Expr α)}
    (complete : Expr.areCheckable as = true) {a : Expr α} (member : a ∈ as) :
    a.isCheckable = true := by
  induction as with
  | nil => cases member
  | cons b rest ih =>
    rw [Expr.areCheckable, Bool.and_eq_true] at complete
    rcases mem_cons.mp member with rfl | later
    · exact complete.1
    · exact ih complete.2 later

theorem checkExpr_passed {x : Expr Pos} (complete : x.isCheckable = true)
    (clean : (checkExpr s x).Clean) : Passed s (checkExpr s x).value := by
  induction x using Expr.partsInduction with
  | step x parts =>
  cases x with
  | int p v => exact .int
  | bool p b => exact .bool
  | hole => simp [Expr.isCheckable] at complete
  | this p =>
    simp only [checkExpr, Logged.clean_bind, clean_complainIf] at clean
    exact .this clean.1
  | ident p name =>
    simp only [checkExpr, checkIdent, Logged.clean_bind, Logged.value_bind] at clean ⊢
    cases found : (s.lookup p name).value with
    | some r => exact .ident ⟨clean.1, found⟩
    | none =>
      rw [found] at clean
      simp at clean
  | newObject p name =>
    simp only [checkExpr, Logged.clean_bind, clean_complainIf, Bool.not_eq_false'] at clean
    exact .newObject clean.1
  | not p x =>
    simp only [checkExpr, Logged.clean_bind, clean_complainIf] at clean
    exact .not (parts x (by simp [Expr.parts]) (by simpa [Expr.isCheckable] using complete)
      clean.1) clean.2.1
  | length p a =>
    simp only [checkExpr, Logged.clean_bind, clean_complainIf] at clean
    exact .length (parts a (by simp [Expr.parts]) (by simpa [Expr.isCheckable] using complete)
      clean.1) clean.2.1
  | newArray p n =>
    simp only [checkExpr, Logged.clean_bind, clean_complainIf] at clean
    exact .newArray (parts n (by simp [Expr.parts]) (by simpa [Expr.isCheckable] using complete)
      clean.1) clean.2.1
  | index p a i =>
    simp only [checkExpr, Logged.clean_bind, clean_complainIf] at clean
    simp only [Expr.isCheckable, Bool.and_eq_true] at complete
    exact .index (parts a (by simp [Expr.parts]) complete.1 clean.1) clean.2.1
      (parts i (by simp [Expr.parts]) complete.2 clean.2.2.1) clean.2.2.2.1
  | binary p op l r =>
    cases types : operatorTypes op with
    | none => simp [checkExpr, types] at clean
    | some t =>
      simp only [checkExpr, types, Logged.clean_bind, clean_complainIf,
        Bool.or_eq_false_iff] at clean
      simp only [Expr.isCheckable, types, Option.isNone_some, Bool.false_or,
        Bool.and_eq_true] at complete
      simp only [checkExpr, types]
      exact .binary types (parts l (by simp [Expr.parts]) complete.1 clean.1)
        (parts r (by simp [Expr.parts]) complete.2 clean.2.1) clean.2.2.1.1 clean.2.2.1.2
  | call p r name as =>
    simp only [Expr.isCheckable, Bool.and_eq_true] at complete
    rw [checkExpr_call] at clean ⊢
    simp only [Logged.clean_bind, Logged.value_bind, Logged.value_pure] at clean ⊢
    obtain ⟨cleanRecv, cleanArgs, cleanCallee, _⟩ := clean
    have args := checkArgs_passed cleanArgs fun a member =>
      parts a (by simp [Expr.parts, member]) (isCheckable_of_mem complete.2 member)
    have receives := checkReceiver_receives (s := s) r
    have value : (s.receiverClass? r).isSome = false → Passed s (checkReceiver s r).value := by
      unfold checkReceiver at cleanRecv ⊢
      cases named : s.receiverClass? r with
      | some => simp
      | none =>
        rw [named] at cleanRecv
        exact fun _ => parts r (by simp [Expr.parts]) complete.1 cleanRecv
    obtain ⟨callee, found, static⟩ := calleeOf_static cleanCallee fun isClass =>
      (isClass ▸ receives).class_of_static.2
    rw [found]
    rw [← static] at cleanCallee found receives value
    exact .call ⟨cleanCallee, found⟩ receives value (fun x member => (args x member).1)
      fun x member => (args x member).2

theorem checkCond_passed {what : String} {x : Expr Pos} (complete : x.isCheckable = true)
    (clean : (checkCond s what x).Clean) :
    ∃ y, Passed s y ∧ clashes (typeOf y) .boolean = false ∧
      (checkCond s what x).value = hinted .boolean y := by
  simp only [checkCond, Logged.clean_bind, clean_complainIf] at clean
  exact ⟨_, checkExpr_passed complete clean.1, clean.2.1, rfl⟩

theorem checkTarget_passed {t : Target Pos} (clean : (checkTarget s t).Clean) :
    ∃ r, Finds s t.mark t.name r ∧
      (checkTarget s t).value = (⟨refMark t.mark r, t.name⟩, r.type) := by
  unfold checkTarget at clean ⊢
  simp only [Logged.clean_bind, Logged.value_bind] at clean ⊢
  cases found : (s.lookup t.mark t.name).value with
  | some r => exact ⟨r, ⟨clean.1, found⟩, rfl⟩
  | none =>
    rw [found] at clean
    simp at clean

theorem checkStmts_passed {ss : List (Stmt Pos)} (complete : Stmt.areCheckable ss = true)
    (clean : (checkStmts s ss).Clean)
    (each : ∀ x ∈ ss, x.isCheckable = true → (checkStmt s x).Clean →
      PassedStmt s (checkStmt s x).value) :
    ∀ x ∈ (checkStmts s ss).value, PassedStmt s x := by
  induction ss with
  | nil => exact forall_mem_nil _
  | cons x rest ih =>
    obtain ⟨first, others⟩ := forall_mem_cons.mp each
    simp only [Stmt.areCheckable, Bool.and_eq_true] at complete
    simp only [checkStmts, Logged.clean_bind] at clean
    exact forall_mem_cons.mpr ⟨first complete.1 clean.1, ih complete.2 clean.2.1 others⟩

theorem checkStmt_passed {x : Stmt Pos} (complete : x.isCheckable = true)
    (clean : (checkStmt s x).Clean) : PassedStmt s (checkStmt s x).value := by
  induction x using Stmt.partsInduction with
  | step x parts =>
  cases x with
  | hole => simp [Stmt.isCheckable] at complete
  | block p ss =>
    simp only [checkStmt, Logged.clean_bind] at clean
    exact .block (checkStmts_passed complete clean.1 parts)
  | ifElse p c y n =>
    simp only [Stmt.isCheckable, Bool.and_eq_true] at complete
    simp only [checkStmt, Logged.clean_bind, Logged.value_bind, Logged.value_pure] at clean ⊢
    obtain ⟨cond, passed, fits, same⟩ := checkCond_passed complete.1.1 clean.1
    rw [same]
    exact .ifElse passed fits (parts y (by simp [Stmt.parts]) complete.1.2 clean.2.1)
      (parts n (by simp [Stmt.parts]) complete.2 clean.2.2.1)
  | «while» p c b =>
    simp only [Stmt.isCheckable, Bool.and_eq_true] at complete
    simp only [checkStmt, Logged.clean_bind, Logged.value_bind, Logged.value_pure] at clean ⊢
    obtain ⟨cond, passed, fits, same⟩ := checkCond_passed complete.1 clean.1
    rw [same]
    exact .while passed fits (parts b (by simp [Stmt.parts]) complete.2 clean.2.1)
  | assign p t v =>
    simp only [checkStmt, Logged.clean_bind, clean_complainIf, Bool.not_eq_false'] at clean
    obtain ⟨r, finds, target⟩ := checkTarget_passed clean.1
    simp only [checkStmt, Logged.value_bind, Logged.value_pure, target] at clean ⊢
    exact .assign finds (checkExpr_passed complete clean.2.1) clean.2.2.1
  | arrayAssign p t i v =>
    simp only [Stmt.isCheckable, Bool.and_eq_true] at complete
    simp only [checkStmt, checkIndex, Logged.clean_bind, clean_complainIf,
      Bool.not_eq_false'] at clean
    obtain ⟨r, finds, target⟩ := checkTarget_passed clean.1
    simp only [checkStmt, checkIndex, Logged.value_bind, Logged.value_pure, target] at clean ⊢
    obtain ⟨_, isArray, ⟨cleanIndex, fits, _⟩, cleanValue, assigned, _⟩ := clean
    have marked : (if r.type.isUnknown then { refMark t.mark r with hint := some .intArray }
        else refMark t.mark r) = arrayMark t.mark r := rfl
    rw [elem_assigned] at assigned ⊢
    convert PassedStmt.arrayAssign finds isArray (checkExpr_passed complete.1 cleanIndex) fits
      (checkExpr_passed complete.2 cleanValue) assigned using 2
    rw [← marked]
    split <;> rfl
  | expr p x =>
    simp only [checkStmt, Logged.clean_bind] at clean
    exact .expr (checkExpr_passed complete clean.1)

/-- **Checking.** A method that is checked without errors passes. -/
theorem checkMethod_passed {m : Syntax.Method Pos} (complete : m.isCheckable = true)
    (clean : (checkMethod s m).Clean) : PassedMethod s (checkMethod s m).value := by
  simp only [Method.isCheckable, Bool.and_eq_true] at complete
  simp only [checkMethod, Logged.clean_bind] at clean
  obtain ⟨_, _, body, result, _⟩ := clean
  have returned : (∀ x ∈ (checkResult s m).value, ∃ y, Passed s y ∧
      assignable s.table s.method.ret (typeOf y) = true ∧ x = hinted s.method.ret y) ∧
      (checkResult s m).value.isSome = !s.method.ret.isVoid := by
    unfold checkResult at result ⊢
    cases written : m.result with
    | none =>
      cases void : s.method.ret.isVoid with
      | true => simp
      | false => simp [written, void] at result
    | some y =>
      have inner : y.isCheckable = true := by simpa [written] using complete.2
      cases void : s.method.ret.isVoid with
      | true => simp [written, void] at result
      | false =>
        simp only [written, void, Logged.clean_bind, clean_complainIf, Bool.not_eq_false'] at result
        refine ⟨fun x member => ⟨_, checkExpr_passed inner result.1, result.2.1, ?_⟩, rfl⟩
        exact (Option.some.inj member).symm
  exact ⟨checkStmts_passed complete.1 body fun x _ => checkStmt_passed, returned.1, returned.2⟩

end Trees

end Typing

end JavaMinus
