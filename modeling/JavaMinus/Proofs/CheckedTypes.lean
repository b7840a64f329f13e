import JavaMinus.Proofs.TypedLookups

/-!
# The checker follows the typing rules

A typed tree is well typed exactly if the tree without types is checked without errors and the
types are those that the checker leaves on its nodes (`wellTyped_iff`, `wellTypedStmts_iff`). The
checker goes on after an error as if the type were unknown; the equivalence says that nothing gets
lost by that, neither an error nor a type.

What passes the checker is well typed (`Passed.wellTyped`, `PassedStmt.wellTyped`), and a tree
without the types of a well-typed one is checked without errors (`WellTyped.checked`,
`WellTypedStmt.checked`). Both go through the rules one by one, with the equivalences for their
premises.
-/

namespace JavaMinus.Typing

open Syntax List

variable {x : Expr Mark} {name : String} {τ : Ty} {p : Pos}

/-! ## Types in marked trees -/

theorem typeOf_eq_carried (x : Expr Mark) : typeOf x = carried (x.map Mark.type) := by
  cases x <;> rfl

theorem map_typeOf (xs : List (Expr Mark)) :
    xs.map typeOf = (xs.map (Expr.map Mark.type)).map carried := by
  rw [map_map]
  exact map_congr_left fun x _ => typeOf_eq_carried x

theorem types_hinted (want : Ty) (x : Expr Mark) :
    (hinted want x).map Mark.type = x.map Mark.type := by
  unfold hinted
  split
  · rfl
  · cases x <;> rfl

theorem fits_typeOf {want : Ty} :
    clashes (typeOf x) want = false ↔ Fits want (carried (x.map Mark.type)) := by
  rw [← fits_iff, typeOf_eq_carried]

theorem elementType_typeOf : ElementType (carried (x.map Mark.type)) τ ↔
      (!(typeOf x).isUnknown && !(typeOf x).array) = false ∧ indexed (typeOf x) = τ := by
  rw [← typeOf_eq_carried]
  exact elementType_iff

section Premises

variable {s : Scope} {Γ : Context} (shows : Shows s Γ)

include shows

theorem names_iff_finds : Names Γ name τ ↔ ∃ r, Finds s p name r ∧ r.type = τ := by
  rw [names_iff shows (p := p), Logged.Passes, Option.map_eq_some_iff]
  constructor
  · rintro ⟨clean, r, found, rfl⟩
    exact ⟨r, ⟨clean, found⟩, rfl⟩
  · rintro ⟨r, ⟨clean, found⟩, rfl⟩
    exact ⟨clean, r, found, rfl⟩

theorem assignable_typeOf {want : Ty} : assignable s.table want (typeOf x) = true ↔
      Assignable Γ.toDeclarations want (carried (x.map Mark.type)) := by
  rw [← assignable_iff shows.table, typeOf_eq_carried]

end Premises

/-! ## What passes is well typed -/

section

variable {s : Scope} {Γ : Context} (shows : Shows s Γ)

include shows

theorem Calls.callType {recv : Expr Mark} {args : List (Expr Mark)} {callee : Callee}
    (calls : Calls s p recv name args callee) (receives : Receives s callee.isStatic recv) :
    CallType Γ.toDeclarations name (args.map typeOf) callee.isStatic (typeOf recv) callee.ret := by
  refine (callType_iff shows.table fun static => ?_).mpr ⟨calls.clean, by rw [calls.found]; rfl⟩
  exact (static ▸ receives).class_of_static.2

theorem not_isClassName (other : ∀ m c, x = .ident m c → s.namesClass c = false) :
    ¬ IsClassName Γ (x.map Mark.type) := by
  cases x with
  | ident m c =>
    intro isClass
    have named : s.namesClass c = true := (namesClass_iff shows).mp isClass
    rw [other m c rfl] at named
    cases named
  | _ => exact id

/-- **Expressions.** What passes the checker is well typed. -/
theorem Passed.wellTyped (passed : Passed s x) : WellTyped Γ (x.map Mark.type) := by
  induction passed with
  | int => exact .int
  | bool => exact .bool
  | this onObject =>
    rw [Expr.map, shows.table.cls]
    exact .this (shows.isStatic ▸ onObject)
  | ident finds => exact .ident ((names_iff_finds shows).mpr ⟨_, finds, rfl⟩)
  | binary types _ _ fitsLeft fitsRight left right =>
    simp only [Expr.map, types_hinted]
    exact .binary (operatorType_iff.mpr types) left right (fits_typeOf.mp fitsLeft)
      (fits_typeOf.mp fitsRight)
  | not _ fits inner =>
    simp only [Expr.map, types_hinted]
    exact .not inner (fits_typeOf.mp fits)
  | index _ isArray _ fits array index =>
    simp only [Expr.map, types_hinted]
    exact .index array (elementType_typeOf.mpr ⟨isArray, rfl⟩) index (fits_typeOf.mp fits)
  | length _ isArray array =>
    simp only [Expr.map, types_hinted]
    exact .length array (elementType_typeOf.mpr ⟨isArray, rfl⟩)
  | newArray _ fits len =>
    simp only [Expr.map, types_hinted]
    exact .newArray len (fits_typeOf.mp fits)
  | newObject known => exact .newObject ((knowsClass_iff shows.table _).mp known)
  | @call p recv name args callee calls receives _ _ values inner each =>
    have hints : (hintArgs (some callee) args).map (Expr.map Mark.type) =
        args.map (Expr.map Mark.type) := by
      rw [← calls.found, map_hintArgs types_hinted]
    have call := calls.callType shows receives
    simp only [Expr.map, mapList_eq_map, hints]
    have typeds : ∀ a ∈ args.map (Expr.map Mark.type), WellTyped Γ a := forall_mem_map.mpr each
    have proper : ∀ a ∈ args.map (Expr.map Mark.type), carried a ≠ .void := by
      refine forall_mem_map.mpr fun a member => ?_
      rw [← typeOf_eq_carried]
      exact of_decide_eq_false (values a member)
    rw [map_typeOf] at call
    cases static : callee.isStatic with
    | true =>
      rw [static] at receives call
      cases receives with
      | onClass isClass => exact .callClass ((namesClass_iff shows).mpr isClass) typeds proper call
    | false =>
      rw [static, typeOf_eq_carried] at call
      rw [static] at receives
      cases receives with
      | onValue other => exact .callValue (not_isClassName shows other) (inner static) typeds proper call

/-- **Statements.** What passes the checker is well typed. -/
theorem PassedStmt.wellTyped {x : Stmt Mark} (passed : PassedStmt s x) :
    WellTypedStmt Γ (x.map Mark.type) := by
  have target : ∀ {q : Pos} {name : String} {r : Ref}, Finds s q name r →
      WellTypedTarget Γ ⟨some r.type, name⟩ r.type :=
    fun finds => ⟨rfl, (names_iff_finds shows).mpr ⟨_, finds, rfl⟩⟩
  induction passed with
  | block _ each =>
    rw [Stmt.map, stmt_mapList_eq_map]
    exact .block (forall_mem_map.mpr each)
  | ifElse cond fits _ _ yes no =>
    rw [Stmt.map, types_hinted]
    exact .ifElse (cond.wellTyped shows) (fits_typeOf.mp fits) yes no
  | «while» cond fits _ body =>
    rw [Stmt.map, types_hinted]
    exact .while (cond.wellTyped shows) (fits_typeOf.mp fits) body
  | assign finds value assigned =>
    rw [Stmt.map, types_hinted]
    exact .assign (target finds) (value.wellTyped shows) ((assignable_typeOf shows).mp assigned)
  | @arrayAssign p q name r i v finds isArray index fits value assigned =>
    have marked : (Target.mk (arrayMark q r) name).map Mark.type = ⟨some r.type, name⟩ := by
      unfold arrayMark
      split <;> rfl
    rw [Stmt.map, types_hinted, types_hinted, marked]
    exact .arrayAssign (target finds) (elementType_iff.mpr ⟨isArray, rfl⟩) (index.wellTyped shows)
      (fits_typeOf.mp fits) (value.wellTyped shows) ((assignable_typeOf shows).mp assigned)
  | expr inner => exact .expr (inner.wellTyped shows)

end

/-! ## What is well typed passes -/

section

variable {s : Scope} {Γ : Context} (shows : Shows s Γ)

/-- The expression is checked without errors and gets the types of the typed one. -/
abbrev CheckedAs (s : Scope) (x : Expr Pos) (y : Expr (Option Ty)) : Prop :=
  (checkExpr s x).Passes (Expr.map Mark.type) y

theorem checkArgs_passes {as : List (Expr Pos)} {ys : List (Expr (Option Ty))}
    (same : ys.map bare = as.map bare)
    (each : ∀ y ∈ ys, ∀ x : Expr Pos, bare y = bare x → CheckedAs s x y)
    (values : ∀ y ∈ ys, carried y ≠ .void) :
    (checkArgs s as).Passes (List.map (Expr.map Mark.type)) ys := by
  induction ys generalizing as with
  | nil =>
    obtain rfl := map_eq_nil_iff.mp same.symm
    exact ⟨rfl, rfl⟩
  | cons y ys ih =>
    cases as with
    | nil => cases same
    | cons a rest =>
      rw [map_cons, map_cons, List.cons.injEq] at same
      obtain ⟨first, others⟩ := forall_mem_cons.mp each
      obtain ⟨value, later⟩ := forall_mem_cons.mp values
      obtain ⟨clean, rfl⟩ := first a same.1
      obtain ⟨cleans, rfl⟩ := ih same.2 others later
      simpa [checkArgs, clean, cleans, typeOf_eq_carried, Ty.isVoid] using value

include shows

theorem checkCall_passes (r : Expr Pos) (as : List (Expr Pos)) (recv : (checkReceiver s r).Clean)
    (args : (checkArgs s as).Clean)
    (call : CallType Γ.toDeclarations name ((checkArgs s as).value.map typeOf)
      (s.receiverClass? r).isSome (typeOf (checkReceiver s r).value) τ) :
    CheckedAs s (.call p r name as) (.call (some τ) ((checkReceiver s r).value.map Mark.type) name
      ((checkArgs s as).value.map (Expr.map Mark.type))) := by
  have named : (s.receiverClass? r).isSome = true →
      ∃ c, typeOf (checkReceiver s r).value = .object c :=
    fun onClass => (onClass ▸ checkReceiver_receives (s := s) r).class_of_static.2
  obtain ⟨clean, result⟩ := (callType_iff shows.table (p := p) named).mp call
  obtain ⟨callee, found, rfl⟩ := Option.map_eq_some_iff.mp result
  simp only [CheckedAs, checkExpr_call, Logged.passes_bind, Logged.passes_pure, Expr.map,
    mapList_eq_map, map_hintArgs types_hinted, recv, args, clean, true_and]
  rw [found]
  rfl

/-- **Expressions.** Without the types of a well-typed one, they are checked without errors and
get these types. -/
theorem WellTyped.checked {y : Expr (Option Ty)} (typed : WellTyped Γ y) :
    ∀ x : Expr Pos, bare y = bare x → CheckedAs s x y := by
  induction typed with
  | int =>
    intro x same
    cases x with
    | int => cases same; exact ⟨rfl, rfl⟩
    | _ => cases same
  | bool =>
    intro x same
    cases x with
    | bool => cases same; exact ⟨rfl, rfl⟩
    | _ => cases same
  | this onObject =>
    intro x same
    cases x with
    | this => simp [CheckedAs, checkExpr, Expr.map, shows.isStatic, shows.table.cls, onObject]
    | _ => cases same
  | ident named =>
    intro x same
    cases x with
    | ident p name =>
      cases same
      obtain ⟨r, finds, rfl⟩ := (names_iff_finds shows (p := p)).mp named
      simp [CheckedAs, checkExpr, checkIdent, Expr.map, finds.clean, finds.found]
    | _ => cases same
  | binary rule _ _ fitsLeft fitsRight left right =>
    intro x same
    cases x with
    | binary p op l r =>
      obtain ⟨_, rfl, sameLeft, sameRight⟩ := Expr.binary.inj same
      obtain ⟨cleanLeft, rfl⟩ := left l sameLeft
      obtain ⟨cleanRight, rfl⟩ := right r sameRight
      simpa [CheckedAs, checkExpr, Expr.map, operatorType_iff.mp rule, types_hinted, cleanLeft,
        cleanRight, fits_typeOf] using ⟨fitsLeft, fitsRight⟩
    | _ => cases same
  | not _ fits inner =>
    intro x same
    cases x with
    | not p x =>
      obtain ⟨clean, rfl⟩ := inner x (Expr.not.inj same).2
      simpa [CheckedAs, checkExpr, Expr.map, types_hinted, clean, fits_typeOf] using fits
    | _ => cases same
  | index _ element _ fits array index =>
    intro x same
    cases x with
    | index p a i =>
      obtain ⟨_, sameArray, sameIndex⟩ := Expr.index.inj same
      obtain ⟨cleanArray, rfl⟩ := array a sameArray
      obtain ⟨cleanIndex, rfl⟩ := index i sameIndex
      obtain ⟨isArray, rfl⟩ := elementType_typeOf.mp element
      simp only [CheckedAs, checkExpr, Logged.passes_bind, Logged.passes_pure, clean_complainIf,
        Expr.map, types_hinted, cleanArray, cleanIndex, isArray, true_and]
      exact ⟨fits_typeOf.mpr fits, rfl⟩
    | _ => cases same
  | length _ element array =>
    intro x same
    cases x with
    | length p a =>
      obtain ⟨clean, rfl⟩ := array a (Expr.length.inj same).2
      simp only [CheckedAs, checkExpr, Logged.passes_bind, Logged.passes_pure, clean_complainIf,
        Expr.map, types_hinted, clean, (elementType_typeOf.mp element).1, true_and]
    | _ => cases same
  | newArray _ fits len =>
    intro x same
    cases x with
    | newArray p n =>
      obtain ⟨clean, rfl⟩ := len n (Expr.newArray.inj same).2
      simpa [CheckedAs, checkExpr, Expr.map, types_hinted, clean, fits_typeOf] using fits
    | _ => cases same
  | newObject known =>
    intro x same
    cases x with
    | newObject p c =>
      cases same
      simpa [CheckedAs, checkExpr, Expr.map] using (knowsClass_iff shows.table _).mpr known
    | _ => cases same
  | @callClass c name ys τ isClass _ values call each =>
    intro x same
    cases x with
    | call p r name' as =>
      obtain ⟨_, sameRecv, rfl, sameArgs⟩ := Expr.call.inj same
      rw [mapList_eq_map, mapList_eq_map] at sameArgs
      obtain ⟨cleans, rfl⟩ := checkArgs_passes sameArgs each values
      cases r with
      | ident q c' =>
        obtain rfl : c = c' := (Expr.ident.inj sameRecv).2
        have named : s.receiverClass? (.ident q c) = some (q, c) :=
          if_pos ((namesClass_iff shows).mp isClass)
        have recv : checkReceiver s (.ident q c) = pure
            (.ident { pos := q, type := some (.object c), ref := some ⟨.cls, .object c⟩ } c) := by
          rw [checkReceiver, named]
        rw [← map_typeOf] at call
        have checked := checkCall_passes (p := p) shows (.ident q c) as
          (recv ▸ rfl) cleans (by rw [named, recv]; exact call)
        rwa [recv] at checked
      | _ => cases sameRecv
    | _ => cases same
  | @callValue y name ys τ other _ _ values call recv each =>
    intro x same
    cases x with
    | call p r name' as =>
      obtain ⟨_, sameRecv, rfl, sameArgs⟩ := Expr.call.inj same
      rw [mapList_eq_map, mapList_eq_map] at sameArgs
      obtain ⟨cleans, rfl⟩ := checkArgs_passes sameArgs each values
      have named : s.receiverClass? r = none := by
        cases r with
        | ident q c =>
          cases y with
          | ident m c' =>
            obtain rfl : c' = c := (Expr.ident.inj sameRecv).2
            exact if_neg fun isClass => other ((namesClass_iff shows).mpr isClass)
          | _ => cases sameRecv
        | _ => rfl
      obtain ⟨clean, rfl⟩ := recv r sameRecv
      have value : checkReceiver s r = checkExpr s r := by rw [checkReceiver, named]
      rw [← map_typeOf, ← typeOf_eq_carried] at call
      have checked := checkCall_passes (p := p) shows r as
        (value ▸ clean) cleans (by rw [named, value]; exact call)
      rwa [value] at checked
    | _ => cases same

/-- The statement is checked without errors and gets the types of the typed one. -/
abbrev CheckedStmtAs (s : Scope) (x : Stmt Pos) (y : Stmt (Option Ty)) : Prop :=
  (checkStmt s x).Passes (Stmt.map Mark.type) y

omit shows in
theorem checkStmts_passes {xs : List (Stmt Pos)} {ys : List (Stmt (Option Ty))}
    (same : ys.map bareStmt = xs.map bareStmt)
    (each : ∀ y ∈ ys, ∀ x : Stmt Pos, bareStmt y = bareStmt x → CheckedStmtAs s x y) :
    (checkStmts s xs).Passes (List.map (Stmt.map Mark.type)) ys := by
  induction ys generalizing xs with
  | nil =>
    obtain rfl := map_eq_nil_iff.mp same.symm
    exact ⟨rfl, rfl⟩
  | cons y ys ih =>
    cases xs with
    | nil => cases same
    | cons x rest =>
      rw [map_cons, map_cons, List.cons.injEq] at same
      obtain ⟨first, others⟩ := forall_mem_cons.mp each
      obtain ⟨clean, rfl⟩ := first x same.1
      obtain ⟨cleans, rfl⟩ := ih same.2 others
      simp [checkStmts, clean, cleans]

theorem WellTypedTarget.checked {t : Target Pos} {t' : Target (Option Ty)}
    (typed : WellTypedTarget Γ t' τ) (same : t'.map (fun _ => ()) = t.map fun _ => ()) :
    (checkTarget s t).Clean ∧ (checkTarget s t).value.1.map Mark.type = t' ∧
      (checkTarget s t).value.2 = τ := by
  obtain ⟨m, name⟩ := t'
  obtain rfl : name = t.name := (Target.mk.inj same).2
  obtain ⟨rfl, named⟩ := typed
  obtain ⟨r, finds, rfl⟩ := (names_iff_finds shows (p := t.mark)).mp named
  simp [checkTarget, finds.clean, finds.found, Target.map]

/-- **Statements.** Without the types of a well-typed one, they are checked without errors and get
these types. -/
theorem WellTypedStmt.checked {y : Stmt (Option Ty)} (typed : WellTypedStmt Γ y) :
    ∀ x : Stmt Pos, bareStmt y = bareStmt x → CheckedStmtAs s x y := by
  induction typed with
  | block _ each =>
    intro x same
    cases x with
    | block p xs =>
      have sames := (Stmt.block.inj same).2
      rw [stmt_mapList_eq_map, stmt_mapList_eq_map] at sames
      obtain ⟨clean, rfl⟩ := checkStmts_passes sames each
      simp [CheckedStmtAs, checkStmt, Stmt.map, stmt_mapList_eq_map, clean, Mark.plain]
    | _ => cases same
  | ifElse cond fits _ _ yes no =>
    intro x same
    cases x with
    | ifElse p c x x' =>
      obtain ⟨_, sameCond, sameYes, sameNo⟩ := Stmt.ifElse.inj same
      obtain ⟨clean, rfl⟩ := cond.checked shows c sameCond
      obtain ⟨cleanYes, rfl⟩ := yes x sameYes
      obtain ⟨cleanNo, rfl⟩ := no x' sameNo
      simpa [CheckedStmtAs, checkStmt, checkCond, Stmt.map, Mark.plain, types_hinted, clean,
        cleanYes, cleanNo, fits_typeOf] using fits
    | _ => cases same
  | «while» cond fits _ body =>
    intro x same
    cases x with
    | «while» p c x =>
      obtain ⟨_, sameCond, sameBody⟩ := Stmt.while.inj same
      obtain ⟨clean, rfl⟩ := cond.checked shows c sameCond
      obtain ⟨cleanBody, rfl⟩ := body x sameBody
      simpa [CheckedStmtAs, checkStmt, checkCond, Stmt.map, Mark.plain, types_hinted, clean,
        cleanBody, fits_typeOf] using fits
    | _ => cases same
  | assign target value assigned =>
    intro x same
    cases x with
    | assign p t v =>
      obtain ⟨_, sameTarget, sameValue⟩ := Stmt.assign.inj same
      obtain ⟨cleanTarget, rfl, rfl⟩ := target.checked shows sameTarget
      obtain ⟨clean, rfl⟩ := value.checked shows v sameValue
      simpa [CheckedStmtAs, checkStmt, Stmt.map, Mark.plain, types_hinted, cleanTarget, clean,
        assignable_typeOf shows] using assigned
    | _ => cases same
  | arrayAssign target element index fits value assigned =>
    intro x same
    cases x with
    | arrayAssign p t i v =>
      obtain ⟨_, sameTarget, sameIndex, sameValue⟩ := Stmt.arrayAssign.inj same
      obtain ⟨cleanTarget, rfl, rfl⟩ := target.checked shows sameTarget
      obtain ⟨cleanIndex, rfl⟩ := index.checked shows i sameIndex
      obtain ⟨clean, rfl⟩ := value.checked shows v sameValue
      obtain ⟨isArray, rfl⟩ := elementType_iff.mp element
      have hint : ∀ (c : Bool) (target : Target Mark),
          (if c then { target with mark.hint := some .intArray } else target).map Mark.type =
            target.map Mark.type := by
        intro c target
        cases c <;> rfl
      simp only [CheckedStmtAs, checkStmt, checkIndex, Logged.passes_bind, Logged.passes_pure,
        Logged.clean_bind, Logged.value_bind, Logged.clean_pure, Logged.value_pure,
        clean_complainIf, Stmt.map, types_hinted, hint, Bool.not_eq_false',
        elem_assigned, cleanTarget, isArray, cleanIndex, clean, fits_typeOf, assignable_typeOf shows]
      exact ⟨trivial, trivial, ⟨trivial, fits, trivial⟩, trivial, assigned, rfl⟩
    | _ => cases same
  | expr typed =>
    intro x same
    cases x with
    | expr p x =>
      obtain ⟨clean, rfl⟩ := typed.checked shows x (Stmt.expr.inj same).2
      simp [CheckedStmtAs, checkStmt, Stmt.map, Mark.plain, clean]
    | _ => cases same

end

/-! ## The equivalence -/

section

variable {s : Scope} {Γ : Context} (shows : Shows s Γ)

include shows

/-- An expression is well typed exactly if it is checked without errors and carries the types
that are found. -/
theorem wellTyped_iff {x : Expr Pos} {y : Expr (Option Ty)} (complete : x.isCheckable = true)
    (same : bare y = bare x) :
    WellTyped Γ y ↔ (checkExpr s x).Passes (Expr.map Mark.type) y := by
  refine ⟨fun typed => typed.checked shows x same, ?_⟩
  rintro ⟨clean, rfl⟩
  exact (checkExpr_passed complete clean).wellTyped shows

/-- Statements are well typed exactly if they are checked without errors and their expressions
carry the types that are found. -/
theorem wellTypedStmts_iff {xs : List (Stmt Pos)} {ys : List (Stmt (Option Ty))}
    (complete : Stmt.areCheckable xs = true) (same : ys.map bareStmt = xs.map bareStmt) :
    (∀ y ∈ ys, WellTypedStmt Γ y) ↔
      (checkStmts s xs).Passes (List.map (Stmt.map Mark.type)) ys := by
  refine ⟨fun typed => checkStmts_passes same fun y member => (typed y member).checked shows, ?_⟩
  rintro ⟨clean, rfl⟩
  have passed := checkStmts_passed complete clean fun x _ => checkStmt_passed
  exact forall_mem_map.mpr fun x member => (passed x member).wellTyped shows

end

end JavaMinus.Typing
