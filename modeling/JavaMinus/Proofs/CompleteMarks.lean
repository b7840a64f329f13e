import JavaMinus.Proofs.TypedCode

/-!
# Checked trees are completely marked

Every expression of a method stands at a place (`Place`), which may ask for a type: an operand, an
index, a condition or a length is asked for the type that its operator or statement takes, an
argument for the type of its parameter, and a value that is assigned or returned for the type of
where it goes. `Holds` goes through all expressions of a method with their places.

What the checker leaves at a place in a method without errors is an expression without errors, with
a hint where the place asks for a type (`Stands`). The expressions inside it stand at their places
as well (`Passed.operands`), so all expressions of the method do (`PassedMethod.stands`), and each
of them is marked with all that is known of it (`analyze_marks_completely`).
-/

namespace JavaMinus.Typing

open Syntax List
open Meaning (namesClass)

/-! ## Places -/

/-- Where an expression stands. -/
inductive Place where
  /-- The place asks for a type. -/
  | wants (t : Ty)
  /-- The place takes anything. -/
  | free
  /-- The place is that of the receiver of a call. -/
  | receiver (isStatic : Bool)
  deriving DecidableEq, Repr

/-- The place of a value that goes where a type is declared. Nothing is asked if it is unknown. -/
def Place.into (t : Ty) : Place := if t.isUnknown then .free else .wants t

/-- The places of the arguments of a call. -/
def argPlaces (callee : Option Callee) (args : List (Expr Mark)) : List (Place × Expr Mark) :=
  match callee.bind (·.method) with
  | some f => (f.paramTypes.map .wants).zip args
  | none => args.map (.free, ·)

/-- The expressions right inside an expression, with their places. -/
def operandPlaces : Expr Mark → List (Place × Expr Mark)
  | .binary _ op l r =>
    let place := (operatorTypes op).elim .free fun types => .wants types.1
    [(place, l), (place, r)]
  | .not _ x => [(.wants .boolean, x)]
  | .index _ a i => [(.wants .intArray, a), (.wants .int, i)]
  | .length _ a => [(.wants .intArray, a)]
  | .newArray _ n => [(.wants .int, n)]
  | .call m r _ as => (.receiver (m.callee.any (·.isStatic)), r) :: argPlaces m.callee as
  | _ => []

/-- The name that is assigned to, as an expression. -/
def targetExpr (t : Target Mark) : Expr Mark := .ident t.mark t.name

mutual

/-- The expressions right inside a statement and the statements in it, with their places. -/
def stmtPlaces : Stmt Mark → List (Place × Expr Mark)
  | .block _ ss => stmtsPlaces ss
  | .ifElse _ c y n => (.wants .boolean, c) :: (stmtPlaces y ++ stmtPlaces n)
  | .while _ c b => (.wants .boolean, c) :: stmtPlaces b
  | .assign _ t v => [(.free, targetExpr t), (.into (typeOf (targetExpr t)), v)]
  | .arrayAssign _ t i v =>
    [(.wants .intArray, targetExpr t), (.wants .int, i),
      (.into (indexed (typeOf (targetExpr t))), v)]
  | .expr _ x => [(.free, x)]
  | .hole => []

/-- The expressions right inside statements, with their places. -/
def stmtsPlaces : List (Stmt Mark) → List (Place × Expr Mark)
  | [] => []
  | s :: rest => stmtPlaces s ++ stmtsPlaces rest

end

/-- An expression stands at a place in a method. -/
inductive Holds (m : Syntax.Method Mark) : Place → Expr Mark → Prop where
  | stmt {place : Place} {x : Expr Mark} : (place, x) ∈ stmtsPlaces m.body → Holds m place x
  | result {x : Expr Mark} : x ∈ m.result → Holds m (.wants m.ret.ty) x
  | operand {outer place : Place} {x y : Expr Mark} : Holds m outer x →
      (place, y) ∈ operandPlaces x → Holds m place y

/-- All is told about an expression at its place. -/
structure FullyMarked (isStatic : Bool) (place : Place) (x : Expr Mark) : Prop where
  /-- The expression has a type. It has a hint only if the type is unknown, and then the hint that
  the place asks for. -/
  typed : ∃ m t, x.mark? = some m ∧ m.type = some t ∧ (m.hint.isSome = true → t.isUnknown = true) ∧
    ∀ want, place = .wants want → t.isUnknown = true → m.hint = some want
  /-- A name refers to something: to a class only if methods of the class are called on it, and
  to a member of the object only where there is one. -/
  named : ∀ m name, x = .ident m name → ∃ r, m.ref = some r ∧
    (r.kind = .cls → place = .receiver true) ∧
    (r.kind = .field ∨ r.kind = .assumed → isStatic = false)
  /-- A call has a callee, which is static exactly on a class and takes the arguments. -/
  calls : ∀ m r name as, x = .call m r name as → ∃ callee, m.callee = some callee ∧
    (callee.isStatic = true ↔ namesClass r = true) ∧
    ∀ f, callee.method = some f → f.params.length = as.length

/-! ## What the checker leaves at a place -/

/-- An expression without errors at its place, with the hint that the place asks for. -/
def Stands (s : Scope) : Place → Expr Mark → Prop
  | .wants t, x => t.isUnknown = false ∧ ∃ y, Passed s y ∧ x = hinted t y
  | .free, x => Passed s x
  | .receiver onClass, x => Receives s onClass x ∧ (onClass = false → Passed s x)

section Scopes

variable {s : Scope} {x : Expr Mark} {place : Place} (sound : Code.SoundScope s)

theorem Passed.stands_into (passed : Passed s x) (t : Ty) :
    Stands s (.into t) (hinted t x) := by
  unfold Place.into
  split
  case isTrue unknown =>
    rw [hinted, unknown]
    exact passed
  case isFalse isKnown => exact ⟨Bool.eq_false_iff.mpr isKnown, x, passed, rfl⟩

theorem operandPlaces_hinted (want : Ty) (x : Expr Mark) :
    operandPlaces (hinted want x) = operandPlaces x := by
  unfold hinted
  split
  · rfl
  · cases x <;> rfl

include sound in
/-- The expressions right inside an expression without errors stand at their places. -/
theorem Passed.operands (passed : Passed s x) : ∀ e ∈ operandPlaces x, Stands s e.1 e.2 := by
  cases passed with
  | int | bool | this | ident | newObject => exact forall_mem_nil _
  | @binary p op operand result l r types left right _ _ =>
    have isKnown : operand.isUnknown = false := by cases op <;> cases types <;> rfl
    simp only [operandPlaces, types, Option.elim_some, forall_mem_cons]
    exact ⟨⟨isKnown, l, left, rfl⟩, ⟨isKnown, r, right, rfl⟩, forall_mem_nil _⟩
  | not inner => exact forall_mem_singleton.mpr ⟨rfl, _, inner, rfl⟩
  | index array _ index =>
    exact forall_mem_cons.mpr ⟨⟨rfl, _, array, rfl⟩,
      forall_mem_singleton.mpr ⟨rfl, _, index, rfl⟩⟩
  | length array => exact forall_mem_singleton.mpr ⟨rfl, _, array, rfl⟩
  | newArray len => exact forall_mem_singleton.mpr ⟨rfl, _, len, rfl⟩
  | @call p recv name args callee calls receives value each _ =>
    refine forall_mem_cons.mpr ⟨⟨receives, value⟩, ?_⟩
    rintro ⟨place, y⟩ member
    cases isMethod : callee.method with
    | none =>
      simp only [argPlaces, hintArgs, callMark, Option.bind_some, isMethod] at member
      obtain ⟨z, among, same⟩ := mem_map.mp member
      cases same
      exact each y among
    | some f =>
      simp only [argPlaces, hintArgs, callMark, Option.bind_some, isMethod] at member
      obtain ⟨k, bound, here⟩ := mem_iff_getElem.mp member
      simp only [getElem_zip, getElem_map, getElem_zipWith, Prod.mk.injEq] at here
      obtain ⟨rfl, rfl⟩ := here
      exact ⟨(sound.params f (Code.resolve_mem (calls.method isMethod)) _ (getElem_mem _)).1, _,
        each _ (getElem_mem _), rfl⟩

theorem Finds.stands_array {q : Pos} {name : String} {r : Ref} (finds : Finds s q name r) :
    Stands s (.wants .intArray) (targetExpr ⟨arrayMark q r, name⟩) := by
  refine ⟨rfl, .ident (refMark q r) name, .ident finds, ?_⟩
  have type : typeOf (.ident (refMark q r) name) = r.type := rfl
  unfold targetExpr arrayMark hinted
  rw [type]
  cases r.type.isUnknown <;> rfl

/-- The expressions of a statement without errors stand at their places. -/
theorem PassedStmt.stands {x : Stmt Mark} (passed : PassedStmt s x) :
    ∀ e ∈ stmtPlaces x, Stands s e.1 e.2 := by
  induction passed with
  | @block p ss _ each =>
    rw [stmtPlaces]
    clear p
    induction ss with
    | nil => exact forall_mem_nil _
    | cons x rest ih =>
      obtain ⟨first, others⟩ := forall_mem_cons.mp each
      exact forall_mem_append.mpr ⟨first, ih (fun y member => by simp_all) others⟩
  | ifElse cond _ _ _ yes no =>
    exact forall_mem_cons.mpr ⟨⟨rfl, _, cond, rfl⟩, forall_mem_append.mpr ⟨yes, no⟩⟩
  | «while» cond _ _ body => exact forall_mem_cons.mpr ⟨⟨rfl, _, cond, rfl⟩, body⟩
  | assign finds value _ =>
    exact forall_mem_cons.mpr ⟨.ident finds,
      forall_mem_singleton.mpr (value.stands_into _)⟩
  | @arrayAssign p q name r i v finds _ index _ value _ =>
    have type : typeOf (targetExpr ⟨arrayMark q r, name⟩) = r.type := by
      unfold arrayMark
      split <;> rfl
    simp only [stmtPlaces, type]
    exact forall_mem_cons.mpr ⟨finds.stands_array, forall_mem_cons.mpr
      ⟨⟨rfl, _, index, rfl⟩, forall_mem_singleton.mpr (value.stands_into _)⟩⟩
  | expr inner => exact forall_mem_singleton.mpr inner

include sound in
/-- Every expression of a method without errors stands at its place. -/
theorem PassedMethod.stands {m : Syntax.Method Mark} (passed : PassedMethod s m)
    (ret : m.ret.ty = s.method.ret) (holds : Holds m place x) : Stands s place x := by
  induction holds with
  | stmt member =>
    have each := passed.body
    generalize m.body = body at each member
    induction body with
    | nil => cases member
    | cons y rest ih =>
      obtain ⟨first, others⟩ := forall_mem_cons.mp each
      rcases mem_append.mp member with here | later
      · exact first.stands _ here
      · exact ih others later
  | result member =>
    obtain ⟨y, inner, _, rfl⟩ := passed.result _ member
    rw [← ret]
    exact ⟨Code.ty_isUnknown m.ret, y, inner, rfl⟩
  | @operand outer place x y _ inside stands =>
    cases outer with
    | wants t =>
      obtain ⟨_, z, inner, rfl⟩ := stands
      rw [operandPlaces_hinted] at inside
      exact inner.operands sound _ inside
    | free => exact Passed.operands sound stands _ inside
    | receiver onClass =>
      obtain ⟨receives, value⟩ := stands
      cases receives with
      | onClass => cases inside
      | onValue => exact (value rfl).operands sound _ inside

/-! ## Marks -/

include sound in
theorem Passed.kind {m : Mark} {name : String} (passed : Passed s (.ident m name)) :
    ∃ r, m.ref = some r ∧ r.kind ≠ .cls ∧
      (r.kind = .field ∨ r.kind = .assumed → s.method.isStatic = false) := by
  cases passed with
  | ident finds =>
    cases (finds.named sound).1 with
    | var _ isVar ref => exact ⟨_, ref, by rcases isVar with rfl | rfl <;> simp⟩
    | field _ object _ ref | assumed _ object _ ref => exact ⟨_, ref, by simp, fun _ => object⟩

include sound in
theorem Passed.calls {m : Mark} {r : Expr Mark} {name : String} {as : List (Expr Mark)}
    (passed : Passed s (.call m r name as)) : ∃ callee, m.callee = some callee ∧
      (callee.isStatic = true ↔ namesClass r = true) ∧
      ∀ f, callee.method = some f → f.params.length = as.length := by
  have fits : Code.ReceiversFit True (Expr.call m r name as).receivers := fun _ _ _ => trivial
  obtain ⟨callee, calling, _⟩ := passed.of_call sound fits
  exact ⟨callee, calling.found.found, by rw [calling.fits.static], calling.found.arity⟩

theorem hinted_eq_ident {want : Ty} {m : Mark} {name : String}
    (same : hinted want x = .ident m name) :
    ∃ m', x = .ident m' name ∧ m.ref = m'.ref := by
  unfold hinted at same
  split at same
  · exact ⟨m, same, rfl⟩
  · cases x <;> cases same
    exact ⟨_, rfl, rfl⟩

theorem hinted_eq_call {want : Ty} {m : Mark} {r : Expr Mark} {name : String}
    {as : List (Expr Mark)} (same : hinted want x = .call m r name as) :
    ∃ m', x = .call m' r name as ∧ m.callee = m'.callee := by
  unfold hinted at same
  split at same
  · exact ⟨m, same, rfl⟩
  · cases x <;> cases same
    exact ⟨_, rfl, rfl⟩

include sound

/-- An expression without errors is marked with all that is known of it, also with a hint. -/
theorem Passed.fullyMarked (passed : Passed s x) (want : Ty)
    (asked : ∀ t, place = .wants t → t = want ∧ want.isUnknown = false) :
    FullyMarked s.method.isStatic place (hinted want x) where
  typed := by
    obtain ⟨m, isMark, typed, noHint⟩ := passed.fresh
    unfold hinted
    split
    case isTrue unhinted =>
      refine ⟨m, typeOf x, isMark, typed, by simp [noHint], fun t isPlace unknown => ?_⟩
      simp [(asked t isPlace).2, unknown] at unhinted
    case isFalse unknown =>
      have mark : (x.modifyMark fun m => { m with hint := some want }).mark? =
          some { m with hint := some want } := by
        cases x <;> cases isMark <;> rfl
      refine ⟨_, typeOf x, mark, typed, fun _ => ?_, fun t isPlace _ => ?_⟩
      · simp only [Bool.or_eq_true, Bool.not_eq_true', not_or, Bool.not_eq_false] at unknown
        exact unknown.2
      · rw [(asked t isPlace).1]
  named m name same := by
    obtain ⟨m', rfl, ref⟩ := hinted_eq_ident same
    obtain ⟨r, isRef, noClass, member⟩ := passed.kind sound
    exact ⟨r, ref.trans isRef, fun isClass => absurd isClass noClass, member⟩
  calls m r name as same := by
    obtain ⟨m', rfl, callee⟩ := hinted_eq_call same
    rw [callee]
    exact passed.calls sound

/-- What stands at a place is marked with all that is known of it. -/
theorem Stands.fullyMarked (stands : Stands s place x) :
    FullyMarked s.method.isStatic place x := by
  cases place with
  | wants t =>
    obtain ⟨isKnown, y, passed, rfl⟩ := stands
    exact passed.fullyMarked sound t fun _ asks => ⟨(Place.wants.inj asks).symm, isKnown⟩
  | free => exact Passed.fullyMarked sound stands .unknown fun t asks => by cases asks
  | receiver onClass =>
    obtain ⟨receives, value⟩ := stands
    cases receives with
    | onClass =>
      refine ⟨⟨_, _, rfl, rfl, by simp, fun t asks => by cases asks⟩, fun m name same => ?_,
        fun m r name as same => by cases same⟩
      cases same
      exact ⟨_, rfl, fun _ => rfl, by simp⟩
    | onValue => exact (value rfl).fullyMarked sound .unknown fun t asks => by cases asks

end Scopes

/-- **Checked trees are completely marked.** In a text that is read, whose table is built and
whose tree is checked without errors, every method has its tree with marks added, and every
expression of it is marked with all that its place asks for. -/
theorem analyze_marks_completely {bytes : List UInt8} {f : File Pos} (read : parse bytes = .ok f)
    (built : hasErrors (buildTable f).reports = false)
    (analysed : hasErrors (analyze (buildTable f).value f).reports = false) :
    ∀ (i : Nat) (d : Syntax.Method Pos), f.cls.methods[i]? = some d →
      ∃ m, (analyze (buildTable f).value f).value.file.cls.methods[i]? = some m ∧
        m.map (fun _ => ()) = d.map (fun _ => ()) ∧
        ∀ place x, Holds m place x → FullyMarked d.isStatic place x := by
  intro i d declared
  have accepted : Code.Accepted bytes f := ⟨read, built, analysed⟩
  refine ⟨_, (analyze_methods built analysed declared).2, erase_checkMethod d,
    fun place x holds => ?_⟩
  have sound := accepted.soundScope declared
  exact ((accepted.passed declared).stands sound rfl holds).fullyMarked sound

theorem analyze_marks_completely_calling : ∃ f, parse Code.callingText = .ok f ∧
    hasErrors (buildTable f).reports = false ∧
    hasErrors (analyze (buildTable f).value f).reports = false ∧
    ∀ (i : Nat) (d : Syntax.Method Pos), f.cls.methods[i]? = some d →
      ∃ m, (analyze (buildTable f).value f).value.file.cls.methods[i]? = some m ∧
        m.map (fun _ => ()) = d.map (fun _ => ()) ∧
        ∀ place x, Holds m place x → FullyMarked d.isStatic place x := by
  obtain ⟨f, read, built, analysed, _⟩ := Code.exists_calling
  exact ⟨f, read, built, analysed, analyze_marks_completely read built analysed⟩

end JavaMinus.Typing
