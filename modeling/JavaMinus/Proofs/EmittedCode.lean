import JavaMinus.Code.FromTree
import JavaMinus.Proofs.ControlFlow
import JavaMinus.Proofs.TreeInduction

/-!
# Names in emitted code

While code is made, numbers for labels and temporaries are handed out in order.
A temporary never has a name that is declared already (`temp_fresh`), and labels
with different numbers, or of different kinds, have different names
(`labelName_inj`), so labels are told apart by the numbers that they carry
(`Numbered`).
-/

namespace JavaMinus.Code

open List

open Syntax (Expr Stmt Target)
open Typing (Mark RefKind)
open Emit (emit complain temp labelNumber tempName freshTemp)

variable {α β : Type} {r : Expr Mark}

/-! ## What sequencing gives -/

section

variable (x : Emit α) (f : α → Emit β) (a : α) (s : Supply)

@[simp] theorem bind_value : ((x >>= f) s).value = (f (x s).value (x s).supply).value := rfl

@[simp] theorem bind_code :
    ((x >>= f) s).code = (x s).code ++ (f (x s).value (x s).supply).code := rfl

@[simp] theorem bind_reports :
    ((x >>= f) s).reports = (x s).reports ++ (f (x s).value (x s).supply).reports := rfl

@[simp] theorem bind_supply : ((x >>= f) s).supply = (f (x s).value (x s).supply).supply := rfl

@[simp] theorem pure_emitted : (pure a : Emit α) s = { value := a, supply := s } := rfl

@[simp] theorem emit_emitted (code : List Inst) :
    emit code s = { value := (), code := code, supply := s } := rfl

@[simp] theorem labelNumber_emitted :
    labelNumber s = { value := s.labels, supply := { s with labels := s.labels + 1 } } := rfl

end

theorem Emitted.eq {e e' : Emitted α} (value : e.value = e'.value) (code : e.code = e'.code)
    (reports : e.reports = e'.reports) (supply : e.supply = e'.supply) : e = e' := by
  cases e
  cases e'
  simp_all

instance : LawfulMonad Emit := by
  refine LawfulMonad.mk' _ (fun x => ?_) (fun a f => ?_) (fun x f g => ?_)
  · funext s
    exact Emitted.eq rfl (append_nil _) (append_nil _) rfl
  · rfl
  · funext s
    exact Emitted.eq rfl (append_assoc _ _ _) (append_assoc _ _ _) rfl

/-! ## Operands, then an instruction

Most expressions and statements have code of one shape: the code of some operands
in order, followed by one instruction. -/

/-- Compute operands, and emit an instruction that uses them. -/
def emitWith (cls : String) (xs : List (Expr Mark)) (inst : List Operand → Inst) : Emit Unit := do
  let values ← argValues cls xs
  emit [inst values]

/-- Compute operands, and emit an instruction that uses them and writes a register. -/
def computeWith (cls : String) (m : Mark) (dst : Option Reg) (xs : List (Expr Mark))
    (inst : Reg → List Operand → Inst) : Emit Operand := do
  let values ← argValues cls xs
  let d ← destination m dst
  emit [inst d values]
  return .reg d

section Shapes

variable {callee : Typing.Callee} {as : List (Expr Mark)} {name : String} (cls : String) (m : Mark)
  (dst : Option Reg)

attribute [local simp] exprValue argValues stmtCode

theorem exprValue_field (kind : (refOf m).kind = .field ∨ (refOf m).kind = .assumed) :
    exprValue cls dst (.ident m name) = computeWith cls m dst [] fun d _ => .getField d name := by
  rcases kind with kind | kind <;> simp [nameValue, kind, computeWith]

theorem exprValue_binary {op : Operator} (strict : op ≠ .and) (l r : Expr Mark) :
    exprValue cls dst (.binary m op l r) =
      computeWith cls m dst [l, r] fun d vs => .binary d op vs[0]? vs[1]? := by
  rw [exprValue]
  · simp [computeWith]
  · exact strict

/-- The code of `&&`: the left side, a branch over the right side, and the value of
whichever was computed last. -/
theorem exprValue_and (l r : Expr Mark) (s : Supply) {made : Emitted Reg}
    {left right last : Emitted Operand} (isMade : made = temp .boolean { s with labels := s.labels + 1 })
    (isLeft : left = exprValue cls (some made.value) l made.supply)
    (isRight : right = exprValue cls (some made.value) r left.supply)
    (isLast : last = settle (.reg made.value) dst right.supply) :
    exprValue cls dst (.binary m .and l r) s =
      { value := last.value
        code := left.code ++ ([.branch (some (.reg made.value)) (labelName "and_rhs" s.labels),
          .goto (labelName "and_end" s.labels), .label (labelName "and_rhs" s.labels)] ++
          (right.code ++ ([.label (labelName "and_end" s.labels)] ++ last.code)))
        reports := left.reports ++ (right.reports ++ last.reports)
        supply := last.supply } := by
  subst isMade isLeft isRight isLast
  rw [exprValue]
  rfl

theorem exprValue_not (x : Expr Mark) : exprValue cls dst (.not m x) =
      computeWith cls m dst [x] fun d vs => .unary d .not vs[0]? := by
  simp [computeWith]

theorem exprValue_index (a i : Expr Mark) : exprValue cls dst (.index m a i) =
      computeWith cls m dst [a, i] fun d vs => .load d vs[0]? vs[1]? := by
  simp [computeWith]

theorem exprValue_length (a : Expr Mark) : exprValue cls dst (.length m a) =
      computeWith cls m dst [a] fun d vs => .length d vs[0]? := by
  simp [computeWith]

theorem exprValue_newArray (n : Expr Mark) : exprValue cls dst (.newArray m n) =
      computeWith cls m dst [n] fun d vs => .newArray d vs[0]? := by
  simp [computeWith]

/-- The operands of a call: the receiver, unless the call is static, and the
arguments. -/
def callOperands (callee : Typing.Callee) (r : Expr Mark) (as : List (Expr Mark)) :
    List (Expr Mark) :=
  if callee.isStatic then as else r :: as

theorem forall_callOperands {P : Expr Mark → Prop} (recv : callee.isStatic = false → P r)
    (args : ∀ x ∈ as, P x) : ∀ x ∈ callOperands callee r as, P x := by
  unfold callOperands
  split
  case isTrue => exact args
  case isFalse object => exact forall_mem_cons.mpr ⟨recv (by simpa using object), args⟩

/-- The call instruction over its operands. -/
def callOver (callee : Typing.Callee) (dst : Option Reg) (name : String) (used : Ty)
    (vs : List Operand) : Call :=
  if callee.isStatic then callInst callee dst none name vs used
  else callInst callee dst vs.head? name vs.tail used

theorem exprValue_call (found : m.callee = some callee)
    (valued : (callInst callee none none name [] (valueType m)).ret.isVoid = false) :
    exprValue cls dst (.call m r name as) =
      computeWith cls m dst (callOperands callee r as) fun d vs =>
        .call (callOver callee (some d) name (valueType m) vs) := by
  have same : ∀ recv args, (callInst callee none recv name args (valueType m)).ret.isVoid = false :=
    fun _ _ => valued
  rw [exprValue, found]
  cases called : callee.isStatic with
  | false | true =>
    simp [same, computeWith, callOperands, callOver, called]
    rfl

theorem exprValue_void_call (found : m.callee = some callee)
    (void : (callInst callee none none name [] (valueType m)).ret.isVoid = true) :
    exprValue cls dst (.call m r name as) = (do
      let _ ← argValues cls (callOperands callee r as)
      complain m.pos ("void call " ++ name ++ " used as a value")
      return .int 0) := by
  have same : ∀ recv args, (callInst callee none recv name args (valueType m)).ret.isVoid = true :=
    fun _ _ => void
  rw [exprValue, found]
  cases called : callee.isStatic with
  | false | true => simp [same, callOperands, called]

theorem callStmt_eq (found : m.callee = some callee) : callStmt cls m r name as =
      emitWith cls (callOperands callee r as) fun vs =>
        .call (callOver callee none name (m.useType?.getD .void) vs) := by
  rw [callStmt, found]
  cases called : callee.isStatic with
  | false | true => simp [emitWith, callOperands, callOver, called]

theorem assignTo_field {t : Target Mark} (v : Expr Mark)
    (kind : (refOf t.mark).kind = .field ∨ (refOf t.mark).kind = .assumed) :
    assignTo cls t v = emitWith cls [v] fun vs => .putField t.name vs[0]? := by
  rcases kind with kind | kind <;> simp [assignTo, kind, emitWith]

theorem stmtCode_arrayAssign (p : Mark) (t : Target Mark) (i v : Expr Mark) :
    stmtCode cls (.arrayAssign p t i v) =
      emitWith cls [.ident t.mark t.name, i, v] fun vs => .store vs[0]? vs[1]? vs[2]? := by
  simp [emitWith]

theorem stmtCode_ifElse (p : Mark) (c : Expr Mark) (y n : Stmt Mark) (s : Supply)
    {cond : Emitted Operand} {no yes : Emitted Unit}
    (isCond : cond = exprValue cls none c { s with labels := s.labels + 1 })
    (isNo : no = stmtCode cls n cond.supply) (isYes : yes = stmtCode cls y no.supply) :
    stmtCode cls (.ifElse p c y n) s =
      { value := ()
        code := cond.code ++ ([.branch (some cond.value) (labelName "if_then" s.labels)] ++
          (no.code ++ ([.goto (labelName "if_end" s.labels), .label (labelName "if_then" s.labels)] ++
            (yes.code ++ [.label (labelName "if_end" s.labels)]))))
        reports := cond.reports ++ (no.reports ++ yes.reports)
        supply := yes.supply } := by
  subst isCond isNo isYes
  rw [stmtCode]
  exact Emitted.eq rfl rfl (by simp) rfl

/-- The code of a loop: the condition stands behind the body, and is computed
first. -/
theorem stmtCode_while (p : Mark) (c : Expr Mark) (b : Stmt Mark) (s : Supply)
    {body : Emitted Unit} {cond : Emitted Operand}
    (isBody : body = stmtCode cls b { s with labels := s.labels + 1 })
    (isCond : cond = exprValue cls none c body.supply) :
    stmtCode cls (.while p c b) s =
      { value := ()
        code := [.goto (labelName "while_cond" s.labels), .label (labelName "while_body" s.labels)] ++
          (body.code ++ ([.label (labelName "while_cond" s.labels)] ++
            (cond.code ++ [.branch (some cond.value) (labelName "while_body" s.labels)])))
        reports := body.reports ++ cond.reports
        supply := cond.supply } := by
  subst isBody isCond
  rw [stmtCode]
  exact Emitted.eq rfl rfl (by simp) rfl

end Shapes

/-! ## Fresh temporaries -/

theorem tempName_injective : Function.Injective tempName := by
  intro m n same
  have digits : toString m = toString n := (String.append_right_inj "t").mp same
  exact Nat.repr_injective digits

/-- As many temporaries as there are declarations and one more cannot all be
declared. -/
theorem exists_undeclared (vars : List Var) (n : Nat) :
    ∃ k ∈ List.range (vars.length + 1), tempName (n + k) ∉ vars.map (·.name) := by
  by_contra taken
  push Not at taken
  have distinct : ((List.range (vars.length + 1)).map fun k => tempName (n + k)).Nodup :=
    nodup_range.map fun j k same => Nat.add_left_cancel (tempName_injective same)
  have among : ((List.range (vars.length + 1)).map fun k => tempName (n + k)) ⊆
      vars.map (·.name) := by
    intro name member
    obtain ⟨k, bound, rfl⟩ := mem_map.mp member
    exact taken k bound
  have le := (distinct.subperm among).length_le
  simp only [length_map, length_range] at le
  omega

theorem freshTemp_not_mem (vars : List Var) (n : Nat) :
    tempName (freshTemp vars n) ∉ vars.map (·.name) := by
  obtain ⟨k, bound, free⟩ := exists_undeclared vars n
  cases found : (List.range (vars.length + 1)).find? fun k =>
      !(vars.any fun v => v.name = tempName (n + k)) with
  | none =>
    have all := List.find?_eq_none.mp found k bound
    simp only [Bool.not_eq_true', Bool.not_eq_false, any_eq_true, decide_eq_true_eq] at all
    obtain ⟨v, member, same⟩ := all
    exact absurd (mem_map.mpr ⟨v, member, same⟩) free
  | some j =>
    have holds := List.find?_some found
    simp only [Bool.not_eq_true', any_eq_false, decide_eq_true_eq] at holds
    rw [freshTemp, found, Option.getD_some, Nat.add_comm]
    rintro member
    obtain ⟨v, declared, same⟩ := mem_map.mp member
    exact holds v declared same

theorem temp_fresh (t : Ty) (s : Supply) : (temp t s).value.name ∉ s.vars.map (·.name) :=
  freshTemp_not_mem s.vars s.temps

/-! ## Labels -/

theorem underscore_not_mem_toString (n : Nat) : '_' ∉ (toString n).toList := by
  rw [Nat.toString_eq_ofList_toDigits, String.toList_ofList]
  exact Nat.underscore_not_in_toDigits

theorem labelName_inj {kind kind' : String} {m n : Nat}
    (same : labelName kind m = labelName kind' n) : kind = kind' ∧ m = n := by
  have chars : kind.toList ++ '_' :: (toString m).toList =
      kind'.toList ++ '_' :: (toString n).toList := by
    simpa [labelName] using congrArg String.toList same
  -- The number stands behind the last underscore.
  have ends : ∀ (k : String) (i : Nat),
      ((k.toList ++ '_' :: (toString i).toList).reverse.takeWhile (· != '_')) =
        (toString i).toList.reverse := by
    intro k i
    rw [reverse_append, reverse_cons, append_assoc, takeWhile_append_of_pos]
    · simp
    · intro c member
      simp only [bne_iff_ne, ne_eq]
      rintro rfl
      exact underscore_not_mem_toString i (mem_reverse.mp member)
  have digits : (toString m).toList = (toString n).toList := by
    rw [← reverse_inj, ← ends kind m, ← ends kind' n, chars]
  have number : m = n := Nat.repr_injective (String.toList_inj.mp digits)
  subst number
  exact ⟨String.toList_inj.mp (append_cancel_right chars), rfl⟩

/-- The names are those of labels with numbers from `lo` up to `hi`, no two the
same. -/
structure Numbered (lo hi : Nat) (names : List String) : Prop where
  le : lo ≤ hi
  nodup : names.Nodup
  range : ∀ n ∈ names, ∃ kind k, n = labelName kind k ∧ lo ≤ k ∧ k < hi

namespace Numbered

variable {lo mid hi : Nat} {names names' : List String}

theorem nil (le : lo ≤ hi) : Numbered lo hi [] := ⟨le, nodup_nil, by simp⟩

theorem append (first : Numbered lo mid names) (second : Numbered mid hi names') :
    Numbered lo hi (names ++ names') := by
  refine ⟨first.le.trans second.le, nodup_append'.mpr ⟨first.nodup, second.nodup, ?_⟩, ?_⟩
  · intro n left right
    obtain ⟨kind, k, rfl, _, below⟩ := first.range n left
    obtain ⟨kind', k', same, above, _⟩ := second.range _ right
    obtain ⟨_, rfl⟩ := labelName_inj same
    omega
  · intro n member
    rcases mem_append.mp member with left | right
    · obtain ⟨kind, k, rfl, above, below⟩ := first.range n left
      exact ⟨kind, k, rfl, above, below.trans_le second.le⟩
    · obtain ⟨kind, k, rfl, above, below⟩ := second.range n right
      exact ⟨kind, k, rfl, first.le.trans above, below⟩

/-- Two labels of different kinds may share the number before all others. -/
theorem pair {kind kind' : String} (numbered : Numbered (lo + 1) hi names) (other : kind ≠ kind') :
    Numbered lo hi (labelName kind lo :: labelName kind' lo :: names) := by
  have new : ∀ k : String, labelName k lo ∉ names := by
    intro k member
    obtain ⟨_, j, same, above, _⟩ := numbered.range _ member
    obtain ⟨_, rfl⟩ := labelName_inj same
    omega
  have bound := numbered.le
  refine ⟨by omega, nodup_cons.mpr ⟨?_, nodup_cons.mpr ⟨new kind', numbered.nodup⟩⟩, ?_⟩
  · intro member
    rcases mem_cons.mp member with same | inside
    · exact other (labelName_inj same).1
    · exact new kind inside
  · simp only [forall_mem_cons]
    refine ⟨⟨kind, lo, rfl, by omega⟩, ⟨kind', lo, rfl, by omega⟩, fun n inside => ?_⟩
    obtain ⟨k, j, rfl, above, below⟩ := numbered.range n inside
    exact ⟨k, j, rfl, by omega, below⟩

end Numbered

theorem labelNames_append (code code' : List Inst) :
    labelNames (code ++ code') = labelNames code ++ labelNames code' :=
  filterMap_append

end JavaMinus.Code
