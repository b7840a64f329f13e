import JavaMinus.Proofs.Simplification
import JavaMinus.Proofs.TypedInstructions

/-!
# What emitted code is made of

The code that is made for a runnable tree lacks nothing. Every instruction is sound and typed
(`Made`). Every register is declared with the type that it is used at (`Declared`), new
registers are temporaries with names of their own, every jump has its label, and no label
stands twice.

**Emitting tidily** (`Tidy`) keeps all of this at once. The labels that may be jumped to and
those that are placed are listed, so that the parts of a loop or a conditional can be emitted one
after the other, and the lists are emptied where the labels are handed out (`Tidy.numbered`).
What is reported is part of the statement: expressions are silent (`Valued.tidy`), and a
statement reports the void calls that it assigns and nothing else (`Runnable.tidy`).
-/

namespace JavaMinus.Code

open List

open Syntax (Expr Stmt Target)
open Typing (Mark Scope)
open Emit (emit complain temp labelNumber tempName)

variable {dst : Option Reg} {xs : List (Expr Mark)} {name : String} {p : Mark}

/-! ## Declared registers -/

theorem Inst.Sound.isComplete {inst : Inst} (sound : inst.Sound) : inst.isComplete = true := by
  cases inst with
  | call c => exact all_eq_true.mpr sound.args
  | hole => exact sound.elim
  | binary d op l r => simp [Inst.isComplete, Inst.operands, sound.2.1, sound.2.2]
  | unary d op x => simp [Inst.isComplete, Inst.operands, sound.2]
  | _ => exact all_eq_true.mpr sound

/-- The registers that an instruction writes or reads. -/
def Inst.registers (inst : Inst) : List Reg := inst.dst?.toList ++ inst.uses

/-- The register is declared, with its type. -/
def Declared (vars : List Var) (r : Reg) : Prop := ∃ v ∈ vars, v.name = r.name ∧ v.type = r.type

/-- The operand is a number or a declared register. -/
def OperandDeclared (vars : List Var) (o : Operand) : Prop := ∀ r, o.reg? = some r → Declared vars r

/-- An instruction over declared registers that does not end a method without a result. -/
structure Inst.Proper (P : Inst → Prop) (vars : List Var) (inst : Inst) : Prop where
  made : P inst
  declared : ∀ r ∈ inst.registers, Declared vars r
  goesOn : inst ≠ .retVoid

section Declarations

variable {P : Inst → Prop} {vars vars' : List Var}

theorem Declared.mono {r : Reg} (declared : Declared vars r) (more : vars <+: vars') :
    Declared vars' r := by
  obtain ⟨v, member, same⟩ := declared
  exact ⟨v, more.subset member, same⟩

theorem OperandDeclared.mono {o : Operand} (declared : OperandDeclared vars o)
    (more : vars <+: vars') : OperandDeclared vars' o :=
  fun r found => (declared r found).mono more

theorem operandDeclared_imm (v : Int32) (t : Ty) : OperandDeclared vars (.imm v t) := by
  intro r found
  cases found

theorem operandDeclared_reg {r : Reg} (declared : Declared vars r) : OperandDeclared vars (.reg r) := by
  intro r' found
  cases found
  exact declared

theorem Inst.Proper.mono {inst : Inst} (proper : inst.Proper P vars) (more : vars <+: vars') :
    inst.Proper P vars' :=
  ⟨proper.made, fun r member => (proper.declared r member).mono more, proper.goesOn⟩

/-- The registers of an instruction are declared if its destination and its operands are. -/
theorem declared_registers {inst : Inst} (dst : ∀ d ∈ inst.dst?, Declared vars d)
    (operands : ∀ o, some o ∈ inst.operands → OperandDeclared vars o) :
    ∀ r ∈ inst.registers, Declared vars r := by
  intro r member
  rcases mem_append.mp member with written | read
  · exact dst r (Option.mem_toList.mp written)
  · obtain ⟨o, operand, named⟩ := mem_filterMap.mp read
    obtain ⟨x, rfl, isReg⟩ := Option.bind_eq_some_iff.mp named
    exact operands x operand r isReg

theorem proper_label {name : String} (made : P (.label name)) : (Inst.label name).Proper P vars :=
  ⟨made, declared_registers (by simp [Inst.dst?]) (by simp [Inst.operands]), Inst.noConfusion⟩

theorem proper_goto {target : String} (made : P (.goto target)) : (Inst.goto target).Proper P vars :=
  ⟨made, declared_registers (by simp [Inst.dst?]) (by simp [Inst.operands]), Inst.noConfusion⟩

theorem proper_branch {cond : Operand} {target : String} (made : P (.branch (some cond) target))
    (declared : OperandDeclared vars cond) : (Inst.branch (some cond) target).Proper P vars :=
  ⟨made, declared_registers (by simp [Inst.dst?]) (by simpa [Inst.operands] using declared),
    Inst.noConfusion⟩

end Declarations

/-! ## Tidy emission -/

/-- Emitting from a supply that leaves tidy code behind, apart from jumps to labels that are still
to be placed and labels that were handed out before. The value satisfies `gives`. -/
structure Tidy {α : Type} (P : Inst → Prop) (s : Supply) (opened placed : List String)
    (reports : List Diagnostic) (gives : List Var → α → Prop) (e : Emitted α) : Prop where
  reports : e.reports = reports
  temps : ∃ temps : List Var, e.supply.vars = s.vars ++ temps ∧ ∀ v ∈ temps, v.kind = .temp
  nodup : (s.vars.map (·.name)).Nodup → (e.supply.vars.map (·.name)).Nodup
  labels : ∃ names, (labelNames e.code).Perm (placed ++ names) ∧
    Numbered s.labels e.supply.labels names
  proper : ∀ inst ∈ e.code, inst.Proper P e.supply.vars
  targets : ∀ t ∈ jumpTargets e.code, t ∈ opened ∨ .label t ∈ e.code
  value : gives e.supply.vars e.value

/-- Nothing is said of the value. -/
def anyValue {α : Type} (_ : List Var) (_ : α) : Prop := True

theorem jumpTargets_append (code code' : List Inst) :
    jumpTargets (code ++ code') = jumpTargets code ++ jumpTargets code' :=
  filterMap_append

namespace Tidy

variable {α β : Type} {P : Inst → Prop} {s : Supply} {opened placed placed' : List String}
  {reports reports' : List Diagnostic} {gives : List Var → α → Prop} {gives' : List Var → β → Prop}

theorem more {e : Emitted α} (tidy : Tidy P s opened placed reports gives e) :
    s.vars <+: e.supply.vars := by
  obtain ⟨temps, same, _⟩ := tidy.temps
  exact ⟨temps, same.symm⟩

protected theorem pure {a : α} (given : gives s.vars a) :
    Tidy P s opened [] [] gives ((pure a : Emit α) s) where
  reports := rfl
  temps := ⟨[], by simp, by simp⟩
  nodup := id
  labels := ⟨[], .refl _, .nil (Nat.le_refl _)⟩
  proper := by simp
  targets := by simp [jumpTargets]
  value := given

/-- What follows may use what is given, and what was declared before is still declared. -/
protected theorem bind {x : Emit α} {f : α → Emit β}
    (first : Tidy P s opened placed reports gives (x s))
    (second : ∀ a s', s.vars <+: s'.vars → gives s'.vars a →
      Tidy P s' opened placed' reports' gives' (f a s')) :
    Tidy P s opened (placed ++ placed') (reports ++ reports') gives' ((x >>= f) s) := by
  have last := second (x s).value (x s).supply first.more first.value
  refine ⟨?_, ?_, last.nodup ∘ first.nodup, ?_, ?_, ?_, last.value⟩
  · rw [bind_reports, first.reports, last.reports]
  · obtain ⟨temps, same, isTemp⟩ := first.temps
    obtain ⟨temps', same', isTemp'⟩ := last.temps
    refine ⟨temps ++ temps', ?_, forall_mem_append.mpr ⟨isTemp, isTemp'⟩⟩
    rw [bind_supply, same', same, append_assoc]
  · obtain ⟨names, perm, numbered⟩ := first.labels
    obtain ⟨names', perm', numbered'⟩ := last.labels
    refine ⟨names ++ names', ?_, numbered.append numbered'⟩
    rw [bind_code, labelNames_append, append_assoc]
    refine (perm.append perm').trans ?_
    rw [append_assoc]
    exact (perm_append_comm_assoc names placed' names').append_left placed
  · intro inst member
    rcases mem_append.mp member with before | after
    · exact (first.proper inst before).mono last.more
    · exact last.proper inst after
  · intro t jumped
    rw [bind_code, jumpTargets_append] at jumped
    rw [bind_code, mem_append]
    rcases mem_append.mp jumped with before | after
    · exact (first.targets t before).imp_right .inl
    · exact (last.targets t after).imp_right .inr

theorem silent_bind {x : Emit α} {f : α → Emit β} (first : Tidy P s opened placed [] gives (x s))
    (second : ∀ a s', s.vars <+: s'.vars → gives s'.vars a →
      Tidy P s' opened placed' reports' gives' (f a s')) :
    Tidy P s opened (placed ++ placed') reports' gives' ((x >>= f) s) :=
  first.bind second

/-- With a number that is handed out, two labels may be jumped to and are placed. -/
theorem numbered {f : Nat → Emit α} (kind kind' : String) (other : kind ≠ kind')
    (inner : Tidy P { s with labels := s.labels + 1 }
      ([labelName kind s.labels, labelName kind' s.labels] ++ opened)
      [labelName kind s.labels, labelName kind' s.labels] reports gives
      (f s.labels { s with labels := s.labels + 1 })) :
    Tidy P s opened [] reports gives ((labelNumber >>= f) s) := by
  obtain ⟨names, perm, numbered⟩ := inner.labels
  refine ⟨inner.reports, inner.temps, inner.nodup, ⟨_, perm, numbered.pair other⟩, inner.proper,
    fun t jumped => ?_, inner.value⟩
  rcases inner.targets t jumped with listed | stands
  · rcases mem_append.mp listed with isPlaced | isOpened
    · exact .inr (mem_labelNames.mp (perm.mem_iff.mpr (mem_append_left _ isPlaced)))
    · exact .inl isOpened
  · exact .inr stands

protected theorem emit {code : List Inst} (placed : List String)
    (proper : ∀ inst ∈ code, inst.Proper P s.vars)
    (isPlaced : labelNames code = placed := by rfl)
    (targets : ∀ t ∈ jumpTargets code, t ∈ opened := by simp [jumpTargets, Inst.target?]) :
    Tidy P s opened placed [] anyValue (emit code s) where
  reports := rfl
  temps := ⟨[], by simp, by simp⟩
  nodup := id
  labels := ⟨[], by simp [isPlaced], .nil (Nat.le_refl _)⟩
  proper := proper
  targets t jumped := .inl (targets t jumped)
  value := trivial

protected theorem complain (p : Pos) (message : String) :
    Tidy P s opened [] [.error .generation p.line p.col message] anyValue (complain p message s) where
  reports := rfl
  temps := ⟨[], by simp [complain], by simp⟩
  nodup := id
  labels := ⟨[], .refl _, .nil (Nat.le_refl _)⟩
  proper := by simp [complain]
  targets := by simp [complain, jumpTargets]
  value := trivial

protected theorem temp (t : Ty) :
    Tidy P s opened [] [] (fun vars d => Declared vars d ∧ d.type = t) (temp t s) where
  reports := rfl
  temps := ⟨[⟨(temp t s).value.name, t, .temp⟩], rfl, by simp⟩
  nodup distinct := by
    have fresh := temp_fresh t s
    simp only [temp, map_append, map_cons, map_nil] at fresh ⊢
    exact nodup_append'.mpr ⟨distinct, nodup_singleton _,
      disjoint_singleton.mpr fresh⟩
  labels := ⟨[], .refl _, .nil (Nat.le_refl _)⟩
  proper := by simp [temp]
  targets := by simp [temp, jumpTargets]
  value := ⟨⟨_, mem_append_right _ mem_cons_self, rfl, rfl⟩, rfl⟩

end Tidy

/-! ## Places for values -/

/-- A declared register for values of a type. -/
structure Lands (t : Ty) (vars : List Var) (d : Reg) : Prop where
  declared : Declared vars d
  alike : d.type.Alike t

theorem Lands.mono {t : Ty} {vars vars' : List Var} {d : Reg} (lands : Lands t vars d)
    (more : vars <+: vars') : Lands t vars' d :=
  ⟨lands.declared.mono more, lands.alike⟩

/-- The operand is declared, and it is one for values of a type unless it is a given register. -/
def Lies (t : Ty) (dst : Option Reg) (vars : List Var) (v : Operand) : Prop :=
  OperandDeclared vars v ∧ (dst = none → Computed t v)

namespace Tidy

variable {sc : Scope} {loose : Prop} {s : Supply} {opened : List String} {t : Ty}

theorem destination {m : Mark} (values : (valueType m).HasValues)
    (known : ∀ d ∈ dst, Lands (valueType m) s.vars d) :
    Tidy (Made sc loose) s opened [] []
      (fun vars d => Lands (valueType m) vars d ∧ (dst = none → d.type = valueType m))
      (destination m dst s) := by
  cases dst with
  | none =>
    have new : Tidy (Made sc loose) s opened [] [] _ (temp (valueType m) s) := .temp _
    exact { new with value := ⟨⟨new.value.1, values.alike⟩, fun _ => rfl⟩ }
  | some d => exact .pure ⟨known d rfl, by simp⟩

theorem settle {v : Operand} (declared : OperandDeclared s.vars v) (computed : Computed t v)
    (known : ∀ d ∈ dst, Lands t s.vars d) :
    Tidy (Made sc loose) s opened [] [] (Lies t dst) (settle v dst s) := by
  cases dst with
  | none => exact .pure ⟨declared, fun _ => computed⟩
  | some d =>
    have lands := known d rfl
    have proper : (Inst.assign d (some v)).Proper (Made sc loose) s.vars := by
      refine ⟨⟨by simp [Inst.Sound, Inst.operands], ?_⟩, declared_registers ?_ ?_, Inst.noConfusion⟩
      · exact .of_one rfl ⟨v, rfl, computed.alike lands.alike.symm⟩ computed rfl
      · simpa [Inst.dst?] using lands.declared
      · simpa [Inst.operands] using declared
    refine .bind (.emit [] (by simpa using proper)) ?_
    intro _ s' more _
    exact .pure ⟨operandDeclared_reg (lands.declared.mono more), by simp⟩

end Tidy

/-! ## Expressions -/

/-- The variables of a method, and its object, are declared. -/
structure Knows (cls : String) (method : MethodSymbol) (vars : List Var) : Prop where
  var : ∀ n v, method.var? n = some v → Declared vars ⟨n, v.type⟩
  this : method.isStatic = false → Declared vars ⟨"this", .object cls⟩

theorem Knows.mono {cls : String} {method : MethodSymbol} {vars vars' : List Var}
    (knows : Knows cls method vars) (more : vars <+: vars') : Knows cls method vars' :=
  ⟨fun n v found => (knows.var n v found).mono more, fun object => (knows.this object).mono more⟩

/-- Declared operands for the values of expressions. -/
def OperandsFor (xs : List (Expr Mark)) (vars : List Var) (vs : List Operand) : Prop :=
  (∀ v ∈ vs, OperandDeclared vars v) ∧ ComputedAll xs vs

section Expressions

variable {sc : Scope} {loose : Prop} {opened : List String} {inst : List Operand → Inst}
  {r x : Expr Mark} {m : Mark}

/-- The expression is computed tidily, whatever is known to be declared. -/
def TidyValue (sc : Scope) (loose : Prop) (x : Expr Mark) : Prop :=
  ∀ (opened : List String) (dst : Option Reg) (s : Supply), Knows sc.table.cls sc.method s.vars →
    (∀ d ∈ dst, Lands (useOf x) s.vars d) →
    Tidy (Made sc loose) s opened [] [] (Lies (useOf x) dst) (exprValue sc.table.cls dst x s)

theorem argValues_tidy (each : ∀ x ∈ xs, TidyValue sc loose x) {s : Supply}
    (knows : Knows sc.table.cls sc.method s.vars) :
    Tidy (Made sc loose) s opened [] [] (OperandsFor xs) (argValues sc.table.cls xs s) := by
  induction xs generalizing s with
  | nil => exact .pure ⟨by simp, .nil⟩
  | cons x rest ih =>
    obtain ⟨first, others⟩ := forall_mem_cons.mp each
    refine .bind (first _ none s knows (by simp)) fun v s' more given => ?_
    refine .bind (ih others (knows.mono more)) fun vs s'' more' givens => ?_
    exact .pure ⟨forall_mem_cons.mpr ⟨given.1.mono more', givens.1⟩, .cons (given.2 rfl) givens.2⟩

/-- An instruction with a destination and some of the given operands, and without a jump. -/
structure OverOperands (dst : Option Reg) (inst : List Operand → Inst) : Prop where
  dst : ∀ vs, (inst vs).dst? = dst
  operands : ∀ vs o, some o ∈ (inst vs).operands → o ∈ vs
  plain : ∀ vs, (inst vs).target? = none ∧ (inst vs).labelName? = none ∧ inst vs ≠ .retVoid

theorem OverOperands.of_gets (count : Nat)
    (operands : ∀ vs, (inst vs).operands = (List.range count).map (vs[·]?))
    (isDst : ∀ vs, (inst vs).dst? = dst)
    (plain : ∀ vs, (inst vs).target? = none ∧ (inst vs).labelName? = none ∧ inst vs ≠ .retVoid) :
    OverOperands dst inst := by
  refine ⟨isDst, fun vs o member => ?_, plain⟩
  rw [operands vs] at member
  obtain ⟨k, _, found⟩ := mem_map.mp member
  exact mem_of_getElem? found

theorem OverOperands.emit_tidy (fits : OverOperands dst inst) {s : Supply} {vs : List Operand}
    (known : ∀ d ∈ dst, Declared s.vars d) (given : ∀ v ∈ vs, OperandDeclared s.vars v)
    (made : Made sc loose (inst vs)) :
    Tidy (Made sc loose) s opened [] [] anyValue (emit [inst vs] s) := by
  obtain ⟨noTarget, noLabel, goesOn⟩ := fits.plain vs
  refine .emit [] (forall_mem_singleton.mpr ⟨made, ?_, goesOn⟩) (by simp [labelNames, noLabel])
    (by simp [jumpTargets, noTarget])
  exact declared_registers (fits.dst vs ▸ known) fun o member => given o (fits.operands vs o member)

theorem emitWith_tidy (each : ∀ x ∈ xs, TidyValue sc loose x) (fits : OverOperands none inst)
    (made : ∀ vs, ComputedAll xs vs → Made sc loose (inst vs)) {s : Supply}
    (knows : Knows sc.table.cls sc.method s.vars) :
    Tidy (Made sc loose) s opened [] [] anyValue (emitWith sc.table.cls xs inst s) :=
  .bind (argValues_tidy each knows) fun vs _ _ given =>
    fits.emit_tidy (by simp) given.1 (made vs given.2)

theorem computeWith_tidy {inst : Reg → List Operand → Inst} (each : ∀ x ∈ xs, TidyValue sc loose x)
    (fits : ∀ d, OverOperands (some d) (inst d)) (values : (valueType m).HasValues)
    (made : ∀ d vs, d.type.Alike (valueType m) → ComputedAll xs vs → Made sc loose (inst d vs))
    {s : Supply} (knows : Knows sc.table.cls sc.method s.vars)
    (known : ∀ d ∈ dst, Lands (valueType m) s.vars d) :
    Tidy (Made sc loose) s opened [] [] (Lies (valueType m) dst)
      (computeWith sc.table.cls m dst xs inst s) := by
  refine .bind (argValues_tidy each knows) fun vs s₁ more given => ?_
  refine .bind (.destination values fun d found => (known d found).mono more)
    fun d s₂ more' ⟨lands, isNew⟩ => ?_
  refine .bind ((fits d).emit_tidy (by simpa using lands.declared)
    (fun v member => (given.1 v member).mono more') (made d vs lands.alike given.2))
    fun _ s₃ more'' _ => ?_
  exact .pure ⟨operandDeclared_reg (lands.declared.mono more''), fun new => computed_reg (isNew new)⟩

theorem callOver_overOperands {callee : Typing.Callee} {used : Ty} :
    OverOperands dst fun vs => .call (callOver callee dst name used vs) := by
  refine ⟨fun vs => ?_, fun vs o => mem_of_mem_callOver, fun _ => ⟨rfl, rfl, Inst.noConfusion⟩⟩
  simp only [callOver]
  split <;> rfl

/-- How the code of an expression is made: the value is at hand, or one instruction computes it
from the values of other expressions, or it is made in one of two ways of its own. -/
inductive Built (sc : Scope) (loose : Prop) : Expr Mark → Prop where
  | atHand {x : Expr Mark} {v : Operand} : (∀ dst, exprValue sc.table.cls dst x = settle v dst) →
      (∀ vars, Knows sc.table.cls sc.method vars → OperandDeclared vars v) →
      Computed (useOf x) v → Built sc loose x
  | computed {x : Expr Mark} {m : Mark} {xs : List (Expr Mark)} {inst : Reg → List Operand → Inst} :
      x.mark? = some m → (valueType m).HasValues →
      (∀ dst, exprValue sc.table.cls dst x = computeWith sc.table.cls m dst xs inst) →
      (∀ d, OverOperands (some d) (inst d)) →
      (∀ d vs, d.type.Alike (valueType m) → ComputedAll xs vs → Made sc loose (inst d vs)) →
      (∀ y ∈ xs, Built sc loose y) → Built sc loose x
  | and {m : Mark} {l r : Expr Mark} : m.type = some .boolean → Built sc loose l →
      useOf l = .boolean → Built sc loose r → useOf r = .boolean →
      Built sc loose (.binary m .and l r)
  | newObject {m : Mark} {name : String} : m.type = some (.object name) →
      Built sc loose (.newObject m name)

theorem name_built (named : NameFound sc m name) : Built sc loose (.ident m name) := by
  rcases named.place with ⟨v, found, kind, type, used⟩ | ⟨_, kind⟩
  · refine .atHand (v := .reg ⟨name, (refOf m).type⟩) (fun dst => ?_) (fun vars knows => ?_)
      (computed_reg (type.trans used.symm))
    · rcases kind with kind | kind <;> simp [exprValue, nameValue, kind]
    · exact operandDeclared_reg (type ▸ knows.var name v found)
  · obtain ⟨object, declared⟩ := named.member kind
    refine .computed rfl (Valued.ident named : Valued sc loose _).hasValues
      (fun dst => exprValue_field _ m dst kind) (fun d => .of_gets 0 (fun _ => rfl) (fun _ => rfl)
      fun _ => ⟨rfl, rfl, Inst.noConfusion⟩) (fun d vs lands _ => ?_) (forall_mem_nil _)
    exact ⟨by simp [Inst.Sound, Inst.operands], fun t found => (declared t found).2.2 ▸ lands,
      fun _ => Inst.noConfusion, by simp [Inst.operands], fun _ => object, fun _ => Inst.noConfusion⟩

theorem Valued.built (valued : Valued sc loose x) : Built sc loose x := by
  induction valued with
  | int type | bool type =>
    exact .atHand (fun _ => rfl) (fun _ _ => operandDeclared_imm _ _)
      (computed_imm (valueType_of_known type rfl).symm rfl)
  | this object type =>
    exact .atHand (fun _ => by rw [exprValue]) (fun _ knows => operandDeclared_reg (knows.this object))
      (computed_reg (valueType_of_known type rfl).symm)
  | ident named => exact name_built named
  | @binary m op l r operand result types type _ isLeft _ isRight left right =>
    by_cases short : op = .and
    · subst short
      cases types
      exact .and type left isLeft right isRight
    · have strict : operand = .int ∧ result.isWord = true ∧ result.HasValues := by
        cases op <;> cases types <;> first | exact ⟨rfl, rfl, rfl, rfl⟩ | exact absurd rfl short
      obtain ⟨rfl, word, values⟩ := strict
      have used : valueType m = result := valueType_of_known type values.1
      refine .computed rfl (used ▸ values) (fun dst => exprValue_binary _ m dst short l r)
        (fun d => .of_gets 2 (fun _ => rfl) (fun _ => rfl) fun _ => ⟨rfl, rfl, Inst.noConfusion⟩)
        (fun d vs lands given => ?_) (by simpa using ⟨left, right⟩)
      have words := words_of_gets (.binary d op vs[0]? vs[1]?) given 2 rfl
      obtain ⟨a, _, isA, rest, rfl⟩ := forall₂_cons_left_iff.mp given
      obtain ⟨b, _, isB, _, rfl⟩ := forall₂_cons_left_iff.mp rest
      refine ⟨by simp [Inst.Sound, types], .of_plain rfl ?_ words⟩
      exact ⟨lands.isWord (used ▸ word), ⟨a, rfl, isA.type.trans isLeft⟩, b, rfl,
        isB.type.trans isRight⟩
  | @not m x type _ isInner inner =>
    have used : valueType m = .boolean := valueType_of_known type rfl
    refine .computed rfl (used ▸ ⟨rfl, rfl⟩) (fun dst => exprValue_not _ m dst x)
      (fun d => .of_gets 1 (fun _ => rfl) (fun _ => rfl) fun _ => ⟨rfl, rfl, Inst.noConfusion⟩)
      (fun d vs lands given => ?_) (by simpa using inner)
    obtain ⟨a, _, isA, rest, rfl⟩ := forall₂_cons_left_iff.mp given
    cases rest
    exact ⟨⟨rfl, rfl⟩, .of_one rfl ⟨lands.isWord (used ▸ rfl), a, rfl, isA.type.trans isInner⟩ isA rfl⟩
  | @index m a i type _ isArray elem _ isIndex array index =>
    have used : valueType m = (useOf a).elem := valueType_of_known type elem.1
    refine .computed rfl (used ▸ elem) (fun dst => exprValue_index _ m dst a i)
      (fun d => .of_gets 2 (fun _ => rfl) (fun _ => rfl) fun _ => ⟨rfl, rfl, Inst.noConfusion⟩)
      (fun d vs lands given => ?_) (by simpa using ⟨array, index⟩)
    have words := words_of_gets (.load d vs[0]? vs[1]?) given 2 rfl
    obtain ⟨v, _, isV, rest, rfl⟩ := forall₂_cons_left_iff.mp given
    obtain ⟨k, _, isK, _, rfl⟩ := forall₂_cons_left_iff.mp rest
    refine ⟨by simp [Inst.Sound, Inst.operands], .of_plain rfl ?_ words⟩
    exact ⟨⟨v, rfl, isV.type ▸ ⟨isArray, used ▸ lands⟩⟩, k, rfl, isK.type.trans isIndex⟩
  | @length m a type _ isArray array =>
    have used : valueType m = .int := valueType_of_known type rfl
    refine .computed rfl (used ▸ ⟨rfl, rfl⟩) (fun dst => exprValue_length _ m dst a)
      (fun d => .of_gets 1 (fun _ => rfl) (fun _ => rfl) fun _ => ⟨rfl, rfl, Inst.noConfusion⟩)
      (fun d vs lands given => ?_) (by simpa using array)
    obtain ⟨v, _, isV, _, rfl⟩ := forall₂_cons_left_iff.mp given
    exact ⟨by simp [Inst.Sound, Inst.operands],
      .of_one rfl ⟨lands.isWord (used ▸ rfl), v, rfl, isV.type ▸ isArray⟩ isV rfl⟩
  | @newArray m n type _ isLen len =>
    have used : valueType m = .intArray := valueType_of_known type rfl
    refine .computed rfl (used ▸ ⟨rfl, rfl⟩) (fun dst => exprValue_newArray _ m dst n)
      (fun d => .of_gets 1 (fun _ => rfl) (fun _ => rfl) fun _ => ⟨rfl, rfl, Inst.noConfusion⟩)
      (fun d vs lands given => ?_) (by simpa using len)
    obtain ⟨v, _, isV, _, rfl⟩ := forall₂_cons_left_iff.mp given
    exact ⟨by simp [Inst.Sound, Inst.operands],
      .of_one rfl ⟨lands.isRef_eq.trans (used ▸ rfl), v, rfl, isV.type.trans isLen⟩ isV rfl⟩
  | newObject type => exact .newObject type
  | @call m r name as callee found onObject _ each values recv args =>
    refine .computed rfl values
      (fun dst => exprValue_call _ m dst found.found (by rw [found.ret]; exact values.2))
      (fun d => callOver_overOperands) (fun d vs lands given => ?_) (forall_callOperands recv args)
    refine callOver_made found onObject each given fun d' isDst => ?_
    rw [found.ret]
    exact Option.some.inj isDst ▸ lands

theorem and_tidy {l : Expr Mark} (type : m.type = some .boolean) (left : TidyValue sc loose l)
    (isLeft : useOf l = .boolean) (right : TidyValue sc loose r) (isRight : useOf r = .boolean) :
    TidyValue sc loose (.binary m .and l r) := by
  intro opened dst s knows known
  have used : useOf (.binary m .and l r) = .boolean := valueType_of_known type rfl
  have boolean : Ty.boolean.HasValues := ⟨rfl, rfl⟩
  rw [exprValue]
  refine .numbered "and_rhs" "and_end" (by decide) ?_
  refine .bind (.temp _) fun d s₂ more₂ ⟨declared, isType⟩ => ?_
  have computed : Computed .boolean (.reg d) := computed_reg isType
  have lands : Lands .boolean s₂.vars d := ⟨declared, isType ▸ boolean.alike⟩
  refine .bind (left _ (some d) s₂ (knows.mono more₂) (by simpa [isLeft] using lands))
    fun _ s₃ more₃ _ => ?_
  refine .bind (.emit [labelName "and_rhs" _] ?_) fun _ s₄ more₄ _ => ?_
  · simpa using ⟨proper_branch (made_branch computed _) (operandDeclared_reg (declared.mono more₃)),
      proper_goto (made_goto _), proper_label (made_label (by decide) _)⟩
  have more := more₂.trans (more₃.trans more₄)
  refine .bind (right _ (some d) s₄ (knows.mono more)
    (by simpa [isRight] using (lands.mono more₃).mono more₄)) fun _ s₅ more₅ _ => ?_
  refine .bind (.emit [labelName "and_end" _] (by simpa using proper_label (made_label (by decide) _)))
    fun _ s₆ more₆ _ => ?_
  have later := more₅.trans more₆
  rw [used] at known ⊢
  exact .settle (operandDeclared_reg (declared.mono (more₃.trans (more₄.trans later)))) computed
    fun d' found => (known d' found).mono (more.trans later)

theorem newObject_tidy (type : m.type = some (.object name)) :
    TidyValue sc loose (.newObject m name) := by
  intro opened dst s knows known
  have used : valueType m = .object name := valueType_of_known type rfl
  rw [exprValue]
  refine .bind (.destination (used ▸ ⟨rfl, rfl⟩) known) fun d s' _ ⟨lands, isNew⟩ => ?_
  have ref : d.type.isRef = true := lands.alike.isRef_eq.trans (used ▸ rfl)
  refine .bind (.emit [] ?_) fun _ s'' more _ =>
    .pure ⟨operandDeclared_reg (lands.declared.mono more), fun new => computed_reg (isNew new)⟩
  refine forall_mem_cons.mpr ⟨⟨?_, ?_, Inst.noConfusion⟩, forall_mem_singleton.mpr
    ⟨?_, ?_, Inst.noConfusion⟩⟩
  · exact ⟨by simp [Inst.Sound, Inst.operands], .of_plain rfl ref (by simp [Inst.operands])⟩
  · exact declared_registers (by simpa [Inst.dst?] using lands.declared) (by simp [Inst.operands])
  · exact ⟨⟨rfl, by simp, by simp, by simp⟩, lowered_constructorCall ref⟩
  · refine declared_registers (by simp [Inst.dst?]) ?_
    simpa [Inst.operands] using operandDeclared_reg lands.declared

/-- **Expressions.** The value of an expression is computed tidily, and nothing is reported. -/
theorem Built.tidy (built : Built sc loose x) : TidyValue sc loose x := by
  induction built with
  | atHand same declared computed =>
    intro opened dst s knows known
    rw [same]
    exact .settle (declared _ knows) computed known
  | @computed x m xs inst marked values same fits made _ each =>
    intro opened dst s knows known
    have used : useOf x = valueType m := by rw [useOf, marked]; rfl
    rw [used] at known ⊢
    rw [same]
    exact computeWith_tidy each fits values made knows known
  | and type _ isLeft _ isRight left right => exact and_tidy type left isLeft right isRight
  | newObject type => exact newObject_tidy type

theorem Valued.tidy (valued : Valued sc loose x) : TidyValue sc loose x := valued.built.tidy

end Expressions

/-! ## Void calls that are assigned -/

/-- The call of a void method that is assigned to a member that a superclass is assumed to
have. -/
def assignedVoid? (t : Target Mark) : Expr Mark → Option (Pos × String)
  | .call m _ name _ =>
    if (refOf t.mark).kind = .assumed && m.callee.any (fun c => c.method.any (·.ret.isVoid)) then
      some (m.pos, name)
    else none
  | _ => none

mutual

/-- The void calls that a statement assigns, in the order in which code is made: the other
case of a conditional stands first. -/
def assignedVoids : Stmt Mark → List (Pos × String)
  | .block _ ss => assignedVoidsList ss
  | .ifElse _ _ y n => assignedVoids n ++ assignedVoids y
  | .while _ _ b => assignedVoids b
  | .assign _ t v => (assignedVoid? t v).toList
  | _ => []

/-- The void calls that statements assign. -/
def assignedVoidsList : List (Stmt Mark) → List (Pos × String)
  | [] => []
  | s :: rest => assignedVoids s ++ assignedVoidsList rest

end

/-- What is reported of a void call that is assigned. -/
def voidReport (call : Pos × String) : Diagnostic :=
  .error .generation call.1.line call.1.col ("void call " ++ call.2 ++ " used as a value")

theorem assignedVoid?_of_valued {sc : Scope} {loose : Prop} {t : Target Mark} {v : Expr Mark}
    (valued : Valued sc loose v) : assignedVoid? t v = none := by
  cases valued with
  | @call m r name as callee found _ _ _ values =>
    cases known : callee.method with
    | none => simp [assignedVoid?, found.found, known]
    | some f =>
      have value := found.ret name ▸ values.2
      have result : f.ret.isVoid = false := by simpa [callInst, known] using value
      simp [assignedVoid?, found.found, known, result]
  | _ => rfl

/-! ## Shapes of statements -/

section

variable {sc : Scope} {loose : Prop}

/-- The code of a void call whose value is put into a field. -/
def voidCall (cls : String) (xs : List (Expr Mark)) (p : Pos) (name field : String) : Emit Unit := do
  let _ ← argValues cls xs
  complain p ("void call " ++ name ++ " used as a value")
  emit [.putField field (some (.int 0))]

/-- How the code of a statement is made: from the code of its parts, from one expression, or with
one instruction over the values of expressions. -/
inductive BuiltStmt (sc : Scope) (loose : Prop) : Stmt Mark → Prop where
  | block {p : Mark} {ss : List (Stmt Mark)} : (∀ s ∈ ss, BuiltStmt sc loose s) →
      BuiltStmt sc loose (.block p ss)
  | ifElse {p : Mark} {c : Expr Mark} {y n : Stmt Mark} : Built sc loose c → useOf c = .boolean →
      BuiltStmt sc loose y → BuiltStmt sc loose n → BuiltStmt sc loose (.ifElse p c y n)
  | while {p : Mark} {c : Expr Mark} {b : Stmt Mark} : Built sc loose c → useOf c = .boolean →
      BuiltStmt sc loose b → BuiltStmt sc loose (.while p c b)
  | value {x : Stmt Mark} {v : Expr Mark} {dst : Option Reg} :
      stmtCode sc.table.cls x = (do let _ ← exprValue sc.table.cls dst v; return ()) →
      assignedVoids x = [] →
      (∀ d ∈ dst, ∀ vars, Knows sc.table.cls sc.method vars → Lands (useOf v) vars d) →
      Built sc loose v → BuiltStmt sc loose x
  | emitted {x : Stmt Mark} {xs : List (Expr Mark)} {inst : List Operand → Inst} :
      stmtCode sc.table.cls x = emitWith sc.table.cls xs inst → assignedVoids x = [] →
      OverOperands none inst → (∀ vs, ComputedAll xs vs → Made sc loose (inst vs)) →
      (∀ y ∈ xs, Built sc loose y) → BuiltStmt sc loose x
  | voidCall {x : Stmt Mark} {xs : List (Expr Mark)} {p : Pos} {name field : String} :
      stmtCode sc.table.cls x = voidCall sc.table.cls xs p name field →
      assignedVoids x = [(p, name)] → Made sc loose (.putField field (some (.int 0))) →
      (∀ y ∈ xs, Built sc loose y) → BuiltStmt sc loose x

theorem assign_built {t : Target Mark} {v : Expr Mark} (named : NameFound sc t.mark t.name)
    (valued : Valued sc loose v)
    (alike : (refOf t.mark).type.isUnknown = false → (useOf v).Alike (refOf t.mark).type) :
    BuiltStmt sc loose (.assign p t v) := by
  have silent : assignedVoids (.assign p t v) = [] := by
    rw [assignedVoids, assignedVoid?_of_valued valued]
    rfl
  have values := (Valued.ident named : Valued sc loose _).hasValues
  rcases named.place with ⟨x, found, kind, type, used⟩ | ⟨_, kind⟩
  · have same : stmtCode sc.table.cls (.assign p t v) = (do
        let _ ← exprValue sc.table.cls (some ⟨t.name, (refOf t.mark).type⟩) v
        return ()) := by
      rw [stmtCode]
      rcases kind with kind | kind <;> simp [assignTo, kind]
    refine .value same silent ?_ valued.built
    rintro _ ⟨⟩ vars knows
    refine ⟨type ▸ knows.var t.name x found, (alike ?_).symm⟩
    rw [type, ← used]
    exact values.1
  · obtain ⟨object, declared⟩ := named.member kind
    refine .emitted (by rw [stmtCode, assignTo_field _ v kind]) silent (.of_gets 1 (fun _ => rfl)
      (fun _ => rfl) fun _ => ⟨rfl, rfl, Inst.noConfusion⟩) (fun vs given => ?_)
      (by simpa using valued.built)
    have words := words_of_gets (.putField t.name vs[0]?) given 1 rfl
    obtain ⟨a, _, isA, _, rfl⟩ := forall₂_cons_left_iff.mp given
    refine ⟨by simp [Inst.Sound, Inst.operands], fun want isField => ?_, fun _ => Inst.noConfusion,
      words, fun _ => object, fun _ => Inst.noConfusion⟩
    obtain ⟨_, isType, used⟩ := declared want isField
    rw [← isType]
    refine ⟨a, rfl, isA.alike (alike ?_)⟩
    rw [isType, ← used]
    exact values.1

theorem Calling.built {m : Mark} {r : Expr Mark} {as : List (Expr Mark)} {callee : Typing.Callee}
    (calling : Calling sc loose m r as callee) :
    ∀ x ∈ callOperands callee r as, Built sc loose x :=
  forall_callOperands (fun object => (calling.recv object).built)
    fun x member => (calling.args x member).built

theorem stmtCode_assignVoid {t : Target Mark} {m : Mark} {r : Expr Mark} {as : List (Expr Mark)}
    {callee : Typing.Callee} {f : MethodSymbol} (cls : String)
    (assumed : (refOf t.mark).kind = .assumed) (calling : Calling sc loose m r as callee)
    (known : callee.method = some f) (void : f.ret.isVoid = true) :
    stmtCode cls (.assign p t (.call m r name as)) =
      voidCall cls (callOperands callee r as) m.pos name t.name := by
  have isVoid : (callInst callee none none name [] (valueType m)).ret.isVoid = true := by
    simpa [callInst, known] using void
  simp [stmtCode, assignTo, assumed, exprValue_void_call _ m none calling.found.found isVoid, voidCall]

theorem Runnable.built {x : Stmt Mark} (runnable : Runnable sc loose x) : BuiltStmt sc loose x := by
  induction runnable with
  | block _ each => exact .block each
  | ifElse cond isCond _ _ yes no => exact .ifElse cond.built isCond yes no
  | «while» cond isCond _ body => exact .while cond.built isCond body
  | assign named valued alike => exact assign_built named valued alike
  | assignVoid named assumed calling known void =>
    obtain ⟨object, declared⟩ := named.member (.inr assumed)
    refine .voidCall (stmtCode_assignVoid _ assumed calling known void) ?_ ?_ calling.built
    · simp [assignedVoids, assignedVoid?, assumed, calling.found.found, known, void]
    · refine ⟨by simp [Inst.Sound, Inst.operands], fun t found => ?_, fun _ => Inst.noConfusion,
        fun v t member => ?_, fun _ => object, fun _ => Inst.noConfusion⟩
      · cases assumed.symm.trans (declared t found).1
      · cases mem_singleton.mp member
        rfl
  | @arrayAssign p t i v named isArray index isIndex value alike =>
    refine .emitted (stmtCode_arrayAssign _ p t i v) rfl (.of_gets 3 (fun _ => rfl) (fun _ => rfl)
      fun _ => ⟨rfl, rfl, Inst.noConfusion⟩) (fun vs given => ?_)
      (by simpa using ⟨name_built named, index.built, value.built⟩)
    have words := words_of_gets (.store vs[0]? vs[1]? vs[2]?) given 3 rfl
    obtain ⟨a, _, isA, rest, rfl⟩ := forall₂_cons_left_iff.mp given
    obtain ⟨k, _, isK, rest', rfl⟩ := forall₂_cons_left_iff.mp rest
    obtain ⟨x, _, isX, _, rfl⟩ := forall₂_cons_left_iff.mp rest'
    have isType : a.type = valueType t.mark := isA.type
    refine ⟨by simp [Inst.Sound, Inst.operands], .of_plain rfl ?_ words⟩
    exact ⟨⟨a, rfl, isType ▸ ⟨isArray, x, rfl, isX.alike alike⟩⟩, k, rfl, isK.type.trans isIndex⟩
  | @call p m r name as callee calling =>
    exact .emitted (by rw [stmtCode, callStmt_eq _ m calling.found.found]) rfl callOver_overOperands
      (fun vs given => callOver_made calling.found calling.fits calling.args given (by simp))
      calling.built
  | @expr p x noCall valued =>
    have same : stmtCode sc.table.cls (.expr p x) =
        (do let _ ← exprValue sc.table.cls none x; return ()) := by
      cases x with
      | call m r name as => exact absurd rfl (noCall m r name as)
      | _ => rfl
    exact .value same rfl (by simp) valued.built

end

/-! ## Statements -/

section

variable {sc : Scope} {loose : Prop} {opened : List String}

/-- The code of the statement is made tidily, and the void calls that it assigns are
reported. -/
def TidyStmt (sc : Scope) (loose : Prop) (x : Stmt Mark) : Prop :=
  ∀ (opened : List String) (s : Supply), Knows sc.table.cls sc.method s.vars →
    Tidy (Made sc loose) s opened [] ((assignedVoids x).map voidReport) anyValue
      (stmtCode sc.table.cls x s)

theorem stmtsCode_tidy {ss : List (Stmt Mark)} (each : ∀ x ∈ ss, TidyStmt sc loose x)
    {s : Supply} (knows : Knows sc.table.cls sc.method s.vars) :
    Tidy (Made sc loose) s opened [] ((assignedVoidsList ss).map voidReport) anyValue
      (stmtsCode sc.table.cls ss s) := by
  induction ss generalizing s with
  | nil => exact .pure trivial
  | cons x rest ih =>
    obtain ⟨first, others⟩ := forall_mem_cons.mp each
    rw [assignedVoidsList, map_append]
    exact .bind (first _ s knows) fun _ s' more _ => ih others (knows.mono more)

theorem ifElse_tidy {c : Expr Mark} {y n : Stmt Mark} (cond : TidyValue sc loose c)
    (isCond : useOf c = .boolean) (yes : TidyStmt sc loose y) (no : TidyStmt sc loose n) :
    TidyStmt sc loose (.ifElse p c y n) := by
  intro opened s knows
  rw [stmtCode, assignedVoids, map_append]
  refine .numbered "if_then" "if_end" (by decide) ?_
  refine .silent_bind (cond _ none { s with labels := s.labels + 1 } knows (by simp))
    fun v s₂ more₂ lies => ?_
  obtain ⟨declared, computed⟩ := lies
  rw [isCond] at computed
  refine .silent_bind (.emit [] (by simpa using proper_branch (made_branch (computed rfl) _) declared))
    fun _ s₃ more₃ _ => ?_
  have knows₃ := (knows.mono more₂).mono more₃
  refine .bind (no _ s₃ knows₃) fun _ s₄ more₄ _ => ?_
  refine .silent_bind (.emit [labelName "if_then" _] (by simpa using ⟨proper_goto (made_goto _),
    proper_label (made_label (by decide) _)⟩)) fun _ s₅ more₅ _ => ?_
  rw [← append_nil ((assignedVoids y).map voidReport)]
  refine .bind (yes _ s₅ ((knows₃.mono more₄).mono more₅)) fun _ s₆ _ _ => ?_
  exact .emit _ (by simpa using proper_label (made_label (by decide) _))

theorem while_tidy {c : Expr Mark} {b : Stmt Mark} (cond : TidyValue sc loose c)
    (isCond : useOf c = .boolean) (body : TidyStmt sc loose b) :
    TidyStmt sc loose (.while p c b) := by
  intro opened s knows
  rw [stmtCode, assignedVoids]
  refine .numbered "while_body" "while_cond" (by decide) ?_
  refine .silent_bind (.emit [labelName "while_body" _] (by simpa using ⟨proper_goto (made_goto _),
    proper_label (made_label (by decide) _)⟩)) fun _ s₂ more₂ _ => ?_
  have knows₂ := knows.mono more₂
  rw [← append_nil ((assignedVoids b).map voidReport)]
  refine .bind (body _ s₂ knows₂) fun _ s₃ more₃ _ => ?_
  refine .silent_bind (.emit [labelName "while_cond" _]
    (by simpa using proper_label (made_label (by decide) _))) fun _ s₄ more₄ _ => ?_
  refine .silent_bind (cond _ none s₄ ((knows₂.mono more₃).mono more₄) (by simp))
    fun v s₅ _ lies => ?_
  obtain ⟨declared, computed⟩ := lies
  rw [isCond] at computed
  exact .emit _ (by simpa using proper_branch (made_branch (computed rfl) _) declared)

theorem voidCall_tidy {s : Supply} {p : Pos} {field : String} (each : ∀ x ∈ xs, TidyValue sc loose x)
    (made : Made sc loose (.putField field (some (.int 0))))
    (knows : Knows sc.table.cls sc.method s.vars) :
    Tidy (Made sc loose) s opened [] [voidReport (p, name)] anyValue
      (voidCall sc.table.cls xs p name field s) := by
  refine .bind (argValues_tidy each knows) fun _ s₁ _ _ => ?_
  refine .bind (.complain _ _) fun _ s₂ _ _ => .emit [] ?_
  refine forall_mem_singleton.mpr ⟨made, declared_registers (by simp [Inst.dst?]) ?_,
    Inst.noConfusion⟩
  simpa [Inst.operands, Operand.int] using operandDeclared_imm _ _

theorem BuiltStmt.tidy {x : Stmt Mark} (built : BuiltStmt sc loose x) : TidyStmt sc loose x := by
  induction built with
  | block _ each =>
    intro opened s knows
    rw [stmtCode, assignedVoids]
    exact stmtsCode_tidy each knows
  | ifElse cond isCond _ _ yes no => exact ifElse_tidy cond.tidy isCond yes no
  | «while» cond isCond _ body => exact while_tidy cond.tidy isCond body
  | value same silent lands built =>
    intro opened s knows
    rw [same, silent]
    exact .bind (built.tidy _ _ s knows fun d found => lands d found _ knows)
      fun _ _ _ _ => .pure trivial
  | emitted same silent fits made each =>
    intro opened s knows
    rw [same, silent]
    exact emitWith_tidy (fun x member => (each x member).tidy) fits made knows
  | voidCall same reported made each =>
    intro opened s knows
    rw [same, reported]
    exact voidCall_tidy (fun x member => (each x member).tidy) made knows

/-- **Statements.** The code of a runnable statement is made tidily. -/
theorem Runnable.tidy {x : Stmt Mark} (runnable : Runnable sc loose x) : TidyStmt sc loose x :=
  runnable.built.tidy

end

/-! ## Bodies -/

section

variable {sc : Scope} {loose : Prop} {m : Syntax.Method Mark}

theorem knows_declaredVars (cls : String) (method : MethodSymbol) :
    Knows cls method (declaredVars cls method) := by
  refine ⟨fun n v found => ?_, fun object => ?_⟩
  · have same : v.name = n := by simpa using List.find?_some found
    subst same
    rcases mem_append.mp (mem_of_find?_eq_some found) with isLocal | isParam
    · exact ⟨_, mem_append_right _ (mem_map_of_mem isLocal), rfl, rfl⟩
    · exact ⟨_, mem_append_left _ (mem_append_right _ (mem_map_of_mem isParam)),
        rfl, rfl⟩
  · exact ⟨⟨"this", .object cls, .this⟩, by simp [declaredVars, object], rfl, rfl⟩

/-- Compute the value that a method returns, if it returns one. -/
def resultValue (cls : String) : Option (Expr Mark) → Emit (Option Operand)
  | some x => some <$> exprValue cls none x
  | none => pure none

/-- The end of a method that returns a value or nothing. -/
def returnInst : Option Operand → Inst
  | some v => .ret (some v)
  | none => .retVoid

theorem returnCode_eq {cls : String} {ret : Ty} {result : Option (Expr Mark)}
    (returns : result.isSome = !ret.isVoid) :
    returnCode cls ret result = (do
      let v ← resultValue cls result
      emit [returnInst v]) := by
  cases result with
  | none => simp [returnCode, resultValue, returnInst]
  | some x =>
    have valued : ret.isVoid = false := by simpa using returns
    simp [returnCode, resultValue, returnInst, valued]

/-- The value that is returned, where there is one. -/
def ResultGiven (result : Option (Expr Mark)) (vars : List Var) (v : Option Operand) : Prop :=
  v.isSome = result.isSome ∧
    ∀ o, v = some o → OperandDeclared vars o ∧ ∃ x ∈ result, Computed (useOf x) o

theorem resultValue_tidy (runnable : RunnableMethod sc loose m) {s : Supply}
    (knows : Knows sc.table.cls sc.method s.vars) :
    Tidy (Made sc loose) s [] [] [] (ResultGiven m.result) (resultValue sc.table.cls m.result s) := by
  cases given : m.result with
  | none => exact .pure ⟨rfl, by simp⟩
  | some x =>
    rw [resultValue, map_eq_pure_bind]
    refine .bind ((runnable.result x given).1.tidy _ none s knows (by simp)) fun v s' _ lies => ?_
    refine .pure ⟨rfl, fun o same => ?_⟩
    exact Option.some.inj same ▸ ⟨lies.1, x, rfl, lies.2 rfl⟩

/-- The body of a method, up to the instruction that returns. -/
def bodyValue (cls : String) (m : Syntax.Method Mark) : Emit (Option Operand) := do
  stmtsCode cls m.body
  resultValue cls m.result

theorem bodyValue_tidy (runnable : RunnableMethod sc loose m) :
    Tidy (Made sc loose) { vars := declaredVars sc.table.cls sc.method } [] []
      ((assignedVoidsList m.body).map voidReport) (ResultGiven m.result)
      (bodyValue sc.table.cls m { vars := declaredVars sc.table.cls sc.method }) := by
  have knows := knows_declaredVars sc.table.cls sc.method
  rw [← append_nil ((assignedVoidsList m.body).map voidReport)]
  exact .bind (stmtsCode_tidy (fun x member => (runnable.body x member).tidy) knows)
    fun _ s more _ => resultValue_tidy runnable (knows.mono more)

theorem methodCode_body (runnable : RunnableMethod sc loose m) {made : Emitted (Option Operand)}
    (isMade : bodyValue sc.table.cls m { vars := declaredVars sc.table.cls sc.method } = made) :
    (methodCode sc.table.cls sc.method m).value.vars = made.supply.vars ∧
      (methodCode sc.table.cls sc.method m).value.code = made.code ++ [returnInst made.value] ∧
      (methodCode sc.table.cls sc.method m).reports = made.reports := by
  have same : (do stmtsCode sc.table.cls m.body; returnCode sc.table.cls sc.method.ret m.result :
      Emit Unit) = (do
      let v ← bodyValue sc.table.cls m
      emit [returnInst v]) := by
    rw [returnCode_eq runnable.returns, bodyValue, bind_assoc]
  subst isMade
  simp only [methodCode, same]
  exact ⟨rfl, rfl, append_nil _⟩

theorem uniqueLabels_methodCode (runnable : RunnableMethod sc loose m) :
    UniqueLabels (methodCode sc.table.cls sc.method m).value.code := by
  obtain ⟨names, perm, numbered⟩ := (bodyValue_tidy runnable).labels
  have none : ∀ v, labelNames [returnInst v] = [] := by
    intro v
    cases v <;> rfl
  rw [(methodCode_body runnable rfl).2.1, UniqueLabels, labelNames_append, none, append_nil]
  exact perm.nodup_iff.mpr numbered.nodup

end

end JavaMinus.Code
