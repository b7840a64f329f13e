import JavaMinus.Proofs.CodeSegments
import JavaMinus.Proofs.TidyCode

/-!
# Registers are written before they are read

Emitted code is made of plain instructions, conditionals and loops, one inside the other. Along
this structure it can be told which registers have been written for sure (`Careful`): a plain
instruction adds the one it writes, and nothing is added by a conditional or a loop, since its
parts may be left out.

**Careful code.** A register that is live where careful code starts has been written before, or it
is still live behind the code and the code does not write it for sure (`Careful.live`). A loop may
be gone round several times, so steps are counted (`LiveFor`).

**Emitting carefully** (`Carefully`) leaves careful code behind, in which the value that is given
has been computed. The code of expressions and statements is made in this way (`Built.careful`,
`BuiltStmt.careful`).
-/

namespace JavaMinus.Code

open List

open Syntax (Expr Stmt)
open Typing (Mark Scope)
open Emit (emit complain temp)

/-! ## Careful code -/

/-- The register of the operand, if it is one, has been written. -/
def Held (W : Set String) (v : Operand) : Prop := ∀ r, v.reg? = some r → r.name ∈ W

/-- Code that only reads registers that have been written, if those of the first set have been
written before. Those of the second set have been written where the code ends. -/
inductive Careful : Set String → List Inst → Set String → Prop where
  | nil {W : Set String} : Careful W [] W
  | plain {W W' : Set String} {inst : Inst} {rest : List Inst} : inst.target? = none →
      (∀ r ∈ inst.uses, r.name ∈ W) →
      Careful {n | n ∈ W ∨ ∃ d ∈ inst.dst?, d.name = n} rest W' → Careful W (inst :: rest) W'
  | ifElse {W V V' W' : Set String} {cond : Operand} {t e : String} {no yes rest : List Inst} :
      Held W cond → Careful W no V → Careful W yes V' → Careful W rest W' →
      Careful W (.branch (some cond) t :: (no ++ .goto e :: .label t :: (yes ++ .label e :: rest))) W'
  | loop {W V V' W' : Set String} {cond : Operand} {t e : String} {body test rest : List Inst} :
      Careful W body V → Careful W test V' → Held V' cond → Careful W rest W' →
      Careful W (.goto e :: .label t :: (body ++ .label e :: (test ++ .branch (some cond) t :: rest)))
        W'

namespace Careful

variable {W V W' : Set String} {code code' : List Inst}

theorem subset (careful : Careful W code W') : W ⊆ W' := by
  induction careful with
  | nil => exact Set.Subset.rfl
  | plain _ _ _ ih => exact Set.Subset.trans (fun _ => .inl) ih
  | ifElse _ _ _ _ _ _ ih => exact ih
  | loop _ _ _ _ _ _ ih => exact ih

theorem append (first : Careful W code V) (second : Careful V code' W') :
    Careful W (code ++ code') W' := by
  induction first with
  | nil => exact second
  | plain noTarget read _ ih => exact .plain noTarget read (ih second)
  | ifElse cond no yes _ _ _ ih =>
    simp only [cons_append, append_assoc]
    exact .ifElse cond no yes (ih second)
  | loop body test cond _ _ _ ih =>
    simp only [cons_append, append_assoc]
    exact .loop body test cond (ih second)

end Careful

/-! ## Counted paths to a use -/

/-- A path with the given number of steps leads from the position to an instruction that reads the
register, and nothing before that on the path writes it. -/
def LiveFor (code : List Inst) (x : String) : Nat → Nat → Prop
  | 0, i => ∃ inst, code[i]? = some inst ∧ ∃ r ∈ inst.uses, r.name = x
  | n + 1, i => ∃ inst k, code[i]? = some inst ∧ (∀ d ∈ inst.dst?, d.name ≠ x) ∧
      inst.LeadsTo code i k ∧ LiveFor code x n k

section Steps

variable {code : List Inst} {x t : String} {i j n : Nat} {inst : Inst}

theorem exists_liveFor (live : LiveAt code i x) : ∃ n, LiveFor code x n i := by
  induction live with
  | use here read => exact ⟨0, _, here, _, read, rfl⟩
  | pass here unwritten leads _ ih =>
    obtain ⟨n, later⟩ := ih
    exact ⟨n + 1, _, _, here, unwritten, leads, later⟩

theorem LiveFor.pass (live : LiveFor code x n i) (here : code[i]? = some inst)
    (unread : ∀ r ∈ inst.uses, r.name ≠ x) :
    ∃ m < n, ∃ k, (∀ d ∈ inst.dst?, d.name ≠ x) ∧ inst.LeadsTo code i k ∧ LiveFor code x m k := by
  cases n with
  | zero =>
    obtain ⟨_, there, r, read, same⟩ := live
    rw [here] at there
    cases there
    exact absurd same (unread r read)
  | succ n =>
    obtain ⟨_, k, there, unwritten, leads, later⟩ := live
    rw [here] at there
    cases there
    exact ⟨n, Nat.lt_succ_self n, k, unwritten, leads, later⟩

theorem LiveFor.next (live : LiveFor code x n i) (here : code[i]? = some inst)
    (unread : ∀ r ∈ inst.uses, r.name ≠ x) (noTarget : inst.target? = none) :
    (∀ d ∈ inst.dst?, d.name ≠ x) ∧ ∃ m < n, LiveFor code x m (i + 1) := by
  obtain ⟨m, fewer, k, unwritten, ⟨_, rfl⟩ | ⟨t, target, _⟩, later⟩ := live.pass here unread
  · exact ⟨unwritten, m, fewer, later⟩
  · rw [noTarget] at target
    cases target

theorem LiveFor.label (live : LiveFor code x n i) (here : code[i]? = some (.label t)) :
    ∃ m < n, LiveFor code x m (i + 1) :=
  (live.next here (by simp [Inst.uses, Inst.operands]) rfl).2

theorem LiveFor.jump (unique : UniqueLabels code) (live : LiveFor code x n (labelAt code t))
    (there : code[j]? = some (.label t)) : ∃ m < n, LiveFor code x m (j + 1) := by
  rw [unique.position_unique (getElem?_labelAt (mem_of_getElem? there)) there] at live
  exact live.label there

theorem LiveFor.goto (unique : UniqueLabels code) (live : LiveFor code x n i)
    (here : code[i]? = some (.goto t)) (there : code[j]? = some (.label t)) :
    ∃ m < n, LiveFor code x m (j + 1) := by
  obtain ⟨m, fewer, k, _, ⟨falls, _⟩ | ⟨_, ⟨⟩, rfl⟩, later⟩ :=
    live.pass here (by simp [Inst.uses, Inst.operands])
  · cases falls
  · obtain ⟨m', fewer', later'⟩ := later.jump unique there
    exact ⟨m', fewer'.trans fewer, later'⟩

theorem LiveFor.branch {W : Set String} {cond : Operand} (unique : UniqueLabels code)
    (live : LiveFor code x n i) (here : code[i]? = some (.branch (some cond) t)) (held : Held W cond)
    (unwritten : x ∉ W) (there : code[j]? = some (.label t)) :
    ∃ m < n, LiveFor code x m (i + 1) ∨ LiveFor code x m (j + 1) := by
  have unread : ∀ r ∈ (Inst.branch (some cond) t).uses, r.name ≠ x := by
    rintro r read rfl
    exact unwritten (held r (by simpa [Inst.uses, Inst.operands] using read))
  obtain ⟨m, fewer, k, _, ⟨_, rfl⟩ | ⟨_, ⟨⟩, rfl⟩, later⟩ := live.pass here unread
  · exact ⟨m, fewer, .inl later⟩
  · obtain ⟨m', fewer', later'⟩ := later.jump unique there
    exact ⟨m', fewer'.trans fewer, .inr later'⟩

/-- **Careful code** is passed by the path to a use of a register that has not been written. -/
theorem Careful.live {W W' : Set String} {part : List Inst} (careful : Careful W part W')
    (unique : UniqueLabels code) (stands : StandsAt code i part) (live : LiveFor code x n i)
    (unwritten : x ∉ W) : ∃ m ≤ n, LiveFor code x m (i + part.length) ∧ x ∉ W' := by
  induction careful generalizing i n with
  | nil => exact ⟨n, Nat.le_refl n, live, unwritten⟩
  | @plain W W' inst rest noTarget read _ ih =>
    have unread : ∀ r ∈ inst.uses, r.name ≠ x := fun r use same => unwritten (same ▸ read r use)
    obtain ⟨kept, m, fewer, later⟩ := live.next stands.head unread noTarget
    obtain ⟨m', le, done⟩ := ih stands.tail later (by
      rintro (before | ⟨d, dst, same⟩)
      · exact unwritten before
      · exact kept d dst same)
    rw [length_cons, Nat.add_comm rest.length, ← Nat.add_assoc]
    exact ⟨m', by omega, done⟩
  | @ifElse W V V' W' cond t e no yes rest held _ _ _ atNo atYes atRest =>
    have behind := stands.tail.right rfl
    have last := behind.tail.tail.right rfl
    obtain ⟨m, fewer, choice⟩ := live.branch unique stands.head held unwritten behind.tail.head
    -- Both branches come to the last label.
    have joined : ∃ m' < n, LiveFor code x m' (i + 1 + no.length + 1 + 1 + yes.length + 1) := by
      rcases choice with falls | jumps
      · obtain ⟨m₁, le, later, _⟩ := atNo stands.tail.left falls unwritten
        obtain ⟨m₂, fewer₂, later₂⟩ := later.goto unique behind.head last.head
        exact ⟨m₂, by omega, later₂⟩
      · obtain ⟨m₁, le, later, _⟩ := atYes behind.tail.tail.left jumps unwritten
        obtain ⟨m₂, fewer₂, later₂⟩ := later.label last.head
        exact ⟨m₂, by omega, later₂⟩
    obtain ⟨m', fewer', later'⟩ := joined
    obtain ⟨m'', le, done⟩ := atRest last.tail later' unwritten
    refine ⟨m'', by omega, ?_⟩
    simp only [length_cons, length_append] at done ⊢
    convert done using 2
    omega
  | @loop W V V' W' cond t e body test rest _ _ held _ atBody atTest atRest =>
    have bodyStands := stands.tail.tail
    have label := bodyStands.right rfl
    have branch := label.tail.right rfl
    -- From the condition on, the loop is left after finitely many rounds.
    have left : ∀ n, LiveFor code x n (i + 1 + 1 + body.length + 1) →
        ∃ m ≤ n, LiveFor code x m (i + 1 + 1 + body.length + 1 + test.length + 1) := by
      intro n
      induction n using Nat.strongRecOn with
      | ind n again =>
        intro live
        obtain ⟨m₁, le₁, later₁, unheld⟩ := atTest label.tail.left live unwritten
        obtain ⟨m₂, fewer₂, falls | jumps⟩ :=
          later₁.branch unique branch.head held unheld stands.tail.head
        · exact ⟨m₂, by omega, falls⟩
        · obtain ⟨m₃, le₃, later₃, _⟩ := atBody bodyStands.left jumps unwritten
          obtain ⟨m₄, fewer₄, later₄⟩ := later₃.label label.head
          obtain ⟨m₅, le₅, done⟩ := again m₄ (by omega) later₄
          exact ⟨m₅, by omega, done⟩
    obtain ⟨m, fewer, later⟩ := live.goto unique stands.head label.head
    obtain ⟨m', le', later'⟩ := left m later
    obtain ⟨m'', le, done⟩ := atRest branch.tail later' unwritten
    refine ⟨m'', by omega, ?_⟩
    simp only [length_cons, length_append] at done ⊢
    convert done using 2
    omega

/-- No other register is live at the start of careful code than those that have been written. -/
theorem Careful.not_liveAt {W W' : Set String} (careful : Careful W code W')
    (unique : UniqueLabels code) (unwritten : x ∉ W) : ¬LiveAt code 0 x := by
  intro live
  obtain ⟨n, counted⟩ := exists_liveFor live
  obtain ⟨m, _, later, _⟩ := careful.live unique (.whole code) counted unwritten
  have outside : code[0 + code.length]? = none := by simp
  cases m with
  | zero =>
    obtain ⟨inst, here, _⟩ := later
    cases outside.symm.trans here
  | succ m =>
    obtain ⟨inst, _, here, _⟩ := later
    cases outside.symm.trans here

end Steps

/-! ## Careful emission -/

/-- Careful code is emitted. The value satisfies `gives` for the registers that have been written. -/
def Carefully {α : Type} (W : Set String) (gives : Set String → α → Prop) (e : Emitted α) : Prop :=
  ∃ W', Careful W e.code W' ∧ gives W' e.value

/-- The operand has been computed, and so has the register that it had to go to. -/
def Filled (dst : Option Reg) (W : Set String) (v : Operand) : Prop :=
  Held W v ∧ ∀ d ∈ dst, d.name ∈ W

theorem held_reg {W : Set String} {r : Reg} (written : r.name ∈ W) : Held W (.reg r) := by
  rintro _ ⟨⟩
  exact written

theorem Held.mono {W W' : Set String} {v : Operand} (held : Held W v) (more : W ⊆ W') : Held W' v :=
  fun r found => more (held r found)

namespace Carefully

variable {α β : Type} {s : Supply} {W : Set String} {gives : Set String → α → Prop}
  {gives' : Set String → β → Prop}

theorem silent {e : Emitted α} (none : e.code = []) (given : gives W e.value) :
    Carefully W gives e :=
  ⟨W, none ▸ .nil, given⟩

protected theorem bind {x : Emit α} {f : α → Emit β} (first : Carefully W gives (x s))
    (second : ∀ a s' W', W ⊆ W' → gives W' a → Carefully W' gives' (f a s')) :
    Carefully W gives' ((x >>= f) s) := by
  obtain ⟨V, code, given⟩ := first
  obtain ⟨V', code', given'⟩ := second _ (x s).supply V code.subset given
  exact ⟨V', code.append code', given'⟩

protected theorem emit {inst : Inst} (noTarget : inst.target? = none)
    (read : ∀ r ∈ inst.uses, r.name ∈ W) :
    Carefully W (fun W' _ => W ⊆ W' ∧ ∀ d ∈ inst.dst?, d.name ∈ W') (emit [inst] s) :=
  ⟨_, .plain noTarget read .nil, fun _ => .inl, fun d dst => .inr ⟨d, dst, rfl⟩⟩

theorem settle {v : Operand} (held : Held W v) (dst : Option Reg) :
    Carefully W (Filled dst) (settle v dst s) := by
  cases dst with
  | none => exact .silent rfl ⟨held, by simp⟩
  | some d =>
    refine .bind (.emit rfl fun r read => held r ?_) fun _ s' W' _ written => ?_
    · simpa [Inst.uses, Inst.operands] using read
    · have here : d.name ∈ W' := written.2 d rfl
      exact .silent rfl ⟨held_reg here, by simpa using here⟩

theorem destination (m : Mark) (dst : Option Reg) :
    Carefully W (fun W' r => W' = W ∧ ∀ d ∈ dst, d = r) (destination m dst s) := by
  cases dst with
  | none => exact .silent rfl ⟨rfl, by simp⟩
  | some d => exact .silent rfl ⟨rfl, by simp [Code.destination]⟩

end Carefully

/-! ## Expressions and statements -/

section

variable {cls : String} {known : Set String}

/-- The expression is computed carefully. -/
def CarefulValue (cls : String) (known : Set String) (x : Expr Mark) : Prop :=
  ∀ dst s W, known ⊆ W → Carefully W (Filled dst) (exprValue cls dst x s)

theorem argValues_careful {xs : List (Expr Mark)} (each : ∀ x ∈ xs, CarefulValue cls known x)
    {s : Supply} {W : Set String} (more : known ⊆ W) :
    Carefully W (fun W' vs => ∀ v ∈ vs, Held W' v) (argValues cls xs s) := by
  induction xs generalizing s W with
  | nil => exact .silent rfl (forall_mem_nil _)
  | cons x rest ih =>
    obtain ⟨first, others⟩ := forall_mem_cons.mp each
    refine .bind (first none s W more) fun v s' W' sub filled => ?_
    refine .bind (ih others (more.trans sub)) fun vs s'' W'' sub' held => ?_
    exact .silent rfl (forall_mem_cons.mpr ⟨filled.1.mono sub', held⟩)

theorem OverOperands.read {dst : Option Reg} {inst : List Operand → Inst}
    (fits : OverOperands dst inst) {W : Set String} {vs : List Operand}
    (held : ∀ v ∈ vs, Held W v) : ∀ r ∈ (inst vs).uses, r.name ∈ W := by
  intro r read
  obtain ⟨o, operand, named⟩ := mem_filterMap.mp read
  obtain ⟨v, rfl, isReg⟩ := Option.bind_eq_some_iff.mp named
  exact held v (fits.operands vs v operand) r isReg

theorem computeWith_careful {xs : List (Expr Mark)} {inst : Reg → List Operand → Inst}
    (each : ∀ x ∈ xs, CarefulValue cls known x)
    (fits : ∀ d, OverOperands (some d) (inst d)) (m : Mark) (dst : Option Reg) {s : Supply}
    {W : Set String} (more : known ⊆ W) :
    Carefully W (Filled dst) (computeWith cls m dst xs inst s) := by
  refine .bind (argValues_careful each more) fun vs s₁ W₁ _ held => ?_
  refine .bind (.destination m dst) ?_
  rintro r s₂ _ _ ⟨rfl, same⟩
  refine .bind (.emit ((fits r).plain vs).1 ((fits r).read held)) fun _ s₃ W₃ _ written => ?_
  have here : r.name ∈ W₃ := written.2 r ((fits r).dst vs)
  exact .silent rfl ⟨held_reg here, fun d found => same d found ▸ here⟩

theorem and_careful {m : Mark} {l r : Expr Mark} (left : CarefulValue cls known l)
    (right : CarefulValue cls known r) : CarefulValue cls known (.binary m .and l r) := by
  intro dst s W more
  rw [exprValue_and cls m dst l r s rfl rfl rfl rfl]
  generalize temp .boolean { s with labels := s.labels + 1 } = made
  obtain ⟨W₁, first, _, written⟩ := left (some made.value) made.supply W more
  have here : Held W₁ (.reg made.value) := held_reg (written _ rfl)
  obtain ⟨W₂, second, _⟩ := right (some made.value) (exprValue cls (some made.value) l made.supply).supply
    W₁ (more.trans first.subset)
  obtain ⟨W₃, last, filled⟩ := Carefully.settle here dst (s := (exprValue cls (some made.value) r
      (exprValue cls (some made.value) l made.supply).supply).supply)
  exact ⟨W₃, first.append (.ifElse here .nil second last), filled⟩

theorem newObject_careful (m : Mark) (name : String) :
    CarefulValue cls known (.newObject m name) := by
  intro dst s W _
  rw [exprValue]
  refine .bind (.destination m dst) ?_
  rintro d s' V _ ⟨rfl, same⟩
  refine .bind (?_ : Carefully V (fun W' (_ : Unit) => d.name ∈ W') _) fun _ s'' W' _ here => ?_
  · refine ⟨_, .plain rfl ?_ (.plain rfl ?_ .nil), .inl (.inr ⟨d, rfl, rfl⟩)⟩
    · simp [Inst.uses, Inst.operands]
    · simp [Inst.uses, Inst.operands, Operand.reg?, Inst.dst?]
  · exact .silent rfl ⟨held_reg here, fun d' found => same d' found ▸ here⟩

variable {sc : Scope} {loose : Prop} {vars : List Var} (knows : Knows sc.table.cls sc.method vars)
  (listed : ∀ v ∈ vars, v.name ∈ known)

include knows listed

/-- **Expressions.** The value of an expression is computed carefully. -/
theorem Built.careful {x : Expr Mark} (built : Built sc loose x) :
    CarefulValue sc.table.cls known x := by
  induction built with
  | atHand same declared =>
    intro dst s W more
    rw [same]
    refine .settle (fun r found => ?_) dst
    obtain ⟨v, member, isName, _⟩ := declared vars knows r found
    exact more (isName ▸ listed v member)
  | computed _ _ same fits _ _ each =>
    intro dst s W more
    rw [same]
    exact computeWith_careful each fits _ dst more
  | and _ _ _ _ _ left right => exact and_careful left right
  | newObject _ => exact newObject_careful _ _

/-- The code of the statement is made carefully. -/
def CarefulStmt (cls : String) (known : Set String) (x : Stmt Mark) : Prop :=
  ∀ s W, known ⊆ W → Carefully W (fun _ _ => True) (stmtCode cls x s)

omit knows listed in
theorem stmtsCode_careful {ss : List (Stmt Mark)} (each : ∀ x ∈ ss, CarefulStmt cls known x)
    {s : Supply} {W : Set String} (more : known ⊆ W) :
    Carefully W (fun _ _ => True) (stmtsCode cls ss s) := by
  induction ss generalizing s W with
  | nil => exact .silent rfl trivial
  | cons x rest ih =>
    obtain ⟨first, others⟩ := forall_mem_cons.mp each
    exact .bind (first s W more) fun _ s' W' sub _ => ih others (more.trans sub)

/-- **Statements.** The code of a statement is made carefully. -/
theorem BuiltStmt.careful {x : Stmt Mark} (built : BuiltStmt sc loose x) :
    CarefulStmt sc.table.cls known x := by
  induction built with
  | block _ each =>
    intro s W more
    rw [stmtCode]
    exact stmtsCode_careful each more
  | @ifElse p c y n cond _ _ _ yes no =>
    intro s W more
    rw [stmtCode_ifElse sc.table.cls p c y n s rfl rfl rfl]
    obtain ⟨W₁, test, held, _⟩ := cond.careful knows listed none { s with labels := s.labels + 1 } W more
    have more₁ := more.trans test.subset
    obtain ⟨W₂, first, _⟩ := no _ W₁ more₁
    obtain ⟨W₃, second, _⟩ := yes _ W₁ more₁
    exact ⟨W₁, test.append (.ifElse held first second .nil), trivial⟩
  | @«while» p c b cond _ _ body =>
    intro s W more
    rw [stmtCode_while sc.table.cls p c b s rfl rfl]
    obtain ⟨W₁, inner, _⟩ := body { s with labels := s.labels + 1 } W more
    obtain ⟨W₂, test, held, _⟩ := cond.careful knows listed none _ W more
    exact ⟨W, .loop inner test held .nil, trivial⟩
  | value same _ _ built =>
    intro s W more
    rw [same]
    exact .bind (built.careful knows listed _ s W more) fun _ _ _ _ _ => .silent rfl trivial
  | emitted same _ fits _ each =>
    intro s W more
    rw [same]
    refine .bind (argValues_careful (fun x member => (each x member).careful knows listed) more)
      fun vs s' W' _ held => ?_
    exact ⟨_, .plain (fits.plain vs).1 (fits.read held) .nil, trivial⟩
  | voidCall same _ _ each =>
    intro s W more
    rw [same]
    refine .bind (argValues_careful (fun x member => (each x member).careful knows listed) more)
      fun vs s' W' _ _ => ?_
    refine .bind (.silent rfl rfl : Carefully W' (fun V (_ : Unit) => V = W') _) fun _ _ _ _ _ => ?_
    exact ⟨_, .plain rfl (by simp [Inst.uses, Inst.operands, Operand.int, Operand.reg?]) .nil, trivial⟩

end

end JavaMinus.Code
