import JavaMinus.Proofs.SlotLayout
import JavaMinus.Proofs.TellingTexts

/-!
# Simplifying twice changes nothing

The simplest form of a method has fewer declarations than the method. A second simplification
therefore starts from shorter lists of registers, both where constants are looked for and where
live registers are.

**Declarations do not matter.** As long as every register that occurs is declared, what is found
is the same. Live registers are those with a path to a use, whatever is declared
(`liveIn_iff_liveAlong`). The visits that look for constants take the same course, and find the
same states as far as they are about registers that both know of; of the other registers nothing is
known at any place (`Alike`, `alike_lastVisits`).

**Main result** (`simplify_idempotent`): no pass changes the simplest form of a method, so
simplifying it gives it back.
-/

namespace JavaMinus.Code

open List

open Registers (nodup_eraseDups)

/-! ## States about more and about fewer registers -/

/-- The states agree on the registers of the second list. Nothing is known of the other
registers of the first one. -/
structure Agree (regs regs' : List String) (st st' : State) : Prop where
  length : st.length = regs.length
  length' : st'.length = regs'.length
  same : ∀ n ∈ regs', st.get regs n = st'.get regs' n
  rest : ∀ n ∈ regs, n ∉ regs' → st.get regs n = .varying

theorem Inst.mem_names_of_operand {inst : Inst} {o : Option Operand} (member : o ∈ inst.operands)
    {r : Reg} (isReg : r ∈ o.bind Operand.reg?) : r.name ∈ inst.names :=
  mem_map_of_mem (mem_append_right _ (mem_filterMap.mpr ⟨o, member, isReg⟩))

theorem State.eq_of_get {regs : List String} (nodup : regs.Nodup) {st u : State}
    (length : st.length = regs.length) (length' : u.length = regs.length)
    (same : ∀ n ∈ regs, st.get regs n = u.get regs n) : st = u := by
  refine ext_getElem (length.trans length'.symm) fun i inside inside' => ?_
  have bound : i < regs.length := length ▸ inside
  have here := same regs[i] (getElem_mem bound)
  rw [State.get, State.get, nodup.idxOf_getElem i bound] at here
  simpa [getD_eq_getElem?_getD, inside, inside'] using here

namespace Agree

variable {regs regs' : List String} {st st' u u' : State}

theorem eq_iff (nodup : regs.Nodup) (nodup' : regs'.Nodup)
    (first : Agree regs regs' st st') (second : Agree regs regs' u u') : st = u ↔ st' = u' := by
  constructor
  · rintro rfl
    refine State.eq_of_get nodup' first.length' second.length' fun n member => ?_
    rw [← first.same n member, second.same n member]
  · rintro rfl
    refine State.eq_of_get nodup first.length second.length fun n member => ?_
    by_cases shared : n ∈ regs'
    · rw [first.same n shared, second.same n shared]
    · rw [first.rest n member shared, second.rest n member shared]

theorem meet (sub : ∀ n ∈ regs', n ∈ regs) (first : Agree regs regs' st st')
    (second : Agree regs regs' u u') : Agree regs regs' (st.meet u) (st'.meet u') where
  length := State.length_meet first.length second.length
  length' := State.length_meet first.length' second.length'
  same n member := by
    rw [State.get_meet first.length second.length (sub n member),
      State.get_meet first.length' second.length' member, first.same n member, second.same n member]
  rest n member other := by
    rw [State.get_meet first.length second.length member, first.rest n member other,
      second.rest n member other]
    rfl

variable (agree : Agree regs regs' st st')

include agree

theorem value {o : Option Operand} (shared : ∀ r ∈ o.bind Operand.reg?, r.name ∈ regs') :
    st.value regs o = st'.value regs' o := by
  rcases o with _ | ⟨r⟩ | ⟨v, t⟩
  · rfl
  · exact agree.same r.name (shared r rfl)
  · rfl

theorem subst {o : Operand} (shared : ∀ r ∈ o.reg?, r.name ∈ regs') :
    st.subst regs o = st'.subst regs' o := by
  cases o with
  | imm v t => rfl
  | reg r => rw [State.subst, State.subst, agree.same r.name (shared r rfl)]

variable {inst : Inst} (shared : ∀ n ∈ inst.names, n ∈ regs')

include shared

theorem successors (code : List Inst) (i : Nat) :
    successors code (st.decides regs) i inst = successors code (st'.decides regs') i inst := by
  cases inst with
  | branch c t =>
    have known : st.decides regs c = st'.decides regs' c := by
      rw [State.decides, State.decides, agree.value fun r isReg =>
        shared _ (Inst.mem_names_of_operand mem_cons_self isReg)]
    rw [Code.successors, Code.successors, known]
  | _ => rfl

theorem result : st.result regs inst = st'.result regs' inst := by
  have each : ∀ o ∈ inst.operands, st.value regs o = st'.value regs' o := fun o member =>
    agree.value fun r isReg => shared _ (Inst.mem_names_of_operand member isReg)
  cases inst with
  | assign d s => exact each s mem_cons_self
  | binary d op l r =>
    rw [State.result, State.result, each l mem_cons_self,
      each r (mem_cons_of_mem _ mem_cons_self)]
  | unary d op x =>
    cases op with
    | not => rw [State.result, State.result, each x mem_cons_self]
    | _ => rfl
  | _ => rfl

theorem after (sub : ∀ n ∈ regs', n ∈ regs) :
    Agree regs regs' (st.after regs inst) (st'.after regs' inst) := by
  have result := agree.result shared
  unfold State.after
  cases dst : inst.dst? with
  | none => exact agree
  | some d =>
    have known : d.name ∈ regs' := shared d.name (by
      rw [Inst.names, dst]
      exact mem_cons_self)
    refine ⟨by simpa using agree.length, by simpa using agree.length', fun n member => ?_,
      fun n member other => ?_⟩
    · rw [State.get_set agree.length (sub n member) (sub _ known),
        State.get_set agree.length' member known, result, agree.same n member]
    · rw [State.get_set agree.length member (sub _ known), if_neg, agree.rest n member other]
      rintro rfl
      exact other known

theorem mapOperands : inst.mapOperands (st.subst regs) = inst.mapOperands (st'.subst regs') := by
  exact Inst.mapOperands_congr fun o member =>
    agree.subst fun r isReg => shared _ (Inst.mem_names_of_operand member isReg)

end Agree

/-! ## Visits take the same course -/

/-- Visits about more and about fewer registers that have taken the same course. -/
structure Alike (regs regs' : List String) (v v' : Visits) : Prop where
  work : v.work = v'.work
  size : v.states.size = v'.states.size
  states : ∀ i, Option.Rel (Agree regs regs') (v.at? i) (v'.at? i)

namespace Alike

variable {regs regs' : List String} {v v' : Visits} {st st' : State}

theorem put (alike : Alike regs regs' v v') (agree : Agree regs regs' st st') (place : Nat)
    (work : List Nat) :
    Alike regs regs' { states := v.states.setIfInBounds place (some st), work }
      { states := v'.states.setIfInBounds place (some st'), work } := by
  refine ⟨rfl, by simpa using alike.size, fun i => ?_⟩
  by_cases inside : place < v.states.size
  · rw [Visits.at?_put inside, Visits.at?_put (alike.size ▸ inside)]
    split
    · exact .some agree
    · exact alike.states i
  · rw [Array.setIfInBounds_eq_of_size_le (Nat.not_lt.mp inside),
      Array.setIfInBounds_eq_of_size_le (alike.size ▸ Nat.not_lt.mp inside)]
    exact alike.states i

variable (nodup : regs.Nodup) (nodup' : regs'.Nodup) (sub : ∀ n ∈ regs', n ∈ regs)

include nodup nodup' sub

theorem reach (alike : Alike regs regs' v v') (agree : Agree regs regs' st st') (place : Nat) :
    Alike regs regs' (v.reach st place) (v'.reach st' place) := by
  have here := alike.states place
  unfold Visits.at? at here
  unfold Visits.reach
  rw [alike.work]
  generalize found : v.states.getD place none = old at here
  generalize found' : v'.states.getD place none = old' at here
  cases here with
  | none =>
    simp only [reduceCtorEq, if_false]
    exact alike.put agree place _
  | some both =>
    have merged := both.meet sub agree
    simp only [Option.some.injEq, both.eq_iff nodup nodup' merged]
    split
    · exact alike
    · exact alike.put merged place _

theorem reach_all (alike : Alike regs regs' v v') (agree : Agree regs regs' st st')
    (places : List Nat) :
    Alike regs regs' (places.foldl (fun v p => v.reach st p) v)
      (places.foldl (fun v p => v.reach st' p) v') := by
  induction places generalizing v v' with
  | nil => exact alike
  | cons p rest ih => exact ih (alike.reach nodup nodup' sub agree p)

theorem visitNext {code : List Inst} (shared : ∀ inst ∈ code, ∀ n ∈ inst.names, n ∈ regs')
    (alike : Alike regs regs' v v') :
    Alike regs regs' (v.visitNext regs code) (v'.visitNext regs' code) := by
  unfold Visits.visitNext
  rw [alike.work]
  split
  case h_1 => exact alike
  case h_2 i rest _ =>
    have popped : Alike regs regs' { v with work := rest } { v' with work := rest } :=
      ⟨rfl, alike.size, alike.states⟩
    have names : ∀ n ∈ (code.toArray.getD i .hole).names, n ∈ regs' := by
      rw [Array.getD_eq_getD_getElem?, List.getElem?_toArray]
      cases here : code[i]? with
      | none => exact fun n member => (not_mem_nil member).elim
      | some inst => exact shared inst (mem_of_getElem? here)
    have here := alike.states i
    unfold Visits.at? at here
    unfold Visits.visit
    generalize v.states.getD i none = found at here ⊢
    generalize v'.states.getD i none = found' at here ⊢
    cases here with
    | none => exact popped
    | some agree =>
      simp only [agree.successors names code i]
      exact popped.reach_all nodup nodup' sub (agree.after names sub) _

end Alike

/-! ## Passes with fewer declarations -/

/-- Every register that occurs is declared. -/
def AllDeclared (vars : List Var) (code : List Inst) : Prop :=
  ∀ n ∈ occurring code, n ∈ vars.map (·.name)

section Passes

variable {vars vars' : List Var} {code : List Inst}

theorem AllDeclared.of_names (declared : AllDeclared vars code) {inst : Inst} (member : inst ∈ code)
    {n : String} (among : n ∈ inst.names) : n ∈ vars.map (·.name) :=
  declared n (mem_flatMap.mpr ⟨inst, member, among⟩)

theorem AllDeclared.mem_registersOf_iff (declared : AllDeclared vars code) {n : String} :
    n ∈ registersOf vars code ↔ n ∈ vars.map (·.name) := by
  rw [registersOf, mem_eraseDups, mem_append, or_iff_left_iff_imp]
  intro written
  obtain ⟨inst, member, found⟩ := mem_filterMap.mp written
  obtain ⟨d, dst, rfl⟩ := Option.map_eq_some_iff.mp found
  obtain ⟨i, here⟩ := mem_iff_getElem?.mp member
  exact declared _ (mem_occurring_of_dst here dst)

variable (declared : AllDeclared vars code) (declared' : AllDeclared vars' code)
  (sub : ∀ v ∈ vars', v ∈ vars)

include declared declared' sub

theorem alike_lastVisits : Alike (registersOf vars code) (registersOf vars' code)
    (lastVisits vars code) (lastVisits vars' code) := by
  obtain ⟨_, _, ends⟩ := lastVisits_ends vars code
  obtain ⟨_, _, ends'⟩ := lastVisits_ends vars' code
  have fewer : ∀ n ∈ registersOf vars' code, n ∈ registersOf vars code := by
    intro n member
    rw [declared'.mem_registersOf_iff] at member
    obtain ⟨v, among, rfl⟩ := mem_map.mp member
    exact declared.mem_registersOf_iff.mpr (mem_map_of_mem (sub v among))
  have entry : Agree (registersOf vars code) (registersOf vars' code) (entryState vars code)
      (entryState vars' code) := by
    have unknown : ∀ n ∈ registersOf vars code,
        (entryState vars code).get (registersOf vars code) n = .varying := fun n member =>
      get_entryState member (declared.mem_registersOf_iff.mp member)
    refine ⟨by simp [entryState], by simp [entryState], fun n member => ?_,
      fun n member _ => unknown n member⟩
    rw [unknown n (fewer n member), get_entryState member (declared'.mem_registersOf_iff.mp member)]
  refine ends.related (Alike (registersOf vars code) (registersOf vars' code)) ?_ ?_ ?_ ends'
  · exact fun alike => alike.visitNext (nodup_eraseDups _) (nodup_eraseDups _) fewer
      fun inst member n among => declared'.mem_registersOf_iff.mpr (declared'.of_names member among)
  · intro v v' alike
    rw [alike.work]
  · refine ⟨rfl, by simp [firstVisits], fun i => ?_⟩
    rw [at?_firstVisits, at?_firstVisits]
    split
    · exact .some entry
    · exact .none

theorem propagate_congr : propagate vars code = propagate vars' code := by
  rw [propagate_eq, propagate_eq]
  refine thin_congr fun i inst here => ?_
  have names : ∀ n ∈ inst.names, n ∈ registersOf vars' code := fun n among =>
    declared'.mem_registersOf_iff.mpr (declared'.of_names (mem_of_getElem? here) among)
  have found := (alike_lastVisits declared declared' sub).states i
  unfold putConstants
  generalize (lastVisits vars code).at? i = st at found ⊢
  generalize (lastVisits vars' code).at? i = st' at found ⊢
  cases found with
  | none => rfl
  | some agree => rw [Inst.specialize, Inst.specialize, agree.mapOperands names]

omit sub in
theorem dropDeadStores_congr : dropDeadStores vars code = dropDeadStores vars' code := by
  rw [dropDeadStores_eq, dropDeadStores_eq]
  refine thin_congr fun i inst here => ?_
  unfold keepStore isDeadStore
  cases dst : inst.dst? with
  | none => rfl
  | some d =>
    have occurs : d.name ∈ occurring code := mem_occurring_of_dst here dst
    have live : (liveness vars code).isLiveAfter vars i d.name =
        (liveness vars' code).isLiveAfter vars' i d.name := by
      refine Bool.eq_iff_iff.mpr ((liveOut_iff here d.name).trans
        (Iff.trans ?_ (liveOut_iff here d.name).symm))
      simp only [liveIn_iff_liveAlong declared (declared _ occurs),
        liveIn_iff_liveAlong declared' (declared' _ occurs)]
    simp only [live]

/-- **Declarations that no register needs** do not matter to what is left to simplify. -/
theorem Steady.of_fewer (steady : Steady vars code) : Steady vars' code where
  constants := (propagate_congr declared declared' sub).symm.trans steady.constants
  jumps := steady.jumps
  labels := steady.labels
  stores := (dropDeadStores_congr declared declared').symm.trans steady.stores

end Passes

/-! ## The second simplification -/

theorem allDeclared_simplifyRound {vars : List Var} {code : List Inst}
    (declared : AllDeclared vars code) : AllDeclared vars (simplifyRound vars code) := by
  have each : ∀ inst ∈ simplifyRound vars code, ∀ n ∈ inst.names, n ∈ vars.map (·.name) :=
    forall_mem_simplifyRound (fun among left n member => among n (Inst.names_specialize left n member))
      fun inst member n => declared.of_names member
  intro n occurs
  obtain ⟨inst, member, among⟩ := mem_flatMap.mp occurs
  exact each inst member n among

theorem allDeclared_pruneVars {m : Method} (declared : AllDeclared m.vars m.code) :
    AllDeclared (pruneVars m).vars (pruneVars m).code := by
  intro n occurs
  obtain ⟨v, member, rfl⟩ := mem_map.mp (declared n occurs)
  refine mem_map_of_mem (mem_filter.mpr ⟨member, ?_⟩)
  have listed : v.name ∈ occurring m.code := occurs
  unfold Var.isNeeded
  split <;> simp [listed]

theorem pruneVars_pruneVars (m : Method) : pruneVars (pruneVars m) = pruneVars m := by
  simp only [pruneVars, filter_filter, Bool.and_self]

/-- A method that no pass changes and that has no needless declaration is in its simplest form. -/
theorem Steady.simplify?_eq {m : Method} (steady : Steady m.vars m.code) (legible : Legible m.code)
    (pruned : pruneVars m = m) : m.simplify? = some m := by
  have settled : simplifyRounds (weight m.code + 1) m = m := by
    simp only [simplifyRounds, steady.simplifyRound_eq, if_true]
  rw [Method.simplify?, if_pos legible.isSome_text?, Method.simplify, settled, pruned]

/-- **Simplification is idempotent.** A method that lacks no operand, whose registers are declared
and in which the names of registers and of the classes of their types are words, has a simplest
form. No pass changes that, and simplifying it gives back the same code and the same declarations. -/
theorem simplify_idempotent (m : Method) (named : ∀ inst ∈ m.code, inst.Named)
    (complete : ∀ inst ∈ m.code, inst.isComplete = true)
    (declared : ∀ n ∈ occurring m.code, n ∈ m.vars.map (·.name)) :
    ∃ m', m.simplify? = some m' ∧ Steady m'.vars m'.code ∧ m'.simplify? = some m' := by
  have legible : Legible m.code := fun inst member =>
    ⟨named inst member, Inst.isSome_line? (complete inst member)⟩
  obtain ⟨code, simplest, legible', steady, declared'⟩ := exists_steady legible
    (P := AllDeclared m.vars) declared fun code kept => allDeclared_simplifyRound kept
  have pruned : AllDeclared (pruneVars { m with code := code }).vars code :=
    allDeclared_pruneVars (m := { m with code := code }) declared'
  have steady' : Steady (pruneVars { m with code := code }).vars code :=
    steady.of_fewer declared' pruned fun v member => (mem_filter.mp member).1
  exact ⟨_, simplest, steady', steady'.simplify?_eq legible' (pruneVars_pruneVars _)⟩

theorem simplify_idempotent_countdown : ((∀ inst ∈ countdown.code, inst.Named) ∧
      (∀ inst ∈ countdown.code, inst.isComplete = true) ∧
      ∀ n ∈ occurring countdown.code, n ∈ countdown.vars.map (·.name)) ∧
    ∃ m', countdown.simplify? = some m' ∧ Steady m'.vars m'.code ∧ m'.simplify? = some m' := by
  have named : ∀ inst ∈ countdown.code, inst.Named := by decide +kernel
  have complete : ∀ inst ∈ countdown.code, inst.isComplete = true := by decide
  have declared : ∀ n ∈ occurring countdown.code, n ∈ countdown.vars.map (·.name) := by decide
  exact ⟨⟨named, complete, declared⟩, simplify_idempotent countdown named complete declared⟩

end JavaMinus.Code
