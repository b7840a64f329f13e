import Mathlib.Logic.Relation
import JavaMinus.Proofs.Simplification

/-!
# Liveness is exact

A register is live at a position when control can go from there to an instruction that
reads it without passing one that writes it. Here this is said with paths: `Passes` is one
step of control that leaves the register alone, and `ReachesUse` a path of such steps to a
use. In code whose labels occur once and whose jumps have a label, `LiveAt` says the same
(`liveAt_iff_reachesUse`).

**Main result** (`liveness_exact`): where the declarations have distinct names and cover
the code, the sweeps end, and the sets that they end with hold the position of a
declaration exactly if its register reaches a use, from the instruction itself for the
set before it and from one of its successors for the set after it. The sets hold nothing
but positions of declarations.
-/

namespace JavaMinus.Code

open List

variable {vars : List Var} {code : List Inst} {i j : Nat} {inst : Inst} {n : String}

/-- Control may go from position `i` to position `k`, and register `n` is not written at
`i`. -/
def Passes (code : List Inst) (n : String) (i k : Nat) : Prop :=
  ∃ inst, code[i]? = some inst ∧ (∀ d ∈ inst.dst?, d.name ≠ n) ∧ inst.LeadsTo code i k

/-- A path leads from position `i` to an instruction that reads register `n`, and no
instruction before that on the path writes it. -/
def ReachesUse (code : List Inst) (n : String) (i : Nat) : Prop :=
  ∃ p, Relation.ReflTransGen (Passes code n) i p ∧
    ∃ inst, code[p]? = some inst ∧ n ∈ inst.uses.map (·.name)

theorem liveAt_iff_reachesUse : LiveAt code i n ↔ ReachesUse code n i := by
  constructor
  · intro live
    induction live with
    | use here read => exact ⟨_, .refl, _, here, mem_map_of_mem read⟩
    | pass here unwritten leads _ ih =>
      obtain ⟨p, path, use⟩ := ih
      exact ⟨p, .head ⟨_, here, unwritten, leads⟩ path, use⟩
  · rintro ⟨p, path, inst, there, use⟩
    induction path using Relation.ReflTransGen.head_induction_on with
    | refl =>
      obtain ⟨r, read, rfl⟩ := mem_map.mp use
      exact .use there read
    | head passes _ ih =>
      obtain ⟨inst', here, unwritten, leads⟩ := passes
      exact .pass here unwritten leads ih

/-- Among distinct names, the position that stands for a register is that of its
declaration. -/
theorem cellOf_eq (distinct : (vars.map (·.name)).Nodup) {v : Var} (here : vars[j]? = some v) :
    cellOf vars v.name = j := by
  obtain ⟨u, there, same⟩ := getElem?_cellOf (mem_map_of_mem (mem_of_getElem? here))
  have unique : (vars.filterMap (some ∘ Var.name)).Nodup := by rwa [filterMap_eq_map]
  exact position_unique_of_nodup unique there here (congrArg some same) rfl

theorem has_before_iff_liveAlong (distinct : (vars.map (·.name)).Nodup)
    (declared : ∀ n ∈ occurring code, n ∈ vars.map (·.name)) (i c : Nat) :
    has (liveness vars code).before i c ↔
      ∃ v, vars[c]? = some v ∧ LiveAlong code i v.name := by
  constructor
  · intro member
    obtain ⟨n, rfl, live⟩ := exists_liveAlong_of_has member
    obtain ⟨v, here, rfl⟩ := getElem?_cellOf (declared n live.occurs)
    exact ⟨v, here, live⟩
  · rintro ⟨v, here, live⟩
    have found := liveIn_of_liveAlong declared live
    rwa [LiveIn, cellOf_eq distinct here] at found

/-- **Liveness is exact.** Let the declarations have distinct names and cover the
registers of the code, let no label occur twice and every jump have its label. Then the
sweeps reach sets that a further sweep does not change. In these sets, position `c` is live
before an instruction exactly if a register is declared there and a path without writes
leads from the instruction to a use of it, and live after the instruction exactly if such a
path starts at one of its successors. -/
theorem liveness_exact (distinct : (vars.map (·.name)).Nodup)
    (declared : ∀ n ∈ occurring code, n ∈ vars.map (·.name)) (labels : UniqueLabels code)
    (targets : ∀ t ∈ jumpTargets code, .label t ∈ code) :
    (∃ rounds, LoopEnds (sweep (flowSteps vars code).toArray code.length)
      (fun b => sameSets b (sweep (flowSteps vars code).toArray code.length b) = true)
      (Array.replicate code.length .empty) rounds (liveness vars code).before) ∧
    ∀ i inst, code[i]? = some inst → ∀ c,
      (((liveness vars code).before.getD i .empty).contains c = true ↔
        ∃ v, vars[c]? = some v ∧ ReachesUse code v.name i) ∧
      (((liveness vars code).after.getD i .empty).contains c = true ↔
        ∃ v, vars[c]? = some v ∧ ∃ k, inst.LeadsTo code i k ∧ ReachesUse code v.name k) := by
  have wf : WellFormed vars code :=
    ⟨fun n occurs => count_eq_one_of_mem distinct (declared n occurs), labels, targets⟩
  have before : ∀ i c, has (liveness vars code).before i c ↔
      ∃ v, vars[c]? = some v ∧ LiveAt code i v.name := fun i c => by
    simp only [has_before_iff_liveAlong distinct declared, liveAlong_iff_liveAt wf]
  obtain ⟨rounds, _, ends⟩ := (liveness_ends vars code).2
  refine ⟨⟨rounds, ends⟩, fun i inst here c => ⟨?_, ?_⟩⟩
  · simp only [← liveAt_iff_reachesUse]
    exact before i c
  · simp only [← liveAt_iff_reachesUse, contains_after_iff here, before, mem_allSuccessors_iff wf here]
    constructor
    · rintro ⟨k, ⟨leads, _⟩, v, declaration, live⟩
      exact ⟨v, declaration, k, leads, live⟩
    · rintro ⟨v, declaration, k, leads, live⟩
      exact ⟨k, ⟨leads, live.lt⟩, v, declaration, live⟩

/-- Behind the jump back in `countdown`, the step of the count is live, since it is read at
the head of the loop. -/
theorem liveness_exact_countdown :
    ((countdown.vars.map (·.name)).Nodup ∧
      (∀ n ∈ occurring countdown.code, n ∈ countdown.vars.map (·.name)) ∧
      UniqueLabels countdown.code ∧ ∀ t ∈ jumpTargets countdown.code, .label t ∈ countdown.code) ∧
    ((liveness countdown.vars countdown.code).after.getD 6 .empty).contains 1 = true ∧
    ∃ k, Inst.LeadsTo countdown.code (.branch (some (.reg ⟨"rest", .boolean⟩)) "loop") 6 k ∧
      ReachesUse countdown.code "one" k := by
  have distinct : (countdown.vars.map (·.name)).Nodup := by decide
  have declared : ∀ n ∈ occurring countdown.code, n ∈ countdown.vars.map (·.name) := by decide
  have labels : UniqueLabels countdown.code := by decide
  have targets : ∀ t ∈ jumpTargets countdown.code, .label t ∈ countdown.code := by decide
  have member : ((liveness countdown.vars countdown.code).after.getD 6 .empty).contains 1 = true := by
    decide +kernel
  refine ⟨⟨distinct, declared, labels, targets⟩, member, ?_⟩
  have exact := (liveness_exact distinct declared labels targets).2 6 _ rfl 1
  obtain ⟨v, declaration, reaches⟩ := exact.2.mp member
  obtain rfl : ⟨"one", .int, .declared⟩ = v := Option.some.inj declaration
  exact reaches

end JavaMinus.Code
