import JavaMinus.Proofs.Execution

/-!
# Code with instructions dropped or replaced

A pass over code may drop instructions and put others in place of those that it
keeps, one for one. `thin` is the general form of such a pass. An instruction
that is kept at position `i` of the old code is at position `spot i` of the new
one, and a label that is kept stays the first label of its name (`labelAt_thin`).

**Runs of thinned code.** The old and the new code behave the same
(`Thinning.same`) if an instruction and its replacement do the same on related
registers, and if an instruction that is dropped does nothing that can be
observed and leads forward, past labels only.
-/

namespace JavaMinus.Code

open List

variable {inst inst' : Inst} {i : Nat}

/-! ## Positions in thinned code -/

section

variable (keep : Nat → Inst → Option Inst)

/-- Code that starts at position `start`, with each instruction dropped or
replaced. -/
def thinFrom (start : Nat) (code : List Inst) : List Inst :=
  (code.zipIdx start).filterMap fun (inst, i) => keep i inst

/-- Code with each instruction dropped or replaced. -/
abbrev thin (code : List Inst) : List Inst := thinFrom keep 0 code

/-- The position in the thinned code of the first instruction that is kept from
position `i` on. -/
def spot (code : List Inst) (i : Nat) : Nat := (thin keep (code.take i)).length

variable {keep} {code : List Inst}

theorem thinFrom_append (start : Nat) (first second : List Inst) :
    thinFrom keep start (first ++ second) =
      thinFrom keep start first ++ thinFrom keep (start + first.length) second := by
  simp only [thinFrom, zipIdx_append, filterMap_append]

theorem thinFrom_cons (start : Nat) (inst : Inst) (rest : List Inst) :
    thinFrom keep start (inst :: rest) =
      (keep start inst).toList ++ thinFrom keep (start + 1) rest := by
  cases h : keep start inst <;> simp [thinFrom, zipIdx_cons, h]

theorem thin_congr {keep' : Nat → Inst → Option Inst}
    (same : ∀ i inst, code[i]? = some inst → keep i inst = keep' i inst) :
    thin keep code = thin keep' code := by
  refine filterMap_congr fun p member => ?_
  exact same p.2 p.1 (mem_zipIdx_iff_getElem?.mp member)

theorem length_thinFrom_le (start : Nat) (code : List Inst) :
    (thinFrom keep start code).length ≤ code.length := by
  refine (length_filterMap_le _ _).trans ?_
  rw [length_zipIdx]

theorem thinFrom_sublist (only : ∀ i inst inst', keep i inst = some inst' → inst' = inst)
    (start : Nat) (code : List Inst) : (thinFrom keep start code).Sublist code := by
  induction code generalizing start with
  | nil => exact List.Sublist.refl _
  | cons inst rest ih =>
    rw [thinFrom_cons]
    cases kept : keep start inst with
    | none => exact (ih (start + 1)).cons inst
    | some inst' =>
      rw [only start inst inst' kept]
      exact (ih (start + 1)).cons_cons inst

theorem thinFrom_eq_self_iff (start : Nat) : thinFrom keep start code = code ↔
    ∀ i inst, code[i]? = some inst → keep (start + i) inst = some inst := by
  induction code generalizing start with
  | nil => simp [thinFrom]
  | cons inst rest ih =>
    rw [thinFrom_cons]
    constructor
    · intro same
      cases kept : keep start inst with
      | none =>
        have shorter : (thinFrom keep (start + 1) rest).length ≤ rest.length :=
          length_thinFrom_le _ _
        rw [kept, Option.toList_none, nil_append] at same
        rw [same, length_cons] at shorter
        omega
      | some inst' =>
        rw [kept, Option.toList_some, singleton_append, List.cons.injEq] at same
        obtain ⟨rfl, tail⟩ := same
        intro i other here
        cases i with
        | zero =>
          cases here
          exact kept
        | succ i =>
          rw [← (ih (start + 1)).mp tail i other (by simpa using here)]
          congr 1
          omega
    · intro each
      have later : thinFrom keep (start + 1) rest = rest := by
        refine (ih (start + 1)).mpr fun i other here => ?_
        rw [← each (i + 1) other (by simpa using here)]
        congr 1
        omega
      have kept : keep start inst = some inst := each 0 inst rfl
      rw [kept, later]
      rfl

theorem thin_eq_self_iff :
    thin keep code = code ↔ ∀ i inst, code[i]? = some inst → keep i inst = some inst := by
  rw [thin, thinFrom_eq_self_iff]
  simp

@[simp] theorem spot_zero : spot keep code 0 = 0 := rfl

theorem spot_succ (here : code[i]? = some inst) :
    spot keep code (i + 1) = spot keep code i + (keep i inst).toList.length := by
  have bound : i < code.length := (List.getElem?_eq_some_iff.mp here).1
  rw [spot, take_add_one, here, thin, thinFrom_append, length_append, length_take,
    Nat.min_eq_left bound.le, Option.toList_some, thinFrom_cons, Nat.zero_add]
  simp [thinFrom, spot]

theorem spot_of_end (le : code.length ≤ i) : spot keep code i = (thin keep code).length := by
  rw [spot, take_of_length_le le]

theorem spot_kept (here : code[i]? = some inst) (kept : keep i inst = some inst') :
    spot keep code (i + 1) = spot keep code i + 1 := by
  simp [spot_succ here, kept]

theorem spot_dropped (here : code[i]? = some inst) (dropped : keep i inst = none) :
    spot keep code (i + 1) = spot keep code i := by
  simp [spot_succ here, dropped]

theorem spot_mono {j : Nat} (le : i ≤ j) : spot keep code i ≤ spot keep code j := by
  induction le with
  | refl => exact Nat.le_refl _
  | @step m _ ih =>
    refine ih.trans ?_
    cases here : code[m]? with
    | none =>
      have past : code.length ≤ m := List.getElem?_eq_none_iff.mp here
      rw [spot_of_end past, spot_of_end (past.trans (Nat.le_succ m))]
    | some inst =>
      rw [Nat.succ_eq_add_one, spot_succ here]
      exact Nat.le_add_right _ _

theorem spot_le_length (i : Nat) : spot keep code i ≤ (thin keep code).length := by
  rw [← spot_of_end (Nat.le_max_right i code.length)]
  exact spot_mono (Nat.le_max_left i code.length)

theorem getElem?_thin_spot (here : code[i]? = some inst) (kept : keep i inst = some inst') :
    (thin keep code)[spot keep code i]? = some inst' := by
  obtain ⟨bound, rfl⟩ := List.getElem?_eq_some_iff.mp here
  have whole : thin keep code =
      thin keep (code.take i) ++ thinFrom keep i (code[i] :: code.drop (i + 1)) := by
    conv_lhs => rw [← take_append_drop i code, thin, thinFrom_append]
    rw [drop_eq_getElem_cons bound, length_take, Nat.min_eq_left bound.le, Nat.zero_add]
  rw [whole, spot, List.getElem?_append_right (Nat.le_refl _), Nat.sub_self, thinFrom_cons, kept]
  rfl

/-- Every instruction of the thinned code between two spots comes from an
instruction that is kept between the two positions. -/
theorem exists_of_spot_le {j k : Nat} (lower : spot keep code i ≤ k) (upper : k < spot keep code j) :
    ∃ p inst inst', i ≤ p ∧ p < j ∧ code[p]? = some inst ∧ keep p inst = some inst' ∧
      spot keep code p = k := by
  induction j with
  | zero => exact absurd upper (Nat.not_lt_zero k)
  | succ j ih =>
    by_cases before : k < spot keep code j
    · obtain ⟨p, inst, inst', h⟩ := ih before
      exact ⟨p, inst, inst', h.1, h.2.1.trans (Nat.lt_succ_self j), h.2.2⟩
    · have ordered : i ≤ j := by
        by_contra later
        have order : spot keep code (j + 1) ≤ spot keep code i := spot_mono (Nat.not_le.mp later)
        omega
      cases here : code[j]? with
      | none =>
        have past : code.length ≤ j := List.getElem?_eq_none_iff.mp here
        rw [spot_of_end past] at before
        rw [spot_of_end (past.trans (Nat.le_succ j))] at upper
        exact absurd upper before
      | some inst =>
        cases kept : keep j inst with
        | none =>
          rw [spot_dropped here kept] at upper
          exact absurd upper before
        | some inst' =>
          rw [spot_kept here kept] at upper
          exact ⟨j, inst, inst', ordered, Nat.lt_succ_self j, here, kept, by omega⟩

end

/-! ## Labels in thinned code -/

section

variable {code : List Inst} {name : String}

theorem getElem?_labelAt (member : .label name ∈ code) :
    code[labelAt code name]? = some (.label name) := List.getElem?_idxOf member

theorem labelAt_le (here : code[i]? = some (.label name)) : labelAt code name ≤ i := by
  have member : Inst.label name ∈ code.take (i + 1) := by
    rw [take_add_one, here]
    simp
  exact Nat.lt_succ_iff.mp ((mem_take_iff_idxOf_lt (mem_of_mem_take member)).mp member)

theorem labelAt_eq (here : code[i]? = some (.label name))
    (first : ∀ j < i, code[j]? ≠ some (.label name)) : labelAt code name = i := by
  refine le_antisymm (labelAt_le here) (Nat.not_lt.mp fun before => ?_)
  exact first _ before (getElem?_labelAt (mem_of_getElem? here))

variable {keep : Nat → Inst → Option Inst}

/-- A label that is kept is found at its spot, if no other instruction turns into
that label. -/
theorem labelAt_thin (member : .label name ∈ code)
    (kept : keep (labelAt code name) (.label name) = some (.label name))
    (labels : ∀ i inst n, keep i inst = some (.label n) → inst = .label n) :
    labelAt (thin keep code) name = spot keep code (labelAt code name) := by
  have here := getElem?_labelAt member
  refine labelAt_eq (getElem?_thin_spot here kept) fun k before found => ?_
  have lower : spot keep code 0 ≤ k := Nat.zero_le k
  obtain ⟨p, inst, inst', -, earlier, at_p, kept_p, rfl⟩ := exists_of_spot_le lower before
  rw [getElem?_thin_spot at_p kept_p] at found
  cases found
  obtain rfl := labels p inst name kept_p
  exact absurd earlier (Nat.not_lt.mpr (labelAt_le at_p))

end

/-! ## Runs -/

/-- A thinning of code that cannot be observed. `related i` relates registers of
the old code to registers of the new code where the old code is at position `i`. -/
structure Thinning (w : World) (obj : Value) (keep : Nat → Inst → Option Inst)
    (code : List Inst) (related : Nat → Named → Named → Prop) : Prop where
  /-- No instruction turns into a label that it was not. -/
  labels : ∀ i inst n, keep i inst = some (.label n) → inst = .label n
  /-- A replacement does what the instruction did. -/
  same : ∀ {i : Nat} {inst inst' : Inst} {regs regs' : Named} (heap : w.Heap),
    code[i]? = some inst → keep i inst = some inst' → related i regs regs' →
      inst'.effect w obj regs' heap = inst.effect w obj regs heap
  /-- Registers are related after a write. -/
  next : ∀ {i : Nat} {inst inst' : Inst} {regs regs' : Named} {heap heap' : w.Heap}
    {acts : List Action} {write : Option (String × Value)},
    code[i]? = some inst → keep i inst = some inst' → related i regs regs' →
      inst.effect w obj regs heap = .next acts write heap' →
      related (i + 1) (named.write regs write) (named.write regs' write)
  /-- Registers are related after a jump, and its label is kept. -/
  jump : ∀ {i : Nat} {inst inst' : Inst} {regs regs' : Named} {heap : w.Heap} {t : String},
    code[i]? = some inst → keep i inst = some inst' → related i regs regs' →
      inst.effect w obj regs heap = .jump t →
      .label t ∈ code ∧ keep (labelAt code t) (.label t) = some (.label t) ∧
        related (labelAt code t) regs regs'
  /-- What is dropped leads forward past labels, and nothing is seen of it. -/
  dropped : ∀ {i : Nat} {inst : Inst} {regs regs' : Named} (heap : w.Heap),
    code[i]? = some inst → keep i inst = none → related i regs regs' →
      ∃ j regs₁, step w obj named code ⟨i, regs, heap⟩ = .go [] ⟨j, regs₁, heap⟩ ∧ i < j ∧
        related j regs₁ regs' ∧
        ∀ k between kept, i < k → k < j → code[k]? = some between →
          keep k between = some kept → ∃ n, kept = .label n

namespace Thinning

variable {w : World} {obj : Value} {keep : Nat → Inst → Option Inst} {code : List Inst}
  {related : Nat → Named → Named → Prop}

/-- The new code is where the old code is, up to labels that it still has to pass. -/
structure Follows (keep : Nat → Inst → Option Inst) (code : List Inst)
    (related : Nat → Named → Named → Prop) (c c' : Config w Named) : Prop where
  heap : c'.heap = c.heap
  regs : related c.pc c.regs c'.regs
  behind : c'.pc ≤ spot keep code c.pc
  labels : ∀ k, c'.pc ≤ k → k < spot keep code c.pc → ∃ n, (thin keep code)[k]? = some (.label n)

theorem Follows.of_spot {regs regs' : Named} {heap : w.Heap} (rel : related i regs regs') :
    Follows keep code related ⟨i, regs, heap⟩ ⟨spot keep code i, regs', heap⟩ :=
  ⟨rfl, rel, Nat.le_refl _, fun _ le lt => absurd lt (Nat.not_lt.mpr le)⟩

/-- The rank that falls when one of the two codes idles: both move forward. -/
def rank (keep : Nat → Inst → Option Inst) (code : List Inst) (c c' : Config w Named) : Nat :=
  (code.length - c.pc) * ((thin keep code).length + 1) + ((thin keep code).length - c'.pc)

theorem rank_left {c₁ c₂ c' : Config w Named} (inside : c₁.pc < code.length)
    (forward : c₁.pc < c₂.pc) : rank keep code c₂ c' < rank keep code c₁ c' := by
  have lower : code.length - c₂.pc < code.length - c₁.pc := by omega
  exact Nat.add_lt_add_right (Nat.mul_lt_mul_of_pos_right lower (Nat.succ_pos _)) _

theorem rank_right {c c₁ c₂ : Config w Named} (inside : c₁.pc < (thin keep code).length)
    (forward : c₁.pc < c₂.pc) : rank keep code c c₂ < rank keep code c c₁ :=
  Nat.add_lt_add_left (by omega) _

theorem Follows.pass {c c' : Config w Named} (follows : Follows keep code related c c')
    (behind : c'.pc < spot keep code c.pc) :
    Diagram (step w obj named code) (step w obj named (thin keep code)) Halt.seen Halt.seen
      (Follows keep code related) (rank keep code) c c' := by
  obtain ⟨n, here⟩ := follows.labels _ (Nat.le_refl _) behind
  have taken : step w obj named (thin keep code) c' = .go [] ⟨c'.pc + 1, c'.regs, c'.heap⟩ := by
    rw [step_of_get here]
    rfl
  refine .right taken ?_ ?_
  · exact ⟨follows.heap, follows.regs, behind,
      fun k le lt => follows.labels k (Nat.le_of_succ_le le) lt⟩
  · exact rank_right (behind.trans_le (spot_le_length _)) (Nat.lt_succ_self _)

theorem Follows.skip (thinning : Thinning w obj keep code related) {c c' : Config w Named}
    (follows : Follows keep code related c c') (level : c'.pc = spot keep code c.pc)
    (here : code[c.pc]? = some inst) (gone : keep c.pc inst = none) :
    Diagram (step w obj named code) (step w obj named (thin keep code)) Halt.seen Halt.seen
      (Follows keep code related) (rank keep code) c c' := by
  obtain ⟨j, regs₁, taken, forward, rel, between⟩ := thinning.dropped c.heap here gone follows.regs
  have inside : c.pc < code.length := (List.getElem?_eq_some_iff.mp here).1
  refine .left taken ⟨follows.heap, rel, ?_, fun k le lt => ?_⟩ (rank_left inside forward)
  · rw [level]
    exact spot_mono forward.le
  · rw [level] at le
    obtain ⟨p, at_p, kept, first, last, there, keeps, rfl⟩ := exists_of_spot_le le lt
    have other : c.pc ≠ p := by
      rintro rfl
      rw [here] at there
      cases there
      rw [gone] at keeps
      cases keeps
    obtain ⟨n, rfl⟩ := between p at_p kept (lt_of_le_of_ne first other) last there keeps
    exact ⟨n, getElem?_thin_spot there keeps⟩

theorem Follows.act (thinning : Thinning w obj keep code related) {c c' : Config w Named}
    (follows : Follows keep code related c c') (level : c'.pc = spot keep code c.pc)
    (here : code[c.pc]? = some inst) (kept : keep c.pc inst = some inst') :
    Diagram (step w obj named code) (step w obj named (thin keep code)) Halt.seen Halt.seen
      (Follows keep code related) (rank keep code) c c' := by
  have there : (thin keep code)[c'.pc]? = some inst' := by
    rw [level]
    exact getElem?_thin_spot here kept
  have old : step w obj named code c =
      (inst.effect w obj (named.get c.regs) c.heap).move named code c := step_of_get here
  have new : step w obj named (thin keep code) c' =
      (inst'.effect w obj (named.get c'.regs) c'.heap).move named (thin keep code) c' :=
    step_of_get there
  have alike : inst'.effect w obj (named.get c'.regs) c'.heap =
      inst.effect w obj (named.get c.regs) c.heap := by
    rw [follows.heap]
    exact thinning.same c.heap here kept follows.regs
  rw [alike] at new
  cases effect : inst.effect w obj (named.get c.regs) c.heap with
  | next acts write heap =>
    rw [effect] at old new
    refine .both old new ?_
    rw [level, ← spot_kept here kept]
    exact .of_spot (thinning.next here kept follows.regs effect)
  | jump t =>
    rw [effect] at old new
    obtain ⟨member, stays, rel⟩ := thinning.jump here kept follows.regs effect
    refine .both old new ?_
    rw [labelAt_thin member stays thinning.labels, follows.heap]
    exact .of_spot rel
  | ret v =>
    rw [effect] at old new
    exact .last old new (by simp [Halt.seen, follows.heap])
  | fail acts e heap =>
    rw [effect] at old new
    exact .last old new rfl
  | stuck =>
    rw [effect] at old new
    exact .last old new (by simp [Halt.seen, follows.heap])

theorem diagram (thinning : Thinning w obj keep code related) (c c' : Config w Named)
    (follows : Follows keep code related c c') :
    Diagram (step w obj named code) (step w obj named (thin keep code)) Halt.seen Halt.seen
      (Follows keep code related) (rank keep code) c c' := by
  rcases Nat.lt_or_eq_of_le follows.behind with behind | level
  · exact follows.pass behind
  · cases here : code[c.pc]? with
    | none =>
      have past : code.length ≤ c.pc := List.getElem?_eq_none_iff.mp here
      have there : (thin keep code)[c'.pc]? = none := by
        rw [level, spot_of_end past]
        exact List.getElem?_eq_none (Nat.le_refl _)
      refine .last (step_of_end here) (step_of_end there) ?_
      simp [Halt.seen, follows.heap]
    | some inst =>
      cases kept : keep c.pc inst with
      | none => exact follows.skip thinning level here kept
      | some inst' => exact follows.act thinning level here kept

/-- **Runs of thinned code.** A thinning that cannot be observed leaves the
behaviour of code as it was. -/
theorem sameBehaviour (thinning : Thinning w obj keep code related) {regs regs' : Named}
    (start : related 0 regs regs') (heap : w.Heap) :
    (codeBehaviour w obj code regs heap).Same (codeBehaviour w obj (thin keep code) regs' heap) :=
  same_of_diagrams thinning.diagram (Follows.of_spot start)

end Thinning

end JavaMinus.Code
