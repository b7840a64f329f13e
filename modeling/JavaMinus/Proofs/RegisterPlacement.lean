import JavaMinus.Proofs.SlotLayout

/-!
# Running code over slots

Code can be run over the slots of a placement: every register is then read and
written in the slot that it is placed in (`slotted`). Registers that share a slot
overwrite each other there, so the slots do not hold what all registers hold, but
they do hold what registers that are live hold (`Agree`). A write keeps this up: a
register that is live after it and in the same slot is the register itself, or the
source of a copy, which has the value that is written (`agree_after_write`).

**Main result** (`place_preserves_execution`): the layout of slots is as it should
be, and code run over slots goes in step with the same code run over named
registers, reads the same operands, does the same actions and ends in the same way.
-/

namespace JavaMinus.Registers

open Code

/-! ## Slots as a register file -/

/-- The register file that keeps each register in its slot. -/
def slotted (slots : Slots) : RegisterFile (Array Value) where
  get cells n := match slots.get? n with
    | some k => cells.getD k.toNat (.num 0)
    | none => .num 0
  set cells n v := match slots.get? n with
    | some k => cells.setIfInBounds k.toNat v
    | none => cells

section Slotted

variable {slots : Slots} {cells : Array Value} {n d : String} {v : Value}

theorem slotted_set_same {k : Int} (slot : slots.get? d = some k) (inside : k.toNat < cells.size)
    (same : slots.get? n = some k) :
    (slotted slots).get ((slotted slots).set cells d v) n = v := by
  simp [slotted, slot, same, Array.getD_eq_getD_getElem?, inside]

theorem slotted_set_other {k : Int} (slot : slots.get? d = some k) (start : 0 ≤ k)
    (other : slots.get? n ≠ some k) (starts : ∀ k', slots.get? n = some k' → 0 ≤ k') :
    (slotted slots).get ((slotted slots).set cells d v) n = (slotted slots).get cells n := by
  simp only [slotted, slot]
  cases there : slots.get? n with
  | none => rfl
  | some k' =>
    have differ : k.toNat ≠ k'.toNat := by
      have := starts k' there
      intro same
      exact other (by rw [there, Option.some.injEq]; omega)
    simp only [Array.getD_eq_getD_getElem?, Array.getElem?_setIfInBounds_ne differ]

theorem size_slotted_set : ((slotted slots).set cells d v).size = cells.size := by
  simp only [slotted]
  split <;> simp

end Slotted

/-! ## Agreement on what is live -/

/-- The slots hold what the registers that are live at a position hold. -/
structure Agree (m : Method) (p : Placement) (i : Nat) (regs : Named) (cells : Array Value) :
    Prop where
  size : cells.size = p.locals.toNat
  live : ∀ n, LiveAt m.code i n → (slotted p.slots).get cells n = regs n

section Agreement

variable {m : Method} {limit : Int} {p : Placement} {w : World} {obj : Value} {heap : w.Heap}
  {regs : Named} {cells : Array Value} {i : Nat} {inst : Inst}

theorem Agree.operandValue (agree : Agree m p i regs cells) (here : m.code[i]? = some inst)
    {o : Option Operand} (member : o ∈ inst.operands) :
    operandValue ((slotted p.slots).get cells) o = operandValue regs o :=
  operandValue_congr fun r found =>
    agree.live r.name (.use here (List.mem_filterMap.mpr ⟨o, member, found⟩))

theorem eq_of_copySource {acts : List Action} {n : String} {v : Value} {heap' : w.Heap}
    (goes : inst.effect w obj regs heap = .next acts (some (n, v)) heap')
    (copies : copySource inst ≠ "") : v = regs (copySource inst) := by
  unfold copySource at copies ⊢
  split at copies
  case h_1 d r =>
    cases goes
    rfl
  case h_2 => exact absurd rfl copies

theorem liveAt_of_successor (ok : Placeable m) (here : m.code[i]? = some inst) {k : Nat}
    (follows : k ∈ allSuccessors m.code i inst) {n : String} (live : LiveAt m.code k n)
    (unwritten : ∀ d ∈ inst.dst?, d.name ≠ n) : LiveAt m.code i n :=
  .pass here unwritten ((mem_allSuccessors_iff ok.wellFormed here).mp follows).1 live

theorem agree_after_write (ok : Placeable m) (placed : place m limit = .ok p)
    (nonempty : "" ∉ occurring m.code) (here : m.code[i]? = some inst)
    (agree : Agree m p i regs cells) {acts : List Action} {write : Option (String × Value)}
    {heap' : w.Heap} (goes : inst.effect w obj regs heap = .next acts write heap') :
    Agree m p (i + 1) (named.write regs write) ((slotted p.slots).write cells write) := by
  have layout := layout_of_place ok placed
  have follows : ∀ {n}, LiveAt m.code (i + 1) n → i + 1 ∈ allSuccessors m.code i inst :=
    fun live => mem_successors_of_next agrees_unknown goes live.lt
  have target := Inst.effect_write goes
  cases dst : inst.dst? with
  | none =>
    rw [dst, Option.map_none, Option.map_eq_none_iff] at target
    subst target
    exact ⟨agree.size, fun n live =>
      agree.live n (liveAt_of_successor ok here (follows live) live (by simp [dst]))⟩
  | some d =>
    rw [dst, Option.map_some] at target
    obtain ⟨⟨_, v⟩, rfl, rfl⟩ := Option.map_eq_some_iff.mp target
    obtain ⟨k, slot⟩ := layout.placed d.name (mem_occurring_of_dst here dst)
    obtain ⟨start, below⟩ := layout.inside d.name k slot
    have inside : k.toNat < cells.size := by
      rw [agree.size]
      omega
    refine ⟨size_slotted_set.trans agree.size, fun n live => ?_⟩
    simp only [RegisterFile.write, named]
    by_cases same : n = d.name
    · subst same
      rw [slotted_set_same slot inside slot, Function.update_self]
    · have before : LiveAt m.code i n :=
        liveAt_of_successor ok here (follows live) live (by simpa [dst] using Ne.symm same)
      rw [Function.update_of_ne same, ← agree.live n before]
      by_cases shares : p.slots.get? n = some k
      · -- Only the source of a copy may be in the slot that is written.
        have copied : n = copySource inst := by
          by_contra uncopied
          have after : LiveOut m.vars m.code i n :=
            (liveOut_iff here n).mpr ⟨_, follows live, liveIn_of_liveAt ok.wellFormed live⟩
          exact slot_ne_of_write ok placed here dst live.occurs after uncopied same slot shares
        have source : copySource inst ≠ "" := by
          rw [← copied]
          rintro rfl
          exact nonempty live.occurs
        rw [slotted_set_same slot inside shares, agree.live n before, eq_of_copySource goes source,
          copied]
      · exact slotted_set_other slot start shares fun k' there => (layout.inside n k' there).1

theorem agree_after_jump (ok : Placeable m) (here : m.code[i]? = some inst)
    (agree : Agree m p i regs cells) {t : String}
    (jumps : inst.effect w obj regs heap = .jump t) :
    Agree m p (labelAt m.code t) regs cells := by
  refine ⟨agree.size, fun n live => agree.live n ?_⟩
  have target := Inst.target?_of_jump jumps
  have position := labelPos_eq ok.labels (ok.wellFormed.label_mem here target)
  have follows : labelAt m.code t ∈ allSuccessors m.code i inst :=
    position ▸ mem_successors_of_jump agrees_unknown jumps
  refine liveAt_of_successor ok here follows live ?_
  cases inst with
  | goto | branch => simp [Inst.dst?]
  | _ => cases target

end Agreement

/-! ## Lockstep -/

/-- Two points of runs at the same position, with the same heap, that read the same
operands there. -/
structure InStep {w : World} (m : Method) (p : Placement) (c : Config w Named)
    (c' : Config w (Array Value)) : Prop where
  pc : c'.pc = c.pc
  heap : c'.heap = c.heap
  operands : ∀ inst, m.code[c.pc]? = some inst →
    inst.operands.map (operandValue ((slotted p.slots).get c'.regs)) =
      inst.operands.map (operandValue c.regs)

/-- Two ends that look the same from outside. -/
def SameEnd {w : World} {σ τ : Type} (h : Halt w σ) (h' : Halt w τ) : Prop := h'.seen = h.seen

theorem elim_eq_of_liftRel {w : World} {m : Method} {p : Placement}
    {x : Config w Named ⊕ Halt w Named} {y : Config w (Array Value) ⊕ Halt w (Array Value)}
    (related : Sum.LiftRel (InStep m p) SameEnd x y) :
    y.elim (fun _ => none) (fun h => some h.ending) =
      x.elim (fun _ => none) (fun h => some h.ending) := by
  cases related with
  | inl => rfl
  | inr same => exact congrArg (fun s => some s.1) same

/-- The register is in a slot from the start: it is the object, a parameter, or live
at entry. -/
def HeldAtEntry (m : Method) (n : String) : Prop :=
  (∃ v ∈ m.vars, v.name = n ∧ (v.kind = .this ∨ v.kind = .param)) ∨ LiveAt m.code 0 n

/-- The slots hold what these registers hold. -/
structure AgreeAtEntry (m : Method) (p : Placement) (regs : Named) (cells : Array Value) :
    Prop where
  size : cells.size = p.locals.toNat
  held : ∀ n, HeldAtEntry m n → (slotted p.slots).get cells n = regs n

/-- Code run over slots goes in step with code run over named registers. -/
def RunsInStep (m : Method) (p : Placement) : Prop :=
  ∀ (w : World) (obj : Value) (regs : Named) (cells : Array Value) (heap : w.Heap),
    AgreeAtEntry m p regs cells → ∀ n,
      (walk (step w obj (slotted p.slots) m.code) n ⟨0, cells, heap⟩).1 =
        (walk (step w obj named m.code) n ⟨0, regs, heap⟩).1 ∧
      Sum.LiftRel (InStep m p) SameEnd (walk (step w obj named m.code) n ⟨0, regs, heap⟩).2
        (walk (step w obj (slotted p.slots) m.code) n ⟨0, cells, heap⟩).2

section Lockstep

variable {m : Method} {limit : Int} {p : Placement}

/-- The relation between the two runs. -/
structure Tracks {w : World} (m : Method) (p : Placement) (c : Config w Named)
    (c' : Config w (Array Value)) : Prop where
  pc : c'.pc = c.pc
  heap : c'.heap = c.heap
  agree : Agree m p c.pc c.regs c'.regs

theorem Tracks.inStep {w : World} {c : Config w Named} {c' : Config w (Array Value)}
    (tracks : Tracks m p c c') : InStep m p c c' :=
  ⟨tracks.pc, tracks.heap, fun _ here =>
    List.map_congr_left fun _ member => tracks.agree.operandValue here member⟩

theorem Tracks.step (ok : Placeable m) (placed : place m limit = .ok p)
    (nonempty : "" ∉ occurring m.code) (w : World) (obj : Value) (c : Config w Named)
    (c' : Config w (Array Value)) (tracks : Tracks m p c c') :
    (∃ acts s s', Code.step w obj named m.code c = .go acts s ∧
      Code.step w obj (slotted p.slots) m.code c' = .go acts s' ∧ Tracks m p s s') ∨
    (∃ acts h h', Code.step w obj named m.code c = .stop acts h ∧
      Code.step w obj (slotted p.slots) m.code c' = .stop acts h' ∧ SameEnd h h') := by
  cases here : m.code[c.pc]? with
  | none =>
    refine .inr ⟨_, _, _, step_of_end here, step_of_end (tracks.pc ▸ here), ?_⟩
    simp [SameEnd, Halt.seen, tracks.heap]
  | some inst =>
    have there : m.code[c'.pc]? = some inst := tracks.pc ▸ here
    have alike : inst.effect w obj ((slotted p.slots).get c'.regs) c'.heap =
        inst.effect w obj (named.get c.regs) c.heap := by
      rw [tracks.heap]
      exact Inst.effect_congr fun o member => tracks.agree.operandValue here member
    rw [step_of_get here, step_of_get there, alike]
    cases effect : inst.effect w obj (named.get c.regs) c.heap with
    | next acts write heap =>
      refine .inl ⟨_, _, _, rfl, rfl, ⟨congrArg (· + 1) tracks.pc, rfl, ?_⟩⟩
      exact agree_after_write ok placed nonempty here tracks.agree effect
    | jump t =>
      refine .inl ⟨_, _, _, rfl, rfl, ⟨rfl, tracks.heap, ?_⟩⟩
      exact agree_after_jump ok here tracks.agree effect
    | ret v => exact .inr ⟨_, _, _, rfl, rfl, by simp [SameEnd, Halt.seen, tracks.heap]⟩
    | fail acts e heap => exact .inr ⟨_, _, _, rfl, rfl, rfl⟩
    | stuck => exact .inr ⟨_, _, _, rfl, rfl, by simp [SameEnd, Halt.seen, tracks.heap]⟩

theorem runsInStep_of_place (ok : Placeable m) (placed : place m limit = .ok p)
    (nonempty : "" ∉ occurring m.code) : RunsInStep m p := by
  intro w obj regs cells heap start n
  have tracks : Tracks m p (⟨0, regs, heap⟩ : Config w Named) ⟨0, cells, heap⟩ :=
    ⟨rfl, rfl, start.size, fun n live => start.held n (.inr live)⟩
  obtain ⟨same, related⟩ := walk_lockstep (Tracks.step ok placed nonempty w obj) n tracks
  exact ⟨same, related.mono (fun _ _ => Tracks.inStep) fun _ _ h => h⟩

/-- Registers that are held at entry have slots, and different ones have different
slots. -/
theorem exists_slot_at_entry (ok : Placeable m) (placed : place m limit = .ok p) {n : String}
    (held : HeldAtEntry m n) :
    ∃ k : Nat, k < p.locals.toNat ∧ p.slots.get? n = some (k : Int) ∧
      ∀ n', HeldAtEntry m n' → p.slots.get? n' = some (k : Int) → n' = n := by
  have layout := layout_of_place ok placed
  have slot : ∃ k, p.slots.get? n = some k := by
    rcases held with ⟨v, member, rfl, this | param⟩ | live
    · exact ⟨0, layout.this v member this⟩
    · obtain ⟨j, here⟩ := List.mem_iff_getElem?.mp (ok.mem_params.mpr ⟨member, param⟩)
      exact ⟨_, layout.params j v here⟩
    · exact layout.placed n live.occurs
  obtain ⟨k, found⟩ := slot
  obtain ⟨start, below⟩ := layout.inside n k found
  obtain ⟨k, rfl⟩ := Int.eq_ofNat_of_zero_le start
  refine ⟨k, by omega, found, fun n' held' found' => ?_⟩
  rcases held with ⟨v, member, rfl, kind⟩ | live
  · exact layout.alone v member kind n' k found found'
  · rcases held' with ⟨v, member, rfl, kind⟩ | live'
    · exact (layout.alone v member kind n k found' found).symm
    · by_contra ne
      exact slot_ne_at_entry ok placed live.occurs live'.occurs (liveIn_of_liveAt ok.wellFormed live)
        (liveIn_of_liveAt ok.wellFormed live') (Ne.symm ne) found found'

open Classical in
theorem exists_agreeAtEntry (ok : Placeable m) (placed : place m limit = .ok p) (regs : Named) :
    ∃ cells, AgreeAtEntry m p regs cells := by
  let value (k : Fin p.locals.toNat) : Value :=
    if h : ∃ n, HeldAtEntry m n ∧ p.slots.get? n = some ((k : Nat) : Int) then regs h.choose
    else .num 0
  refine ⟨Array.ofFn value, Array.size_ofFn, fun n held => ?_⟩
  obtain ⟨k, inside, slot, alone⟩ := exists_slot_at_entry ok placed held
  have filled : ∃ n, HeldAtEntry m n ∧ p.slots.get? n = some (k : Int) := ⟨n, held, slot⟩
  have chosen : filled.choose = n := alone _ filled.choose_spec.1 filled.choose_spec.2
  have cell : value ⟨k, inside⟩ = regs n := by
    simp only [value]
    rw [dif_pos filled, chosen]
  simp [slotted, slot, Array.getD_eq_getD_getElem?, inside, cell]

end Lockstep

/-! ## A register without name -/

/-- A world without objects. -/
def bareWorld : World where
  Heap := Unit
  Failure := Unit
  divisionByZero := ()
  numberOf := fun _ => 0
  compute := fun _ _ => .num 0
  field := fun _ _ _ => .num 0
  perform := fun _ _ => (.ok (.num 0), ())

/-- The sum of two registers, one of which has no name. -/
def unnamedSum : Method where
  name := "sum"
  ret := .int
  vars := [⟨"", .int, .declared⟩, ⟨"t", .int, .temp⟩]
  code := [ .assign ⟨"", .int⟩ (some (.int 1)), .assign ⟨"t", .int⟩ (some (.int 2)),
    .binary ⟨"t", .int⟩ .add (some (.reg ⟨"", .int⟩)) (some (.reg ⟨"t", .int⟩)),
    .ret (some (.reg ⟨"t", .int⟩))]

/-- The placement of that method: both registers are in slot 0. -/
def unnamedPlacement : Placement where
  slots := [("", 0), ("t", 0)]
  locals := 1
  colors := 1

/-- A loop that takes a remainder by subtracting. The registers `x` and `y` are live
at the same time and share a slot, since one is a copy of the other. -/
def remainder : Method where
  name := "remainder"
  params := [⟨"a", .int, .param⟩]
  ret := .int
  vars := [⟨"this", .object "A", .this⟩, ⟨"a", .int, .param⟩, ⟨"x", .int, .declared⟩,
    ⟨"y", .int, .declared⟩, ⟨"rest", .int, .declared⟩, ⟨"more", .boolean, .temp⟩]
  code := [ .binary ⟨"x", .int⟩ .mul (some (.reg ⟨"a", .int⟩)) (some (.reg ⟨"a", .int⟩)),
    .assign ⟨"y", .int⟩ (some (.reg ⟨"x", .int⟩)),
    .binary ⟨"rest", .int⟩ .add (some (.reg ⟨"x", .int⟩)) (some (.reg ⟨"y", .int⟩)),
    .label "loop",
    .binary ⟨"rest", .int⟩ .sub (some (.reg ⟨"rest", .int⟩)) (some (.reg ⟨"a", .int⟩)),
    .binary ⟨"more", .boolean⟩ .less (some (.int 0)) (some (.reg ⟨"rest", .int⟩)),
    .branch (some (.reg ⟨"more", .boolean⟩)) "loop",
    .ret (some (.reg ⟨"rest", .int⟩))]

/-- The placement of that method. -/
def remainderPlacement : Placement where
  slots := [("this", 0), ("a", 1), ("x", 2), ("y", 2), ("rest", 2), ("more", 3)]
  locals := 4
  colors := 2

end JavaMinus.Registers
