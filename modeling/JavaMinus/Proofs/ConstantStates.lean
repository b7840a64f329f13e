import JavaMinus.Proofs.BoundedLoops
import JavaMinus.Proofs.ControlFlow

/-!
# What is known of registers is true

`knownStates` says what is known of each register at each place. Here a state is
read as a statement on the values of registers (`State.Sound`), and the states are
shown to be closed under the flow of control (`Handed`): if a state is true before
an instruction, then the state at every successor is true after it.

The visits keep the following invariant (`Visits.Valid`). A place that is not on
the list of places to visit has handed its state on to its successors: what holds
after it implies the state found there. Reaching a place only weakens states and
puts the place back on the list when its state changes (`Visits.Grows`). Each
change raises the height of the states, of which there is not more than the bound
on the visits, so the list is empty in the end (`lastVisits_ends`).
-/

namespace JavaMinus.Code

open List

/-! ## What states say -/

/-- What is known of a register is true of a value. -/
def Known.Holds : Known → Value → Prop
  | .unset, _ => False
  | .const c, v => v = .num c
  | .varying, _ => True

namespace Known

variable {k : Known}

theorem Holds.meet_left {v : Value} (holds : k.Holds v) (other : Known) :
    (k.meet other).Holds v := by
  cases k with
  | unset => exact holds.elim
  | varying => cases other <;> trivial
  | const a =>
    cases other with
    | unset => exact holds
    | varying => trivial
    | const b =>
      simp only [meet]
      split
      · exact holds
      · trivial

theorem Holds.meet_right {v : Value} (holds : k.Holds v) (other : Known) :
    (other.meet k).Holds v := by
  cases other with
  | unset => exact holds
  | varying => cases k <;> trivial
  | const a =>
    cases k with
    | unset => exact holds.elim
    | varying => trivial
    | const b =>
      simp only [meet]
      split
      case isTrue same => exact same ▸ holds
      case isFalse => trivial

/-- How often what is known of a register has been weakened. -/
def height : Known → Nat
  | .unset => 0
  | .const _ => 1
  | .varying => 2

theorem height_le (k : Known) : k.height ≤ 2 := by
  cases k <;> simp [height]

theorem height_meet {other : Known} (changed : k.meet other ≠ k) :
    k.height < (k.meet other).height := by
  cases k with
  | unset => cases other <;> simp_all [meet, height]
  | varying => cases other <;> simp_all [meet]
  | const a =>
    cases other with
    | unset => simp [meet] at changed
    | varying => simp [meet, height]
    | const b =>
      simp only [meet] at changed ⊢
      split
      case isTrue same => simp [same] at changed
      case isFalse => simp [height]

end Known

namespace State

variable {other : State}

/-- A state is true of the values of the registers that it is about. -/
def Sound (regs : List String) (st : State) (read : String → Value) : Prop :=
  ∀ n ∈ regs, (st.get regs n).Holds (read n)

/-- What one state says follows from what another one says. -/
def Implies (regs : List String) (st other : State) : Prop :=
  ∀ read, st.Sound regs read → other.Sound regs read

section Sound

variable {regs : List String} {st : State} {read : String → Value} {inst : Inst} {obj : Value}
  {w : World}

theorem Implies.refl (st : State) : Implies regs st st := fun _ sound => sound

theorem Implies.trans {st₁ st₂ st₃ : State} (first : Implies regs st₁ st₂)
    (second : Implies regs st₂ st₃) : Implies regs st₁ st₃ :=
  fun read sound => second read (first read sound)

theorem get_meet (sized : st.length = regs.length) (sized' : other.length = regs.length)
    {n : String} (member : n ∈ regs) :
    (st.meet other).get regs n = (st.get regs n).meet (other.get regs n) := by
  have inside : regs.idxOf n < regs.length := idxOf_lt_length_of_mem member
  simp [get, meet, getD_eq_getElem?_getD, sized, sized', inside]

theorem implies_meet_left (sized : st.length = regs.length) (sized' : other.length = regs.length) :
    Implies regs st (st.meet other) := by
  intro read sound n member
  rw [get_meet sized sized' member]
  exact (sound n member).meet_left _

theorem implies_meet_right (sized : st.length = regs.length) (sized' : other.length = regs.length) :
    Implies regs other (st.meet other) := by
  intro read sound n member
  rw [get_meet sized sized' member]
  exact (sound n member).meet_right _

theorem length_meet (sized : st.length = regs.length) (sized' : other.length = regs.length) :
    (st.meet other).length = regs.length := by
  simp [meet, sized, sized']

theorem length_after (inst : Inst) : (st.after regs inst).length = st.length := by
  unfold after
  split <;> simp

theorem Sound.value (sound : st.Sound regs read) {o : Option Operand}
    (declared : ∀ r ∈ o.bind Operand.reg?, r.name ∈ regs) :
    (st.value regs o).Holds (operandValue read o) := by
  cases o with
  | none => trivial
  | some o =>
    cases o with
    | reg r => exact sound r.name (declared r rfl)
    | imm v t => rfl

theorem Sound.eq_num (sound : st.Sound regs read) {o : Option Operand}
    (declared : ∀ r ∈ o.bind Operand.reg?, r.name ∈ regs) {v : Int32}
    (known : st.value regs o = .const v) : operandValue read o = .num v := by
  have holds := sound.value declared
  rw [known] at holds
  exact holds

theorem Sound.agrees (w : World) (sound : st.Sound regs read)
    (declared : ∀ r ∈ inst.uses, r.name ∈ regs) : Agrees w (st.decides regs) read inst := by
  intro c member b decided
  have declared' : ∀ r ∈ c.bind Operand.reg?, r.name ∈ regs := fun r found =>
    declared r (mem_filterMap.mpr ⟨c, member, found⟩)
  unfold decides at decided
  split at decided
  case h_1 v known =>
    rw [sound.eq_num declared' known]
    simpa [World.isTrue, World.number] using decided
  case h_2 => cases decided

theorem Sound.result {heap heap' : w.Heap} (sound : st.Sound regs read)
    (declared : ∀ r ∈ inst.uses, r.name ∈ regs) {acts : List Action} {n : String} {v : Value}
    (goes : inst.effect w obj read heap = .next acts (some (n, v)) heap') :
    (st.result regs inst).Holds v := by
  have declared' : ∀ o ∈ inst.operands, ∀ r ∈ o.bind Operand.reg?, r.name ∈ regs :=
    fun o member r found => declared r (mem_filterMap.mpr ⟨o, member, found⟩)
  cases inst with
  | assign d src =>
    cases goes
    exact sound.value (declared' src (by simp [Inst.operands]))
  | binary d op l r =>
    simp only [State.result]
    split
    case h_1 a b left right =>
      have first := sound.eq_num (declared' l (by simp [Inst.operands])) left
      have second := sound.eq_num (declared' r (by simp [Inst.operands])) right
      cases value : op.eval a b with
      | none => trivial
      | some c =>
        simp only [Inst.effect, first, second, World.binary, World.number,
          machineResult_eq_eval, value, Effect.next.injEq, Option.some.injEq,
          Prod.mk.injEq] at goes
        exact goes.2.1.2.symm
    case h_2 => trivial
  | unary d op x =>
    cases op with
    | not =>
      simp only [State.result]
      split
      case h_1 a known =>
        have operand := sound.eq_num (declared' x (by simp [Inst.operands])) known
        simp only [Inst.effect, operand, World.unary, World.number, if_true,
          Effect.next.injEq, Option.some.injEq, Prod.mk.injEq] at goes
        exact goes.2.1.2.symm
      case h_2 => trivial
    | _ => trivial
  | _ => trivial

theorem get_set (sized : st.length = regs.length) {n d : String} (member : n ∈ regs)
    (member' : d ∈ regs) (k : Known) :
    State.get regs (st.set (regs.idxOf d) k) n = if n = d then k else st.get regs n := by
  have inside : regs.idxOf d < st.length := sized ▸ idxOf_lt_length_of_mem member'
  by_cases same : n = d
  · subst same
    simp [get, inside]
  · have other : regs.idxOf d ≠ regs.idxOf n := fun h => same ((idxOf_inj member).mp h.symm)
    simp [get, same, other, getD_eq_getElem?_getD]

theorem Sound.after {heap heap' : w.Heap} (sound : st.Sound regs read)
    (sized : st.length = regs.length) (declared : ∀ r ∈ inst.uses, r.name ∈ regs)
    (written : ∀ d ∈ inst.dst?, d.name ∈ regs) {acts : List Action}
    {write : Option (String × Value)} (goes : inst.effect w obj read heap = .next acts write heap') :
    (st.after regs inst).Sound regs (named.write read write) := by
  have target := Inst.effect_write goes
  unfold State.after
  cases dst : inst.dst? with
  | none =>
    rw [dst, Option.map_none, Option.map_eq_none_iff] at target
    subst target
    exact sound
  | some d =>
    rw [dst, Option.map_some] at target
    obtain ⟨⟨n, v⟩, rfl, rfl⟩ := Option.map_eq_some_iff.mp target
    intro n member
    rw [get_set sized member (written d dst)]
    by_cases same : n = d.name
    · subst same
      simpa [RegisterFile.write, named] using sound.result declared goes
    · simpa [RegisterFile.write, named, same] using sound n member

theorem Sound.after_jump {heap : w.Heap} (sound : st.Sound regs read) {t : String}
    (jumps : inst.effect w obj read heap = .jump t) : (st.after regs inst).Sound regs read := by
  have target := Inst.target?_of_jump jumps
  cases inst with
  | goto | branch => exact sound
  | _ => cases target

end Sound

/-- How far a state is from the first one, where a place that is reached counts. -/
def height (st : State) : Nat := 1 + (st.map Known.height).sum

theorem height_le (st : State) : st.height ≤ 2 * st.length + 1 := by
  induction st with
  | nil => simp [height]
  | cons k rest ih =>
    have := k.height_le
    simp only [height, map_cons, sum_cons, length_cons] at ih ⊢
    omega

theorem height_meet {st : State} (sized : st.length = other.length) :
    st.meet other = st ∨ st.height < (st.meet other).height := by
  induction st generalizing other with
  | nil => exact .inl rfl
  | cons k rest ih =>
    cases other with
    | nil => simp at sized
    | cons k' rest' =>
      have tail := ih (Nat.succ.inj sized)
      simp only [meet, height, zipWith_cons_cons, map_cons, sum_cons,
        List.cons.injEq] at tail ⊢
      by_cases same : k.meet k' = k
      · rw [same]
        rcases tail with tail | tail
        · exact .inl ⟨rfl, tail⟩
        · exact .inr (by omega)
      · have := Known.height_meet same
        rcases tail with tail | tail
        · rw [tail]
          exact .inr (by omega)
        · exact .inr (by omega)

end State

/-! ## Visits -/

namespace Visits

variable {place : Nat}

/-- The state found at a place. -/
def at? (v : Visits) (i : Nat) : Option State := v.states.getD i none

/-- The heights of the states at the first `n` places. -/
def height (n : Nat) (v : Visits) : Nat :=
  ∑ i ∈ Finset.range n, (v.at? i).elim 0 State.height

/-- There is room for a state at each of `n` places, and states are about the
registers. -/
structure Sized (regs : List String) (n : Nat) (v : Visits) : Prop where
  size : v.states.size = n
  length : ∀ i st, v.at? i = some st → st.length = regs.length

/-- States get weaker, and a place whose state changes is to be visited. -/
structure Grows (regs : List String) (n : Nat) (v v' : Visits) : Prop where
  work : ∀ i ∈ v.work, i ∈ v'.work
  kept : ∀ i, i ∉ v'.work → v'.at? i = v.at? i
  weaker : ∀ i st, v.at? i = some st → ∃ st', v'.at? i = some st' ∧ st.Implies regs st'
  cost : v'.work.length + v.height n ≤ v.work.length + v'.height n

section Growth

variable {regs : List String} {n : Nat}

theorem Grows.refl (v : Visits) : Grows regs n v v :=
  ⟨fun _ h => h, fun _ _ => rfl, fun _ st h => ⟨st, h, .refl st⟩, Nat.le_refl _⟩

theorem Grows.trans {v₁ v₂ v₃ : Visits} (first : Grows regs n v₁ v₂)
    (second : Grows regs n v₂ v₃) : Grows regs n v₁ v₃ where
  work i h := second.work i (first.work i h)
  kept i h := (second.kept i h).trans (first.kept i fun h' => h (second.work i h'))
  weaker i st h := by
    obtain ⟨st', h', one⟩ := first.weaker i st h
    obtain ⟨st'', h'', two⟩ := second.weaker i st' h'
    exact ⟨st'', h'', one.trans two⟩
  cost := by
    have := first.cost
    have := second.cost
    omega

theorem at?_put {v : Visits} (inside : place < v.states.size) (st : State) (work : List Nat)
    (i : Nat) :
    at? { states := v.states.setIfInBounds place (some st), work } i =
      if i = place then some st else v.at? i := by
  by_cases same : i = place
  · subst same
    simp [at?, Array.getD_eq_getD_getElem?, inside]
  · simp [at?, Array.getD_eq_getD_getElem?, Array.getElem?_setIfInBounds_ne (Ne.symm same), same]

theorem grows_put {v : Visits} (sized : v.Sized regs n) (inside : place < n) {st : State}
    (length : st.length = regs.length)
    (weaker : ∀ old, v.at? place = some old → old.Implies regs st)
    (higher : (v.at? place).elim 0 State.height < st.height) : let v' : Visits :=
      { states := v.states.setIfInBounds place (some st)
        work := if place ∈ v.work then v.work else place :: v.work }
    v'.Sized regs n ∧ Grows regs n v v' := by
  intro v'
  have found : ∀ i, v'.at? i = if i = place then some st else v.at? i :=
    at?_put (sized.size ▸ inside) st _
  have listed : place ∈ v'.work := by
    simp only [v']
    split
    · assumption
    · exact mem_cons_self
  have taller : v.height n < v'.height n := by
    refine Finset.sum_lt_sum (fun i _ => ?_) ⟨place, Finset.mem_range.mpr inside, ?_⟩
    · rw [found]
      split
      case isTrue same =>
        subst same
        exact higher.le
      case isFalse => exact Nat.le_refl _
    · rw [found, if_pos rfl]
      exact higher
  refine ⟨⟨by simpa [v'] using sized.size, fun i st' h => ?_⟩, ⟨fun i h => ?_, fun i h => ?_,
    fun i old h => ?_, ?_⟩⟩
  · rw [found] at h
    split at h
    · cases h
      exact length
    · exact sized.length i st' h
  · simp only [v']
    split
    · exact h
    · exact mem_cons_of_mem _ h
  · rw [found, if_neg]
    rintro rfl
    exact h listed
  · rw [found]
    split
    case isTrue same => exact ⟨st, rfl, weaker old (same ▸ h)⟩
    case isFalse => exact ⟨old, h, .refl old⟩
  · have short : v'.work.length ≤ v.work.length + 1 := by
      simp only [v']
      split <;> simp
    omega

theorem grows_reach {v : Visits} (sized : v.Sized regs n) {st : State}
    (length : st.length = regs.length) (inside : place < n) :
    (v.reach st place).Sized regs n ∧ Grows regs n v (v.reach st place) ∧
      ∃ st', (v.reach st place).at? place = some st' ∧ st.Implies regs st' := by
  unfold reach
  cases old : v.at? place with
  | none =>
    have old' : v.states.getD place none = none := old
    simp only [old', reduceCtorEq, if_false]
    obtain ⟨sized', grows⟩ := grows_put sized inside length (by simp [old])
      (by simp [old, State.height])
    refine ⟨sized', grows, st, ?_, .refl st⟩
    rw [at?_put (sized.size ▸ inside), if_pos rfl]
  | some found =>
    have old' : v.states.getD place none = some found := old
    have lengths := sized.length place found old
    simp only [old', Option.some.injEq]
    split
    case isTrue same =>
      refine ⟨sized, .refl v, found, old, ?_⟩
      rw [same]
      exact State.implies_meet_right lengths length
    case isFalse changed =>
      have higher : found.height < (found.meet st).height :=
        (State.height_meet (lengths.trans length.symm)).resolve_left fun h => changed h.symm
      obtain ⟨sized', grows⟩ := grows_put sized inside (State.length_meet lengths length)
        (fun _ h => by
          cases old.symm.trans h
          exact State.implies_meet_left lengths length)
        (by simpa [old] using higher)
      refine ⟨sized', grows, found.meet st, ?_, State.implies_meet_right lengths length⟩
      rw [at?_put (sized.size ▸ inside), if_pos rfl]

theorem grows_reach_all {v : Visits} (sized : v.Sized regs n) {st : State}
    (length : st.length = regs.length) {places : List Nat} (inside : ∀ p ∈ places, p < n) :
    (places.foldl (fun v p => v.reach st p) v).Sized regs n ∧
      Grows regs n v (places.foldl (fun v p => v.reach st p) v) ∧
      ∀ p ∈ places, ∃ st',
        (places.foldl (fun v p => v.reach st p) v).at? p = some st' ∧ st.Implies regs st' := by
  induction places generalizing v with
  | nil => exact ⟨sized, .refl v, by simp⟩
  | cons p rest ih =>
    obtain ⟨sized₁, grows₁, st₁, found₁, implies₁⟩ :=
      grows_reach sized length (inside p mem_cons_self)
    obtain ⟨sized₂, grows₂, handed⟩ :=
      ih sized₁ fun q member => inside q (mem_cons_of_mem _ member)
    refine ⟨sized₂, grows₁.trans grows₂, fun q member => ?_⟩
    rcases mem_cons.mp member with rfl | later
    · obtain ⟨st₂, found₂, implies₂⟩ := grows₂.weaker q st₁ found₁
      exact ⟨st₂, found₂, implies₁.trans implies₂⟩
    · exact handed q later

theorem height_le {v : Visits} (sized : v.Sized regs n) :
    v.height n ≤ n * (2 * regs.length + 1) := by
  have each : ∀ i ∈ Finset.range n, (v.at? i).elim 0 State.height ≤ 2 * regs.length + 1 := by
    intro i _
    cases found : v.at? i with
    | none => exact Nat.zero_le _
    | some st =>
      have := st.height_le
      rwa [sized.length i st found] at this
  have total := Finset.sum_le_card_nsmul _ _ _ each
  rwa [Finset.card_range, smul_eq_mul] at total

end Growth

section Run

variable (regs : List String) (code : List Inst)

/-- A place has handed what is known after it on to its successors. -/
def Handed (v : Visits) (i : Nat) : Prop :=
  ∀ st inst, v.at? i = some st → code[i]? = some inst →
    ∀ s ∈ successors code (st.decides regs) i inst,
      ∃ st', v.at? s = some st' ∧ (st.after regs inst).Implies regs st'

/-- Visit the newest place on the list. -/
def visitNext (v : Visits) : Visits :=
  match v.work with
  | [] => v
  | i :: rest => visit regs code code.toArray { v with work := rest } i

/-- Nothing is claimed at the first place, and every place that is not to be visited
has handed on what is known. -/
structure Valid (v : Visits) : Prop where
  sized : v.Sized regs code.length
  start : 0 < code.length → ∃ st, v.at? 0 = some st ∧ ∀ read, st.Sound regs read
  handed : ∀ i, i ∉ v.work → Handed regs code v i

variable {regs code}

theorem Sized.visit {v : Visits} (sized : v.Sized regs code.length) (i : Nat) :
    (visit regs code code.toArray v i).Sized regs code.length ∧
      Grows regs code.length v (visit regs code code.toArray v i) ∧
      ∀ st inst, v.at? i = some st → code[i]? = some inst →
        ∀ s ∈ successors code (st.decides regs) i inst, ∃ st',
          (visit regs code code.toArray v i).at? s = some st' ∧
            (st.after regs inst).Implies regs st' := by
  cases state : v.at? i with
  | none =>
    have same : Visits.visit regs code code.toArray v i = v := by
      have state' : v.states.getD i none = none := state
      simp [Visits.visit, state']
    rw [same]
    exact ⟨sized, .refl v, fun _ _ found => by cases found⟩
  | some st =>
    have inside : i < code.length := by
      by_contra outside
      rw [← sized.size] at outside
      simp [at?, Array.getD_eq_getD_getElem?, Array.getElem?_eq_none (Nat.not_lt.mp outside)]
        at state
    have same : Visits.visit regs code code.toArray v i =
        (successors code (st.decides regs) i code[i]).foldl
          (fun v s => v.reach (st.after regs code[i]) s) v := by
      have state' : v.states.getD i none = some st := state
      simp [Visits.visit, state', Array.getD_eq_getD_getElem?, inside]
    have length : (st.after regs code[i]).length = regs.length :=
      (State.length_after _).trans (sized.length i st state)
    have here : code[i]? = some code[i] := List.getElem?_eq_getElem inside
    obtain ⟨sized', grows, handed⟩ := grows_reach_all sized length
      fun s member => successors_lt here member
    rw [same]
    refine ⟨sized', grows, fun st' inst found there => ?_⟩
    cases found
    cases here.symm.trans there
    exact handed

theorem Valid.visitNext {v : Visits} (valid : v.Valid regs code) :
    (visitNext regs code v).Valid regs code := by
  unfold Visits.visitNext
  split
  case h_1 => exact valid
  case h_2 i rest work =>
    have sized : Sized regs code.length { v with work := rest } :=
      ⟨valid.sized.size, valid.sized.length⟩
    obtain ⟨sized', grows, handed⟩ := sized.visit i
    refine ⟨sized', fun nonempty => ?_, fun j absent st inst found there s member => ?_⟩
    · obtain ⟨st₁, found₁, sound⟩ := valid.start nonempty
      obtain ⟨st₂, found₂, implies⟩ := grows.weaker 0 st₁ found₁
      exact ⟨st₂, found₂, fun read => implies read (sound read)⟩
    · rw [grows.kept j absent] at found
      by_cases equal : j = i
      · subst equal
        exact handed st inst found there s member
      · have absent' : j ∉ rest := fun h => absent (grows.work j h)
        obtain ⟨st₁, found₁, implies₁⟩ :=
          valid.handed j (by simp [work, equal, absent']) st inst found there s member
        obtain ⟨st₂, found₂, implies₂⟩ := grows.weaker s st₁ found₁
        exact ⟨st₂, found₂, implies₁.trans implies₂⟩

/-- How many visits there can still be. -/
def remaining (regs : List String) (code : List Inst) (v : Visits) : Nat :=
  v.work.length + (code.length * (2 * regs.length + 1) - v.height code.length)

theorem Sized.visitNext {v : Visits} (sized : v.Sized regs code.length) (busy : v.work ≠ []) :
    (Visits.visitNext regs code v).Sized regs code.length ∧
      remaining regs code (Visits.visitNext regs code v) < remaining regs code v := by
  obtain ⟨i, rest, work⟩ := exists_cons_of_ne_nil busy
  have popped : Sized regs code.length { v with work := rest } := ⟨sized.size, sized.length⟩
  obtain ⟨sized', grows, _⟩ := popped.visit i
  have same : Visits.visitNext regs code v =
      Visits.visit regs code code.toArray { v with work := rest } i := by
    rw [Visits.visitNext, work]
  rw [same]
  refine ⟨sized', ?_⟩
  have cost := grows.cost
  have level : height code.length { v with work := rest } = v.height code.length := rfl
  have most := height_le sized'
  have length : v.work.length = rest.length + 1 := by rw [work, length_cons]
  simp only [level] at cost
  unfold remaining
  omega

theorem Sized.loopEnds {v : Visits} (sized : v.Sized regs code.length) :
    ∃ n ≤ remaining regs code v, ∃ last,
      LoopEnds (Visits.visitNext regs code) (fun v => v.work = []) v n last := by
  obtain ⟨n, bound, last, ends, _⟩ :=
    exists_loopEnds (Sized regs code.length) (remaining regs code) (fun _ => Sized.visitNext) sized
  exact ⟨n, bound, last, ends⟩

theorem run_eq {v last : Visits} {n fuel : Nat}
    (ends : LoopEnds (visitNext regs code) (fun v => v.work = []) v n last) (enough : n ≤ fuel) :
    v.run regs code code.toArray fuel = last := by
  refine ends.of_fuel (fun r v => v.run regs code code.toArray r) id ?_ ?_ enough
  · intro r y done
    cases r with
    | zero => rfl
    | succ r => simp [run, done]
  · intro r y busy
    obtain ⟨i, rest, work⟩ := exists_cons_of_ne_nil busy
    simp [run, Visits.visitNext, work]

end Run

/-! ## What holds of all states -/

section

variable {Q : Nat → State → Prop} {regs : List String} {code : List Inst} {v : Visits}

/-- All states that were found have a property that may depend on the place. -/
def AllStates (Q : Nat → State → Prop) (v : Visits) : Prop := ∀ i st, v.at? i = some st → Q i st

theorem AllStates.put (all : v.AllStates Q) {st : State} (here : Q place st) (work : List Nat) :
    AllStates Q { states := v.states.setIfInBounds place (some st), work } := by
  intro i st' found
  by_cases inside : place < v.states.size
  · rw [at?_put inside] at found
    split at found
    case isTrue same =>
      cases found
      exact same ▸ here
    case isFalse => exact all i st' found
  · rw [Array.setIfInBounds_eq_of_size_le (Nat.not_lt.mp inside)] at found
    exact all i st' found

theorem AllStates.reach (meets : ∀ i st st', Q i st → Q i st' → Q i (st.meet st'))
    (all : v.AllStates Q) {st : State} (here : Q place st) : (v.reach st place).AllStates Q := by
  unfold Visits.reach
  cases old : v.states.getD place none with
  | none =>
    simp only [reduceCtorEq, if_false]
    exact all.put here _
  | some found =>
    simp only
    split
    · exact all
    · exact all.put (meets place found st (all place found old) here) _

theorem AllStates.reach_all (meets : ∀ i st st', Q i st → Q i st' → Q i (st.meet st'))
    (all : v.AllStates Q) {st : State} {places : List Nat} (here : ∀ p ∈ places, Q p st) :
    (places.foldl (fun v p => v.reach st p) v).AllStates Q := by
  induction places generalizing v with
  | nil => exact all
  | cons p rest ih =>
    exact ih (all.reach meets (here p mem_cons_self))
      fun q member => here q (mem_cons_of_mem p member)

theorem AllStates.visitNext (meets : ∀ i st st', Q i st → Q i st' → Q i (st.meet st'))
    (after : ∀ i inst st, code[i]? = some inst → Q i st →
      ∀ s ∈ successors code (st.decides regs) i inst, Q s (st.after regs inst))
    (all : v.AllStates Q) : (visitNext regs code v).AllStates Q := by
  unfold Visits.visitNext
  split
  case h_1 => exact all
  case h_2 i rest _ =>
    have popped : AllStates Q { v with work := rest } := all
    unfold Visits.visit
    dsimp only
    split
    case h_1 => exact popped
    case h_2 st found =>
      refine popped.reach_all meets ?_
      rw [Array.getD_eq_getD_getElem?, List.getElem?_toArray]
      cases here : code[i]? with
      | some inst => exact after i inst st here (all i st found)
      | none =>
        have outside := List.getElem?_eq_none_iff.mp here
        intro s member
        simp only [Option.getD_none, successors, nextPos, if_neg (by omega : ¬ i + 1 < code.length)]
          at member
        cases member

end

end Visits

/-! ## The states of a piece of code -/

section

variable (vars : List Var) (code : List Inst)

/-- What is known at the first place: nothing of what is declared. -/
def entryState : State :=
  (registersOf vars code).map fun r => if r ∈ vars.map (·.name) then .varying else .unset

/-- The visits at the start of the search for states. -/
def firstVisits : Visits where
  states := (Array.replicate code.length none).setIfInBounds 0 (some (entryState vars code))
  work := [0]

/-- The visits at the end of the search for states. -/
def lastVisits : Visits :=
  (firstVisits vars code).run (registersOf vars code) code code.toArray
    (code.length * (2 * (registersOf vars code).length + 1) + 1)

theorem knownStates_eq : knownStates vars code = (lastVisits vars code).states := rfl

variable {vars code}

theorem at?_firstVisits (i : Nat) : (firstVisits vars code).at? i =
    if i = 0 ∧ 0 < code.length then some (entryState vars code) else none := by
  rw [Visits.at?, Array.getD_eq_getD_getElem?, firstVisits, Array.getElem?_setIfInBounds,
    Array.size_replicate, Array.getElem?_replicate]
  by_cases first : i = 0 <;> by_cases nonempty : 0 < code.length <;> grind

theorem WellFormed.mem_registersOf (wf : WellFormed vars code) {n : String}
    (occurs : n ∈ occurring code) : n ∈ registersOf vars code := by
  rw [registersOf, mem_eraseDups]
  exact mem_append_left _ (wf.mem_vars occurs)

theorem WellFormed.mem_vars_of_registersOf (wf : WellFormed vars code) {n : String}
    (member : n ∈ registersOf vars code) : n ∈ vars.map (·.name) := by
  rw [registersOf, mem_eraseDups] at member
  rcases mem_append.mp member with declared | written
  · exact declared
  · obtain ⟨inst, here, found⟩ := mem_filterMap.mp written
    obtain ⟨d, dst, rfl⟩ := Option.map_eq_some_iff.mp found
    obtain ⟨i, at_i⟩ := mem_iff_getElem?.mp here
    exact wf.mem_vars (mem_occurring_of_dst at_i dst)

theorem get_entryState {n : String} (member : n ∈ registersOf vars code)
    (declared : n ∈ vars.map (·.name)) :
    (entryState vars code).get (registersOf vars code) n = .varying := by
  have inside := idxOf_lt_length_of_mem member
  simpa [entryState, State.get, getD_eq_getElem?_getD, inside, getElem_idxOf inside]
    using declared

theorem sound_entryState (wf : WellFormed vars code) (read : String → Value) :
    (entryState vars code).Sound (registersOf vars code) read := by
  intro n member
  rw [get_entryState member (wf.mem_vars_of_registersOf member)]
  trivial

theorem sized_firstVisits (vars : List Var) (code : List Inst) :
    (firstVisits vars code).Sized (registersOf vars code) code.length :=
  ⟨by simp [firstVisits], fun i st found => by
    rw [at?_firstVisits] at found
    split at found <;> cases found
    simp [entryState]⟩

theorem valid_firstVisits (wf : WellFormed vars code) :
    (firstVisits vars code).Valid (registersOf vars code) code where
  sized := sized_firstVisits vars code
  start nonempty := ⟨entryState vars code, by simp [at?_firstVisits, nonempty],
    sound_entryState wf⟩
  handed i absent st inst found := by
    have other : i ≠ 0 := by simpa [firstVisits] using absent
    simp [at?_firstVisits, other] at found

/-- **The visits of any code end**, whether it is well formed or not. -/
theorem lastVisits_ends (vars : List Var) (code : List Inst) :
    ∃ n ≤ code.length * (2 * (registersOf vars code).length + 1) + 1,
      LoopEnds (Visits.visitNext (registersOf vars code) code) (fun v => v.work = [])
        (firstVisits vars code) n (lastVisits vars code) := by
  obtain ⟨n, bound, last, ends⟩ := (sized_firstVisits vars code).loopEnds
  have enough : n ≤ code.length * (2 * (registersOf vars code).length + 1) + 1 := by
    have one : (firstVisits vars code).work.length = 1 := rfl
    rw [Visits.remaining, one] at bound
    omega
  refine ⟨n, enough, ?_⟩
  rwa [lastVisits, Visits.run_eq ends enough]

/-- **The states are closed under the flow of control.** Nothing is claimed at the
first place, and every place has handed on what is known after it. -/
theorem lastVisits_valid (wf : WellFormed vars code) :
    (lastVisits vars code).Valid (registersOf vars code) code ∧
      (lastVisits vars code).work = [] := by
  obtain ⟨n, _, ends⟩ := lastVisits_ends vars code
  refine ⟨?_, ends.ended⟩
  rw [← ends.reached]
  exact Function.Iterate.rec _ (valid_firstVisits wf) (fun _ valid => valid.visitNext) n

/-- **What the visits keep** holds of all states in the end. -/
theorem allStates_lastVisits {Q : Nat → State → Prop}
    (meets : ∀ i st st', Q i st → Q i st' → Q i (st.meet st'))
    (after : ∀ i inst st, code[i]? = some inst → Q i st →
      ∀ s ∈ successors code (st.decides (registersOf vars code)) i inst,
        Q s (st.after (registersOf vars code) inst))
    (start : 0 < code.length → Q 0 (entryState vars code)) :
    (lastVisits vars code).AllStates Q := by
  obtain ⟨n, _, ends⟩ := lastVisits_ends vars code
  rw [← ends.reached]
  refine Function.Iterate.rec _ (fun i st found => ?_) (fun _ all => all.visitNext meets after) n
  rw [at?_firstVisits] at found
  split at found <;> cases found
  case isTrue here => exact here.1 ▸ start here.2

end

end JavaMinus.Code
