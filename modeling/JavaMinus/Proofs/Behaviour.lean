import Mathlib

/-!
# What can be observed of a run

A machine goes from state to state. Each step does some actions, in order, and
either leads to another state or ends the run. Of a run one can observe which
actions it does and how it ends; a run that never ends may still do actions for
ever.

Two behaviours are the same (`Behaviour.Same`) when every sequence of actions
that starts one of them starts the other, and when they end after the same
actions in the same way. If one of them does not end, the other does not either.

Runs through parts of what a machine does compose (`Reaches.trans`,
`Reaches.halts`).

**Simulation.** Two machines behave the same from related states if each of
their steps either is matched by a step of the other with the same actions, or
does nothing that can be observed and lowers a rank (`same_of_diagrams`). The
rank keeps one machine from idling for ever while the other waits.

**Lockstep.** Machines that take matching steps from related states stay related
(`walk_lockstep`).

**Milestones.** A behaviour that is given by larger and larger parts is that of a
machine when the machine passes each of the parts, and needs more and more steps
for those that are not the last (`matches_of_milestones`). Here the ends need not
be equal: `Behaviour.Matches` compares them by a relation.
-/

namespace JavaMinus

variable {α σ τ ω υ ψ : Type}

/-! ## Machines -/

/-- One step of a machine: some actions, and then another state or the end. -/
inductive Move (α σ ω : Type) where
  | go (acts : List α) (s : σ)
  | stop (acts : List α) (e : ω)

/-- The actions of the first `n` steps, and the state or the end that they lead
to. A run that has ended takes no more steps. -/
def walk (step : σ → Move α σ ω) : Nat → σ → List α × (σ ⊕ ω)
  | 0, s => ([], .inl s)
  | n + 1, s =>
    match step s with
    | .go acts s' => (acts ++ (walk step n s').1, (walk step n s').2)
    | .stop acts e => (acts, .inr e)

section Walk

variable {step : σ → Move α σ ω}

@[simp] theorem walk_zero (s : σ) : walk step 0 s = ([], .inl s) := rfl

theorem walk_succ_go {n : Nat} {s s' : σ} {acts : List α} (h : step s = .go acts s') :
    walk step (n + 1) s = (acts ++ (walk step n s').1, (walk step n s').2) := by
  simp only [walk, h]

theorem walk_succ_stop {n : Nat} {s : σ} {acts : List α} {e : ω} (h : step s = .stop acts e) :
    walk step (n + 1) s = (acts, .inr e) := by
  simp only [walk, h]

theorem walk_add {m : Nat} {s s' : σ} {acts : List α} (first : walk step m s = (acts, .inl s'))
    (n : Nat) : walk step (m + n) s = (acts ++ (walk step n s').1, (walk step n s').2) := by
  induction m generalizing s acts with
  | zero =>
    simp only [walk_zero, Prod.mk.injEq, Sum.inl.injEq] at first
    obtain ⟨rfl, rfl⟩ := first
    simp
  | succ m ih =>
    cases h : step s with
    | go before middle =>
      rw [walk_succ_go h, Prod.mk.injEq] at first
      obtain ⟨rfl, here⟩ := first
      have start : walk step m middle = ((walk step m middle).1, .inl s') := by rw [← here]
      rw [Nat.add_right_comm, walk_succ_go h, ih start, List.append_assoc]
    | stop before e =>
      rw [walk_succ_stop h] at first
      cases first

theorem walk_ended {m : Nat} {s : σ} {acts : List α} {e : ω}
    (ended : walk step m s = (acts, .inr e)) (n : Nat) :
    walk step (m + n) s = (acts, .inr e) := by
  induction m generalizing s acts with
  | zero => cases ended
  | succ m ih =>
    cases h : step s with
    | go before middle =>
      rw [walk_succ_go h, Prod.mk.injEq] at ended
      obtain ⟨rfl, here⟩ := ended
      have start : walk step m middle = ((walk step m middle).1, .inr e) := by rw [← here]
      rw [Nat.add_right_comm, walk_succ_go h, ih start]
    | stop before e' =>
      rw [walk_succ_stop h] at ended
      rw [Nat.add_right_comm, walk_succ_stop h, ended]

theorem walk_prefix {m n : Nat} (le : m ≤ n) (s : σ) : (walk step m s).1 <+: (walk step n s).1 := by
  obtain ⟨k, rfl⟩ := Nat.exists_eq_add_of_le le
  cases h : (walk step m s).2 with
  | inl s' =>
    have start : walk step m s = ((walk step m s).1, .inl s') := by rw [← h]
    rw [walk_add start]
    exact List.prefix_append _ _
  | inr e =>
    have start : walk step m s = ((walk step m s).1, .inr e) := by rw [← h]
    rw [walk_ended start]

theorem walk_inl_of_le {m n : Nat} {s s' : σ} {acts : List α} (le : m ≤ n)
    (running : walk step n s = (acts, .inl s')) : ∃ s'', (walk step m s).2 = .inl s'' := by
  cases h : (walk step m s).2 with
  | inl s'' => exact ⟨s'', rfl⟩
  | inr e =>
    obtain ⟨k, rfl⟩ := Nat.exists_eq_add_of_le le
    have start : walk step m s = ((walk step m s).1, .inr e) := by rw [← h]
    rw [walk_ended start] at running
    cases running

theorem walk_inr_unique {m n : Nat} {s : σ} {acts acts' : List α} {e e' : ω}
    (first : walk step m s = (acts, .inr e)) (second : walk step n s = (acts', .inr e')) :
    acts = acts' ∧ e = e' := by
  have one := walk_ended first n
  rw [Nat.add_comm, walk_ended second m] at one
  simp only [Prod.mk.injEq, Sum.inr.injEq] at one
  exact ⟨one.1.symm, one.2.symm⟩

end Walk

/-! ## Runs -/

/-- The machine gets from a state to another with the given actions, in at least the given
number of steps. -/
def Reaches (step : σ → Move α σ ω) (n : Nat) (s : σ) (acts : List α) (s' : σ) : Prop :=
  ∃ k, n ≤ k ∧ walk step k s = (acts, .inl s')

/-- The machine ends from a state with the given actions. -/
def Halts (step : σ → Move α σ ω) (s : σ) (acts : List α) (e : ω) : Prop :=
  ∃ k, walk step k s = (acts, .inr e)

namespace Reaches

variable {step : σ → Move α σ ω} {m n : Nat} {s s' s'' : σ} {acts acts' : List α} {e : ω}

theorem refl (s : σ) : Reaches step 0 s [] s := ⟨0, Nat.le_refl _, rfl⟩

theorem trans (first : Reaches step m s acts s') (second : Reaches step n s' acts' s'') :
    Reaches step (m + n) s (acts ++ acts') s'' := by
  obtain ⟨j, enough, start⟩ := first
  obtain ⟨k, more, rest⟩ := second
  exact ⟨j + k, by omega, by rw [walk_add start, rest]⟩

theorem mono (le : m ≤ n) (run : Reaches step n s acts s') : Reaches step m s acts s' := by
  obtain ⟨k, enough, there⟩ := run
  exact ⟨k, le.trans enough, there⟩

theorem halts (first : Reaches step m s acts s') (second : Halts step s' acts' e) :
    Halts step s (acts ++ acts') e := by
  obtain ⟨j, _, start⟩ := first
  obtain ⟨k, rest⟩ := second
  exact ⟨j + k, by rw [walk_add start, rest]⟩

theorem of_step (stepped : step s = .go acts s') : Reaches step 1 s acts s' :=
  ⟨1, Nat.le_refl _, by rw [walk_succ_go stepped]; simp⟩

end Reaches

theorem Halts.of_step {step : σ → Move α σ ω} {s : σ} {acts : List α} {e : ω}
    (stepped : step s = .stop acts e) : Halts step s acts e :=
  ⟨1, walk_succ_stop stepped⟩

/-! ## Behaviours -/

/-- What is observed of a run, in parts: part `n` holds the actions of a start of
the run, and how the run ends if that start is the whole run. -/
abbrev Behaviour (α ψ : Type) := Nat → List α × Option ψ

namespace Behaviour

/-- The run starts with these actions. -/
def Does (b : Behaviour α ψ) (acts : List α) : Prop := ∃ n, acts <+: (b n).1

/-- The run ends after these actions in this way. -/
def Ends (b : Behaviour α ψ) (acts : List α) (e : ψ) : Prop := ∃ n, b n = (acts, some e)

/-- The same actions in the same order, and the same end if there is one. -/
structure Same (b c : Behaviour α ψ) : Prop where
  does : ∀ acts, b.Does acts ↔ c.Does acts
  ends : ∀ acts e, b.Ends acts e ↔ c.Ends acts e

namespace Same

theorem refl (b : Behaviour α ψ) : Same b b := ⟨fun _ => .rfl, fun _ _ => .rfl⟩

theorem trans {b c d : Behaviour α ψ} (first : Same b c) (second : Same c d) : Same b d :=
  ⟨fun acts => (first.does acts).trans (second.does acts),
    fun acts e => (first.ends acts e).trans (second.ends acts e)⟩

end Same

/-- The same actions in the same order, and ends that are alike. What counts as alike
may depend on the actions. -/
structure Matches (alike : List α → ψ → ω → Prop) (b : Behaviour α ψ) (c : Behaviour α ω) :
    Prop where
  does : ∀ acts, b.Does acts ↔ c.Does acts
  forth : ∀ acts e, b.Ends acts e → ∃ e', c.Ends acts e' ∧ alike acts e e'
  back : ∀ acts e', c.Ends acts e' → ∃ e, b.Ends acts e ∧ alike acts e e'

/-- Every part of the first behaviour is found in the second. -/
def Below (b c : Behaviour α ψ) : Prop :=
  ∀ n, ∃ k, (b n).1 <+: (c k).1 ∧ ∀ e, (b n).2 = some e → c k = b n

theorem Same.of_below {b c : Behaviour α ψ} (forth : Below b c) (back : Below c b) : Same b c := by
  have does : ∀ {b c : Behaviour α ψ}, Below b c → ∀ acts, b.Does acts → c.Does acts := by
    intro b c below acts ⟨n, start⟩
    obtain ⟨k, more, _⟩ := below n
    exact ⟨k, start.trans more⟩
  have ends : ∀ {b c : Behaviour α ψ}, Below b c → ∀ acts e, b.Ends acts e → c.Ends acts e := by
    intro b c below acts e ⟨n, ended⟩
    obtain ⟨k, _, whole⟩ := below n
    exact ⟨k, (whole e (by rw [ended])).trans ended⟩
  exact ⟨fun acts => ⟨does forth acts, does back acts⟩,
    fun acts e => ⟨ends forth acts e, ends back acts e⟩⟩

end Behaviour

/-- The behaviour of a machine from a state, where `view` tells what can be seen of
an end. -/
def behaviour (step : σ → Move α σ ω) (view : ω → ψ) (s : σ) : Behaviour α ψ := fun n =>
  ((walk step n s).1, (walk step n s).2.elim (fun _ => none) fun e => some (view e))

section Unfolding

variable {step : σ → Move α σ ω} {view : ω → ψ}

theorem behaviour_zero (s : σ) : behaviour step view s 0 = ([], none) := rfl

theorem behaviour_succ_go {n : Nat} {s s' : σ} {acts : List α} (h : step s = .go acts s') :
    behaviour step view s (n + 1) =
      (acts ++ (behaviour step view s' n).1, (behaviour step view s' n).2) := by
  simp only [behaviour, walk_succ_go h]

theorem behaviour_succ_stop {n : Nat} {s : σ} {acts : List α} {e : ω}
    (h : step s = .stop acts e) : behaviour step view s (n + 1) = (acts, some (view e)) := by
  simp only [behaviour, walk_succ_stop h, Sum.elim_inr]

theorem behaviour_of_running {n : Nat} {s s' : σ} {acts : List α}
    (h : walk step n s = (acts, .inl s')) : behaviour step view s n = (acts, none) := by
  simp only [behaviour, h, Sum.elim_inl]

theorem behaviour_of_ended {n : Nat} {s : σ} {acts : List α} {e : ω}
    (h : walk step n s = (acts, .inr e)) : behaviour step view s n = (acts, some (view e)) := by
  simp only [behaviour, h, Sum.elim_inr]

theorem behaviour_end_unique {m n : Nat} {s : σ} {e e' : ω}
    (first : (behaviour step id s m).2 = some e) (second : (behaviour step id s n).2 = some e') :
    e = e' := by
  have ended : ∀ {k : Nat} {e : ω}, (behaviour step id s k).2 = some e →
      walk step k s = ((walk step k s).1, .inr e) := by
    intro k e seen
    cases here : (walk step k s).2 with
    | inl s' => simp [behaviour, here] at seen
    | inr last =>
      have same : last = e := by simpa [behaviour, here] using seen
      rw [← same, ← here]
  exact (walk_inr_unique (ended first) (ended second)).2

end Unfolding

/-! ## Simulation -/

section

variable (step₁ : σ → Move α σ ω) (step₂ : τ → Move α τ υ) (view₁ : ω → ψ) (view₂ : υ → ψ)
  (related : σ → τ → Prop) (rank : σ → τ → Nat)

/-- How two machines may go on from two states. -/
inductive Diagram (s : σ) (t : τ) : Prop where
  /-- Both take a step with the same actions. -/
  | both {acts : List α} {s' : σ} {t' : τ} :
      step₁ s = .go acts s' → step₂ t = .go acts t' → related s' t' → Diagram s t
  /-- Both end with the same actions in the same way. -/
  | last {acts : List α} {e : ω} {e' : υ} :
      step₁ s = .stop acts e → step₂ t = .stop acts e' → view₁ e = view₂ e' → Diagram s t
  /-- The first machine idles. -/
  | left {s' : σ} : step₁ s = .go [] s' → related s' t → rank s' t < rank s t → Diagram s t
  /-- The second machine idles. -/
  | right {t' : τ} : step₂ t = .go [] t' → related s t' → rank s t' < rank s t → Diagram s t

variable {step₁ step₂ view₁ view₂ related rank}

theorem Diagram.swap {s : σ} {t : τ} (d : Diagram step₁ step₂ view₁ view₂ related rank s t) :
    Diagram step₂ step₁ view₂ view₁ (fun t s => related s t) (fun t s => rank s t) t s := by
  cases d with
  | both first second rest => exact .both second first rest
  | last first second same => exact .last second first same.symm
  | left idle rest lower => exact .right idle rest lower
  | right idle rest lower => exact .left idle rest lower

theorem below_of_diagrams
    (diagrams : ∀ s t, related s t → Diagram step₁ step₂ view₁ view₂ related rank s t)
    {s : σ} {t : τ} (start : related s t) :
    (behaviour step₁ view₁ s).Below (behaviour step₂ view₂ t) := by
  intro n
  induction n generalizing s t with
  | zero => exact ⟨0, List.nil_prefix, fun e h => by simp [behaviour_zero] at h⟩
  | succ n ih =>
    -- Only the second machine idles without using up a step of the first.
    induction bound : rank s t using Nat.strongRecOn generalizing t with
    | ind r lower =>
      cases diagrams s t start with
      | both first second rest =>
        obtain ⟨k, more, whole⟩ := ih rest
        refine ⟨k + 1, ?_, fun e ended => ?_⟩
        · rw [behaviour_succ_go first, behaviour_succ_go second]
          exact (List.prefix_append_right_inj _).mpr more
        · rw [behaviour_succ_go first] at ended
          rw [behaviour_succ_go first, behaviour_succ_go second, whole e ended]
      | last first second same =>
        refine ⟨1, ?_, fun e _ => ?_⟩
        · rw [behaviour_succ_stop first, behaviour_succ_stop second]
        · rw [behaviour_succ_stop first, behaviour_succ_stop second, same]
      | left idle rest _ =>
        obtain ⟨k, more, whole⟩ := ih rest
        refine ⟨k, ?_, fun e ended => ?_⟩
        · rw [behaviour_succ_go idle]
          exact more
        · rw [behaviour_succ_go idle] at ended
          rw [behaviour_succ_go idle, whole e ended]
          rfl
      | right idle rest smaller =>
        obtain ⟨k, more, whole⟩ := lower _ (bound ▸ smaller) rest rfl
        refine ⟨k + 1, ?_, fun e ended => ?_⟩
        · rw [behaviour_succ_go idle]
          exact more
        · rw [behaviour_succ_go idle, whole e ended]
          rfl

/-- **Simulation.** Machines whose related states go on alike behave the same. -/
theorem same_of_diagrams
    (diagrams : ∀ s t, related s t → Diagram step₁ step₂ view₁ view₂ related rank s t)
    {s : σ} {t : τ} (start : related s t) :
    (behaviour step₁ view₁ s).Same (behaviour step₂ view₂ t) := by
  have swapped : ∀ t s, related s t →
      Diagram step₂ step₁ view₂ view₁ (fun t s => related s t) (fun t s => rank s t) t s :=
    fun t s h => (diagrams s t h).swap
  exact .of_below (below_of_diagrams diagrams start) (below_of_diagrams swapped start)

end

/-! ## Lockstep -/

/-- **Lockstep.** Machines whose related states always take matching steps stay
related for any number of steps, and end in related ways after the same actions. -/
theorem walk_lockstep {step₁ : σ → Move α σ ω} {step₂ : τ → Move α τ υ} {related : σ → τ → Prop}
    {ended : ω → υ → Prop}
    (steps : ∀ s t, related s t →
      (∃ acts s' t', step₁ s = .go acts s' ∧ step₂ t = .go acts t' ∧ related s' t') ∨
      (∃ acts e e', step₁ s = .stop acts e ∧ step₂ t = .stop acts e' ∧ ended e e'))
    (n : Nat) {s : σ} {t : τ} (start : related s t) :
    (walk step₂ n t).1 = (walk step₁ n s).1 ∧
      Sum.LiftRel related ended (walk step₁ n s).2 (walk step₂ n t).2 := by
  induction n generalizing s t with
  | zero => exact ⟨rfl, .inl start⟩
  | succ n ih =>
    rcases steps s t start with ⟨acts, s', t', first, second, next⟩ |
      ⟨acts, e, e', first, second, last⟩
    · obtain ⟨same, rest⟩ := ih next
      rw [walk_succ_go first, walk_succ_go second]
      exact ⟨congrArg _ same, rest⟩
    · rw [walk_succ_stop first, walk_succ_stop second]
      exact ⟨rfl, .inr last⟩

/-! ## Milestones -/

/-- **Milestones.** A machine has a behaviour given in parts if it ends where a part
is the last one, and otherwise passes the part after at least as many steps as
the number of the part. -/
theorem matches_of_milestones {alike : List α → ψ → ω → Prop} {b : Behaviour α ψ}
    {step : σ → Move α σ ω} {s : σ}
    (milestones : ∀ n,
      (∃ k e e', (b n).2 = some e ∧ walk step k s = ((b n).1, .inr e') ∧ alike (b n).1 e e') ∨
      (∃ k s', n ≤ k ∧ (b n).2 = none ∧ walk step k s = ((b n).1, .inl s'))) :
    b.Matches alike (behaviour step id s) := by
  refine ⟨fun acts => ⟨?_, ?_⟩, ?_, ?_⟩
  · rintro ⟨n, start⟩
    rcases milestones n with ⟨k, e, e', _, passed, _⟩ | ⟨k, s', _, _, passed⟩
    · exact ⟨k, by rwa [behaviour_of_ended passed]⟩
    · exact ⟨k, by rwa [behaviour_of_running passed]⟩
  · rintro ⟨n, start⟩
    refine ⟨n, start.trans ?_⟩
    rcases milestones n with ⟨k, e, e', _, passed, _⟩ | ⟨k, s', le, _, passed⟩
    · have longer : (walk step n s).1 <+: (walk step (n + k) s).1 :=
        walk_prefix (Nat.le_add_right n k) s
      rwa [Nat.add_comm, walk_ended passed n] at longer
    · have longer : (walk step n s).1 <+: (walk step k s).1 := walk_prefix le s
      rwa [passed] at longer
  · rintro acts e ⟨n, ended⟩
    rcases milestones n with ⟨k, e', last, same, passed, like⟩ | ⟨k, s', _, running, _⟩
    · rw [ended] at same passed like
      cases same
      exact ⟨last, ⟨k, behaviour_of_ended passed⟩, like⟩
    · rw [ended] at running
      cases running
  · rintro acts e' ⟨n, ended⟩
    cases here : (walk step n s).2 with
    | inl s' => simp [behaviour, here] at ended
    | inr last =>
      have mine : walk step n s = ((walk step n s).1, .inr last) := by rw [← here]
      rw [behaviour_of_ended mine, Prod.mk.injEq, Option.some.injEq] at ended
      obtain ⟨rfl, rfl⟩ := ended
      rcases milestones n with ⟨k, e, e'', same, passed, like⟩ | ⟨k, s', le, _, passed⟩
      · obtain ⟨acts, rfl⟩ := walk_inr_unique mine passed
        rw [acts]
        exact ⟨e, ⟨n, Prod.ext rfl same⟩, like⟩
      · obtain ⟨s'', running⟩ := walk_inl_of_le le passed
        rw [here] at running
        cases running

end JavaMinus
