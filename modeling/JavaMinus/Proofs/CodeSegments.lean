import JavaMinus.Proofs.ControlFlow

/-!
# Runs through parts of code

Code that is made from a tree is run part by part. `StandsAt code p part` says where
a part stands in the whole code. `Reaches` and `Halts` say where a run of code gets
from a point, after which actions. A jump to a label that occurs once goes to where
the label stands (`Reaches.jump`).
-/

namespace JavaMinus.Code

/-! ## Parts of code -/

/-- The part stands in the code from a position on. -/
def StandsAt {ι : Type} (code : List ι) (p : Nat) (part : List ι) : Prop :=
  ∀ i inst, part[i]? = some inst → code[p + i]? = some inst

namespace StandsAt

variable {ι : Type} {code first second : List ι} {p q : Nat} {inst : ι}

theorem whole (code : List ι) : StandsAt code 0 code := by
  intro i inst here
  rwa [Nat.zero_add]

theorem left (stands : StandsAt code p (first ++ second)) : StandsAt code p first := by
  intro i inst here
  have bound := (List.getElem?_eq_some_iff.mp here).1
  exact stands i inst (by rwa [List.getElem?_append_left bound])

theorem right (stands : StandsAt code p (first ++ second)) (behind : q = p + first.length) :
    StandsAt code q second := by
  intro i inst here
  have there := stands (first.length + i) inst
    (by rwa [List.getElem?_append_right (Nat.le_add_right _ _), Nat.add_sub_cancel_left])
  rwa [behind, Nat.add_assoc]

theorem head (stands : StandsAt code p (inst :: second)) : code[p]? = some inst := stands 0 inst rfl

theorem tail (stands : StandsAt code p (inst :: second)) : StandsAt code (p + 1) second :=
  right (show StandsAt code p ([inst] ++ second) from stands) rfl

end StandsAt

/-! ## Runs -/

section

variable {w : World}

/-- The run of code gets from a point to another. -/
abbrev Reaches (obj : Value) (code : List Inst) (n : Nat) (c : Config w Named)
    (acts : List Action) (c' : Config w Named) : Prop :=
  JavaMinus.Reaches (step w obj named code) n c acts c'

/-- The run of code ends from a point. -/
abbrev Halts (obj : Value) (code : List Inst) (c : Config w Named) (acts : List Action)
    (h : Halt w Named) : Prop :=
  JavaMinus.Halts (step w obj named code) c acts h

variable {obj : Value} {code : List Inst} {p : Nat} {acts : List Action} {regs : Named}
  {heap : w.Heap}

namespace Reaches

theorem next {inst : Inst} {write : Option (String × Value)} {heap' : w.Heap}
    (here : code[p]? = some inst)
    (effect : inst.effect w obj regs heap = .next acts write heap') :
    Reaches obj code 1 ⟨p, regs, heap⟩ acts ⟨p + 1, named.write regs write, heap'⟩ := by
  refine JavaMinus.Reaches.of_step ?_
  rw [step_of_get (c := ⟨p, regs, heap⟩) here]
  exact congrArg (Effect.move named code _) effect

theorem jump {inst : Inst} {target : String} {q : Nat} (unique : UniqueLabels code)
    (here : code[p]? = some inst) (effect : inst.effect w obj regs heap = .jump target)
    (there : code[q]? = some (.label target)) :
    Reaches obj code 1 ⟨p, regs, heap⟩ [] ⟨q, regs, heap⟩ := by
  have found : labelAt code target = q :=
    unique.position_unique (getElem?_labelAt (List.mem_of_getElem? there)) there
  refine JavaMinus.Reaches.of_step ?_
  rw [step_of_get (c := ⟨p, regs, heap⟩) here, ← found]
  exact congrArg (Effect.move named code _) effect

theorem label {name : String} (here : code[p]? = some (.label name)) :
    Reaches obj code 1 ⟨p, regs, heap⟩ [] ⟨p + 1, regs, heap⟩ :=
  next here rfl

end Reaches

theorem Halts.fail {inst : Inst} {e : w.Failure} {heap' : w.Heap} (here : code[p]? = some inst)
    (effect : inst.effect w obj regs heap = .fail acts e heap') :
    Halts obj code ⟨p, regs, heap⟩ acts ⟨.failed e, regs, heap'⟩ := by
  refine JavaMinus.Halts.of_step ?_
  rw [step_of_get (c := ⟨p, regs, heap⟩) here]
  exact congrArg (Effect.move named code _) effect

theorem Halts.ret {inst : Inst} {result : Option Value} (here : code[p]? = some inst)
    (effect : inst.effect w obj regs heap = .ret result) :
    Halts obj code ⟨p, regs, heap⟩ [] ⟨.returned result, regs, heap⟩ := by
  refine JavaMinus.Halts.of_step ?_
  rw [step_of_get (c := ⟨p, regs, heap⟩) here]
  exact congrArg (Effect.move named code _) effect

end

end JavaMinus.Code
