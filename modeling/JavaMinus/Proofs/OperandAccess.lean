import JavaMinus.Proofs.LighterRounds

/-!
# The operands of an instruction

Four functions tell the parts of an instruction: `Inst.dst?` the register that it
writes, `Inst.operands` and `Inst.uses` what it reads, and `Inst.mapOperands` puts other
operands in the place of those that stand there. Each of them goes through the kinds of
instructions on its own, so an operand that one of them forgets would go unnoticed. What
is left of an instruction without its operands is its `Inst.shell`: shell and operands
together are the whole instruction (`Inst.eq_of_shell`), so replacing operands is told by
what it does to both of them.

**Main result** (`operand_access_agrees`): the functions speak of the same operands, and
the meaning of an instruction keeps to them. Replacing operands is an action of the
functions on operands that keeps shell and destination. The effect of an instruction
depends on the registers among its operands only, and a step from it changes no register
but its destination.
-/

namespace JavaMinus.Code

open List

/-- What is left of an instruction without its operands. -/
def Inst.shell : Inst → Inst
  | assign d _ => assign d none
  | binary d op _ _ => binary d op none none
  | unary d op _ => unary d op none
  | getField d field => getField d field
  | putField field _ => putField field none
  | load d _ _ => load d none none
  | store _ _ _ => store none none none
  | length d _ => length d none
  | call c => call { c with recv := none, args := [] }
  | new d name => new d name
  | newArray d _ => newArray d none
  | branch _ t => branch none t
  | goto t => goto t
  | label n => label n
  | ret _ => ret none
  | retVoid => retVoid
  | hole => hole

variable {i j : Inst}

/-- An instruction is told by its shell and its operands. -/
theorem Inst.eq_of_shell (shell : i.shell = j.shell) (operands : i.operands = j.operands) :
    i = j := by
  cases i with
  | call c =>
    cases j with
    | call d =>
      cases c
      cases d
      simp_all [Inst.shell, Inst.operands]
    | _ => cases shell
  | _ => cases j <;> simp_all [Inst.shell, Inst.operands]

theorem Inst.shell_mapOperands (i : Inst) (f : Operand → Operand) :
    (i.mapOperands f).shell = i.shell := by
  cases i <;> rfl

theorem Inst.operands_mapOperands_eq_map (i : Inst) (f : Operand → Operand) :
    (i.mapOperands f).operands = i.operands.map (Option.map f) := by
  rw [operands_mapOperands]
  refine map_congr_left fun o _ => ?_
  cases o <;> rfl

theorem Inst.uses_eq (i : Inst) : i.uses = i.operands.reduceOption.filterMap Operand.reg? := by
  rw [reduceOption, filterMap_filterMap]
  rfl

/-- Absent operands stay absent, so the operands that there are are replaced one by one. -/
theorem Inst.uses_mapOperands (i : Inst) (f : Operand → Operand) :
    (i.mapOperands f).uses = (i.operands.reduceOption.map f).filterMap Operand.reg? := by
  rw [uses_eq, operands_mapOperands_eq_map, reduceOption_map]

/-- Both sides have the shell of the instruction, and its operands replaced twice. -/
theorem Inst.mapOperands_mapOperands (i : Inst) (f g : Operand → Operand) :
    (i.mapOperands f).mapOperands g = i.mapOperands (g ∘ f) := by
  refine eq_of_shell ?_ ?_
  · simp only [shell_mapOperands]
  · simp only [operands_mapOperands_eq_map, map_map, Option.map_comp_map]

/-- The registers behind a move. -/
def registersAfter {w : World} : Move Action (Config w Named) (Halt w Named) → Named
  | .go _ c => c.regs
  | .stop _ h => h.regs

theorem write_of_ne {regs : Named} {write : Option (String × Value)} {n : String}
    (other : n ∉ write.map (·.1)) : named.write regs write n = regs n := by
  cases write with
  | none => rfl
  | some nv => exact Function.update_of_ne (fun same => other (congrArg some same.symm)) _ _

/-- Only an instruction that goes on writes, and it writes its destination. -/
theorem registersAfter_step {w : World} {obj : Value} {code : List Inst} {c : Config w Named}
    (here : code[c.pc]? = some i) {n : String} (other : ∀ d ∈ i.dst?, d.name ≠ n) :
    registersAfter (step w obj named code c) n = c.regs n := by
  rw [step_of_get here]
  cases effect : i.effect w obj (named.get c.regs) c.heap with
  | next acts write heap =>
    refine write_of_ne fun written => ?_
    rw [Inst.effect_write effect] at written
    obtain ⟨d, dst, same⟩ := Option.map_eq_some_iff.mp written
    exact other d dst same
  | _ => rfl

/-- **The accessors of an instruction agree.** Replacing the operands of an instruction
leaves its destination and its shell, and shell and operands tell an instruction. Absent
operands stay absent and every other one is replaced in its place, so the registers that
are used afterwards are those among the replacements. Replacing by the same operand changes
nothing, and replacing twice is replacing once by the composition. An instruction does the
same wherever the registers that it uses hold the same values, and a step from it changes
no register but its destination. -/
theorem operand_access_agrees (i : Inst) :
    (∀ j : Inst, j.shell = i.shell → j.operands = i.operands → j = i) ∧
    i.uses = i.operands.reduceOption.filterMap Operand.reg? ∧
    (∀ f : Operand → Operand,
      (i.mapOperands f).dst? = i.dst? ∧ (i.mapOperands f).shell = i.shell ∧
      (i.mapOperands f).operands = i.operands.map (Option.map f) ∧
      (i.mapOperands f).uses = (i.operands.reduceOption.map f).filterMap Operand.reg? ∧
      ∀ g : Operand → Operand, (i.mapOperands f).mapOperands g = i.mapOperands (g ∘ f)) ∧
    i.mapOperands id = i ∧
    (∀ (w : World) (obj : Value) (heap : w.Heap) (read read' : String → Value),
      (∀ r ∈ i.uses, read r.name = read' r.name) →
        i.effect w obj read heap = i.effect w obj read' heap) ∧
    ∀ (w : World) (obj : Value) (code : List Inst) (c : Config w Named),
      code[c.pc]? = some i → ∀ n, (∀ d ∈ i.dst?, d.name ≠ n) →
        registersAfter (step w obj named code c) n = c.regs n :=
  ⟨fun _ shell operands => Inst.eq_of_shell shell operands, i.uses_eq,
    fun f => ⟨i.dst?_mapOperands f, i.shell_mapOperands f, i.operands_mapOperands_eq_map f,
      i.uses_mapOperands f, i.mapOperands_mapOperands f⟩,
    i.mapOperands_id, fun _ _ _ _ _ agree => Inst.effect_congr_uses agree,
    fun _ _ _ _ here _ other => registersAfter_step here other⟩

end JavaMinus.Code
