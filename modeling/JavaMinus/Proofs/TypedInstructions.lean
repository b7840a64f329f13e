import JavaMinus.Proofs.EmittedCode
import JavaMinus.Proofs.SelectedOperations
import JavaMinus.Proofs.ValuedTrees

/-!
# Sound and typed instructions

An instruction is sound (`Inst.Sound`) when it has its operands and an operator or a call that
can be carried out. It is typed (`Inst.Typed`) when its operands and its destination are of the types
that it works on. Of the instructions that are made for a tree more is known (`Lowered`): the
receivers of calls are references, or integers where nothing is known of them, constants are
words, fields are accessed only where there is an object, and labels are of one of six kinds.
-/

namespace JavaMinus.Code

open List

open Syntax (Expr)
open Typing (Mark Callee Scope operatorTypes)
open Assembly (accessesField)

variable {xs : List (Expr Mark)} {dst : Option Reg} {vs : List Operand}

/-! ## Instructions that lack nothing -/

/-- A call that can be made: there is an argument for each parameter, a receiver unless the
call is static, and a result if one is stored. -/
structure Call.Sound (c : Call) : Prop where
  arity : c.params.length = c.args.length
  args : ∀ a ∈ c.args, a.isSome = true
  receiver : c.recv.isSome = true ↔ c.kind ≠ .static
  stored : c.dst.isSome = true → c.ret.isVoid = false

/-- An instruction that can be carried out. -/
def Inst.Sound : Inst → Prop
  | .binary _ op l r => (operatorTypes op).isSome = true ∧ l.isSome = true ∧ r.isSome = true
  | .unary _ op x => op = .not ∧ x.isSome = true
  | .call c => c.Sound
  | .hole => False
  | inst => ∀ o ∈ inst.operands, o.isSome = true

/-! ## Typed instructions -/

/-- There is an operand, and its type is as asked for. -/
def OfType (P : Ty → Prop) (o : Option Operand) : Prop := ∃ v, o = some v ∧ P v.type

/-- Each argument is alike to its parameter, and the destination to the result. -/
structure Call.Typed (c : Call) : Prop where
  args : List.Forall₂ (fun a p => OfType (·.Alike p) a) c.args c.params
  result : ∀ d ∈ c.dst, d.type.Alike c.ret

/-- The operands and the destination of an instruction are of the types that it works on. The
declared types of fields are given, and the type that the method returns. -/
def Inst.Typed (field? : String → Option Ty) (ret : Ty) : Inst → Prop
  | .assign d src => OfType (·.Alike d.type) src
  | .binary d _ l r => d.type.isWord = true ∧ OfType (· = .int) l ∧ OfType (· = .int) r
  | .unary d _ x => d.type.isWord = true ∧ OfType (· = .boolean) x
  | .getField d name => ∀ t, field? name = some t → d.type.Alike t
  | .putField name src => ∀ t, field? name = some t → OfType (·.Alike t) src
  | .load d a i => OfType (fun t => t.array = true ∧ d.type.Alike t.elem) a ∧ OfType (· = .int) i
  | .store a i v =>
    OfType (fun t => t.array = true ∧ OfType (·.Alike t.elem) v) a ∧ OfType (· = .int) i
  | .length d a => d.type.isWord = true ∧ OfType (·.array = true) a
  | .call c => c.Typed
  | .new d _ => d.type.isRef = true
  | .newArray d n => d.type.isRef = true ∧ OfType (· = .int) n
  | .branch c _ => OfType (· = .boolean) c
  | .ret x => OfType (·.Alike ret) x
  | .hole => False
  | _ => True

/-- The kinds of labels that code is made with. -/
def labelKinds : List String :=
  ["and_rhs", "and_end", "if_then", "if_end", "while_cond", "while_body"]

/-- What holds of the instructions that are made for a method. -/
structure Lowered (field? : String → Option Ty) (isStatic : Bool) (ret : Ty) (loose : Prop)
    (inst : Inst) : Prop where
  typed : inst.Typed field? ret
  receiver : ∀ c, inst = .call c → c.kind ≠ .static → ∃ r, c.recv = some r ∧
    (r.type.isRef = true ∨ loose ∧ c.kind = .virtual ∧ c.owner = "" ∧ r.type = .int)
  words : ∀ v t, some (.imm v t) ∈ inst.operands → t.isWord = true
  object : accessesField inst = true → isStatic = false
  label : ∀ n, inst = .label n → ∃ kind ∈ labelKinds, ∃ k, n = labelName kind k

/-- The declared type of a field. -/
def fieldType? (t : Table) (name : String) : Option Ty := (t.field? name).map (·.type)

/-- What holds of the instructions that are made in a scope. -/
structure Made (s : Scope) (loose : Prop) (inst : Inst) : Prop where
  sound : inst.Sound
  lowered : Lowered (fieldType? s.table) s.method.isStatic s.method.ret loose inst

/-! ## Operands -/

/-- An operand for a value of a type. -/
structure Computed (t : Ty) (v : Operand) : Prop where
  type : v.type = t
  word : ∀ n t', v = .imm n t' → t'.isWord = true

/-- Operands for the values of expressions. -/
abbrev ComputedAll (xs : List (Expr Mark)) (vs : List Operand) : Prop :=
  List.Forall₂ (fun x v => Computed (useOf x) v) xs vs

theorem Computed.alike {t p : Ty} {v : Operand} (computed : Computed t v) (alike : t.Alike p) :
    v.type.Alike p :=
  computed.type ▸ alike

theorem computed_reg {t : Ty} {r : Reg} (isType : r.type = t) : Computed t (.reg r) :=
  ⟨isType, nofun⟩

theorem computed_imm {t t' : Ty} {n : Int32} (isType : t' = t) (word : t'.isWord = true) :
    Computed t (.imm n t') := by
  refine ⟨isType, fun _ _ same => ?_⟩
  cases same
  exact word

section Instructions

variable {field? : String → Option Ty} {isStatic : Bool} {ret : Ty} {loose : Prop} {inst : Inst}

/-- The instruction is no call and no label, and accesses no field. -/
def Inst.isPlain : Inst → Bool
  | .call _ => false
  | .label _ => false
  | inst => !accessesField inst

theorem Lowered.of_plain (plain : inst.isPlain = true) (typed : inst.Typed field? ret)
    (words : ∀ v t, some (.imm v t) ∈ inst.operands → t.isWord = true) :
    Lowered field? isStatic ret loose inst where
  typed := typed
  receiver c same := by
    subst same
    cases plain
  words := words
  object accesses := by
    cases inst with
    | getField | putField => cases plain
    | _ => cases accesses
  label n same := by
    subst same
    cases plain

theorem Lowered.of_one {t : Ty} {v : Operand} (plain : inst.isPlain = true)
    (typed : inst.Typed field? ret) (computed : Computed t v) (operand : inst.operands = [some v]) :
    Lowered field? isStatic ret loose inst := by
  refine .of_plain plain typed fun n t' member => ?_
  rw [operand, mem_singleton] at member
  exact computed.word n t' (Option.some.inj member).symm

theorem words_of_computed (given : ComputedAll xs vs) (among : ∀ o, some o ∈ inst.operands → o ∈ vs) :
    ∀ v t, some (.imm v t) ∈ inst.operands → t.isWord = true := by
  intro v t member
  obtain ⟨i, bound, here⟩ := mem_iff_getElem.mp (among _ member)
  have length := given.length_eq
  have computed := given.get (length ▸ bound) bound
  exact computed.word v t here

theorem words_of_gets (inst : Inst) (given : ComputedAll xs vs) (count : Nat)
    (gets : inst.operands = (List.range count).map (vs[·]?)) :
    ∀ v t, some (.imm v t) ∈ inst.operands → t.isWord = true := by
  refine words_of_computed given fun o member => ?_
  rw [gets] at member
  obtain ⟨k, _, found⟩ := mem_map.mp member
  exact mem_of_getElem? found

variable {s : Scope}

theorem made_branch {v : Operand} (computed : Computed .boolean v) (target : String) :
    Made s loose (.branch (some v) target) :=
  ⟨by simp [Inst.Sound, Inst.operands], .of_one rfl ⟨v, rfl, computed.type⟩ computed rfl⟩

theorem made_goto (target : String) : Made s loose (.goto target) :=
  ⟨by simp [Inst.Sound, Inst.operands], .of_plain rfl trivial (by simp [Inst.operands])⟩

theorem made_label {kind : String} (listed : kind ∈ labelKinds) (n : Nat) :
    Made s loose (.label (labelName kind n)) := by
  refine ⟨by simp [Inst.Sound, Inst.operands], trivial, fun _ => Inst.noConfusion,
    by simp [Inst.operands], Bool.noConfusion, fun name same => ?_⟩
  cases same
  exact ⟨kind, listed, n, rfl⟩

end Instructions

/-! ## Members and calls -/

section

variable {s : Scope} {loose : Prop} {as : List (Expr Mark)} {callee : Callee} {name : String}
  {r : Expr Mark} {used : Ty}

/-- A member belongs to an object, and is a declared field or assumed. -/
theorem NameFound.member {m : Mark} (named : NameFound s m name)
    (kind : (refOf m).kind = .field ∨ (refOf m).kind = .assumed) : s.method.isStatic = false ∧
      ∀ t, fieldType? s.table name = some t →
        (refOf m).kind = .field ∧ (refOf m).type = t ∧ valueType m = t := by
  cases named with
  | var _ isVar ref => rcases isVar with rfl | rfl <;> simp [refOf, ref] at kind
  | field _ object found ref type values =>
    refine ⟨object, fun t isType => ?_⟩
    rw [fieldType?, found] at isType
    cases isType
    exact ⟨by simp [refOf, ref], by simp [refOf, ref], valueType_of_known type values.1⟩
  | assumed _ object missing =>
    refine ⟨object, fun t isType => ?_⟩
    rw [fieldType?, missing] at isType
    cases isType

theorem mem_of_mem_callOver {o : Operand}
    (member : some o ∈ (Inst.call (callOver callee dst name used vs)).operands) : o ∈ vs := by
  simp only [Inst.operands, callOver] at member
  split at member
  · simpa [callInst] using member
  · cases vs with
    | nil => simp [callInst] at member
    | cons v rest =>
      simp only [callInst, List.head?_cons, tail_cons, mem_cons, Option.some.injEq, mem_map,
        exists_eq_right] at member
      exact mem_cons.mpr member

theorem callInst_typed {m : Mark} {args : List Operand} (recv : Option Operand)
    (found : CallFound m as callee) (each : ∀ x ∈ as, Valued s loose x) (given : ComputedAll as args)
    (stored : ∀ d ∈ dst, d.type.Alike (callInst callee none none name [] used).ret) :
    (callInst callee dst recv name args used).Typed := by
  refine ⟨?_, stored⟩
  cases method : callee.method with
  | some f =>
    simp only [callInst, method, forall₂_map_left_iff]
    have params := found.args f method
    refine forall₂_iff_get.mpr ⟨?_, fun i here there => ?_⟩
    · exact given.length_eq.symm.trans params.length_eq
    · have bound : i < as.length := given.length_eq ▸ here
      exact ⟨_, rfl, (given.get bound here).alike (params.get bound there)⟩
  | none =>
    simp only [callInst, method, forall₂_map_left_iff, forall₂_map_right_iff]
    refine forall₂_iff_get.mpr ⟨rfl, fun i here _ => ⟨_, rfl, ?_⟩⟩
    have bound : i < as.length := given.length_eq ▸ here
    exact (given.get bound here).type ▸ (each _ (get_mem _ _)).hasValues.alike

theorem callOver_made {m : Mark} (found : CallFound m as callee)
    (fits : ReceiverFits loose callee r) (each : ∀ x ∈ as, Valued s loose x)
    (given : ComputedAll (callOperands callee r as) vs)
    (stored : ∀ d ∈ dst, d.type.Alike (callInst callee none none name [] used).ret) :
    Made s loose (.call (callOver callee dst name used vs)) := by
  have valued : dst.isSome = true → (callInst callee none none name [] used).ret.isVoid = false := by
    intro isSome
    obtain ⟨d, isDst⟩ := Option.isSome_iff_exists.mp isSome
    simpa [Ty.isVoid] using (stored d isDst).symm.ne_void
  have words : ∀ v t, some (.imm v t) ∈ (Inst.call (callOver callee dst name used vs)).operands →
      t.isWord = true := words_of_computed given fun _ => mem_of_mem_callOver
  cases isStatic : callee.isStatic with
  | true =>
    have same : callOver callee dst name used vs = callInst callee dst none name vs used := by
      simp [callOver, isStatic]
    rw [callOperands, if_pos isStatic] at given
    rw [same] at words ⊢
    have typed := callInst_typed none found each given stored
    refine ⟨⟨typed.args.length_eq.symm, by simp [callInst], by simp [callInst, isStatic], valued⟩,
      typed, fun c isCall onObject => ?_, words, Bool.noConfusion, fun _ => Inst.noConfusion⟩
    cases isCall
    exact absurd (by simp [callInst, isStatic]) onObject
  | false =>
    rw [callOperands, if_neg (by simp [isStatic])] at given
    obtain ⟨v, args, computed, rest, rfl⟩ := forall₂_cons_left_iff.mp given
    have same : callOver callee dst name used (v :: args) =
        callInst callee dst (some v) name args used := by
      simp [callOver, isStatic]
    rw [same] at words ⊢
    have typed := callInst_typed (some v) found each rest stored
    refine ⟨⟨typed.args.length_eq.symm, by simp [callInst], by simp [callInst, isStatic], valued⟩,
      typed, fun c isCall _ => ⟨v, ?_⟩, words, Bool.noConfusion, fun _ => Inst.noConfusion⟩
    cases isCall
    refine ⟨rfl, (fits.object isStatic).imp (fun ref => computed.type ▸ ref) fun unknown => ?_⟩
    obtain ⟨isLoose, owner, isInt⟩ := unknown
    exact ⟨isLoose, by simp [callInst, isStatic], owner, computed.type.trans isInt⟩

theorem lowered_constructorCall {field? : String → Option Ty} {isStatic : Bool} {ret : Ty} {d : Reg}
    {owner : String} (ref : d.type.isRef = true) :
    Lowered field? isStatic ret loose
      (.call ⟨.special, none, owner, some (.reg d), "<init>", [], [], .void⟩) where
  typed := ⟨.nil, nofun⟩
  receiver c same _ := by
    cases same
    exact ⟨.reg d, rfl, .inl ref⟩
  words := by simp [Inst.operands]
  object never := Bool.noConfusion never
  label _ same := Inst.noConfusion same

end

end JavaMinus.Code
