import JavaMinus.Proofs.LighterRounds
import JavaMinus.Proofs.SpelledTokens

/-!
# Texts show every change

Rounds of simplification are compared by the text of the method, not by its code. If the names of
registers and of the classes of their types are words, the text shows every change that a
round can make (`steady_of_settled`): where the text is as before, so is the code, and no pass of
the round has anything left to do.

**No instruction is gone.** Every instruction has a line, and putting constants in adds no line
break (`breaks_specialize`). A round that drops an instruction leaves fewer line breaks.

**No instruction is changed.** A line is made of fixed texts and of operands (`Inst.pieces`). A
number that is put in for a register starts with a character that no name starts with
(`eq_of_subst_text_append`), and the line of a computed instruction goes on differently from
that of the instruction that it comes from (`eq_of_line_append`).
-/

namespace JavaMinus.Code

open List

open Syntax (IsWord isLetter isNameByte)

variable {s : String} {o : Operand}

/-! ## Numbers and names -/

section

/-- A character that numbers are written with. -/
def isNumberChar (c : Char) : Bool := c.isDigit || c == '-'

theorem toString_int_chars (v : Int) :
    ∃ c cs, (toString v).toList = c :: cs ∧ ∀ d ∈ c :: cs, isNumberChar d = true := by
  have digits : ∀ n : Nat, ∃ c cs, n.repr.toList = c :: cs ∧ ∀ d ∈ c :: cs, isNumberChar d = true := by
    intro n
    rw [Nat.repr_eq_ofList_toDigits, String.toList_ofList]
    cases chars : Nat.toDigits 10 n with
    | nil => exact absurd chars Nat.toDigits_ne_nil
    | cons c cs =>
      refine ⟨c, cs, rfl, fun d member => ?_⟩
      rw [← chars] at member
      simp [isNumberChar, Nat.isDigit_of_mem_toDigits (by decide) (by decide) member]
  cases v with
  | ofNat n => exact digits n
  | negSucc n =>
    obtain ⟨c, cs, chars, each⟩ := digits (n + 1)
    refine ⟨'-', c :: cs, ?_, forall_mem_cons.mpr ⟨rfl, each⟩⟩
    rw [← chars]
    exact String.toList_append

theorem word_head (isWord : IsWord s) : ∃ c cs, s.toList = c :: cs ∧ isNumberChar c = false := by
  obtain ⟨b, bs, letter, _, rfl⟩ := isWord
  have each : ∀ n < 128, isLetter (UInt8.ofNat n) = true →
      isNumberChar (Char.ofNat n) = false := by decide +kernel
  have small : b.toNat < 128 := Syntax.nameByte_ascii (by simp [isNameByte, letter])
  refine ⟨Char.ofNat b.toNat, bs.map fun b => Char.ofNat b.toNat, ?_, ?_⟩
  · simp [Syntax.asciiText]
  · exact each b.toNat small (by rwa [UInt8.ofNat_toNat])

/-- The characters that set an operand of an operator, and a whole instruction, off from what
follows do not occur. -/
def Plain (cs : List Char) : Prop := ∀ c ∈ cs, c ≠ ' ' ∧ c ≠ ';'

theorem Plain.append {cs ds : List Char} (first : Plain cs) (second : Plain ds) :
    Plain (cs ++ ds) :=
  forall_mem_append.mpr ⟨first, second⟩

theorem plain_word (isWord : IsWord s) : Plain s.toList := by
  obtain ⟨b, bs, letter, more, rfl⟩ := isWord
  have each : ∀ n < 128, isNameByte (UInt8.ofNat n) = true →
      Char.ofNat n ≠ ' ' ∧ Char.ofNat n ≠ ';' := by decide +kernel
  intro c member
  simp only [Syntax.asciiText, String.toList_ofList, mem_map] at member
  obtain ⟨d, inside, rfl⟩ := member
  have named : isNameByte d = true := by
    rcases mem_cons.mp inside with rfl | later
    · simp [isNameByte, letter]
    · exact more d later
  exact each d.toNat (Syntax.nameByte_ascii named) (by rwa [UInt8.ofNat_toNat])

theorem plain_number (v : Int) : Plain (toString v).toList := by
  obtain ⟨c, cs, chars, each⟩ := toString_int_chars v
  rw [chars]
  intro d member
  have number := each d member
  constructor
  · rintro rfl
    revert number
    decide
  · rintro rfl
    revert number
    decide

/-- The class that a base names. -/
def className? : Base → Option String
  | .object name => some name
  | _ => none

/-- The class that a type names is a word. -/
def NamedType (t : Ty) : Prop := ∀ name ∈ className? t.base, IsWord name

instance : DecidablePred NamedType := fun t =>
  inferInstanceAs (Decidable (∀ name ∈ className? t.base, IsWord name))

theorem plain_suffix {t : Ty} (named : NamedType t) : Plain (suffix t).toList := by
  have base : Plain (baseSuffix t.base).toList := by
    cases kind : t.base with
    | object name =>
      rw [baseSuffix, String.toList_append]
      exact Plain.append (by simp [Plain]) (plain_word (named name (by rw [kind]; rfl)))
    | _ => simp [Plain, baseSuffix]
  unfold suffix
  split
  · rw [String.toList_append]
    exact Plain.append (by simp [Plain]) base
  · exact base

theorem plain_append_ne {cs ds xs ys : List Char} (first : Plain cs) (second : Plain ds) :
    cs ++ ' ' :: xs ≠ ds ++ ';' :: ys := by
  intro same
  induction cs generalizing ds with
  | nil =>
    cases ds with
    | nil => simp at same
    | cons d ds => exact (second d mem_cons_self).1 (List.cons.inj same).1.symm
  | cons c cs ih =>
    cases ds with
    | nil => exact (first c mem_cons_self).2 (List.cons.inj same).1
    | cons d ds =>
      exact ih (forall_mem_cons.mp first).2 (forall_mem_cons.mp second).2
        (List.cons.inj same).2

end

/-! ## The pieces of a line -/

/-- A part of a line: a text that does not depend on operands, or an operand. -/
inductive Piece where
  | fixed (s : String)
  | operand (o : Option Operand)

namespace Piece

/-- The text of a piece. -/
def text : Piece → String
  | fixed s => s
  | operand o => operandText o

/-- The piece with its operand replaced. -/
def map (f : Operand → Operand) : Piece → Piece
  | fixed s => fixed s
  | operand o => operand (o.bind fun x => some (f x))

end Piece

/-- The text of some pieces. -/
def piecesText (ps : List Piece) : String := String.join (ps.map Piece.text)

@[simp] theorem piecesText_nil : piecesText [] = "" := rfl

@[simp] theorem piecesText_cons (p : Piece) (ps : List Piece) :
    piecesText (p :: ps) = p.text ++ piecesText ps := String.join_cons

@[simp] theorem piecesText_append (ps qs : List Piece) :
    piecesText (ps ++ qs) = piecesText ps ++ piecesText qs := by
  rw [piecesText, map_append, String.join_append]
  rfl

/-- The suffix of an operand that is there. -/
def suffixOf (o : Option Operand) : String := o.elim "" fun x => suffix x.type

/-- The pieces that say on what a method is called. -/
def Call.subjectPiece (c : Call) : Piece :=
  match c.recv with
  | some r => .operand (some r)
  | none => .fixed c.owner

/-- The pieces of an instruction, other than a label. -/
def Inst.bodyPieces : Inst → List Piece
  | assign d s => [.fixed d.assignText, .operand s]
  | binary d op l r =>
    [.fixed d.assignText, .operand l, .fixed (" " ++ op.symbol ++ suffix d.type ++ " "), .operand r]
  | unary d op x => [.fixed d.assignText, .fixed (op.symbol ++ suffix d.type ++ " "), .operand x]
  | putField field s =>
    [.fixed ("putfield(this, " ++ field ++ suffixOf s ++ ", "), .operand s, .fixed ").V"]
  | load d a i =>
    [.fixed d.assignText, .operand a, .fixed "[", .operand i, .fixed ("]" ++ suffix d.type)]
  | store a i s =>
    [.operand a, .fixed "[", .operand i, .fixed ("]" ++ suffixOf s ++ " :=" ++ suffixOf s ++ " "),
      .operand s]
  | length d a => [.fixed (d.assignText ++ "arraylength("), .operand a, .fixed ").i32"]
  | call c =>
    .fixed ((c.dst.elim "" Reg.assignText) ++ c.kind.text ++ "(") :: c.subjectPiece ::
      .fixed (", " ++ Quoted.text c.method) ::
      (c.args.flatMap (fun a => [.fixed ", ", .operand a]) ++ [.fixed (")" ++ suffix c.ret)])
  | newArray d n => [.fixed (d.assignText ++ "new(array, "), .operand n, .fixed ").array.i32"]
  | branch c t => [.fixed "if (", .operand c, .fixed (") goto " ++ t)]
  | ret x => [.fixed ("ret" ++ suffixOf x ++ " "), .operand x]
  | inst => [.fixed (inst.text?.getD "")]

/-- The pieces of the line of an instruction. -/
def Inst.pieces : Inst → List Piece
  | label name => [.fixed ("\t" ++ name ++ ":\n")]
  | inst => .fixed "\t\t" :: (inst.bodyPieces ++ [.fixed ";\n"])

section Pieces

variable {inst : Inst} {f : Operand → Operand}

theorem Inst.text?_eq_bodyPieces (shown : inst.line?.isSome = true) (plain : ∀ n, inst ≠ .label n) :
    inst.text? = some (piecesText inst.bodyPieces) := by
  cases inst with
  | putField field s | store a i s =>
    cases s with
    | none => cases shown
    | some s => simp [text?, bodyPieces, Piece.text, suffixOf, operandText, String.append_assoc]
  | ret x =>
    cases x with
    | none => cases shown
    | some x => simp [text?, bodyPieces, Piece.text, suffixOf, operandText, String.append_assoc]
  | call c =>
    have args : piecesText (c.args.flatMap fun a => [.fixed ", ", .operand a]) =
        String.join (c.args.map fun a => ", " ++ operandText a) := by
      induction c.args with
      | nil => rfl
      | cons a rest ih => simp [ih, Piece.text, String.append_assoc]
    cases dst : c.dst <;> cases recv : c.recv <;>
      simp [text?, Call.text, bodyPieces, Call.subjectPiece, dst, recv, args, Piece.text,
        operandText, String.append_assoc]
  | label n => exact absurd rfl (plain n)
  | _ => simp [text?, bodyPieces, Piece.text, String.append_assoc]

theorem Inst.line_eq_pieces (shown : inst.line?.isSome = true) :
    inst.line = piecesText inst.pieces := by
  cases inst with
  | label n => rfl
  | _ =>
    simp [line, line?, pieces, text?_eq_bodyPieces shown (by simp), Piece.text,
      String.append_assoc]

theorem suffixOf_map (types : ∀ o, (f o).type = o.type) (o : Option Operand) :
    suffixOf (o.bind fun x => some (f x)) = suffixOf o := by
  cases o with
  | none => rfl
  | some o => simp [suffixOf, types]

theorem Inst.pieces_mapOperands (types : ∀ o, (f o).type = o.type) (inst : Inst) :
    (inst.mapOperands f).pieces = inst.pieces.map (Piece.map f) := by
  cases inst with
  | call c =>
    cases recv : c.recv <;>
      simp [mapOperands, bindOperands, pieces, bodyPieces, Call.subjectPiece, recv, Piece.map,
        map_flatMap, flatMap_map]
  | _ => simp [mapOperands, bindOperands, pieces, bodyPieces, Piece.map, suffixOf_map types, text?]

theorem Inst.operand_mem_pieces_iff :
    Piece.operand (some o) ∈ inst.pieces ↔ some o ∈ inst.operands := by
  cases inst with
  | call c => cases recv : c.recv <;> simp [pieces, bodyPieces, Call.subjectPiece, operands, recv]
  | _ => simp [pieces, bodyPieces, operands]

end Pieces

/-! ## Named instructions -/

/-- The register of an operand and the class of its type are words. -/
def Operand.Named (o : Operand) : Prop := (∀ r ∈ o.reg?, IsWord r.name) ∧ NamedType o.type

instance : DecidablePred Operand.Named := fun o =>
  inferInstanceAs (Decidable ((∀ r ∈ o.reg?, IsWord r.name) ∧ NamedType o.type))

/-- The registers that an instruction reads, and the classes of the types of what it reads and
writes, are words. -/
def Inst.Named (inst : Inst) : Prop :=
  (∀ o ∈ inst.operands, ∀ x ∈ o, x.Named) ∧ ∀ d ∈ inst.dst?, NamedType d.type

instance : DecidablePred Inst.Named := fun inst =>
  inferInstanceAs (Decidable
    ((∀ o ∈ inst.operands, ∀ x ∈ o, x.Named) ∧ ∀ d ∈ inst.dst?, NamedType d.type))

section Named

variable {regs : List String} {st : State} {inst inst' : Inst}

theorem Operand.Named.plain (named : o.Named) : Plain o.text.toList := by
  cases o with
  | reg r =>
    rw [text, Reg.text, String.toList_append]
    exact (plain_word (named.1 r rfl)).append (plain_suffix named.2)
  | imm v t =>
    rw [text, String.toList_append]
    exact (plain_number v.toInt).append (plain_suffix named.2)

theorem Operand.Named.subst (named : o.Named) : (st.subst regs o).Named :=
  ⟨fun r isReg => named.1 r (State.reg?_subst isReg), by rw [State.type_subst]; exact named.2⟩

theorem named_imm (v : Int32) {t : Ty} (named : NamedType t) : (Operand.imm v t).Named := by
  refine ⟨fun r isReg => ?_, named⟩
  cases isReg

theorem Inst.Named.mapOperands (named : inst.Named) : (inst.mapOperands (st.subst regs)).Named := by
  refine ⟨fun o member x isSome => ?_, fun d writes => named.2 d (by rwa [dst?_mapOperands] at writes)⟩
  rw [operands_mapOperands, mem_map] at member
  obtain ⟨source, inside, same⟩ := member
  cases source with
  | none =>
    cases same
    cases isSome
  | some y =>
    cases same
    cases isSome
    exact (named.1 _ inside y rfl).subst

theorem Inst.Named.specialize {st : Option State} (named : inst.Named)
    (left : inst.specialize regs st = some inst') : inst'.Named := by
  rcases specialize_cases left with rfl | ⟨known, _, computed⟩
  · exact named
  · have mapped : (inst.mapOperands (known.subst regs)).Named := named.mapOperands
    rcases evaluate_cases computed with rfl | ⟨d, v, writes, _, _, rfl⟩ | ⟨_, _, _, _, _, rfl⟩
    · exact mapped
    · refine ⟨fun o member x isSome => ?_, fun d' writes' => ?_⟩
      · cases mem_singleton.mp member
        cases isSome
        exact named_imm v (mapped.2 d writes)
      · cases writes'
        exact mapped.2 d writes
    · exact ⟨fun o member => (not_mem_nil member).elim, fun d writes => by cases writes⟩

end Named

/-! ## A changed instruction has another line -/

section

variable {regs : List String} {st : State} {inst inst' : Inst} {s' : String}

theorem eq_of_subst_text_append (named : o.Named)
    (same : (st.subst regs o).text ++ s' = o.text ++ s) : st.subst regs o = o := by
  cases o with
  | imm v t => rfl
  | reg r =>
    simp only [State.subst] at same ⊢
    split at same
    · rename_i v _
      obtain ⟨c, cs, number, each⟩ := toString_int_chars v.toInt
      obtain ⟨c', cs', word, other⟩ := word_head (named.1 r rfl)
      have chars := congrArg String.toList same
      simp only [Operand.text, Reg.text, String.toList_append, number, word,
        cons_append] at chars
      rw [(List.cons.inj chars).1.symm, each c mem_cons_self] at other
      cases other
    · rfl

theorem eq_of_piecesText_append {ps : List Piece}
    (named : ∀ o, Piece.operand (some o) ∈ ps → o.Named)
    (same : piecesText (ps.map (Piece.map (st.subst regs))) ++ s' = piecesText ps ++ s) :
    (∀ o, Piece.operand (some o) ∈ ps → st.subst regs o = o) ∧ s' = s := by
  induction ps with
  | nil => exact ⟨fun o member => (not_mem_nil member).elim, by simpa using same⟩
  | cons p ps ih =>
    have rest := ih fun o member => named o (mem_cons_of_mem p member)
    rw [map_cons, piecesText_cons, piecesText_cons, String.append_assoc,
      String.append_assoc] at same
    have unchanged : ∀ o, p = .operand (some o) → st.subst regs o = o := by
      rintro o rfl
      exact eq_of_subst_text_append (named o mem_cons_self) same
    have text : (p.map (st.subst regs)).text = p.text := by
      rcases p with t | _ | o
      · rfl
      · rfl
      · simp [Piece.map, unchanged o rfl]
    rw [text, String.append_right_inj] at same
    obtain ⟨later, tail⟩ := rest same
    refine ⟨fun o member => ?_, tail⟩
    rcases mem_cons.mp member with here | there
    · exact unchanged o here.symm
    · exact later o there

namespace Inst

theorem line_assign (d : Reg) (o : Operand) :
    (assign d (some o)).line = "\t\t" ++ (d.assignText ++ (o.text ++ ";\n")) := by
  simp [line, line?, text?, operandText, String.append_assoc]

theorem line_binary (d : Reg) (op : Operator) (l r : Option Operand) :
    (binary d op l r).line = "\t\t" ++ (d.assignText ++ (operandText l ++ (" " ++
      (op.symbol ++ (suffix d.type ++ (" " ++ (operandText r ++ ";\n"))))))) := by
  simp [line, line?, text?, String.append_assoc]

theorem line_unary (d : Reg) (op : Operator) (x : Option Operand) :
    (unary d op x).line = "\t\t" ++ (d.assignText ++ ((op.symbol ++ suffix d.type) ++ (" " ++
      (operandText x ++ ";\n")))) := by
  simp [line, line?, text?, String.append_assoc]

theorem line_branch (c : Option Operand) (t : String) :
    (branch c t).line = "\t\t" ++ ("if (" ++ (operandText c ++ (") goto " ++ (t ++ ";\n")))) := by
  simp [line, line?, text?, String.append_assoc]

theorem line_goto (t : String) : (goto t).line = "\t\t" ++ ("goto " ++ (t ++ ";\n")) := by
  simp [line, line?, text?, String.append_assoc]

end Inst

theorem text_append_ne {a b t : String} (first : Plain a.toList) (second : Plain b.toList) :
    a ++ (" " ++ s) ≠ b ++ (";\n" ++ t) := by
  intro same
  have chars := congrArg String.toList same
  simp only [String.toList_append] at chars
  exact plain_append_ne first second chars

/-- **A changed instruction shows** in the line, whatever follows. -/
theorem eq_of_line_append {st : Option State} (named : inst.Named)
    (shown : inst.line?.isSome = true) (left : inst.specialize regs st = some inst')
    (same : inst'.line ++ s' = inst.line ++ s) : inst' = inst ∧ s' = s := by
  rcases Inst.specialize_cases left with rfl | ⟨known, _, computed⟩
  · exact ⟨rfl, (String.append_right_inj _).mp same⟩
  rcases Inst.evaluate_inv computed with rfl | ⟨d, op, a, ta, b, tb, v, shape, rfl⟩ |
    ⟨d, a, ta, v, shape, rfl⟩ | ⟨c, ty, t, _, shape, rfl⟩
  · rw [Inst.line_eq_pieces (Inst.isSome_line?_mapOperands _ shown), Inst.line_eq_pieces shown,
      Inst.pieces_mapOperands (State.type_subst _ _)] at same
    obtain ⟨unchanged, tail⟩ := eq_of_piecesText_append
      (fun o member => named.1 _ (Inst.operand_mem_pieces_iff.mp member) o rfl) same
    exact ⟨Inst.mapOperands_eq_self fun o member =>
      unchanged o (Inst.operand_mem_pieces_iff.mpr member), tail⟩
  -- What is computed ends in a semicolon where the operator's line has a blank.
  · cases inst with
    | binary d' op' l r =>
      obtain ⟨rfl, rfl, left', _⟩ := Inst.binary.inj shape
      cases l with
      | none => cases left'
      | some l =>
        have typed := named.2 d' rfl
        have plain := (named.1 _ mem_cons_self l rfl).plain
        rw [Inst.line_assign, Inst.line_binary] at same
        simp only [String.append_assoc, String.append_right_inj] at same
        exact absurd same.symm (text_append_ne plain (named_imm v typed).plain)
    | _ => cases shape
  · cases inst with
    | unary d' op' x =>
      obtain ⟨rfl, rfl, _⟩ := Inst.unary.inj shape
      have typed := named.2 d' rfl
      have plain : Plain (Operator.not.symbol ++ suffix d'.type).toList := by
        rw [String.toList_append]
        exact Plain.append (by simp [Plain, Operator.symbol]) (plain_suffix typed)
      rw [Inst.line_assign, Inst.line_unary] at same
      simp only [String.append_assoc, String.append_right_inj] at same
      exact absurd (String.append_assoc.trans same.symm)
        (text_append_ne plain (named_imm v typed).plain)
    | _ => cases shape
  · cases inst with
    | branch cond t' =>
      refine absurd (congrArg String.toList same) ?_
      simp [Inst.line_goto, Inst.line_branch]
    | _ => cases shape

end

/-! ## Fewer instructions have fewer line breaks -/

section

/-- The number of line breaks in a text. -/
def breaks (s : String) : Nat := s.toList.count '\n'

@[simp] theorem breaks_append (s t : String) : breaks (s ++ t) = breaks s + breaks t := by
  simp [breaks, String.toList_append, count_append]

@[simp] theorem breaks_empty : breaks "" = 0 := rfl

/-- The line breaks in the lines of code. -/
def codeBreaks (code : List Inst) : Nat := breaks (String.join (code.map Inst.line))

@[simp] theorem codeBreaks_nil : codeBreaks [] = 0 := rfl

@[simp] theorem codeBreaks_cons (inst : Inst) (rest : List Inst) :
    codeBreaks (inst :: rest) = breaks inst.line + codeBreaks rest := by
  rw [codeBreaks, map_cons, String.join_cons, breaks_append]
  rfl

@[simp] theorem breaks_imm (v : Int32) (t : Ty) :
    breaks (Operand.imm v t).text = breaks (suffix t) := by
  obtain ⟨c, cs, chars, each⟩ := toString_int_chars v.toInt
  have none : breaks (toString v.toInt) = 0 := by
    rw [breaks, chars, count_eq_zero]
    intro member
    have number := each _ member
    revert number
    decide
  rw [Operand.text, breaks_append, none, Nat.zero_add]

variable {regs : List String} {st : State} {inst inst' : Inst}

theorem breaks_line_pos (shown : inst.line?.isSome = true) : 0 < breaks inst.line := by
  have last : breaks ";\n" = 1 := rfl
  have last' : breaks ":\n" = 1 := rfl
  rw [Inst.line_eq_pieces shown]
  cases inst with
  | label n => simp [Inst.pieces, Piece.text, last']
  | _ => simp [Inst.pieces, Piece.text, last]

theorem breaks_subst (o : Operand) : breaks (st.subst regs o).text ≤ breaks o.text := by
  cases o with
  | imm v t => exact Nat.le_refl _
  | reg r =>
    simp only [State.subst]
    split
    · rw [breaks_imm, Operand.text, Reg.text, breaks_append]
      exact Nat.le_add_left _ _
    · exact Nat.le_refl _

theorem breaks_piecesText (ps : List Piece) :
    breaks (piecesText (ps.map (Piece.map (st.subst regs)))) ≤ breaks (piecesText ps) := by
  induction ps with
  | nil => exact Nat.le_refl _
  | cons p ps ih =>
    have first : breaks (p.map (st.subst regs)).text ≤ breaks p.text := by
      rcases p with t | _ | o
      · exact Nat.le_refl _
      · exact Nat.le_refl _
      · exact breaks_subst o
    simp only [map_cons, piecesText_cons, breaks_append]
    omega

theorem breaks_specialize {st : Option State} (shown : inst.line?.isSome = true)
    (left : inst.specialize regs st = some inst') : breaks inst'.line ≤ breaks inst.line := by
  rcases Inst.specialize_cases left with rfl | ⟨known, _, computed⟩
  · exact Nat.le_refl _
  have mapped : breaks (inst.mapOperands (known.subst regs)).line ≤ breaks inst.line := by
    rw [Inst.line_eq_pieces (Inst.isSome_line?_mapOperands _ shown), Inst.line_eq_pieces shown,
      Inst.pieces_mapOperands (State.type_subst _ _)]
    exact breaks_piecesText _
  refine Nat.le_trans ?_ mapped
  rcases Inst.evaluate_inv computed with rfl | ⟨d, op, a, ta, b, tb, v, shape, rfl⟩ |
    ⟨d, a, ta, v, shape, rfl⟩ | ⟨c, ty, t, _, shape, rfl⟩
  · exact Nat.le_refl _
  · rw [shape, Inst.line_assign, Inst.line_binary]
    simp only [breaks_append, breaks_imm]
    omega
  · rw [shape, Inst.line_assign, Inst.line_unary]
    simp only [breaks_append, breaks_imm]
    omega
  · have spelled : breaks "goto " = 0 := rfl
    rw [shape, Inst.line_goto, Inst.line_branch]
    simp only [breaks_append, spelled]
    omega

end

/-! ## Code that a round leaves as it is -/

/-- Code whose lines are there and show every change. -/
def Legible (code : List Inst) : Prop := ∀ inst ∈ code, inst.Named ∧ inst.line?.isSome = true

/-- Code that has lost at least one line break with each instruction. -/
structure Trimmed (code' code : List Inst) : Prop where
  shorter : code'.length ≤ code.length
  breaks : codeBreaks code' + code.length ≤ codeBreaks code + code'.length

/-- What a pass leaves of legible code if it only drops instructions. -/
structure Shortened (code' code : List Inst) : Prop extends Trimmed code' code where
  legible : Legible code'
  full : code.length ≤ code'.length → code' = code

/-- No pass of a round has anything to do. -/
structure Steady (vars : List Var) (code : List Inst) : Prop where
  constants : propagate vars code = code
  jumps : dropIdleJumps code = code
  labels : dropIdleLabels code = code
  stores : dropDeadStores vars code = code

section Rounds

variable {vars : List Var} {code : List Inst} {keep : Nat → Inst → Option Inst} {m : Method}

theorem Legible.specialize {regs : List String} {st : Option State} {inst inst' : Inst}
    (legible : inst.Named ∧ inst.line?.isSome = true)
    (left : inst.specialize regs st = some inst') :
    inst'.Named ∧ inst'.line?.isSome = true :=
  ⟨legible.1.specialize left, Inst.isSome_line?_specialize legible.2 left⟩

theorem thinFrom_trimmed (each : ∀ i, ∀ inst ∈ code, ∀ inst', keep i inst = some inst' →
      breaks inst'.line ≤ breaks inst.line)
    (shown : ∀ inst ∈ code, inst.line?.isSome = true) (start : Nat) :
    Trimmed (thinFrom keep start code) code := by
  induction code generalizing start with
  | nil => exact ⟨Nat.le_refl _, Nat.le_refl _⟩
  | cons inst rest ih =>
    obtain ⟨shorter, fewer⟩ := ih (fun i inst member => each i inst (mem_cons_of_mem _ member))
      (fun inst member => shown inst (mem_cons_of_mem _ member)) (start + 1)
    have own := breaks_line_pos (shown inst mem_cons_self)
    rw [thinFrom_cons]
    cases kept : keep start inst with
    | none =>
      simp only [Option.toList_none, nil_append]
      refine ⟨?_, ?_⟩
      · rw [length_cons]
        omega
      · rw [length_cons, codeBreaks_cons]
        omega
    | some inst' =>
      have less := each start inst mem_cons_self inst' kept
      simp only [Option.toList_some, singleton_append]
      refine ⟨?_, ?_⟩
      · rw [length_cons, length_cons]
        omega
      · simp only [length_cons, codeBreaks_cons]
        omega

theorem shortened_of_drop (only : ∀ i inst inst', keep i inst = some inst' → inst' = inst)
    (legible : Legible code) : Shortened (thin keep code) code where
  toTrimmed := by
    refine thinFrom_trimmed (fun i inst _ inst' kept => ?_) (fun inst member => (legible inst member).2) 0
    rw [only i inst inst' kept]
  legible inst member := by
    obtain ⟨i, source, here, kept⟩ := mem_thin.mp member
    rw [only i source inst kept]
    exact legible source (mem_of_getElem? here)
  full long := by
    have inside : (thin keep code).Sublist code := thinFrom_sublist only 0 code
    exact inside.eq_of_length (Nat.le_antisymm inside.length_le long)

theorem shortened_dropIdleJumps (legible : Legible code) : Shortened (dropIdleJumps code) code := by
  rw [dropIdleJumps_eq]
  exact shortened_of_drop (fun _ _ _ => keepJump_some) legible

theorem shortened_dropIdleLabels (legible : Legible code) : Shortened (dropIdleLabels code) code := by
  rw [dropIdleLabels_eq]
  exact shortened_of_drop (fun _ _ _ => keepLabel_some) legible

theorem shortened_dropDeadStores (vars : List Var) (legible : Legible code) :
    Shortened (dropDeadStores vars code) code := by
  rw [dropDeadStores_eq]
  exact shortened_of_drop (fun _ _ _ => keepStore_some) legible

/-- A pass that puts constants in, drops nothing and does not show has changed nothing. -/
theorem thinFrom_eq_of_lines (puts : ∀ i inst inst', keep i inst = some inst' →
      ∃ regs st, inst.specialize regs st = some inst')
    (legible : Legible code) (start : Nat) (full : code.length ≤ (thinFrom keep start code).length)
    (same : String.join ((thinFrom keep start code).map Inst.line) =
      String.join (code.map Inst.line)) : thinFrom keep start code = code := by
  induction code generalizing start with
  | nil => rfl
  | cons inst rest ih =>
    have shorter : (thinFrom keep (start + 1) rest).length ≤ rest.length := length_thinFrom_le _ _
    have later : Legible rest := fun inst member => legible inst (mem_cons_of_mem _ member)
    rw [thinFrom_cons] at full same ⊢
    cases kept : keep start inst with
    | none =>
      rw [kept, Option.toList_none, nil_append, length_cons] at full
      omega
    | some inst' =>
      rw [kept, Option.toList_some, singleton_append] at full same
      rw [map_cons, map_cons, String.join_cons, String.join_cons] at same
      obtain ⟨named, shown⟩ := legible inst mem_cons_self
      obtain ⟨regs, st, left⟩ := puts start inst inst' kept
      obtain ⟨unchanged, tail⟩ := eq_of_line_append named shown left same
      rw [Option.toList_some, singleton_append, unchanged,
        ih later (start + 1) (Nat.le_of_succ_le_succ full) tail]

/-- **A round that does not show** has nothing to do. -/
theorem steady_of_lines (legible : Legible code)
    (same : String.join ((simplifyRound vars code).map Inst.line) =
      String.join (code.map Inst.line)) : Steady vars code := by
  have shown : ∀ inst ∈ code, inst.line?.isSome = true := fun inst member => (legible inst member).2
  have lines : codeBreaks (simplifyRound vars code) = codeBreaks code := congrArg breaks same
  unfold simplifyRound tidyLabels at same lines
  -- Each pass drops line breaks with the instructions that it drops.
  have first : Trimmed (propagate vars code) code := by
    rw [propagate_eq]
    exact thinFrom_trimmed
      (fun _ inst member _ left => breaks_specialize (shown inst member) left) shown 0
  have legible₁ : Legible (propagate vars code) := by
    rw [propagate_eq]
    intro inst' member
    obtain ⟨_, inst, here, left⟩ := mem_thin.mp member
    exact Legible.specialize (legible inst (mem_of_getElem? here)) left
  have second := shortened_dropIdleJumps legible₁
  have third := shortened_dropIdleLabels second.legible
  have fourth := shortened_dropDeadStores vars third.legible
  have shorter₁ := first.shorter
  have shorter₂ := second.shorter
  have shorter₃ := third.shorter
  have shorter₄ := fourth.shorter
  -- All line breaks are still there, so all instructions are.
  have long : code.length ≤
      (dropDeadStores vars (dropIdleLabels (dropIdleJumps (propagate vars code)))).length := by
    have := first.breaks
    have := second.breaks
    have := third.breaks
    have := fourth.breaks
    omega
  have jumps := second.full (by omega)
  have labels := third.full (by omega)
  have stores := fourth.full (by omega)
  rw [stores, labels, jumps] at same
  have constants : propagate vars code = code := by
    have full : code.length ≤ (propagate vars code).length := by omega
    rw [propagate_eq] at full same ⊢
    exact thinFrom_eq_of_lines (fun _ _ _ left => ⟨_, _, left⟩) legible 0 full same
  rw [labels, jumps] at stores
  rw [jumps] at labels
  rw [constants] at stores labels jumps
  exact ⟨constants, jumps, labels, stores⟩

theorem Steady.simplifyRound_eq (steady : Steady vars code) : simplifyRound vars code = code := by
  rw [simplifyRound, tidyLabels, steady.constants, steady.jumps, steady.labels, steady.stores]

theorem Legible.simplifyRound (legible : Legible code) : Legible (simplifyRound vars code) :=
  forall_mem_simplifyRound Legible.specialize legible

theorem Legible.isSome_text? (legible : Legible m.code) : m.text?.isSome = true :=
  isSome_text?_iff.mpr fun inst member => (legible inst member).2

/-- **Texts show every change.** A method whose names are words and whose text a round leaves as
it was has nothing left to simplify. -/
theorem steady_of_settled (legible : Legible m.code) (settled : m.Settled) :
    Steady m.vars m.code := by
  obtain ⟨text, shown⟩ := Option.isSome_iff_exists.mp legible.isSome_text?
  have before := (text?_eq_some_iff.mp shown).2
  have after := (text?_eq_some_iff.mp (settled.symm.trans shown)).2
  refine steady_of_lines legible ?_
  have same := after.trans before.symm
  rw [String.append_left_inj] at same
  exact (String.append_right_inj m.head).mp same

/-- The simplest form of a method whose names are words: the rounds end with code that no pass
changes, and what every round keeps holds of it. -/
theorem exists_steady (legible : Legible m.code) {P : List Inst → Prop} (start : P m.code)
    (keeps : ∀ code, P code → P (JavaMinus.Code.simplifyRound m.vars code)) :
    ∃ code, m.simplify? = some (pruneVars { m with code := code }) ∧ Legible code ∧
      Steady m.vars code ∧ P code := by
  obtain ⟨n, _, last, ends, simplest⟩ := rounds_end m
  have kept : ∃ code, last = { m with code := code } ∧ Legible code ∧ P code := by
    rw [← ends.reached]
    refine Function.Iterate.rec (fun m' => ∃ code, m' = { m with code := code } ∧ Legible code ∧
      P code) ⟨m.code, rfl, legible, start⟩ ?_ n
    rintro _ ⟨code, rfl, legible, holds⟩
    exact ⟨_, rfl, legible.simplifyRound, keeps code holds⟩
  obtain ⟨code, rfl, legible', holds⟩ := kept
  have steady : Steady m.vars code := steady_of_settled legible' ends.ended
  refine ⟨code, ?_, legible', steady, holds⟩
  rw [Method.simplify?, if_pos legible.isSome_text?, simplest, Method.round, steady.simplifyRound_eq]

end Rounds

end JavaMinus.Code
