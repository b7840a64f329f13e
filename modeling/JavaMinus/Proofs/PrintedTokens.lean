import JavaMinus.Syntax.Printer
import JavaMinus.Proofs.SpelledTokens

/-!
# The tokens of printed trees

`Expr.lexemes`, `Stmt.lexemes` and the like list the tokens of a tree without any
layout. Every readable tree has a printed form as long as its statements are not nested
too deep, and that form spells the lexemes of the tree (`Expr.Readable.written`,
`Stmt.Readable.written`, `File.Readable.written`). So the scanner takes the lexemes of a
file from its printed form (`scan_print`).
-/

namespace JavaMinus.Syntax

open List

open Lexeme (fixed)

variable {α : Type} {rest text : List Char} {ls : List Lexeme}

/-! ## The lexemes of a tree -/

/-- Lexemes in parentheses if asked for. -/
def enclosed (c : Bool) (ls : List Lexeme) : List Lexeme :=
  if c then fixed "(" :: (ls ++ [fixed ")"]) else ls

/-- Phrases with a comma before each, the first one apart. -/
def commaLexemes (isFirst : Bool) : List (List Lexeme) → List Lexeme
  | [] => []
  | ls :: rest => (if isFirst then [] else [fixed ","]) ++ (ls ++ commaLexemes false rest)

mutual

/-- The lexemes of an expression at a place that asks for a level. -/
def Expr.lexemes (outer : Nat) : Expr α → List Lexeme
  | .binary _ op l r =>
    enclosed (op.level < outer) (l.lexemes op.level ++ fixed op.symbol :: r.lexemes (op.level + 1))
  | .not _ x => enclosed (notLevel < outer) (fixed "!" :: x.lexemes notLevel)
  | .index _ a i => a.lexemes operandLevel ++ fixed "[" :: (i.lexemes 0 ++ [fixed "]"])
  | .length _ a => a.lexemes operandLevel ++ [fixed ".", Lexeme.name "length"]
  | .call _ r name as =>
    r.lexemes operandLevel ++ fixed "." :: .name name :: fixed "(" ::
        (commaLexemes true (Expr.lexemesEach as) ++ [fixed ")"])
  | .int _ v => [.number (toString v.toInt)]
  | .bool _ b => [fixed (if b then "true" else "false")]
  | .ident _ name => [.name name]
  | .this _ => [fixed "this"]
  | .newArray _ n => fixed "new" :: fixed "int" :: fixed "[" :: (n.lexemes 0 ++ [fixed "]"])
  | .newObject _ name => [fixed "new", Lexeme.name name, fixed "(", fixed ")"]
  | .hole => []

/-- The lexemes of each expression of a list. -/
def Expr.lexemesEach : List (Expr α) → List (List Lexeme)
  | [] => []
  | x :: rest => x.lexemes 0 :: Expr.lexemesEach rest

end

theorem Expr.lexemesEach_eq_map (xs : List (Expr α)) :
    Expr.lexemesEach xs = xs.map (Expr.lexemes 0) := by
  induction xs with
  | nil => rfl
  | cons x rest ih => rw [lexemesEach, ih, map_cons]

mutual

/-- The lexemes of a statement. -/
def Stmt.lexemes : Stmt α → List Lexeme
  | .block _ ss => fixed "\x7b" :: (Stmt.lexemesList ss ++ [fixed "\x7d"])
  | .ifElse _ c y n =>
    fixed "if" :: fixed "(" :: (c.lexemes 0 ++
      fixed ")" :: (y.lexemes ++ fixed "else" :: n.lexemes))
  | .while _ c b => fixed "while" :: fixed "(" :: (c.lexemes 0 ++ fixed ")" :: b.lexemes)
  | .assign _ t v => Lexeme.name t.name :: fixed "=" :: (v.lexemes 0 ++ [fixed ";"])
  | .arrayAssign _ t i v =>
    Lexeme.name t.name :: fixed "[" :: (i.lexemes 0 ++
      fixed "]" :: fixed "=" :: (v.lexemes 0 ++ [fixed ";"]))
  | .expr _ x => x.lexemes 0 ++ [fixed ";"]
  | .hole => []

/-- The lexemes of statements in a row. -/
def Stmt.lexemesList : List (Stmt α) → List Lexeme
  | [] => []
  | s :: rest => s.lexemes ++ Stmt.lexemesList rest

end

theorem Stmt.lexemesList_eq_flatMap (ss : List (Stmt α)) :
    Stmt.lexemesList ss = ss.flatMap Stmt.lexemes := by
  induction ss with
  | nil => rfl
  | cons s rest ih => rw [lexemesList, ih, flatMap_cons]

/-- The lexemes of a type. -/
def TypeExpr.lexemes (t : TypeExpr α) : List Lexeme :=
  wordLexeme t.name :: if t.array then [fixed "[", fixed "]"] else []

/-- The lexemes of a type and a name. -/
def VarDecl.lexemes (d : VarDecl α) : List Lexeme := d.type.lexemes ++ [Lexeme.name d.name]

/-- The lexemes of a declaration with its semicolon. -/
def VarDecl.lineLexemes (d : VarDecl α) : List Lexeme := d.lexemes ++ [fixed ";"]

/-- The lexemes of the `return` at the end of a body. -/
def resultLexemes : Option (Expr α) → List Lexeme
  | none => []
  | some x => fixed "return" :: (x.lexemes 0 ++ [fixed ";"])

/-- The lexemes of what stands between the braces of a method. -/
def Method.insideLexemes (m : Method α) : List Lexeme :=
  m.locals.flatMap VarDecl.lineLexemes ++ (m.body.flatMap Stmt.lexemes ++ resultLexemes m.result)

/-- The lexemes of a method. -/
def Method.lexemes (m : Method α) : List Lexeme :=
  fixed "public" :: ((if m.isStatic then [fixed "static"] else []) ++ (m.ret.lexemes ++
    Lexeme.name m.name :: fixed "(" :: (commaLexemes true (m.params.map VarDecl.lexemes) ++
      fixed ")" :: fixed "\x7b" :: (m.insideLexemes ++ [fixed "\x7d"]))))

/-- The lexemes of names joined by dots. -/
def dottedLexemes : List String → List Lexeme
  | [] => []
  | [name] => [.name name]
  | name :: rest => Lexeme.name name :: fixed "." :: dottedLexemes rest

/-- The lexemes of an import. -/
def Import.lexemes (i : Import α) : List Lexeme :=
  fixed "import" :: (dottedLexemes i.path ++ [fixed ";"])

/-- The lexemes of a class. -/
def Class.lexemes (c : Class α) : List Lexeme :=
  fixed "class" :: Lexeme.name c.name ::
    ((if c.super = "" then [] else [fixed "extends", Lexeme.name c.super]) ++
    fixed "\x7b" :: (c.fields.flatMap VarDecl.lineLexemes ++
      (c.methods.flatMap Method.lexemes ++ [fixed "\x7d"])))

/-- The lexemes of a file. -/
def File.lexemes (f : File α) : List Lexeme := f.imports.flatMap Import.lexemes ++ f.cls.lexemes

/-! ## Printed expressions -/

/-- There is a printed form, and it spells the lexemes before whatever ends a word. -/
def Written (p : Printed) (ls : List Lexeme) : Prop :=
  ∃ text, p = .ok text ∧ ∀ rest, Stops rest → Spells rest (text.toList ++ rest) ls

/-- There is a printed form, and it spells the lexemes before anything. -/
def WrittenLine (p : Printed) (ls : List Lexeme) : Prop :=
  ∃ text, p = .ok text ∧ ∀ rest, Spells rest (text.toList ++ rest) ls

theorem Written.within {p : Printed} (written : Written p ls) (part : Part) :
    Written (p.within part) ls := by
  obtain ⟨text, rfl, spells⟩ := written
  exact ⟨text, rfl, spells⟩

theorem WrittenLine.within {p : Printed} (written : WrittenLine p ls) (part : Part) :
    WrittenLine (p.within part) ls := by
  obtain ⟨text, rfl, spells⟩ := written
  exact ⟨text, rfl, spells⟩

theorem Written.parens {s : String}
    (written : ∀ rest, Stops rest → Spells rest (s.toList ++ rest) ls) (c : Bool)
    (stops : Stops rest) : Spells rest ((parens c s).toList ++ rest) (enclosed c ls) := by
  cases c with
  | false => exact written rest stops
  | true =>
    simp only [Syntax.parens, enclosed, if_true, String.toList_append, append_assoc]
    exact .layout "(" rfl ((written _ (.before rfl _)).append (.layout ")" rfl .done))

theorem written_args {as : List (Expr α)} (each : ∀ x ∈ as, Written (x.print 0) (x.lexemes 0))
    (i : Nat) : ∃ text, Expr.printArgs i as = .ok text ∧ (∀ rest, Stops rest →
      Spells rest (text.toList ++ rest) (commaLexemes (i = 0) (Expr.lexemesEach as))) ∧
      (i ≠ 0 → ∀ rest, Stops rest → Stops (text.toList ++ rest)) := by
  induction as generalizing i with
  | nil => exact ⟨_, rfl, fun rest _ => .done, fun _ rest stops => stops⟩
  | cons x as ih =>
    obtain ⟨first, others⟩ := forall_mem_cons.mp each
    obtain ⟨text, isText, spells⟩ := first.within (.arg i)
    obtain ⟨more, isMore, spellsMore, stopsMore⟩ := ih others (i + 1)
    rw [Expr.printArgs, isText, isMore]
    have both : ∀ rest, Stops rest → Spells rest (text.toList ++ (more.toList ++ rest))
        (x.lexemes 0 ++ commaLexemes false (Expr.lexemesEach as)) := by
      intro rest stops
      have later := spellsMore rest stops
      simp only [Nat.add_eq_zero_iff, one_ne_zero, and_false, decide_false] at later
      exact (spells _ (stopsMore (Nat.succ_ne_zero i) rest stops)).append later
    refine ⟨_, rfl, fun rest stops => ?_, fun later rest stops => ?_⟩
    · simp only [String.toList_append, append_assoc]
      by_cases start : i = 0
      · simpa [start, commaLexemes, Expr.lexemesEach] using both rest stops
      · simp only [start, if_false, decide_false]
        exact .layout ", " rfl (both rest stops)
    · simp only [later, if_false, String.toList_append, append_assoc]
      exact .before rfl _

theorem isName_length : IsName "length" := ⟨by decide, isWord_of_looks (by decide +kernel)⟩

theorem Expr.Readable.written {x : Expr α} (readable : x.Readable) (outer : Nat) :
    Written (x.print outer) (x.lexemes outer) := by
  induction readable generalizing outer with
  | @binary m op l r binary _ _ left right =>
    obtain ⟨ltext, isLeft, spellsLeft⟩ := (left op.level).within .left
    obtain ⟨rtext, isRight, spellsRight⟩ := (right (op.level + 1)).within .right
    rw [Expr.print, isLeft, isRight]
    refine ⟨_, rfl, fun rest => Written.parens (fun rest stops => ?_) _⟩
    simp only [String.toList_append, append_assoc]
    exact (spellsLeft _ (.before rfl _)).append (.operator binary (spellsRight rest stops))
  | @not m x _ inner =>
    obtain ⟨text, isText, spells⟩ := inner notLevel
    rw [Expr.print, isText]
    refine ⟨_, rfl, fun rest => Written.parens (fun rest stops => ?_) _⟩
    simp only [String.toList_append, append_assoc]
    exact .layout "!" rfl (spells rest stops)
  | @index m a i _ _ array index =>
    obtain ⟨atext, isArray, spellsArray⟩ := array operandLevel
    obtain ⟨itext, isIndex, spellsIndex⟩ := (index 0).within .index
    rw [Expr.print, isArray, isIndex]
    refine ⟨_, rfl, fun rest stops => ?_⟩
    simp only [String.toList_append, append_assoc]
    exact (spellsArray _ (.before rfl _)).append (.layout "[" rfl
      ((spellsIndex _ (.before rfl _)).append (.layout "]" rfl .done)))
  | @length m a _ array =>
    obtain ⟨atext, isArray, spellsArray⟩ := array operandLevel
    rw [Expr.print, isArray]
    refine ⟨_, rfl, fun rest stops => ?_⟩
    simp only [show ".length" = "." ++ "length" from rfl, String.toList_append, append_assoc]
    exact (spellsArray _ (.before rfl _)).append (.layout "." rfl (.name isName_length stops .done))
  | @call m r name as _ named _ recv args =>
    obtain ⟨rtext, isRecv, spellsRecv⟩ := (recv operandLevel).within .receiver
    obtain ⟨atext, isArgs, spellsArgs, _⟩ := written_args (fun x member => args x member 0) 0
    rw [Expr.print, isRecv, isArgs]
    refine ⟨_, rfl, fun rest stops => ?_⟩
    simp only [String.toList_append, append_assoc]
    exact (spellsRecv _ (.before rfl _)).append (.layout "." rfl (.name named (.before rfl _)
      (.layout "(" rfl ((spellsArgs _ (.before rfl _)).append (.layout ")" rfl .done)))))
  | @int m v nonneg =>
    obtain ⟨n, isNat⟩ := Int.eq_ofNat_of_zero_le nonneg
    refine ⟨_, rfl, fun rest stops => ?_⟩
    rw [Expr.lexemes, isNat]
    exact .number (isNumeral_toString n) stops .done
  | @bool m b =>
    refine ⟨_, rfl, fun rest stops => ?_⟩
    cases b <;> exact .keyword (by decide) stops .done
  | @ident m name named => exact ⟨_, rfl, fun rest stops => .name named stops .done⟩
  | @this m => exact ⟨_, rfl, fun rest stops => .keyword (by decide) stops .done⟩
  | @newArray m n _ len =>
    obtain ⟨text, isLen, spells⟩ := (len 0).within .len
    rw [Expr.print, isLen]
    refine ⟨_, rfl, fun rest stops => ?_⟩
    simp only [show "new int[" = "new" ++ (" " ++ ("int" ++ "[")) from rfl, String.toList_append,
      append_assoc]
    exact .keyword (by decide) (.before rfl _) (.layout " " rfl (.keyword
      (by decide) (.before rfl _) (.layout "[" rfl ((spells _ (.before rfl _)).append
        (.layout "]" rfl .done)))))
  | @newObject m name named =>
    refine ⟨_, rfl, fun rest stops => ?_⟩
    simp only [show "new " = "new" ++ " " from rfl, String.toList_append, append_assoc]
    exact .keyword (by decide) (.before rfl _) (.layout " " rfl (.name named
      (.before rfl _) (.layout "()" rfl .done)))

/-! ## Printed statements -/

mutual

/-- How many tabs the most indented line of a statement has more than its first line. -/
def Stmt.nesting : Stmt α → Nat
  | .block _ ss => Stmt.nestingList ss
  | .ifElse _ _ y n => max y.nesting n.nesting + 1
  | .while _ _ b => b.nesting + 1
  | .assign _ _ _ => 0
  | .arrayAssign _ _ _ _ => 0
  | .expr _ _ => 0
  | .hole => 0

/-- How many tabs the most indented line of statements between braces has more than the
line of the braces. -/
def Stmt.nestingList : List (Stmt α) → Nat
  | [] => 0
  | s :: rest => max (s.nesting + 1) (Stmt.nestingList rest)

end

/-- The tabs before the lines of a depth. -/
def tabs (depth : Nat) : String := String.ofList (List.replicate depth '\t')

theorem indent_eq {depth : Nat} (shallow : depth ≤ maxIndent) : indent depth = .ok (tabs depth) :=
  if_pos shallow

theorem Spells.indented (depth : Nat) (later : Spells rest text ls) :
    Spells rest ((tabs depth).toList ++ text) ls := by
  rw [tabs, String.toList_ofList]
  induction depth with
  | zero => exact later
  | succ depth ih => exact .gap (by decide) ih

theorem written_stmts {ss : List (Stmt α)} {depth : Nat}
    (each : ∀ s ∈ ss, ∀ depth, depth + s.nesting ≤ maxIndent →
      WrittenLine (s.print depth) s.lexemes)
    (shallow : depth + Stmt.nestingList ss ≤ maxIndent) :
    WrittenLine (Stmt.printList (depth + 1) ss) (Stmt.lexemesList ss) := by
  induction ss with
  | nil => exact ⟨_, rfl, fun rest => .done⟩
  | cons s ss ih =>
    obtain ⟨first, others⟩ := forall_mem_cons.mp each
    rw [Stmt.nestingList] at shallow
    obtain ⟨text, isText, spells⟩ := first (depth + 1) (by omega)
    obtain ⟨more, isMore, spellsMore⟩ := ih others (by omega)
    rw [Stmt.printList, isText, isMore]
    refine ⟨_, rfl, fun rest => ?_⟩
    rw [String.toList_append, append_assoc]
    exact (spells _).append (spellsMore rest)

/-- Every readable statement that is not nested too deep has a printed form, which spells
its lexemes. -/
theorem Stmt.Readable.written {s : Stmt α} (readable : s.Readable) :
    ∀ depth, depth + s.nesting ≤ maxIndent → WrittenLine (s.print depth) s.lexemes := by
  induction readable with
  | @block m ss _ each =>
    intro depth shallow
    obtain ⟨text, isText, spells⟩ := written_stmts each shallow
    rw [Stmt.print, indent_eq (by omega), isText]
    refine ⟨_, rfl, fun rest => ?_⟩
    simp only [String.toList_append, append_assoc]
    exact .indented _ (.layout "\x7b\n" rfl ((spells _).append (.indented _
      (.layout "\x7d\n" rfl .done))))
  | @ifElse m c y n cond _ _ yes no =>
    intro depth shallow
    rw [Stmt.nesting] at shallow
    obtain ⟨ctext, isCond, spellsCond⟩ := (cond.written 0).within .condition
    obtain ⟨ytext, isYes, spellsYes⟩ := (yes (depth + 1) (by omega)).within .thenBranch
    obtain ⟨ntext, isNo, spellsNo⟩ := (no (depth + 1) (by omega)).within .elseBranch
    rw [Stmt.print, indent_eq (by omega), isCond, isYes, isNo]
    refine ⟨_, rfl, fun rest => ?_⟩
    simp only [show "if (" = "if" ++ " (" from rfl, show "else\n" = "else" ++ "\n" from rfl,
      String.toList_append, append_assoc]
    exact .indented _ (.keyword (by decide) (.before rfl _) (.layout " (" rfl
      ((spellsCond _ (.before rfl _)).append (.layout ")\n" rfl ((spellsYes _).append (.indented _
        (.keyword (by decide) (.before rfl _) (.layout "\n" rfl
          (spellsNo rest)))))))))
  | @«while» m c b cond _ body =>
    intro depth shallow
    rw [Stmt.nesting] at shallow
    obtain ⟨ctext, isCond, spellsCond⟩ := (cond.written 0).within .condition
    obtain ⟨btext, isBody, spellsBody⟩ := (body (depth + 1) (by omega)).within .body
    rw [Stmt.print, indent_eq (by omega), isCond, isBody]
    refine ⟨_, rfl, fun rest => ?_⟩
    simp only [show "while (" = "while" ++ " (" from rfl, String.toList_append, append_assoc]
    exact .indented _ (.keyword (by decide) (.before rfl _) (.layout " (" rfl
      ((spellsCond _ (.before rfl _)).append (.layout ")\n" rfl (spellsBody rest)))))
  | @assign m t v named value =>
    intro depth shallow
    obtain ⟨text, isValue, spells⟩ := (value.written 0).within .value
    rw [Stmt.print, indent_eq (by omega), isValue]
    refine ⟨_, rfl, fun rest => ?_⟩
    simp only [String.toList_append, append_assoc]
    exact .indented _ (.name named (.before rfl _) (.layout " = " rfl
      ((spells _ (.before rfl _)).append (.layout ";\n" rfl .done))))
  | @arrayAssign m t i v named index value =>
    intro depth shallow
    obtain ⟨itext, isIndex, spellsIndex⟩ := (index.written 0).within .index
    obtain ⟨vtext, isValue, spellsValue⟩ := (value.written 0).within .value
    rw [Stmt.print, indent_eq (by omega), isIndex, isValue]
    refine ⟨_, rfl, fun rest => ?_⟩
    simp only [String.toList_append, append_assoc]
    exact .indented _ (.name named (.before rfl _) (.layout "[" rfl
      ((spellsIndex _ (.before rfl _)).append (.layout "] = " rfl
        ((spellsValue _ (.before rfl _)).append (.layout ";\n" rfl .done))))))
  | @expr m x value =>
    intro depth shallow
    obtain ⟨text, isText, spells⟩ := value.written 0
    rw [Stmt.print, indent_eq (by omega), isText]
    refine ⟨_, rfl, fun rest => ?_⟩
    simp only [String.toList_append, append_assoc]
    exact .indented _ ((spells _ (.before rfl _)).append (.layout ";\n" rfl .done))

/-! ## Printed declarations -/

section

variable {β : Type} {lex : β → List Lexeme}

/-- Each of the texts spells the lexemes of its item. -/
def EachSpelled (lex : β → List Lexeme) : List β → List String → Prop :=
  List.Forall₂ fun x text => ∀ rest, Spells rest (text.toList ++ rest) (lex x)

theorem mapM_written {xs : List β} (f : β → Printed) (lex : β → List Lexeme)
    (each : ∀ x ∈ xs, WrittenLine (f x) (lex x)) :
    ∃ texts, xs.mapM f = .ok texts ∧ EachSpelled lex xs texts := by
  induction xs with
  | nil => exact ⟨[], rfl, .nil⟩
  | cons x xs ih =>
    obtain ⟨⟨text, isText, spells⟩, others⟩ := forall_mem_cons.mp each
    obtain ⟨texts, areTexts, spelled⟩ := ih others
    refine ⟨text :: texts, ?_, .cons spells spelled⟩
    rw [mapM_cons, isText, areTexts]
    rfl

theorem EachSpelled.join {xs : List β} {texts : List String} (each : EachSpelled lex xs texts)
    (rest : List Char) : Spells rest ((String.join texts).toList ++ rest) (xs.flatMap lex) := by
  induction each with
  | nil => exact .done
  | cons first _ ih =>
    rw [String.join_cons, String.toList_append, append_assoc]
    exact (first _).append ih

theorem EachSpelled.intercalate {xs : List β} {texts : List String}
    (each : EachSpelled lex xs texts) (rest : List Char) :
    Spells rest (("\n".intercalate texts).toList ++ rest) (xs.flatMap lex) := by
  induction each with
  | nil => exact .done
  | @cons x text xs texts first others ih =>
    cases others with
    | nil =>
      rw [String.intercalate_singleton]
      exact (first rest).append .done
    | cons second more =>
      rw [String.intercalate_cons_cons, String.toList_append, String.toList_append,
        append_assoc, append_assoc]
      exact (first _).append (.layout "\n" rfl ih)

end

theorem TypeExpr.Readable.isWord {t : TypeExpr α} (readable : t.Readable) : IsWord t.name := by
  rcases readable.name with named | basic
  · exact named.bytes
  · have isReserved : ∀ s ∈ ["int", "boolean", "void"], s ∈ reserved := by decide
    exact isWord_of_reserved (isReserved _ basic)

theorem TypeExpr.Readable.spells {t : TypeExpr α} (readable : t.Readable) (stops : Stops rest) :
    Spells rest (t.print.toList ++ rest) t.lexemes := by
  unfold TypeExpr.print TypeExpr.lexemes
  split
  · rw [String.toList_append, append_assoc]
    exact .word readable.isWord (.before rfl _) (.layout "[]" rfl .done)
  · exact .word readable.isWord stops .done

theorem VarDecl.Readable.spells {d : VarDecl α} (readable : d.Readable) (stops : Stops rest) :
    Spells rest (d.print.toList ++ rest) d.lexemes := by
  rw [VarDecl.print, VarDecl.lexemes]
  simp only [String.toList_append, append_assoc]
  exact (readable.type.spells (.before rfl _)).append (.layout " " rfl
    (.name readable.name stops .done))

theorem written_decls {ds : List (VarDecl α)} (each : ∀ d ∈ ds, d.Readable) (depth : Nat)
    (shallow : depth ≤ maxIndent) :
    WrittenLine (printDecls depth ds) (ds.flatMap VarDecl.lineLexemes) := by
  have line : ∀ d ∈ ds, WrittenLine (do
      let tabs ← indent depth
      return tabs ++ d.print ++ ";\n") d.lineLexemes := by
    intro d member
    rw [indent_eq shallow]
    refine ⟨_, rfl, fun rest => ?_⟩
    simp only [String.toList_append, append_assoc]
    exact .indented _ (((each d member).spells (.before rfl _)).append (.layout ";\n" rfl .done))
  obtain ⟨texts, areTexts, spelled⟩ := mapM_written _ _ line
  rw [printDecls, areTexts]
  exact ⟨_, rfl, spelled.join⟩

theorem spells_params {ds : List (VarDecl α)} (each : ∀ d ∈ ds, d.Readable) (stops : Stops rest) :
    Spells rest ((", ".intercalate (ds.map VarDecl.print)).toList ++ rest)
      (commaLexemes true (ds.map VarDecl.lexemes)) := by
  have more : ∀ (d : VarDecl α) (ds : List (VarDecl α)), d.Readable → (∀ d ∈ ds, d.Readable) →
      Spells rest ((", ".intercalate (d.print :: ds.map VarDecl.print)).toList ++ rest)
        (d.lexemes ++ commaLexemes false (ds.map VarDecl.lexemes)) := by
    intro d ds first others
    induction ds generalizing d with
    | nil => exact (first.spells stops).append .done
    | cons e ds ih =>
      obtain ⟨second, others⟩ := forall_mem_cons.mp others
      rw [map_cons, String.intercalate_cons_cons, String.toList_append,
        String.toList_append, append_assoc, append_assoc]
      exact (first.spells (.before rfl _)).append (.layout ", " rfl (ih e second others))
  cases ds with
  | nil => exact .done
  | cons d ds =>
    obtain ⟨first, others⟩ := forall_mem_cons.mp each
    exact more d ds first others

theorem written_result {result : Option (Expr α)} (readable : ∀ x ∈ result, x.Readable)
    (depth : Nat) (shallow : depth ≤ maxIndent) :
    WrittenLine (printResult depth result) (resultLexemes result) := by
  cases result with
  | none => exact ⟨_, rfl, fun rest => .done⟩
  | some x =>
    obtain ⟨text, isText, spells⟩ := ((readable x rfl).written 0).within .result
    rw [printResult, indent_eq shallow, isText]
    refine ⟨_, rfl, fun rest => ?_⟩
    simp only [show "return " = "return" ++ " " from rfl, String.toList_append, append_assoc]
    exact .indented _ (.keyword (by decide) (.before rfl _) (.layout " " rfl
      ((spells _ (.before rfl _)).append (.layout ";\n" rfl .done))))

/-! ## Printed files -/

theorem Method.Readable.written {m : Method α} (readable : m.Readable)
    (shallow : 1 + Stmt.nestingList m.body ≤ maxIndent) : WrittenLine (m.print 1) m.lexemes := by
  obtain ⟨ltext, isLocals, spellsLocals⟩ :=
    written_decls (fun d member => (readable.locals d member).1) 2 (by decide)
  obtain ⟨btext, isBody, spellsBody⟩ :=
    (written_stmts (fun s member => (readable.body s member).written) shallow).within .body
  obtain ⟨rtext, isResult, spellsResult⟩ := written_result readable.result 2 (by decide)
  rw [Method.print, indent_eq (by decide), isLocals, isBody, isResult]
  refine ⟨_, rfl, fun rest => ?_⟩
  rw [Stmt.lexemesList_eq_flatMap] at spellsBody
  have inside : Spells rest (ltext.toList ++ (btext.toList ++ (rtext.toList ++
        ((tabs 1).toList ++ ("\x7d\n".toList ++ rest)))))
      (m.insideLexemes ++ [.fixed "\x7d"]) := by
    rw [Method.insideLexemes, append_assoc, append_assoc]
    exact (spellsLocals _).append ((spellsBody _).append ((spellsResult _).append
      (.indented 1 (.layout "\x7d\n" rfl .done))))
  have signature := (readable.ret.spells (.before rfl _)).append (.layout " " rfl
    (.name readable.name (.before rfl _) (.layout "(" rfl ((spells_params readable.params
      (.before rfl _)).append (.layout ") \x7b\n" rfl inside)))))
  simp only [show "public " = "public" ++ " " from rfl, String.toList_append, append_assoc]
  refine .indented 1 (.keyword (by decide) (.before rfl _) (.layout " " rfl ?_))
  cases m.isStatic with
  | false => exact signature
  | true =>
    simp only [if_true, show "static " = "static" ++ " " from rfl, String.toList_append,
      append_assoc]
    exact .keyword (by decide) (.before rfl _) (.layout " " rfl signature)

theorem spells_dotted {path : List String} (names : ∀ part ∈ path, IsName part) (stops : Stops rest) :
    Spells rest ((".".intercalate path).toList ++ rest) (dottedLexemes path) := by
  induction path with
  | nil => exact .done
  | cons name path ih =>
    obtain ⟨first, others⟩ := forall_mem_cons.mp names
    cases path with
    | nil => exact .name first stops .done
    | cons next path =>
      rw [String.intercalate_cons_cons, String.toList_append, String.toList_append,
        append_assoc, append_assoc]
      exact .name first (.before rfl _) (.layout "." rfl (ih others))

theorem spells_imports {is : List (Import α)} (names : ∀ i ∈ is, ∀ part ∈ i.path, IsName part)
    (rest : List Char) :
    Spells rest ((String.join (is.map fun i => "import " ++ i.qualified ++ ";\n")).toList ++ rest)
      (is.flatMap Import.lexemes) := by
  induction is with
  | nil => exact .done
  | cons i is ih =>
    obtain ⟨first, others⟩ := forall_mem_cons.mp names
    rw [map_cons, String.join_cons]
    simp only [show "import " = "import" ++ " " from rfl, String.toList_append,
      append_assoc, flatMap_cons]
    rw [Import.lexemes, cons_append, append_assoc]
    exact .keyword (by decide) (.before rfl _) (.layout " " rfl
      ((spells_dotted first (.before rfl _)).append (.layout ";\n" rfl (ih others))))

theorem Spells.emptyLine (c : Prop) [Decidable c] (later : Spells rest text ls) :
    Spells rest ((if c then "" else "\n").toList ++ text) ls := by
  split
  · exact later
  · exact .layout "\n" rfl later

theorem Class.Readable.spells_names {c : Class α} (readable : c.Readable) (stops : Stops text)
    (later : Spells rest text ls) :
    Spells rest (c.name.toList ++
        ((if c.super = "" then "" else " extends " ++ c.super).toList ++ text))
      (Lexeme.name c.name ::
        ((if c.super = "" then [] else [fixed "extends", Lexeme.name c.super]) ++ ls)) := by
  by_cases none : c.super = ""
  · rw [if_pos none, if_pos none]
    exact .name readable.name stops later
  · rw [if_neg none, if_neg none]
    simp only [show " extends " = " " ++ ("extends" ++ " ") from rfl, String.toList_append,
      append_assoc]
    exact .name readable.name (.before rfl _) (.layout " " rfl (.keyword (by decide)
      (.before rfl _) (.layout " " rfl (.name (readable.super.resolve_left none) stops later))))

/-- Every readable file whose statements are not nested too deep has a printed form, which
spells its lexemes. -/
theorem File.Readable.written {f : File α} (readable : f.Readable)
    (shallow : ∀ m ∈ f.cls.methods, 1 + Stmt.nestingList m.body ≤ maxIndent) :
    WrittenLine f.print f.lexemes := by
  obtain ⟨ftext, isFields, spellsFields⟩ :=
    written_decls (fun d member => (readable.cls.fields d member).1) 1 (by decide)
  obtain ⟨texts, areMethods, spelled⟩ := mapM_written
    (fun m : Method α => (m.print 1).within (.method m.name)) Method.lexemes
    fun m member => ((readable.cls.methods m member).written (shallow m member)).within _
  rw [File.print, isFields, areMethods]
  refine ⟨_, rfl, fun rest => ?_⟩
  have inside := Spells.layout " \x7b\n" rfl ((spellsFields _).append (.emptyLine
    (f.cls.fields.isEmpty || texts.isEmpty) ((spelled.intercalate _).append
      (.layout "\x7d\n" rfl (.done : Spells rest rest [])))))
  have named := readable.cls.spells_names (.before rfl _) inside
  simp only [show "class " = "class" ++ " " from rfl, String.toList_append, append_assoc]
  exact (spells_imports (fun i member => (readable.imports i member).2) _).append
    (.emptyLine _ (.keyword (by decide) (.before rfl _) (.layout " " rfl named)))

theorem scan_print {f : File α} (readable : f.Readable)
    (shallow : ∀ m ∈ f.cls.methods, 1 + Stmt.nestingList m.body ≤ maxIndent) :
    ∃ text, f.print = .ok text ∧ HasLexemes text.toUTF8.toList f.lexemes := by
  obtain ⟨text, isText, spells⟩ := readable.written shallow
  have whole := spells []
  rw [append_nil] at whole
  exact ⟨text, isText, whole.scan_text⟩

end JavaMinus.Syntax
