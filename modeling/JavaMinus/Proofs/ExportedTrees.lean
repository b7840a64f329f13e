import JavaMinus.Typing.Export
import JavaMinus.Proofs.IndexedTables
import JavaMinus.Proofs.PrintedTokens
import JavaMinus.Proofs.PassedTrees

/-!
# The exported tree can be read back

The parts of a file are its declarations, statements and expressions (`Part`). The export of a part
of a file that was read has one child for each part directly below it, in source order
(`Sound.outline_eq`). What a node says of itself and the parts at its children make up the part
again, apart from the places of types (`Sound.assemble_eq`), so the file can be read back from its
export (`read_outline`), whatever the checker found out about it.
-/

namespace JavaMinus.Typing

open Syntax List

variable {α β : Type}

/-! ## Parts -/

/-- A part of a file. -/
inductive Part (α : Type) where
  | file (f : File α)
  | imported (i : Import α)
  | cls (c : Syntax.Class α)
  | var (d : VarDecl α)
  | param (d : VarDecl α)
  | method (m : Method α)
  | stmt (s : Stmt α)
  | target (t : Target α)
  | result (x : Expr α)
  | expr (x : Expr α)

namespace Part

/-- The parts directly below a part, in source order. -/
def parts : Part α → List (Part α)
  | file f => f.imports.map imported ++ [cls f.cls]
  | cls c => c.fields.map var ++ c.methods.map method
  | method m => m.params.map param ++ m.locals.map var ++ m.body.map stmt ++
      m.result.toList.map result
  | stmt (.block _ ss) => ss.map stmt
  | stmt (.ifElse _ c y n) => [expr c, stmt y, stmt n]
  | stmt (.while _ c b) => [expr c, stmt b]
  | stmt (.assign _ t v) => [target t, expr v]
  | stmt (.arrayAssign _ t i v) => [target t, expr i, expr v]
  | stmt (.expr _ x) => [expr x]
  | result x => [expr x]
  | expr x => x.parts.map expr
  | _ => []

/-- The part with every mark changed. -/
def map (g : α → β) : Part α → Part β
  | file f => file (f.map g)
  | imported i => imported ⟨g i.mark, i.path⟩
  | cls c => cls (c.map g)
  | var d => var (d.map g)
  | param d => param (d.map g)
  | method m => method (m.map g)
  | stmt s => stmt (s.map g)
  | target t => target (t.map g)
  | result x => result (x.map g)
  | expr x => expr (x.map g)

theorem parts_map (g : α → β) (p : Part α) : (p.map g).parts = p.parts.map (map g) := by
  cases p with
  | stmt s => cases s <;> simp [map, parts, Stmt.map, stmt_mapList_eq_map]
  | expr x => cases x <;> simp [map, parts, Expr.map, Expr.parts, mapList_eq_map]
  | method m => simp [map, parts, Method.map, stmt_mapList_eq_map]; cases m.result <;> rfl
  | _ => simp [map, parts, File.map, Class.map, Function.comp_def]

/-- A part that can be written. -/
def Readable : Part α → Prop
  | file f => f.Readable
  | imported i => i.path ≠ [] ∧ ∀ part ∈ i.path, IsName part
  | cls c => c.Readable
  | var d | param d => d.Readable
  | method m => m.Readable
  | stmt s => s.Readable
  | target _ => True
  | result x | expr x => x.Readable

theorem Readable.parts {p : Part α} (readable : p.Readable) : ∀ q ∈ p.parts, q.Readable := by
  cases p with
  | file f =>
    exact forall_mem_append.mpr
      ⟨forall_mem_map.mpr readable.imports, forall_mem_singleton.mpr readable.cls⟩
  | cls c =>
    have fields := fun d member => (readable.fields d member).1
    simpa [Part.parts, Readable, or_imp, forall_and] using ⟨fields, readable.methods⟩
  | method m =>
    have locals := fun d member => (readable.locals d member).1
    simpa [Part.parts, Readable, or_imp, forall_and] using
      ⟨readable.params, locals, readable.body, readable.result⟩
  | stmt s => cases readable <;> simp_all [Part.parts, Readable]
  | result x => exact forall_mem_singleton.mpr readable
  | expr x => cases readable <;> simp_all [Part.parts, Expr.parts, Readable]
  | imported | var | param | target => simp [Part.parts]

/-- The node of a part. -/
def outline : Part Mark → Outline
  | file f => exportFile f
  | imported i => .node { kind := "Import", pos := i.mark.pos, name := i.qualified } []
  | cls c => exportClass c
  | var d => exportVar "Var" d
  | param d => exportVar "Param" d
  | method m => exportMethod m
  | stmt s => (exportStmt s).headD .null
  | target t => exportTarget t
  | result x => (exportResult (some x)).headD .null
  | expr x => exportExpr x

/-- A part that could be written without the findings of the checker. -/
def Sound (p : Part Mark) : Prop := (p.map Mark.pos).Readable

theorem Sound.parts {p : Part Mark} (sound : p.Sound) : ∀ q ∈ p.parts, q.Sound := by
  have each := Readable.parts sound
  rwa [parts_map, forall_mem_map] at each

end Part

/-! ## Nodes -/

theorem exportExprs_eq (xs : List (Expr Mark)) : exportExprs xs = xs.map exportExpr := by
  induction xs with
  | nil => rfl
  | cons x rest ih => rw [exportExprs, ih, map_cons]

theorem exportPart_eq {x : Expr Mark} (sound : (Part.expr x).Sound) :
    exportPart x = [exportExpr x] := by
  cases x with
  | hole => cases sound
  | _ => rfl

theorem exportStmt_eq {s : Stmt Mark} (sound : (Part.stmt s).Sound) :
    exportStmt s = [(Part.stmt s).outline] := by
  cases s with
  | hole => cases sound
  | _ => rfl

theorem exportStmts_eq {ss : List (Stmt Mark)} (each : ∀ s ∈ ss, (Part.stmt s).Sound) :
    exportStmts ss = (ss.map Part.stmt).map Part.outline := by
  induction ss with
  | nil => rfl
  | cons s rest ih =>
    obtain ⟨first, others⟩ := forall_mem_cons.mp each
    rw [exportStmts, exportStmt_eq first, ih others]
    rfl

theorem exportStmt_node {s : Stmt Mark} (sound : (Part.stmt s).Sound) :
    ∃ e, exportStmt s = [.node e ((Part.stmt s).parts.map Part.outline)] := by
  have each := sound.parts
  cases s with
  | hole => cases sound
  | block =>
    rw [exportStmt, exportStmts_eq (forall_mem_map.mp each)]
    exact ⟨_, rfl⟩
  | _ =>
    simp only [Part.parts, forall_mem_cons] at each
    simp only [exportStmt, exportPart_eq, exportStmt_eq, each]
    exact ⟨_, rfl⟩

/-- What a node says of itself. -/
def Outline.entry : Outline → Entry
  | .null => default
  | .node e _ => e

/-- **A node has one child for each part below its part, in source order.** -/
theorem Part.Sound.outline_eq {p : Part Mark} (sound : p.Sound) :
    p.outline = .node p.outline.entry (p.parts.map Part.outline) := by
  have each := sound.parts
  cases p with
  | file f | cls c =>
    simp only [Part.parts, map_append, map_map]
    rfl
  | method m =>
    have result : exportResult m.result = (m.result.toList.map Part.result).map Part.outline := by
      cases m.result <;> rfl
    have body : ∀ s ∈ m.body, (Part.stmt s).Sound :=
      fun s member => each (.stmt s) (by simp [Part.parts, member])
    simp only [Part.outline, exportMethod, exportStmts_eq body, result, Part.parts, map_append,
      map_map]
    rfl
  | stmt s =>
    obtain ⟨e, node⟩ := exportStmt_node sound
    rw [Part.outline, node]
    rfl
  | expr x =>
    cases x with
    | hole => cases sound
    | call =>
      simp [Part.outline, exportExpr, exportExprs_eq, Part.parts, Expr.parts, Outline.entry,
        Function.comp_def]
    | _ => rfl
  | imported | var | param | target | result => rfl

/-! ## Reading back -/

/-- What an entry says apart from the findings of the checker. -/
def Entry.bare (e : Entry) : Entry :=
  { e with ref := "", type := if e.kind ∈ ["Var", "Param", "Method"] then e.type else "" }

/-- The type with a text. -/
def readType (text : String) : TypeExpr Pos :=
  ⟨{}, String.ofList (text.toList.takeWhile (· != '[')), text.toList.contains '['⟩

/-- The declaration with an entry. -/
def readVar (e : Entry) : VarDecl Pos := ⟨e.pos, readType e.type, e.name⟩

/-- The part with an entry and parts below it. -/
def assemble (e : Entry) (ps : List (Part Pos)) : Part Pos :=
  match e.kind, ps with
  | "Program", _ => .file ⟨e.pos, ps.filterMap fun | .imported i => some i | _ => none,
      (ps.filterMap fun | .cls c => some c | _ => none).headD default⟩
  | "Import", _ => .imported ⟨e.pos, (e.name.toList.splitOn '.').map String.ofList⟩
  | "Class", _ => .cls ⟨e.pos, e.name, e.value, ps.filterMap fun | .var d => some d | _ => none,
      ps.filterMap fun | .method m => some m | _ => none⟩
  | "Var", _ => .var (readVar e)
  | "Param", _ => .param (readVar e)
  | "Method", _ => .method {
      mark := e.pos, isStatic := e.value = "static", ret := readType e.type, name := e.name
      params := ps.filterMap fun | .param d => some d | _ => none
      locals := ps.filterMap fun | .var d => some d | _ => none
      body := ps.filterMap fun | .stmt s => some s | _ => none
      result := (ps.filterMap fun | .result x => some x | _ => none).head? }
  | "Return", [.expr x] => .result x
  | "Block", _ => .stmt (.block e.pos (ps.filterMap fun | .stmt s => some s | _ => none))
  | "If", [.expr c, .stmt y, .stmt n] => .stmt (.ifElse e.pos c y n)
  | "While", [.expr c, .stmt b] => .stmt (.while e.pos c b)
  | "Assign", [.expr (.ident p name), .expr v] => .stmt (.assign e.pos ⟨p, name⟩ v)
  | "ArrayAssign", [.expr (.ident p name), .expr i, .expr v] =>
    .stmt (.arrayAssign e.pos ⟨p, name⟩ i v)
  | "ExprStmt", [.expr x] => .stmt (.expr e.pos x)
  | "Binary", [.expr l, .expr r] => .expr (.binary e.pos (.ofSymbol e.value) l r)
  | "Not", [.expr x] => .expr (.not e.pos x)
  | "Index", [.expr a, .expr i] => .expr (.index e.pos a i)
  | "Length", [.expr a] => .expr (.length e.pos a)
  | "Call", .expr r :: as =>
    .expr (.call e.pos r e.name (as.filterMap fun | .expr x => some x | _ => none))
  | "Int", _ => .expr (.int e.pos (.ofInt (digitsValue e.value)))
  | "Bool", _ => .expr (.bool e.pos (e.value = "true"))
  | "Ident", _ => .expr (.ident e.pos e.name)
  | "This", _ => .expr (.this e.pos)
  | "NewArray", [.expr n] => .expr (.newArray e.pos n)
  | "NewObject", _ => .expr (.newObject e.pos e.name)
  | _, _ => .expr .hole

mutual

/-- A node without the findings of the checker. -/
def Outline.bare : Outline → Outline
  | .null => .null
  | .node e children => .node e.bare (bareAll children)

/-- Nodes without the findings of the checker. -/
def Outline.bareAll : List Outline → List Outline
  | [] => []
  | x :: rest => x.bare :: bareAll rest

end

mutual

/-- The part at a node. -/
def Outline.read : Outline → Part Pos
  | .null => .expr .hole
  | .node e children => assemble e (readAll children)

/-- The parts at nodes. -/
def Outline.readAll : List Outline → List (Part Pos)
  | [] => []
  | x :: rest => x.read :: readAll rest

end

theorem readAll_bareAll (nodes : List Outline) :
    Outline.readAll (Outline.bareAll nodes) = nodes.map fun x => x.bare.read := by
  induction nodes with
  | nil => rfl
  | cons x rest ih => rw [Outline.bareAll, Outline.readAll, ih, map_cons]

/-! ## Places of types -/

/-- The type without its place. -/
def unplacedType (t : TypeExpr Pos) : TypeExpr Pos := { t with mark := {} }

/-- The declaration without the place of its type. -/
def unplacedVar (d : VarDecl Pos) : VarDecl Pos := { d with type := unplacedType d.type }

/-- The method without the places of types. -/
def unplacedMethod (m : Method Pos) : Method Pos :=
  { m with ret := unplacedType m.ret, params := m.params.map unplacedVar,
           locals := m.locals.map unplacedVar }

/-- The class without the places of types. -/
def unplacedClass (c : Syntax.Class Pos) : Syntax.Class Pos :=
  { c with fields := c.fields.map unplacedVar, methods := c.methods.map unplacedMethod }

/-- The file without the places of types. -/
def unplaced (f : File Pos) : File Pos := { f with cls := unplacedClass f.cls }

/-- The part as it is read back. The name that is assigned to is read as an expression. -/
def Part.readBack : Part Mark → Part Pos
  | file f => file (unplaced (f.map Mark.pos))
  | imported i => imported ⟨i.mark.pos, i.path⟩
  | cls c => cls (unplacedClass (c.map Mark.pos))
  | var d => var (unplacedVar (d.map Mark.pos))
  | param d => param (unplacedVar (d.map Mark.pos))
  | method m => method (unplacedMethod (m.map Mark.pos))
  | stmt s => stmt (s.map Mark.pos)
  | target t => expr (.ident t.mark.pos t.name)
  | result x => result (x.map Mark.pos)
  | expr x => expr (x.map Mark.pos)

theorem readType_text (t : TypeExpr α) (readable : t.Readable) :
    readType t.ty.text = ⟨{}, t.name, t.array⟩ := by
  have plain := readable.isWord.no_sign (show '[' ∈ _ by decide)
  have before : ∀ c ∈ t.name.toList, (c != '[') = true :=
    fun c member => bne_iff_ne.mpr fun same => plain (same ▸ member)
  rw [TypeExpr.ty, text_named, readType]
  cases t.array with
  | false => simp [plain, takeWhile_eq_self_iff.mpr before]
  | true => simp [takeWhile_append_of_pos before]

theorem splitOn_qualified {i : Import α} (filled : i.path ≠ [])
    (names : ∀ part ∈ i.path, IsName part) :
    (i.qualified.toList.splitOn '.').map String.ofList = i.path := by
  have plain : ∀ l ∈ i.path.map String.toList, '.' ∉ l := by
    intro l member
    obtain ⟨part, inside, rfl⟩ := mem_map.mp member
    exact IsWord.no_sign (names part inside).bytes (by decide)
  rw [Import.qualified, String.toList_intercalate, show ".".toList = ['.'] from rfl,
    splitOn_intercalate '.' plain (by simpa using filled)]
  simp

section Assembling

attribute [local simp] Part.outline Outline.entry Entry.bare assemble.eq_def Part.parts Part.readBack
  Function.comp_def filterMap_eq_map' stmt_mapList_eq_map mapList_eq_map

theorem readVar_exportVar {d : VarDecl Mark} (readable : (d.map Mark.pos).Readable) {kind : String}
    (declares : kind = "Var" ∨ kind = "Param") :
    readVar (exportVar kind d).entry.bare = unplacedVar (d.map Mark.pos) := by
  rcases declares with rfl | rfl
  all_goals exact congrArg (VarDecl.mk _ · _) (readType_text (d.map Mark.pos).type readable.type)

/-- **A node and the parts below it make up its part.** -/
theorem Part.Sound.assemble_eq {p : Part Mark} (sound : p.Sound) :
    assemble p.outline.entry.bare (p.parts.map Part.readBack) = p.readBack := by
  cases p with
  | file f => simp [exportFile, File.map, unplaced]
  | imported i =>
    exact congrArg (imported ⟨_, ·⟩) (splitOn_qualified (i := ⟨i.mark.pos, i.path⟩) sound.1 sound.2)
  | cls c => simp [exportClass, Class.map, unplacedClass]
  | var d => exact congrArg var (readVar_exportVar sound (.inl rfl))
  | param d => exact congrArg param (readVar_exportVar sound (.inr rfl))
  | method m =>
    simp [exportMethod, Method.map, unplacedMethod]
    exact readType_text (m.map Mark.pos).ret sound.ret
  | stmt s =>
    cases s with
    | hole => cases sound
    | _ => simp [exportStmt, Stmt.map, Target.map]
  | expr x =>
    cases x <;> cases sound <;> simp [exportExpr, exprEntry, nameEntry, Expr.parts, Expr.map]
    case binary.binary op _ _ level _ _ =>
      refine Operator.ofSymbol_symbol ?_
      rintro s rfl
      exact level rfl
    case int.int v nonneg =>
      have value : digitsValue v.toInt.repr = v.toInt := by
        rw [← Int.toNat_of_nonneg nonneg]
        exact congrArg _ (digitsValue_toString _)
      rw [value, Int32.ofInt_toInt]
    case bool.bool b => cases b <;> rfl
  | target t | result x => rfl

end Assembling

theorem read_outline (p : Part Mark) (sound : p.Sound) : p.outline.bare.read = p.readBack := by
  have each : ∀ q ∈ p.parts, q.outline.bare.read = q.readBack := by
    intro q member
    have smaller : sizeOf q.outline < sizeOf p.outline := by
      rw [sound.outline_eq]
      have := sizeOf_lt_of_mem (mem_map_of_mem (f := Part.outline) member)
      simp only [Outline.node.sizeOf_spec]
      omega
    exact read_outline q (sound.parts q member)
  rw [sound.outline_eq, Outline.bare, Outline.read, readAll_bareAll, map_map]
  simp only [Function.comp_def]
  rw [map_congr_left each]
  exact sound.assemble_eq
termination_by sizeOf p.outline

/-! ## Files -/

section Marked

variable {g : α → β} {h : β → α} (inverse : ∀ a, h (g a) = a)

include inverse

theorem map_expr_inverse (x : Expr α) : (x.map g).map h = x := by
  induction x using Expr.partsInduction with
  | step x parts =>
    cases x <;> simp only [Expr.parts, forall_mem_cons] at parts
    all_goals simp [Expr.map, mapList_eq_map, Function.comp_def, inverse, parts]
    case call => exact (map_congr_left parts.2).trans (map_id' _)

theorem map_stmt_inverse (s : Stmt α) : (s.map g).map h = s := by
  induction s using Stmt.partsInduction with
  | step s parts =>
    cases s <;> simp only [Stmt.parts, forall_mem_cons] at parts
    all_goals simp [Stmt.map, Target.map, stmt_mapList_eq_map, Function.comp_def, inverse, parts,
      map_expr_inverse inverse]
    case block => exact (map_congr_left parts).trans (map_id' _)

theorem map_file_inverse (f : File α) : (f.map g).map h = f := by
  simp [File.map, Class.map, Method.map, VarDecl.map, TypeExpr.map, stmt_mapList_eq_map,
    Function.comp_def, inverse, map_stmt_inverse inverse, map_expr_inverse inverse]

end Marked

/-- A part stands in a file. -/
def StandsIn (f : File α) : Part α → Prop :=
  Relation.ReflTransGen (fun p q => q ∈ p.parts) (.file f)

theorem Part.Sound.standsIn {g : File Mark} (sound : (Part.file g).Sound) {p : Part Mark}
    (stands : StandsIn g p) : p.Sound := by
  induction stands with
  | refl => exact sound
  | tail _ member ih => exact ih.parts _ member

/-- **The export loses nothing.** If the exports of two files that were read, with any findings
added, say the same apart from the findings, the files are the same apart from the places of types.
The node of every part of a file has one child for each part directly below it, in source order. -/
theorem exportFile_loses_nothing {bytes bytes' : List UInt8} {f f' : File Pos} {g g' : File Mark}
    (read : parse bytes = .ok f) (read' : parse bytes' = .ok f') (marked : g.map Mark.pos = f)
    (marked' : g'.map Mark.pos = f') :
    ((exportFile g).bare = (exportFile g').bare → unplaced f = unplaced f') ∧
      ∀ p, StandsIn g p → ∃ e, p.outline = .node e (p.parts.map Part.outline) := by
  subst marked marked'
  have sound : (Part.file g).Sound := parse_readable read
  have sound' : (Part.file g').Sound := parse_readable read'
  refine ⟨fun same => ?_, fun p stands => ⟨_, (sound.standsIn stands).outline_eq⟩⟩
  have files := congrArg Outline.read same
  rw [show (exportFile g).bare.read = _ from read_outline _ sound,
    show (exportFile g').bare.read = _ from read_outline _ sound'] at files
  exact Part.file.inj files

/-- A method with a parameter. -/
def paramText : List UInt8 :=
  "class A\x7bpublic int f(int a)\x7breturn 0;\x7d\x7d".toUTF8.toList

/-- A method with a local variable. -/
def localText : List UInt8 :=
  "class A\x7bpublic int f()\x7bint a;return 0;\x7d\x7d".toUTF8.toList

/-- Whether a variable is a parameter can be told from the export. -/
theorem exportFile_loses_nothing_params : ∃ f f', parse paramText = .ok f ∧
    parse localText = .ok f' ∧
    (exportFile (f.map Mark.plain)).bare ≠ (exportFile (f'.map Mark.plain)).bare ∧
      ∀ p, StandsIn (f.map Mark.plain) p → ∃ e, p.outline = .node e (p.parts.map Part.outline) := by
  obtain ⟨f, read, count⟩ := exists_read paramText
    (fun f => decide ((unplaced f).cls.methods.map (·.params.length) = [1])) (by decide +kernel)
  obtain ⟨f', read', count'⟩ := exists_read localText
    (fun f => decide ((unplaced f).cls.methods.map (·.params.length) = [0])) (by decide +kernel)
  obtain ⟨same, parts⟩ := exportFile_loses_nothing read read'
    (map_file_inverse (g := Mark.plain) (fun _ => rfl) f)
    (map_file_inverse (g := Mark.plain) (fun _ => rfl) f')
  refine ⟨f, f', read, read', fun equal => ?_, parts⟩
  have counts := of_decide_eq_true count
  rw [same equal, of_decide_eq_true count'] at counts
  cases counts

end JavaMinus.Typing
