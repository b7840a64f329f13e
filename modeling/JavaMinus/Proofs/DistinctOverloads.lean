import JavaMinus.Proofs.EmittedBodies
import JavaMinus.Proofs.BuiltTables
import JavaMinus.Proofs.PrintedTokens

/-!
# Overloads stay apart in the class file

The table keeps methods apart by their names and by the types of their parameters, as they are
written. The class file keeps them apart by their names and by descriptors, in which a class goes
by its internal name: the qualified name of an import with slashes for its dots. Two steps on the
way could make different types alike.

**Internal names.** Imports are searched for one whose qualified name ends in the written name.
Written names have no dots, so a qualified name ends in its simple name and in no other one
(`endsIn_qualified`), and the search finds what the table has (`Class.Of.qualify`). A simple name
is what comes behind the last slash of its internal name (`Class.Of.internal`).

**Descriptors.** Those of the parameters stand side by side, with nothing between them. Types can be
read off from left to right (`readDescriptor`), so descriptors that are joined to the same text
belong to the same types (`join_descriptors_inj`).
-/

namespace JavaMinus

open Syntax List
open Code (Accepted analysisOf classCode)
open Assembly (assemble baseDescriptor descriptor methodHead)

/-! ## Qualified names -/

/-- What comes behind the last of some signs. -/
def lastPart (sign : Char) (cs : List Char) : List Char :=
  (cs.reverse.takeWhile (· != sign)).reverse

section Names

variable {sign : Char} {cs : List Char} {name : String} {i : Import Pos}

theorem all_bne (absent : sign ∉ cs) : ∀ c ∈ cs, (c != sign) = true :=
  fun _ member => bne_iff_ne.mpr fun same => absent (same ▸ member)

theorem lastPart_self (absent : sign ∉ cs) : lastPart sign cs = cs := by
  have all := all_bne (mt mem_reverse.mp absent)
  rw [lastPart, takeWhile_eq_self_iff.mpr all, reverse_reverse]

theorem lastPart_append (before : List Char) (absent : sign ∉ cs) :
    lastPart sign (before ++ sign :: cs) = cs := by
  have all := all_bne (mt mem_reverse.mp absent)
  simp [lastPart, takeWhile_append_of_pos all]

/-- The simple name of an import ends its qualified name. -/
theorem qualified_cases (filled : i.path ≠ []) : i.qualified = i.name ∨
    ∃ before, i.qualified.toList = before ++ '.' :: i.name.toList := by
  obtain ⟨mark, path⟩ := i
  simp only [Import.qualified, Import.name]
  induction path with
  | nil => exact absurd rfl filled
  | cons part rest ih =>
    cases rest with
    | nil => exact .inl rfl
    | cons next more =>
      right
      rw [String.intercalate_cons_cons, getLast?_cons_cons]
      simp only [String.toList_append]
      rcases ih (by simp) with same | ⟨before, same⟩
      · exact ⟨part.toList, by simp [same]⟩
      · exact ⟨part.toList ++ '.' :: before, by simp [same]⟩

theorem semicolon_not_mem_qualified (names : ∀ part ∈ i.path, IsName part) :
    ';' ∉ i.qualified.toList := by
  obtain ⟨mark, path⟩ := i
  simp only [Import.qualified] at names ⊢
  induction path with
  | nil => simp
  | cons part rest ih =>
    obtain ⟨first, others⟩ := forall_mem_cons.mp names
    have here := IsWord.no_sign first.bytes (show ';' ∈ _ by decide)
    cases rest with
    | nil => simpa using here
    | cons next more =>
      simp only [String.intercalate_cons_cons, String.toList_append, mem_append, not_or]
      exact ⟨⟨here, by decide⟩, ih others⟩

theorem isWord_importName (filled : i.path ≠ []) (names : ∀ part ∈ i.path, IsName part) :
    IsWord i.name := by
  rw [Import.name, getLast?_eq_some_getLast filled]
  exact (names _ (getLast_mem filled)).bytes

/-- A qualified name ends in the simple name and in no other one. -/
theorem endsIn_qualified (filled : i.path ≠ []) (named : IsWord i.name) (isWord : IsWord name) :
    Code.Class.endsIn i.qualified name = decide (i.name = name) := by
  have plain := named.no_sign (show '.' ∈ _ by decide)
  have plain' := isWord.no_sign (show '.' ∈ _ by decide)
  rw [Bool.eq_iff_iff, decide_eq_true_eq, Code.Class.endsIn, Bool.or_eq_true, decide_eq_true_eq,
    isSuffixOf_iff_suffix]
  constructor
  · intro ends
    have isLast : lastPart '.' i.qualified.toList = name.toList := by
      rcases ends with same | ⟨before, same⟩
      · rw [same, lastPart_self plain']
      · rw [← same, String.toList_append]
        exact lastPart_append before plain'
    rcases qualified_cases filled with same | ⟨before, same⟩
    · rwa [same, lastPart_self plain, String.toList_inj] at isLast
    · rwa [same, lastPart_append before plain, String.toList_inj] at isLast
  · rintro rfl
    rcases qualified_cases filled with same | ⟨before, same⟩
    · exact .inl same
    · exact .inr ⟨before, by rw [same, String.toList_append]; rfl⟩

end Names

/-! ## Internal names -/

section Internal

variable {f : File Pos} {c : Code.Class} {name : String}

/-- The internal name of the class that a name denotes: the qualified name of an import, with slashes
for its dots, or the name of the class that is compiled, as it is. -/
def Table.Denotes (t : Table) (name internal : String) : Prop :=
  name = t.cls ∧ internal = name ∨
    ∃ q, t.import? name = some q ∧ internal = Code.Class.slashed q

/-- The class goes by the names of a file. -/
structure Code.Class.Of (c : Code.Class) (f : File Pos) : Prop where
  name : c.name = f.cls.name
  imports : c.imports = (declaredTable f).importNames
  readable : f.Readable

theorem Code.Class.Of.qualify (of : c.Of f) (isWord : IsWord name) :
    c.qualify name = if name = f.cls.name then name
      else (((declaredTable f).import? name).map slashed).getD name := by
  have filled : name ≠ "" := fun empty => isWord.no_signs.1 (by rw [empty]; rfl)
  have noSlash := isWord.no_sign (show '/' ∈ _ by decide)
  have found : c.imports.find? (endsIn · name) = (declaredTable f).import? name := by
    have each : ∀ i ∈ firsts Import.name f.imports,
        endsIn i.qualified name = decide (i.name = name) := by
      intro i member
      obtain ⟨nonempty, names⟩ := of.readable.imports i (firsts_subset member)
      exact endsIn_qualified nonempty (isWord_importName nonempty names) isWord
    rw [of.imports, Table.importNames, Table.import?, imports_declaredTable]
    generalize firsts Import.name f.imports = l at each
    induction l with
    | nil => rfl
    | cons i rest ih =>
      obtain ⟨here, others⟩ := forall_mem_cons.mp each
      by_cases same : i.name = name
      · simp [importEntry, here, same]
      · have other : (name == i.name) = false := beq_false_of_ne (Ne.symm same)
        simpa [importEntry, lookup, here, same, other] using ih others
  rw [Code.Class.qualify, if_neg filled, of.name, found]
  by_cases own : name = f.cls.name
  · simp [own]
  · simp only [own, noSlash, or_false, if_false]
    cases (declaredTable f).import? name <;> rfl

/-- A declared type whose class is known. -/
structure Declares (f : File Pos) (x : TypeExpr Pos) : Prop where
  readable : x.Readable
  known : ∀ name, x.ty.base = .object name → (declaredTable f).knowsClass name = true

theorem ty_base (x : TypeExpr Pos) : x.ty.base = Base.named x.name := rfl

/-- The internal name of a known class has no semicolon and ends in the simple name. -/
theorem Code.Class.Of.internal (of : c.Of f) (isWord : IsWord name)
    (known : (declaredTable f).knowsClass name = true) :
    ';' ∉ (c.qualify name).toList ∧ lastPart '/' (c.qualify name).toList = name.toList ∧
      (declaredTable f).Denotes name (c.qualify name) := by
  have noSlash := isWord.no_sign (show '/' ∈ _ by decide)
  have noDot := isWord.no_sign (show '.' ∈ _ by decide)
  rw [of.qualify isWord, Table.Denotes]
  by_cases own : name = f.cls.name
  · rw [if_pos own]
    exact ⟨isWord.no_sign (by decide), lastPart_self noSlash, .inl ⟨own, rfl⟩⟩
  · rw [if_neg own]
    obtain ⟨q, found⟩ : ∃ q, (declaredTable f).import? name = some q := by
      simpa [Table.knowsClass, Table.isImported, own, declaredTable, Option.isSome_iff_exists]
        using known
    obtain ⟨_, _, split, _⟩ := lookup_eq_some_iff.mp found
    rw [imports_declaredTable] at split
    obtain ⟨i, member, same⟩ := mem_map.mp (split ▸ mem_append_right _ mem_cons_self)
    cases same
    obtain ⟨nonempty, names⟩ := of.readable.imports i (firsts_subset member)
    rw [found, Option.map_some, Option.getD_some]
    have plain : i.name.toList.map (fun c => if c = '.' then '/' else c) = i.name.toList := by
      refine (map_congr_left fun c member => if_neg ?_).trans (map_id' _)
      rintro rfl
      exact noDot member
    refine ⟨?_, ?_, .inr ⟨_, rfl, rfl⟩⟩
    · rw [slashed, String.toList_ofList]
      intro member
      obtain ⟨c, inside, same⟩ := mem_map.mp member
      split at same
      · simp at same
      · exact semicolon_not_mem_qualified names (same ▸ inside)
    · rw [slashed, String.toList_ofList]
      rcases qualified_cases nonempty with same | ⟨before, same⟩
      · rw [same, plain, lastPart_self noSlash]
      · rw [same, map_append, map_cons, plain]
        exact lastPart_append _ noSlash

end Internal

/-! ## Descriptors -/

/-- The base type at the start of a text, and what follows it. -/
def readBase : List Char → Option (Base × List Char)
  | 'I' :: rest => some (.int, rest)
  | 'Z' :: rest => some (.boolean, rest)
  | 'V' :: rest => some (.void, rest)
  | 'L' :: rest => some (.named (String.ofList (lastPart '/' (rest.takeWhile (· != ';')))),
      (rest.dropWhile (· != ';')).tail)
  | _ => none

/-- The type at the start of a text, and what follows it. -/
def readDescriptor (cs : List Char) : Option (Ty × List Char) :=
  ((readBase cs).map fun e => (⟨e.1, false⟩, e.2)) <|>
    (readBase cs.tail).map fun e => (⟨e.1, true⟩, e.2)

section Descriptors

variable {f : File Pos} {c : Code.Class} {x : TypeExpr Pos}

theorem readBase_class {n : String} (absent : ';' ∉ n.toList) (rest : List Char) :
    readBase (("L" ++ n ++ ";").toList ++ rest) =
      some (.named (String.ofList (lastPart '/' n.toList)), rest) := by
  have all := all_bne absent
  simp [readBase, takeWhile_append_of_pos all, dropWhile_append_of_pos all]

theorem Declares.readBase (of : c.Of f) (declares : Declares f x) (rest : List Char) :
    readBase ((baseDescriptor c x.ty.base).toList ++ rest) = some (x.ty.base, rest) := by
  have known := declares.known
  rw [ty_base] at known ⊢
  unfold Base.named at known ⊢
  split_ifs at known ⊢ with int boolean string void
  · simp [baseDescriptor, JavaMinus.readBase]
  · simp [baseDescriptor, JavaMinus.readBase]
  · have isString : Base.named (.ofList (lastPart '/' "java/lang/String".toList)) = .string := by
      decide +kernel
    exact (readBase_class (n := "java/lang/String") (by decide) rest).trans (by rw [isString])
  · simp [baseDescriptor, JavaMinus.readBase]
  · obtain ⟨absent, ends, _⟩ := of.internal declares.readable.isWord (known _ rfl)
    rw [baseDescriptor, readBase_class absent, ends, String.ofList_toList]
    simp [Base.named, int, boolean, string, void]

theorem Declares.readDescriptor (of : c.Of f) (declares : Declares f x) (rest : List Char) :
    readDescriptor ((descriptor c x.ty).toList ++ rest) = some (x.ty, rest) := by
  have base := declares.readBase of rest
  unfold descriptor
  split
  case isTrue array =>
    have none : JavaMinus.readBase (("[" ++ baseDescriptor c x.ty.base).toList ++ rest) = none := by
      rw [String.toList_append]
      rfl
    have behind : (("[" ++ baseDescriptor c x.ty.base).toList ++ rest).tail =
        (baseDescriptor c x.ty.base).toList ++ rest := by
      rw [String.toList_append]
      rfl
    rw [JavaMinus.readDescriptor, none, behind, base]
    simp [← array]
  case isFalse single =>
    rw [JavaMinus.readDescriptor, base]
    simp [← Bool.eq_false_iff.mpr single]

/-- Types can be read off their descriptors, also if nothing is between them. -/
theorem join_descriptors_inj (of : c.Of f) {xs ys : List (TypeExpr Pos)}
    (each : ∀ x ∈ xs, Declares f x) (each' : ∀ y ∈ ys, Declares f y)
    (same : String.join (xs.map fun x => descriptor c x.ty) =
      String.join (ys.map fun y => descriptor c y.ty)) :
    xs.map TypeExpr.ty = ys.map TypeExpr.ty := by
  have reads : ∀ {z} (zs : List (TypeExpr Pos)), Declares f z →
      JavaMinus.readDescriptor (String.join ((z :: zs).map fun x => descriptor c x.ty)).toList =
        some (z.ty, (String.join (zs.map fun x => descriptor c x.ty)).toList) := by
    intro z zs declares
    rw [map_cons, String.join_cons, String.toList_append]
    exact declares.readDescriptor of _
  induction xs generalizing ys with
  | nil =>
    cases ys with
    | nil => rfl
    | cons y ys =>
      have read := reads ys (each' y mem_cons_self)
      rw [← same] at read
      cases read
  | cons x xs ih =>
    obtain ⟨first, others⟩ := forall_mem_cons.mp each
    have read := reads xs first
    cases ys with
    | nil =>
      rw [same] at read
      cases read
    | cons y ys =>
      obtain ⟨first', others'⟩ := forall_mem_cons.mp each'
      rw [same, reads ys first', Option.some.injEq, Prod.mk.injEq] at read
      rw [map_cons, map_cons, read.1, ih others others' (String.toList_inj.mp read.2.symm)]

end Descriptors

/-! ## Emitted classes -/

section Emitted

variable {bytes : List UInt8} {f : File Pos}

/-- The types that fields, parameters and results of a class are declared with. -/
def declaredTypes (c : Syntax.Class Pos) : List (TypeExpr Pos) :=
  c.fields.map (·.type) ++ c.methods.flatMap fun m => m.ret :: m.params.map (·.type)

theorem Code.Accepted.silent (accepted : Accepted bytes f) : (buildTable f).reports = [] := by
  refine eq_nil_iff_forall_not_mem.mpr fun r member => ?_
  exact any_eq_false.mp accepted.built r member (onlyErrors_buildTable f r member)

theorem Code.Accepted.table (accepted : Accepted bytes f) :
    (buildTable f).value = declaredTable f :=
  buildTable_value (parse_readable accepted.read) accepted.silent

theorem Declares.of_checked {isResult : Bool} {x : TypeExpr Pos} (readable : x.Readable)
    (checked : (Typing.checkType (declaredTable f) isResult x).Clean) : Declares f x := by
  refine ⟨readable, fun name isObject => ?_⟩
  simp only [Typing.checkType, Logged.clean_bind, isObject, Typing.clean_complainIf,
    Bool.not_eq_false'] at checked
  exact checked.2

/-- Every declared type is known. -/
theorem Code.Accepted.declares (accepted : Accepted bytes f) :
    ∀ x ∈ declaredTypes f.cls, Declares f x := by
  have readable := (parse_readable accepted.read).cls
  refine forall_mem_append.mpr ⟨forall_mem_map.mpr fun d member => ?_, ?_⟩
  · have analysed := accepted.analysed
    simp only [Typing.analyze, Typing.checkFile, Typing.checkClass, Logged.clean_bind,
      Code.clean_forM, accepted.table] at analysed
    exact .of_checked (readable.fields d member).1.type (analysed.1.1.2.1 d member)
  · intro x member
    obtain ⟨m, isMethod, inside⟩ := mem_flatMap.mp member
    obtain ⟨i, declared⟩ := mem_iff_getElem?.mp isMethod
    have checked := accepted.checked declared
    simp only [Typing.checkMethod, Logged.clean_bind, Code.clean_forM, accepted.table] at checked
    rcases mem_cons.mp inside with rfl | param
    · exact .of_checked (readable.methods m isMethod).ret checked.1
    · obtain ⟨d, among, rfl⟩ := mem_map.mp param
      have local_ := checked.2.1 d (mem_append_left _ among)
      simp only [Typing.checkLocal, Logged.clean_bind, accepted.table] at local_
      exact .of_checked ((readable.methods m isMethod).params d among).type local_.1

theorem methodHead_finished (c : Code.Class) (limit : Int) (simplify : Bool) (m : Code.Method) :
    methodHead c (Registers.placed limit (Registers.finalForm simplify m)) = methodHead c m := by
  obtain ⟨code, same⟩ := Code.simplifyRounds_shape (Code.weight m.code + 1) m
  have simplified : methodHead c m.simplify = methodHead c m := by
    rw [Code.Method.simplify, same]
    rfl
  unfold Registers.placed
  split
  all_goals
    cases simplify with
    | false => rfl
    | true => exact simplified

theorem heads_assembled {c : Code.Class} {a : Assembly.Class} (assembled : assemble c = .ok a) :
    a.fields = c.fields.map (fun f => (f.name, descriptor c f.type)) ∧
      a.methods.map (·.head) = c.methods.map (methodHead c) := by
  obtain ⟨methods, each, done⟩ := Assembly.ok_of_bind assembled
  cases done
  have heads : Forall₂ Eq (c.methods.map (methodHead c)) (methods.map (·.head)) := by
    rw [forall₂_map_left_iff, forall₂_map_right_iff]
    refine (Assembly.forall₂_of_mapM each).imp fun m made first => ?_
    obtain ⟨_, _, head, _⟩ := Assembly.assembleMethod_selectAll first
    exact head.symm
  rw [forall₂_eq_eq_eq] at heads
  exact ⟨rfl, heads.symm⟩

/-- The name and the descriptor of the parameters of a declared method. -/
def emittedKey (c : Code.Class) (m : Syntax.Method Pos) : String × String :=
  (m.name, "(" ++ String.join (m.params.map fun v => descriptor c v.type.ty) ++ ")")

/-- The head of a declared method. -/
def declaredHead (c : Code.Class) (m : Syntax.Method Pos) : String :=
  (if m.isStatic then "static " else "") ++ (emittedKey c m).1 ++
    ((emittedKey c m).2 ++ descriptor c m.ret.ty)

theorem Code.Accepted.heads (accepted : Accepted bytes f) (c : Code.Class) :
    (classCode (analysisOf f)).value.methods.map (methodHead c) =
      "<init>()V" :: f.cls.methods.map (declaredHead c) := by
  have table : (analysisOf f).table.methods =
      f.cls.methods.zipIdx.map fun e => declaredMethod e.2 e.1 :=
    congrArg Table.methods accepted.table
  simp only [classCode, Logged.value_bind, Logged.value_mapM, Logged.value_pure, map_cons, map_map,
    table]
  refine congrArg₂ _ rfl ?_
  conv_rhs => rw [← zipIdx_map_fst 0 f.cls.methods, map_map]
  refine map_congr_left fun e member => ?_
  have here := (analyze_methods accepted.built accepted.analysed
    (mem_zipIdx_iff_getElem?.mp member)).2
  simp only [Function.comp_apply]
  have entry : (analysisOf f).file.cls.methods[(declaredMethod e.2 e.1).decl]? = _ := here
  rw [entry]
  simp [methodHead, Code.methodCode, declaredMethod, declaredHead, emittedKey,
    Assembly.callDescriptor, declSymbol, Function.comp_def, String.append_assoc]

theorem nodup_emittedKeys (accepted : Accepted bytes f) {c : Code.Class} (of : c.Of f) :
    (("<init>", "()") :: f.cls.methods.map (emittedKey c)).Nodup := by
  have readable := parse_readable accepted.read
  refine nodup_cons.mpr ⟨fun member => ?_, ?_⟩
  · obtain ⟨m, isMethod, same⟩ := mem_map.mp member
    have named : IsWord m.name := (readable.cls.methods m isMethod).name.bytes
    rw [show m.name = "<init>" from congrArg Prod.fst same] at named
    exact absurd named (by decide +kernel)
  · have distinct := ((buildTable_reports readable).mp accepted.silent).methods
    rw [Nodup, pairwise_map] at distinct ⊢
    refine distinct.imp_of_mem fun {m m'} isMethod isMethod' other same => other ?_
    obtain ⟨name, params⟩ := Prod.mk.inj same
    have types : ∀ n ∈ f.cls.methods, ∀ x ∈ n.params.map (·.type), Declares f x :=
      fun n among x inside => accepted.declares x (mem_append_right _
        (mem_flatMap.mpr ⟨n, among, mem_cons_of_mem _ inside⟩))
    have joined := (String.append_right_inj _).mp ((String.append_left_inj _).mp params)
    have alike := join_descriptors_inj of (types m isMethod) (types m' isMethod')
      (by simpa [Function.comp_def] using joined)
    simp only [map_map, Function.comp_def] at alike
    rw [declaredSignature, declaredSignature, name, alike]

end Emitted

/-- A class with overloads that take itself, an imported class and arrays. -/
def overloadingText : List UInt8 :=
  ("import a.b.C;class D\x7bC c;public int f(C c)\x7breturn 0;\x7d" ++
    "public int f(D d)\x7breturn 1;\x7dpublic int f(int[] i, C c)\x7breturn 2;\x7d\x7d").toUTF8.toList

end JavaMinus
