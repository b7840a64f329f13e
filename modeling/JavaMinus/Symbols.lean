import JavaMinus.Diagnostic
import JavaMinus.Syntax
import JavaMinus.Ty

/-!
# The symbol table of a class

The table lists what a class declares: imports, fields and methods, each in the
order of declaration. Of two declarations that clash only the first is listed,
and the other is reported. Methods clash when their names and the types of their
parameters agree; imports clash when their simple names agree, which is an error
only if they name different classes.
-/

namespace JavaMinus

open Syntax

/-- A declared variable: its name, its type and the line of its declaration. -/
structure Symbol where
  name : String
  type : Ty
  line : Int
  deriving DecidableEq, Repr, Inhabited

/-- The text that tells overloads apart: a name and the types of parameters. -/
def signatureText (name : String) (params : List Ty) : String :=
  name ++ "(" ++ ",".intercalate (params.map Ty.text) ++ ")"

/-- A declared method. `decl` is its place among the methods of the class. -/
structure MethodSymbol where
  name : String
  isStatic : Bool
  ret : Ty
  params : List Symbol := []
  locals : List Symbol := []
  line : Int
  decl : Nat
  deriving DecidableEq, Repr, Inhabited

namespace MethodSymbol

/-- The types of the parameters. -/
def paramTypes (m : MethodSymbol) : List Ty := m.params.map (·.type)

/-- The signature of a method. -/
def signature (m : MethodSymbol) : String := signatureText m.name m.paramTypes

/-- The variable of a name: a local one, or else a parameter. -/
def var? (m : MethodSymbol) (name : String) : Option Symbol :=
  (m.locals ++ m.params).find? fun s => s.name = name

/-- A parameter has the name. -/
def isParam (m : MethodSymbol) (name : String) : Bool := m.params.any fun s => s.name = name

end MethodSymbol

/-- What a class declares. Imports are simple names with the qualified names that
they stand for. -/
structure Table where
  cls : String
  super : String
  imports : List (String × String) := []
  fields : List Symbol := []
  methods : List MethodSymbol := []
  deriving DecidableEq, Repr, Inhabited

namespace Table

/-- The field of a name. -/
def field? (t : Table) (name : String) : Option Symbol := t.fields.find? fun s => s.name = name

/-- The methods of a name, in order. -/
def methodsNamed (t : Table) (name : String) : List MethodSymbol :=
  t.methods.filter fun m => m.name = name

/-- The method of a signature. Its name ends before the first parenthesis. -/
def method? (t : Table) (signature : String) : Option MethodSymbol :=
  let name := String.ofList (signature.toList.takeWhile (· != '('))
  (t.methodsNamed name).find? fun m => m.signature = signature

/-- The method that is declared at a place of the class, if it is listed. -/
def methodAt? (t : Table) (decl : Nat) : Option MethodSymbol :=
  t.methods.find? fun m => m.decl = decl

/-- The qualified name that is imported under a simple name. -/
def import? (t : Table) (name : String) : Option String := t.imports.lookup name

/-- The qualified names of the imports. -/
def importNames (t : Table) : List String := t.imports.map (·.2)

/-- A class is imported under the name. -/
def isImported (t : Table) (name : String) : Bool := (t.import? name).isSome

/-- The superclass is an imported one, so that its members cannot be seen. -/
def superImported (t : Table) : Bool :=
  t.super ≠ "" && t.super ≠ t.cls && t.isImported t.super

/-- The name is that of this class or of an imported one. -/
def knowsClass (t : Table) (name : String) : Bool := name = t.cls || t.isImported name

/-- A class is another one or is declared to extend it. -/
def isA (t : Table) (sub super : String) : Bool :=
  sub = super || (sub = t.cls && t.super ≠ "" && t.super = super)

end Table

/-! ## Building the table -/

/-- The type that a written type denotes. -/
def Syntax.TypeExpr.ty {α : Type} (t : TypeExpr α) : Ty := .named t.name t.array

/-- An error at a place in the source. -/
def semanticError (p : Pos) (message : String) : Diagnostic :=
  .error .semantic p.line p.col message

/-- The symbol of a declaration. -/
def declSymbol (d : VarDecl Pos) : Symbol := ⟨d.name, d.type.ty, d.mark.line⟩

/-- List an import. -/
def addImport (t : Table) (i : Import Pos) : Logged Table :=
  match t.import? i.name with
  | some prev =>
    ⟨t, if prev = i.qualified then []
      else [semanticError i.mark ("import " ++ i.qualified ++ " conflicts with " ++ prev)]⟩
  | none => ⟨{ t with imports := t.imports ++ [(i.name, i.qualified)] }, []⟩

/-- List a field. -/
def addField (t : Table) (d : VarDecl Pos) : Logged Table :=
  match t.field? d.name with
  | some _ => ⟨t, [semanticError d.mark ("duplicate field: " ++ d.name)]⟩
  | none => ⟨{ t with fields := t.fields ++ [declSymbol d] }, []⟩

/-- The symbols of declarations whose names are not taken yet. `what` is the word
for a declaration in messages, and `taken` lists the names so far. -/
def distinctVars (method what : String) (taken : List String) :
    List (VarDecl Pos) → Logged (List Symbol)
  | [] => pure []
  | d :: rest =>
    if d.name ∈ taken then do
      .tell (semanticError d.mark
        ("duplicate " ++ what ++ " " ++ d.name ++ " in method " ++ method))
      distinctVars method what taken rest
    else do
      let others ← distinctVars method what (d.name :: taken) rest
      return declSymbol d :: others

/-- The symbol of a method that is declared at a place of the class. -/
def methodSymbol (decl : Nat) (m : Method Pos) : Logged MethodSymbol := do
  let params ← distinctVars m.name "parameter" [] m.params
  let locals ← distinctVars m.name "variable" (m.params.map (·.name)) m.locals
  return { name := m.name, isStatic := m.isStatic, ret := m.ret.ty, params, locals,
           line := m.mark.line, decl }

/-- List a method. -/
def addMethod (t : Table) (entry : Method Pos × Nat) : Logged Table := do
  let (m, decl) := entry
  let s ← methodSymbol decl m
  match t.method? s.signature with
  | some prev =>
    .tell (semanticError m.mark
      ("duplicate method " ++ s.signature ++ " (first declared at line " ++
        toString prev.line ++ ")"))
    return t
  | none => return { t with methods := t.methods ++ [s] }

/-- The table of a file. -/
def buildTable (f : File Pos) : Logged Table := do
  let t : Table := { cls := f.cls.name, super := f.cls.super }
  let t ← f.imports.foldlM addImport t
  let t ← f.cls.fields.foldlM addField t
  f.cls.methods.zipIdx.foldlM addMethod t

/-- The table of a file that may be missing. -/
def buildTable? : Option (File Pos) → Logged (Option Table)
  | some f => some <$> buildTable f
  | none => ⟨none, [semanticError {} "no class declaration"]⟩

/-! ## The listing -/

/-- A method in the listing of a table. -/
def MethodSymbol.listing (m : MethodSymbol) : String :=
  "\t" ++ (if m.isStatic then "static " else "") ++ m.ret.text ++ " " ++ m.signature ++ "\n" ++
  String.join (m.params.map fun p => "\t\tparam " ++ p.type.text ++ " " ++ p.name ++ "\n") ++
  String.join (m.locals.map fun l => "\t\tlocal " ++ l.type.text ++ " " ++ l.name ++ "\n")

/-- The listing of a table. -/
def Table.listing (t : Table) : String :=
  "class " ++ t.cls ++ "\n" ++
  (if t.super = "" then "" else "extends " ++ t.super ++ "\n") ++
  "\nimports (" ++ toString t.imports.length ++ ")\n" ++
  String.join (t.importNames.map fun q => "\t" ++ q ++ "\n") ++
  "\nfields (" ++ toString t.fields.length ++ ")\n" ++
  String.join (t.fields.map fun f => "\t" ++ f.type.text ++ " " ++ f.name ++ "\n") ++
  "\nmethods (" ++ toString t.methods.length ++ ")\n" ++
  String.join (t.methods.map MethodSymbol.listing)

end JavaMinus
