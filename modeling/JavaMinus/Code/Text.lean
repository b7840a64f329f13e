import JavaMinus.Code
import JavaMinus.Text.Quoted

/-!
# The text form of register code

Every register and every number is written with a suffix that tells its type.
The suffix of a value that is stored into a field or an array, or returned,
comes from the value itself: where that value is absent there is no text, and
the functions here return `none`. Any other absent operand is shown as `<nil>`.
-/

namespace JavaMinus.Code

/-- The suffix of a base type. -/
def baseSuffix : Base → String
  | .unknown => ".?"
  | .int => ".i32"
  | .boolean => ".bool"
  | .string => ".String"
  | .void => ".V"
  | .object name => "." ++ name

/-- The suffix that tells a type. -/
def suffix (t : Ty) : String :=
  if t.array then ".array" ++ baseSuffix t.base else baseSuffix t.base

/-- A register with its suffix. -/
def Reg.text (r : Reg) : String := r.name ++ suffix r.type

/-- The left side of an assignment. -/
def Reg.assignText (r : Reg) : String := r.text ++ " :=" ++ suffix r.type ++ " "

/-- An operand with its suffix. -/
def Operand.text : Operand → String
  | reg r => r.text
  | imm v t => toString v.toInt ++ suffix t

/-- An operand that may be absent. -/
def operandText : Option Operand → String
  | some o => o.text
  | none => "<nil>"

/-- The text of a call. -/
def Call.text (c : Call) : String :=
  let dst := match c.dst with
    | some d => d.assignText
    | none => ""
  let subject := match c.recv with
    | some r => r.text
    | none => c.owner
  dst ++ c.kind.text ++ "(" ++ subject ++ ", " ++ Quoted.text c.method ++
    String.join (c.args.map fun a => ", " ++ operandText a) ++ ")" ++ suffix c.ret

/-- The text of an instruction, unless a value whose type it needs is absent. -/
def Inst.text? : Inst → Option String
  | assign d s => some (d.assignText ++ operandText s)
  | binary d op l r =>
    some (d.assignText ++ operandText l ++ " " ++ op.symbol ++ suffix d.type ++ " " ++
      operandText r)
  | unary d op x => some (d.assignText ++ op.symbol ++ suffix d.type ++ " " ++ operandText x)
  | getField d field =>
    some (d.assignText ++ "getfield(this, " ++ field ++ suffix d.type ++ ")" ++ suffix d.type)
  | putField field (some s) =>
    some ("putfield(this, " ++ field ++ suffix s.type ++ ", " ++ s.text ++ ").V")
  | putField _ none => none
  | load d a i =>
    some (d.assignText ++ operandText a ++ "[" ++ operandText i ++ "]" ++ suffix d.type)
  | store a i (some s) =>
    some (operandText a ++ "[" ++ operandText i ++ "]" ++ suffix s.type ++ " :=" ++
      suffix s.type ++ " " ++ s.text)
  | store _ _ none => none
  | length d a => some (d.assignText ++ "arraylength(" ++ operandText a ++ ").i32")
  | call c => some c.text
  | new d name => some (d.assignText ++ "new(" ++ name ++ ")" ++ suffix d.type)
  | newArray d n => some (d.assignText ++ "new(array, " ++ operandText n ++ ").array.i32")
  | branch c t => some ("if (" ++ operandText c ++ ") goto " ++ t)
  | goto t => some ("goto " ++ t)
  | label name => some (name ++ ":")
  | ret (some x) => some ("ret" ++ suffix x.type ++ " " ++ x.text)
  | ret none => none
  | retVoid => some "ret.V"
  | hole => some "<unsupported <nil>>"

/-- The line of an instruction in a method. Labels stand out to the left. -/
def Inst.line? : Inst → Option String
  | label name => some ("\t" ++ name ++ ":\n")
  | i => i.text?.map fun t => "\t\t" ++ t ++ ";\n"

/-- The head of a method, up to its opening brace. -/
def Method.head (m : Method) : String :=
  (if m.isConstructor then "\t.construct "
    else if m.isStatic then "\t.method public static "
    else "\t.method public ") ++
  m.name ++ "(" ++ ", ".intercalate (m.params.map fun p => p.name ++ suffix p.type) ++ ")" ++
  suffix m.ret ++ " \x7b\n"

/-- The text of a method. -/
def Method.text? (m : Method) : Option String :=
  (m.code.mapM Inst.line?).map fun lines => m.head ++ String.join lines ++ "\t\x7d\n"

/-- The text of a class, up to its methods. -/
def Class.head (c : Class) : String :=
  String.join (c.imports.map fun i => "import " ++ i ++ ";\n") ++
  (if c.imports.isEmpty then "" else "\n") ++
  c.name ++
  (if c.super = "" then "" else " extends " ++ c.super) ++ " \x7b\n" ++
  String.join (c.fields.map fun f => "\t.field private " ++ f.name ++ suffix f.type ++ ";\n")

/-- The text of a class. -/
def Class.text? (c : Class) : Option String :=
  (c.methods.mapM Method.text?).map fun ms =>
    c.head ++ String.join (ms.map ("\n" ++ ·)) ++ "\x7d\n"

end JavaMinus.Code
