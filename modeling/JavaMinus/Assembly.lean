/-!
# Assembly for the virtual machine

The instructions of the stack machine that methods are compiled to, their text,
and how far each one raises or lowers the operand stack. `depthLimit` is the
height that the operand stack of a method has to allow for.
-/

namespace JavaMinus.Assembly

/-- The two kinds of values that instructions tell apart. -/
inductive Category where
  | int
  | ref
  deriving DecidableEq, Repr, Inhabited

/-- The letter that a category puts in front of an instruction. -/
def Category.letter : Category → String
  | int => "i"
  | ref => "a"

/-- The arithmetic of the machine: two numbers are replaced by one. -/
inductive Arith where
  | add
  | sub
  | mul
  | div
  | and
  | xor
  deriving DecidableEq, Repr, Inhabited

/-- The instruction of an arithmetic operation. -/
def Arith.text : Arith → String
  | add => "iadd"
  | sub => "isub"
  | mul => "imul"
  | div => "idiv"
  | and => "iand"
  | xor => "ixor"

/-- A line of the body of a method. A call carries how many values it takes from
the stack and whether it leaves one. -/
inductive Instr where
  | const (value : Int32)
  | load (category : Category) (slot : Int)
  | store (category : Category) (slot : Int)
  | increment (slot : Int) (amount : Int)
  | arith (op : Arith)
  | getField (owner field descriptor : String)
  | putField (owner field descriptor : String)
  | arrayLoad (category : Category)
  | arrayStore (category : Category)
  | arrayLength
  | invoke (instruction owner method descriptor : String) (takes : Nat) (leaves : Bool)
  | pop
  | new (name : String)
  | newIntArray
  | newRefArray (name : String)
  | ifNonzero (target : String)
  | ifLess (target : String)
  | goto (target : String)
  | label (name : String)
  | valueReturn (category : Category)
  | voidReturn
  deriving DecidableEq, Repr, Inhabited

namespace Instr

/-- The slot of a load or a store. The first four have instructions of their own. -/
def slotText (slot : Int) : String :=
  if slot ≤ 3 then "_" ++ toString slot else " " ++ toString slot

/-- The shortest instruction that pushes a number. -/
def constText (v : Int32) : String :=
  let n := v.toInt
  if n = -1 then "iconst_m1"
  else if 0 ≤ n ∧ n ≤ 5 then "iconst_" ++ toString n
  else if -128 ≤ n ∧ n ≤ 127 then "bipush " ++ toString n
  else if -32768 ≤ n ∧ n ≤ 32767 then "sipush " ++ toString n
  else "ldc " ++ toString n

/-- The text of an instruction. -/
def text : Instr → String
  | const v => constText v
  | load c s => c.letter ++ "load" ++ slotText s
  | store c s => c.letter ++ "store" ++ slotText s
  | increment s n => "iinc " ++ toString s ++ " " ++ toString n
  | arith op => op.text
  | getField o f d => "getfield " ++ o ++ "/" ++ f ++ " " ++ d
  | putField o f d => "putfield " ++ o ++ "/" ++ f ++ " " ++ d
  | arrayLoad c => c.letter ++ "aload"
  | arrayStore c => c.letter ++ "astore"
  | arrayLength => "arraylength"
  | invoke i o m d _ _ => i ++ " " ++ o ++ "/" ++ m ++ d
  | pop => "pop"
  | new name => "new " ++ name
  | newIntArray => "newarray int"
  | newRefArray name => "anewarray " ++ name
  | ifNonzero t => "ifne " ++ t
  | ifLess t => "if_icmplt " ++ t
  | goto t => "goto " ++ t
  | label name => name ++ ":"
  | valueReturn c => c.letter ++ "return"
  | voidReturn => "return"

/-- The line of an instruction. Labels stand at the left margin. -/
def line (i : Instr) : String :=
  match i with
  | label _ => i.text ++ "\n"
  | _ => "\t" ++ i.text ++ "\n"

/-- How far an instruction raises the operand stack. -/
def effect : Instr → Int
  | const _ => 1
  | load _ _ => 1
  | store _ _ => -1
  | increment _ _ => 0
  | arith _ => -1
  | getField _ _ _ => 0
  | putField _ _ _ => -2
  | arrayLoad _ => -1
  | arrayStore _ => -3
  | arrayLength => 0
  | invoke _ _ _ _ takes leaves => (if leaves then 1 else 0) - (takes : Int)
  | pop => -1
  | new _ => 1
  | newIntArray => 0
  | newRefArray _ => 0
  | ifNonzero _ => -1
  | ifLess _ => -2
  | goto _ => 0
  | label _ => 0
  | valueReturn _ => -1
  | voidReturn => 0

/-- The label that an instruction may jump to. -/
def target? : Instr → Option String
  | ifNonzero t => some t
  | ifLess t => some t
  | goto t => some t
  | _ => none

end Instr

/-- The height of the operand stack on the way through a body: the height now, the
greatest so far, and the height at each label that was jumped to. -/
structure Depth where
  now : Int := 0
  greatest : Int := 0
  atLabel : List (String × Int) := []
  deriving Repr, Inhabited

namespace Depth

/-- Pass an instruction. At a label that was jumped to the height is that of the
last jump; elsewhere the instruction has its effect. -/
def pass (d : Depth) (i : Instr) : Depth :=
  match i with
  | .label name => { d with now := (d.atLabel.lookup name).getD d.now }
  | _ =>
    let now := d.now + i.effect
    { now
      greatest := max d.greatest now
      atLabel := match i.target? with
        | some t => (t, now) :: d.atLabel
        | none => d.atLabel }

end Depth

/-- The greatest height of the operand stack in a body. -/
def depthLimit (body : List Instr) : Int := (body.foldl Depth.pass {}).greatest

/-- A method: its head, the number of its local slots, and its body. -/
structure Method where
  head : String
  locals : Int
  body : List Instr
  deriving Repr, Inhabited

/-- The text of a method. -/
def Method.text (m : Method) : String :=
  ".method public " ++ m.head ++ "\n" ++
  "\t.limit stack " ++ toString (depthLimit m.body) ++ "\n" ++
  "\t.limit locals " ++ toString m.locals ++ "\n" ++
  String.join (m.body.map Instr.line) ++ ".end method\n"

/-- A class: its name, its superclass, its fields with their descriptors, and its
methods. -/
structure Class where
  name : String
  super : String
  fields : List (String × String)
  methods : List Method
  deriving Repr, Inhabited

/-- The text of a class. -/
def Class.text (c : Class) : String :=
  ".class public " ++ c.name ++ "\n" ++
  ".super " ++ c.super ++ "\n" ++
  (if c.fields.isEmpty then "" else "\n") ++
  String.join (c.fields.map fun (name, d) => ".field private " ++ name ++ " " ++ d ++ "\n") ++
  String.join (c.methods.map fun m => "\n" ++ m.text)

end JavaMinus.Assembly
