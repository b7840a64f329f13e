import JavaMinus.Operator
import JavaMinus.Ty

/-!
# Register code

The code of a method is a list of instructions over named registers. Control
passes from an instruction to the next one, or to a label by a jump. Fields
are always fields of `this`.

An operand may be absent, and so may a whole instruction (`Inst.hole`). Code made
from a source text never lacks one, but code can also be handed over by a
caller, and what is missing then has to be found and named.

Three functions say how an instruction treats registers: `Inst.dst?` is the
register it writes, `Inst.uses` the ones it reads, and `Inst.mapOperands` replaces
what it reads.
-/

namespace JavaMinus.Code

/-- A register with the type of the values that it holds. -/
structure Reg where
  name : String
  type : Ty
  deriving DecidableEq, Repr, Inhabited

/-- What an instruction reads: a register, or a number of a given type. -/
inductive Operand where
  | reg (r : Reg)
  | imm (value : Int32) (type : Ty)
  deriving DecidableEq, Repr, Inhabited

namespace Operand

/-- The type of an operand. -/
def type : Operand → Ty
  | reg r => r.type
  | imm _ t => t

/-- The register that an operand names. -/
def reg? : Operand → Option Reg
  | reg r => some r
  | imm _ _ => none

/-- An integer. -/
def int (v : Int32) : Operand := imm v .int

/-- A truth value: 1 for true, 0 for false. -/
def bool (b : Bool) : Operand := imm (if b then 1 else 0) .boolean

end Operand

/-- How a method is called. -/
inductive CallKind where
  | static
  | virtual
  | special
  | other
  deriving DecidableEq, Repr, Inhabited

/-- The instruction of the virtual machine that makes a call. -/
def CallKind.text : CallKind → String
  | static => "invokestatic"
  | virtual => "invokevirtual"
  | special => "invokespecial"
  | other => "invoke?"

/-- A method call. There is no destination if the result is void or dropped, and
no receiver if the method is static. The owner is a simple or a qualified class
name; the empty name is the root class. -/
structure Call where
  kind : CallKind
  dst : Option Reg := none
  owner : String
  recv : Option Operand := none
  method : String
  args : List (Option Operand) := []
  params : List Ty := []
  ret : Ty
  deriving DecidableEq, Repr, Inhabited

/-- An instruction of register code. -/
inductive Inst where
  | assign (dst : Reg) (src : Option Operand)
  | binary (dst : Reg) (op : Operator) (left right : Option Operand)
  | unary (dst : Reg) (op : Operator) (x : Option Operand)
  | getField (dst : Reg) (field : String)
  | putField (field : String) (src : Option Operand)
  | load (dst : Reg) (array index : Option Operand)
  | store (array index src : Option Operand)
  | length (dst : Reg) (array : Option Operand)
  | call (c : Call)
  | new (dst : Reg) (name : String)
  | newArray (dst : Reg) (len : Option Operand)
  | branch (cond : Option Operand) (target : String)
  | goto (target : String)
  | label (name : String)
  | ret (x : Option Operand)
  | retVoid
  | hole
  deriving DecidableEq, Repr, Inhabited

namespace Inst

/-- The register that an instruction writes. -/
def dst? : Inst → Option Reg
  | assign d _ => some d
  | binary d _ _ _ => some d
  | unary d _ _ => some d
  | getField d _ => some d
  | load d _ _ => some d
  | length d _ => some d
  | call c => c.dst
  | new d _ => some d
  | newArray d _ => some d
  | _ => none

/-- The operands of an instruction, in the order in which it reads them. -/
def operands : Inst → List (Option Operand)
  | assign _ s => [s]
  | binary _ _ l r => [l, r]
  | unary _ _ x => [x]
  | putField _ s => [s]
  | load _ a i => [a, i]
  | store a i s => [a, i, s]
  | length _ a => [a]
  | call c => c.recv :: c.args
  | newArray _ n => [n]
  | branch c _ => [c]
  | ret x => [x]
  | _ => []

/-- The registers that an instruction reads, in operand order. -/
def uses (i : Inst) : List Reg :=
  i.operands.filterMap fun o => o.bind Operand.reg?

/-- The instruction with every operand replaced, where a replacement may be
nothing. What is absent stays absent, and the destination stays as it is. -/
def bindOperands (f : Operand → Option Operand) : Inst → Inst
  | assign d s => assign d (s.bind f)
  | binary d op l r => binary d op (l.bind f) (r.bind f)
  | unary d op x => unary d op (x.bind f)
  | putField field s => putField field (s.bind f)
  | load d a i => load d (a.bind f) (i.bind f)
  | store a i s => store (a.bind f) (i.bind f) (s.bind f)
  | length d a => length d (a.bind f)
  | call c => call { c with recv := c.recv.bind f, args := c.args.map (·.bind f) }
  | newArray d n => newArray d (n.bind f)
  | branch c t => branch (c.bind f) t
  | ret x => ret (x.bind f)
  | i => i

/-- The instruction with every operand replaced. -/
def mapOperands (f : Operand → Operand) (i : Inst) : Inst :=
  i.bindOperands fun o => some (f o)

/-- The instruction is a label. -/
def isLabel : Inst → Bool
  | label _ => true
  | _ => false

/-- The label that an instruction may jump to. -/
def target? : Inst → Option String
  | goto t => some t
  | branch _ t => some t
  | _ => none

end Inst

/-- What a register stands for in the source: the object, a parameter, a declared
local variable, or the value of an inner expression. -/
inductive VarKind where
  | this
  | param
  | declared
  | temp
  | other
  deriving DecidableEq, Repr, Inhabited

/-- The name of a kind in listings. -/
def VarKind.text : VarKind → String
  | this => "this"
  | param => "param"
  | declared => "local"
  | temp => "temp"
  | other => "VarKind(?)"

/-- The declaration of a register. -/
structure Var where
  name : String
  type : Ty
  kind : VarKind
  deriving DecidableEq, Repr, Inhabited

/-- The local slots of the virtual machine that registers live in. No name occurs
twice. -/
abbrev Slots := List (String × Int)

namespace Slots

/-- The slot of a register. -/
def get? (s : Slots) (name : String) : Option Int := s.lookup name

/-- Give a register a slot. A register that has one already loses it. -/
def put (s : Slots) (name : String) (slot : Int) : Slots :=
  match s with
  | [] => [(name, slot)]
  | (n, k) :: rest => if n = name then (name, slot) :: rest else (n, k) :: put rest name slot

end Slots

/-- A method. Its slots are absent until registers have been placed; `locals` is
the number of local slots that it then takes. -/
structure Method where
  name : String
  line : Int := 0
  isStatic : Bool := false
  isConstructor : Bool := false
  params : List Var := []
  ret : Ty
  vars : List Var := []
  code : List Inst := []
  slots : Option Slots := none
  locals : Int := 0
  deriving Repr, Inhabited

/-- The first declaration of a register. -/
def Method.var? (m : Method) (name : String) : Option Var :=
  m.vars.find? fun v => v.name = name

/-- A field of a class. -/
structure Field where
  name : String
  type : Ty
  deriving DecidableEq, Repr, Inhabited

/-- A class. Its superclass is a simple name, the empty one for the root class;
imports are qualified names. -/
structure Class where
  name : String
  super : String := ""
  imports : List String := []
  fields : List Field := []
  methods : List Method := []
  deriving Repr, Inhabited

namespace Class

/-- The first field of a name. -/
def field? (c : Class) (name : String) : Option Field :=
  c.fields.find? fun f => f.name = name

/-- The internal name of the root class. -/
def rootClass : String := "java/lang/Object"

/-- A qualified name ends in a simple name. -/
def endsIn (qualified name : String) : Bool :=
  qualified = name || ("." ++ name).toList.isSuffixOf qualified.toList

/-- A dotted name with slashes for dots. -/
def slashed (name : String) : String :=
  String.ofList (name.toList.map fun c => if c = '.' then '/' else c)

/-- The internal name of a class: the root class for the empty name, the name
itself for this class and for a name with slashes, otherwise the first import
that ends in the name. A name that nothing explains stands for itself. -/
def qualify (c : Class) (name : String) : String :=
  if name = "" then rootClass
  else if name = c.name ∨ '/' ∈ name.toList then name
  else
    match c.imports.find? (endsIn · name) with
    | some q => slashed q
    | none => name

end Class

end JavaMinus.Code
