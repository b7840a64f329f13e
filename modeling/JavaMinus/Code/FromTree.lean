import JavaMinus.Code
import JavaMinus.Typing.Analysis

/-!
# Code for an analysed tree

Statements and expressions become register code. Every expression gives an
operand: a constant, the register of a variable, or a temporary register that
the code before it writes. When the value has a register to go to, it is written
there at once.

Operands are computed from left to right, and the right side of `&&` only if the
left side is true. Labels and temporaries are numbered within the method. A
temporary takes the next number that no variable of the method is named by, and
both labels of a statement share one number.

A file with errors still gives code. What could not be resolved is reported, and
a name about which nothing is known is taken for a local variable.
-/

namespace JavaMinus.Code

open Syntax (Expr Stmt Target)
open Typing (Mark RefKind)

/-! ## Emitting code -/

/-- What is handed out while code is made: numbers for temporaries and labels, and
the registers declared so far. -/
structure Supply where
  temps : Nat := 0
  labels : Nat := 0
  vars : List Var := []
  deriving Repr, Inhabited

/-- A value with the code that computes it, the problems met, and the supply that
is left. -/
structure Emitted (α : Type) where
  value : α
  code : List Inst := []
  reports : List Diagnostic := []
  supply : Supply

/-- A way to make code from a supply. -/
def Emit (α : Type) := Supply → Emitted α

namespace Emit

variable {α β : Type}

/-- A value that needs no code. -/
@[inline] def pure (a : α) : Emit α := fun s => { value := a, supply := s }

/-- Go on with a value; the earlier code stands first. -/
@[inline] def bind (x : Emit α) (f : α → Emit β) : Emit β := fun s =>
  let first := x s
  let second := f first.value first.supply
  { value := second.value
    code := first.code ++ second.code
    reports := first.reports ++ second.reports
    supply := second.supply }

instance : Monad Emit where
  pure := Emit.pure
  bind := Emit.bind

/-- Emit instructions. -/
def emit (code : List Inst) : Emit Unit := fun s => { value := (), code, supply := s }

/-- Report a problem at a place. -/
def complain (p : Pos) (message : String) : Emit Unit := fun s =>
  { value := (), reports := [.error .generation p.line p.col message], supply := s }

/-- The name of a temporary register. -/
def tempName (n : Nat) : String := "t" ++ toString n

/-- The least number from `n` on whose temporary is not declared. One of the next
numbers is free, as many as there are declarations and one more. -/
def freshTemp (vars : List Var) (n : Nat) : Nat :=
  ((List.range (vars.length + 1)).find? fun k =>
    !(vars.any fun v => v.name = tempName (n + k))).getD 0 + n

/-- Declare a temporary register. -/
def temp (t : Ty) : Emit Reg := fun s =>
  let n := freshTemp s.vars s.temps
  { value := ⟨tempName n, t⟩
    supply := { s with temps := n + 1, vars := s.vars ++ [⟨tempName n, t, .temp⟩] } }

/-- Take a number for the labels of a statement or an expression. -/
def labelNumber : Emit Nat := fun s =>
  { value := s.labels, supply := { s with labels := s.labels + 1 } }

end Emit

open Emit (emit complain temp labelNumber)

/-- A label of a kind with a number. -/
def labelName (kind : String) (n : Nat) : String := kind ++ "_" ++ toString n

/-! ## Expressions -/

/-- The type of the register that holds the value of an expression. -/
def valueType (m : Mark) : Ty := m.useType?.getD .int

/-- The register for a value: the one it has to go to, or else a temporary. -/
def destination (m : Mark) : Option Reg → Emit Reg
  | some d => pure d
  | none => temp (valueType m)

/-- A value that is at hand, moved to the register it has to go to. -/
def settle (v : Operand) : Option Reg → Emit Operand
  | some d => do
    emit [.assign d (some v)]
    return .reg d
  | none => pure v

/-- What a name refers to. A name that was not resolved is taken for a local
variable of unknown type. -/
def refOf (m : Mark) : Typing.Ref := m.ref.getD ⟨.localVar, .unknown⟩

/-- The operand of a name. -/
def nameValue (m : Mark) (name : String) (dst : Option Reg) : Emit Operand :=
  match (refOf m).kind with
  | .localVar => settle (.reg ⟨name, (refOf m).type⟩) dst
  | .param => settle (.reg ⟨name, (refOf m).type⟩) dst
  | .field => do
    let d ← destination m dst
    emit [.getField d name]
    return .reg d
  | .assumed => do
    let d ← destination m dst
    emit [.getField d name]
    return .reg d
  | .cls => do
    complain m.pos ("unresolved identifier " ++ name)
    return .int 0

/-- The call instruction of a call whose operands have been computed. -/
def callInst (callee : Typing.Callee) (dst : Option Reg) (recv : Option Operand) (method : String)
    (args : List Operand) (used : Ty) : Call where
  kind := if callee.isStatic then .static else .virtual
  dst := dst
  owner := callee.owner
  recv := recv
  method := method
  args := args.map some
  params := match callee.method with
    | some m => m.paramTypes
    | none => args.map Operand.type
  ret := match callee.method with
    | some m => m.ret
    | none => used

mutual

/-- Compute an expression into a register, or into wherever is best. -/
def exprValue (cls : String) (dst : Option Reg) : Expr Mark → Emit Operand
  | .int _ v => settle (.int v) dst
  | .bool _ b => settle (.bool b) dst
  | .this _ => settle (.reg ⟨"this", .object cls⟩) dst
  | .ident m name => nameValue m name dst
  | .binary _ .and l r => do
    let n ← labelNumber
    let d ← temp .boolean
    let _ ← exprValue cls (some d) l
    emit [.branch (some (.reg d)) (labelName "and_rhs" n), .goto (labelName "and_end" n),
      .label (labelName "and_rhs" n)]
    let _ ← exprValue cls (some d) r
    emit [.label (labelName "and_end" n)]
    settle (.reg d) dst
  | .binary m op l r => do
    let a ← exprValue cls none l
    let b ← exprValue cls none r
    let d ← destination m dst
    emit [.binary d op (some a) (some b)]
    return .reg d
  | .not m x => do
    let a ← exprValue cls none x
    let d ← destination m dst
    emit [.unary d .not (some a)]
    return .reg d
  | .index m a i => do
    let array ← exprValue cls none a
    let index ← exprValue cls none i
    let d ← destination m dst
    emit [.load d (some array) (some index)]
    return .reg d
  | .length m a => do
    let array ← exprValue cls none a
    let d ← destination m dst
    emit [.length d (some array)]
    return .reg d
  | .newArray m n => do
    let len ← exprValue cls none n
    let d ← destination m dst
    emit [.newArray d (some len)]
    return .reg d
  | .newObject m name => do
    let d ← destination m dst
    emit [.new d name,
      .call { kind := .special, owner := name, recv := some (.reg d), method := "<init>",
              ret := .void }]
    return .reg d
  | .call m r name as =>
    match m.callee with
    | none => do
      complain m.pos ("unresolved call " ++ name)
      return .int 0
    | some callee => do
      let recv ← if callee.isStatic then pure none else some <$> exprValue cls none r
      let args ← argValues cls as
      let c := callInst callee none recv name args (valueType m)
      if c.ret.isVoid then
        complain m.pos ("void call " ++ name ++ " used as a value")
        return .int 0
      else
        let d ← destination m dst
        emit [.call { c with dst := some d }]
        return .reg d
  | .hole => pure (.int 0)

/-- Compute arguments in order. -/
def argValues (cls : String) : List (Expr Mark) → Emit (List Operand)
  | [] => pure []
  | x :: rest => do
    let first ← exprValue cls none x
    let others ← argValues cls rest
    return first :: others

end

/-! ## Statements -/

/-- A call whose result is dropped. Where nothing is known of the result, none is
expected. -/
def callStmt (cls : String) (m : Mark) (r : Expr Mark) (name : String) (as : List (Expr Mark)) :
    Emit Unit :=
  match m.callee with
  | none => complain m.pos ("unresolved call " ++ name)
  | some callee => do
    let recv ← if callee.isStatic then pure none else some <$> exprValue cls none r
    let args ← argValues cls as
    emit [.call (callInst callee none recv name args (m.useType?.getD .void))]

/-- An assignment to a name: to the register of a variable, or to a field. -/
def assignTo (cls : String) (t : Target Mark) (v : Expr Mark) : Emit Unit := do
  let toReg := do
    let _ ← exprValue cls (some ⟨t.name, (refOf t.mark).type⟩) v
    return ()
  match (refOf t.mark).kind with
  | .localVar => toReg
  | .param => toReg
  | _ =>
    let x ← exprValue cls none v
    emit [.putField t.name (some x)]

mutual

/-- The code of a statement. -/
def stmtCode (cls : String) : Stmt Mark → Emit Unit
  | .block _ ss => stmtsCode cls ss
  | .ifElse _ c y n => do
    let k ← labelNumber
    let cond ← exprValue cls none c
    emit [.branch (some cond) (labelName "if_then" k)]
    stmtCode cls n
    emit [.goto (labelName "if_end" k), .label (labelName "if_then" k)]
    stmtCode cls y
    emit [.label (labelName "if_end" k)]
  | .while _ c b => do
    let k ← labelNumber
    emit [.goto (labelName "while_cond" k), .label (labelName "while_body" k)]
    stmtCode cls b
    emit [.label (labelName "while_cond" k)]
    let cond ← exprValue cls none c
    emit [.branch (some cond) (labelName "while_body" k)]
  | .assign _ t v => assignTo cls t v
  | .arrayAssign _ t i v => do
    let array ← nameValue t.mark t.name none
    let index ← exprValue cls none i
    let value ← exprValue cls none v
    emit [.store (some array) (some index) (some value)]
  | .expr _ x =>
    match x with
    | .call m r name as => callStmt cls m r name as
    | x => do
      let _ ← exprValue cls none x
      return ()
  | .hole => pure ()

/-- The code of statements in order. -/
def stmtsCode (cls : String) : List (Stmt Mark) → Emit Unit
  | [] => pure ()
  | s :: rest => do
    stmtCode cls s
    stmtsCode cls rest

end

/-! ## Methods and classes -/

/-- The registers of the object, the parameters and the local variables. -/
def declaredVars (cls : String) (s : MethodSymbol) : List Var :=
  (if s.isStatic then [] else [⟨"this", .object cls, .this⟩]) ++
    s.params.map (fun p => ⟨p.name, p.type, .param⟩) ++
    s.locals.map (fun l => ⟨l.name, l.type, .declared⟩)

/-- The end of a body: the value is returned if the method has one to return. -/
def returnCode (cls : String) (ret : Ty) : Option (Expr Mark) → Emit Unit
  | some x => do
    if ret.isVoid then
      emit [.retVoid]
    else
      let v ← exprValue cls none x
      emit [.ret (some v)]
  | none => emit [.retVoid]

/-- The code of a method. -/
def methodCode (cls : String) (s : MethodSymbol) (m : Syntax.Method Mark) : Logged Method :=
  let made := (do stmtsCode cls m.body; returnCode cls s.ret m.result : Emit Unit)
    { vars := declaredVars cls s }
  ⟨{ name := s.name
     line := s.line
     isStatic := s.isStatic
     params := s.params.map fun p => ⟨p.name, p.type, .param⟩
     ret := s.ret
     vars := made.supply.vars
     code := made.code }, made.reports⟩

/-- The constructor: it does nothing but call the constructor of the superclass. -/
def constructorCode (cls super : String) : Method where
  name := cls
  isConstructor := true
  ret := .void
  vars := [⟨"this", .object cls, .this⟩]
  code := [
    .call { kind := .special, owner := super, recv := some (.reg ⟨"this", .object cls⟩),
            method := "<init>", ret := .void },
    .retVoid]

/-- The code of an analysed class: the constructor, then the methods that the table
lists. -/
def classCode (a : Typing.Analysis) : Logged Class := do
  let t := a.table
  let methods ← t.methods.mapM fun s =>
    match a.file.cls.methods[s.decl]? with
    | some m => methodCode t.cls s m
    | none => pure { name := s.name, ret := s.ret }
  return { name := t.cls
           super := t.super
           imports := t.importNames
           fields := t.fields.map fun f => ⟨f.name, f.type⟩
           methods := constructorCode t.cls t.super :: methods }

/-- The code of an analysed class that may be missing. -/
def classCode? : Option Typing.Analysis → Logged (Option Class)
  | some a => some <$> classCode a
  | none => ⟨none, [.error .generation 0 0 "nothing to lower"]⟩

/-! ## Trees with missing parts -/

mutual

/-- No missing part is met when an expression is computed. Nothing is computed for
a call that is not resolved, nor for a class as receiver. -/
def isComputable : Expr Mark → Bool
  | .binary _ _ l r => isComputable l && isComputable r
  | .not _ x => isComputable x
  | .index _ a i => isComputable a && isComputable i
  | .length _ a => isComputable a
  | .call m r _ as =>
    match m.callee with
    | some callee => (callee.isStatic || isComputable r) && areComputable as
    | none => true
  | .newArray _ n => isComputable n
  | .hole => false
  | _ => true

/-- No missing part is met when expressions are computed. -/
def areComputable : List (Expr Mark) → Bool
  | [] => true
  | x :: rest => isComputable x && areComputable rest

end

mutual

/-- No missing part is met when a statement is executed. -/
def isExecutable : Stmt Mark → Bool
  | .block _ ss => areExecutable ss
  | .ifElse _ c y n => isComputable c && isExecutable y && isExecutable n
  | .while _ c b => isComputable c && isExecutable b
  | .assign _ _ v => isComputable v
  | .arrayAssign _ _ i v => isComputable i && isComputable v
  | .expr _ x => isComputable x
  | .hole => false

/-- No missing part is met when statements are executed. -/
def areExecutable : List (Stmt Mark) → Bool
  | [] => true
  | s :: rest => isExecutable s && areExecutable rest

end

/-- No missing part is met in the methods that the table lists. A result that a
void method gives is not computed. -/
def hasCode (a : Typing.Analysis) : Bool :=
  a.table.methods.all fun s =>
    match a.file.cls.methods[s.decl]? with
    | some m => areExecutable m.body && (s.ret.isVoid || m.result.all isComputable)
    | none => true

end JavaMinus.Code
