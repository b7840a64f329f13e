import JavaMinus.Typing.Marks

/-!
# Checking a class

The checker goes through the methods that the symbol table lists, finds the type
of every expression and reports what does not fit. What is unknown fits
everything: a value that comes from an imported class is never at fault.

Problems are reported in the order in which they are met: those of the parts of
an expression before those of the expression itself.
-/

namespace JavaMinus.Typing

open Syntax

/-- The class and the method in which a name is looked up. -/
structure Scope where
  table : Table
  method : MethodSymbol

/-- Report an error at a place. -/
def complain (p : Pos) (message : String) : Logged Unit := .tell (semanticError p message)

/-- Report an error at a place if a condition holds. -/
def complainIf (c : Bool) (p : Pos) (message : String) : Logged Unit :=
  .tellIf c (semanticError p message)

/-- Report a warning at a place. -/
def warnIf (c : Bool) (p : Pos) (message : String) : Logged Unit :=
  .tellIf c (.warning .semantic p.line p.col message)

/-- A type that is known to be another than the wanted one. -/
def clashes (t want : Ty) : Bool := !t.isUnknown && t ≠ want

/-! ## Assignable types and overloads -/

/-- A value of the type that was found may stand where another is wanted: the types
agree, one of them is unknown, or the class of the value extends the class that
is wanted. -/
def assignable (t : Table) (want found : Ty) : Bool :=
  want = found || want.isUnknown || found.isUnknown ||
    (want.isObject && found.isObject && t.isA found.className want.className)

/-- Arguments fit the parameters of a method. -/
def applicable (t : Table) (args : List Ty) (m : MethodSymbol) : Bool :=
  m.params.length = args.length &&
    (m.paramTypes.zip args).all fun (p, a) => assignable t p a

/-- The outcome of looking for an overload. -/
inductive Resolution where
  | found (m : MethodSymbol)
  | ambiguous
  | missing
  deriving DecidableEq, Repr, Inhabited

/-- The overload of a name for argument types: the one with exactly these types,
or else the only one that they fit. -/
def resolve (t : Table) (name : String) (args : List Ty) : Resolution :=
  let fitting := (t.methodsNamed name).filter (applicable t args)
  match fitting.filter (fun m => m.paramTypes = args), fitting with
  | [m], _ => .found m
  | _, [m] => .found m
  | _, [] => .missing
  | _, _ => .ambiguous

/-! ## Names -/

namespace Scope

/-- The variable or field of a name. -/
def varOrField? (s : Scope) (name : String) : Option Symbol :=
  (s.method.var? name).or (s.table.field? name)

/-- What a name refers to as a value: a variable, a field, or a member that the
imported superclass is assumed to have. A field needs an object. -/
def lookup (s : Scope) (p : Pos) (name : String) : Logged (Option Ref) :=
  match s.method.var? name with
  | some v => pure (some ⟨if s.method.isParam name then .param else .localVar, v.type⟩)
  | none =>
    match s.table.field? name with
    | some f => do
      complainIf s.method.isStatic p
        ("field " ++ name ++ " cannot be referenced from static method " ++ s.method.name)
      return some ⟨.field, f.type⟩
    | none =>
      if s.table.superImported && !s.method.isStatic then pure (some ⟨.assumed, .unknown⟩)
      else pure none

/-- The class that a receiver names, if it names one and no variable. -/
def receiverClass? (s : Scope) : Expr Pos → Option (Pos × String)
  | .ident p name =>
    if s.table.knowsClass name && (s.varOrField? name).isNone then some (p, name) else none
  | _ => none

end Scope

/-! ## Expressions -/

/-- The types of the operands and of the result of a binary operator. -/
def operatorTypes : Operator → Option (Ty × Ty)
  | .add => some (.int, .int)
  | .sub => some (.int, .int)
  | .mul => some (.int, .int)
  | .div => some (.int, .int)
  | .less => some (.int, .boolean)
  | .and => some (.boolean, .boolean)
  | _ => none

/-- A name as a value. -/
def checkIdent (s : Scope) (p : Pos) (name : String) : Logged (Expr Mark) := do
  match ← s.lookup p name with
  | some r => return .ident { pos := p, type := some r.type, ref := some r } name
  | none =>
    complain p (if s.table.knowsClass name then "class " ++ name ++ " used as a value"
      else "undeclared identifier " ++ name)
    return .ident { pos := p, type := some .unknown } name

/-- The callee that is assumed where nothing is known of the methods of a class. -/
def assumedCallee (isStatic : Bool) (owner : String) : Callee := ⟨isStatic, owner, none, .unknown⟩

/-- What a call calls, from whether the receiver is a class, the type of the
receiver, the name of the method and the types of the arguments. -/
def calleeOf (t : Table) (p : Pos) (onClass : Bool) (recv : Ty) (name : String) (args : List Ty) :
    Logged (Option Callee) :=
  if onClass && recv.className ≠ t.cls then pure (some (assumedCallee true recv.className))
  else if recv.isUnknown then pure (some (assumedCallee false ""))
  else if !recv.isObject then do
    complain p ("cannot call method " ++ name ++ " on " ++ recv.text)
    return none
  else if recv.className ≠ t.cls then pure (some (assumedCallee false recv.className))
  else
    match resolve t name args with
    | .ambiguous => do
      complain p ("ambiguous call " ++ signatureText name args)
      return none
    | .missing =>
      if t.superImported && !onClass then pure (some (assumedCallee false t.cls))
      else do
        complain p ("no applicable method " ++ signatureText name args ++ " in class " ++ t.cls)
        return none
    | .found m => do
      complainIf (onClass && !m.isStatic) p
        ("non-static method " ++ m.signature ++ " cannot be called on class " ++ t.cls)
      complainIf (!onClass && m.isStatic) p
        ("static method " ++ m.signature ++ " cannot be called on an instance")
      return some ⟨m.isStatic, t.cls, some m, m.ret⟩

/-- Leave the parameter types of a method as hints on the arguments. -/
def hintArgs (callee : Option Callee) (args : List (Expr Mark)) : List (Expr Mark) :=
  match callee.bind (·.method) with
  | some m => List.zipWith hinted m.paramTypes args
  | none => args

mutual

/-- Check an expression. -/
def checkExpr (s : Scope) : Expr Pos → Logged (Expr Mark)
  | .int p v => pure (.int { pos := p, type := some .int } v)
  | .bool p v => pure (.bool { pos := p, type := some .boolean } v)
  | .this p => do
    complainIf s.method.isStatic p ("this cannot be used in static method " ++ s.method.name)
    return .this { pos := p, type := some (.object s.table.cls) }
  | .ident p name => checkIdent s p name
  | .binary p op l r =>
    match operatorTypes op with
    | none => do
      complain p ("unsupported operator " ++ op.symbol)
      return .binary { pos := p, type := some .unknown } op (l.map .plain) (r.map .plain)
    | some (operand, result) => do
      let left ← checkExpr s l
      let right ← checkExpr s r
      complainIf (clashes (typeOf left) operand || clashes (typeOf right) operand) p
        ("operator " ++ op.symbol ++ " requires " ++ operand.text ++ " operands, got " ++
          (typeOf left).text ++ " and " ++ (typeOf right).text)
      return .binary { pos := p, type := some result } op (hinted operand left)
        (hinted operand right)
  | .not p x => do
    let y ← checkExpr s x
    complainIf (clashes (typeOf y) .boolean) p
      ("operator ! requires boolean, got " ++ (typeOf y).text)
    return .not { pos := p, type := some .boolean } (hinted .boolean y)
  | .index p a i => do
    let array ← checkExpr s a
    let t := typeOf array
    complainIf (!t.isUnknown && !t.array) p ("cannot index " ++ t.text)
    let index ← checkExpr s i
    complainIf (clashes (typeOf index) .int) (i.mark?.getD p)
      ("array index must be int, got " ++ (typeOf index).text)
    let elem := if t.isUnknown then .int else if t.array then t.elem else .unknown
    return .index { pos := p, type := some elem } (hinted .intArray array) (hinted .int index)
  | .length p a => do
    let array ← checkExpr s a
    let t := typeOf array
    complainIf (!t.isUnknown && !t.array) p ("length of non-array type " ++ t.text)
    return .length { pos := p, type := some .int } (hinted .intArray array)
  | .newArray p n => do
    let len ← checkExpr s n
    complainIf (clashes (typeOf len) .int) p ("array size must be int, got " ++ (typeOf len).text)
    return .newArray { pos := p, type := some .intArray } (hinted .int len)
  | .newObject p name => do
    complainIf (!s.table.knowsClass name) p ("unknown class " ++ name)
    return .newObject { pos := p, type := some (.object name) } name
  | .call p r name as => do
    let recv ← match s.receiverClass? r with
      | some (q, c) =>
        pure (.ident { pos := q, type := some (.object c), ref := some ⟨.cls, .object c⟩ } c)
      | none => checkExpr s r
    let args ← checkArgs s as
    let callee ← calleeOf s.table p (s.receiverClass? r).isSome (typeOf recv) name
      (args.map typeOf)
    let t := match callee with
      | some c => c.ret
      | none => .unknown
    return .call { pos := p, type := some t, callee } recv name (hintArgs callee args)
  | .hole => pure .hole

/-- Check arguments, none of which may be void. -/
def checkArgs (s : Scope) : List (Expr Pos) → Logged (List (Expr Mark))
  | [] => pure []
  | a :: rest => do
    let arg ← checkExpr s a
    complainIf (typeOf arg).isVoid (a.mark?.getD {}) "void value used as an argument"
    let others ← checkArgs s rest
    return arg :: others

end

/-! ## Statements -/

/-- Check a condition of a statement that starts with the given word. -/
def checkCond (s : Scope) (what : String) (x : Expr Pos) : Logged (Expr Mark) := do
  let cond ← checkExpr s x
  complainIf (clashes (typeOf cond) .boolean) (x.mark?.getD {})
    (what ++ " condition must be boolean, got " ++ (typeOf cond).text)
  return hinted .boolean cond

/-- Check an index. -/
def checkIndex (s : Scope) (x : Expr Pos) : Logged (Expr Mark) := do
  let index ← checkExpr s x
  complainIf (clashes (typeOf index) .int) (x.mark?.getD {})
    ("array index must be int, got " ++ (typeOf index).text)
  return hinted .int index

/-- Check the left side of an assignment. -/
def checkTarget (s : Scope) (t : Target Pos) : Logged (Target Mark × Ty) := do
  match ← s.lookup t.mark t.name with
  | some r => return (⟨{ pos := t.mark, type := some r.type, ref := some r }, t.name⟩, r.type)
  | none =>
    complain t.mark ("undeclared variable " ++ t.name)
    return (⟨.plain t.mark, t.name⟩, .unknown)

/-- The statement does something even if its value is dropped. -/
def hasEffect {α : Type} : Expr α → Bool
  | .call _ _ _ _ => true
  | .newObject _ _ => true
  | _ => false

mutual

/-- Check a statement. -/
def checkStmt (s : Scope) : Stmt Pos → Logged (Stmt Mark)
  | .block p ss => do return .block (.plain p) (← checkStmts s ss)
  | .ifElse p c y n => do
    let cond ← checkCond s "if" c
    let yes ← checkStmt s y
    let no ← checkStmt s n
    return .ifElse (.plain p) cond yes no
  | .while p c b => do
    let cond ← checkCond s "while" c
    let body ← checkStmt s b
    return .while (.plain p) cond body
  | .assign p t v => do
    let (target, want) ← checkTarget s t
    let value ← checkExpr s v
    complainIf (!assignable s.table want (typeOf value)) p
      ("cannot assign " ++ (typeOf value).text ++ " to " ++ t.name ++ " of type " ++ want.text)
    return .assign (.plain p) target (hinted want value)
  | .arrayAssign p t i v => do
    let (target, found) ← checkTarget s t
    complainIf (!found.isUnknown && !found.array) p
      (t.name ++ " of type " ++ found.text ++ " is not an array")
    let target := if found.isUnknown then { target with mark.hint := some .intArray } else target
    let array := if found.isUnknown then .intArray
      else if found.array then found else Ty.unknown.arrayOf
    let index ← checkIndex s i
    let value ← checkExpr s v
    complainIf (!assignable s.table array.elem (typeOf value)) p
      ("cannot assign " ++ (typeOf value).text ++ " to element of " ++ array.text)
    return .arrayAssign (.plain p) target index (hinted array.elem value)
  | .expr p x => do
    let y ← checkExpr s x
    warnIf (!hasEffect x) p "expression result is not used"
    return .expr (.plain p) y
  | .hole => pure .hole

/-- Check statements in order. -/
def checkStmts (s : Scope) : List (Stmt Pos) → Logged (List (Stmt Mark))
  | [] => pure []
  | x :: rest => do
    let first ← checkStmt s x
    let others ← checkStmts s rest
    return first :: others

end

/-! ## Declarations -/

/-- Check a written type. Only a result may be void. -/
def checkType (t : Table) (isResult : Bool) (x : TypeExpr Pos) : Logged Unit := do
  let ty := x.ty
  complainIf (ty.isVoid && !isResult) x.mark "variable cannot have type void"
  match ty.base with
  | .object name => complainIf (!t.knowsClass name) x.mark ("unknown type " ++ name)
  | _ => pure ()

/-- Check the declaration of a parameter or a local variable. -/
def checkLocal (s : Scope) (d : VarDecl Pos) : Logged Unit := do
  checkType s.table false d.type
  warnIf ((s.table.field? d.name).isSome && !s.method.isStatic) d.mark
    (d.name ++ " shadows field " ++ d.name)

/-- Check the value that a method returns. -/
def checkResult (s : Scope) (m : Method Pos) : Logged (Option (Expr Mark)) :=
  match m.result, s.method.ret.isVoid with
  | some x, true => do
    complain (x.mark?.getD {}) ("void method " ++ s.method.name ++ " cannot return a value")
    return some (← checkExpr s x)
  | none, false => do
    complain m.mark ("missing return in method " ++ s.method.name)
    return none
  | some x, false => do
    let value ← checkExpr s x
    complainIf (!assignable s.table s.method.ret (typeOf value)) (x.mark?.getD {})
      ("cannot return " ++ (typeOf value).text ++ " from method " ++ s.method.name ++
        " returning " ++ s.method.ret.text)
    return some (hinted s.method.ret value)
  | none, true => pure none

/-- Check a method. -/
def checkMethod (s : Scope) (m : Method Pos) : Logged (Method Mark) := do
  checkType s.table true m.ret
  (m.params ++ m.locals).forM (checkLocal s)
  let body ← checkStmts s m.body
  let result ← checkResult s m
  return { m.map Mark.plain with body, result }

/-- Check the method at a place of the class. One that the table does not list has
been reported already and is left alone. -/
def checkMethodAt (t : Table) (entry : Method Pos × Nat) : Logged (Method Mark) :=
  match t.methodAt? entry.2 with
  | some m => checkMethod ⟨t, m⟩ entry.1
  | none => pure (entry.1.map Mark.plain)

/-- Check the name and the superclass of a class. -/
def checkHeader (t : Table) (c : Syntax.Class Pos) : Logged Unit := do
  complainIf (t.isImported c.name) c.mark
    ("class " ++ c.name ++ " conflicts with an imported class")
  if c.super = "" then pure ()
  else if c.super = c.name then
    complain c.mark ("class " ++ c.name ++ " cannot extend itself")
  else
    complainIf (!t.isImported c.super) c.mark ("superclass " ++ c.super ++ " is not imported")

/-- Check a class. -/
def checkClass (t : Table) (c : Syntax.Class Pos) : Logged (Syntax.Class Mark) := do
  checkHeader t c
  c.fields.forM fun d => checkType t false d.type
  let methods ← c.methods.zipIdx.mapM (checkMethodAt t)
  return { c.map Mark.plain with methods }

/-- Check a file against its table. -/
def checkFile (t : Table) (f : File Pos) : Logged (File Mark) := do
  let cls ← checkClass t f.cls
  return { f.map Mark.plain with cls }

end JavaMinus.Typing
