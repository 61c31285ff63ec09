import MiniSharp.Analysis.Note

/-!
Checking programs. Names are resolved and expressions typed in one pass over each function, after
all functions are declared; the result is the program with its notes, or the first violation.
-/

namespace MiniSharp

namespace Typing

def violation {α : Type} (t : Token) (v : Violation) : Except Stop α :=
  .error (.semantic ⟨some t, v⟩)

def require (ok : Bool) (t : Token) (v : Violation) : Except Stop Unit :=
  if ok then .ok () else violation t v

def unaryType (t : Token) (op : TokenKind) (operand : Ty) : Except Stop Ty :=
  match op with
  | .operator .minus => if operand.isNumeric then .ok operand else violation t (.negated operand)
  | .operator .not => if operand = .bool then .ok .bool else violation t (.inverted operand)
  | op => .error (.fault (.badUnary op.name))

def binaryType (t : Token) (op : TokenKind) (left right : Ty) : Except Stop Ty :=
  let refuse := violation t (.operands op left right)
  let numeric := left.isNumeric && right.isNumeric
  match op with
  | .operator .plus =>
    if left = .string ∨ right = .string then .ok .string
    else if numeric then .ok (left.arithmetic right)
    else refuse
  | .operator .minus | .operator .times | .operator .divide | .operator .modulo =>
    if numeric then .ok (left.arithmetic right) else refuse
  | .operator .equal | .operator .notEqual =>
    if left.comparable right then .ok .bool else refuse
  | .operator .less | .operator .greater | .operator .lessEqual | .operator .greaterEqual =>
    if numeric then .ok .bool else refuse
  | .operator .and | .operator .or =>
    if left = .bool ∧ right = .bool then .ok .bool else refuse
  | op => .error (.fault (.badBinary op.name))

def resolveVariable (scope : Scope) (t : Token) (name : Text) : Except Stop (Symbol × Ty) :=
  match scope.resolve? name with
  | none => violation t (.undeclaredVariable name)
  | some x =>
    match x.sort with
    | .var type => .ok (x, type)
    | .func _ _ => violation t (.notAVariable name)

structure Callee where
  symbol : Symbol
  params : List Ty
  result : Ty

def resolveFunction (scope : Scope) (t : Token) (name : Text) : Except Stop Callee :=
  match scope.resolve? name with
  | none => violation t (.undeclaredFunction name)
  | some x =>
    match x.sort with
    | .func params result => .ok ⟨x, params, result⟩
    | .var _ => violation t (.notAFunction name)

mutual

def expr (scope : Scope) : Expr Unit → Except Stop (Ty × Expr Note)
  | .literal _ t value => return (value.type, .literal (.ofType value.type) t value)
  | .ident _ t name => do
    let (x, type) ← resolveVariable scope t name
    return (type, .ident { Note.ofUse x with type } t name)
  | .call _ t name args => do
    let f ← resolveFunction scope t name
    require (args.length == f.params.length) t (.argumentCount name f.params.length args.length)
    let args ← arguments scope name 1 f.params args
    return (f.result, .call { Note.ofUse f.symbol with type := f.result } t name args)
  | .unary _ t op operand => do
    let (found, operand) ← expr scope operand
    let type ← unaryType t op found
    return (type, .unary (.ofType type) t op operand)
  | .binary _ t op left right => do
    let (leftType, left) ← expr scope left
    let (rightType, right) ← expr scope right
    let type ← binaryType t op leftType rightType
    return (type, .binary (.ofType type) t op left right)
  | .foreign _ kind => .error (.fault (kind.elim .absentNode fun kind => .badExpression kind.name))

def arguments (scope : Scope) (function : Text) (index : Nat) :
    List Ty → List (Expr Unit) → Except Stop (List (Expr Note))
  | param :: params, arg :: args => do
    let (found, checked) ← expr scope arg
    require (param.accepts found) arg.token (.argumentType index function param found)
    return checked :: (← arguments scope function (index + 1) params args)
  | _, _ => return []

end

def fitted (scope : Scope) (expected : Ty) (v : Ty → Violation) (e : Expr Unit) :
    Except Stop (Expr Note) := do
  let (found, checked) ← expr scope e
  require (expected.accepts found) e.token (v found)
  return checked

def condition (scope : Scope) (word : Keyword) (e : Expr Unit) : Except Stop (Expr Note) := do
  let (found, checked) ← expr scope e
  require (found == .bool) e.token (.condition word found)
  return checked

/-- Where a statement stands: the function, its result, the scope, and how many variables the
function has declared so far. -/
structure Place where
  function : Text
  result : Ty
  scope : Scope
  serial : Nat

namespace Place

def inner (p : Place) : Place := { p with scope := p.scope.push }

def leave (p inside : Place) : Place := { p with serial := inside.serial }

def declare (p : Place) (t : Token) (name : Text) (type : Ty) : Except Stop (Symbol × Place) :=
  let x : Symbol := ⟨.var p.function p.serial, name, .var type, t.pos⟩
  match p.scope.define? x with
  | some scope => .ok (x, { p with scope, serial := p.serial + 1 })
  | none => violation t (.variableRedeclared name)

end Place

mutual

def stmt (p : Place) : Stmt Unit → Except Stop (Stmt Note × Place)
  | .declare _ t name type none => do
    let (x, p) ← p.declare t name type
    return (.declare (.ofDeclaration x) t name type none, p)
  | .declare _ t name type (some value) => do
    let value ← fitted p.scope type (.declaredType name type) value
    let (x, p) ← p.declare t name type
    return (.declare (.ofDeclaration x) t name type (some value), p)
  | .assign _ t name value => do
    let (x, type) ← resolveVariable p.scope t name
    let value ← fitted p.scope type (.assignedType name type) value
    return (.assign (.ofUse x) t name value, p)
  | .input _ t name => do
    let (x, type) ← resolveVariable p.scope t name
    return (.input { Note.ofUse x with input := type } t name, p)
  | .print t value => do
    let (_, value) ← expr p.scope value
    return (.print t value, p)
  | .evaluate t value => do
    let (_, value) ← expr p.scope value
    return (.evaluate t value, p)
  | .ret t value => do
    let value ← fitted p.scope p.result (.returnedType p.function p.result) value
    return (.ret t value, p)
  | .ifThen t cond brace body => do
    let cond ← condition p.scope .ifKw cond
    let (body, inside) ← stmts p.inner body
    return (.ifThen t cond brace body, p.leave inside)
  | .ifElse t cond brace body elseBrace elseBody => do
    let cond ← condition p.scope .ifKw cond
    let (body, inside) ← stmts p.inner body
    let (elseBody, elseInside) ← stmts (p.leave inside).inner elseBody
    return (.ifElse t cond brace body elseBrace elseBody, p.leave elseInside)
  | .whileDo t cond brace body => do
    let cond ← condition p.scope .whileKw cond
    let (body, inside) ← stmts p.inner body
    return (.whileDo t cond brace body, p.leave inside)
  | .forDo t init cond step brace body => do
    let (init, inside) ← stmt? p.inner init
    let cond ← cond.mapM (condition inside.scope .forKw)
    let (body, inside) ← stmts inside body
    let (step, inside) ← stmt? inside step
    return (.forDo t init cond step brace body, p.leave inside)
  | .block brace body => do
    let (body, inside) ← stmts p.inner body
    return (.block brace body, p.leave inside)
  | .foreign _ kind => .error (.fault (kind.elim .absentNode fun kind => .badStatement kind.name))

def stmt? (p : Place) : Option (Stmt Unit) → Except Stop (Option (Stmt Note) × Place)
  | none => return (none, p)
  | some s => do
    let (s, p) ← stmt p s
    return (some s, p)

def stmts (p : Place) : List (Stmt Unit) → Except Stop (List (Stmt Note) × Place)
  | [] => return ([], p)
  | s :: rest => do
    let (s, p) ← stmt p s
    let (rest, p) ← stmts p rest
    return (s :: rest, p)

end

def params (p : Place) : List (Param Unit) → Except Stop (List (Param Note) × Place)
  | [] => return ([], p)
  | x :: rest => do
    let (symbol, p) ← p.declare x.token x.name x.type
    let (rest, p) ← params p rest
    return (⟨.ofDeclaration symbol, x.token, x.name, x.type⟩ :: rest, p)

def entryName : Text := "main"

def signature (f : Func Unit) : Symbol :=
  ⟨.func f.name, f.name, .func (f.params.map Param.type) f.result, f.token.pos⟩

def addFunction (scope : Scope) (f : Func Unit) : Except Stop Scope :=
  if scope.declares f.name then violation f.token (.functionRedeclared f.name)
  else if f.name = entryName ∧ (f.params ≠ [] ∨ f.result ≠ .int) then
    violation f.token .mainSignature
  else .ok { scope with symbols := scope.symbols ++ [signature f] }

def function (scope : Scope) (f : Func Unit) : Except Stop (Func Note) := do
  let (params, p) ← params ⟨f.name, f.result, scope.push, 0⟩ f.params
  let (body, _) ← stmts p f.body
  return ⟨.ofDeclaration (signature f), f.token, f.name, params, f.result, f.brace, body⟩

end Typing

structure Analysis where
  global : Scope
  program : Program Note

def Program.analyze (x : Program Unit) : Except Stop Analysis := do
  let global ← x.functions.foldlM Typing.addFunction Scope.global
  let functions ← x.functions.mapM (Typing.function global)
  return ⟨global, ⟨x.token, functions⟩⟩

def Tree.analyze (t : Tree) : Except Stop Analysis :=
  match t.toProgram? with
  | some x =>
    if t.functions.all declarable then x.analyze
    else do
      let _ ← ((t.functions.takeWhile declarable).map toFunc).foldlM Typing.addFunction Scope.global
      throw (.fault .absentNode)
  | none => .error (.semantic ⟨none, .notAProgram⟩)

def Expr.analyze (scope : Scope) (e : Expr Unit) : Except Stop (Ty × Expr Note) :=
  Typing.expr scope e

end MiniSharp
