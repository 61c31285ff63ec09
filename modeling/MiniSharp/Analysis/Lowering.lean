import MiniSharp.Analysis.Typing
import MiniSharp.Target.Printer

/-!
Lowering checked programs to C#. Every symbol gets a name that no other symbol of its function has;
what a program relies on is read off the notes, and a missing note is a fault.
-/

namespace MiniSharp

def Expr.note? {ν : Type} : Expr ν → Option ν
  | literal note .. | ident note .. | call note .. | unary note .. | binary note .. => some note
  | foreign .. => none

namespace Lowering

structure Names where
  given : List (SymbolId × Text)
  used : List Text

def Names.give (names : Names) (x : Symbol) (name : Text) : Names :=
  ⟨(x.id, name) :: names.given, name :: names.used⟩

def defined (note : Note) (name : Text) : Except Fault Symbol :=
  match note.defines with
  | some x => .ok x
  | none => .error (.noDeclaration name)

def givenName (names : Names) (note : Note) (name : Text) : Except Fault Text :=
  match note.refers with
  | none => .error (.noReference name)
  | some x =>
    match names.given.lookup x.id with
    | some given => .ok given
    | none => .error (.unnamed x.name)

def knownType (e : Expr Note) : Except Fault Ty :=
  match e.note?.bind Note.type with
  | some type => .ok type
  | none => .error (.noExpressionType e.kind.name)

def literal (t : Token) : Literal → Except Fault Target.Expr
  | .int value => .ok (.int value)
  | .float _ => .ok (.float t.text)
  | .char value => .ok (.char value)
  | .bool value => .ok (.bool value)
  | .string value => .ok (.string value)
  | .untyped => .error .untypedLiteral

def displayed (e : Expr Note) (lowered : Target.Expr) : Except Fault Target.Expr := do
  return if (← knownType e) = .string then lowered else .display lowered

mutual

def expr (names : Names) : Expr Note → Except Fault Target.Expr
  | .literal _ t value => literal t value
  | .ident note _ name => return .name (← givenName names note name)
  | .call note _ name args =>
    if name = Typing.entryName then return .entry
    else do
      let args ← exprs names args
      return .call (← givenName names note name) args
  | .unary _ _ op operand => return .unary op (← expr names operand)
  | .binary note t op left right => do
    let l ← expr names left
    let r ← expr names right
    if op = .operator .plus then
      if (← knownType (.binary note t op left right)) = .string then
        return .binary op (← displayed left l) (← displayed right r)
    return .binary op l r
  | .foreign _ kind => .error (kind.elim .absentNode fun kind => .unlowerableExpression kind.name)

def exprs (names : Names) : List (Expr Note) → Except Fault (List Target.Expr)
  | [] => return []
  | e :: rest => return (← expr names e) :: (← exprs names rest)

end

def isCall : Expr Note → Bool
  | .call .. => true
  | _ => false

def declare (names : Names) (note : Note) (name : Text) : Except Fault (Text × Names) := do
  let x ← defined note name
  let given := Target.localName name names.used
  return (given, names.give x given)

def simple (names : Names) : Stmt Note → Except Fault (Target.Simple × Names)
  | .declare note _ name type value => do
    let value ← match value with
      | none => pure (.default type)
      | some e => expr names e
    let (given, names) ← declare names note name
    return (.declare type given value, names)
  | .assign note _ name value => do
    let given ← givenName names note name
    return (.assign given (← expr names value), names)
  | .evaluate _ value => do
    let lowered ← expr names value
    return (if isCall value then .call lowered else .discard lowered, names)
  | s => .error (.badSimpleStatement s.kind.name)

def simple? (names : Names) :
    Option (Stmt Note) → Except Fault (Option Target.Simple × Names)
  | none => return (none, names)
  | some s => do
    let (s, names) ← simple names s
    return (some s, names)

mutual

def exprRefs : Expr Note → List SymbolId
  | .ident note .. => note.refers.toList.map Symbol.id
  | .call note _ _ args => note.refers.toList.map Symbol.id ++ exprsRefs args
  | .unary _ _ _ operand => exprRefs operand
  | .binary _ _ _ left right => exprRefs left ++ exprRefs right
  | .literal .. | .foreign .. => []

def exprsRefs : List (Expr Note) → List SymbolId
  | [] => []
  | e :: rest => exprRefs e ++ exprsRefs rest

end

mutual

def stmtRefs : Stmt Note → List SymbolId
  | .declare _ _ _ _ value => value.elim [] exprRefs
  | .assign note _ _ value => note.refers.toList.map Symbol.id ++ exprRefs value
  | .input note .. => note.refers.toList.map Symbol.id
  | .print _ value | .evaluate _ value | .ret _ value => exprRefs value
  | .block _ body => stmtsRefs body
  | .ifThen .. | .ifElse .. | .whileDo .. | .forDo .. | .foreign .. => []

def stmtsRefs : List (Stmt Note) → List SymbolId
  | [] => []
  | s :: rest => stmtRefs s ++ stmtsRefs rest

end

def declared : List (Stmt Note) → Except Fault (List SymbolId)
  | [] => return []
  | .declare note _ name _ _ :: rest => return (← defined note name).id :: (← declared rest)
  | _ :: rest => declared rest

/-- Whether the step of a loop names a variable declared directly in its body, which is in scope for
the step but would not be in a for header. -/
def stepUsesBody (step : Option (Stmt Note)) (body : List (Stmt Note)) : Except Fault Bool :=
  match step with
  | none => return false
  | some step => return (← declared body).any fun x => x ∈ stmtRefs step

mutual

def stmt (names : Names) : Stmt Note → Except Fault (Target.Stmt × Names)
  | .print _ value => return (.print (.display (← expr names value)), names)
  | .input note _ name => do
    let given ← givenName names note name
    match note.input with
    | none | some (.other _) => .error .noInputType
    | some type => return (.read given type, names)
  | .ret _ value => return (.ret (← expr names value), names)
  | .ifThen _ cond _ body => do
    let cond ← expr names cond
    let (body, names) ← stmts names body
    return (.ifThen cond body, names)
  | .ifElse _ cond _ body _ elseBody => do
    let cond ← expr names cond
    let (body, names) ← stmts names body
    let (elseBody, names) ← stmts names elseBody
    return (.ifElse cond body elseBody, names)
  | .whileDo _ cond _ body => do
    let cond ← expr names cond
    let (body, names) ← stmts names body
    return (.whileDo cond body, names)
  | .forDo _ init cond step _ body => do
    if ← stepUsesBody step body then
      let (init, names) ← simple? names init
      let cond ← cond.mapM (expr names)
      let (body, names) ← stmts names body
      let (step, names) ← simple? names step
      return (.block ((init.map .simple).toList ++
        [.whileDo (cond.getD (.bool true)) (body ++ (step.map .simple).toList)]), names)
    else
      let (init, names) ← simple? names init
      let cond ← cond.mapM (expr names)
      let (step, names) ← simple? names step
      let (body, names) ← stmts names body
      return (.forDo init cond step body, names)
  | .block _ body => do
    let (body, names) ← stmts names body
    return (.block body, names)
  | .foreign _ kind => .error (kind.elim .absentNode fun kind => .unlowerableStatement kind.name)
  | s => do
    let (s, names) ← simple names s
    return (.simple s, names)

def stmts (names : Names) : List (Stmt Note) → Except Fault (List Target.Stmt × Names)
  | [] => return ([], names)
  | s :: rest => do
    let (s, names) ← stmt names s
    let (rest, names) ← stmts names rest
    return (s :: rest, names)

end

def params (names : Names) : List (Param Note) → Except Fault (List Target.Local × Names)
  | [] => return ([], names)
  | x :: rest => do
    let (given, names) ← declare names x.note x.name
    let (rest, names) ← params names rest
    return (⟨x.type, given⟩ :: rest, names)

def isReturn : Stmt Note → Bool
  | .ret .. => true
  | _ => false

def returns (body : List (Stmt Note)) : Bool := (body.getLast?.map isReturn).getD false

def methodName (name : Text) (used : List Text) : Text :=
  if name = Typing.entryName then "Main"
  else if name ∈ Target.reserved then Target.freshName name used
  else Target.escapeName name

def nameMethods (used : List Text) :
    List (Func Note) → Except Fault (List (SymbolId × Text))
  | [] => return []
  | f :: rest => do
    let x ← defined f.note f.name
    let given := methodName f.name used
    return (x.id, given) :: (← nameMethods (given :: used) rest)

/-- The method of a function, where some names are given and some are taken, and the names that are
given after it. A body that may reach its end returns the default value there. -/
def method (used : List Text) (given : List (SymbolId × Text)) (f : Func Note) :
    Except Fault (Target.Method × List (SymbolId × Text)) := do
  let x ← defined f.note f.name
  let (params, names) ← params ⟨given, used⟩ f.params
  let (body, names) ← stmts names f.body
  let m := {
    entry := f.name = Typing.entryName
    result := f.result
    name := (given.lookup x.id).getD []
    params
    body := if returns f.body then body else body ++ [.ret (.default f.result)] }
  return (m, names.given)

/-- The methods of functions. What is taken is the same for each of them, and the names that one is
given stay with the next. -/
def functions (used : List Text) (given : List (SymbolId × Text)) :
    List (Func Note) → Except Fault (List Target.Method)
  | [] => return []
  | f :: rest => do
    let (m, given) ← method used given f
    return m :: (← functions used given rest)

end Lowering

def Program.lower (x : Program Note) : Except Fault (List Target.Method) := do
  let names := (x.functions.map Func.name).filter (· ≠ Typing.entryName)
  let methods ← Lowering.nameMethods (Target.reserved ++ names) x.functions
  Lowering.functions (Target.reserved ++ methods.map Prod.snd) methods x.functions

def Program.toCSharp (x : Program Note) : Except Fault Text :=
  return Target.renderFile (← x.lower)

end MiniSharp
