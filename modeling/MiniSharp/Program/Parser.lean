import MiniSharp.Diagnostic.Basic
import MiniSharp.Program.Basic
import MiniSharp.Token.Lexer

/-!
Reading programs and expressions from tokens. A step either reads a value from the front of the
tokens, leaving fewer of them, or stops at the first token that does not fit and leaves the tokens
from there on. Binary operators associate to the left; which of them binds closer is a number.
-/

namespace MiniSharp

namespace Parser

structure Failure where
  rest : List Token
  expected : Expectation

structure Read (α : Type) (n : Nat) where
  value : α
  rest : List Token
  lt : rest.length < n

abbrev Step (α : Type) (n : Nat) := Except Failure (Read α n)

def expect (kind : TokenKind) (what : Expectation) : (ts : List Token) → Step Token ts.length
  | [] => .error ⟨[], what⟩
  | t :: rest =>
    if t.kind = kind then .ok ⟨t, rest, Nat.lt_succ_self _⟩ else .error ⟨t :: rest, what⟩

def at? (kind : TokenKind) : List Token → Bool
  | [] => false
  | t :: _ => t.kind == kind

theorem tail_length_of_at? {kind : TokenKind} {ts : List Token} (h : at? kind ts) :
    ts.tail.length < ts.length := by
  cases ts with
  | nil => simp [at?] at h
  | cons t rest => simp

/-- How close a binary operator binds; 0 for what is none. -/
def precedence : TokenKind → Nat
  | .operator .or => 1
  | .operator .and => 2
  | .operator .equal | .operator .notEqual => 3
  | .operator .less | .operator .greater | .operator .lessEqual | .operator .greaterEqual => 4
  | .operator .plus | .operator .minus => 5
  | .operator .times | .operator .divide | .operator .modulo => 6
  | _ => 0

def isUnary (kind : TokenKind) : Bool := kind == .operator .not || kind == .operator .minus

def maxInt : Nat := 2147483647

def literal? (t : Token) : Option (Except Expectation Literal) :=
  match t.kind with
  | .intLiteral =>
    some (if Text.value t.text ≤ maxInt then .ok (.int (Text.value t.text)) else .error .intInRange)
  | .floatLiteral =>
    some (match Binary32.ofDecimal? t.text with
      | some x => .ok (.float x)
      | none => .error .floatInRange)
  | .charLiteral => some (.ok (.char (t.text.headD 0)))
  | .stringLiteral => some (.ok (.string t.text))
  | .keyword .trueKw => some (.ok (.bool true))
  | .keyword .falseKw => some (.ok (.bool false))
  | _ => none

mutual

/-- An expression whose binary operators outside parentheses have at least a given precedence. -/
def binary (least : Nat) (ts : List Token) : Step (Expr Unit) ts.length := do
  let left ← unary ts
  let all ← operators least left.value left.rest
  return ⟨all.value, all.rest, by have := left.lt; have := all.lt; omega⟩
termination_by 4 * ts.length + 2
decreasing_by
  · omega
  · have := left.lt
    omega

def operators (least : Nat) (left : Expr Unit) :
    (ts : List Token) → Step (Expr Unit) (ts.length + 1)
  | [] => .ok ⟨left, [], Nat.lt_succ_self _⟩
  | t :: rest =>
    if precedence t.kind = 0 ∨ precedence t.kind < least then
      .ok ⟨left, t :: rest, Nat.lt_succ_self _⟩
    else do
      let right ← binary (precedence t.kind + 1) rest
      let all ← operators least (.binary () t t.kind left right.value) right.rest
      return ⟨all.value, all.rest, by
        have := right.lt
        have := all.lt
        simp only [List.length_cons]
        omega⟩
termination_by ts => 4 * ts.length + 3
decreasing_by
  · simp only [List.length_cons]
    omega
  · have := right.lt
    simp only [List.length_cons]
    omega

def unary : (ts : List Token) → Step (Expr Unit) ts.length
  | [] => .error ⟨[], .expression⟩
  | t :: rest =>
    if isUnary t.kind then do
      let operand ← unary rest
      return ⟨.unary () t t.kind operand.value, operand.rest, by
        have := operand.lt
        simp only [List.length_cons]
        omega⟩
    else primary t rest
termination_by ts => 4 * ts.length + 1
decreasing_by
  · simp
  · simp only [List.length_cons]
    omega

def primary (t : Token) (rest : List Token) : Step (Expr Unit) (t :: rest).length :=
  match literal? t with
  | some (.ok value) => .ok ⟨.literal () t value, rest, Nat.lt_succ_self _⟩
  | some (.error what) => .error ⟨t :: rest, what⟩
  | none =>
    if t.kind = .identifier then
      if h : at? (.delimiter .openParen) rest then do
        let args ← arguments rest.tail
        return ⟨.call () t t.text args.value, args.rest, by
          have := args.lt
          simp only [List.length_cons, List.length_tail] at this ⊢
          omega⟩
      else .ok ⟨.ident () t t.text, rest, Nat.lt_succ_self _⟩
    else if t.kind = .delimiter .openParen then do
      let inner ← binary 1 rest
      let close ← expect (.delimiter .closeParen) .closeParenthesis inner.rest
      return ⟨inner.value, close.rest, by
        have := inner.lt
        have := close.lt
        simp only [List.length_cons]
        omega⟩
    else .error ⟨t :: rest, .expression⟩
termination_by 4 * rest.length + 4
decreasing_by
  · have := tail_length_of_at? h
    omega
  · omega

def arguments (ts : List Token) : Step (List (Expr Unit)) (ts.length + 1) :=
  if at? (.delimiter .closeParen) ts then .ok ⟨[], ts.tail, by rw [List.length_tail]; omega⟩
  else do
    let args ← expressions ts
    let close ← expect (.delimiter .closeParen) .closeAfterArguments args.rest
    return ⟨args.value, close.rest, by have := args.lt; have := close.lt; omega⟩
termination_by 4 * ts.length + 4
decreasing_by omega

def expressions (ts : List Token) : Step (List (Expr Unit)) ts.length := do
  let first ← binary 1 ts
  if at? (.delimiter .comma) first.rest then
    let more ← expressions first.rest.tail
    return ⟨first.value :: more.value, more.rest, by
      have := first.lt
      have := more.lt
      simp only [List.length_tail] at this
      omega⟩
  else return ⟨[first.value], first.rest, first.lt⟩
termination_by 4 * ts.length + 3
decreasing_by
  · omega
  · have := first.lt
    simp only [List.length_tail]
    omega

end

def expression (ts : List Token) : Step (Expr Unit) ts.length := binary 1 ts

def typeName : (ts : List Token) → Step Ty ts.length
  | [] => .error ⟨[], .typeName⟩
  | t :: rest =>
    match Ty.ofToken? t.kind with
    | some type => .ok ⟨type, rest, Nat.lt_succ_self _⟩
    | none => .error ⟨t :: rest, .typeName⟩

def initializer (ts : List Token) : Step (Option (Expr Unit)) (ts.length + 1) :=
  if at? .assign ts then do
    let value ← expression ts.tail
    return ⟨some value.value, value.rest, by
      have := value.lt
      simp only [List.length_tail] at this
      omega⟩
  else .ok ⟨none, ts, Nat.lt_succ_self _⟩

def declaration (ts : List Token) : Step (Stmt Unit) ts.length := do
  let word ← expect (.keyword .varKw) .statement ts
  let name ← expect .identifier .variableName word.rest
  let colon ← expect (.delimiter .colon) .colonBeforeVariableType name.rest
  let type ← typeName colon.rest
  let value ← initializer type.rest
  let stop ← expect (.delimiter .semicolon) .endOfDeclaration value.rest
  return ⟨.declare () name.value name.value.text type.value value.value, stop.rest, by
    have := word.lt; have := name.lt; have := colon.lt; have := type.lt; have := value.lt
    have := stop.lt
    omega⟩

def isAssignment : List Token → Bool
  | t :: a :: _ => t.kind == .identifier && a.kind == .assign
  | _ => false

def startsExpression (kind : TokenKind) : Bool :=
  isUnary kind || [.intLiteral, .floatLiteral, .charLiteral, .stringLiteral, .keyword .trueKw,
    .keyword .falseKw, .identifier, .delimiter .openParen].contains kind

def simple (what : Expectation) : (ts : List Token) → Step (Stmt Unit) ts.length
  | [] => .error ⟨[], what⟩
  | t :: rest =>
    if isAssignment (t :: rest) then do
      let value ← expression rest.tail
      return ⟨.assign () t t.text value.value, value.rest, by
        have := value.lt
        simp only [List.length_tail, List.length_cons] at this ⊢
        omega⟩
    else if startsExpression t.kind then do
      let value ← expression (t :: rest)
      return ⟨.evaluate value.value.token value.value, value.rest, value.lt⟩
    else .error ⟨t :: rest, what⟩

def condition (word : Keyword) (ts : List Token) : Step (Expr Unit) ts.length := do
  let left ← expect (.delimiter .openParen) (.openAfter word) ts
  let cond ← expression left.rest
  let right ← expect (.delimiter .closeParen) (.closeAfterCondition word) cond.rest
  return ⟨cond.value, right.rest, by
    have := left.lt; have := cond.lt; have := right.lt
    omega⟩

def returnStatement (t : Token) (ts : List Token) : Step (Stmt Unit) ts.length := do
  let value ← expression ts
  let stop ← expect (.delimiter .semicolon) .endOfReturn value.rest
  return ⟨.ret t value.value, stop.rest, by have := value.lt; have := stop.lt; omega⟩

def printStatement (t : Token) (ts : List Token) : Step (Stmt Unit) ts.length := do
  let left ← expect (.delimiter .openParen) (.openAfter .printKw) ts
  let value ← expression left.rest
  let right ← expect (.delimiter .closeParen) .closeAfterPrint value.rest
  let stop ← expect (.delimiter .semicolon) (.endAfter .printKw) right.rest
  return ⟨.print t value.value, stop.rest, by
    have := left.lt; have := value.lt; have := right.lt; have := stop.lt
    omega⟩

def inputStatement (ts : List Token) : Step (Stmt Unit) ts.length := do
  let left ← expect (.delimiter .openParen) (.openAfter .inputKw) ts
  let name ← expect .identifier .inputTarget left.rest
  let right ← expect (.delimiter .closeParen) .closeAfterInput name.rest
  let stop ← expect (.delimiter .semicolon) (.endAfter .inputKw) right.rest
  return ⟨.input () name.value name.value.text, stop.rest, by
    have := left.lt; have := name.lt; have := right.lt; have := stop.lt
    omega⟩

def simpleStatement (ts : List Token) : Step (Stmt Unit) ts.length := do
  let stmt ← simple .statement ts
  let what : Expectation := if isAssignment ts then .endOfAssignment else .endOfExpression
  let stop ← expect (.delimiter .semicolon) what stmt.rest
  return ⟨stmt.value, stop.rest, by have := stmt.lt; have := stop.lt; omega⟩

def initClause (ts : List Token) : Step (Option (Stmt Unit)) ts.length :=
  match ts with
  | [] => .error ⟨[], .headerClause⟩
  | t :: rest =>
    if t.kind = .delimiter .semicolon then .ok ⟨none, rest, Nat.lt_succ_self _⟩
    else if t.kind = .keyword .varKw then do
      let stmt ← declaration (t :: rest)
      return ⟨some stmt.value, stmt.rest, stmt.lt⟩
    else do
      let stmt ← simple .headerClause (t :: rest)
      let stop ← expect (.delimiter .semicolon) .endOfInitializer stmt.rest
      return ⟨some stmt.value, stop.rest, by have := stmt.lt; have := stop.lt; omega⟩

def condClause (ts : List Token) : Step (Option (Expr Unit)) ts.length :=
  if at? (.delimiter .semicolon) ts then do
    let stop ← expect (.delimiter .semicolon) .endOfCondition ts
    return ⟨none, stop.rest, stop.lt⟩
  else do
    let cond ← expression ts
    let stop ← expect (.delimiter .semicolon) .endOfCondition cond.rest
    return ⟨some cond.value, stop.rest, by have := cond.lt; have := stop.lt; omega⟩

def stepClause (ts : List Token) : Step (Option (Stmt Unit)) ts.length :=
  if at? (.delimiter .closeParen) ts then do
    let close ← expect (.delimiter .closeParen) .closeAfterClauses ts
    return ⟨none, close.rest, close.lt⟩
  else do
    let stmt ← simple .headerClause ts
    let close ← expect (.delimiter .closeParen) .closeAfterClauses stmt.rest
    return ⟨some stmt.value, close.rest, by have := stmt.lt; have := close.lt; omega⟩

structure Header where
  init : Option (Stmt Unit)
  cond : Option (Expr Unit)
  step : Option (Stmt Unit)

def header (ts : List Token) : Step Header ts.length := do
  let left ← expect (.delimiter .openParen) (.openAfter .forKw) ts
  let init ← initClause left.rest
  let cond ← condClause init.rest
  let step ← stepClause cond.rest
  return ⟨⟨init.value, cond.value, step.value⟩, step.rest, by
    have := left.lt; have := init.lt; have := cond.lt; have := step.lt
    omega⟩

structure Block where
  brace : Token
  body : List (Stmt Unit)

theorem Read.lt_cons {α : Type} {n : Nat} {t : Token} {rest : List Token} (r : Read α n)
    (h : n ≤ rest.length) : r.rest.length < (t :: rest).length :=
  Nat.lt_succ_of_lt (Nat.lt_of_lt_of_le r.lt h)

mutual

def block (ts : List Token) : Step Block ts.length := do
  let left ← expect (.delimiter .openBrace) .openBlock ts
  let body ← statements left.rest
  let right ← expect (.delimiter .closeBrace) .closeBlock body.rest
  return ⟨⟨left.value, body.value⟩, right.rest, by
    have := left.lt; have := body.lt; have := right.lt
    omega⟩
termination_by 2 * ts.length
decreasing_by
  have := left.lt
  omega

def statements : (ts : List Token) → Step (List (Stmt Unit)) (ts.length + 1)
  | [] => .ok ⟨[], [], Nat.lt_succ_self _⟩
  | t :: rest =>
    if t.kind = .delimiter .closeBrace then .ok ⟨[], t :: rest, Nat.lt_succ_self _⟩
    else do
      let first ← statement t rest
      let more ← statements first.rest
      return ⟨first.value :: more.value, more.rest, by
        have := first.lt
        have := more.lt
        omega⟩
termination_by ts => 2 * ts.length + 1
decreasing_by
  · simp only [List.length_cons]
    omega
  · have := first.lt
    omega

def statement (t : Token) (rest : List Token) : Step (Stmt Unit) (t :: rest).length :=
  match t.kind with
  | .keyword .varKw => declaration (t :: rest)
  | .keyword .returnKw => do
    let stmt ← returnStatement t rest
    return ⟨stmt.value, stmt.rest, stmt.lt_cons (Nat.le_refl _)⟩
  | .keyword .printKw => do
    let stmt ← printStatement t rest
    return ⟨stmt.value, stmt.rest, stmt.lt_cons (Nat.le_refl _)⟩
  | .keyword .inputKw => do
    let stmt ← inputStatement rest
    return ⟨stmt.value, stmt.rest, stmt.lt_cons (Nat.le_refl _)⟩
  | .keyword .ifKw => do
    let cond ← condition .ifKw rest
    let body ← block cond.rest
    if at? (.keyword .elseKw) body.rest then
      let other ← block body.rest.tail
      return ⟨.ifElse t cond.value body.value.brace body.value.body other.value.brace
        other.value.body, other.rest, other.lt_cons (Nat.le_trans
          (List.tail_sublist body.rest).length_le (Nat.le_of_lt (Nat.lt_trans body.lt cond.lt)))⟩
    else
      return ⟨.ifThen t cond.value body.value.brace body.value.body, body.rest,
        body.lt_cons (Nat.le_of_lt cond.lt)⟩
  | .keyword .whileKw => do
    let cond ← condition .whileKw rest
    let body ← block cond.rest
    return ⟨.whileDo t cond.value body.value.brace body.value.body, body.rest,
      body.lt_cons (Nat.le_of_lt cond.lt)⟩
  | .keyword .forKw => do
    let head ← header rest
    let body ← block head.rest
    return ⟨.forDo t head.value.init head.value.cond head.value.step body.value.brace
      body.value.body, body.rest, body.lt_cons (Nat.le_of_lt head.lt)⟩
  | _ => simpleStatement (t :: rest)
termination_by 2 * rest.length + 2
decreasing_by
  · have := cond.lt
    omega
  · have := cond.lt
    have := body.lt
    simp only [List.length_tail]
    omega
  · have := cond.lt
    omega
  · have := head.lt
    omega

end

def parameter (ts : List Token) : Step (Param Unit) ts.length := do
  let name ← expect .identifier .parameterName ts
  let colon ← expect (.delimiter .colon) .colonBeforeParameterType name.rest
  let type ← typeName colon.rest
  return ⟨⟨(), name.value, name.value.text, type.value⟩, type.rest, by
    have := name.lt; have := colon.lt; have := type.lt
    omega⟩

def parameters (ts : List Token) : Step (List (Param Unit)) ts.length := do
  let first ← parameter ts
  if at? (.delimiter .comma) first.rest then
    let more ← parameters first.rest.tail
    return ⟨first.value :: more.value, more.rest, by
      have := first.lt
      have := more.lt
      simp only [List.length_tail] at this
      omega⟩
  else return ⟨[first.value], first.rest, first.lt⟩
termination_by ts.length
decreasing_by
  have := first.lt
  simp only [List.length_tail]
  omega

def parameterList (ts : List Token) : Step (List (Param Unit)) (ts.length + 1) :=
  if at? (.delimiter .closeParen) ts then .ok ⟨[], ts, Nat.lt_succ_self _⟩
  else do
    let params ← parameters ts
    return ⟨params.value, params.rest, by have := params.lt; omega⟩

def function (ts : List Token) : Step (Func Unit) ts.length := do
  let word ← expect (.keyword .funcKw) .functionWord ts
  let name ← expect .identifier .functionName word.rest
  let left ← expect (.delimiter .openParen) .parensAfterFunctionName name.rest
  let params ← parameterList left.rest
  let right ← expect (.delimiter .closeParen) .closeAfterParameters params.rest
  let colon ← expect (.delimiter .colon) .colonBeforeResult right.rest
  let result ← typeName colon.rest
  let body ← block result.rest
  return ⟨⟨(), name.value, name.value.text, params.value, result.value, body.value.brace,
    body.value.body⟩, body.rest, by
      have := word.lt; have := name.lt; have := left.lt; have := params.lt; have := right.lt
      have := colon.lt; have := result.lt; have := body.lt
      omega⟩

def functions : (ts : List Token) → Except Failure (List (Func Unit))
  | [] => .ok []
  | t :: rest => do
    let first ← function (t :: rest)
    let more ← functions first.rest
    return first.value :: more
termination_by ts => ts.length
decreasing_by
  have := first.lt
  omega

/-- The error for a failure. A token that is none by itself says so. -/
def Failure.error (f : Failure) (eof : Token) : ParseError :=
  let t := f.rest.headD eof
  match t.kind, t.problem with
  | .unknown, some p => ⟨t, .lexical p⟩
  | _, _ => ⟨t, .expected f.expected⟩

end Parser

namespace TokenStream

def current (s : TokenStream) : Token := s.tokens.headD s.eof

def readProgram (s : TokenStream) : Except ParseError (Program Unit) × TokenStream :=
  match Parser.functions s.tokens with
  | .ok functions => (.ok ⟨s.current, functions⟩, { s with tokens := [] })
  | .error f => (.error (f.error s.eof), { s with tokens := f.rest })

def readExpression (s : TokenStream) : Except ParseError (Expr Unit) × TokenStream :=
  match Parser.expression s.tokens with
  | .error f => (.error (f.error s.eof), { s with tokens := f.rest })
  | .ok r =>
    match r.rest with
    | [] => (.ok r.value, { s with tokens := [] })
    | t :: rest =>
      (.error (Parser.Failure.error ⟨t :: rest, .endOfSource⟩ s.eof), { s with tokens := t :: rest })

end TokenStream

def parse (source : Text) : Except ParseError (Program Unit) := (scan source).readProgram.1

def parseExpression (source : Text) : Except ParseError (Expr Unit) :=
  (scan source).readExpression.1

end MiniSharp
