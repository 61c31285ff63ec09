import MiniSharp.Program.Type
import MiniSharp.Text.Quoted

namespace MiniSharp

inductive Expectation
  | functionWord | functionName | parensAfterFunctionName | closeAfterParameters
  | colonBeforeResult | parameterName | colonBeforeParameterType | typeName
  | openBlock | closeBlock | statement
  | variableName | colonBeforeVariableType | endOfDeclaration
  | endOfAssignment | endOfExpression | endOfReturn
  | openAfter (word : Keyword) | closeAfterPrint | closeAfterInput | endAfter (word : Keyword)
  | inputTarget | closeAfterCondition (word : Keyword)
  | endOfInitializer | endOfCondition | closeAfterClauses | headerClause
  | expression | closeParenthesis | closeAfterArguments | endOfSource
  | intInRange | floatInRange
  deriving DecidableEq, Repr

def Expectation.message : Expectation → Text
  | functionWord => "expected 'func'"
  | functionName => "expected function name"
  | parensAfterFunctionName => "expected '(' after function name"
  | closeAfterParameters => "expected ')' after function parameters"
  | colonBeforeResult => "expected ':' before function return type"
  | parameterName => "expected parameter name"
  | colonBeforeParameterType => "expected ':' before parameter type"
  | typeName => "expected a type (int, float, char, bool, string)"
  | openBlock => "expected '\x7b' to open block"
  | closeBlock => "expected '\x7d' to close block"
  | statement => "unexpected token at start of statement"
  | variableName => "expected variable name"
  | colonBeforeVariableType => "expected ':' before variable type"
  | endOfDeclaration => "expected ';' after variable declaration"
  | endOfAssignment => "expected ';' after assignment"
  | endOfExpression => "expected ';' after expression statement"
  | endOfReturn => "expected ';' after return value"
  | openAfter word => "expected '(' after '" ++ word.spelling ++ "'"
  | closeAfterPrint => "expected ')' after print argument"
  | closeAfterInput => "expected ')' after input target"
  | endAfter word => "expected ';' after '" ++ word.spelling ++ "'"
  | inputTarget => "expected variable name in 'input'"
  | closeAfterCondition word => "expected ')' after '" ++ word.spelling ++ "' condition"
  | endOfInitializer => "expected ';' after 'for' initializer"
  | endOfCondition => "expected ';' after 'for' condition"
  | closeAfterClauses => "expected ')' after 'for' clauses"
  | headerClause => "expected assignment or expression in 'for' header"
  | expression => "unexpected token at start of expression"
  | closeParenthesis => "expected ')' to close parenthesized expression"
  | closeAfterArguments => "expected ')' after call arguments"
  | endOfSource => "expected end of input after expression"
  | intInRange => "integer literal out of range for int"
  | floatInRange => "float literal out of range for float"

inductive SyntaxCause
  | expected (what : Expectation)
  | lexical (problem : Problem)
  | stated (text : Text)
  deriving DecidableEq, Repr

def SyntaxCause.message : SyntaxCause → Text
  | expected what => what.message
  | lexical problem => problem.message
  | stated text => text

structure ParseError where
  token : Token
  cause : SyntaxCause
  deriving DecidableEq, Repr

inductive Violation
  | notAProgram
  | functionRedeclared (name : Text)
  | mainSignature
  | variableRedeclared (name : Text)
  | undeclaredVariable (name : Text)
  | undeclaredFunction (name : Text)
  | notAVariable (name : Text)
  | notAFunction (name : Text)
  | declaredType (name : Text) (expected found : Ty)
  | assignedType (name : Text) (expected found : Ty)
  | returnedType (function : Text) (expected found : Ty)
  | argumentCount (function : Text) (expected found : Nat)
  | argumentType (index : Nat) (function : Text) (expected found : Ty)
  | condition (word : Keyword) (found : Ty)
  | negated (found : Ty)
  | inverted (found : Ty)
  | operands (op : TokenKind) (left right : Ty)
  | stated (text : Text)
  deriving DecidableEq, Repr

namespace Violation

def named (name : Text) : Text := Text.singleQuote :: name ++ [Text.singleQuote]

def mismatch (place : Text) (expected found : Ty) : Text :=
  "type mismatch in " ++ place ++ ": expected " ++ expected.name ++ ", found " ++ found.name

def message : Violation → Text
  | notAProgram => "expected a program node"
  | functionRedeclared name => "function " ++ named name ++ " already declared"
  | mainSignature => "function 'main' must take no parameters and return int"
  | variableRedeclared name => "variable " ++ named name ++ " already declared in this scope"
  | undeclaredVariable name => "undeclared variable " ++ named name
  | undeclaredFunction name => "undeclared function " ++ named name
  | notAVariable name => named name ++ " is a function, not a variable"
  | notAFunction name => named name ++ " is not a function"
  | declaredType name expected found => mismatch ("declaration of " ++ named name) expected found
  | assignedType name expected found => mismatch ("assignment to " ++ named name) expected found
  | returnedType name expected found => mismatch ("return from " ++ named name) expected found
  | argumentCount name expected found =>
    "wrong number of arguments to " ++ named name ++ ": expected " ++ Text.decimal expected ++
      ", found " ++ Text.decimal found
  | argumentType index name expected found =>
    mismatch ("argument " ++ Text.decimal index ++ " to " ++ named name) expected found
  | condition word found =>
    named word.spelling ++ " condition must be bool, found " ++ found.name
  | negated found => "operator '-' expects a numeric operand, found " ++ found.name
  | inverted found => "operator '!' expects a bool operand, found " ++ found.name
  | operands op left right =>
    "incompatible operand types for " ++ named op.operatorSpelling ++ ": " ++ left.name ++
      " and " ++ right.name
  | stated text => text

end Violation

structure SemanticError where
  token : Option Token
  violation : Violation
  deriving DecidableEq, Repr

inductive Fault
  | absentNode
  | unknownNode (kind : Text)
  | badStatement (kind : Text)
  | badExpression (kind : Text)
  | badUnary (op : Text)
  | badBinary (op : Text)
  | noDeclaration (name : Text)
  | noReference (name : Text)
  | unnamed (name : Text)
  | badSimpleStatement (kind : Text)
  | unlowerableStatement (kind : Text)
  | unlowerableExpression (kind : Text)
  | noInputType
  | noExpressionType (kind : Text)
  | untypedLiteral
  deriving DecidableEq, Repr

def Fault.message : Fault → Text
  | absentNode => "runtime error: invalid memory address or nil pointer dereference"
  | unknownNode kind => "ToSExpr: unknown node kind " ++ kind
  | badStatement kind => "checkStmt: unexpected node kind " ++ kind
  | badExpression kind => "exprType: unexpected node kind " ++ kind
  | badUnary op => "exprType: unexpected unary operator " ++ op
  | badBinary op => "checkBinary: unexpected operator " ++ op
  | noDeclaration name => "codegen: declaration was not analyzed: " ++ name
  | noReference name => "codegen: reference was not analyzed: " ++ name
  | unnamed name => "codegen: no name for symbol " ++ name
  | badSimpleStatement kind => "codegen: unexpected simple statement kind " ++ kind
  | unlowerableStatement kind => "codegen: unexpected statement kind " ++ kind
  | unlowerableExpression kind => "codegen: unexpected expression kind " ++ kind
  | noInputType => "codegen: input target was not analyzed"
  | noExpressionType kind => "codegen: expression was not analyzed: " ++ kind
  | untypedLiteral => "codegen: literal without a type"

inductive Stop
  | parse (error : ParseError)
  | semantic (error : SemanticError)
  | fault (fault : Fault)
  deriving DecidableEq, Repr

def located (title message : Text) (t : Token) : Text :=
  title ++ message ++ " at line " ++ Text.ofInt t.pos.line ++ ", column " ++
    Text.ofInt t.pos.column ++ ": token " ++ Text.quoted t.text ++ " (" ++ t.kind.name ++ ")"

def ParseError.message (e : ParseError) : Text :=
  located "syntax error: " e.cause.message e.token

def ParseError.pos (e : ParseError) : Position := e.token.pos

def SemanticError.message (e : SemanticError) : Text :=
  match e.token with
  | none => "semantic error: " ++ e.violation.message
  | some t => located "semantic error: " e.violation.message t

def SemanticError.pos (e : SemanticError) : Position :=
  match e.token with
  | none => ⟨0, 0⟩
  | some t => t.pos

end MiniSharp
