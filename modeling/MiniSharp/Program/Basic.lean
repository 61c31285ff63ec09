import MiniSharp.Number.Binary32
import MiniSharp.Program.Type

/-!
Programs. Every node keeps the token it was read from, and the nodes that an analysis says
something about carry a note of type `ν`: nothing after reading, what was found after checking.
-/

namespace MiniSharp

inductive Literal
  | int (value : Int)
  | float (value : Binary32)
  | char (value : UInt8)
  | bool (value : Bool)
  | string (value : Text)
  | untyped
  deriving DecidableEq, Repr

def Literal.type : Literal → Ty
  | int _ => .int
  | float _ => .float
  | char _ => .char
  | bool _ => .bool
  | string _ => .string
  | untyped => .invalid

inductive NodeKind
  | program | func | param | block
  | varDecl | assign | print | input | ret | ifStmt | whileStmt | forStmt | exprStmt
  | binary | unary | literal | ident | call
  | other (name : Text)
  deriving DecidableEq, Repr

namespace NodeKind

def name : NodeKind → Text
  | program => "NodeProgram"
  | func => "NodeFunc"
  | param => "NodeParam"
  | block => "NodeBlock"
  | varDecl => "NodeVarDecl"
  | assign => "NodeAssign"
  | print => "NodePrint"
  | input => "NodeInput"
  | ret => "NodeReturn"
  | ifStmt => "NodeIf"
  | whileStmt => "NodeWhile"
  | forStmt => "NodeFor"
  | exprStmt => "NodeExprStmt"
  | binary => "NodeBinary"
  | unary => "NodeUnary"
  | literal => "NodeLiteral"
  | ident => "NodeIdent"
  | call => "NodeCall"
  | other name => name

def named : List NodeKind :=
  [program, func, param, block, varDecl, assign, print, input, ret, ifStmt, whileStmt, forStmt,
    exprStmt, binary, unary, literal, ident, call]

def ofName (name : Text) : NodeKind :=
  (named.find? fun k => k.name == name).getD (other name)

def isExpr : NodeKind → Bool
  | binary | unary | literal | ident | call => true
  | _ => false

end NodeKind

/-- An expression. A `foreign` one is a node of another kind, or none at all, found where an expression
belongs. -/
inductive Expr (ν : Type)
  | literal (note : ν) (token : Token) (value : Literal)
  | ident (note : ν) (token : Token) (name : Text)
  | call (note : ν) (token : Token) (name : Text) (args : List (Expr ν))
  | unary (note : ν) (token : Token) (op : TokenKind) (operand : Expr ν)
  | binary (note : ν) (token : Token) (op : TokenKind) (left right : Expr ν)
  | foreign (token : Token) (kind : Option NodeKind)

def Expr.token {ν : Type} : Expr ν → Token
  | literal _ t _ | ident _ t _ | call _ t _ _ | unary _ t _ _ | binary _ t _ _ _ | foreign t _ => t

def Expr.kind {ν : Type} : Expr ν → NodeKind
  | literal .. => .literal
  | ident .. => .ident
  | call .. => .call
  | unary .. => .unary
  | binary .. => .binary
  | foreign _ kind => kind.getD (.other [])

/-- A statement. A block's opening brace is kept beside its statements. -/
inductive Stmt (ν : Type)
  | declare (note : ν) (token : Token) (name : Text) (type : Ty) (value : Option (Expr ν))
  | assign (note : ν) (token : Token) (name : Text) (value : Expr ν)
  | input (note : ν) (token : Token) (name : Text)
  | print (token : Token) (value : Expr ν)
  | evaluate (token : Token) (value : Expr ν)
  | ret (token : Token) (value : Expr ν)
  | ifThen (token : Token) (cond : Expr ν) (brace : Token) (body : List (Stmt ν))
  | ifElse (token : Token) (cond : Expr ν) (brace : Token) (body : List (Stmt ν))
      (elseBrace : Token) (elseBody : List (Stmt ν))
  | whileDo (token : Token) (cond : Expr ν) (brace : Token) (body : List (Stmt ν))
  | forDo (token : Token) (init : Option (Stmt ν)) (cond : Option (Expr ν))
      (step : Option (Stmt ν)) (brace : Token) (body : List (Stmt ν))
  | block (brace : Token) (body : List (Stmt ν))
  | foreign (token : Token) (kind : Option NodeKind)

def Stmt.kind {ν : Type} : Stmt ν → NodeKind
  | declare .. => .varDecl
  | assign .. => .assign
  | input .. => .input
  | print .. => .print
  | evaluate .. => .exprStmt
  | ret .. => .ret
  | ifThen .. | ifElse .. => .ifStmt
  | whileDo .. => .whileStmt
  | forDo .. => .forStmt
  | block .. => .block
  | foreign _ kind => kind.getD (.other [])

structure Param (ν : Type) where
  note : ν
  token : Token
  name : Text
  type : Ty

structure Func (ν : Type) where
  note : ν
  token : Token
  name : Text
  params : List (Param ν)
  result : Ty
  brace : Token
  body : List (Stmt ν)

structure Program (ν : Type) where
  token : Token
  functions : List (Func ν)

end MiniSharp
