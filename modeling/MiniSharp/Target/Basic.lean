import MiniSharp.Target.Name
import MiniSharp.Program.Type

namespace MiniSharp.Target

inductive Expr
  | int (value : Int)
  | float (digits : Text)
  | bool (value : Bool)
  | char (value : UInt8)
  | string (value : Text)
  | default (type : Ty)
  | name (name : Text)
  | call (method : Text) (args : List Expr)
  | entry
  | display (value : Expr)
  | unary (op : TokenKind) (operand : Expr)
  | binary (op : TokenKind) (left right : Expr)

inductive Simple
  | declare (type : Ty) (name : Text) (value : Expr)
  | assign (name : Text) (value : Expr)
  | call (value : Expr)
  | discard (value : Expr)

inductive Stmt
  | simple (stmt : Simple)
  | print (value : Expr)
  | read (name : Text) (type : Ty)
  | ret (value : Expr)
  | ifThen (cond : Expr) (body : List Stmt)
  | ifElse (cond : Expr) (body elseBody : List Stmt)
  | whileDo (cond : Expr) (body : List Stmt)
  | forDo (init : Option Simple) (cond : Option Expr) (step : Option Simple) (body : List Stmt)
  | block (body : List Stmt)

structure Local where
  type : Ty
  name : Text

structure Method where
  entry : Bool
  result : Ty
  name : Text
  params : List Local
  body : List Stmt

end MiniSharp.Target
