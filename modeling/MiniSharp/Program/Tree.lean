import MiniSharp.Diagnostic.Basic
import MiniSharp.Program.Basic

/-!
Trees in which every node has the same parts and any part may be absent. They hold what a program
cannot: nodes of unknown kind, and nodes in places where they do not belong.
-/

namespace MiniSharp

structure Label where
  kind : NodeKind
  token : Token
  name : Text := []
  type : Ty := .invalid
  op : TokenKind := .other []
  literal : Literal := .untyped

inductive Tree
  | absent
  | node (label : Label) (params children : List Tree)
      (init cond step value left right body orElse : Tree)

namespace Tree

instance : Inhabited Tree := ⟨absent⟩

def isExpr : Tree → Bool
  | absent => false
  | node label .. => label.kind.isExpr

def isAbsent : Tree → Bool
  | absent => true
  | node .. => false

def list (label : Label) (children : List Tree) : Tree :=
  node label [] children absent absent absent absent absent absent absent absent

def leaf (label : Label) : Tree := list label []

inductive Part
  | param (index : Nat)
  | child (index : Nat)
  | init | cond | step | value | left | right | body | orElse
  deriving DecidableEq, Repr

abbrev Path := List Part

mutual

def walk (p : Path) : Tree → List (Path × Label)
  | absent => []
  | node label params children init cond step value left right body orElse =>
    (p, label) :: walkAll p .param 0 params ++
      walk (.init :: p) init ++ walk (.cond :: p) cond ++ walk (.step :: p) step ++
      walk (.value :: p) value ++ walk (.left :: p) left ++ walk (.right :: p) right ++
      walk (.body :: p) body ++ walk (.orElse :: p) orElse ++
      walkAll p .child 0 children

def walkAll (p : Path) (part : Nat → Part) (index : Nat) : List Tree → List (Path × Label)
  | [] => []
  | t :: rest => walk (part index :: p) t ++ walkAll p part (index + 1) rest

end

end Tree

def Text.listQuoted (t : Text) : Text :=
  Text.doubleQuote :: ((t.replaceByte Text.backslash "\\\\").replaceByte Text.doubleQuote "\\\x22") ++
    [Text.doubleQuote]

def Text.listed (head : Text) (items : List Text) : Text :=
  if items.isEmpty then "(" ++ head ++ ")" else "(" ++ head ++ " " ++ join " " items ++ ")"

def Literal.render : Literal → Text
  | int value => Text.ofInt value
  | float value => Text.listed "float" [value.render.listQuoted]
  | char value => Text.listed "char" [(Text.encode value.toNat).listQuoted]
  | bool value => Text.listed "bool" [if value then "true" else "false"]
  | string value => value.listQuoted
  | untyped => "?"

namespace Tree

open Text (listed)

mutual

/-- A declaration and an if leave out an absent part, elsewhere it is written `nil`. -/
def render : Tree → Except Fault Text
  | absent => .ok "nil"
  | node label params children init cond step value left right body orElse =>
    let name := label.name.listQuoted
    let type := label.type.name
    let op := label.op.operatorSpelling.listQuoted
    match label.kind with
    | .program => return listed "program" (← renderAll children)
    | .func => return listed "func" [name, listed "params" (← renderAll params), type, ← render body]
    | .param => return listed "param" [name, type]
    | .block => return listed "block" (← renderAll children)
    | .varDecl =>
      if value.isAbsent then return listed "var" [name, type]
      else return listed "var" [name, type, ← render value]
    | .assign => return listed "assign" [name, ← render value]
    | .print => return listed "print" [← render value]
    | .input => return listed "input" [name]
    | .ret => return listed "return" [← render value]
    | .ifStmt =>
      if orElse.isAbsent then return listed "if" [← render cond, ← render body]
      else return listed "if" [← render cond, ← render body, ← render orElse]
    | .whileStmt => return listed "while" [← render cond, ← render body]
    | .forStmt =>
      return listed "for" [← render init, ← render cond, ← render step, ← render body]
    | .exprStmt => return listed "expr" [← render value]
    | .binary => return listed "binary" [op, ← render left, ← render right]
    | .unary => return listed "unary" [op, ← render left]
    | .literal => return label.literal.render
    | .ident => return listed "ident" [name]
    | .call => return listed "call" (name :: (← renderAll children))
    | .other kind => throw (.unknownNode kind)

def renderAll : List Tree → Except Fault (List Text)
  | [] => .ok []
  | t :: rest => return (← render t) :: (← renderAll rest)

end

end Tree

end MiniSharp
