import MiniSharp.Program.Tree

namespace MiniSharp

open MiniSharp.Tree (Path Part)

variable {ν : Type}

namespace Expr

mutual

def toTree : Expr ν → Tree
  | literal _ token value => .leaf { kind := .literal, token, literal := value }
  | ident _ token name => .leaf { kind := .ident, token, name }
  | call _ token name args => .list { kind := .call, token, name } (toTrees args)
  | unary _ token op operand =>
    .node { kind := .unary, token, op } [] [] .absent .absent .absent .absent operand.toTree .absent
      .absent .absent
  | binary _ token op left right =>
    .node { kind := .binary, token, op } [] [] .absent .absent .absent .absent left.toTree
      right.toTree .absent .absent
  | foreign token kind => kind.elim .absent fun kind => .leaf { kind, token }

def toTrees : List (Expr ν) → List Tree
  | [] => []
  | e :: rest => e.toTree :: toTrees rest

end

mutual

def notes (p : Path) : Expr ν → List (Path × ν)
  | literal note .. | ident note .. => [(p, note)]
  | call note _ _ args => (p, note) :: notesAll p 0 args
  | unary note _ _ operand => (p, note) :: operand.notes (.left :: p)
  | binary note _ _ left right =>
    (p, note) :: left.notes (.left :: p) ++ right.notes (.right :: p)
  | foreign .. => []

def notesAll (p : Path) (index : Nat) : List (Expr ν) → List (Path × ν)
  | [] => []
  | e :: rest => e.notes (.child index :: p) ++ notesAll p (index + 1) rest

end

end Expr

namespace Stmt

def valueTree (label : Label) (value : Tree) : Tree :=
  .node label [] [] .absent .absent .absent value .absent .absent .absent .absent

def blockTree (brace : Token) (body : List Tree) : Tree :=
  .list { kind := .block, token := brace } body

mutual

def toTree : Stmt ν → Tree
  | declare _ token name type none => .leaf { kind := .varDecl, token, name, type }
  | declare _ token name type (some value) =>
    valueTree { kind := .varDecl, token, name, type } value.toTree
  | assign _ token name value => valueTree { kind := .assign, token, name } value.toTree
  | input _ token name => .leaf { kind := .input, token, name }
  | print token value => valueTree { kind := .print, token } value.toTree
  | evaluate token value => valueTree { kind := .exprStmt, token } value.toTree
  | ret token value => valueTree { kind := .ret, token } value.toTree
  | ifThen token cond brace body =>
    .node { kind := .ifStmt, token } [] [] .absent cond.toTree .absent .absent .absent .absent
      (blockTree brace (toTrees body)) .absent
  | ifElse token cond brace body elseBrace elseBody =>
    .node { kind := .ifStmt, token } [] [] .absent cond.toTree .absent .absent .absent .absent
      (blockTree brace (toTrees body)) (blockTree elseBrace (toTrees elseBody))
  | whileDo token cond brace body =>
    .node { kind := .whileStmt, token } [] [] .absent cond.toTree .absent .absent .absent .absent
      (blockTree brace (toTrees body)) .absent
  | forDo token init cond step brace body =>
    .node { kind := .forStmt, token } [] [] (toTree? init) (cond.elim .absent Expr.toTree)
      (toTree? step) .absent .absent .absent (blockTree brace (toTrees body)) .absent
  | block brace body => blockTree brace (toTrees body)
  | foreign token kind => kind.elim .absent fun kind => .leaf { kind, token }

def toTree? : Option (Stmt ν) → Tree
  | none => .absent
  | some s => s.toTree

def toTrees : List (Stmt ν) → List Tree
  | [] => []
  | s :: rest => s.toTree :: toTrees rest

end

mutual

def notes (p : Path) : Stmt ν → List (Path × ν)
  | declare note _ _ _ value =>
    (p, note) :: value.elim [] (Expr.notes (.value :: p))
  | assign note _ _ value => (p, note) :: value.notes (.value :: p)
  | input note _ _ => [(p, note)]
  | print _ value | evaluate _ value | ret _ value => value.notes (.value :: p)
  | ifThen _ cond _ body | whileDo _ cond _ body =>
    cond.notes (.cond :: p) ++ notesAll (.body :: p) 0 body
  | ifElse _ cond _ body _ elseBody =>
    cond.notes (.cond :: p) ++ notesAll (.body :: p) 0 body ++ notesAll (.orElse :: p) 0 elseBody
  | forDo _ init cond step _ body =>
    notes? (.init :: p) init ++ cond.elim [] (Expr.notes (.cond :: p)) ++
      notes? (.step :: p) step ++ notesAll (.body :: p) 0 body
  | block _ body => notesAll p 0 body
  | foreign .. => []

def notes? (p : Path) : Option (Stmt ν) → List (Path × ν)
  | none => []
  | some s => s.notes p

def notesAll (p : Path) (index : Nat) : List (Stmt ν) → List (Path × ν)
  | [] => []
  | s :: rest => s.notes (.child index :: p) ++ notesAll p (index + 1) rest

end

end Stmt

def Param.toTree (x : Param ν) : Tree :=
  .leaf { kind := .param, token := x.token, name := x.name, type := x.type }

namespace Func

def toTree (f : Func ν) : Tree :=
  .node { kind := .func, token := f.token, name := f.name, type := f.result }
    (f.params.map Param.toTree) [] .absent .absent .absent .absent .absent .absent
    (Stmt.blockTree f.brace (Stmt.toTrees f.body)) .absent

def notes (p : Path) (f : Func ν) : List (Path × ν) :=
  (p, f.note) :: f.params.mapIdx (fun i x => (.param i :: p, x.note)) ++
    Stmt.notesAll (.body :: p) 0 f.body

end Func

namespace Program

def toTree (x : Program ν) : Tree :=
  .list { kind := .program, token := x.token } (x.functions.map Func.toTree)

def notes (x : Program ν) : List (Path × ν) :=
  (x.functions.mapIdx fun i f => f.notes [.child i]).flatten

end Program

namespace Tree

mutual

def toExpr : Tree → Expr Unit
  | absent => .foreign .absent none
  | node label _ children _ _ _ _ left right _ _ =>
    match label.kind with
    | .literal => .literal () label.token label.literal
    | .ident => .ident () label.token label.name
    | .call => .call () label.token label.name (toExprs children)
    | .unary => .unary () label.token label.op left.toExpr
    | .binary => .binary () label.token label.op left.toExpr right.toExpr
    | kind => .foreign label.token (some kind)

def toExprs : List Tree → List (Expr Unit)
  | [] => []
  | t :: rest => t.toExpr :: toExprs rest

end

def toExpr? : Tree → Option (Expr Unit)
  | absent => none
  | t => some t.toExpr

def token : Tree → Token
  | absent => .absent
  | node label .. => label.token

mutual

def toStmt : Tree → Stmt Unit
  | absent => .foreign .absent none
  | node label _ children init cond step value _ _ body orElse =>
    match label.kind with
    | .varDecl => .declare () label.token label.name label.type value.toExpr?
    | .assign => .assign () label.token label.name value.toExpr
    | .input => .input () label.token label.name
    | .print => .print label.token value.toExpr
    | .exprStmt => .evaluate label.token value.toExpr
    | .ret => .ret label.token value.toExpr
    | .ifStmt =>
      if orElse.isAbsent then .ifThen label.token cond.toExpr body.token body.toBody
      else .ifElse label.token cond.toExpr body.token body.toBody orElse.token orElse.toBody
    | .whileStmt => .whileDo label.token cond.toExpr body.token body.toBody
    | .forStmt =>
      .forDo label.token init.toStmt? cond.toExpr? step.toStmt? body.token body.toBody
    | .block => .block label.token (toStmts children)
    | kind => .foreign label.token (some kind)

def toStmt? : Tree → Option (Stmt Unit)
  | absent => none
  | node label params children init cond step value left right body orElse =>
    some (toStmt (node label params children init cond step value left right body orElse))

def toBody : Tree → List (Stmt Unit)
  | absent => [.foreign .absent none]
  | node _ _ children _ _ _ _ _ _ _ _ => toStmts children

def toStmts : List Tree → List (Stmt Unit)
  | [] => []
  | t :: rest => t.toStmt :: toStmts rest

end

def declarable : Tree → Bool
  | absent => false
  | node _ params .. => params.all (!·.isAbsent)

def toParam : Tree → Param Unit
  | absent => ⟨(), .absent, [], .invalid⟩
  | node label .. => ⟨(), label.token, label.name, label.type⟩

def toFunc : Tree → Func Unit
  | absent => ⟨(), .absent, [], [], .invalid, .absent, absent.toBody⟩
  | node label params _ _ _ _ _ _ _ body _ =>
    ⟨(), label.token, label.name, params.map toParam, label.type, body.token, body.toBody⟩

def functions : Tree → List Tree
  | absent => []
  | node _ _ children .. => children

def toProgram? : Tree → Option (Program Unit)
  | absent => none
  | node label _ children _ _ _ _ _ _ _ _ =>
    if label.kind = .program then some ⟨label.token, children.map toFunc⟩ else none

end Tree

end MiniSharp
