import MiniSharp.Program.Basic

namespace MiniSharp

variable {ν μ : Type}

mutual

def Expr.map (f : ν → μ) : Expr ν → Expr μ
  | .literal note token value => .literal (f note) token value
  | .ident note token name => .ident (f note) token name
  | .call note token name args => .call (f note) token name (Expr.mapAll f args)
  | .unary note token op operand => .unary (f note) token op (operand.map f)
  | .binary note token op left right => .binary (f note) token op (left.map f) (right.map f)
  | .foreign token kind => .foreign token kind

def Expr.mapAll (f : ν → μ) : List (Expr ν) → List (Expr μ)
  | [] => []
  | e :: rest => e.map f :: Expr.mapAll f rest

end

mutual

def Stmt.map (f : ν → μ) : Stmt ν → Stmt μ
  | .declare note token name type value =>
    .declare (f note) token name type (Option.map (Expr.map f) value)
  | .assign note token name value => .assign (f note) token name (value.map f)
  | .input note token name => .input (f note) token name
  | .print token value => .print token (value.map f)
  | .evaluate token value => .evaluate token (value.map f)
  | .ret token value => .ret token (value.map f)
  | .ifThen token cond brace body => .ifThen token (cond.map f) brace (Stmt.mapAll f body)
  | .ifElse token cond brace body elseBrace elseBody =>
    .ifElse token (cond.map f) brace (Stmt.mapAll f body) elseBrace (Stmt.mapAll f elseBody)
  | .whileDo token cond brace body => .whileDo token (cond.map f) brace (Stmt.mapAll f body)
  | .forDo token init cond step brace body =>
    .forDo token (Stmt.map? f init) (Option.map (Expr.map f) cond) (Stmt.map? f step) brace
      (Stmt.mapAll f body)
  | .block brace body => .block brace (Stmt.mapAll f body)
  | .foreign token kind => .foreign token kind

def Stmt.map? (f : ν → μ) : Option (Stmt ν) → Option (Stmt μ)
  | none => none
  | some s => some (s.map f)

def Stmt.mapAll (f : ν → μ) : List (Stmt ν) → List (Stmt μ)
  | [] => []
  | s :: rest => s.map f :: Stmt.mapAll f rest

end

def Param.map (f : ν → μ) (x : Param ν) : Param μ := ⟨f x.note, x.token, x.name, x.type⟩

def Func.map (f : ν → μ) (x : Func ν) : Func μ :=
  ⟨f x.note, x.token, x.name, x.params.map (Param.map f), x.result, x.brace, Stmt.mapAll f x.body⟩

def Program.map (f : ν → μ) (x : Program ν) : Program μ := ⟨x.token, x.functions.map (Func.map f)⟩

end MiniSharp
