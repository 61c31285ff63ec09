import MiniSharp.Program.Basic

/-!
The grammar of programs. A piece of the grammar is a type whose elements are its derivations: pairs
are sequences, sums are alternatives, options are parts that may be left out, and lists are
repetitions. A derivation has the tokens it derives and the part of a program that it denotes.
-/

namespace MiniSharp.Grammar

class Phrase (α : Type) where
  tokens : α → List Token

open Phrase (tokens)

section Combinators

variable {α β : Type} [Phrase α] [Phrase β]

instance : Phrase (α × β) := ⟨fun x => tokens x.1 ++ tokens x.2⟩

instance : Phrase (α ⊕ β) := ⟨Sum.elim tokens tokens⟩

instance : Phrase (Option α) := ⟨fun o => o.elim [] tokens⟩

instance : Phrase (List α) := ⟨List.flatMap tokens⟩

@[simp] theorem tokens_pair (a : α) (b : β) : tokens (a, b) = tokens a ++ tokens b := rfl

@[simp] theorem tokens_inl (a : α) : tokens (.inl a : α ⊕ β) = tokens a := rfl

@[simp] theorem tokens_inr (b : β) : tokens (.inr b : α ⊕ β) = tokens b := rfl

@[simp] theorem tokens_none : tokens (none : Option α) = [] := rfl

@[simp] theorem tokens_some (a : α) : tokens (some a) = tokens a := rfl

@[simp] theorem tokens_nil : tokens ([] : List α) = [] := rfl

@[simp] theorem tokens_cons (a : α) (l : List α) : tokens (a :: l) = tokens a ++ tokens l := rfl

end Combinators

@[ext]
structure Tok (kind : TokenKind) where
  token : Token
  kind_eq : token.kind = kind

instance {kind : TokenKind} : Phrase (Tok kind) := ⟨fun t => [t.token]⟩

@[simp] theorem tokens_tok {kind : TokenKind} (t : Tok kind) : tokens t = [t.token] := rfl

abbrev Word (word : Keyword) := Tok (.keyword word)

abbrev Mark (mark : Delimiter) := Tok (.delimiter mark)

abbrev Name := Tok .identifier

def typeWords : List (Keyword × Ty) :=
  [(.intKw, .int), (.floatKw, .float), (.charKw, .char), (.boolKw, .bool), (.stringKw, .string)]

structure TypeName where
  token : Token
  word : Keyword
  type : Ty
  mem : (word, type) ∈ typeWords
  kind_eq : token.kind = .keyword word

instance : Phrase TypeName := ⟨fun t => [t.token]⟩

@[simp] theorem tokens_typeName (t : TypeName) : tokens t = [t.token] := rfl

inductive Denotes (t : Token) : MiniSharp.Literal → Prop
  | int : t.kind = .intLiteral → Text.value t.text ≤ 2147483647 →
    Denotes t (.int (Text.value t.text))
  | float {x} : t.kind = .floatLiteral → Binary32.ofDecimal? t.text = some x →
    Denotes t (.float x)
  | char : t.kind = .charLiteral → Denotes t (.char (t.text.headD 0))
  | string : t.kind = .stringLiteral → Denotes t (.string t.text)
  | true : t.kind = .keyword .trueKw → Denotes t (.bool true)
  | false : t.kind = .keyword .falseKw → Denotes t (.bool false)

structure Constant where
  token : Token
  value : MiniSharp.Literal
  denotes : Denotes token value

structure OneOf (ops : List Operator) where
  token : Token
  op : Operator
  mem : op ∈ ops
  kind_eq : token.kind = .operator op

/-- The binary operators of a level. Those of a lower level bind closer. -/
def level : Nat → List Operator
  | 1 => [.times, .divide, .modulo]
  | 2 => [.plus, .minus]
  | 3 => [.less, .greater, .lessEqual, .greaterEqual]
  | 4 => [.equal, .notEqual]
  | 5 => [.and]
  | 6 => [.or]
  | _ => []

mutual

inductive Ladder : Nat → Type
  | operand (e : Unary) : Ladder 0
  | next {n : Nat} (e : Ladder n) : Ladder (n + 1)
  | apply {n : Nat} (left : Ladder (n + 1)) (op : OneOf (level (n + 1))) (right : Ladder n) :
    Ladder (n + 1)

inductive Unary : Type
  | apply (op : OneOf [.not, .minus]) (operand : Unary)
  | primary (e : Primary)

inductive Primary : Type
  | constant (value : Constant)
  | name (name : Name)
  | call (name : Name) (left : Mark .openParen) (args : Args) (right : Mark .closeParen)
  | parens (left : Mark .openParen) (e : Ladder 6) (right : Mark .closeParen)

inductive Args : Type
  | none
  | some (first : Ladder 6) (more : More)

inductive More : Type
  | nil
  | cons (comma : Mark .comma) (e : Ladder 6) (rest : More)

end

abbrev Expression := Ladder 6

mutual

def Ladder.tokens {n : Nat} : Ladder n → List Token
  | .operand e => e.tokens
  | .next e => e.tokens
  | .apply left op right => left.tokens ++ op.token :: right.tokens

def Unary.tokens : Unary → List Token
  | .apply op operand => op.token :: operand.tokens
  | .primary e => e.tokens

def Primary.tokens : Primary → List Token
  | .constant value => [value.token]
  | .name name => [name.token]
  | .call name left args right => name.token :: left.token :: (args.tokens ++ [right.token])
  | .parens left e right => left.token :: (e.tokens ++ [right.token])

def Args.tokens : Args → List Token
  | .none => []
  | .some first more => first.tokens ++ more.tokens

def More.tokens : More → List Token
  | .nil => []
  | .cons comma e rest => comma.token :: (e.tokens ++ rest.tokens)

end

mutual

def Ladder.expr {n : Nat} : Ladder n → Expr Unit
  | .operand e => e.expr
  | .next e => e.expr
  | .apply left op right => .binary () op.token (.operator op.op) left.expr right.expr

def Unary.expr : Unary → Expr Unit
  | .apply op operand => .unary () op.token (.operator op.op) operand.expr
  | .primary e => e.expr

def Primary.expr : Primary → Expr Unit
  | .constant value => .literal () value.token value.value
  | .name name => .ident () name.token name.token.text
  | .call name _ args _ => .call () name.token name.token.text args.exprs
  | .parens _ e _ => e.expr

def Args.exprs : Args → List (Expr Unit)
  | .none => []
  | .some first more => first.expr :: more.exprs

def More.exprs : More → List (Expr Unit)
  | .nil => []
  | .cons _ e rest => e.expr :: rest.exprs

end

instance {n : Nat} : Phrase (Ladder n) := ⟨Ladder.tokens⟩

instance : Phrase Unary := ⟨Unary.tokens⟩

instance : Phrase Primary := ⟨Primary.tokens⟩

instance : Phrase Args := ⟨Args.tokens⟩

instance : Phrase More := ⟨More.tokens⟩

abbrev VarDecl :=
  Word .varKw × Name × Mark .colon × TypeName × Option (Tok .assign × Expression) × Mark .semicolon

abbrev Simple := (Name × Tok .assign × Expression) ⊕ Expression

abbrev Condition := Mark .openParen × Expression × Mark .closeParen

abbrev Header :=
  Mark .openParen × (VarDecl ⊕ (Option Simple × Mark .semicolon)) ×
    (Option Expression × Mark .semicolon) × (Option Simple × Mark .closeParen)

mutual

inductive Statement : Type
  | declare (d : VarDecl)
  | ret (d : Word .returnKw × Expression × Mark .semicolon)
  | print (d : Word .printKw × Mark .openParen × Expression × Mark .closeParen × Mark .semicolon)
  | input (d : Word .inputKw × Mark .openParen × Name × Mark .closeParen × Mark .semicolon)
  | branch (word : Word .ifKw) (cond : Condition) (body : Block) (other : Else)
  | loop (word : Word .whileKw) (cond : Condition) (body : Block)
  | count (word : Word .forKw) (header : Header) (body : Block)
  | simple (d : Simple × Mark .semicolon)

inductive Block : Type
  | mk (left : Mark .openBrace) (body : Body) (right : Mark .closeBrace)

inductive Body : Type
  | nil
  | cons (first : Statement) (rest : Body)

inductive Else : Type
  | none
  | some (word : Word .elseKw) (body : Block)

end

mutual

def Statement.tokens : Statement → List Token
  | .declare d => Phrase.tokens d
  | .ret d => Phrase.tokens d
  | .print d => Phrase.tokens d
  | .input d => Phrase.tokens d
  | .branch word cond body other =>
    word.token :: (Phrase.tokens cond ++ (body.tokens ++ other.tokens))
  | .loop word cond body => word.token :: (Phrase.tokens cond ++ body.tokens)
  | .count word header body => word.token :: (Phrase.tokens header ++ body.tokens)
  | .simple d => Phrase.tokens d

def Block.tokens : Block → List Token
  | .mk left body right => left.token :: (body.tokens ++ [right.token])

def Body.tokens : Body → List Token
  | .nil => []
  | .cons first rest => first.tokens ++ rest.tokens

def Else.tokens : Else → List Token
  | .none => []
  | .some word body => word.token :: body.tokens

end

instance : Phrase Statement := ⟨Statement.tokens⟩

instance : Phrase Block := ⟨Block.tokens⟩

instance : Phrase Body := ⟨Body.tokens⟩

instance : Phrase Else := ⟨Else.tokens⟩

def VarDecl.stmt : VarDecl → Stmt Unit
  | (_, name, _, type, value, _) =>
    .declare () name.token name.token.text type.type (value.map fun v => v.2.expr)

def Simple.stmt : Simple → Stmt Unit
  | .inl (name, _, value) => .assign () name.token name.token.text value.expr
  | .inr value => .evaluate value.expr.token value.expr

def Condition.expr (d : Condition) : Expr Unit := d.2.1.expr

def Header.init : Header → Option (Stmt Unit)
  | (_, .inl d, _, _) => some (VarDecl.stmt d)
  | (_, .inr (s, _), _, _) => s.map Simple.stmt

def Header.cond : Header → Option (Expr Unit)
  | (_, _, (cond, _), _) => cond.map Ladder.expr

def Header.step : Header → Option (Stmt Unit)
  | (_, _, _, (step, _)) => step.map Simple.stmt

def Block.brace : Block → Token
  | .mk left _ _ => left.token

mutual

def Statement.stmt : Statement → Stmt Unit
  | .declare d => VarDecl.stmt d
  | .ret (word, value, _) => .ret word.token value.expr
  | .print (word, _, value, _, _) => .print word.token value.expr
  | .input (_, _, name, _, _) => .input () name.token name.token.text
  | .branch word cond body .none =>
    .ifThen word.token (Condition.expr cond) body.brace body.stmts
  | .branch word cond body (.some _ other) =>
    .ifElse word.token (Condition.expr cond) body.brace body.stmts other.brace other.stmts
  | .loop word cond body => .whileDo word.token (Condition.expr cond) body.brace body.stmts
  | .count word header body =>
    .forDo word.token (Header.init header) (Header.cond header) (Header.step header) body.brace
      body.stmts
  | .simple (s, _) => Simple.stmt s

def Block.stmts : Block → List (Stmt Unit)
  | .mk _ body _ => body.stmts

def Body.stmts : Body → List (Stmt Unit)
  | .nil => []
  | .cons first rest => first.stmt :: rest.stmts

end

abbrev Parameter := Name × Mark .colon × TypeName

abbrev Function :=
  Word .funcKw × Name × Mark .openParen × Option (Parameter × List (Mark .comma × Parameter)) ×
    Mark .closeParen × Mark .colon × TypeName × Block

abbrev Sentence := List Function × Tok .eof

def Parameter.param : Parameter → Param Unit
  | (name, _, type) => ⟨(), name.token, name.token.text, type.type⟩

def Function.func : Function → Func Unit
  | (_, name, _, params, _, _, result, body) =>
    ⟨(), name.token, name.token.text,
      params.elim [] fun xs => Parameter.param xs.1 :: xs.2.map fun x => Parameter.param x.2,
      result.type, body.brace, body.stmts⟩

def Sentence.program (d : Sentence) : Program Unit :=
  ⟨d.1.head?.elim d.2.token fun f => f.1.token, d.1.map Function.func⟩

end MiniSharp.Grammar
