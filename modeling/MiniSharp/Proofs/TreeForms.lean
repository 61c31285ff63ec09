import MiniSharp.Program.Shape
import MiniSharp.Proofs.ParsedForms
import MiniSharp.Proofs.TokenForms

namespace MiniSharp

namespace Tree

def unaryOperators : List TokenKind := [.operator .minus, .operator .not]

def binaryOperators : List TokenKind := List.map TokenKind.operator
  [.plus, .minus, .times, .divide, .modulo, .equal, .notEqual, .less, .greater, .lessEqual,
    .greaterEqual, .and, .or]

def kind? : Tree → Option NodeKind
  | absent => none
  | node label .. => some label.kind

mutual

def ExprShaped : Tree → Prop
  | absent => False
  | node label _ children _ _ _ _ left right _ _ =>
    match label.kind with
    | .literal => label.literal ≠ .untyped ∧
      (label.token.kind = .charLiteral → label.token.text ≠ [])
    | .ident => True
    | .call => AllExprShaped children
    | .unary => label.op ∈ unaryOperators ∧ left.ExprShaped
    | .binary => label.op ∈ binaryOperators ∧ left.ExprShaped ∧ right.ExprShaped
    | _ => False

def AllExprShaped : List Tree → Prop
  | [] => True
  | t :: rest => t.ExprShaped ∧ AllExprShaped rest

end

mutual

def StmtShaped : Tree → Prop
  | absent => False
  | node label _ children init cond step value _ _ body orElse =>
    match label.kind with
    | .varDecl => value.isAbsent ∨ value.ExprShaped
    | .assign | .print | .exprStmt | .ret => value.ExprShaped
    | .input => True
    | .ifStmt => cond.ExprShaped ∧ body.BlockShaped ∧ (orElse.isAbsent ∨ orElse.BlockShaped)
    | .whileStmt => cond.ExprShaped ∧ body.BlockShaped
    | .forStmt =>
      (init.isAbsent ∨ init.StmtShaped ∧
        init.kind? ∈ [some .varDecl, some .assign, some .exprStmt]) ∧
      (cond.isAbsent ∨ cond.ExprShaped) ∧
      (step.isAbsent ∨ step.StmtShaped ∧ step.kind? ∈ [some .assign, some .exprStmt]) ∧
      body.BlockShaped
    | .block => AllStmtShaped children
    | _ => False

def BlockShaped : Tree → Prop
  | absent => False
  | node label _ children _ _ _ _ _ _ _ _ => label.kind = .block ∧ AllStmtShaped children

def AllStmtShaped : List Tree → Prop
  | [] => True
  | t :: rest => t.StmtShaped ∧ AllStmtShaped rest

end

def FuncShaped : Tree → Prop
  | absent => False
  | node label params _ _ _ _ _ _ _ body _ =>
    label.kind = .func ∧ (∀ p ∈ params, p.kind? = some .param) ∧ body.BlockShaped

def ProgramShaped : Tree → Prop
  | absent => False
  | node label _ children _ _ _ _ _ _ _ _ =>
    label.kind = .program ∧ ∀ f ∈ children, f.FuncShaped

def Each (Q : Label → Prop) (p : Path) (t : Tree) : Prop := ∀ n ∈ t.walk p, Q n.2

def EachOf (Q : Label → Prop) (p : Path) (part : Nat → Part) (index : Nat) (ts : List Tree) :
    Prop :=
  ∀ n ∈ walkAll p part index ts, Q n.2

section Each

variable (Q : Label → Prop) (p : Path) (part : Nat → Part) (index : Nat)

theorem each_absent : absent.Each Q p := by
  intro n hn
  cases hn

theorem each_node (label : Label) (params children : List Tree)
    (init cond step value left right body orElse : Tree) :
    (node label params children init cond step value left right body orElse).Each Q p ↔
      Q label ∧ EachOf Q p .param 0 params ∧ init.Each Q (.init :: p) ∧
        cond.Each Q (.cond :: p) ∧ step.Each Q (.step :: p) ∧ value.Each Q (.value :: p) ∧
        left.Each Q (.left :: p) ∧ right.Each Q (.right :: p) ∧ body.Each Q (.body :: p) ∧
        orElse.Each Q (.orElse :: p) ∧ EachOf Q p .child 0 children := by
  simp only [Each, EachOf, walk, List.cons_append, List.forall_mem_cons,
    List.forall_mem_append, and_assoc]

theorem eachOf_nil : EachOf Q p part index [] := by
  intro n hn
  cases hn

theorem eachOf_cons (t : Tree) (rest : List Tree) : EachOf Q p part index (t :: rest) ↔
    t.Each Q (part index :: p) ∧ EachOf Q p part (index + 1) rest := by
  simp only [Each, EachOf, walkAll, List.forall_mem_append]

theorem each_list (label : Label) (children : List Tree) :
    (list label children).Each Q p ↔ Q label ∧ EachOf Q p .child 0 children := by
  simp only [list, each_node, each_absent, eachOf_nil, true_and]

end Each

end Tree

theorem Parser.mem_unaryOperators {op : TokenKind} (h : Parser.isUnary op) :
    op ∈ Tree.unaryOperators := by
  simpa [Parser.isUnary, Tree.unaryOperators, or_comm] using h

theorem Parser.mem_binaryOperators {op : TokenKind} (h : Parser.precedence op ≠ 0) :
    op ∈ Tree.binaryOperators := by
  cases op with
  | operator op =>
    cases op with
    | not => exact absurd rfl h
    | _ => decide
  | _ => exact absurd rfl h

namespace Expr

mutual

theorem toTree_shaped :
    (e : Expr Unit) → e.Formed Token.WellSpelled → e.toTree.ExprShaped
  | .literal _ t value, h => by
    refine ⟨?_, h.1.char⟩
    have hproper := Parser.literal?_proper h.2
    rintro rfl
    exact hproper
  | .ident .., _ => trivial
  | .call _ _ _ args, h => toTrees_shaped args h.2
  | .unary _ _ _ operand, ⟨_, _, hop, ho⟩ =>
    ⟨Parser.mem_unaryOperators hop, toTree_shaped operand ho⟩
  | .binary _ _ _ left right, ⟨_, _, hop, hl, hr⟩ =>
    ⟨Parser.mem_binaryOperators hop, toTree_shaped left hl, toTree_shaped right hr⟩
  | .foreign .., h => h.elim

theorem toTrees_shaped : (es : List (Expr Unit)) → AllFormed Token.WellSpelled es →
    Tree.AllExprShaped (toTrees es)
  | [], _ => trivial
  | e :: rest, h => ⟨toTree_shaped e h.1, toTrees_shaped rest h.2⟩

end

variable {P : Token → Prop}

mutual

theorem toExpr_toTree : (e : Expr Unit) → e.Formed P → e.toTree.toExpr = e
  | .literal .., _ => rfl
  | .ident .., _ => rfl
  | .call _ t name args, h => congrArg (call () t name) (toExprs_toTrees args h.2)
  | .unary _ t op operand, h => congrArg (unary () t op) (toExpr_toTree operand h.2.2.2)
  | .binary _ t op left right, ⟨_, _, _, hl, hr⟩ =>
    congrArg₂ (binary () t op) (toExpr_toTree left hl) (toExpr_toTree right hr)
  | .foreign .., h => h.elim

theorem toExprs_toTrees :
    (es : List (Expr Unit)) → AllFormed P es → Tree.toExprs (toTrees es) = es
  | [], _ => rfl
  | e :: rest, h => congrArg₂ List.cons (toExpr_toTree e h.1) (toExprs_toTrees rest h.2)

end

theorem toExpr?_toTree {e : Expr Unit} (h : e.Formed P) : e.toTree.toExpr? = some e := by
  have he := toExpr_toTree e h
  cases e with
  | literal | ident | call | unary | binary => exact congrArg some he
  | foreign => exact h.elim

end Expr

namespace Stmt

theorem kind?_toTree {P : Token → Prop} {s : Stmt Unit} (h : s.Formed P) :
    s.toTree.kind? = some s.kind := by
  cases s with
  | declare _ _ _ _ value => cases value <;> rfl
  | foreign => exact h.elim
  | _ => rfl

theorem kind_of_isInit {s : Stmt Unit} (h : s.isInit) :
    some s.kind ∈ [some NodeKind.varDecl, some .assign, some .exprStmt] := by
  cases s with
  | declare | assign | evaluate => simp [kind]
  | input | print | ret | ifThen | ifElse | whileDo | forDo | block | foreign => cases h

theorem kind_of_isStep {s : Stmt Unit} (h : s.isStep) :
    some s.kind ∈ [some NodeKind.assign, some .exprStmt] := by
  cases s with
  | assign | evaluate => simp [kind]
  | declare | input | print | ret | ifThen | ifElse | whileDo | forDo | block | foreign => cases h

mutual

theorem toTree_shaped :
    (s : Stmt Unit) → s.Formed Token.WellSpelled → s.toTree.StmtShaped
  | .declare _ _ _ _ none, _ => .inl rfl
  | .declare _ _ _ _ (some value), h => .inr (Expr.toTree_shaped value (h.2.2 value rfl))
  | .assign _ _ _ value, h | .print _ value, h | .evaluate _ value, h | .ret _ value, h =>
    Expr.toTree_shaped value h.2
  | .input .., _ => trivial
  | .ifThen _ cond _ body, ⟨_, hc, _, hb⟩ =>
    ⟨Expr.toTree_shaped cond hc, ⟨rfl, toTrees_shaped body hb⟩, .inl rfl⟩
  | .ifElse _ cond _ body _ elseBody, ⟨_, hc, _, hb, _, he⟩ =>
    ⟨Expr.toTree_shaped cond hc, ⟨rfl, toTrees_shaped body hb⟩,
      .inr ⟨rfl, toTrees_shaped elseBody he⟩⟩
  | .whileDo _ cond _ body, ⟨_, hc, _, hb⟩ =>
    ⟨Expr.toTree_shaped cond hc, rfl, toTrees_shaped body hb⟩
  | .forDo _ init cond step _ body, ⟨_, hi, hinit, hc, hs', hstep, _, hb⟩ => by
    refine ⟨?_, ?_, ?_, rfl, toTrees_shaped body hb⟩
    · exact toTree?_shaped init hinit fun s hs => kind_of_isInit (hi s hs)
    · cases cond with
      | none => exact .inl rfl
      | some e => exact .inr (Expr.toTree_shaped e (hc e rfl))
    · exact toTree?_shaped step hstep fun s hs => kind_of_isStep (hs' s hs)
  | .block _ body, h => toTrees_shaped body h.2
  | .foreign .., h => h.elim

theorem toTree?_shaped {kinds : List (Option NodeKind)} :
    (o : Option (Stmt Unit)) → OptFormed Token.WellSpelled o → (∀ s ∈ o, some s.kind ∈ kinds) →
      (toTree? o).isAbsent ∨ (toTree? o).StmtShaped ∧ (toTree? o).kind? ∈ kinds
  | none, _, _ => .inl rfl
  | some s, h, hk => .inr ⟨toTree_shaped s h, kind?_toTree h ▸ hk s rfl⟩

theorem toTrees_shaped : (ss : List (Stmt Unit)) → AllFormed Token.WellSpelled ss →
    Tree.AllStmtShaped (toTrees ss)
  | [], _ => trivial
  | s :: rest, h => ⟨toTree_shaped s h.1, toTrees_shaped rest h.2⟩

end

variable {P : Token → Prop}

mutual

theorem toStmt_toTree : (s : Stmt Unit) → s.Formed P → s.toTree.toStmt = s
  | .declare _ _ _ _ none, _ => by
    simp only [toTree, Tree.leaf, Tree.list, Tree.toStmt, Tree.toExpr?]
  | .declare _ _ _ _ (some value), h => by
    simp only [toTree, valueTree, Tree.toStmt, Expr.toExpr?_toTree (h.2.2 value rfl)]
  | .assign _ _ _ value, h | .print _ value, h | .evaluate _ value, h | .ret _ value, h => by
    simp only [toTree, valueTree, Tree.toStmt, Expr.toExpr_toTree value h.2]
  | .input .., _ => by simp only [toTree, Tree.leaf, Tree.list, Tree.toStmt]
  | .ifThen _ cond _ body, ⟨_, hc, _, hb⟩ | .whileDo _ cond _ body, ⟨_, hc, _, hb⟩ => by
    simp only [toTree, blockTree, Tree.list, Tree.toStmt, Tree.isAbsent, Tree.token, Tree.toBody,
      Expr.toExpr_toTree cond hc, toStmts_toTrees body hb, if_true]
  | .ifElse _ cond _ body _ elseBody, ⟨_, hc, _, hb, _, he⟩ => by
    simp only [toTree, blockTree, Tree.list, Tree.toStmt, Tree.isAbsent, Tree.token, Tree.toBody,
      Expr.toExpr_toTree cond hc, toStmts_toTrees body hb, toStmts_toTrees elseBody he,
      Bool.false_eq_true, if_false]
  | .forDo _ init cond step _ body, ⟨_, _, hi, hc, _, hs, _, hb⟩ => by
    have hcond : (cond.elim .absent Expr.toTree).toExpr? = cond := by
      cases cond with
      | none => rfl
      | some e => exact Expr.toExpr?_toTree (hc e rfl)
    simp only [toTree, blockTree, Tree.list, Tree.toStmt, Tree.token, Tree.toBody, hcond,
      toStmt?_toTree? init hi, toStmt?_toTree? step hs, toStmts_toTrees body hb]
  | .block _ body, h => by
    simp only [toTree, blockTree, Tree.list, Tree.toStmt, toStmts_toTrees body h.2]
  | .foreign .., h => h.elim

theorem toStmt?_toTree? : (o : Option (Stmt Unit)) → OptFormed P o → (toTree? o).toStmt? = o
  | none, _ => by simp only [toTree?, Tree.toStmt?]
  | some s, h => by
    have hs := toStmt_toTree s h
    rw [toTree?]
    cases ht : s.toTree with
    | absent =>
      have hk := kind?_toTree h
      rw [ht] at hk
      cases hk
    | node => rw [Tree.toStmt?, ← ht, hs]

theorem toStmts_toTrees :
    (ss : List (Stmt Unit)) → AllFormed P ss → Tree.toStmts (toTrees ss) = ss
  | [], _ => by simp only [toTrees, Tree.toStmts]
  | s :: rest, h => by
    simp only [toTrees, Tree.toStmts, toStmt_toTree s h.1, toStmts_toTrees rest h.2]

end

end Stmt

theorem Func.toTree_shaped {f : Func Unit} (h : f.Formed Token.WellSpelled) :
    f.toTree.FuncShaped := by
  refine ⟨rfl, List.forall_mem_map.mpr fun _ _ => rfl, rfl, Stmt.toTrees_shaped f.body h.body⟩

theorem Func.toFunc_toTree {P : Token → Prop} {f : Func Unit} (h : f.Formed P) :
    f.toTree.toFunc = f := by
  have hparams : (f.params.map Param.toTree).map Tree.toParam = f.params := by
    rw [List.map_map]
    exact List.map_id _
  rw [Func.toTree, Tree.toFunc, hparams, Stmt.blockTree, Tree.list, Tree.toBody, Tree.token,
    Stmt.toStmts_toTrees f.body h.body]

namespace Program

theorem toTree_shaped {x : Program Unit} (h : x.Formed Token.WellSpelled) :
    x.toTree.ProgramShaped :=
  ⟨rfl, List.forall_mem_map.mpr fun f hf => Func.toTree_shaped (h f hf)⟩

theorem toProgram?_toTree {P : Token → Prop} {x : Program Unit} (h : x.Formed P) :
    x.toTree.toProgram? = some x := by
  have hfunctions : (x.functions.map Func.toTree).map Tree.toFunc = x.functions := by
    rw [List.map_map]
    exact (List.map_congr_left fun f hf => Func.toFunc_toTree (h f hf)).trans (List.map_id _)
  rw [Program.toTree, Tree.list, Tree.toProgram?, hfunctions, if_pos rfl]

end Program

end MiniSharp
