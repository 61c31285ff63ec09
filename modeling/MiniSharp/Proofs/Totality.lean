import MiniSharp.Proofs.GivenNames
import MiniSharp.Proofs.TreeForms

namespace MiniSharp

theorem Tree.toExpr?_of_shaped {t : Tree} (h : t.ExprShaped) : t.toExpr? = some t.toExpr := by
  cases t with
  | absent => exact h.elim
  | node => rfl

namespace Typing

theorem require_faultless (ok : Bool) (t : Token) (v : Violation) : Faultless (require ok t v) := by
  unfold require
  split
  · exact .ok ()
  · exact .semantic _

theorem resolveVariable_faultless (scope : Scope) (t : Token) (name : Text) :
    Faultless (resolveVariable scope t name) := by
  unfold resolveVariable
  split
  · exact .semantic _
  · split
    · exact .ok _
    · exact .semantic _

theorem resolveFunction_faultless (scope : Scope) (t : Token) (name : Text) :
    Faultless (resolveFunction scope t name) := by
  unfold resolveFunction
  split
  · exact .semantic _
  · split
    · exact .ok _
    · exact .semantic _

theorem unaryType_faultless (t : Token) {op : TokenKind} (operand : Ty)
    (h : op ∈ Tree.unaryOperators) : Faultless (unaryType t op operand) := by
  simp only [Tree.unaryOperators, List.mem_cons, List.not_mem_nil, or_false] at h
  rcases h with rfl | rfl
  all_goals
    simp only [unaryType]
    split
    · exact .ok _
    · exact .semantic _

theorem binaryType_faultless (t : Token) {op : TokenKind} (left right : Ty)
    (h : op ∈ Tree.binaryOperators) : Faultless (binaryType t op left right) := by
  obtain ⟨op, hop, rfl⟩ := List.mem_map.mp h
  cases op with
  | not => exact absurd hop (by decide)
  | plus =>
    simp only [binaryType]
    split
    · exact .ok _
    · split
      · exact .ok _
      · exact .semantic _
  | _ =>
    simp only [binaryType]
    split
    · exact .ok _
    · exact .semantic _

theorem declare_faultless (p : Place) (t : Token) (name : Text) (type : Ty) :
    Faultless (p.declare t name type) := by
  unfold Place.declare
  dsimp only
  split
  · exact .ok _
  · exact .semantic _

mutual

theorem expr_faultless (scope : Scope) :
    (t : Tree) → t.ExprShaped → Faultless (expr scope t.toExpr)
  | .absent, h => h.elim
  | .node ⟨kind, token, name, type, op, literal⟩ _ children _ _ _ _ left right _ _, h => by
    cases kind with
    | literal => exact .ok _
    | ident =>
      apply (resolveVariable_faultless scope token name).bind
      intro x _
      exact .ok _
    | call =>
      apply (resolveFunction_faultless scope token name).bind
      intro f _
      apply (require_faultless _ _ _).bind
      intro _ _
      apply (arguments_faultless scope name 1 f.params children h).bind
      intro args _
      exact .ok _
    | unary =>
      apply (expr_faultless scope left h.2).bind
      intro operand _
      apply (unaryType_faultless token operand.1 h.1).bind
      intro type _
      exact .ok _
    | binary =>
      apply (expr_faultless scope left h.2.1).bind
      intro l _
      apply (expr_faultless scope right h.2.2).bind
      intro r _
      apply (binaryType_faultless token l.1 r.1 h.1).bind
      intro type _
      exact .ok _
    | _ => exact h.elim

theorem arguments_faultless (scope : Scope) (function : Text) (index : Nat) (params : List Ty) :
    (ts : List Tree) → Tree.AllExprShaped ts →
      Faultless (arguments scope function index params (Tree.toExprs ts))
  | [], _ => by
    cases params with
    | nil => exact .ok _
    | cons => exact .ok _
  | t :: rest, h => by
    cases params with
    | nil => exact .ok _
    | cons param params =>
      apply (expr_faultless scope t h.1).bind
      intro arg _
      apply (require_faultless _ _ _).bind
      intro _ _
      apply (arguments_faultless scope function (index + 1) params rest h.2).bind
      intro args _
      exact .ok _

end

theorem fitted_faultless (scope : Scope) (expected : Ty) (v : Ty → Violation) {t : Tree}
    (h : t.ExprShaped) : Faultless (fitted scope expected v t.toExpr) := by
  apply (expr_faultless scope t h).bind
  intro found _
  apply (require_faultless _ _ _).bind
  intro _ _
  exact .ok _

theorem condition_faultless (scope : Scope) (word : Keyword) {t : Tree} (h : t.ExprShaped) :
    Faultless (condition scope word t.toExpr) := by
  apply (expr_faultless scope t h).bind
  intro found _
  apply (require_faultless _ _ _).bind
  intro _ _
  exact .ok _

theorem conditions_faultless (scope : Scope) (word : Keyword) {t : Tree}
    (h : t.isAbsent ∨ t.ExprShaped) : Faultless (t.toExpr?.mapM (condition scope word)) := by
  cases t with
  | absent => exact .ok _
  | node =>
    have h := h.resolve_left nofun
    rw [Tree.toExpr?_of_shaped h, Option.mapM_some, map_eq_pure_bind]
    apply (condition_faultless scope word h).bind
    intro e _
    exact .ok _

theorem declaration_faultless (p : Place) (t : Token) (name : Text) (type : Ty) {value : Tree}
    (h : value.isAbsent ∨ value.ExprShaped) :
    Faultless (stmt p (.declare () t name type value.toExpr?)) := by
  cases value with
  | absent =>
    rw [Tree.toExpr?, stmt]
    apply (declare_faultless p t name type).bind
    intro x _
    exact .ok _
  | node =>
    have h := h.resolve_left nofun
    rw [Tree.toExpr?_of_shaped h, stmt]
    apply (fitted_faultless _ _ _ h).bind
    intro value _
    apply (declare_faultless p t name type).bind
    intro x _
    exact .ok _

mutual

theorem stmt_faultless (p : Place) : (t : Tree) → t.StmtShaped → Faultless (stmt p t.toStmt)
  | .absent, h => h.elim
  | .node ⟨kind, token, name, type, op, literal⟩ _ children init cond step value _ _ body orElse,
      h => by
    cases kind with
    | varDecl =>
      rw [Tree.toStmt]
      exact declaration_faultless p token name type h
    | assign =>
      rw [Tree.toStmt, stmt]
      apply (resolveVariable_faultless p.scope token name).bind
      intro x _
      apply (fitted_faultless _ _ _ h).bind
      intro value _
      exact .ok _
    | input =>
      rw [Tree.toStmt, stmt]
      apply (resolveVariable_faultless p.scope token name).bind
      intro x _
      exact .ok _
    | print | exprStmt =>
      rw [Tree.toStmt, stmt]
      apply (expr_faultless p.scope value h).bind
      intro value _
      exact .ok _
    | ret =>
      rw [Tree.toStmt, stmt]
      apply (fitted_faultless _ _ _ h).bind
      intro value _
      exact .ok _
    | ifStmt =>
      obtain ⟨hc, hb, he⟩ := h
      rw [Tree.toStmt]
      dsimp only
      split
      · rw [stmt]
        apply (condition_faultless _ _ hc).bind
        intro cond _
        apply (body_faultless p.inner body hb).bind
        intro inside _
        exact .ok _
      · next hp =>
        rw [stmt]
        apply (condition_faultless _ _ hc).bind
        intro cond _
        apply (body_faultless p.inner body hb).bind
        intro inside _
        apply (body_faultless _ orElse (he.resolve_left hp)).bind
        intro elseInside _
        exact .ok _
    | whileStmt =>
      rw [Tree.toStmt, stmt]
      apply (condition_faultless _ _ h.1).bind
      intro cond _
      apply (body_faultless p.inner body h.2).bind
      intro inside _
      exact .ok _
    | forStmt =>
      obtain ⟨hi, hc, hs, hb⟩ := h
      rw [Tree.toStmt, stmt]
      apply (stmt?_faultless p.inner init (hi.imp_right And.left)).bind
      intro started _
      apply (conditions_faultless _ _ hc).bind
      intro cond _
      apply (body_faultless started.2 body hb).bind
      intro looped _
      apply (stmt?_faultless looped.2 step (hs.imp_right And.left)).bind
      intro stepped _
      exact .ok _
    | block =>
      rw [Tree.toStmt, stmt]
      apply (stmts_faultless p.inner children h).bind
      intro inside _
      exact .ok _
    | _ => exact h.elim

theorem stmt?_faultless (p : Place) :
    (t : Tree) → t.isAbsent ∨ t.StmtShaped → Faultless (stmt? p t.toStmt?)
  | .absent, _ => by
    rw [Tree.toStmt?]
    exact .ok _
  | .node label params children init cond step value left right body orElse, h => by
    rw [Tree.toStmt?, stmt?]
    apply (stmt_faultless p (.node label params children init cond step value left right body
      orElse) (h.resolve_left nofun)).bind
    intro s _
    exact .ok _

theorem body_faultless (p : Place) :
    (t : Tree) → t.BlockShaped → Faultless (stmts p t.toBody)
  | .absent, h => h.elim
  | .node _ _ children _ _ _ _ _ _ _ _, h => by
    rw [Tree.toBody]
    exact stmts_faultless p children h.2

theorem stmts_faultless (p : Place) :
    (ts : List Tree) → Tree.AllStmtShaped ts → Faultless (stmts p (Tree.toStmts ts))
  | [], _ => by
    rw [Tree.toStmts]
    exact .ok _
  | t :: rest, h => by
    rw [Tree.toStmts, stmts]
    apply (stmt_faultless p t h.1).bind
    intro s _
    apply (stmts_faultless s.2 rest h.2).bind
    intro rest _
    exact .ok _

end

theorem params_faultless (p : Place) (xs : List (Param Unit)) : Faultless (params p xs) := by
  induction xs generalizing p with
  | nil => exact .ok _
  | cons x rest ih =>
    apply (declare_faultless p x.token x.name x.type).bind
    intro x _
    apply (ih x.2).bind
    intro rest _
    exact .ok _

theorem function_faultless (scope : Scope) {t : Tree} (h : t.FuncShaped) :
    Faultless (function scope t.toFunc) := by
  cases t with
  | absent => exact h.elim
  | node =>
    apply (params_faultless _ _).bind
    intro r _
    apply (body_faultless r.2 _ h.2.2).bind
    intro inside _
    exact .ok _

theorem addFunction_faultless (scope : Scope) (f : Func Unit) :
    Faultless (addFunction scope f) := by
  unfold addFunction
  split
  · exact .semantic _
  · split
    · exact .semantic _
    · exact .ok _

theorem addFunctions_faultless (scope : Scope) (fs : List (Func Unit)) :
    Faultless (fs.foldlM addFunction scope) := by
  induction fs generalizing scope with
  | nil => exact .ok _
  | cons f fs ih =>
    apply (addFunction_faultless scope f).bind
    intro next _
    exact ih next

end Typing

theorem Tree.declarable_of_shaped {t : Tree} (h : t.FuncShaped) : t.declarable = true := by
  cases t with
  | absent => exact h.elim
  | node _ params =>
    refine List.all_eq_true.mpr fun p hp => ?_
    have hkind := h.2.1 p hp
    cases p with
    | absent => cases hkind
    | node => rfl

theorem Tree.analyze_faultless {t : Tree} (h : t.ProgramShaped) : Faultless t.analyze := by
  cases t with
  | absent => exact h.elim
  | node label params children init cond step value left right body orElse =>
    obtain ⟨hk, hfs⟩ := h
    have hall : (node label params children init cond step value left right body
        orElse).functions.all declarable = true :=
      List.all_eq_true.mpr fun f hf => declarable_of_shaped (hfs f hf)
    rw [Tree.analyze, Tree.toProgram?, if_pos hk]
    dsimp only
    rw [if_pos hall]
    apply (Typing.addFunctions_faultless _ _).bind
    intro global _
    refine (Faultless.mapM ?_).bind fun functions _ => .ok _
    exact List.forall_mem_map.mpr fun f hf => Typing.function_faultless global (hfs f hf)

theorem Program.analyze_toTree {P : Token → Prop} {x : Program Unit} (h : x.Formed P) :
    x.toTree.analyze = x.analyze := by
  have hall : x.toTree.functions.all Tree.declarable = true := by
    refine List.all_eq_true.mpr (List.forall_mem_map.mpr fun f _ => ?_)
    exact List.all_eq_true.mpr (List.forall_mem_map.mpr fun p _ => rfl)
  rw [Tree.analyze, Program.toProgram?_toTree h]
  exact if_pos hall

/-- Every source is compiled to code, or refused for its syntax or by a rule of checking: what is
read has the shape that checking needs, what is checked can be lowered, and the search for a free
name ends. -/
theorem compile_total (source : Text) :
    (∀ t ∈ (scan source).tokens, t.kind = .charLiteral → t.text ≠ []) ∧
      (∀ x, parse source = .ok x → x.toTree.ProgramShaped ∧ x.toTree.analyze = x.analyze) ∧
      (∀ t : Tree, t.ProgramShaped → ∀ s, t.analyze = .error s → ∃ e, s = .semantic e) ∧
      (∀ a, check source = .ok a → ∃ text, a.program.toCSharp = .ok text) ∧
      (∀ base used, Target.freshName base used ∉ used) ∧
      ((∃ a text, check source = .ok a ∧ a.program.toCSharp = .ok text ∧
          compile source = .ok text) ∨
        (∃ e, parse source = .error e ∧ compile source = .error (.parse e)) ∨
        ∃ x e, parse source = .ok x ∧ x.analyze = .error (.semantic e) ∧
          compile source = .error (.semantic e)) := by
  have hform : ∀ x, parse source = .ok x → x.Formed Token.WellSpelled :=
    fun x hx => parse_formed hx (scan_wellSpelled source)
  have hlower : ∀ a, check source = .ok a → ∃ text, a.program.toCSharp = .ok text := by
    intro a ha
    obtain ⟨x, hx, ha⟩ := check_eq_ok.mp ha
    obtain ⟨methods, hl, -⟩ := Program.lower_emitted (hform x hx) ha
    exact ⟨_, toCSharp_of_lower hl⟩
  refine ⟨fun t ht => (scan_wellSpelled source t ht).char, fun x hx => ?_,
    fun t ht => Tree.analyze_faultless ht, hlower, Target.freshName_not_mem, ?_⟩
  · exact ⟨Program.toTree_shaped (hform x hx), Program.analyze_toTree (hform x hx)⟩
  · cases hx : parse source with
    | error e => exact .inr (.inl ⟨e, rfl, compile_of_parse_error hx⟩)
    | ok x =>
      cases hs : x.analyze with
      | ok a =>
        have ha := check_eq_ok.mpr ⟨x, hx, hs⟩
        obtain ⟨text, ht⟩ := hlower a ha
        exact .inl ⟨a, text, ha, ht, compile_of_check ha ht⟩
      | error s =>
        rw [← Program.analyze_toTree (hform x hx)] at hs
        obtain ⟨e, rfl⟩ := Tree.analyze_faultless (Program.toTree_shaped (hform x hx)) s hs
        rw [Program.analyze_toTree (hform x hx)] at hs
        exact .inr (.inr ⟨x, e, rfl, hs, compile_of_analyze_error hx hs⟩)

end MiniSharp
