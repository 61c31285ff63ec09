import MiniSharp.Analysis.Typing
import MiniSharp.Proofs.Outcome

/-!
A run of the checker as rules: what is checked, what is noted, and where the checker stands
afterwards. The rules say all that a run can do, and every fact about runs is proved from them.
-/

namespace MiniSharp.Typing

theorem require_eq_ok {ok : Bool} {t : Token} {v : Violation} {u : Unit} :
    require ok t v = .ok u ↔ ok = true := by
  unfold require
  split
  · next h => simp [h]
  · next h => simp [violation, h]

theorem resolveVariable_eq_ok {scope : Scope} {t : Token} {name : Text} {x : Symbol} {type : Ty} :
    resolveVariable scope t name = .ok (x, type) ↔
      scope.resolve? name = some x ∧ x.sort = .var type := by
  unfold resolveVariable
  cases scope.resolve? name with
  | none => simp [violation]
  | some y =>
    obtain ⟨id, n, sort, pos⟩ := y
    constructor
    · intro h
      cases sort <;> cases h
      exact ⟨rfl, rfl⟩
    · rintro ⟨h, hx⟩
      cases h
      cases hx
      rfl

theorem resolveFunction_eq_ok {scope : Scope} {t : Token} {name : Text} {f : Callee} :
    resolveFunction scope t name = .ok f ↔
      scope.resolve? name = some f.symbol ∧ f.symbol.sort = .func f.params f.result := by
  obtain ⟨x, params, result⟩ := f
  unfold resolveFunction
  cases scope.resolve? name with
  | none => simp [violation]
  | some y =>
    obtain ⟨id, n, sort, pos⟩ := y
    constructor
    · intro h
      cases sort <;> cases h
      exact ⟨rfl, rfl⟩
    · rintro ⟨h, hx⟩
      cases h
      dsimp only at hx
      subst hx
      rfl

theorem fitted_eq_ok {scope : Scope} {expected : Ty} {v : Ty → Violation} {e : Expr Unit}
    {checked : Expr Note} :
    fitted scope expected v e = .ok checked ↔
      ∃ found, expr scope e = .ok (found, checked) ∧ expected.accepts found = true := by
  simp only [fitted, bind_eq_ok, pure_eq_ok, Prod.exists, require_eq_ok]
  constructor
  · rintro ⟨found, e', he, u, ha, rfl⟩
    exact ⟨found, he, ha⟩
  · rintro ⟨found, he, ha⟩
    exact ⟨found, checked, he, (), ha, rfl⟩

theorem condition_eq_ok {scope : Scope} {word : Keyword} {e : Expr Unit} {checked : Expr Note} :
    condition scope word e = .ok checked ↔ expr scope e = .ok (.bool, checked) := by
  simp only [condition, bind_eq_ok, pure_eq_ok, Prod.exists, require_eq_ok, beq_iff_eq]
  constructor
  · rintro ⟨found, e', he, u, rfl, rfl⟩
    exact he
  · intro he
    exact ⟨.bool, checked, he, (), rfl, rfl⟩

namespace Place

def symbol (p : Place) (t : Token) (name : Text) (type : Ty) : Symbol :=
  ⟨.var p.function p.serial, name, .var type, t.pos⟩

def extend (p : Place) (x : Symbol) : Place :=
  { p with scope := { p.scope with symbols := p.scope.symbols ++ [x] }, serial := p.serial + 1 }

theorem declare_eq_ok {p p' : Place} {t : Token} {name : Text} {type : Ty} {x : Symbol} :
    p.declare t name type = .ok (x, p') ↔
      p.scope.lookup? name = none ∧ x = p.symbol t name type ∧ p' = p.extend x := by
  unfold declare Scope.define? Scope.declares
  cases hl : p.scope.lookup? name with
  | none =>
    simp only [hl, Option.isSome_none, Bool.false_eq_true, ↓reduceIte, Except.ok.injEq,
      Prod.mk.injEq, true_and]
    constructor
    · rintro ⟨rfl, rfl⟩
      exact ⟨rfl, rfl⟩
    · rintro ⟨rfl, rfl⟩
      exact ⟨rfl, rfl⟩
  | some y => simp [hl, violation]

end Place

mutual

inductive ExprChecked (scope : Scope) : Expr Unit → Ty → Expr Note → Prop
  | literal {t value} :
    ExprChecked scope (.literal () t value) value.type (.literal (.ofType value.type) t value)
  | ident {t name x} {type : Ty} : scope.resolve? name = some x → x.sort = .var type →
    ExprChecked scope (.ident () t name) type (.ident { Note.ofUse x with type } t name)
  | call {t name args args' x params result} : scope.resolve? name = some x →
    x.sort = .func params result → ArgsChecked scope params args args' →
    ExprChecked scope (.call () t name args) result
      (.call { Note.ofUse x with type := result } t name args')
  | unary {t op operand operand' found type} : ExprChecked scope operand found operand' →
    unaryType t op found = .ok type →
    ExprChecked scope (.unary () t op operand) type (.unary (.ofType type) t op operand')
  | binary {t op left left' leftType right right' rightType type} :
    ExprChecked scope left leftType left' → ExprChecked scope right rightType right' →
    binaryType t op leftType rightType = .ok type →
    ExprChecked scope (.binary () t op left right) type (.binary (.ofType type) t op left' right')

inductive ArgsChecked (scope : Scope) : List Ty → List (Expr Unit) → List (Expr Note) → Prop
  | nil : ArgsChecked scope [] [] []
  | cons {param params arg arg' found args args'} : ExprChecked scope arg found arg' →
    param.accepts found = true → ArgsChecked scope params args args' →
    ArgsChecked scope (param :: params) (arg :: args) (arg' :: args')

end

mutual

inductive StmtChecked : Place → Stmt Unit → Stmt Note → Place → Prop
  | declare {p t name type} : p.scope.lookup? name = none →
    StmtChecked p (.declare () t name type none)
      (.declare (.ofDeclaration (p.symbol t name type)) t name type none)
      (p.extend (p.symbol t name type))
  | declareWith {p t name type value value' found} : ExprChecked p.scope value found value' →
    type.accepts found = true → p.scope.lookup? name = none →
    StmtChecked p (.declare () t name type (some value))
      (.declare (.ofDeclaration (p.symbol t name type)) t name type (some value'))
      (p.extend (p.symbol t name type))
  | assign {p t name x type value value' found} : p.scope.resolve? name = some x →
    x.sort = .var type → ExprChecked p.scope value found value' → type.accepts found = true →
    StmtChecked p (.assign () t name value) (.assign (.ofUse x) t name value') p
  | input {p t name x} {type : Ty} : p.scope.resolve? name = some x → x.sort = .var type →
    StmtChecked p (.input () t name) (.input { Note.ofUse x with input := type } t name) p
  | print {p t value value' found} : ExprChecked p.scope value found value' →
    StmtChecked p (.print t value) (.print t value') p
  | evaluate {p t value value' found} : ExprChecked p.scope value found value' →
    StmtChecked p (.evaluate t value) (.evaluate t value') p
  | ret {p t value value' found} : ExprChecked p.scope value found value' →
    p.result.accepts found = true → StmtChecked p (.ret t value) (.ret t value') p
  | ifThen {p t cond cond' brace body body' inside} : ExprChecked p.scope cond .bool cond' →
    StmtsChecked p.inner body body' inside →
    StmtChecked p (.ifThen t cond brace body) (.ifThen t cond' brace body') (p.leave inside)
  | ifElse {p t cond cond' brace body body' inside elseBrace elseBody elseBody' elseInside} :
    ExprChecked p.scope cond .bool cond' → StmtsChecked p.inner body body' inside →
    StmtsChecked (p.leave inside).inner elseBody elseBody' elseInside →
    StmtChecked p (.ifElse t cond brace body elseBrace elseBody)
      (.ifElse t cond' brace body' elseBrace elseBody') (p.leave elseInside)
  | whileDo {p t cond cond' brace body body' inside} : ExprChecked p.scope cond .bool cond' →
    StmtsChecked p.inner body body' inside →
    StmtChecked p (.whileDo t cond brace body) (.whileDo t cond' brace body') (p.leave inside)
  | forDo {p t init init' started cond cond' body body' looped step step' stepped brace} :
    ClauseChecked p.inner init init' started →
    Option.Rel (fun e => ExprChecked started.scope e .bool) cond cond' →
    StmtsChecked started body body' looped → ClauseChecked looped step step' stepped →
    StmtChecked p (.forDo t init cond step brace body) (.forDo t init' cond' step' brace body')
      (p.leave stepped)
  | block {p brace body body' inside} : StmtsChecked p.inner body body' inside →
    StmtChecked p (.block brace body) (.block brace body') (p.leave inside)

inductive ClauseChecked : Place → Option (Stmt Unit) → Option (Stmt Note) → Place → Prop
  | none {p} : ClauseChecked p none none p
  | some {p s s' p'} : StmtChecked p s s' p' → ClauseChecked p (some s) (some s') p'

inductive StmtsChecked : Place → List (Stmt Unit) → List (Stmt Note) → Place → Prop
  | nil {p} : StmtsChecked p [] [] p
  | cons {p s s' q rest rest' r} : StmtChecked p s s' q → StmtsChecked q rest rest' r →
    StmtsChecked p (s :: rest) (s' :: rest') r

end

inductive ParamsChecked : Place → List (Param Unit) → List (Param Note) → Place → Prop
  | nil {p} : ParamsChecked p [] [] p
  | cons {p x rest rest' q} : p.scope.lookup? x.name = none →
    ParamsChecked (p.extend (p.symbol x.token x.name x.type)) rest rest' q →
    ParamsChecked p (x :: rest)
      (⟨.ofDeclaration (p.symbol x.token x.name x.type), x.token, x.name, x.type⟩ :: rest') q

inductive FuncChecked (scope : Scope) : Func Unit → Func Note → Prop
  | mk {f params body p q} : ParamsChecked ⟨f.name, f.result, scope.push, 0⟩ f.params params p →
    StmtsChecked p f.body body q →
    FuncChecked scope f
      ⟨.ofDeclaration (signature f), f.token, f.name, params, f.result, f.brace, body⟩

theorem ArgsChecked.length_eq {scope : Scope} {params : List Ty} {args : List (Expr Unit)}
    {args' : List (Expr Note)} : ArgsChecked scope params args args' → args.length = params.length
  | .nil => rfl
  | .cons _ _ h => congrArg Nat.succ h.length_eq

mutual

theorem expr_checked {scope : Scope} {type : Ty} {e' : Expr Note} :
    (e : Expr Unit) → expr scope e = .ok (type, e') → ExprChecked scope e type e'
  | .literal _ t value, h => by
    simp only [expr, pure_eq_ok, Prod.mk.injEq] at h
    obtain ⟨rfl, rfl⟩ := h
    exact .literal
  | .ident _ t name, h => by
    simp only [expr, bind_eq_ok, pure_eq_ok, Prod.exists, resolveVariable_eq_ok,
      Prod.mk.injEq] at h
    obtain ⟨x, type, ⟨hx, hs⟩, rfl, rfl⟩ := h
    exact .ident hx hs
  | .call _ t name args, h => by
    simp only [expr, bind_eq_ok, pure_eq_ok, resolveFunction_eq_ok, require_eq_ok, beq_iff_eq,
      Prod.mk.injEq] at h
    obtain ⟨f, ⟨hx, hs⟩, u, hlen, args', ha, rfl, rfl⟩ := h
    exact .call hx hs (arguments_checked f.params args hlen ha)
  | .unary _ t op operand, h => by
    simp only [expr, bind_eq_ok, pure_eq_ok, Prod.exists, Prod.mk.injEq] at h
    obtain ⟨found, operand', ho, type, ht, rfl, rfl⟩ := h
    exact .unary (expr_checked operand ho) ht
  | .binary _ t op left right, h => by
    simp only [expr, bind_eq_ok, pure_eq_ok, Prod.exists, Prod.mk.injEq] at h
    obtain ⟨leftType, left', hl, rightType, right', hr, type, ht, rfl, rfl⟩ := h
    exact .binary (expr_checked left hl) (expr_checked right hr) ht
  | .foreign t kind, h => by
    rw [expr] at h
    cases h

theorem arguments_checked {scope : Scope} {function : Text} {index : Nat}
    {args' : List (Expr Note)} :
    (params : List Ty) → (args : List (Expr Unit)) → args.length = params.length →
      arguments scope function index params args = .ok args' → ArgsChecked scope params args args'
  | [], [], _, h => by
    simp only [arguments, pure_eq_ok] at h
    subst h
    exact .nil
  | param :: params, arg :: args, hlen, h => by
    simp only [arguments, bind_eq_ok, pure_eq_ok, Prod.exists, require_eq_ok] at h
    obtain ⟨found, arg', he, u, ha, more, hm, rfl⟩ := h
    exact .cons (expr_checked arg he) ha
      (arguments_checked params args (Nat.succ.inj hlen) hm)

end

mutual

theorem ExprChecked.eq_ok {scope : Scope} {e : Expr Unit} {type : Ty} {e' : Expr Note} :
    ExprChecked scope e type e' → expr scope e = .ok (type, e')
  | .literal => rfl
  | .ident hx hs => by
    rw [expr, resolveVariable_eq_ok.mpr ⟨hx, hs⟩]
    rfl
  | @ExprChecked.call _ t name args args' x params result hx hs ha => by
    have hf : resolveFunction scope t name = .ok ⟨x, params, result⟩ :=
      resolveFunction_eq_ok.mpr ⟨hx, hs⟩
    have hlen : (args.length == params.length) = true := beq_iff_eq.mpr ha.length_eq
    simp only [expr, hf, ok_bind, hlen, require, if_true, ha.eq_ok name 1]
    rfl
  | .unary ho ht => by
    simp only [expr, ho.eq_ok, ht, ok_bind]
    rfl
  | .binary hl hr ht => by
    simp only [expr, hl.eq_ok, hr.eq_ok, ht, ok_bind]
    rfl

theorem ArgsChecked.eq_ok {scope : Scope} {params : List Ty} {args : List (Expr Unit)}
    {args' : List (Expr Note)} (function : Text) (index : Nat) :
    ArgsChecked scope params args args' →
      arguments scope function index params args = .ok args'
  | .nil => rfl
  | .cons he ha hs => by
    simp only [arguments, he.eq_ok, ok_bind, ha, require, if_true, hs.eq_ok function (index + 1)]
    rfl

end

theorem fitted_checked {scope : Scope} {expected : Ty} {v : Ty → Violation} {e : Expr Unit}
    {e' : Expr Note} (h : fitted scope expected v e = .ok e') :
    ∃ found, ExprChecked scope e found e' ∧ expected.accepts found = true := by
  obtain ⟨found, he, ha⟩ := fitted_eq_ok.mp h
  exact ⟨found, expr_checked e he, ha⟩

theorem ExprChecked.fitted {scope : Scope} {expected found : Ty} {e : Expr Unit} {e' : Expr Note}
    (h : ExprChecked scope e found e') (ha : expected.accepts found = true)
    (v : Ty → Violation) : Typing.fitted scope expected v e = .ok e' :=
  fitted_eq_ok.mpr ⟨found, h.eq_ok, ha⟩

theorem condition_checked {scope : Scope} {word : Keyword} {e : Expr Unit} {e' : Expr Note} :
    condition scope word e = .ok e' ↔ ExprChecked scope e .bool e' :=
  condition_eq_ok.trans ⟨expr_checked e, ExprChecked.eq_ok⟩

theorem conditions_checked {scope : Scope} {word : Keyword} {o : Option (Expr Unit)}
    {o' : Option (Expr Note)} : o.mapM (condition scope word) = .ok o' ↔
      Option.Rel (fun e => ExprChecked scope e .bool) o o' := by
  cases o with
  | none =>
    rw [mapM_none, Except.ok.injEq]
    constructor
    · rintro rfl
      exact .none
    · rintro ⟨⟩
      rfl
  | some e =>
    rw [mapM_some_eq_ok]
    constructor
    · rintro ⟨e', he, rfl⟩
      exact .some (condition_checked.mp he)
    · rintro ⟨he⟩
      exact ⟨_, condition_checked.mpr he, rfl⟩

mutual

theorem stmt_checked {p p' : Place} {s' : Stmt Note} :
    (s : Stmt Unit) → stmt p s = .ok (s', p') → StmtChecked p s s' p'
  | .declare _ t name type none, h => by
    simp only [stmt, bind_eq_ok, pure_eq_ok, Prod.exists, Place.declare_eq_ok, Prod.mk.injEq] at h
    obtain ⟨x, q, ⟨hl, rfl, rfl⟩, rfl, rfl⟩ := h
    exact .declare hl
  | .declare _ t name type (some value), h => by
    simp only [stmt, bind_eq_ok, pure_eq_ok, Prod.exists, Place.declare_eq_ok, Prod.mk.injEq] at h
    obtain ⟨value', hv, x, q, ⟨hl, rfl, rfl⟩, rfl, rfl⟩ := h
    obtain ⟨found, hv, ha⟩ := fitted_checked hv
    exact .declareWith hv ha hl
  | .assign _ t name value, h => by
    simp only [stmt, bind_eq_ok, pure_eq_ok, Prod.exists, resolveVariable_eq_ok,
      Prod.mk.injEq] at h
    obtain ⟨x, type, ⟨hx, hs⟩, value', hv, rfl, rfl⟩ := h
    obtain ⟨found, hv, ha⟩ := fitted_checked hv
    exact .assign hx hs hv ha
  | .input _ t name, h => by
    simp only [stmt, bind_eq_ok, pure_eq_ok, Prod.exists, resolveVariable_eq_ok,
      Prod.mk.injEq] at h
    obtain ⟨x, type, ⟨hx, hs⟩, rfl, rfl⟩ := h
    exact .input hx hs
  | .print t value, h => by
    simp only [stmt, bind_eq_ok, pure_eq_ok, Prod.exists, Prod.mk.injEq] at h
    obtain ⟨found, value', hv, rfl, rfl⟩ := h
    exact .print (expr_checked value hv)
  | .evaluate t value, h => by
    simp only [stmt, bind_eq_ok, pure_eq_ok, Prod.exists, Prod.mk.injEq] at h
    obtain ⟨found, value', hv, rfl, rfl⟩ := h
    exact .evaluate (expr_checked value hv)
  | .ret t value, h => by
    simp only [stmt, bind_eq_ok, pure_eq_ok, Prod.mk.injEq] at h
    obtain ⟨value', hv, rfl, rfl⟩ := h
    obtain ⟨found, hv, ha⟩ := fitted_checked hv
    exact .ret hv ha
  | .ifThen t cond brace body, h => by
    simp only [stmt, bind_eq_ok, pure_eq_ok, Prod.exists, Prod.mk.injEq, condition_checked] at h
    obtain ⟨cond', hc, body', inside, hb, rfl, rfl⟩ := h
    exact .ifThen hc (stmts_checked body hb)
  | .ifElse t cond brace body elseBrace elseBody, h => by
    simp only [stmt, bind_eq_ok, pure_eq_ok, Prod.exists, Prod.mk.injEq, condition_checked] at h
    obtain ⟨cond', hc, body', inside, hb, elseBody', elseInside, he, rfl, rfl⟩ := h
    exact .ifElse hc (stmts_checked body hb) (stmts_checked elseBody he)
  | .whileDo t cond brace body, h => by
    simp only [stmt, bind_eq_ok, pure_eq_ok, Prod.exists, Prod.mk.injEq, condition_checked] at h
    obtain ⟨cond', hc, body', inside, hb, rfl, rfl⟩ := h
    exact .whileDo hc (stmts_checked body hb)
  | .forDo t init cond step brace body, h => by
    simp only [stmt, bind_eq_ok, pure_eq_ok, Prod.exists, Prod.mk.injEq, conditions_checked] at h
    obtain ⟨init', started, hi, cond', hc, body', looped, hb, step', stepped, hs, rfl, rfl⟩ := h
    exact .forDo (stmt?_checked init hi) hc (stmts_checked body hb) (stmt?_checked step hs)
  | .block brace body, h => by
    simp only [stmt, bind_eq_ok, pure_eq_ok, Prod.exists, Prod.mk.injEq] at h
    obtain ⟨body', inside, hb, rfl, rfl⟩ := h
    exact .block (stmts_checked body hb)
  | .foreign t kind, h => by
    rw [stmt] at h
    cases h

theorem stmt?_checked {p p' : Place} {o' : Option (Stmt Note)} :
    (o : Option (Stmt Unit)) → stmt? p o = .ok (o', p') → ClauseChecked p o o' p'
  | none, h => by
    simp only [stmt?, pure_eq_ok, Prod.mk.injEq] at h
    obtain ⟨rfl, rfl⟩ := h
    exact .none
  | some s, h => by
    simp only [stmt?, bind_eq_ok, pure_eq_ok, Prod.exists, Prod.mk.injEq] at h
    obtain ⟨s', q, hs, rfl, rfl⟩ := h
    exact .some (stmt_checked s hs)

theorem stmts_checked {p p' : Place} {ss' : List (Stmt Note)} :
    (ss : List (Stmt Unit)) → stmts p ss = .ok (ss', p') → StmtsChecked p ss ss' p'
  | [], h => by
    simp only [stmts, pure_eq_ok, Prod.mk.injEq] at h
    obtain ⟨rfl, rfl⟩ := h
    exact .nil
  | s :: rest, h => by
    simp only [stmts, bind_eq_ok, pure_eq_ok, Prod.exists, Prod.mk.injEq] at h
    obtain ⟨s', q, hs, rest', r, hr, rfl, rfl⟩ := h
    exact .cons (stmt_checked s hs) (stmts_checked rest hr)

end

mutual

theorem StmtChecked.eq_ok {p p' : Place} {s : Stmt Unit} {s' : Stmt Note} :
    StmtChecked p s s' p' → stmt p s = .ok (s', p')
  | .declare hl => by
    rw [stmt, Place.declare_eq_ok.mpr ⟨hl, rfl, rfl⟩]
    rfl
  | .declareWith hv ha hl => by
    rw [stmt, hv.fitted ha, ok_bind, Place.declare_eq_ok.mpr ⟨hl, rfl, rfl⟩]
    rfl
  | .assign hx hs hv ha => by
    simp only [stmt, resolveVariable_eq_ok.mpr ⟨hx, hs⟩, hv.fitted ha, ok_bind]
    rfl
  | .input hx hs => by
    rw [stmt, resolveVariable_eq_ok.mpr ⟨hx, hs⟩]
    rfl
  | .print hv => by
    rw [stmt, hv.eq_ok]
    rfl
  | .evaluate hv => by
    rw [stmt, hv.eq_ok]
    rfl
  | .ret hv ha => by
    rw [stmt, hv.fitted ha]
    rfl
  | .ifThen hc hb => by
    rw [stmt, condition_checked.mpr hc, ok_bind, hb.eq_ok]
    rfl
  | .ifElse hc hb he => by
    simp only [stmt, condition_checked.mpr hc, hb.eq_ok, he.eq_ok, ok_bind]
    rfl
  | .whileDo hc hb => by
    rw [stmt, condition_checked.mpr hc, ok_bind, hb.eq_ok]
    rfl
  | .forDo hi hc hb hs => by
    simp only [stmt, hi.eq_ok, conditions_checked.mpr hc, hb.eq_ok, hs.eq_ok, ok_bind]
    rfl
  | .block hb => by
    rw [stmt, hb.eq_ok]
    rfl

theorem ClauseChecked.eq_ok {p p' : Place} {o : Option (Stmt Unit)} {o' : Option (Stmt Note)} :
    ClauseChecked p o o' p' → stmt? p o = .ok (o', p')
  | .none => rfl
  | .some hs => by
    rw [stmt?, hs.eq_ok]
    rfl

theorem StmtsChecked.eq_ok {p p' : Place} {ss : List (Stmt Unit)} {ss' : List (Stmt Note)} :
    StmtsChecked p ss ss' p' → stmts p ss = .ok (ss', p')
  | .nil => rfl
  | .cons hs hr => by
    simp only [stmts, hs.eq_ok, hr.eq_ok, ok_bind]
    rfl

end

theorem params_checked {p p' : Place} {xs : List (Param Unit)} {xs' : List (Param Note)} :
    params p xs = .ok (xs', p') ↔ ParamsChecked p xs xs' p' := by
  constructor
  · intro h
    induction xs generalizing p xs' with
    | nil =>
      simp only [params, pure_eq_ok, Prod.mk.injEq] at h
      obtain ⟨rfl, rfl⟩ := h
      exact .nil
    | cons x rest ih =>
      simp only [params, bind_eq_ok, pure_eq_ok, Prod.exists, Place.declare_eq_ok,
        Prod.mk.injEq] at h
      obtain ⟨y, q, ⟨hl, rfl, rfl⟩, rest', r, hr, rfl, rfl⟩ := h
      exact .cons hl (ih hr)
  · intro h
    induction h with
    | nil => rfl
    | cons hl _ ih =>
      simp only [params, Place.declare_eq_ok.mpr ⟨hl, rfl, rfl⟩, ih, ok_bind]
      rfl

theorem function_checked {scope : Scope} {f : Func Unit} {f' : Func Note} :
    function scope f = .ok f' ↔ FuncChecked scope f f' := by
  constructor
  · intro h
    simp only [function, bind_eq_ok, pure_eq_ok, Prod.exists, params_checked] at h
    obtain ⟨xs, p, hp, body, q, hb, rfl⟩ := h
    exact .mk hp (stmts_checked f.body hb)
  · rintro ⟨hp, hb⟩
    simp only [function, params_checked.mpr hp, hb.eq_ok, ok_bind]
    rfl

end MiniSharp.Typing
