import MiniSharp.Analysis.Typing
import MiniSharp.Proofs.Twins

namespace MiniSharp

variable {R : TokenPairing}

namespace Scope

variable {α β γ δ : Type} {r : γ → δ → Prop}

theorem rel_or {a c : Option γ} {b d : Option δ} (h : Option.Rel r a b) (h' : Option.Rel r c d) :
    Option.Rel r (a.or c) (b.or d) := by
  cases h with
  | none => exact h'
  | some hab => exact .some hab

theorem rel_findSome? {f : α → Option γ} {g : β → Option δ} {xs : List α} {ys : List β}
    (h : List.Forall₂ (fun x y => Option.Rel r (f x) (g y)) xs ys) :
    Option.Rel r (xs.findSome? f) (ys.findSome? g) := by
  induction h with
  | nil => exact .none
  | @cons x y xs ys hxy _ ih =>
    rw [List.findSome?_cons, List.findSome?_cons]
    generalize f x = a at hxy
    generalize g y = b at hxy
    cases hxy with
    | none => exact ih
    | some hab => exact .some hab

theorem find?_append (name : Text) (xs : List Symbol) (x : Symbol) :
    find? name (xs ++ [x]) = (find? name xs).or (if x.name == name then some x else none) := by
  rw [find?, List.find?_append, List.find?_singleton]
  rfl

theorem SameFrame.append {xs ys : List Symbol} {x y : Symbol} (h : SameFrame R xs ys)
    (hx : Symbol.Twin R x y) : SameFrame R (xs ++ [x]) (ys ++ [y]) := by
  intro name
  rw [find?_append, find?_append, hx.name]
  apply rel_or (h name)
  by_cases hn : y.name == name
  · rw [if_pos hn, if_pos hn]
    exact .some hx
  · rw [if_neg hn, if_neg hn]
    exact .none

namespace Twin

variable {s s' : Scope}

theorem resolve? (h : Scope.Twin R s s') (name : Text) :
    Option.Rel (Symbol.Twin R) (s.resolve? name) (s'.resolve? name) :=
  rel_findSome? (.cons (h.symbols name) (h.outer.imp fun _ _ hf => hf name))

theorem declares (h : Scope.Twin R s s') (name : Text) : s.declares name = s'.declares name := by
  have hl : Option.Rel (Symbol.Twin R) (s.lookup? name) (s'.lookup? name) := h.symbols name
  unfold Scope.declares
  generalize s.lookup? name = a at hl
  generalize s'.lookup? name = b at hl
  cases hl <;> rfl

theorem push (h : Scope.Twin R s s') : Scope.Twin R s.push s'.push :=
  ⟨fun _ => .none, .cons h.symbols h.outer⟩

theorem append (h : Scope.Twin R s s') {x y : Symbol} (hx : Symbol.Twin R x y) :
    Scope.Twin R { s with symbols := s.symbols ++ [x] } { s' with symbols := s'.symbols ++ [y] } :=
  ⟨h.symbols.append hx, h.outer⟩

end Twin

end Scope

namespace Note.Twin

theorem ofType (type : Ty) : Note.Twin R (.ofType type) (.ofType type) := ⟨rfl, .none, .none, rfl⟩

theorem ofDeclaration {x x' : Symbol} (h : Symbol.Twin R x x') :
    Note.Twin R (.ofDeclaration x) (.ofDeclaration x') := ⟨rfl, .some h, .none, rfl⟩

theorem use {x x' : Symbol} (h : Symbol.Twin R x x') (type input : Option Ty) :
    Note.Twin R ⟨type, .none, some x, input⟩ ⟨type, .none, some x', input⟩ :=
  ⟨rfl, .none, .some h, rfl⟩

end Note.Twin

namespace Typing

abbrev Agrees {α : Type} (R : TokenPairing) (Q : α → α → Prop) :
    Except Stop α → Except Stop α → Prop :=
  Parallel (Stop.Twin R) Q

def TypedTwin (R : TokenPairing) (r r' : Ty × Expr Note) : Prop :=
  r.1 = r'.1 ∧ Expr.Twin R (Note.Twin R) r.2 r'.2

theorem violation_twin {α : Type} {Q : α → α → Prop} {t t' : Token} (ht : R.pairs t t')
    (v : Violation) : Agrees R Q (violation t v) (violation t' v) := .error (.semantic ht)

theorem require_twin (ok : Bool) {t t' : Token} (ht : R.pairs t t') (v : Violation) :
    Agrees R Eq (require ok t v) (require ok t' v) := by
  cases ok with
  | true => exact .ok rfl
  | false => exact violation_twin ht v

theorem unaryType_twin {t t' : Token} (ht : R.pairs t t') (op : TokenKind) (operand : Ty) :
    Agrees R Eq (unaryType t op operand) (unaryType t' op operand) := by
  unfold unaryType
  split
  · exact .ite (.ok rfl) (violation_twin ht _)
  · exact .ite (.ok rfl) (violation_twin ht _)
  · exact .error .fault

theorem binaryType_twin {t t' : Token} (ht : R.pairs t t') (op : TokenKind) (left right : Ty) :
    Agrees R Eq (binaryType t op left right) (binaryType t' op left right) := by
  have refused := violation_twin ht (.operands op left right) (Q := @Eq Ty)
  unfold binaryType
  split
  case h_1 => exact .ite (.ok rfl) (.ite (.ok rfl) refused)
  case h_14 => exact .error .fault
  all_goals exact .ite (.ok rfl) refused

theorem resolveVariable_twin {s s' : Scope} (h : Scope.Twin R s s') {t t' : Token}
    (ht : R.pairs t t') (name : Text) :
    Agrees R (fun r r' => Symbol.Twin R r.1 r'.1 ∧ r.2 = r'.2) (resolveVariable s t name)
      (resolveVariable s' t' name) := by
  have hx := h.resolve? name
  unfold resolveVariable
  generalize s.resolve? name = a at hx
  generalize s'.resolve? name = b at hx
  cases hx with
  | none => exact violation_twin ht _
  | @some x x' hx =>
    dsimp only
    rw [hx.sort]
    cases x'.sort with
    | var type => exact .ok ⟨hx, rfl⟩
    | func params result => exact violation_twin ht _

structure Callee.Twin (R : TokenPairing) (f f' : Callee) : Prop where
  symbol : Symbol.Twin R f.symbol f'.symbol
  params : f.params = f'.params
  result : f.result = f'.result

theorem resolveFunction_twin {s s' : Scope} (h : Scope.Twin R s s') {t t' : Token}
    (ht : R.pairs t t') (name : Text) :
    Agrees R (Callee.Twin R) (resolveFunction s t name) (resolveFunction s' t' name) := by
  have hx := h.resolve? name
  unfold resolveFunction
  generalize s.resolve? name = a at hx
  generalize s'.resolve? name = b at hx
  cases hx with
  | none => exact violation_twin ht _
  | @some x x' hx =>
    dsimp only
    rw [hx.sort]
    cases x'.sort with
    | var type => exact violation_twin ht _
    | func params result => exact .ok ⟨hx, rfl, rfl⟩

mutual

theorem expr_twin {s s' : Scope} (h : Scope.Twin R s s') {e e' : Expr Unit} :
    Expr.Twin R Eq e e' → Agrees R (TypedTwin R) (expr s e) (expr s' e')
  | .literal _ ht => by
    rw [expr, expr]
    exact .ok ⟨rfl, .literal (.ofType _) ht⟩
  | .ident _ ht => by
    rw [expr, expr]
    apply (resolveVariable_twin h ht _).bind
    rintro ⟨x, type⟩ ⟨x', type'⟩ ⟨hx, rfl⟩
    exact .ok ⟨rfl, .ident (.use hx _ _) ht⟩
  | .call _ ht ha => by
    rw [expr, expr, ha.length]
    apply (resolveFunction_twin h ht _).bind
    intro f f' hf
    rw [hf.params, hf.result]
    apply (require_twin _ ht _).bind
    intro _ _ _
    apply (arguments_twin h _ _ _ ha).bind
    intro args args' ha
    exact .ok ⟨rfl, .call (.use hf.symbol _ _) ht ha⟩
  | .unary _ ht ho => by
    rw [expr, expr]
    apply (expr_twin h ho).bind
    rintro ⟨found, operand⟩ ⟨found', operand'⟩ ⟨rfl, ho⟩
    apply (unaryType_twin ht _ _).bind
    rintro type _ rfl
    exact .ok ⟨rfl, .unary (.ofType _) ht ho⟩
  | .binary _ ht hl hr => by
    rw [expr, expr]
    apply (expr_twin h hl).bind
    rintro ⟨leftType, left⟩ ⟨leftType', left'⟩ ⟨rfl, hl⟩
    apply (expr_twin h hr).bind
    rintro ⟨rightType, right⟩ ⟨rightType', right'⟩ ⟨rfl, hr⟩
    apply (binaryType_twin ht _ _ _).bind
    rintro type _ rfl
    exact .ok ⟨rfl, .binary (.ofType _) ht hl hr⟩
  | .foreign _ => by
    rw [expr, expr]
    exact .error .fault

theorem arguments_twin {s s' : Scope} (h : Scope.Twin R s s') (function : Text) (index : Nat)
    (params : List Ty) {args args' : List (Expr Unit)} :
    Expr.Twins R Eq args args' →
      Agrees R (Expr.Twins R (Note.Twin R)) (arguments s function index params args)
        (arguments s' function index params args')
  | .nil => by
    simp only [arguments]
    exact .ok .nil
  | .cons he hr => by
    cases params with
    | nil =>
      simp only [arguments]
      exact .ok .nil
    | cons param params =>
      rw [arguments, arguments]
      apply (expr_twin h he).bind
      rintro ⟨found, checked⟩ ⟨found', checked'⟩ ⟨rfl, hc⟩
      apply (require_twin _ he.token _).bind
      intro _ _ _
      apply (arguments_twin h function (index + 1) params hr).bind
      intro rest rest' hr
      exact .ok (.cons hc hr)

end

theorem fitted_twin {s s' : Scope} (h : Scope.Twin R s s') (expected : Ty) (v : Ty → Violation)
    {e e' : Expr Unit} (he : Expr.Twin R Eq e e') :
    Agrees R (Expr.Twin R (Note.Twin R)) (fitted s expected v e) (fitted s' expected v e') := by
  unfold fitted
  apply (expr_twin h he).bind
  rintro ⟨found, checked⟩ ⟨found', checked'⟩ ⟨rfl, hc⟩
  apply (require_twin _ he.token _).bind
  intro _ _ _
  exact .ok hc

theorem condition_twin {s s' : Scope} (h : Scope.Twin R s s') (word : Keyword)
    {e e' : Expr Unit} (he : Expr.Twin R Eq e e') :
    Agrees R (Expr.Twin R (Note.Twin R)) (condition s word e) (condition s' word e') := by
  unfold condition
  apply (expr_twin h he).bind
  rintro ⟨found, checked⟩ ⟨found', checked'⟩ ⟨rfl, hc⟩
  apply (require_twin _ he.token _).bind
  intro _ _ _
  exact .ok hc

structure Place.Twin (R : TokenPairing) (p p' : Place) : Prop where
  function : p.function = p'.function
  result : p.result = p'.result
  scope : Scope.Twin R p.scope p'.scope
  serial : p.serial = p'.serial

namespace Place.Twin

variable {p p' q q' : Place}

theorem inner (h : Place.Twin R p p') : Place.Twin R p.inner p'.inner :=
  ⟨h.function, h.result, h.scope.push, h.serial⟩

theorem leave (h : Place.Twin R p p') (hq : Place.Twin R q q') :
    Place.Twin R (p.leave q) (p'.leave q') :=
  ⟨h.function, h.result, h.scope, hq.serial⟩

theorem declare (h : Place.Twin R p p') {t t' : Token} (ht : R.pairs t t') (name : Text)
    (type : Ty) :
    Agrees R (fun r r' => Symbol.Twin R r.1 r'.1 ∧ Place.Twin R r.2 r'.2) (p.declare t name type)
      (p'.declare t' name type) := by
  have hx : Symbol.Twin R ⟨.var p.function p.serial, name, .var type, t.pos⟩
      ⟨.var p'.function p'.serial, name, .var type, t'.pos⟩ := by
    refine ⟨?_, rfl, rfl, TokenPairing.places_of_pairs ht⟩
    rw [h.function, h.serial]
  unfold Place.declare Scope.define?
  dsimp only
  rw [h.scope.declares name]
  by_cases hd : p'.scope.declares name
  · rw [if_pos hd, if_pos hd]
    exact violation_twin ht _
  · rw [if_neg hd, if_neg hd]
    exact .ok ⟨hx, h.function, h.result, h.scope.append hx, congrArg (· + 1) h.serial⟩

end Place.Twin

def Leaves {α : Type} (R : TokenPairing) (Q : α → α → Prop) (r r' : α × Place) : Prop :=
  Q r.1 r'.1 ∧ Place.Twin R r.2 r'.2

mutual

theorem stmt_twin {p p' : Place} (h : Place.Twin R p p') {s s' : Stmt Unit} :
    Stmt.Twin R Eq s s' →
      Agrees R (Leaves R (Stmt.Twin R (Note.Twin R))) (stmt p s) (stmt p' s')
  | .declare _ ht .none => by
    rw [stmt, stmt]
    apply (h.declare ht _ _).bind
    rintro ⟨x, q⟩ ⟨x', q'⟩ ⟨hx, hq⟩
    exact .ok ⟨.declare (.ofDeclaration hx) ht .none, hq⟩
  | .declare _ ht (.some hv) => by
    rw [stmt, stmt]
    apply (fitted_twin h.scope _ _ hv).bind
    intro value value' hv
    apply (h.declare ht _ _).bind
    rintro ⟨x, q⟩ ⟨x', q'⟩ ⟨hx, hq⟩
    exact .ok ⟨.declare (.ofDeclaration hx) ht (.some hv), hq⟩
  | .assign _ ht hv => by
    rw [stmt, stmt]
    apply (resolveVariable_twin h.scope ht _).bind
    rintro ⟨x, type⟩ ⟨x', type'⟩ ⟨hx, rfl⟩
    apply (fitted_twin h.scope _ _ hv).bind
    intro value value' hv
    exact .ok ⟨.assign (.use hx _ _) ht hv, h⟩
  | .input _ ht => by
    rw [stmt, stmt]
    apply (resolveVariable_twin h.scope ht _).bind
    rintro ⟨x, type⟩ ⟨x', type'⟩ ⟨hx, rfl⟩
    exact .ok ⟨.input (.use hx _ _) ht, h⟩
  | .print ht hv => by
    rw [stmt, stmt]
    apply (expr_twin h.scope hv).bind
    rintro ⟨_, value⟩ ⟨_, value'⟩ ⟨_, hv⟩
    exact .ok ⟨.print ht hv, h⟩
  | .evaluate ht hv => by
    rw [stmt, stmt]
    apply (expr_twin h.scope hv).bind
    rintro ⟨_, value⟩ ⟨_, value'⟩ ⟨_, hv⟩
    exact .ok ⟨.evaluate ht hv, h⟩
  | .ret ht hv => by
    rw [stmt, stmt, h.function, h.result]
    apply (fitted_twin h.scope _ _ hv).bind
    intro value value' hv
    exact .ok ⟨.ret ht hv, h⟩
  | .ifThen ht hc hbr hb => by
    rw [stmt, stmt]
    apply (condition_twin h.scope _ hc).bind
    intro cond cond' hc
    apply (stmts_twin h.inner hb).bind
    rintro ⟨body, inside⟩ ⟨body', inside'⟩ ⟨hb, hi⟩
    exact .ok ⟨.ifThen ht hc hbr hb, h.leave hi⟩
  | .ifElse ht hc hbr hb hebr he => by
    rw [stmt, stmt]
    apply (condition_twin h.scope _ hc).bind
    intro cond cond' hc
    apply (stmts_twin h.inner hb).bind
    rintro ⟨body, inside⟩ ⟨body', inside'⟩ ⟨hb, hi⟩
    apply (stmts_twin (h.leave hi).inner he).bind
    rintro ⟨elseBody, inside⟩ ⟨elseBody', inside'⟩ ⟨he, hi⟩
    exact .ok ⟨.ifElse ht hc hbr hb hebr he, h.leave hi⟩
  | .whileDo ht hc hbr hb => by
    rw [stmt, stmt]
    apply (condition_twin h.scope _ hc).bind
    intro cond cond' hc
    apply (stmts_twin h.inner hb).bind
    rintro ⟨body, inside⟩ ⟨body', inside'⟩ ⟨hb, hi⟩
    exact .ok ⟨.whileDo ht hc hbr hb, h.leave hi⟩
  | .forDo ht hi hc hs hbr hb => by
    rw [stmt, stmt]
    apply (clause_twin h.inner hi).bind
    rintro ⟨init, inside⟩ ⟨init', inside'⟩ ⟨hi, hin⟩
    apply (Parallel.mapM_option hc fun _ _ hc => condition_twin hin.scope _ hc).bind
    intro cond cond' hc
    apply (stmts_twin hin hb).bind
    rintro ⟨body, inside⟩ ⟨body', inside'⟩ ⟨hb, hin⟩
    apply (clause_twin hin hs).bind
    rintro ⟨step, inside⟩ ⟨step', inside'⟩ ⟨hs, hin⟩
    exact .ok ⟨.forDo ht hi hc hs hbr hb, h.leave hin⟩
  | .block hbr hb => by
    rw [stmt, stmt]
    apply (stmts_twin h.inner hb).bind
    rintro ⟨body, inside⟩ ⟨body', inside'⟩ ⟨hb, hi⟩
    exact .ok ⟨.block hbr hb, h.leave hi⟩
  | .foreign _ => by
    rw [stmt, stmt]
    exact .error .fault

theorem clause_twin {p p' : Place} (h : Place.Twin R p p') {o o' : Option (Stmt Unit)} :
    Stmt.TwinClause R Eq o o' →
      Agrees R (Leaves R (Stmt.TwinClause R (Note.Twin R))) (stmt? p o) (stmt? p' o')
  | .none => by
    rw [stmt?, stmt?]
    exact .ok ⟨.none, h⟩
  | .some hs => by
    rw [stmt?, stmt?]
    apply (stmt_twin h hs).bind
    rintro ⟨s, q⟩ ⟨s', q'⟩ ⟨hs, hq⟩
    exact .ok ⟨.some hs, hq⟩

theorem stmts_twin {p p' : Place} (h : Place.Twin R p p') {ss ss' : List (Stmt Unit)} :
    Stmt.Twins R Eq ss ss' →
      Agrees R (Leaves R (Stmt.Twins R (Note.Twin R))) (stmts p ss) (stmts p' ss')
  | .nil => by
    rw [stmts, stmts]
    exact .ok ⟨.nil, h⟩
  | .cons hs hr => by
    rw [stmts, stmts]
    apply (stmt_twin h hs).bind
    rintro ⟨s, q⟩ ⟨s', q'⟩ ⟨hs, hq⟩
    apply (stmts_twin hq hr).bind
    rintro ⟨rest, q⟩ ⟨rest', q'⟩ ⟨hr, hq⟩
    exact .ok ⟨.cons hs hr, hq⟩

end

theorem params_twin {p p' : Place} (h : Place.Twin R p p') {xs xs' : List (Param Unit)}
    (hx : List.Forall₂ (Param.Twin R Eq) xs xs') :
    Agrees R (Leaves R (List.Forall₂ (Param.Twin R (Note.Twin R)))) (params p xs)
      (params p' xs') := by
  induction hx generalizing p p' with
  | nil => exact .ok ⟨.nil, h⟩
  | cons hx _ ih =>
    rw [params, params, hx.name, hx.type]
    apply (h.declare hx.token _ _).bind
    rintro ⟨x, q⟩ ⟨x', q'⟩ ⟨hs, hq⟩
    apply (ih hq).bind
    rintro ⟨rest, q⟩ ⟨rest', q'⟩ ⟨hr, hq⟩
    exact .ok ⟨.cons ⟨.ofDeclaration hs, hx.token, rfl, rfl⟩ hr, hq⟩

theorem signature_twin {f f' : Func Unit} (h : Func.Twin R Eq f f') :
    Symbol.Twin R (signature f) (signature f') := by
  refine ⟨congrArg SymbolId.func h.name, h.name, ?_, TokenPairing.places_of_pairs h.token⟩
  have hp : f.params.map Param.type = f'.params.map Param.type :=
    map_eq_map_of_forall₂ (h.params.imp fun _ _ hx => hx.type)
  simp only [signature, hp, h.result]

theorem function_twin {s s' : Scope} (h : Scope.Twin R s s') {f f' : Func Unit}
    (hf : Func.Twin R Eq f f') :
    Agrees R (Func.Twin R (Note.Twin R)) (function s f) (function s' f') := by
  unfold function
  have hp : Place.Twin R ⟨f.name, f.result, s.push, 0⟩ ⟨f'.name, f'.result, s'.push, 0⟩ :=
    ⟨hf.name, hf.result, h.push, rfl⟩
  apply (params_twin hp hf.params).bind
  rintro ⟨params, q⟩ ⟨params', q'⟩ ⟨hps, hq⟩
  apply (stmts_twin hq hf.body).bind
  rintro ⟨body, _⟩ ⟨body', _⟩ ⟨hb, _⟩
  exact .ok ⟨.ofDeclaration (signature_twin hf), hf.token, hf.name, hps, hf.result, hf.brace, hb⟩

theorem addFunction_twin {s s' : Scope} (h : Scope.Twin R s s') {f f' : Func Unit}
    (hf : Func.Twin R Eq f f') :
    Agrees R (Scope.Twin R) (addFunction s f) (addFunction s' f') := by
  -- The lists of parameters differ, but one is empty only if the other is.
  have hempty : f.params ≠ [] ↔ f'.params ≠ [] := by
    rw [not_iff_not, ← List.length_eq_zero_iff, ← List.length_eq_zero_iff, hf.params.length_eq]
  unfold addFunction
  rw [hf.name, hf.result, h.declares]
  apply Parallel.ite (violation_twin hf.token _)
  exact .ite_of_iff (and_congr_right' (or_congr_left hempty)) (violation_twin hf.token _)
    (.ok (h.append (signature_twin hf)))

theorem foldlM_addFunction_twin {s s' : Scope} (h : Scope.Twin R s s') {fs fs' : List (Func Unit)}
    (hf : List.Forall₂ (Func.Twin R Eq) fs fs') :
    Agrees R (Scope.Twin R) (fs.foldlM addFunction s) (fs'.foldlM addFunction s') := by
  induction hf generalizing s s' with
  | nil => exact .ok h
  | cons hf _ ih =>
    rw [List.foldlM_cons, List.foldlM_cons]
    exact (addFunction_twin h hf).bind fun _ _ hs => ih hs

end Typing

theorem Program.Twin.analyze {x x' : Program Unit} (h : Program.Twin R Eq x x') :
    Typing.Agrees R (fun a a' => Program.Twin R (Note.Twin R) a.program a'.program) x.analyze
      x'.analyze := by
  unfold Program.analyze
  have hg : Scope.Twin R .global .global := ⟨fun _ => .none, .nil⟩
  apply (Typing.foldlM_addFunction_twin hg h.functions).bind
  intro global global' hg
  apply (Parallel.mapM (h.functions.imp fun _ _ hf => Typing.function_twin hg hf)).bind
  intro fs fs' hfs
  exact .ok ⟨h.token, hfs⟩

end MiniSharp
