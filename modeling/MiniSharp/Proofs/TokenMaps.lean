import MiniSharp.Program.Shape
import MiniSharp.Proofs.Twins

namespace MiniSharp

variable {ν : Type} (f : Token → Token)

mutual

def Expr.mapTokens : Expr ν → Expr ν
  | .literal note token value => .literal note (f token) value
  | .ident note token name => .ident note (f token) name
  | .call note token name args => .call note (f token) name (Expr.mapTokensAll args)
  | .unary note token op operand => .unary note (f token) op operand.mapTokens
  | .binary note token op left right =>
    .binary note (f token) op left.mapTokens right.mapTokens
  | .foreign token kind => .foreign (f token) kind

def Expr.mapTokensAll : List (Expr ν) → List (Expr ν)
  | [] => []
  | e :: rest => e.mapTokens :: Expr.mapTokensAll rest

end

mutual

def Stmt.mapTokens : Stmt ν → Stmt ν
  | .declare note token name type value =>
    .declare note (f token) name type (value.map (Expr.mapTokens f))
  | .assign note token name value => .assign note (f token) name (value.mapTokens f)
  | .input note token name => .input note (f token) name
  | .print token value => .print (f token) (value.mapTokens f)
  | .evaluate token value => .evaluate (f token) (value.mapTokens f)
  | .ret token value => .ret (f token) (value.mapTokens f)
  | .ifThen token cond brace body =>
    .ifThen (f token) (cond.mapTokens f) (f brace) (Stmt.mapTokensAll body)
  | .ifElse token cond brace body elseBrace elseBody =>
    .ifElse (f token) (cond.mapTokens f) (f brace) (Stmt.mapTokensAll body) (f elseBrace)
      (Stmt.mapTokensAll elseBody)
  | .whileDo token cond brace body =>
    .whileDo (f token) (cond.mapTokens f) (f brace) (Stmt.mapTokensAll body)
  | .forDo token init cond step brace body =>
    .forDo (f token) (Stmt.mapTokens? init) (cond.map (Expr.mapTokens f)) (Stmt.mapTokens? step)
      (f brace) (Stmt.mapTokensAll body)
  | .block brace body => .block (f brace) (Stmt.mapTokensAll body)
  | .foreign token kind => .foreign (f token) kind

def Stmt.mapTokens? : Option (Stmt ν) → Option (Stmt ν)
  | none => none
  | some s => some s.mapTokens

def Stmt.mapTokensAll : List (Stmt ν) → List (Stmt ν)
  | [] => []
  | s :: rest => s.mapTokens :: Stmt.mapTokensAll rest

end

def Param.mapTokens (x : Param ν) : Param ν := { x with token := f x.token }

def Func.mapTokens (x : Func ν) : Func ν :=
  { x with
    token := f x.token
    params := x.params.map (Param.mapTokens f)
    brace := f x.brace
    body := Stmt.mapTokensAll f x.body }

def Program.mapTokens (x : Program ν) : Program ν :=
  ⟨f x.token, x.functions.map (Func.mapTokens f)⟩

def TokenPairing.image (h : ∀ t, content.pairs t (f t)) : TokenPairing where
  pairs t t' := f t = t'
  kind ht := ht ▸ (h _).1
  text ht := ht ▸ (h _).2.1
  problem ht := ht ▸ (h _).2.2

variable {f} {h : ∀ t, TokenPairing.content.pairs t (f t)}

mutual

theorem Expr.Twin.mapTokens {e e' : Expr ν} : Expr.Twin (.image f h) Eq e e' → e.mapTokens f = e'
  | .literal rfl rfl => rfl
  | .ident rfl rfl => rfl
  | .call rfl rfl ha => by rw [Expr.mapTokens, ha.mapTokens]
  | .unary rfl rfl ho => by rw [Expr.mapTokens, ho.mapTokens]
  | .binary rfl rfl hl hr => by rw [Expr.mapTokens, hl.mapTokens, hr.mapTokens]
  | .foreign rfl => rfl

theorem Expr.Twins.mapTokens {es es' : List (Expr ν)} :
    Expr.Twins (.image f h) Eq es es' → Expr.mapTokensAll f es = es'
  | .nil => rfl
  | .cons he hr => by rw [Expr.mapTokensAll, he.mapTokens, hr.mapTokens]

end

theorem Expr.Twin.mapTokens_option {o o' : Option (Expr ν)}
    (ho : Option.Rel (Expr.Twin (.image f h) Eq) o o') : o.map (Expr.mapTokens f) = o' := by
  cases ho with
  | none => rfl
  | some he => rw [Option.map_some, he.mapTokens]

mutual

theorem Stmt.Twin.mapTokens {s s' : Stmt ν} : Stmt.Twin (.image f h) Eq s s' → s.mapTokens f = s'
  | .declare rfl rfl hv => by rw [Stmt.mapTokens, Expr.Twin.mapTokens_option hv]
  | .assign rfl rfl hv => by rw [Stmt.mapTokens, hv.mapTokens]
  | .input rfl rfl => by rw [Stmt.mapTokens]
  | .print rfl hv => by rw [Stmt.mapTokens, hv.mapTokens]
  | .evaluate rfl hv => by rw [Stmt.mapTokens, hv.mapTokens]
  | .ret rfl hv => by rw [Stmt.mapTokens, hv.mapTokens]
  | .ifThen rfl hc rfl hb => by rw [Stmt.mapTokens, hc.mapTokens, hb.mapTokens]
  | .ifElse rfl hc rfl hb rfl he => by
    rw [Stmt.mapTokens, hc.mapTokens, hb.mapTokens, he.mapTokens]
  | .whileDo rfl hc rfl hb => by rw [Stmt.mapTokens, hc.mapTokens, hb.mapTokens]
  | .forDo rfl hi hc hs rfl hb => by
    rw [Stmt.mapTokens, hi.mapTokens, Expr.Twin.mapTokens_option hc, hs.mapTokens, hb.mapTokens]
  | .block rfl hb => by rw [Stmt.mapTokens, hb.mapTokens]
  | .foreign rfl => by rw [Stmt.mapTokens]

theorem Stmt.TwinClause.mapTokens {o o' : Option (Stmt ν)} :
    Stmt.TwinClause (.image f h) Eq o o' → Stmt.mapTokens? f o = o'
  | .none => rfl
  | .some hs => by rw [Stmt.mapTokens?, hs.mapTokens]

theorem Stmt.Twins.mapTokens {ss ss' : List (Stmt ν)} :
    Stmt.Twins (.image f h) Eq ss ss' → Stmt.mapTokensAll f ss = ss'
  | .nil => rfl
  | .cons hs hr => by rw [Stmt.mapTokensAll, hs.mapTokens, hr.mapTokens]

end

theorem Param.Twin.mapTokens {x x' : Param ν} (hx : Param.Twin (.image f h) Eq x x') :
    x.mapTokens f = x' := by
  obtain ⟨note, token, name, type⟩ := x
  obtain ⟨note', token', name', type'⟩ := x'
  obtain ⟨rfl, rfl, rfl, rfl⟩ := hx
  rfl

theorem Func.Twin.mapTokens {g g' : Func ν} (hg : Func.Twin (.image f h) Eq g g') :
    g.mapTokens f = g' := by
  obtain ⟨note, token, name, params, result, brace, body⟩ := g
  obtain ⟨note', token', name', params', result', brace', body'⟩ := g'
  obtain ⟨rfl, rfl, rfl, hp, rfl, rfl, hb⟩ := hg
  have hparams : params.map (Param.mapTokens f) = params' := by
    rw [← List.map_id params']
    exact map_eq_map_of_forall₂ (hp.imp fun _ _ hx => hx.mapTokens)
  rw [Func.mapTokens, hparams, hb.mapTokens]

end MiniSharp
