import MiniSharp.Analysis.Note
import MiniSharp.Proofs.Outcome

/-!
Two programs side by side that differ only in where their tokens stand. A pairing says which token
of the one goes with which token of the other; trees, symbols, notes and scopes are compared through
it, and two computations run in parallel if they end alike.
-/

namespace MiniSharp

inductive Parallel {ε ε' α β : Type} (E : ε → ε' → Prop) (Q : α → β → Prop) :
    Except ε α → Except ε' β → Prop
  | ok {a b} : Q a b → Parallel E Q (.ok a) (.ok b)
  | error {e e'} : E e e' → Parallel E Q (.error e) (.error e')

namespace Parallel

variable {ε ε' α β γ δ : Type} {E : ε → ε' → Prop} {Q : α → β → Prop} {S : γ → δ → Prop}

theorem bind {x : Except ε α} {y : Except ε' β} {f : α → Except ε γ} {g : β → Except ε' δ}
    (h : Parallel E Q x y) (hf : ∀ a b, Q a b → Parallel E S (f a) (g b)) :
    Parallel E S (x >>= f) (y >>= g) := by
  cases h with
  | ok hq => exact hf _ _ hq
  | error he => exact .error he

theorem map {x : Except ε α} {y : Except ε' β} {f : α → γ} {g : β → δ} (h : Parallel E Q x y)
    (hf : ∀ a b, Q a b → S (f a) (g b)) : Parallel E S (f <$> x) (g <$> y) := by
  cases h with
  | ok hq => exact .ok (hf _ _ hq)
  | error he => exact .error he

theorem mapM {f : α → Except ε γ} {g : β → Except ε' δ} {xs : List α} {ys : List β}
    (h : List.Forall₂ (fun a b => Parallel E S (f a) (g b)) xs ys) :
    Parallel E (List.Forall₂ S) (xs.mapM f) (ys.mapM g) := by
  induction h with
  | nil => exact .ok .nil
  | cons hab _ ih =>
    rw [List.mapM_cons, List.mapM_cons]
    apply hab.bind
    intro c d hcd
    apply ih.bind
    intro cs ds hcds
    exact .ok (.cons hcd hcds)

theorem mapM_option {f : α → Except ε γ} {g : β → Except ε' δ} {a : Option α} {b : Option β}
    (h : Option.Rel Q a b) (hf : ∀ a b, Q a b → Parallel E S (f a) (g b)) :
    Parallel E (Option.Rel S) (a.mapM f) (b.mapM g) := by
  cases h with
  | none => exact .ok .none
  | some hab =>
    rw [Option.mapM_some, Option.mapM_some]
    exact (hf _ _ hab).map fun _ _ => .some

theorem ite_of_iff {c d : Prop} [Decidable c] [Decidable d] (hcd : c ↔ d) {x x' : Except ε α}
    {y y' : Except ε' β} (h : Parallel E Q x y) (h' : Parallel E Q x' y') :
    Parallel E Q (if c then x else x') (if d then y else y') := by
  by_cases hd : d
  · rw [if_pos (hcd.mpr hd), if_pos hd]
    exact h
  · rw [if_neg (mt hcd.mp hd), if_neg hd]
    exact h'

theorem ite {c : Prop} [Decidable c] {x x' : Except ε α} {y y' : Except ε' β}
    (h : Parallel E Q x y) (h' : Parallel E Q x' y') :
    Parallel E Q (if c then x else x') (if c then y else y') := ite_of_iff Iff.rfl h h'

theorem of_eq {x y : Except ε α} (h : x = y) : Parallel Eq Eq x y := by
  subst h
  cases x with
  | ok => exact .ok rfl
  | error => exact .error rfl

theorem eq {x y : Except ε α} (h : Parallel Eq Eq x y) : x = y := by
  cases h with
  | ok hq => rw [hq]
  | error he => rw [he]

theorem ends {x : Except ε α} {y : Except ε' β} (h : Parallel E Q x y) :
    (∃ a b, x = .ok a ∧ y = .ok b ∧ Q a b) ∨ ∃ e e', x = .error e ∧ y = .error e' ∧ E e e' := by
  cases h with
  | ok hq => exact .inl ⟨_, _, rfl, rfl, hq⟩
  | error he => exact .inr ⟨_, _, rfl, rfl, he⟩

end Parallel

structure TokenPairing where
  pairs : Token → Token → Prop
  kind {t t' : Token} : pairs t t' → t.kind = t'.kind
  text {t t' : Token} : pairs t t' → t.text = t'.text
  problem {t t' : Token} : pairs t t' → t.problem = t'.problem

namespace TokenPairing

def same : TokenPairing := ⟨Eq, congrArg _, congrArg _, congrArg _⟩

def content : TokenPairing :=
  ⟨fun t t' => t.kind = t'.kind ∧ t.text = t'.text ∧ t.problem = t'.problem, And.left,
    fun h => h.2.1, fun h => h.2.2⟩

def places (R : TokenPairing) (p p' : Position) : Prop :=
  ∃ t t', R.pairs t t' ∧ t.pos = p ∧ t'.pos = p'

theorem places_of_pairs {R : TokenPairing} {t t' : Token} (h : R.pairs t t') :
    R.places t.pos t'.pos := ⟨t, t', h, rfl, rfl⟩

theorem same_places {p p' : Position} (h : same.places p p') : p = p' := by
  obtain ⟨t, t', rfl, rfl, rfl⟩ := h
  rfl

theorem content_refl (t : Token) : content.pairs t t := ⟨rfl, rfl, rfl⟩

theorem content_places (p p' : Position) : content.places p p' :=
  ⟨.eof p, .eof p', ⟨rfl, rfl, rfl⟩, rfl, rfl⟩

end TokenPairing

variable {ν : Type}

mutual

inductive Expr.Twin (R : TokenPairing) (N : ν → ν → Prop) : Expr ν → Expr ν → Prop
  | literal {n n' t t' value} : N n n' → R.pairs t t' →
    Expr.Twin R N (.literal n t value) (.literal n' t' value)
  | ident {n n' t t' name} : N n n' → R.pairs t t' →
    Expr.Twin R N (.ident n t name) (.ident n' t' name)
  | call {n n' t t' name args args'} : N n n' → R.pairs t t' → Expr.Twins R N args args' →
    Expr.Twin R N (.call n t name args) (.call n' t' name args')
  | unary {n n' t t' op operand operand'} : N n n' → R.pairs t t' →
    Expr.Twin R N operand operand' →
    Expr.Twin R N (.unary n t op operand) (.unary n' t' op operand')
  | binary {n n' t t' op left left' right right'} : N n n' → R.pairs t t' →
    Expr.Twin R N left left' → Expr.Twin R N right right' →
    Expr.Twin R N (.binary n t op left right) (.binary n' t' op left' right')
  | foreign {t t' kind} : R.pairs t t' → Expr.Twin R N (.foreign t kind) (.foreign t' kind)

inductive Expr.Twins (R : TokenPairing) (N : ν → ν → Prop) : List (Expr ν) → List (Expr ν) → Prop
  | nil : Expr.Twins R N [] []
  | cons {e e' rest rest'} : Expr.Twin R N e e' → Expr.Twins R N rest rest' →
    Expr.Twins R N (e :: rest) (e' :: rest')

end

mutual

inductive Stmt.Twin (R : TokenPairing) (N : ν → ν → Prop) : Stmt ν → Stmt ν → Prop
  | declare {n n' t t' name type value value'} : N n n' → R.pairs t t' →
    Option.Rel (Expr.Twin R N) value value' →
    Stmt.Twin R N (.declare n t name type value) (.declare n' t' name type value')
  | assign {n n' t t' name value value'} : N n n' → R.pairs t t' → Expr.Twin R N value value' →
    Stmt.Twin R N (.assign n t name value) (.assign n' t' name value')
  | input {n n' t t' name} : N n n' → R.pairs t t' →
    Stmt.Twin R N (.input n t name) (.input n' t' name)
  | print {t t' value value'} : R.pairs t t' → Expr.Twin R N value value' →
    Stmt.Twin R N (.print t value) (.print t' value')
  | evaluate {t t' value value'} : R.pairs t t' → Expr.Twin R N value value' →
    Stmt.Twin R N (.evaluate t value) (.evaluate t' value')
  | ret {t t' value value'} : R.pairs t t' → Expr.Twin R N value value' →
    Stmt.Twin R N (.ret t value) (.ret t' value')
  | ifThen {t t' cond cond' brace brace' body body'} : R.pairs t t' → Expr.Twin R N cond cond' →
    R.pairs brace brace' → Stmt.Twins R N body body' →
    Stmt.Twin R N (.ifThen t cond brace body) (.ifThen t' cond' brace' body')
  | ifElse {t t' cond cond' brace brace' body body' other other' elseBody elseBody'} :
    R.pairs t t' → Expr.Twin R N cond cond' → R.pairs brace brace' → Stmt.Twins R N body body' →
    R.pairs other other' → Stmt.Twins R N elseBody elseBody' →
    Stmt.Twin R N (.ifElse t cond brace body other elseBody)
      (.ifElse t' cond' brace' body' other' elseBody')
  | whileDo {t t' cond cond' brace brace' body body'} : R.pairs t t' → Expr.Twin R N cond cond' →
    R.pairs brace brace' → Stmt.Twins R N body body' →
    Stmt.Twin R N (.whileDo t cond brace body) (.whileDo t' cond' brace' body')
  | forDo {t t' init init' cond cond' step step' brace brace' body body'} : R.pairs t t' →
    Stmt.TwinClause R N init init' → Option.Rel (Expr.Twin R N) cond cond' →
    Stmt.TwinClause R N step step' → R.pairs brace brace' → Stmt.Twins R N body body' →
    Stmt.Twin R N (.forDo t init cond step brace body) (.forDo t' init' cond' step' brace' body')
  | block {brace brace' body body'} : R.pairs brace brace' → Stmt.Twins R N body body' →
    Stmt.Twin R N (.block brace body) (.block brace' body')
  | foreign {t t' kind} : R.pairs t t' → Stmt.Twin R N (.foreign t kind) (.foreign t' kind)

inductive Stmt.TwinClause (R : TokenPairing) (N : ν → ν → Prop) :
    Option (Stmt ν) → Option (Stmt ν) → Prop
  | none : Stmt.TwinClause R N none none
  | some {s s'} : Stmt.Twin R N s s' → Stmt.TwinClause R N (some s) (some s')

inductive Stmt.Twins (R : TokenPairing) (N : ν → ν → Prop) : List (Stmt ν) → List (Stmt ν) → Prop
  | nil : Stmt.Twins R N [] []
  | cons {s s' rest rest'} : Stmt.Twin R N s s' → Stmt.Twins R N rest rest' →
    Stmt.Twins R N (s :: rest) (s' :: rest')

end

structure Param.Twin (R : TokenPairing) (N : ν → ν → Prop) (x x' : Param ν) : Prop where
  note : N x.note x'.note
  token : R.pairs x.token x'.token
  name : x.name = x'.name
  type : x.type = x'.type

structure Func.Twin (R : TokenPairing) (N : ν → ν → Prop) (f f' : Func ν) : Prop where
  note : N f.note f'.note
  token : R.pairs f.token f'.token
  name : f.name = f'.name
  params : List.Forall₂ (Param.Twin R N) f.params f'.params
  result : f.result = f'.result
  brace : R.pairs f.brace f'.brace
  body : Stmt.Twins R N f.body f'.body

structure Program.Twin (R : TokenPairing) (N : ν → ν → Prop) (x x' : Program ν) : Prop where
  token : R.pairs x.token x'.token
  functions : List.Forall₂ (Func.Twin R N) x.functions x'.functions

structure Symbol.Twin (R : TokenPairing) (x x' : Symbol) : Prop where
  id : x.id = x'.id
  name : x.name = x'.name
  sort : x.sort = x'.sort
  pos : R.places x.pos x'.pos

structure Note.Twin (R : TokenPairing) (n n' : Note) : Prop where
  type : n.type = n'.type
  defines : Option.Rel (Symbol.Twin R) n.defines n'.defines
  refers : Option.Rel (Symbol.Twin R) n.refers n'.refers
  input : n.input = n'.input

inductive Stop.Twin (R : TokenPairing) : Stop → Stop → Prop
  | parse {t t' cause} : R.pairs t t' → Stop.Twin R (.parse ⟨t, cause⟩) (.parse ⟨t', cause⟩)
  | semantic {t t' violation} : R.pairs t t' →
    Stop.Twin R (.semantic ⟨some t, violation⟩) (.semantic ⟨some t', violation⟩)
  | fault {f} : Stop.Twin R (.fault f) (.fault f)

def Scope.SameFrame (R : TokenPairing) (xs ys : List Symbol) : Prop :=
  ∀ name, Option.Rel (Symbol.Twin R) (find? name xs) (find? name ys)

structure Scope.Twin (R : TokenPairing) (s s' : Scope) : Prop where
  symbols : Scope.SameFrame R s.symbols s'.symbols
  outer : List.Forall₂ (Scope.SameFrame R) s.outer s'.outer

variable {R : TokenPairing} {N : ν → ν → Prop}

theorem Expr.Twin.token {e e' : Expr ν} (h : Expr.Twin R N e e') : R.pairs e.token e'.token := by
  cases h with
  | literal _ ht => exact ht
  | ident _ ht => exact ht
  | call _ ht _ => exact ht
  | unary _ ht _ => exact ht
  | binary _ ht _ _ => exact ht
  | foreign ht => exact ht

theorem Expr.Twins.length {es es' : List (Expr ν)} (h : Expr.Twins R N es es') :
    es.length = es'.length := by
  induction es generalizing es' with
  | nil =>
    cases h
    rfl
  | cons e es ih =>
    cases h with
    | cons _ hr => rw [List.length_cons, List.length_cons, ih hr]

mutual

theorem Expr.Twin.refl (hR : ∀ t, R.pairs t t) (hN : ∀ n, N n n) :
    (e : Expr ν) → Expr.Twin R N e e
  | .literal _ _ _ => .literal (hN _) (hR _)
  | .ident _ _ _ => .ident (hN _) (hR _)
  | .call _ _ _ args => .call (hN _) (hR _) (Expr.Twins.refl hR hN args)
  | .unary _ _ _ operand => .unary (hN _) (hR _) (Expr.Twin.refl hR hN operand)
  | .binary _ _ _ left right =>
    .binary (hN _) (hR _) (Expr.Twin.refl hR hN left) (Expr.Twin.refl hR hN right)
  | .foreign _ _ => .foreign (hR _)

theorem Expr.Twins.refl (hR : ∀ t, R.pairs t t) (hN : ∀ n, N n n) :
    (es : List (Expr ν)) → Expr.Twins R N es es
  | [] => .nil
  | e :: rest => .cons (Expr.Twin.refl hR hN e) (Expr.Twins.refl hR hN rest)

end

theorem Expr.Twin.refl_option (hR : ∀ t, R.pairs t t) (hN : ∀ n, N n n) (o : Option (Expr ν)) :
    Option.Rel (Expr.Twin R N) o o := by
  cases o with
  | none => exact .none
  | some e => exact .some (Expr.Twin.refl hR hN e)

mutual

theorem Stmt.Twin.refl (hR : ∀ t, R.pairs t t) (hN : ∀ n, N n n) :
    (s : Stmt ν) → Stmt.Twin R N s s
  | .declare _ _ _ _ value => .declare (hN _) (hR _) (Expr.Twin.refl_option hR hN value)
  | .assign _ _ _ value => .assign (hN _) (hR _) (Expr.Twin.refl hR hN value)
  | .input _ _ _ => .input (hN _) (hR _)
  | .print _ value => .print (hR _) (Expr.Twin.refl hR hN value)
  | .evaluate _ value => .evaluate (hR _) (Expr.Twin.refl hR hN value)
  | .ret _ value => .ret (hR _) (Expr.Twin.refl hR hN value)
  | .ifThen _ cond _ body =>
    .ifThen (hR _) (Expr.Twin.refl hR hN cond) (hR _) (Stmt.Twins.refl hR hN body)
  | .ifElse _ cond _ body _ elseBody =>
    .ifElse (hR _) (Expr.Twin.refl hR hN cond) (hR _) (Stmt.Twins.refl hR hN body) (hR _)
      (Stmt.Twins.refl hR hN elseBody)
  | .whileDo _ cond _ body =>
    .whileDo (hR _) (Expr.Twin.refl hR hN cond) (hR _) (Stmt.Twins.refl hR hN body)
  | .forDo _ init cond step _ body =>
    .forDo (hR _) (Stmt.TwinClause.refl hR hN init) (Expr.Twin.refl_option hR hN cond)
      (Stmt.TwinClause.refl hR hN step) (hR _) (Stmt.Twins.refl hR hN body)
  | .block _ body => .block (hR _) (Stmt.Twins.refl hR hN body)
  | .foreign _ _ => .foreign (hR _)

theorem Stmt.TwinClause.refl (hR : ∀ t, R.pairs t t) (hN : ∀ n, N n n) :
    (o : Option (Stmt ν)) → Stmt.TwinClause R N o o
  | none => .none
  | some s => .some (Stmt.Twin.refl hR hN s)

theorem Stmt.Twins.refl (hR : ∀ t, R.pairs t t) (hN : ∀ n, N n n) :
    (ss : List (Stmt ν)) → Stmt.Twins R N ss ss
  | [] => .nil
  | s :: rest => .cons (Stmt.Twin.refl hR hN s) (Stmt.Twins.refl hR hN rest)

end

theorem Func.Twin.refl (hR : ∀ t, R.pairs t t) (hN : ∀ n, N n n) (f : Func ν) :
    Func.Twin R N f f :=
  ⟨hN _, hR _, rfl, List.forall₂_same.mpr fun _ _ => ⟨hN _, hR _, rfl, rfl⟩, rfl, hR _,
    Stmt.Twins.refl hR hN f.body⟩

theorem Symbol.Twin.refl (hR : ∀ t, R.pairs t t) (x : Symbol) : Symbol.Twin R x x :=
  ⟨rfl, rfl, rfl, ⟨.eof x.pos, .eof x.pos, hR _, rfl, rfl⟩⟩

theorem Note.Twin.refl (hR : ∀ t, R.pairs t t) (n : Note) : Note.Twin R n n := by
  have hrefl (o : Option Symbol) : Option.Rel (Symbol.Twin R) o o := by
    cases o with
    | none => exact .none
    | some x => exact .some (.refl hR x)
  exact ⟨rfl, hrefl _, hrefl _, rfl⟩

-- With every token paired with itself only, twins are one and the same.

mutual

theorem Expr.Twin.eq (hN : ∀ n n', N n n' → n = n') {e e' : Expr ν} :
    Expr.Twin .same N e e' → e = e'
  | .literal hn rfl => by rw [hN _ _ hn]
  | .ident hn rfl => by rw [hN _ _ hn]
  | .call hn rfl ha => by rw [hN _ _ hn, ha.eq hN]
  | .unary hn rfl ho => by rw [hN _ _ hn, ho.eq hN]
  | .binary hn rfl hl hr => by rw [hN _ _ hn, hl.eq hN, hr.eq hN]
  | .foreign rfl => rfl

theorem Expr.Twins.eq (hN : ∀ n n', N n n' → n = n') {es es' : List (Expr ν)} :
    Expr.Twins .same N es es' → es = es'
  | .nil => rfl
  | .cons he hr => by rw [he.eq hN, hr.eq hN]

end

theorem Expr.Twin.eq_option (hN : ∀ n n', N n n' → n = n') {o o' : Option (Expr ν)}
    (h : Option.Rel (Expr.Twin .same N) o o') : o = o' := by
  cases h with
  | none => rfl
  | some he => rw [he.eq hN]

mutual

theorem Stmt.Twin.eq (hN : ∀ n n', N n n' → n = n') {s s' : Stmt ν} :
    Stmt.Twin .same N s s' → s = s'
  | .declare hn rfl hv => by rw [hN _ _ hn, Expr.Twin.eq_option hN hv]
  | .assign hn rfl hv => by rw [hN _ _ hn, hv.eq hN]
  | .input hn rfl => by rw [hN _ _ hn]
  | .print rfl hv => by rw [hv.eq hN]
  | .evaluate rfl hv => by rw [hv.eq hN]
  | .ret rfl hv => by rw [hv.eq hN]
  | .ifThen rfl hc rfl hb => by rw [hc.eq hN, hb.eq hN]
  | .ifElse rfl hc rfl hb rfl he => by rw [hc.eq hN, hb.eq hN, he.eq hN]
  | .whileDo rfl hc rfl hb => by rw [hc.eq hN, hb.eq hN]
  | .forDo rfl hi hc hs rfl hb => by
    rw [hi.eq hN, Expr.Twin.eq_option hN hc, hs.eq hN, hb.eq hN]
  | .block rfl hb => by rw [hb.eq hN]
  | .foreign rfl => rfl

theorem Stmt.TwinClause.eq (hN : ∀ n n', N n n' → n = n') {o o' : Option (Stmt ν)} :
    Stmt.TwinClause .same N o o' → o = o'
  | .none => rfl
  | .some hs => by rw [hs.eq hN]

theorem Stmt.Twins.eq (hN : ∀ n n', N n n' → n = n') {ss ss' : List (Stmt ν)} :
    Stmt.Twins .same N ss ss' → ss = ss'
  | .nil => rfl
  | .cons hs hr => by rw [hs.eq hN, hr.eq hN]

end

theorem Param.Twin.eq (hN : ∀ n n', N n n' → n = n') {x x' : Param ν}
    (h : Param.Twin .same N x x') : x = x' := by
  obtain ⟨note, token, name, type⟩ := x
  obtain ⟨note', token', name', type'⟩ := x'
  obtain ⟨hn, rfl, rfl, rfl⟩ := h
  cases hN _ _ hn
  rfl

theorem Func.Twin.eq (hN : ∀ n n', N n n' → n = n') {f f' : Func ν}
    (h : Func.Twin .same N f f') : f = f' := by
  obtain ⟨note, token, name, params, result, brace, body⟩ := f
  obtain ⟨note', token', name', params', result', brace', body'⟩ := f'
  obtain ⟨hn, rfl, rfl, hp, rfl, rfl, hb⟩ := h
  cases hN _ _ hn
  cases hb.eq hN
  have hparams : params = params' :=
    List.forall₂_eq_eq_eq ▸ hp.imp fun _ _ hx => hx.eq hN
  rw [hparams]

theorem Symbol.Twin.eq {x x' : Symbol} (h : Symbol.Twin .same x x') : x = x' := by
  obtain ⟨id, name, sort, pos⟩ := x
  obtain ⟨id', name', sort', pos'⟩ := x'
  obtain ⟨rfl, rfl, rfl, hp⟩ := h
  cases TokenPairing.same_places hp
  rfl

theorem Symbol.Twin.eq_option {x x' : Option Symbol}
    (h : Option.Rel (Symbol.Twin .same) x x') : x = x' := by
  cases h with
  | none => rfl
  | some hx => rw [hx.eq]

theorem Note.Twin.eq {n n' : Note} (h : Note.Twin .same n n') : n = n' := by
  obtain ⟨type, defines, refers, input⟩ := n
  obtain ⟨type', defines', refers', input'⟩ := n'
  obtain ⟨rfl, hd, hr, rfl⟩ := h
  cases Symbol.Twin.eq_option hd
  cases Symbol.Twin.eq_option hr
  rfl

end MiniSharp
