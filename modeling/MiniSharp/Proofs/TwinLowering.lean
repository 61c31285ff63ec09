import MiniSharp.Analysis.Lowering
import MiniSharp.Proofs.FreshNames
import MiniSharp.Proofs.Twins

namespace MiniSharp

namespace Target

theorem leastFree_le {base : Text} {used : List Text} {k : Nat}
    (h : numbered base (k + 1) ∉ used) : leastFree base used ≤ k + 1 := by
  unfold leastFree
  cases hf : (List.range (used.length + 1)).find? fun i => numbered base (i + 1) ∉ used with
  | none =>
    obtain ⟨i, hi, hfree⟩ := exists_free base used
    exact absurd (decide_eq_true hfree) (List.find?_eq_none.mp hf i (List.mem_range.mpr hi))
  | some i =>
    have hleast := (List.find?_range_eq_some.mp hf).2.2
    rw [Option.getD_some]
    by_contra hlt
    have := hleast k (by omega)
    simp only [decide_not, Bool.not_not, decide_eq_true_eq] at this
    exact h this

theorem leastFree_congr {base : Text} {used used' : List Text}
    (h : ∀ k, numbered base k ∈ used ↔ numbered base k ∈ used') :
    leastFree base used = leastFree base used' :=
  Nat.le_antisymm (leastFree_le (mt (h _).mp (freshName_not_mem base used')))
    (leastFree_le (mt (h _).mpr (freshName_not_mem base used)))

theorem freshName_congr {base : Text} {used used' : List Text}
    (h : ∀ k, numbered base k ∈ used ↔ numbered base k ∈ used') :
    freshName base used = freshName base used' := by
  rw [freshName, freshName, leastFree_congr h]

theorem localName_congr (name : Text) {used used' : List Text} (h : ∀ x, x ∈ used ↔ x ∈ used') :
    localName name used = localName name used' := by
  unfold localName
  rw [freshName_congr fun k => h _]
  exact if_congr (h _) rfl rfl

end Target

namespace Lowering

variable {R : TokenPairing}

/-- Two runs of lowering side by side: the tables that go together, and the ends that do. -/
structure Simulation (R : TokenPairing) where
  names : Names → Names → Prop
  ends : {α β : Type} → (α → β → Prop) → Except Fault α → Except Fault β → Prop
  ok : ∀ {α β : Type} {Q : α → β → Prop} {a : α} {b : β}, Q a b → ends Q (.ok a) (.ok b)
  error : ∀ {α β : Type} {Q : α → β → Prop} (e : Fault), ends Q (.error e) (.error e)
  bind : ∀ {α β γ δ : Type} {Q : α → β → Prop} {T : γ → δ → Prop} {x : Except Fault α}
    {y : Except Fault β} {f : α → Except Fault γ} {g : β → Except Fault δ},
    ends Q x y → (∀ a b, Q a b → ends T (f a) (g b)) → ends T (x >>= f) (y >>= g)
  give : ∀ {n n' : Names} {x x' : Symbol}, names n n' → Symbol.Twin R x x' →
    ∀ given, names (n.give x given) (n'.give x' given)
  used : ∀ {n n' : Names}, names n n' → ∀ name, name ∈ n.used ↔ name ∈ n'.used
  givenName : ∀ {n n' : Names} {note note' : Note}, names n n' → Note.Twin R note note' →
    ∀ name, ends Eq (givenName n note name) (givenName n' note' name)

namespace Simulation

variable (S : Simulation R) {α β : Type} {Q : α → β → Prop}

theorem of_parallel {x : Except Fault α} {y : Except Fault β} (h : Parallel Eq Q x y) :
    S.ends Q x y := by
  cases h with
  | ok h => exact S.ok h
  | error h =>
    cases h
    exact S.error _

theorem of_eq {x y : Except Fault α} (h : x = y) : S.ends Eq x y := S.of_parallel (.of_eq h)

theorem ite {c : Prop} [Decidable c] {x x' : Except Fault α} {y y' : Except Fault β}
    (h : S.ends Q x y) (h' : S.ends Q x' y') :
    S.ends Q (if c then x else x') (if c then y else y') := by
  split
  · exact h
  · exact h'

/-- The same code, and tables that still go together. -/
def Emits (r r' : α × Names) : Prop := r.1 = r'.1 ∧ S.names r.2 r'.2

end Simulation

theorem defined_twin {n n' : Note} (h : Note.Twin R n n') (name : Text) :
    Parallel Eq (Symbol.Twin R) (defined n name) (defined n' name) := by
  obtain ⟨type, defines, refers, input⟩ := n
  obtain ⟨type', defines', refers', input'⟩ := n'
  cases h.defines with
  | none => exact .error rfl
  | some hx => exact .ok hx

theorem note?_twin {N : Note → Note → Prop} {e e' : Expr Note} (h : Expr.Twin R N e e') :
    Option.Rel N e.note? e'.note? := by
  cases h with
  | literal hn _ => exact .some hn
  | ident hn _ => exact .some hn
  | call hn _ _ => exact .some hn
  | unary hn _ _ => exact .some hn
  | binary hn _ _ _ => exact .some hn
  | foreign _ => exact .none

theorem kind_twin {e e' : Expr Note} (h : Expr.Twin R (Note.Twin R) e e') : e.kind = e'.kind := by
  cases h <;> rfl

theorem knownType_twin {e e' : Expr Note} (h : Expr.Twin R (Note.Twin R) e e') :
    knownType e = knownType e' := by
  have hn := note?_twin h
  unfold knownType
  rw [kind_twin h]
  generalize e.note? = n at hn
  generalize e'.note? = n' at hn
  cases hn with
  | none => rfl
  | some hn => rw [Option.bind_some, Option.bind_some, hn.type]

theorem literal_twin {t t' : Token} (h : R.pairs t t') (value : Literal) :
    literal t value = literal t' value := by
  cases value with
  | float => rw [literal, literal, R.text h]
  | int | char | bool | string | untyped => rfl

theorem isCall_twin {N : Note → Note → Prop} {e e' : Expr Note} (h : Expr.Twin R N e e') :
    isCall e = isCall e' := by
  cases h <;> rfl

theorem refers_twin {n n' : Note} (h : Note.Twin R n n') :
    n.refers.toList.map Symbol.id = n'.refers.toList.map Symbol.id := by
  have hr := h.refers
  generalize n.refers = x at hr
  generalize n'.refers = x' at hr
  cases hr with
  | none => rfl
  | some hx => exact congrArg (fun id => [id]) hx.id

mutual

theorem exprRefs_twin {e e' : Expr Note} :
    Expr.Twin R (Note.Twin R) e e' → exprRefs e = exprRefs e'
  | .literal _ _ | .foreign _ => rfl
  | .ident hn _ => refers_twin hn
  | .call hn _ ha => by rw [exprRefs, exprRefs, refers_twin hn, exprsRefs_twin ha]
  | .unary _ _ ho => by rw [exprRefs, exprRefs, exprRefs_twin ho]
  | .binary _ _ hl hr => by rw [exprRefs, exprRefs, exprRefs_twin hl, exprRefs_twin hr]

theorem exprsRefs_twin {es es' : List (Expr Note)} :
    Expr.Twins R (Note.Twin R) es es' → exprsRefs es = exprsRefs es'
  | .nil => rfl
  | .cons he hr => by rw [exprsRefs, exprsRefs, exprRefs_twin he, exprsRefs_twin hr]

end

mutual

theorem stmtRefs_twin {s s' : Stmt Note} :
    Stmt.Twin R (Note.Twin R) s s' → stmtRefs s = stmtRefs s'
  | .declare _ _ .none => rfl
  | .declare _ _ (.some hv) => exprRefs_twin hv
  | .assign hn _ hv => by rw [stmtRefs, stmtRefs, refers_twin hn, exprRefs_twin hv]
  | .input hn _ => refers_twin hn
  | .print _ hv | .evaluate _ hv | .ret _ hv => exprRefs_twin hv
  | .block _ hb => stmtsRefs_twin hb
  | .ifThen _ _ _ _ | .ifElse _ _ _ _ _ _ | .whileDo _ _ _ _ | .forDo _ _ _ _ _ _ |
    .foreign _ => rfl

theorem stmtsRefs_twin {ss ss' : List (Stmt Note)} :
    Stmt.Twins R (Note.Twin R) ss ss' → stmtsRefs ss = stmtsRefs ss'
  | .nil => rfl
  | .cons hs hr => by rw [stmtsRefs, stmtsRefs, stmtRefs_twin hs, stmtsRefs_twin hr]

end

theorem declared_twin {ss ss' : List (Stmt Note)} (h : Stmt.Twins R (Note.Twin R) ss ss') :
    declared ss = declared ss' := by
  induction ss generalizing ss' with
  | nil =>
    cases h
    rfl
  | cons s ss ih =>
    cases h with
    | cons hs hr =>
      cases hs with
      | declare hn _ _ =>
        simp only [declared, ih hr]
        apply Parallel.eq
        apply (defined_twin hn _).bind
        intro x x' hx
        rw [hx.id]
        exact .of_eq rfl
      | _ =>
        have hrest := ih hr
        exact hrest

theorem stepUsesBody_twin {o o' : Option (Stmt Note)} (ho : Stmt.TwinClause R (Note.Twin R) o o')
    {ss ss' : List (Stmt Note)} (h : Stmt.Twins R (Note.Twin R) ss ss') :
    stepUsesBody o ss = stepUsesBody o' ss' := by
  cases ho with
  | none => rfl
  | some hs => simp only [stepUsesBody, declared_twin h, stmtRefs_twin hs]

theorem returns_twin {N : Note → Note → Prop} {ss ss' : List (Stmt Note)}
    (h : Stmt.Twins R N ss ss') : returns ss = returns ss' := by
  induction ss generalizing ss' with
  | nil =>
    cases h
    rfl
  | cons s ss ih =>
    cases h with
    | cons hs hr =>
      cases hr with
      | nil => cases hs <;> rfl
      | cons hs' hr =>
        have hrest := ih (.cons hs' hr)
        exact hrest

section Simulation

variable (S : Simulation R) {names names' : Names}

mutual

theorem expr_twin (h : S.names names names') {e e' : Expr Note} :
    Expr.Twin R (Note.Twin R) e e' → S.ends Eq (expr names e) (expr names' e')
  | .literal _ ht => by
    rw [expr, expr]
    exact S.of_eq (literal_twin ht _)
  | .ident hn _ => by
    rw [expr, expr]
    apply S.bind (S.givenName h hn _)
    rintro given _ rfl
    exact S.of_eq rfl
  | .call hn _ ha => by
    rw [expr, expr]
    apply S.ite (S.of_eq rfl)
    apply S.bind (exprs_twin h ha)
    rintro args _ rfl
    apply S.bind (S.givenName h hn _)
    rintro given _ rfl
    exact S.of_eq rfl
  | .unary _ _ ho => by
    rw [expr, expr]
    apply S.bind (expr_twin h ho)
    rintro operand _ rfl
    exact S.of_eq rfl
  | .binary hn ht hl hr => by
    simp only [expr, displayed, knownType_twin hl, knownType_twin hr,
      knownType_twin (.binary hn ht hl hr)]
    apply S.bind (expr_twin h hl)
    rintro left _ rfl
    apply S.bind (expr_twin h hr)
    rintro right _ rfl
    exact S.of_eq rfl
  | .foreign _ => by
    rw [expr, expr]
    exact S.of_eq rfl

theorem exprs_twin (h : S.names names names') {es es' : List (Expr Note)} :
    Expr.Twins R (Note.Twin R) es es' → S.ends Eq (exprs names es) (exprs names' es')
  | .nil => by
    rw [exprs, exprs]
    exact S.of_eq rfl
  | .cons he hr => by
    rw [exprs, exprs]
    apply S.bind (expr_twin h he)
    rintro e _ rfl
    apply S.bind (exprs_twin h hr)
    rintro rest _ rfl
    exact S.of_eq rfl

end

theorem declare_twin (h : S.names names names') {n n' : Note}
    (hn : Note.Twin R n n') (name : Text) :
    S.ends S.Emits (declare names n name) (declare names' n' name) := by
  unfold declare
  apply S.bind (S.of_parallel (defined_twin hn name))
  intro x x' hx
  rw [Target.localName_congr name (S.used h)]
  exact S.ok ⟨rfl, S.give h hx _⟩

theorem simple_twin (h : S.names names names') {s s' : Stmt Note}
    (hs : Stmt.Twin R (Note.Twin R) s s') :
    S.ends S.Emits (simple names s) (simple names' s') := by
  cases hs with
  | declare hn _ hv =>
    cases hv with
    | none =>
      simp only [simple]
      apply S.bind (S.of_eq rfl)
      rintro value _ rfl
      apply S.bind (declare_twin S h hn _)
      rintro ⟨given, names⟩ ⟨_, names'⟩ ⟨rfl, h⟩
      exact S.ok ⟨rfl, h⟩
    | some hv =>
      simp only [simple]
      apply S.bind (expr_twin S h hv)
      rintro value _ rfl
      apply S.bind (declare_twin S h hn _)
      rintro ⟨given, names⟩ ⟨_, names'⟩ ⟨rfl, h⟩
      exact S.ok ⟨rfl, h⟩
  | assign hn _ hv =>
    simp only [simple]
    apply S.bind (S.givenName h hn _)
    rintro given _ rfl
    apply S.bind (expr_twin S h hv)
    rintro value _ rfl
    exact S.ok ⟨rfl, h⟩
  | evaluate _ hv =>
    simp only [simple, isCall_twin hv]
    apply S.bind (expr_twin S h hv)
    rintro value _ rfl
    exact S.ok ⟨rfl, h⟩
  | _ => exact S.error _

theorem clause_twin (h : S.names names names') {o o' : Option (Stmt Note)}
    (ho : Stmt.TwinClause R (Note.Twin R) o o') :
    S.ends S.Emits (simple? names o) (simple? names' o') := by
  cases ho with
  | none => exact S.ok ⟨rfl, h⟩
  | some hs =>
    rw [simple?, simple?]
    apply S.bind (simple_twin S h hs)
    rintro ⟨s, names⟩ ⟨s', names'⟩ ⟨rfl, h⟩
    exact S.ok ⟨rfl, h⟩

theorem conditions_twin (h : S.names names names') {o o' : Option (Expr Note)}
    (ho : Option.Rel (Expr.Twin R (Note.Twin R)) o o') :
    S.ends Eq (o.mapM (expr names)) (o'.mapM (expr names')) := by
  cases ho with
  | none => exact S.of_eq rfl
  | some he =>
    rw [Option.mapM_some, Option.mapM_some]
    apply S.bind (expr_twin S h he)
    rintro e _ rfl
    exact S.of_eq rfl

theorem simpleStmt_twin (h : S.names names names') {s s' : Stmt Note}
    (hs : Stmt.Twin R (Note.Twin R) s s') :
    S.ends S.Emits (simple names s >>= fun r => pure (Target.Stmt.simple r.1, r.2))
      (simple names' s' >>= fun r => pure (Target.Stmt.simple r.1, r.2)) := by
  apply S.bind (simple_twin S h hs)
  rintro ⟨s, names⟩ ⟨_, names'⟩ ⟨rfl, h⟩
  exact S.ok ⟨rfl, h⟩

mutual

theorem stmt_twin {names names' : Names} (h : S.names names names') {s s' : Stmt Note} :
    Stmt.Twin R (Note.Twin R) s s' → S.ends S.Emits (stmt names s) (stmt names' s')
  | .print _ hv => by
    simp only [stmt]
    apply S.bind (expr_twin S h hv)
    rintro value _ rfl
    exact S.ok ⟨rfl, h⟩
  | .input hn _ => by
    simp only [stmt, hn.input]
    apply S.bind (S.givenName h hn _)
    rintro given _ rfl
    split
    · exact S.error _
    · exact S.error _
    · exact S.ok ⟨rfl, h⟩
  | .ret _ hv => by
    simp only [stmt]
    apply S.bind (expr_twin S h hv)
    rintro value _ rfl
    exact S.ok ⟨rfl, h⟩
  | .ifThen _ hc _ hb => by
    simp only [stmt]
    apply S.bind (expr_twin S h hc)
    rintro cond _ rfl
    apply S.bind (stmts_twin h hb)
    rintro ⟨body, names⟩ ⟨_, names'⟩ ⟨rfl, h⟩
    exact S.ok ⟨rfl, h⟩
  | .ifElse _ hc _ hb _ he => by
    simp only [stmt]
    apply S.bind (expr_twin S h hc)
    rintro cond _ rfl
    apply S.bind (stmts_twin h hb)
    rintro ⟨body, names⟩ ⟨_, names'⟩ ⟨rfl, h⟩
    apply S.bind (stmts_twin h he)
    rintro ⟨elseBody, names⟩ ⟨_, names'⟩ ⟨rfl, h⟩
    exact S.ok ⟨rfl, h⟩
  | .whileDo _ hc _ hb => by
    simp only [stmt]
    apply S.bind (expr_twin S h hc)
    rintro cond _ rfl
    apply S.bind (stmts_twin h hb)
    rintro ⟨body, names⟩ ⟨_, names'⟩ ⟨rfl, h⟩
    exact S.ok ⟨rfl, h⟩
  | .forDo _ hi hc hs _ hb => by
    simp only [stmt]
    apply S.bind (S.of_eq (stepUsesBody_twin hs hb))
    rintro uses _ rfl
    -- Both runs choose the same form of loop; the step is lowered after the body in one form and
    -- before it in the other.
    apply S.ite
    · apply S.bind (clause_twin S h hi)
      rintro ⟨init, names⟩ ⟨_, names'⟩ ⟨rfl, h⟩
      apply S.bind (conditions_twin S h hc)
      rintro cond _ rfl
      apply S.bind (stmts_twin h hb)
      rintro ⟨body, names⟩ ⟨_, names'⟩ ⟨rfl, h⟩
      apply S.bind (clause_twin S h hs)
      rintro ⟨step, names⟩ ⟨_, names'⟩ ⟨rfl, h⟩
      exact S.ok ⟨rfl, h⟩
    · apply S.bind (clause_twin S h hi)
      rintro ⟨init, names⟩ ⟨_, names'⟩ ⟨rfl, h⟩
      apply S.bind (conditions_twin S h hc)
      rintro cond _ rfl
      apply S.bind (clause_twin S h hs)
      rintro ⟨step, names⟩ ⟨_, names'⟩ ⟨rfl, h⟩
      apply S.bind (stmts_twin h hb)
      rintro ⟨body, names⟩ ⟨_, names'⟩ ⟨rfl, h⟩
      exact S.ok ⟨rfl, h⟩
  | .block _ hb => by
    simp only [stmt]
    apply S.bind (stmts_twin h hb)
    rintro ⟨body, names⟩ ⟨_, names'⟩ ⟨rfl, h⟩
    exact S.ok ⟨rfl, h⟩
  | .foreign _ => by
    simp only [stmt]
    exact S.error _
  | .declare hn ht hv => by
    simp only [stmt]
    exact simpleStmt_twin S h (.declare hn ht hv)
  | .assign hn ht hv => by
    simp only [stmt]
    exact simpleStmt_twin S h (.assign hn ht hv)
  | .evaluate ht hv => by
    simp only [stmt]
    exact simpleStmt_twin S h (.evaluate ht hv)

theorem stmts_twin {names names' : Names} (h : S.names names names') {ss ss' : List (Stmt Note)} :
    Stmt.Twins R (Note.Twin R) ss ss' → S.ends S.Emits (stmts names ss) (stmts names' ss')
  | .nil => by
    rw [stmts, stmts]
    exact S.ok ⟨rfl, h⟩
  | .cons hs hr => by
    rw [stmts, stmts]
    apply S.bind (stmt_twin h hs)
    rintro ⟨s, names⟩ ⟨_, names'⟩ ⟨rfl, h⟩
    apply S.bind (stmts_twin h hr)
    rintro ⟨rest, names⟩ ⟨_, names'⟩ ⟨rfl, h⟩
    exact S.ok ⟨rfl, h⟩

end

theorem params_twin {names names' : Names} (h : S.names names names') {xs xs' : List (Param Note)}
    (hx : List.Forall₂ (Param.Twin R (Note.Twin R)) xs xs') :
    S.ends S.Emits (params names xs) (params names' xs') := by
  induction hx generalizing names names' with
  | nil => exact S.ok ⟨rfl, h⟩
  | cons hx _ ih =>
    rw [params, params, hx.name, hx.type]
    apply S.bind (declare_twin S h hx.note _)
    rintro ⟨given, names⟩ ⟨_, names'⟩ ⟨rfl, h⟩
    apply S.bind (ih h)
    rintro ⟨rest, names⟩ ⟨_, names'⟩ ⟨rfl, h⟩
    exact S.ok ⟨rfl, h⟩

theorem method_twin {used used' : List Text} {given given' : List (SymbolId × Text)}
    (h : S.names ⟨given, used⟩ ⟨given', used'⟩) {f f' : Func Note}
    (hf : Func.Twin R (Note.Twin R) f f')
    (hname : ∀ x ∈ f.note.defines, given.lookup x.id = given'.lookup x.id) :
    S.ends (fun r r' => r.1 = r'.1 ∧ ∃ used used', S.names ⟨r.2, used⟩ ⟨r'.2, used'⟩)
      (method used given f) (method used' given' f') := by
  have hdefines := hf.note.defines
  unfold method defined
  rw [hf.name, hf.result, returns_twin hf.body]
  generalize f.note.defines = x at hname hdefines
  generalize f'.note.defines = x' at hdefines
  cases hdefines with
  | none => exact S.error _
  | some hx =>
    apply S.bind (params_twin S h hf.params)
    rintro ⟨params, names⟩ ⟨_, names'⟩ ⟨rfl, h⟩
    apply S.bind (stmts_twin S h hf.body)
    rintro ⟨body, names⟩ ⟨_, names'⟩ ⟨rfl, h⟩
    rw [hname _ rfl, hx.id]
    exact S.ok ⟨rfl, names.used, names'.used, h⟩

end Simulation

structure Names.Same (names names' : Names) : Prop where
  given : ∀ id, names.given.lookup id = names'.given.lookup id
  used : ∀ name, name ∈ names.used ↔ name ∈ names'.used

theorem Names.Same.give {names names' : Names} (h : names.Same names') {x x' : Symbol}
    (hx : Symbol.Twin R x x') (given : Text) :
    (names.give x given).Same (names'.give x' given) := by
  constructor
  · intro id
    simp only [Names.give, List.lookup_cons, hx.id, h.given id]
  · intro name
    simp only [Names.give, List.mem_cons, h.used name]

theorem givenName_twin {names names' : Names} (h : names.Same names') {n n' : Note}
    (hn : Note.Twin R n n') (name : Text) :
    givenName names n name = givenName names' n' name := by
  obtain ⟨type, defines, refers, input⟩ := n
  obtain ⟨type', defines', refers', input'⟩ := n'
  cases hn.refers with
  | none => rfl
  | some hx => simp only [givenName, hx.id, hx.name, h.given]

/-- Runs over tables that give the same names end in the same way. -/
def Simulation.same (R : TokenPairing) : Simulation R where
  names := Names.Same
  ends := Parallel Eq
  ok := .ok
  error _ := .error rfl
  bind := Parallel.bind
  give h hx _ := h.give hx _
  used h := h.used
  givenName h hn _ := .of_eq (givenName_twin h hn _)

theorem functions_twin {used used' : List Text} {given given' : List (SymbolId × Text)}
    (h : Names.Same ⟨given, used⟩ ⟨given', used'⟩) {fs fs' : List (Func Note)}
    (hfs : List.Forall₂ (Func.Twin R (Note.Twin R)) fs fs') :
    functions used given fs = functions used' given' fs' := by
  induction hfs generalizing given given' with
  | nil => rfl
  | cons hf _ ih =>
    have hmethod := method_twin (Simulation.same R) h hf fun _ _ => h.given _
    apply Parallel.eq
    rw [functions, functions]
    apply hmethod.bind
    rintro ⟨m, given⟩ ⟨_, given'⟩ ⟨rfl, _, _, hnames⟩
    exact .of_eq (congrArg (· >>= fun rest => pure (m :: rest)) (ih ⟨hnames.given, h.used⟩))

theorem nameMethods_twin {fs fs' : List (Func Note)}
    (h : List.Forall₂ (Func.Twin R (Note.Twin R)) fs fs') (used : List Text) :
    nameMethods used fs = nameMethods used fs' := by
  induction h generalizing used with
  | nil => rfl
  | cons hf _ ih =>
    apply Parallel.eq
    rw [nameMethods, nameMethods, hf.name]
    apply (defined_twin hf.note _).bind
    intro x x' hx
    simp only [hx.id, ih]
    exact .of_eq rfl

end Lowering

theorem Program.Twin.lower {R : TokenPairing} {x x' : Program Note}
    (h : Program.Twin R (Note.Twin R) x x') : x.lower = x'.lower := by
  have hnames : x.functions.map Func.name = x'.functions.map Func.name :=
    map_eq_map_of_forall₂ (h.functions.imp fun _ _ hf => hf.name)
  unfold Program.lower
  rw [hnames]
  apply Parallel.eq
  apply (Parallel.of_eq (Lowering.nameMethods_twin h.functions _)).bind
  rintro methods _ rfl
  exact .of_eq (Lowering.functions_twin ⟨fun _ => rfl, fun _ => Iff.rfl⟩ h.functions)

end MiniSharp
