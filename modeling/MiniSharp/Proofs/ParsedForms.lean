import MiniSharp.Program.Parser
import MiniSharp.Proofs.Outcome

namespace MiniSharp

variable {ν : Type} {P : Token → Prop}

def Ty.Proper : Ty → Prop
  | other _ => False
  | _ => True

theorem Parser.literal?_proper {t : Token} {value : Literal}
    (h : Parser.literal? t = some (.ok value)) : value.type.Proper := by
  unfold Parser.literal? at h
  split at h
  · split at h <;> cases h
    trivial
  · split at h <;> cases h
    trivial
  all_goals cases h
  all_goals trivial

structure Token.Names (P : Token → Prop) (t : Token) (name : Text) : Prop where
  holds : P t
  kind : t.kind = .identifier
  text : name = t.text

namespace Expr

mutual

def Formed (P : Token → Prop) : Expr ν → Prop
  | literal _ t value => P t ∧ Parser.literal? t = some (.ok value)
  | ident _ t name => t.Names P name
  | call _ t name args => t.Names P name ∧ AllFormed P args
  | unary _ t op operand => P t ∧ op = t.kind ∧ Parser.isUnary op ∧ operand.Formed P
  | binary _ t op left right =>
    P t ∧ op = t.kind ∧ Parser.precedence op ≠ 0 ∧ left.Formed P ∧ right.Formed P
  | foreign .. => False

def AllFormed (P : Token → Prop) : List (Expr ν) → Prop
  | [] => True
  | e :: rest => e.Formed P ∧ AllFormed P rest

end

theorem Formed.token {e : Expr ν} (h : e.Formed P) : P e.token := by
  cases e with
  | literal => exact h.1
  | ident => exact h.holds
  | call => exact h.1.holds
  | unary => exact h.1
  | binary => exact h.1
  | foreign => exact h.elim

end Expr

namespace Stmt

def isInit : Stmt ν → Bool
  | declare .. | assign .. | evaluate .. => true
  | _ => false

def isStep : Stmt ν → Bool
  | assign .. | evaluate .. => true
  | _ => false

mutual

def Formed (P : Token → Prop) : Stmt ν → Prop
  | declare _ t name type value => t.Names P name ∧ type.Proper ∧ ∀ e ∈ value, e.Formed P
  | assign _ t name value => t.Names P name ∧ value.Formed P
  | input _ t name => t.Names P name
  | print t value | evaluate t value | ret t value => P t ∧ value.Formed P
  | ifThen t cond brace body | whileDo t cond brace body =>
    P t ∧ cond.Formed P ∧ P brace ∧ AllFormed P body
  | ifElse t cond brace body elseBrace elseBody =>
    P t ∧ cond.Formed P ∧ P brace ∧ AllFormed P body ∧ P elseBrace ∧ AllFormed P elseBody
  | forDo t init cond step brace body =>
    P t ∧ (∀ s ∈ init, s.isInit) ∧ OptFormed P init ∧ (∀ e ∈ cond, e.Formed P) ∧
      (∀ s ∈ step, s.isStep) ∧ OptFormed P step ∧ P brace ∧ AllFormed P body
  | block brace body => P brace ∧ AllFormed P body
  | foreign .. => False

def OptFormed (P : Token → Prop) : Option (Stmt ν) → Prop
  | none => True
  | some s => s.Formed P

def AllFormed (P : Token → Prop) : List (Stmt ν) → Prop
  | [] => True
  | s :: rest => s.Formed P ∧ AllFormed P rest

end

end Stmt

structure Param.Formed (P : Token → Prop) (x : Param ν) : Prop where
  name : x.token.Names P x.name
  type : x.type.Proper

structure Func.Formed (P : Token → Prop) (f : Func ν) : Prop where
  name : f.token.Names P f.name
  params : ∀ x ∈ f.params, x.Formed P
  result : f.result.Proper
  brace : P f.brace
  body : Stmt.AllFormed P f.body

def Program.Formed (P : Token → Prop) (x : Program ν) : Prop := ∀ f ∈ x.functions, f.Formed P

namespace Parser

variable {α β : Type} {m n : Nat}

def Yields (P : Token → Prop) (Q : α → Prop) (s : Step α n) : Prop :=
  ∀ r, s = .ok r → Q r.value ∧ ∀ t ∈ r.rest, P t

namespace Yields

theorem ok {Q : α → Prop} {a : α} {ts : List Token} {h : ts.length < n} (ha : Q a)
    (ht : ∀ t ∈ ts, P t) : Yields P Q (.ok ⟨a, ts, h⟩) := by
  intro r hr
  cases hr
  exact ⟨ha, ht⟩

theorem error {Q : α → Prop} (f : Failure) : Yields P Q (.error f : Step α n) := by
  intro r hr
  cases hr

theorem imp {Q R : α → Prop} {s : Step α n} (h : Yields P Q s) (hQ : ∀ a, Q a → R a) :
    Yields P R s :=
  fun r hr => ⟨hQ r.value (h r hr).1, (h r hr).2⟩

theorem bind {Q : α → Prop} {R : β → Prop} {s : Step α m} {g : Read α m → Step β n}
    (hs : Yields P Q s)
    (hg : ∀ r : Read α m, Q r.value → (∀ t ∈ r.rest, P t) → Yields P R (g r)) :
    Yields P R (s >>= g) := by
  cases s with
  | error f => exact error f
  | ok r => exact hg r (hs r rfl).1 (hs r rfl).2

end Yields

theorem forall_tail {ts : List Token} (h : ∀ t ∈ ts, P t) : ∀ t ∈ ts.tail, P t :=
  fun t ht => h t (List.mem_of_mem_tail ht)

theorem expect_yields (kind : TokenKind) (what : Expectation) {ts : List Token}
    (h : ∀ t ∈ ts, P t) : Yields P (fun t => P t ∧ t.kind = kind) (expect kind what ts) := by
  cases ts with
  | nil => exact .error _
  | cons t rest =>
    rw [expect]
    split
    · next hk => exact .ok ⟨h t (by simp), hk⟩ fun u hu => h u (by simp [hu])
    · exact .error _

mutual

theorem binary_yields (least : Nat) (ts : List Token) (h : ∀ t ∈ ts, P t) :
    Yields P (Expr.Formed P) (binary least ts) := by
  rw [binary]
  apply (unary_yields ts h).bind
  intro left hl ht
  apply (operators_yields least left.value hl left.rest ht).bind
  intro all ha ht
  exact .ok ha ht
termination_by 4 * ts.length + 2
decreasing_by
  · omega
  · have := left.lt
    omega

theorem operators_yields (least : Nat) (left : Expr Unit) (hl : left.Formed P) :
    (ts : List Token) → (∀ t ∈ ts, P t) → Yields P (Expr.Formed P) (operators least left ts)
  | [], h => by
    rw [operators]
    exact .ok hl h
  | t :: rest, h => by
    rw [operators]
    split
    · exact .ok hl h
    · next hp =>
      apply (binary_yields _ rest fun u hu => h u (by simp [hu])).bind
      intro right hr ht
      have hall : (Expr.binary () t t.kind left right.value).Formed P :=
        ⟨h t (by simp), rfl, fun h0 => hp (.inl h0), hl, hr⟩
      apply (operators_yields least _ hall right.rest ht).bind
      intro all ha ht
      exact .ok ha ht
termination_by ts => 4 * ts.length + 3
decreasing_by
  · simp only [List.length_cons]
    omega
  · have := right.lt
    simp only [List.length_cons]
    omega

theorem unary_yields : (ts : List Token) → (∀ t ∈ ts, P t) → Yields P (Expr.Formed P) (unary ts)
  | [], _ => by
    rw [unary]
    exact .error _
  | t :: rest, h => by
    have hrest : ∀ u ∈ rest, P u := fun u hu => h u (by simp [hu])
    rw [unary]
    split
    · next hu =>
      apply (unary_yields rest hrest).bind
      intro operand ho ht
      exact .ok ⟨h t (by simp), rfl, hu, ho⟩ ht
    · exact primary_yields t rest (h t (by simp)) hrest
termination_by ts => 4 * ts.length + 1
decreasing_by
  all_goals
    simp only [List.length_cons]
    omega

theorem primary_yields (t : Token) (rest : List Token) (hp : P t) (h : ∀ u ∈ rest, P u) :
    Yields P (Expr.Formed P) (primary t rest) := by
  rw [primary]
  split
  · next value hv => exact .ok ⟨hp, hv⟩ h
  · exact .error _
  · split
    · next hk =>
      split
      · next hopen =>
        have hlt := tail_length_of_at? hopen
        apply (arguments_yields rest.tail (forall_tail h)).bind
        intro args ha ht
        exact .ok ⟨⟨hp, hk, rfl⟩, ha⟩ ht
      · exact .ok ⟨hp, hk, rfl⟩ h
    · split
      · apply (binary_yields 1 rest h).bind
        intro inner hi ht
        apply (expect_yields _ _ ht).bind
        intro close _ ht
        exact .ok hi ht
      · exact .error _
termination_by 4 * rest.length + 4
decreasing_by
  all_goals omega

theorem arguments_yields (ts : List Token) (h : ∀ t ∈ ts, P t) :
    Yields P (Expr.AllFormed P) (arguments ts) := by
  rw [arguments]
  split
  · exact .ok trivial (forall_tail h)
  · apply (expressions_yields ts h).bind
    intro args ha ht
    apply (expect_yields _ _ ht).bind
    intro close _ ht
    exact .ok ha ht
termination_by 4 * ts.length + 4
decreasing_by omega

theorem expressions_yields (ts : List Token) (h : ∀ t ∈ ts, P t) :
    Yields P (Expr.AllFormed P) (expressions ts) := by
  rw [expressions]
  apply (binary_yields 1 ts h).bind
  intro first hf ht
  split
  · apply (expressions_yields first.rest.tail (forall_tail ht)).bind
    intro more hm ht
    exact .ok ⟨hf, hm⟩ ht
  · exact .ok ⟨hf, trivial⟩ ht
termination_by 4 * ts.length + 3
decreasing_by
  · omega
  · have := first.lt
    simp only [List.length_tail]
    omega

end

theorem expression_yields {ts : List Token} (h : ∀ t ∈ ts, P t) :
    Yields P (Expr.Formed P) (expression ts) := binary_yields 1 ts h

theorem ofToken?_proper {kind : TokenKind} {type : Ty} (h : Ty.ofToken? kind = some type) :
    type.Proper := by
  unfold Ty.ofToken? at h
  split at h
  all_goals cases h
  all_goals trivial

theorem typeName_yields {ts : List Token} (h : ∀ t ∈ ts, P t) :
    Yields P Ty.Proper (typeName ts) := by
  cases ts with
  | nil => exact .error _
  | cons t rest =>
    rw [typeName]
    split
    · next type htype => exact .ok (ofToken?_proper htype) fun u hu => h u (by simp [hu])
    · exact .error _

theorem initializer_yields {ts : List Token} (h : ∀ t ∈ ts, P t) :
    Yields P (fun value => ∀ e ∈ value, e.Formed P) (initializer ts) := by
  unfold initializer
  split
  · apply (expression_yields (forall_tail h)).bind
    intro value hv ht
    exact .ok (by simpa using hv) ht
  · exact .ok (by simp) h

theorem declaration_yields {ts : List Token} (h : ∀ t ∈ ts, P t) :
    Yields P (fun s => s.Formed P ∧ s.isInit) (declaration ts) := by
  unfold declaration
  apply (expect_yields _ _ h).bind
  intro word _ h
  apply (expect_yields _ _ h).bind
  intro name hn h
  apply (expect_yields _ _ h).bind
  intro colon _ h
  apply (typeName_yields h).bind
  intro type hty h
  apply (initializer_yields h).bind
  intro value hv h
  apply (expect_yields _ _ h).bind
  intro stop _ h
  exact .ok ⟨⟨⟨hn.1, hn.2, rfl⟩, hty, hv⟩, rfl⟩ h

theorem isAssignment_cons {t : Token} {rest : List Token} (h : isAssignment (t :: rest)) :
    t.kind = .identifier := by
  cases rest with
  | nil => simp [isAssignment] at h
  | cons a rest =>
    simp only [isAssignment, Bool.and_eq_true, beq_iff_eq] at h
    exact h.1

theorem simple_yields (what : Expectation) {ts : List Token} (h : ∀ t ∈ ts, P t) :
    Yields P (fun s => s.Formed P ∧ s.isStep) (simple what ts) := by
  cases ts with
  | nil => exact .error _
  | cons t rest =>
    have hrest : ∀ u ∈ rest, P u := fun u hu => h u (by simp [hu])
    rw [simple]
    split
    · next ha =>
      apply (expression_yields (forall_tail hrest)).bind
      intro value hv ht
      exact .ok ⟨⟨⟨h t (by simp), isAssignment_cons ha, rfl⟩, hv⟩, rfl⟩ ht
    · split
      · apply (expression_yields h).bind
        intro value hv ht
        exact .ok ⟨⟨hv.token, hv⟩, rfl⟩ ht
      · exact .error _

theorem condition_yields (word : Keyword) {ts : List Token} (h : ∀ t ∈ ts, P t) :
    Yields P (Expr.Formed P) (condition word ts) := by
  unfold condition
  apply (expect_yields _ _ h).bind
  intro left _ h
  apply (expression_yields h).bind
  intro cond hc h
  apply (expect_yields _ _ h).bind
  intro right _ h
  exact .ok hc h

theorem returnStatement_yields {t : Token} (hp : P t) {ts : List Token} (h : ∀ t ∈ ts, P t) :
    Yields P (Stmt.Formed P) (returnStatement t ts) := by
  unfold returnStatement
  apply (expression_yields h).bind
  intro value hv h
  apply (expect_yields _ _ h).bind
  intro stop _ h
  exact .ok ⟨hp, hv⟩ h

theorem printStatement_yields {t : Token} (hp : P t) {ts : List Token} (h : ∀ t ∈ ts, P t) :
    Yields P (Stmt.Formed P) (printStatement t ts) := by
  unfold printStatement
  apply (expect_yields _ _ h).bind
  intro left _ h
  apply (expression_yields h).bind
  intro value hv h
  apply (expect_yields _ _ h).bind
  intro right _ h
  apply (expect_yields _ _ h).bind
  intro stop _ h
  exact .ok ⟨hp, hv⟩ h

theorem inputStatement_yields {ts : List Token} (h : ∀ t ∈ ts, P t) :
    Yields P (Stmt.Formed P) (inputStatement ts) := by
  unfold inputStatement
  apply (expect_yields _ _ h).bind
  intro left _ h
  apply (expect_yields _ _ h).bind
  intro name hn h
  apply (expect_yields _ _ h).bind
  intro right _ h
  apply (expect_yields _ _ h).bind
  intro stop _ h
  exact .ok ⟨hn.1, hn.2, rfl⟩ h

theorem simpleStatement_yields {ts : List Token} (h : ∀ t ∈ ts, P t) :
    Yields P (Stmt.Formed P) (simpleStatement ts) := by
  unfold simpleStatement
  apply (simple_yields _ h).bind
  intro stmt hs h
  apply (expect_yields _ _ h).bind
  intro stop _ h
  exact .ok hs.1 h

theorem isInit_of_isStep {s : Stmt Unit} (h : s.isStep) : s.isInit := by
  cases s <;> first | rfl | cases h

def ClauseFormed (P : Token → Prop) (allowed : Stmt Unit → Bool) (clause : Option (Stmt Unit)) :
    Prop := (∀ s ∈ clause, allowed s) ∧ Stmt.OptFormed P clause

theorem initClause_yields {ts : List Token} (h : ∀ t ∈ ts, P t) :
    Yields P (ClauseFormed P Stmt.isInit) (initClause ts) := by
  unfold initClause
  split
  · exact .error _
  · next t rest =>
    split
    · exact .ok ⟨by simp, trivial⟩ fun u hu => h u (by simp [hu])
    · split
      · apply (declaration_yields h).bind
        intro stmt hs h
        exact .ok ⟨by simpa using hs.2, hs.1⟩ h
      · apply (simple_yields _ h).bind
        intro stmt hs h
        apply (expect_yields _ _ h).bind
        intro stop _ h
        exact .ok ⟨by simpa using isInit_of_isStep hs.2, hs.1⟩ h

theorem condClause_yields {ts : List Token} (h : ∀ t ∈ ts, P t) :
    Yields P (fun cond => ∀ e ∈ cond, e.Formed P) (condClause ts) := by
  unfold condClause
  split
  · apply (expect_yields _ _ h).bind
    intro stop _ h
    exact .ok (by simp) h
  · apply (expression_yields h).bind
    intro cond hc h
    apply (expect_yields _ _ h).bind
    intro stop _ h
    exact .ok (by simpa using hc) h

theorem stepClause_yields {ts : List Token} (h : ∀ t ∈ ts, P t) :
    Yields P (ClauseFormed P Stmt.isStep) (stepClause ts) := by
  unfold stepClause
  split
  · apply (expect_yields _ _ h).bind
    intro close _ h
    exact .ok ⟨by simp, trivial⟩ h
  · apply (simple_yields _ h).bind
    intro stmt hs h
    apply (expect_yields _ _ h).bind
    intro close _ h
    exact .ok ⟨by simpa using hs.2, hs.1⟩ h

structure Header.Formed (P : Token → Prop) (x : Header) : Prop where
  init : ClauseFormed P Stmt.isInit x.init
  cond : ∀ e ∈ x.cond, e.Formed P
  step : ClauseFormed P Stmt.isStep x.step

theorem header_yields {ts : List Token} (h : ∀ t ∈ ts, P t) :
    Yields P (Header.Formed P) (header ts) := by
  unfold header
  apply (expect_yields _ _ h).bind
  intro left _ h
  apply (initClause_yields h).bind
  intro init hi h
  apply (condClause_yields h).bind
  intro cond hc h
  apply (stepClause_yields h).bind
  intro step hs h
  exact .ok ⟨hi, hc, hs⟩ h

structure Block.Formed (P : Token → Prop) (x : Block) : Prop where
  brace : P x.brace
  body : Stmt.AllFormed P x.body

mutual

theorem block_yields (ts : List Token) (h : ∀ t ∈ ts, P t) :
    Yields P (Block.Formed P) (block ts) := by
  rw [block]
  apply (expect_yields _ _ h).bind
  intro left hl h
  apply (statements_yields left.rest h).bind
  intro body hb h
  apply (expect_yields _ _ h).bind
  intro right _ h
  exact .ok ⟨hl.1, hb⟩ h
termination_by 2 * ts.length
decreasing_by
  have := left.lt
  omega

theorem statements_yields :
    (ts : List Token) → (∀ t ∈ ts, P t) → Yields P (Stmt.AllFormed P) (statements ts)
  | [], h => by
    rw [statements]
    exact .ok trivial h
  | t :: rest, h => by
    rw [statements]
    split
    · exact .ok trivial h
    · apply (statement_yields t rest (h t (by simp)) fun u hu => h u (by simp [hu])).bind
      intro first hf ht
      apply (statements_yields first.rest ht).bind
      intro more hm ht
      exact .ok ⟨hf, hm⟩ ht
termination_by ts => 2 * ts.length + 1
decreasing_by
  · simp only [List.length_cons]
    omega
  · have := first.lt
    omega

theorem statement_yields (t : Token) (rest : List Token) (hp : P t) (hrest : ∀ u ∈ rest, P u) :
    Yields P (Stmt.Formed P) (statement t rest) := by
  have h : ∀ u ∈ t :: rest, P u := by simpa using ⟨hp, hrest⟩
  rw [statement]
  split
  · exact (declaration_yields h).imp fun s hs => hs.1
  · apply (returnStatement_yields hp hrest).bind
    intro stmt hs ht
    exact .ok hs ht
  · apply (printStatement_yields hp hrest).bind
    intro stmt hs ht
    exact .ok hs ht
  · apply (inputStatement_yields hrest).bind
    intro stmt hs ht
    exact .ok hs ht
  · apply (condition_yields .ifKw hrest).bind
    intro cond hc ht
    apply (block_yields cond.rest ht).bind
    intro body hb ht
    split
    · apply (block_yields body.rest.tail (forall_tail ht)).bind
      intro other ho ht
      exact .ok ⟨hp, hc, hb.brace, hb.body, ho.brace, ho.body⟩ ht
    · exact .ok ⟨hp, hc, hb.brace, hb.body⟩ ht
  · apply (condition_yields .whileKw hrest).bind
    intro cond hc ht
    apply (block_yields cond.rest ht).bind
    intro body hb ht
    exact .ok ⟨hp, hc, hb.brace, hb.body⟩ ht
  · apply (header_yields hrest).bind
    intro head hh ht
    apply (block_yields head.rest ht).bind
    intro body hb ht
    exact .ok ⟨hp, hh.init.1, hh.init.2, hh.cond, hh.step.1, hh.step.2, hb.brace, hb.body⟩ ht
  · exact simpleStatement_yields h
termination_by 2 * rest.length + 2
decreasing_by
  · have := cond.lt
    omega
  · have := cond.lt
    have := body.lt
    simp only [List.length_tail]
    omega
  · have := cond.lt
    omega
  · have := head.lt
    omega

end

theorem parameter_yields {ts : List Token} (h : ∀ t ∈ ts, P t) :
    Yields P (Param.Formed P) (parameter ts) := by
  unfold parameter
  apply (expect_yields _ _ h).bind
  intro name hn h
  apply (expect_yields _ _ h).bind
  intro colon _ h
  apply (typeName_yields h).bind
  intro type hty h
  exact .ok ⟨⟨hn.1, hn.2, rfl⟩, hty⟩ h

theorem parameters_yields (ts : List Token) (h : ∀ t ∈ ts, P t) :
    Yields P (fun xs => ∀ x ∈ xs, x.Formed P) (parameters ts) := by
  rw [parameters]
  apply (parameter_yields h).bind
  intro first hf ht
  split
  · apply (parameters_yields first.rest.tail (forall_tail ht)).bind
    intro more hm ht
    exact .ok (List.forall_mem_cons.mpr ⟨hf, hm⟩) ht
  · exact .ok (by simpa using hf) ht
termination_by ts.length
decreasing_by
  have := first.lt
  simp only [List.length_tail]
  omega

theorem parameterList_yields {ts : List Token} (h : ∀ t ∈ ts, P t) :
    Yields P (fun xs => ∀ x ∈ xs, x.Formed P) (parameterList ts) := by
  unfold parameterList
  split
  · exact .ok (by simp) h
  · apply (parameters_yields ts h).bind
    intro params hp ht
    exact .ok hp ht

theorem function_yields {ts : List Token} (h : ∀ t ∈ ts, P t) :
    Yields P (Func.Formed P) (function ts) := by
  unfold function
  apply (expect_yields _ _ h).bind
  intro word _ h
  apply (expect_yields _ _ h).bind
  intro name hn h
  apply (expect_yields _ _ h).bind
  intro left _ h
  apply (parameterList_yields h).bind
  intro params hp h
  apply (expect_yields _ _ h).bind
  intro right _ h
  apply (expect_yields _ _ h).bind
  intro colon _ h
  apply (typeName_yields h).bind
  intro result hr h
  apply (block_yields result.rest h).bind
  intro body hb h
  exact .ok ⟨⟨hn.1, hn.2, rfl⟩, hp, hr, hb.brace, hb.body⟩ h

theorem functions_formed (ts : List Token) (h : ∀ t ∈ ts, P t) {fs : List (Func Unit)}
    (hf : functions ts = .ok fs) : ∀ f ∈ fs, f.Formed P := by
  induction hn : ts.length using Nat.strongRecOn generalizing ts fs with
  | _ n ih =>
    cases ts with
    | nil =>
      rw [functions, Except.ok.injEq] at hf
      simp [← hf]
    | cons t rest =>
      rw [functions] at hf
      simp only [bind_eq_ok, pure_eq_ok] at hf
      obtain ⟨first, hfirst, more, hmore, rfl⟩ := hf
      obtain ⟨hformed, ht⟩ := function_yields h first hfirst
      exact List.forall_mem_cons.mpr ⟨hformed, ih _ (hn ▸ first.lt) first.rest ht hmore rfl⟩

end Parser

theorem parse_formed {source : Text} {x : Program Unit} (h : parse source = .ok x)
    (hP : ∀ t ∈ (scan source).tokens, P t) : x.Formed P := by
  unfold parse TokenStream.readProgram at h
  split at h
  · next functions hf =>
    cases h
    exact Parser.functions_formed _ hP hf
  · cases h

theorem parseExpression_formed {source : Text} {e : Expr Unit} (h : parseExpression source = .ok e)
    (hP : ∀ t ∈ (scan source).tokens, P t) : e.Formed P := by
  unfold parseExpression TokenStream.readExpression at h
  split at h
  · cases h
  · next r hr =>
    split at h
    · cases h
      exact (Parser.expression_yields hP r hr).1
    · cases h

end MiniSharp
