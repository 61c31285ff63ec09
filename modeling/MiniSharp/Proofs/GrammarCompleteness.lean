import MiniSharp.Program.Parser
import MiniSharp.Proofs.Grammar
import MiniSharp.Proofs.Outcome

namespace MiniSharp.Parser

open Grammar (Phrase Tok Word Mark Name TypeName Constant OneOf Ladder Unary Primary Args More
  Expression VarDecl Simple Condition Statement Body Else Parameter Function)

variable {α β : Type} {m n : Nat}

def Gives (s : Step α n) (a : α) (rest : List Token) : Prop := ∃ h, s = .ok ⟨a, rest, h⟩

theorem Gives.ok {a : α} {rest : List Token} {h : rest.length < n} :
    Gives (.ok ⟨a, rest, h⟩) a rest := ⟨h, rfl⟩

theorem Gives.bind {s : Step α m} {g : Read α m → Step β n} {a : α} {b : β}
    {rest rest' : List Token} (hs : Gives s a rest) (hg : ∀ h, Gives (g ⟨a, rest, h⟩) b rest') :
    Gives (s >>= g) b rest' := by
  obtain ⟨h, rfl⟩ := hs
  exact hg h

theorem expect_gives {kind : TokenKind} (t : Tok kind) (what : Expectation) (r : List Token) :
    Gives (expect kind what (t.token :: r)) t.token r := by
  rw [expect, if_pos t.kind_eq]
  exact .ok

theorem at?_tok {kind : TokenKind} (t : Tok kind) (r : List Token) :
    at? kind (t.token :: r) = true := by
  simp [at?, t.kind_eq]

theorem at?_tok_ne {kind other : TokenKind} (t : Tok kind) (h : kind ≠ other) (r : List Token) :
    at? other (t.token :: r) = false := by
  simp [at?, t.kind_eq, h]

theorem at?_of_ne {kind : TokenKind} {r : List Token} (h : ∀ t ∈ r.head?, t.kind ≠ kind) :
    at? kind r = false := by
  cases r with
  | nil => rfl
  | cons t r => simpa [at?] using h t rfl

theorem precedence_level {n : Nat} {op : Operator} (h : op ∈ Grammar.level n) :
    precedence (.operator op) ≠ 0 ∧ precedence (.operator op) + n = 7 := by
  unfold Grammar.level at h
  split at h
  all_goals
    simp only [List.mem_cons, List.not_mem_nil, or_false] at h
  all_goals
    rcases h with rfl | rfl | rfl | rfl <;> exact ⟨by decide, rfl⟩

theorem literal?_of_denotes {t : Token} {value : Literal} (h : Grammar.Denotes t value) :
    literal? t = some (.ok value) := by
  unfold literal?
  cases h with
  | int hk hv => rw [hk]; simp only [maxInt, hv, if_true]
  | float hk hv => rw [hk]; simp only [hv]
  | char hk | string hk | true hk | false hk => rw [hk]

def Follows (n : Nat) (r : List Token) : Prop :=
  ∀ t ∈ r.head?, t.kind ≠ .delimiter .openParen ∧ precedence t.kind + n ≤ 7

theorem Follows.below {r : List Token} (h : Follows (n + 1) r) : Follows n r :=
  fun t ht => ⟨(h t ht).1, Nat.le_of_succ_le (h t ht).2⟩

def Ends (r : List Token) : Prop :=
  ∀ t ∈ r.head?, t.kind ≠ .delimiter .openParen ∧ precedence t.kind = 0

theorem Ends.follows {r : List Token} (h : Ends r) : Follows 6 r := by
  intro t ht
  have := (h t ht).2
  exact ⟨(h t ht).1, by omega⟩

theorem ends_mark {mark : Delimiter} (t : Mark mark) (h : mark ≠ .openParen) (r : List Token) :
    Ends (t.token :: r) := by
  intro u hu
  cases hu
  rw [t.kind_eq]
  exact ⟨by simpa using h, rfl⟩

theorem follows_operator {ops : List Operator} (op : OneOf ops) {r : List Token}
    (h : precedence (.operator op.op) + n ≤ 7) : Follows n (op.token :: r) := by
  intro t ht
  cases ht
  rw [op.kind_eq]
  exact ⟨by simp, h⟩

theorem operators_stops {least : Nat} {left : Expr Unit} {r : List Token}
    (h : ∀ t ∈ r.head?, precedence t.kind = 0 ∨ precedence t.kind < least) :
    Gives (operators least left r) left r := by
  cases r with
  | nil =>
    rw [operators]
    exact .ok
  | cons t r =>
    rw [operators, if_pos (h t rfl)]
    exact .ok

theorem operators_ends {left : Expr Unit} {r : List Token} (h : Ends r) :
    Gives (operators 1 left r) left r :=
  operators_stops fun t ht => .inl (h t ht).2

theorem ne_of_startsExpression {t : Token} {kind : TokenKind} (h : startsExpression t.kind = true)
    (hk : startsExpression kind = false) : t.kind ≠ kind := by
  intro heq
  rw [heq, hk] at h
  cases h

theorem isUnary_operator (op : OneOf [.not, .minus]) : isUnary op.token.kind = true := by
  have hmem := op.mem
  rw [op.kind_eq]
  simp only [List.mem_cons, List.not_mem_nil, or_false] at hmem
  rcases hmem with h | h <;> rw [h] <;> rfl

theorem startsExpression_constant (c : Constant) :
    startsExpression c.token.kind = true ∧ isUnary c.token.kind = false ∧
      c.token.kind ≠ .identifier := by
  obtain ⟨t, value, h⟩ := c
  cases h with
  | int hk | float hk | char hk | string hk | true hk | false hk => simp only [hk]; decide

mutual

theorem ladder_head : {n : Nat} → (d : Ladder n) →
    ∃ t rest, d.tokens = t :: rest ∧ startsExpression t.kind = true
  | _, .operand e => unary_head e
  | _, .next e => ladder_head e
  | _, .apply left op right => by
    obtain ⟨t, rest, h, hs⟩ := ladder_head left
    exact ⟨t, _, by rw [Ladder.tokens, h, List.cons_append], hs⟩

theorem unary_head : (d : Unary) →
    ∃ t rest, d.tokens = t :: rest ∧ startsExpression t.kind = true
  | .apply op operand => by
    refine ⟨op.token, operand.tokens, rfl, ?_⟩
    rw [startsExpression, isUnary_operator, Bool.true_or]
  | .primary e => primary_head e

theorem primary_head : (d : Primary) →
    ∃ t rest, d.tokens = t :: rest ∧ startsExpression t.kind = true
  | .constant value => ⟨value.token, [], rfl, (startsExpression_constant value).1⟩
  | .name name => ⟨name.token, [], rfl, by rw [name.kind_eq]; decide⟩
  | .call name _ _ _ => ⟨name.token, _, rfl, by rw [name.kind_eq]; decide⟩
  | .parens left _ _ => ⟨left.token, _, rfl, by rw [left.kind_eq]; decide⟩

end

mutual

theorem ladder_gives {least : Nat} {r rest : List Token} {v : Expr Unit} : {n : Nat} →
    (d : Ladder n) → least + n ≤ 7 → Follows n r → Gives (operators least d.expr r) v rest →
      Gives (binary least (d.tokens ++ r)) v rest
  | _, .operand e, _, hr, h => by
    rw [binary]
    apply (unary_gives e fun t ht => (hr t ht).1).bind
    intro _
    apply h.bind
    intro _
    exact .ok
  | _, .next e, hl, hr, h => ladder_gives e (by omega) hr.below h
  | _, @Ladder.apply n left op right, hl, hr, h => by
    obtain ⟨hop, hlevel⟩ := precedence_level op.mem
    have hright :
        Gives (binary (precedence op.token.kind + 1) (right.tokens ++ r)) right.expr r := by
      rw [op.kind_eq]
      apply ladder_gives right (by omega) hr.below
      apply operators_stops
      intro t ht
      have := (hr t ht).2
      omega
    rw [Ladder.tokens, List.append_assoc, List.cons_append]
    apply ladder_gives left hl (follows_operator op (by omega))
    rw [operators, if_neg (by rw [op.kind_eq]; omega)]
    apply hright.bind
    intro _
    rw [op.kind_eq]
    apply h.bind
    intro _
    exact .ok

theorem unary_gives {r : List Token} : (d : Unary) →
    (∀ t ∈ r.head?, t.kind ≠ .delimiter .openParen) → Gives (unary (d.tokens ++ r)) d.expr r
  | .apply op operand, hr => by
    rw [Unary.tokens, List.cons_append, unary, if_pos (isUnary_operator op), op.kind_eq]
    apply (unary_gives operand hr).bind
    intro _
    exact .ok
  | .primary e, hr => primary_gives e hr

theorem primary_gives {r : List Token} : (d : Primary) →
    (∀ t ∈ r.head?, t.kind ≠ .delimiter .openParen) → Gives (unary (d.tokens ++ r)) d.expr r
  | .constant value, _ => by
    rw [Primary.tokens, List.singleton_append, unary,
      if_neg (by simp [(startsExpression_constant value).2.1]), primary]
    simp only [literal?_of_denotes value.denotes]
    exact .ok
  | .name name, hr => by
    have hk := name.kind_eq
    have hopen : ¬ at? (.delimiter .openParen) r = true := by rw [at?_of_ne hr]; simp
    rw [Primary.tokens, List.singleton_append, unary, if_neg (by rw [hk]; decide), primary]
    simp only [literal?, hk]
    rw [if_pos trivial, dif_neg hopen]
    exact .ok
  | .call name left args right, _ => by
    have hk := name.kind_eq
    rw [Primary.tokens, List.cons_append, List.cons_append, List.append_assoc, unary,
      if_neg (by rw [hk]; decide), primary]
    simp only [literal?, hk]
    rw [if_pos trivial, dif_pos (at?_tok left _)]
    apply (args_gives args right).bind
    intro _
    exact .ok
  | .parens left e right, _ => by
    have hk := left.kind_eq
    rw [Primary.tokens, List.cons_append, List.append_assoc, unary, if_neg (by rw [hk]; decide),
      primary]
    simp only [literal?, hk]
    rw [if_neg (by decide), if_pos trivial]
    have hend := ends_mark right (by decide) r
    apply (ladder_gives e (by decide) hend.follows (operators_ends hend)).bind
    intro _
    apply (expect_gives right _ r).bind
    intro _
    exact .ok

theorem args_gives {r : List Token} : (d : Args) → (right : Mark .closeParen) →
    Gives (arguments (d.tokens ++ right.token :: r)) d.exprs r
  | .none, right => by
    rw [Args.tokens, List.nil_append, arguments, if_pos (at?_tok right r)]
    exact .ok
  | .some first more, right => by
    obtain ⟨t, rest, hhead, hstart⟩ := ladder_head first
    have hclose :
        ¬at? (.delimiter .closeParen) ((Args.some first more).tokens ++ right.token :: r) := by
      rw [Args.tokens, hhead, List.cons_append, List.cons_append, at?, beq_iff_eq]
      exact ne_of_startsExpression hstart rfl
    rw [arguments, if_neg hclose, Args.tokens, List.append_assoc]
    apply (more_gives more right fun hend => ladder_gives first (by decide) hend.follows
      (operators_ends hend)).bind
    intro _
    apply (expect_gives right _ r).bind
    intro _
    exact .ok

theorem more_gives {r ts : List Token} {e : Expr Unit} : (d : More) → (right : Mark .closeParen) →
    (∀ {r}, Ends r → Gives (binary 1 (ts ++ r)) e r) →
    Gives (expressions (ts ++ (d.tokens ++ right.token :: r))) (e :: d.exprs) (right.token :: r)
  | .nil, right, hfirst => by
    rw [expressions, More.tokens, List.nil_append]
    apply (hfirst (ends_mark right (by decide) r)).bind
    intro _
    simp only [at?_tok_ne right (by decide : TokenKind.delimiter .closeParen ≠ .delimiter .comma),
      Bool.false_eq_true, if_false]
    exact .ok
  | .cons comma e rest, right, hfirst => by
    rw [expressions, More.tokens, List.cons_append, List.append_assoc]
    apply (hfirst (ends_mark comma (by decide) _)).bind
    intro _
    rw [if_pos (at?_tok comma _)]
    apply (more_gives rest right fun hend => ladder_gives e (by decide) hend.follows
      (operators_ends hend)).bind
    intro _
    exact .ok

end

theorem expression_gives (d : Expression) {r : List Token} (hr : Ends r) :
    Gives (expression (Phrase.tokens d ++ r)) d.expr r :=
  ladder_gives d (by decide) hr.follows (operators_ends hr)

theorem typeName_gives (d : TypeName) (r : List Token) :
    Gives (typeName (d.token :: r)) d.type r := by
  obtain ⟨t, word, type, hmem, hk⟩ := d
  have htype : Ty.ofToken? t.kind = some type := by
    rw [hk]
    simp only [Grammar.typeWords, List.mem_cons, Prod.mk.injEq, List.not_mem_nil, or_false] at hmem
    rcases hmem with ⟨rfl, rfl⟩ | ⟨rfl, rfl⟩ | ⟨rfl, rfl⟩ | ⟨rfl, rfl⟩ | ⟨rfl, rfl⟩ <;> rfl
  simp only [typeName, htype]
  exact .ok

theorem initializer_gives (d : Option (Tok .assign × Expression)) (stop : Mark .semicolon)
    (r : List Token) :
    Gives (initializer (Phrase.tokens d ++ stop.token :: r)) (d.map fun v => v.2.expr)
      (stop.token :: r) := by
  cases d with
  | none =>
    rw [Grammar.tokens_none, List.nil_append, initializer, at?_tok_ne stop (by decide),
      if_neg Bool.false_ne_true]
    exact .ok
  | some d =>
    obtain ⟨assign, value⟩ := d
    rw [Grammar.tokens_some, Grammar.tokens_pair, Grammar.tokens_tok, List.append_assoc,
      List.singleton_append, initializer, if_pos (at?_tok assign _)]
    apply (expression_gives value (ends_mark stop (by decide) r)).bind
    intro _
    exact .ok

theorem declaration_gives (d : VarDecl) (r : List Token) :
    Gives (declaration (Phrase.tokens d ++ r)) d.stmt r := by
  obtain ⟨word, name, colon, type, value, stop⟩ := d
  have hts : Phrase.tokens (word, name, colon, type, value, stop) ++ r = word.token :: name.token ::
      colon.token :: type.token :: (Phrase.tokens value ++ stop.token :: r) := by simp
  rw [hts]
  unfold declaration
  apply (expect_gives word _ _).bind
  intro _
  apply (expect_gives name _ _).bind
  intro _
  apply (expect_gives colon _ _).bind
  intro _
  apply (typeName_gives type _).bind
  intro _
  apply (initializer_gives value stop r).bind
  intro _
  apply (expect_gives stop _ _).bind
  intro _
  exact .ok

theorem isAssignment_of_head {t : Token} {r : List Token} (h : t.kind ≠ .identifier) :
    isAssignment (t :: r) = false := by
  cases r <;> simp [isAssignment, h]

theorem isAssignment_of_next {t : Token} {r : List Token} (h : at? .assign r = false) :
    isAssignment (t :: r) = false := by
  cases r with
  | nil => rfl
  | cons u r => simpa [isAssignment, at?] using fun _ => by simpa [at?] using h

mutual

theorem ladder_not_assignment {r : List Token} (hr : at? .assign r = false) : {n : Nat} →
    (d : Ladder n) → isAssignment (d.tokens ++ r) = false
  | _, .operand e => unary_not_assignment hr e
  | _, .next e => ladder_not_assignment hr e
  | _, .apply left op right => by
    rw [Ladder.tokens, List.append_assoc]
    apply ladder_not_assignment _ left
    rw [List.cons_append, at?, op.kind_eq]
    rfl

theorem unary_not_assignment {r : List Token} (hr : at? .assign r = false) : (d : Unary) →
    isAssignment (d.tokens ++ r) = false
  | .apply op _ => isAssignment_of_head (by rw [op.kind_eq]; simp)
  | .primary (.constant value) => isAssignment_of_head (startsExpression_constant value).2.2
  | .primary (.name _) => isAssignment_of_next hr
  | .primary (.call _ left _ _) => by
    rw [Unary.tokens, Primary.tokens, List.cons_append, List.cons_append]
    exact isAssignment_of_next (at?_tok_ne left (by decide) _)
  | .primary (.parens left _ _) => isAssignment_of_head (by rw [left.kind_eq]; simp)

end

theorem simple_gives (d : Simple) (what : Expectation) {r : List Token} (hr : Ends r)
    (ha : at? .assign r = false) : Gives (simple what (Phrase.tokens d ++ r)) d.stmt r := by
  cases d with
  | inl d =>
    obtain ⟨name, assign, value⟩ := d
    have hts : Phrase.tokens (.inl (name, assign, value) : Simple) ++ r =
        name.token :: assign.token :: (Phrase.tokens value ++ r) := by simp
    have hassign :
        isAssignment (name.token :: assign.token :: (Phrase.tokens value ++ r)) = true := by
      simp [isAssignment, name.kind_eq, assign.kind_eq]
    rw [hts, simple, if_pos hassign]
    apply (expression_gives value hr).bind
    intro _
    exact .ok
  | inr value =>
    obtain ⟨t, rest, hhead, hstart⟩ := ladder_head value
    have hts : Phrase.tokens value ++ r = t :: (rest ++ r) := congrArg (· ++ r) hhead
    have hnot : isAssignment (Phrase.tokens value ++ r) = false := ladder_not_assignment ha value
    have hvalue := expression_gives value hr
    rw [hts] at hnot hvalue
    rw [Grammar.tokens_inr, hts, simple, if_neg (by rw [hnot]; simp), if_pos hstart]
    apply hvalue.bind
    intro _
    exact .ok

theorem condition_gives (d : Condition) (word : Keyword) (r : List Token) :
    Gives (condition word (Phrase.tokens d ++ r)) d.expr r := by
  obtain ⟨left, cond, right⟩ := d
  have hts : Phrase.tokens (left, cond, right) ++ r =
      left.token :: (Phrase.tokens cond ++ right.token :: r) := by simp
  rw [hts]
  unfold condition
  apply (expect_gives left _ _).bind
  intro _
  apply (expression_gives cond (ends_mark right (by decide) r)).bind
  intro _
  apply (expect_gives right _ _).bind
  intro _
  exact .ok

theorem returnStatement_gives (t : Token) (value : Expression) (stop : Mark .semicolon)
    (r : List Token) :
    Gives (returnStatement t (Phrase.tokens value ++ stop.token :: r)) (.ret t value.expr) r := by
  unfold returnStatement
  apply (expression_gives value (ends_mark stop (by decide) r)).bind
  intro _
  apply (expect_gives stop _ _).bind
  intro _
  exact .ok

theorem printStatement_gives (t : Token) (left : Mark .openParen) (value : Expression)
    (right : Mark .closeParen) (stop : Mark .semicolon) (r : List Token) :
    Gives (printStatement t (left.token :: (Phrase.tokens value ++ right.token :: stop.token :: r)))
      (.print t value.expr) r := by
  unfold printStatement
  apply (expect_gives left _ _).bind
  intro _
  apply (expression_gives value (ends_mark right (by decide) _)).bind
  intro _
  apply (expect_gives right _ _).bind
  intro _
  apply (expect_gives stop _ _).bind
  intro _
  exact .ok

theorem inputStatement_gives (left : Mark .openParen) (name : Name) (right : Mark .closeParen)
    (stop : Mark .semicolon) (r : List Token) :
    Gives (inputStatement (left.token :: name.token :: right.token :: stop.token :: r))
      (.input () name.token name.token.text) r := by
  unfold inputStatement
  apply (expect_gives left _ _).bind
  intro _
  apply (expect_gives name _ _).bind
  intro _
  apply (expect_gives right _ _).bind
  intro _
  apply (expect_gives stop _ _).bind
  intro _
  exact .ok

theorem simpleStatement_gives (d : Simple) (stop : Mark .semicolon) (r : List Token) :
    Gives (simpleStatement (Phrase.tokens d ++ stop.token :: r)) d.stmt r := by
  unfold simpleStatement
  apply (simple_gives d _ (ends_mark stop (by decide) r) (at?_tok_ne stop (by decide) r)).bind
  intro _
  apply (expect_gives stop _ _).bind
  intro _
  exact .ok

theorem simple_head (d : Simple) :
    ∃ t rest, Phrase.tokens d = t :: rest ∧ startsExpression t.kind = true := by
  cases d with
  | inl d => exact ⟨d.1.token, _, rfl, by rw [d.1.kind_eq]; decide⟩
  | inr value => exact ladder_head value

theorem initClause_gives (d : VarDecl ⊕ (Option Simple × Mark .semicolon)) (r : List Token) :
    Gives (initClause (Phrase.tokens d ++ r))
      (d.elim (fun v => some v.stmt) fun s => s.1.map Simple.stmt) r := by
  rcases d with d | ⟨_ | d, stop⟩
  · have hd := declaration_gives d r
    obtain ⟨word, rest⟩ := d
    rw [Grammar.tokens_inl]
    rw [Grammar.tokens_pair, Grammar.tokens_tok, List.singleton_append, List.cons_append] at hd ⊢
    simp only [initClause, word.kind_eq]
    rw [if_neg (by decide), if_pos trivial]
    apply hd.bind
    intro _
    exact .ok
  · have hts : Phrase.tokens
        (.inr (none, stop) : VarDecl ⊕ (Option Simple × Mark .semicolon)) ++ r =
        stop.token :: r := rfl
    rw [hts]
    simp only [initClause, stop.kind_eq]
    exact .ok
  · obtain ⟨t, rest, hhead, hstart⟩ := simple_head d
    have hts : Phrase.tokens (.inr (some d, stop) : VarDecl ⊕ (Option Simple × Mark .semicolon)) ++
        r = Phrase.tokens d ++ stop.token :: r := by simp
    have hd := simple_gives d .headerClause (ends_mark stop (by decide) r)
      (at?_tok_ne stop (by decide) r)
    rw [hts]
    rw [hhead, List.cons_append] at hd ⊢
    simp only [initClause]
    rw [if_neg (ne_of_startsExpression hstart rfl), if_neg (ne_of_startsExpression hstart rfl)]
    apply hd.bind
    intro _
    apply (expect_gives stop _ _).bind
    intro _
    exact .ok

theorem condClause_gives (d : Option Expression) (stop : Mark .semicolon) (r : List Token) :
    Gives (condClause (Phrase.tokens d ++ stop.token :: r)) (d.map Ladder.expr) r := by
  cases d with
  | none =>
    rw [Grammar.tokens_none, List.nil_append, condClause, if_pos (at?_tok stop r)]
    apply (expect_gives stop _ _).bind
    intro _
    exact .ok
  | some cond =>
    obtain ⟨t, rest, hhead, hstart⟩ := ladder_head cond
    have hsemicolon : ¬ at? (.delimiter .semicolon) (Phrase.tokens cond ++ stop.token :: r) =
        true := by
      have hts : Phrase.tokens cond = t :: rest := hhead
      rw [hts, List.cons_append, at?, beq_iff_eq]
      exact ne_of_startsExpression hstart rfl
    rw [Grammar.tokens_some, condClause, if_neg hsemicolon]
    apply (expression_gives cond (ends_mark stop (by decide) r)).bind
    intro _
    apply (expect_gives stop _ _).bind
    intro _
    exact .ok

theorem stepClause_gives (d : Option Simple) (right : Mark .closeParen) (r : List Token) :
    Gives (stepClause (Phrase.tokens d ++ right.token :: r)) (d.map Simple.stmt) r := by
  cases d with
  | none =>
    rw [Grammar.tokens_none, List.nil_append, stepClause, if_pos (at?_tok right r)]
    apply (expect_gives right _ _).bind
    intro _
    exact .ok
  | some step =>
    obtain ⟨t, rest, hhead, hstart⟩ := simple_head step
    have hclose : ¬at? (.delimiter .closeParen) (Phrase.tokens step ++ right.token :: r) := by
      rw [hhead, List.cons_append, at?, beq_iff_eq]
      exact ne_of_startsExpression hstart rfl
    rw [Grammar.tokens_some, stepClause, if_neg hclose]
    have hend := ends_mark right (by decide) r
    apply (simple_gives step _ hend (at?_tok_ne right (by decide) r)).bind
    intro _
    apply (expect_gives right _ _).bind
    intro _
    exact .ok

theorem header_gives (d : Grammar.Header) (r : List Token) :
    Gives (header (Phrase.tokens d ++ r)) ⟨d.init, d.cond, d.step⟩ r := by
  obtain ⟨left, init, ⟨cond, stop⟩, ⟨step, right⟩⟩ := d
  have hts : Phrase.tokens (left, init, (cond, stop), (step, right)) ++ r = left.token ::
      (Phrase.tokens init ++ (Phrase.tokens cond ++ stop.token :: (Phrase.tokens step ++
        right.token :: r))) := by simp
  rw [hts]
  unfold header
  apply (expect_gives left _ _).bind
  intro _
  apply (initClause_gives init _).bind
  intro _
  apply (condClause_gives cond stop _).bind
  intro _
  apply (stepClause_gives step right r).bind
  intro _
  cases init <;> exact .ok

theorem statement_of_starts {t : Token} {rest : List Token} (h : startsExpression t.kind = true) :
    statement t rest = simpleStatement (t :: rest) := by
  rw [statement]
  split
  case h_8 => rfl
  all_goals
    next hk =>
      rw [hk] at h
      cases h

theorem statement_head (d : Statement) : ∃ t rest, d.tokens = t :: rest ∧
    t.kind ≠ .keyword .elseKw ∧ t.kind ≠ .delimiter .closeBrace := by
  cases d with
  | declare d | ret d | print d | input d => exact ⟨d.1.token, _, rfl, by simp [d.1.kind_eq]⟩
  | branch word | loop word | count word => exact ⟨word.token, _, rfl, by simp [word.kind_eq]⟩
  | simple d =>
    obtain ⟨t, rest, hhead, hstart⟩ := simple_head d.1
    refine ⟨t, rest ++ [d.2.token], ?_, ne_of_startsExpression hstart rfl,
      ne_of_startsExpression hstart rfl⟩
    rw [Statement.tokens, ← List.cons_append, ← hhead]
    rfl

theorem body_head (d : Body) (right : Mark .closeBrace) (r : List Token) :
    ∀ t ∈ (d.tokens ++ right.token :: r).head?, t.kind ≠ .keyword .elseKw := by
  intro t ht
  cases d with
  | nil =>
    cases ht
    simp [right.kind_eq]
  | cons first rest =>
    obtain ⟨u, us, hu, helse, -⟩ := statement_head first
    rw [Body.tokens, hu] at ht
    cases ht
    exact helse

mutual

theorem block_gives : (d : Grammar.Block) → (r : List Token) →
    Gives (block (d.tokens ++ r)) ⟨d.brace, d.stmts⟩ r
  | .mk left body right, r => by
    rw [Grammar.Block.tokens, List.cons_append, List.append_assoc, block]
    apply (expect_gives left _ _).bind
    intro _
    apply (body_gives body right r).bind
    intro _
    apply (expect_gives right _ _).bind
    intro _
    exact .ok

theorem body_gives : (d : Body) → (right : Mark .closeBrace) → (r : List Token) →
    Gives (statements (d.tokens ++ right.token :: r)) d.stmts (right.token :: r)
  | .nil, right, r => by
    rw [Body.tokens, List.nil_append, statements, if_pos right.kind_eq]
    exact .ok
  | .cons first rest, right, r => by
    have hmore := body_gives rest right r
    obtain ⟨t, ts, hts, hfirst⟩ := statement_gives first (rest.tokens ++ right.token :: r)
      (body_head rest right r)
    obtain ⟨u, us, hhead, -, hclose⟩ := statement_head first
    have htu : t = u := by
      rw [hhead] at hts
      exact (List.cons.inj hts).1.symm
    rw [Body.tokens, List.append_assoc, hts, statements, if_neg (htu ▸ hclose)]
    apply hfirst.bind
    intro _
    apply hmore.bind
    intro _
    exact .ok

theorem statement_gives : (d : Statement) → (r : List Token) →
    (∀ t ∈ r.head?, t.kind ≠ .keyword .elseKw) →
      ∃ t rest, d.tokens ++ r = t :: rest ∧ Gives (statement t rest) d.stmt r
  | .declare (word, rest), r, _ => by
    refine ⟨word.token, _, rfl, ?_⟩
    rw [statement]
    simp only [word.kind_eq]
    exact declaration_gives (word, rest) r
  | .ret (word, value, stop), r, _ => by
    have hts : (Statement.ret (word, value, stop)).tokens ++ r =
        word.token :: (Phrase.tokens value ++ stop.token :: r) := by simp [Statement.tokens]
    refine ⟨word.token, _, hts, ?_⟩
    rw [statement]
    simp only [word.kind_eq]
    apply (returnStatement_gives word.token value stop r).bind
    intro _
    exact .ok
  | .print (word, left, value, right, stop), r, _ => by
    have hts : (Statement.print (word, left, value, right, stop)).tokens ++ r = word.token ::
        left.token :: (Phrase.tokens value ++ right.token :: stop.token :: r) := by
      simp [Statement.tokens]
    refine ⟨word.token, _, hts, ?_⟩
    rw [statement]
    simp only [word.kind_eq]
    apply (printStatement_gives word.token left value right stop r).bind
    intro _
    exact .ok
  | .input (word, left, name, right, stop), r, _ => by
    refine ⟨word.token, _, rfl, ?_⟩
    rw [statement]
    simp only [word.kind_eq]
    apply (inputStatement_gives left name right stop r).bind
    intro _
    exact .ok
  | .branch word cond body .none, r, hr => by
    have hts : (Statement.branch word cond body .none).tokens ++ r =
        word.token :: (Phrase.tokens cond ++ (body.tokens ++ r)) := by
      simp [Statement.tokens, Else.tokens]
    refine ⟨word.token, _, hts, ?_⟩
    rw [statement]
    simp only [word.kind_eq]
    apply (condition_gives cond _ _).bind
    intro _
    apply (block_gives body r).bind
    intro _
    simp only [at?_of_ne hr, Bool.false_eq_true, if_false]
    exact .ok
  | .branch word cond body (.some elseWord other), r, _ => by
    have hts : (Statement.branch word cond body (.some elseWord other)).tokens ++ r =
        word.token :: (Phrase.tokens cond ++ (body.tokens ++ elseWord.token ::
          (other.tokens ++ r))) := by
      simp [Statement.tokens, Else.tokens]
    refine ⟨word.token, _, hts, ?_⟩
    rw [statement]
    simp only [word.kind_eq]
    apply (condition_gives cond _ _).bind
    intro _
    apply (block_gives body _).bind
    intro _
    rw [if_pos (at?_tok elseWord _)]
    apply (block_gives other r).bind
    intro _
    exact .ok
  | .loop word cond body, r, _ => by
    have hts : (Statement.loop word cond body).tokens ++ r =
        word.token :: (Phrase.tokens cond ++ (body.tokens ++ r)) := by simp [Statement.tokens]
    refine ⟨word.token, _, hts, ?_⟩
    rw [statement]
    simp only [word.kind_eq]
    apply (condition_gives cond _ _).bind
    intro _
    apply (block_gives body r).bind
    intro _
    exact .ok
  | .count word header body, r, _ => by
    have hts : (Statement.count word header body).tokens ++ r =
        word.token :: (Phrase.tokens header ++ (body.tokens ++ r)) := by simp [Statement.tokens]
    refine ⟨word.token, _, hts, ?_⟩
    rw [statement]
    simp only [word.kind_eq]
    apply (header_gives header _).bind
    intro _
    apply (block_gives body r).bind
    intro _
    exact .ok
  | .simple (s, stop), r, _ => by
    obtain ⟨t, rest, hhead, hstart⟩ := simple_head s
    have hs := simpleStatement_gives s stop r
    rw [hhead, List.cons_append] at hs
    refine ⟨t, rest ++ stop.token :: r, ?_, ?_⟩
    · simp [Statement.tokens, hhead]
    · rwa [statement_of_starts hstart]

end

theorem parameter_gives (d : Parameter) (r : List Token) :
    Gives (parameter (Phrase.tokens d ++ r)) d.param r := by
  obtain ⟨name, colon, type⟩ := d
  unfold parameter
  apply (expect_gives name _ _).bind
  intro _
  apply (expect_gives colon _ _).bind
  intro _
  apply (typeName_gives type _).bind
  intro _
  exact .ok

theorem parameters_gives (first : Parameter) (more : List (Mark .comma × Parameter))
    (right : Mark .closeParen) (r : List Token) :
    Gives (parameters (Phrase.tokens first ++ (Phrase.tokens more ++ right.token :: r)))
      (first.param :: more.map fun x => x.2.param) (right.token :: r) := by
  induction more generalizing first with
  | nil =>
    rw [Grammar.tokens_nil, List.nil_append, parameters]
    apply (parameter_gives first _).bind
    intro _
    simp only [at?_tok_ne right (by decide : TokenKind.delimiter .closeParen ≠ .delimiter .comma),
      Bool.false_eq_true, if_false]
    exact .ok
  | cons x more ih =>
    obtain ⟨comma, next⟩ := x
    have hts : Phrase.tokens ((comma, next) :: more) ++ right.token :: r =
        comma.token :: (Phrase.tokens next ++ (Phrase.tokens more ++ right.token :: r)) := by simp
    rw [hts, parameters]
    apply (parameter_gives first _).bind
    intro _
    rw [if_pos (at?_tok comma _)]
    apply (ih next).bind
    intro _
    exact .ok

theorem parameterList_gives (d : Option (Parameter × List (Mark .comma × Parameter)))
    (right : Mark .closeParen) (r : List Token) :
    Gives (parameterList (Phrase.tokens d ++ right.token :: r))
      (d.elim [] fun xs => xs.1.param :: xs.2.map fun x => x.2.param) (right.token :: r) := by
  cases d with
  | none =>
    rw [Grammar.tokens_none, List.nil_append, parameterList, if_pos (at?_tok right r)]
    exact .ok
  | some xs =>
    obtain ⟨⟨name, type⟩, more⟩ := xs
    have hts : Phrase.tokens (some ((name, type), more)) ++ right.token :: r =
        Phrase.tokens (name, type) ++ (Phrase.tokens more ++ right.token :: r) := by simp
    have hclose : ¬ at? (.delimiter .closeParen)
        (Phrase.tokens (name, type) ++ (Phrase.tokens more ++ right.token :: r)) = true := by
      rw [Grammar.tokens_pair, Grammar.tokens_tok, List.singleton_append, List.cons_append,
        at?_tok_ne name (by decide)]
      simp
    rw [hts, parameterList, if_neg hclose]
    apply (parameters_gives (name, type) more right r).bind
    intro _
    exact .ok

theorem function_gives (d : Function) (r : List Token) :
    Gives (function (Phrase.tokens d ++ r)) d.func r := by
  obtain ⟨word, name, left, params, right, colon, result, body⟩ := d
  have hts : Phrase.tokens (word, name, left, params, right, colon, result, body) ++ r =
      word.token :: name.token :: left.token :: (Phrase.tokens params ++ right.token ::
        colon.token :: result.token :: (body.tokens ++ r)) := by
    simp
    rfl
  rw [hts]
  unfold function
  apply (expect_gives word _ _).bind
  intro _
  apply (expect_gives name _ _).bind
  intro _
  apply (expect_gives left _ _).bind
  intro _
  apply (parameterList_gives params right _).bind
  intro _
  apply (expect_gives right _ _).bind
  intro _
  apply (expect_gives colon _ _).bind
  intro _
  apply (typeName_gives result _).bind
  intro _
  apply (block_gives body r).bind
  intro _
  exact .ok

theorem functions_eq_ok (ds : List Function) :
    functions (Phrase.tokens ds) = .ok (ds.map Function.func) := by
  induction ds with
  | nil =>
    rw [Grammar.tokens_nil, functions]
    rfl
  | cons d ds ih =>
    have hd := function_gives d (Phrase.tokens ds)
    obtain ⟨word, rest⟩ := d
    rw [Grammar.tokens_cons]
    rw [Grammar.tokens_pair, Grammar.tokens_tok, List.singleton_append, List.cons_append] at hd ⊢
    obtain ⟨h, hd⟩ := hd
    rw [functions, hd, ok_bind, ih, ok_bind]
    rfl

end MiniSharp.Parser
