import MiniSharp.Proofs.ExpressionReading

namespace MiniSharp

namespace Grammar

instance : Productive Body := ⟨.nil, List.forall_mem_nil _⟩

instance : Productive Else := ⟨.none, List.forall_mem_nil _⟩

instance : Productive Block := by
  obtain ⟨left, hleft⟩ := Productive.sample (α := Mark .openBrace)
  obtain ⟨right, hright⟩ := Productive.sample (α := Mark .closeBrace)
  exact ⟨.mk left .nil right, List.forall_mem_append.mpr ⟨hleft, hright⟩⟩

instance : Productive Statement := by
  obtain ⟨d, hd⟩ := Productive.sample (α := Simple × Mark .semicolon)
  exact ⟨.simple d, hd⟩

end Grammar

namespace Parser

open Grammar (Phrase Tok Mark Name TypeName Ladder Expression VarDecl Simple Condition Statement Body
  Else Parameter Function)

variable {J : Type}

theorem expression_reads (ts : List Token) (us : J → List Token) :
    Reads Expression (fun d v _ => v = d.expr) ts (expression ts) us
      fun j => ending (expression (us j)) := by
  have h := @binary_reads J 1 6 rfl ts us
  refine ⟨?_, h.error, h.alike⟩
  intro r hr
  obtain ⟨d, hd, he, -⟩ := h.ok r hr
  exact ⟨d, hd, he⟩

theorem exists_typeWord {kind : TokenKind} {type : Ty} (h : Ty.ofToken? kind = some type) :
    ∃ word, (word, type) ∈ Grammar.typeWords ∧ kind = .keyword word := by
  unfold Ty.ofToken? at h
  split at h <;> cases h
  · exact ⟨.intKw, by simp [Grammar.typeWords], rfl⟩
  · exact ⟨.floatKw, by simp [Grammar.typeWords], rfl⟩
  · exact ⟨.charKw, by simp [Grammar.typeWords], rfl⟩
  · exact ⟨.boolKw, by simp [Grammar.typeWords], rfl⟩
  · exact ⟨.stringKw, by simp [Grammar.typeWords], rfl⟩

theorem typeName_reads (ts : List Token) (us : J → List Token) :
    Reads TypeName (fun d v _ => v = d.type) ts (typeName ts) us
      fun j => ending (typeName (us j)) := by
  cases ts with
  | nil =>
    refine .fail ?_
    intro j hj
    rw [eq_nil_of_head hj]
    rfl
  | cons t rest =>
    rw [typeName]
    split
    · next type htype =>
      obtain ⟨word, hmem, hk⟩ := exists_typeWord htype
      refine .of_ok ⟨t, word, type, hmem, hk⟩ rfl rfl ?_
      intro j u hj
      obtain ⟨⟨t', hus, ht⟩, htail⟩ := hj.tail ⟨[], rfl⟩
      rw [hus, typeName, kind_of_form ht, htype, ← htail.eq_right]
      rfl
    · next hnone =>
      refine .fail ?_
      intro j hj
      obtain ⟨t', rest', hus, ht⟩ := eq_cons_of_head hj
      rw [hus, typeName, kind_of_form ht, hnone]
      rfl

theorem initializer_reads (ts : List Token) (us : J → List Token) :
    Reads (Option (Tok .assign × Expression)) (fun d v _ => v = d.map fun x => x.2.expr) ts
      (initializer ts) us fun j => ending (initializer (us j)) := by
  simp only [initializer, apply_ite ending, ending_bind, ending_pure, thenEnding_rest]
  refine .ifAt ?_ ?_
  · intro h
    refine Reads.taken h (fun t (e : Expression) => some (t, e)) (fun _ _ => rfl) ?_
    intro _
    refine (expression_reads ts.tail _).finish ?_
    intro d r hd
    rw [hd]
    rfl
  · intro _
    refine .of_ok none rfl rfl ?_
    intro j u hj
    rw [← hj.eq_right]
    rfl

theorem declaration_reads (ts : List Token) (us : J → List Token) :
    Reads VarDecl (fun d v _ => v = VarDecl.stmt d) ts (declaration ts) us
      fun j => ending (declaration (us j)) := by
  simp only [declaration, ending_bind, ending_pure, thenEnding_rest]
  refine (expect_reads _ _ ts us _).seq ?_
  intro _ _ _
  refine (expect_reads _ _ _ _ _).seq ?_
  intro name d hname
  refine (expect_reads _ _ _ _ _).seq ?_
  intro _ _ _
  refine (typeName_reads _ _).seq ?_
  intro type e htype
  refine (initializer_reads _ _).seq ?_
  intro value v hvalue
  refine (expect_reads _ _ _ _ _).finish ?_
  intro _ _ _
  rw [hname, htype, hvalue]
  rfl

theorem isAssignment_eq (t : Token) (rest : List Token) :
    isAssignment (t :: rest) = (t.kind == .identifier && at? .assign rest) := by
  cases rest with
  | nil => rw [at?, Bool.and_false]; rfl
  | cons a rest => rfl

theorem expression_takes_name {t : Token} (hk : t.kind = .identifier) (rest : List Token) :
    ∃ x, rest = x ++ (ending (expression (t :: rest))).2 := by
  have hreads := expression_reads (t :: rest) fun _ : Unit => [t]
  obtain ⟨w, hw⟩ := hreads.suffix
  cases w with
  | nil =>
    -- On the name alone the step would leave the name too, but a name is an expression.
    have hleft : (ending (expression (t :: rest))).2 = t :: rest := hw.symm
    have hsame : Alike (t :: rest) (ending (expression (t :: rest))).2 [t] [t] :=
      ⟨⟨[], [], hw, rfl, rfl⟩, by rw [hleft]; rfl⟩
    have hend := hreads.alike () [t] hsame
    obtain ⟨e, he, -⟩ := Ladder.exists_lift (Nat.zero_le 6) (.operand (.primary (.name ⟨t, hk⟩)))
    have hgives := expression_gives e (r := []) (by intro t ht; cases ht)
    have hts : Phrase.tokens e ++ [] = [t] := (List.append_nil _).trans he
    rw [hts] at hgives
    obtain ⟨_, hgives⟩ := hgives
    rw [hgives] at hend
    have hnil : [] = [t] := congrArg Prod.snd hend
    cases hnil
  | cons t' x =>
    exact ⟨x, (List.cons.inj hw).2⟩

theorem startsExpression_identifier : startsExpression .identifier = true := by decide

theorem simple_reads (what : Expectation) (ts : List Token) (us : J → List Token)
    (what' : J → Expectation) :
    Reads Simple (fun d v _ => v = Simple.stmt d) ts (simple what ts) us
      fun j => ending (simple (what' j) (us j)) := by
  cases ts with
  | nil =>
    refine .fail ?_
    intro j hj
    rw [eq_nil_of_head hj]
    rfl
  | cons t rest =>
    have hsimple {j t' rest'} (hus : us j = t' :: rest') (ht : t.form = t'.form) :
        ending (simple (what' j) (us j)) =
          if t.kind = .identifier ∧ at? .assign rest' then ending (expression rest'.tail)
          else if startsExpression t.kind then ending (expression (t' :: rest'))
          else (false, t' :: rest') := by
      rw [hus, simple, isAssignment_eq, kind_of_form ht]
      simp only [apply_ite ending, ending_bind, ending_pure, thenEnding_rest, Bool.and_eq_true,
        beq_iff_eq]
      rfl
    rw [simple, isAssignment_eq]
    split
    · next h =>
      obtain ⟨hk, hassign⟩ : t.kind = .identifier ∧ at? .assign rest = true := by simpa using h
      refine Reads.cons (fun p => if at? .assign p.2.2 then ending (expression p.2.2.tail)
          else ending (expression (p.2.1 :: p.2.2)))
        (fun d : Tok .assign × Expression => Sum.inl (⟨t, hk⟩, d)) (fun _ => rfl)
        (Reads.congrAt hassign (Reads.taken hassign Prod.mk (fun _ _ => rfl) ?_)
          fun p hp => if_pos hp) ?_
      · intro _
        refine (expression_reads rest.tail _).finish ?_
        intro d r hd
        rw [hd]
        rfl
      · intro j t' rest' hus ht
        simp only [hsimple hus ht, hk, true_and, startsExpression_identifier, if_true]
    · next h =>
      have hnot : ¬(t.kind = .identifier ∧ at? .assign rest = true) := by simpa using h
      split
      · next hstarts =>
        refine Reads.congr (Reads.map Sum.inr (fun _ => rfl)
          ((expression_reads (t :: rest) us).finish ?_)) ?_
        · intro d r hd
          rw [hd]
          rfl
        · intro j u hj
          obtain ⟨t', rest', hus, ht⟩ := eq_cons_of_head hj.head
          -- A name is taken, so the token after it is alike in both lists and no equals sign in
          -- the other one either.
          have hnot' : ¬(t.kind = .identifier ∧ at? .assign rest' = true) := by
            rintro ⟨hk, hassign⟩
            rw [ending_bind] at hj
            simp only [ending_pure, thenEnding_rest] at hj
            obtain ⟨-, htail⟩ := hj.tail (expression_takes_name hk rest)
            rw [hus, List.tail_cons] at htail
            exact hnot ⟨hk, (at?_eq_of_head htail.head).symm.trans hassign⟩
          rw [hsimple hus ht, if_neg hnot', if_pos hstarts, hus]
      · next hstarts =>
        refine .fail ?_
        intro j hj
        obtain ⟨t', rest', hus, ht⟩ := eq_cons_of_head hj
        have hk : ¬(t.kind = .identifier ∧ at? .assign rest' = true) := by
          rintro ⟨hk, -⟩
          rw [hk] at hstarts
          exact hstarts startsExpression_identifier
        rw [hsimple hus ht, if_neg hk, if_neg hstarts, hus]

theorem condition_reads (word : Keyword) (ts : List Token) (us : J → List Token) :
    Reads Condition (fun d v _ => v = Condition.expr d) ts (condition word ts) us
      fun j => ending (condition word (us j)) := by
  simp only [condition, ending_bind, ending_pure, thenEnding_rest]
  refine (expect_reads _ _ ts us _).seq ?_
  intro _ _ _
  refine (expression_reads _ _).seq ?_
  intro cond d hcond
  exact (expect_reads _ _ _ _ _).finish fun _ _ _ => hcond

theorem returnStatement_reads (t : Token) (ts : List Token) (us : J → List Token)
    (words : J → Token) :
    Reads (Expression × Mark .semicolon) (fun d v _ => v = .ret t d.1.expr) ts
      (returnStatement t ts) us fun j => ending (returnStatement (words j) (us j)) := by
  simp only [returnStatement, ending_bind, ending_pure, thenEnding_rest]
  refine (expression_reads ts us).seq ?_
  intro value d hvalue
  refine (expect_reads _ _ _ _ _).finish ?_
  intro _ _ _
  rw [hvalue]

theorem printStatement_reads (t : Token) (ts : List Token) (us : J → List Token)
    (words : J → Token) :
    Reads (Mark .openParen × Expression × Mark .closeParen × Mark .semicolon)
      (fun d v _ => v = .print t d.2.1.expr) ts (printStatement t ts) us
      fun j => ending (printStatement (words j) (us j)) := by
  simp only [printStatement, ending_bind, ending_pure, thenEnding_rest]
  refine (expect_reads _ _ ts us _).seq ?_
  intro _ _ _
  refine (expression_reads _ _).seq ?_
  intro value d hvalue
  refine (expect_reads _ _ _ _ _).seq ?_
  intro _ _ _
  refine (expect_reads _ _ _ _ _).finish ?_
  intro _ _ _
  rw [hvalue]

theorem inputStatement_reads (ts : List Token) (us : J → List Token) :
    Reads (Mark .openParen × Name × Mark .closeParen × Mark .semicolon)
      (fun d v _ => v = .input () d.2.1.token d.2.1.token.text) ts (inputStatement ts) us
      fun j => ending (inputStatement (us j)) := by
  simp only [inputStatement, ending_bind, ending_pure, thenEnding_rest]
  refine (expect_reads _ _ ts us _).seq ?_
  intro _ _ _
  refine (expect_reads _ _ _ _ _).seq ?_
  intro name d hname
  refine (expect_reads _ _ _ _ _).seq ?_
  intro _ _ _
  refine (expect_reads _ _ _ _ _).finish ?_
  intro _ _ _
  rw [hname]

theorem simpleStatement_reads (ts : List Token) (us : J → List Token) :
    Reads (Simple × Mark .semicolon) (fun d v _ => v = Simple.stmt d.1) ts (simpleStatement ts) us
      fun j => ending (simpleStatement (us j)) := by
  simp only [simpleStatement, ending_bind, ending_pure, thenEnding_rest]
  refine (simple_reads _ ts us _).seq ?_
  intro stmt d hstmt
  exact (expect_reads _ _ _ _ _).finish fun _ _ _ => hstmt

theorem initClause_reads (ts : List Token) (us : J → List Token) :
    Reads (VarDecl ⊕ (Option Simple × Mark .semicolon))
      (fun d v _ => v = d.elim (fun d => some (VarDecl.stmt d)) fun d => d.1.map Simple.stmt) ts
      (initClause ts) us fun j => ending (initClause (us j)) := by
  cases ts with
  | nil =>
    refine .fail ?_
    intro j hj
    rw [eq_nil_of_head hj]
    rfl
  | cons t rest =>
    have hclause {j t' rest'} (hus : us j = t' :: rest') (ht : t.form = t'.form) :
        ending (initClause (us j)) =
          if t.kind = .delimiter .semicolon then (true, rest')
          else if t.kind = .keyword .varKw then ending (declaration (us j))
          else thenEnding (simple .headerClause (us j)) fun stmt =>
            ending (expect (.delimiter .semicolon) .endOfInitializer stmt.rest) := by
      rw [hus, initClause, kind_of_form ht]
      simp only [apply_ite ending, ending_bind, ending_pure, thenEnding_rest]
      rfl
    rw [initClause]
    split
    · next hk =>
      refine .of_ok (.inr (none, ⟨t, hk⟩)) rfl rfl ?_
      intro j u hj
      obtain ⟨⟨t', hus, ht⟩, htail⟩ := hj.tail ⟨[], rfl⟩
      rw [hclause hus ht, if_pos hk, ← htail.eq_right]
    · next hk =>
      split
      · next hvar =>
        refine Reads.congr (Reads.map Sum.inl (fun _ => rfl)
          ((declaration_reads (t :: rest) us).finish ?_)) ?_
        · intro d r hd
          rw [hd]
          rfl
        · intro j u hj
          obtain ⟨t', rest', hus, ht⟩ := eq_cons_of_head hj.head
          rw [hclause hus ht, if_neg hk, if_pos hvar]
      · next hvar =>
        refine Reads.congr (q := fun j => thenEnding (simple .headerClause (us j)) fun stmt =>
            ending (expect (.delimiter .semicolon) .endOfInitializer stmt.rest))
          ((simple_reads _ (t :: rest) us _).bind
            (fun (d : Simple) (e : Mark .semicolon) => Sum.inr (some d, e)) (fun _ _ => rfl)
            (fun _ => inferInstance) ?_) ?_
        · intro stmt d hstmt
          refine (expect_reads _ _ _ _ _).finish ?_
          intro _ _ _
          rw [hstmt]
          rfl
        · intro j u hj
          obtain ⟨t', rest', hus, ht⟩ := eq_cons_of_head hj.head
          rw [hclause hus ht, if_neg hk, if_neg hvar]

theorem condClause_reads (ts : List Token) (us : J → List Token) :
    Reads (Option Expression × Mark .semicolon) (fun d v _ => v = d.1.map Ladder.expr) ts
      (condClause ts) us fun j => ending (condClause (us j)) := by
  simp only [condClause, apply_ite ending, ending_bind, ending_pure, thenEnding_rest]
  refine .ifAt ?_ ?_
  · intro _
    exact .map (Prod.mk none) (fun _ => rfl) ((expect_reads _ _ ts us _).finish fun _ _ _ => rfl)
  · intro _
    refine (expression_reads ts us).bind (fun (d : Expression) (e : Mark .semicolon) => (some d, e))
      (fun _ _ => rfl) (fun _ => inferInstance) ?_
    intro cond d hcond
    refine (expect_reads _ _ _ _ _).finish ?_
    intro _ _ _
    rw [hcond]
    rfl

theorem stepClause_reads (ts : List Token) (us : J → List Token) :
    Reads (Option Simple × Mark .closeParen) (fun d v _ => v = d.1.map Simple.stmt) ts
      (stepClause ts) us fun j => ending (stepClause (us j)) := by
  simp only [stepClause, apply_ite ending, ending_bind, ending_pure, thenEnding_rest]
  refine .ifAt ?_ ?_
  · intro _
    exact .map (Prod.mk none) (fun _ => rfl) ((expect_reads _ _ ts us _).finish fun _ _ _ => rfl)
  · intro _
    refine (simple_reads _ ts us _).bind (fun (d : Simple) (e : Mark .closeParen) => (some d, e))
      (fun _ _ => rfl) (fun _ => inferInstance) ?_
    intro stmt d hstmt
    refine (expect_reads _ _ _ _ _).finish ?_
    intro _ _ _
    rw [hstmt]
    rfl

theorem header_reads (ts : List Token) (us : J → List Token) :
    Reads Grammar.Header (fun d v _ => v = ⟨Grammar.Header.init d, Grammar.Header.cond d,
      Grammar.Header.step d⟩) ts (header ts) us fun j => ending (header (us j)) := by
  simp only [header, ending_bind, ending_pure, thenEnding_rest]
  refine (expect_reads _ _ ts us _).seq ?_
  intro _ _ _
  refine (initClause_reads _ _).seq ?_
  intro init d hinit
  refine (condClause_reads _ _).seq ?_
  intro cond e hcond
  refine (stepClause_reads _ _).finish ?_
  intro step r hstep
  rw [hinit, hcond, hstep]
  cases d <;> rfl

mutual

theorem block_reads {J : Type} (ts : List Token) (us : J → List Token) :
    Reads Grammar.Block (fun d v _ => v = ⟨d.brace, d.stmts⟩) ts (block ts) us
      fun j => ending (block (us j)) := by
  simp only [block, ending_bind, ending_pure, thenEnding_rest]
  refine .map (fun d : Mark .openBrace × Body × Mark .closeBrace => .mk d.1 d.2.1 d.2.2)
    (fun _ => rfl) ((expect_reads _ _ ts us _).seq ?_)
  intro left d hleft
  refine (statements_reads left.rest _).seq ?_
  intro body e hbody
  refine (expect_reads _ _ _ _ _).finish ?_
  intro _ _ _
  rw [hleft, hbody]
  rfl
termination_by 2 * ts.length
decreasing_by
  have := left.lt
  omega

theorem statements_reads {J : Type} (ts : List Token) (us : J → List Token) :
    Reads Body (fun d v _ => v = d.stmts) ts (statements ts) us
      fun j => ending (statements (us j)) := by
  cases ts with
  | nil =>
    rw [statements]
    refine .of_ok .nil rfl rfl ?_
    intro j u hj
    rw [← hj.eq_right, eq_nil_of_head hj.head, statements]
    rfl
  | cons t rest =>
    rw [statements]
    split
    · next hk =>
      refine .of_ok .nil rfl rfl ?_
      intro j u hj
      obtain ⟨t', rest', hus, ht⟩ := eq_cons_of_head hj.head
      rw [← hj.eq_right, hus, statements, kind_of_form ht, if_pos hk]
      rfl
    · next hk =>
      refine Reads.onCons (fun p => thenEnding (statement p.2.1 p.2.2) fun first =>
          ending (statements first.rest))
        ((statement_reads t rest _ _ ?_).bind Body.cons (fun _ _ => rfl)
          (fun _ => inferInstance) ?_) ?_
      · rintro p t' rest' hus -
        obtain ⟨rfl, rfl⟩ := List.cons.inj hus
        rfl
      · intro first d hfirst
        refine (statements_reads first.rest _).finish ?_
        intro e r he
        rw [hfirst, he]
        rfl
      · intro j t' rest' hus ht
        rw [hus, statements, kind_of_form ht, if_neg hk]
        simp only [ending_bind, ending_pure, thenEnding_rest]
termination_by 2 * ts.length + 1
decreasing_by
  · simp only [List.length_cons]
    omega
  · have := first.lt
    omega

theorem statement_reads {J : Type} (t : Token) (rest : List Token) (us : J → List Token)
    (q : J → Bool × List Token)
    (hq : ∀ j t' rest', us j = t' :: rest' → t.form = t'.form → q j = ending (statement t' rest')) :
    Reads Statement (fun d v _ => v = d.stmt) (t :: rest) (statement t rest) us q := by
  rw [statement]
  split
  · next hk =>
    refine Reads.congr (.map Statement.declare (fun _ => rfl) (declaration_reads (t :: rest) us)) ?_
    intro j u hj
    obtain ⟨t', rest', hus, ht⟩ := eq_cons_of_head hj.head
    rw [hq j t' rest' hus ht, hus, statement, kind_of_form ht, hk]
  · next hk =>
    refine Reads.cons (fun p => ending (returnStatement p.2.1 p.2.2))
      (fun d => .ret (⟨t, hk⟩, d)) (fun _ => rfl)
      ((returnStatement_reads t rest _ _).finish fun _ _ h => h) ?_
    intro j t' rest' hus ht
    rw [hq j t' rest' hus ht, statement, kind_of_form ht, hk]
    simp only [ending_bind, ending_pure, thenEnding_rest]
  · next hk =>
    refine Reads.cons (fun p => ending (printStatement p.2.1 p.2.2))
      (fun d => .print (⟨t, hk⟩, d)) (fun _ => rfl)
      ((printStatement_reads t rest _ _).finish fun _ _ h => h) ?_
    intro j t' rest' hus ht
    rw [hq j t' rest' hus ht, statement, kind_of_form ht, hk]
    simp only [ending_bind, ending_pure, thenEnding_rest]
  · next hk =>
    refine Reads.cons (fun p => ending (inputStatement p.2.2))
      (fun d => .input (⟨t, hk⟩, d)) (fun _ => rfl)
      ((inputStatement_reads rest _).finish fun _ _ h => h) ?_
    intro j t' rest' hus ht
    rw [hq j t' rest' hus ht, statement, kind_of_form ht, hk]
    simp only [ending_bind, ending_pure, thenEnding_rest]
  · next hk =>
    refine Reads.cons (fun p => thenEnding (condition .ifKw p.2.2) fun cond =>
        thenEnding (block cond.rest) fun body =>
          if at? (.keyword .elseKw) body.rest then ending (block body.rest.tail)
          else (true, body.rest))
      (fun d : Condition × Grammar.Block × Else => .branch ⟨t, hk⟩ d.1 d.2.1 d.2.2)
      (fun _ => rfl) ((condition_reads .ifKw rest _).seq ?_) ?_
    · intro cond d hcond
      refine (block_reads cond.rest _).seq ?_
      intro body e hbody
      refine .ifAt ?_ ?_
      · intro helse
        refine Reads.taken helse Else.some (fun _ _ => rfl) ?_
        intro word
        refine (block_reads body.rest.tail _).finish ?_
        intro other r hother
        rw [hcond, hbody, hother]
        rfl
      · intro _
        refine .of_ok .none rfl (by rw [hcond, hbody]; rfl) ?_
        intro p u hp
        rw [hp.eq_right]
    · intro j t' rest' hus ht
      rw [hq j t' rest' hus ht, statement, kind_of_form ht, hk]
      simp only [apply_ite ending, ending_bind, ending_pure, thenEnding_rest]
  · next hk =>
    refine Reads.cons (fun p => thenEnding (condition .whileKw p.2.2) fun cond =>
        ending (block cond.rest))
      (fun d : Condition × Grammar.Block => .loop ⟨t, hk⟩ d.1 d.2)
      (fun _ => rfl) ((condition_reads .whileKw rest _).seq ?_) ?_
    · intro cond d hcond
      refine (block_reads cond.rest _).finish ?_
      intro body r hbody
      rw [hcond, hbody]
      rfl
    · intro j t' rest' hus ht
      rw [hq j t' rest' hus ht, statement, kind_of_form ht, hk]
      simp only [ending_bind, ending_pure, thenEnding_rest]
  · next hk =>
    refine Reads.cons (fun p => thenEnding (header p.2.2) fun head => ending (block head.rest))
      (fun d : Grammar.Header × Grammar.Block => .count ⟨t, hk⟩ d.1 d.2)
      (fun _ => rfl) ((header_reads rest _).seq ?_) ?_
    · intro head d hhead
      refine (block_reads head.rest _).finish ?_
      intro body r hbody
      rw [hhead, hbody]
      rfl
    · intro j t' rest' hus ht
      rw [hq j t' rest' hus ht, statement, kind_of_form ht, hk]
      simp only [ending_bind, ending_pure, thenEnding_rest]
  · refine Reads.congr (.map Statement.simple (fun _ => rfl)
      (simpleStatement_reads (t :: rest) us)) ?_
    intro j u hj
    obtain ⟨t', rest', hus, ht⟩ := eq_cons_of_head hj.head
    rw [hq j t' rest' hus ht, hus, statement, kind_of_form ht]
    split
    case h_8 => rfl
    all_goals contradiction
termination_by 2 * rest.length + 2
decreasing_by
  · have := cond.lt
    omega
  · have := cond.lt
    have := body.lt
    simp only [List.length_tail]
    omega
  · have := cond.lt
    omega
  · have := head.lt
    omega

end

theorem parameter_reads (ts : List Token) (us : J → List Token) :
    Reads Parameter (fun d v _ => v = Parameter.param d) ts (parameter ts) us
      fun j => ending (parameter (us j)) := by
  simp only [parameter, ending_bind, ending_pure, thenEnding_rest]
  refine (expect_reads _ _ ts us _).seq ?_
  intro name d hname
  refine (expect_reads _ _ _ _ _).seq ?_
  intro _ _ _
  refine (typeName_reads _ _).finish ?_
  intro e r he
  rw [hname, he]
  rfl

theorem parameters_reads {J : Type} (ts : List Token) (us : J → List Token) :
    Reads (Parameter × List (Mark .comma × Parameter))
      (fun d v _ => v = Parameter.param d.1 :: d.2.map fun x => Parameter.param x.2) ts
      (parameters ts) us fun j => ending (parameters (us j)) := by
  have hend (ts : List Token) : ending (parameters ts) = thenEnding (parameter ts) fun first =>
      if at? (.delimiter .comma) first.rest then ending (parameters first.rest.tail)
      else (true, first.rest) := by
    rw [parameters]
    simp only [apply_ite ending, ending_bind, ending_pure, thenEnding_rest]
  rw [parameters]
  simp only [hend (us _)]
  refine (parameter_reads ts us).seq ?_
  intro first d hd
  refine .ifAt ?_ ?_
  · intro h
    refine Reads.taken h (fun comma (x : Parameter × List (Mark .comma × Parameter)) =>
      (comma, x.1) :: x.2) (fun _ _ => rfl) ?_
    intro comma
    refine (parameters_reads first.rest.tail _).finish ?_
    intro e r he
    rw [he, hd]
    rfl
  · intro _
    refine .of_ok [] rfl (by rw [hd]; rfl) ?_
    intro p u hp
    rw [hp.eq_right]
termination_by ts.length
decreasing_by
  have := first.lt
  simp only [List.length_tail]
  omega

theorem parameterList_reads (ts : List Token) (us : J → List Token) :
    Reads (Option (Parameter × List (Mark .comma × Parameter)))
      (fun d v _ => v = d.elim [] fun xs =>
        Parameter.param xs.1 :: xs.2.map fun x => Parameter.param x.2) ts
      (parameterList ts) us fun j => ending (parameterList (us j)) := by
  simp only [parameterList, apply_ite ending, ending_bind, ending_pure, thenEnding_rest]
  refine .ifAt ?_ ?_
  · intro _
    refine .of_ok none rfl rfl ?_
    intro j u hj
    rw [← hj.eq_right]
    rfl
  · intro _
    exact .map some (fun _ => rfl) ((parameters_reads ts us).finish fun _ _ h => h)

theorem function_reads (ts : List Token) (us : J → List Token) :
    Reads Function (fun d v _ => v = Function.func d) ts (function ts) us
      fun j => ending (function (us j)) := by
  simp only [function, ending_bind, ending_pure, thenEnding_rest]
  refine (expect_reads _ _ ts us _).seq ?_
  intro _ _ _
  refine (expect_reads _ _ _ _ _).seq ?_
  intro name d hname
  refine (expect_reads _ _ _ _ _).seq ?_
  intro _ _ _
  refine (parameterList_reads _ _).seq ?_
  intro params e hparams
  refine (expect_reads _ _ _ _ _).seq ?_
  intro _ _ _
  refine (expect_reads _ _ _ _ _).seq ?_
  intro _ _ _
  refine (typeName_reads _ _).seq ?_
  intro result f hresult
  refine (block_reads _ _).finish ?_
  intro body r hbody
  rw [hname, hparams, hresult, hbody]
  rfl

def toEnd {α : Type} (x : Except Failure α) : Step α 1 := do
  let a ← x
  return ⟨a, [], Nat.zero_lt_one⟩

theorem toEnd_functions_cons (t : Token) (rest : List Token) :
    toEnd (functions (t :: rest)) = function (t :: rest) >>= fun first => do
      let more ← toEnd (functions first.rest)
      return ⟨first.value :: more.value, more.rest, more.lt⟩ := by
  rw [functions]
  simp only [toEnd, bind_assoc, pure_bind]

theorem functions_reads {J : Type} (ts : List Token) (us : J → List Token) :
    Reads (List Function) (fun d v _ => v = d.map Function.func) ts (toEnd (functions ts)) us
      fun j => ending (toEnd (functions (us j))) := by
  cases ts with
  | nil =>
    rw [functions]
    refine .of_ok [] rfl rfl ?_
    intro j u hj
    rw [← hj.eq_right, eq_nil_of_head hj.head, functions]
    rfl
  | cons t rest =>
    rw [toEnd_functions_cons]
    refine Reads.onCons (fun p => thenEnding (function (p.2.1 :: p.2.2)) fun first =>
        ending (toEnd (functions first.rest)))
      ((function_reads (t :: rest) _).bind List.cons (fun _ _ => rfl)
        (fun _ => inferInstance) ?_) ?_
    · intro first d hfirst
      refine (functions_reads first.rest _).finish ?_
      intro e r he
      rw [hfirst, he]
      rfl
    · intro j t' rest' hus _
      rw [hus, toEnd_functions_cons]
      simp only [ending_bind, ending_pure, thenEnding_rest]
termination_by ts.length
decreasing_by
  have := first.lt
  omega

end Parser

end MiniSharp
