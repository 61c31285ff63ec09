import MiniSharp.Program.Parser
import MiniSharp.Proofs.Twins

namespace MiniSharp.Parser

variable {α β γ δ : Type} {k l m n : Nat} {R : TokenPairing}

structure Failure.Twin (R : TokenPairing) (f f' : Failure) : Prop where
  rest : List.Forall₂ R.pairs f.rest f'.rest
  expected : f.expected = f'.expected

structure Read.Twin (R : TokenPairing) (Q : α → β → Prop) (r : Read α m) (r' : Read β n) :
    Prop where
  value : Q r.value r'.value
  rest : List.Forall₂ R.pairs r.rest r'.rest

def InStep (R : TokenPairing) (Q : α → β → Prop) (s : Step α m) (s' : Step β n) : Prop :=
  Parallel (Failure.Twin R) (Read.Twin R Q) s s'

namespace InStep

theorem ok {Q : α → β → Prop} {a : α} {b : β} {ts ts' : List Token} {h : ts.length < m}
    {h' : ts'.length < n} (hq : Q a b) (ht : List.Forall₂ R.pairs ts ts') :
    InStep R Q (.ok ⟨a, ts, h⟩) (.ok ⟨b, ts', h'⟩) := Parallel.ok ⟨hq, ht⟩

theorem error {Q : α → β → Prop} {ts ts' : List Token} {what : Expectation}
    (ht : List.Forall₂ R.pairs ts ts') :
    InStep R Q (.error ⟨ts, what⟩ : Step α m) (.error ⟨ts', what⟩ : Step β n) :=
  Parallel.error ⟨ht, rfl⟩

theorem bind {Q : α → β → Prop} {S : γ → δ → Prop} {s : Step α k} {s' : Step β l}
    {g : Read α k → Step γ m} {g' : Read β l → Step δ n} (hs : InStep R Q s s')
    (hg : ∀ (r : Read α k) (r' : Read β l), Q r.value r'.value →
      List.Forall₂ R.pairs r.rest r'.rest → InStep R S (g r) (g' r')) :
    InStep R S (s >>= g) (s' >>= g') :=
  Parallel.bind hs fun r r' hr => hg r r' hr.value hr.rest

theorem ite {Q : α → β → Prop} {c : Prop} [Decidable c] {s t : Step α m} {s' t' : Step β n}
    (hs : InStep R Q s s') (ht : InStep R Q t t') :
    InStep R Q (if c then s else t) (if c then s' else t') := Parallel.ite hs ht

end InStep

theorem forall₂_tail {r : α → β → Prop} {xs : List α} {ys : List β} (h : List.Forall₂ r xs ys) :
    List.Forall₂ r xs.tail ys.tail := by
  cases h with
  | nil => exact .nil
  | cons _ hr => exact hr

theorem at?_twin (kind : TokenKind) {ts ts' : List Token} (h : List.Forall₂ R.pairs ts ts') :
    at? kind ts = at? kind ts' := by
  cases h with
  | nil => rfl
  | cons ht _ => rw [at?, at?, R.kind ht]

theorem literal?_twin {t t' : Token} (h : R.pairs t t') : literal? t = literal? t' := by
  rw [literal?, literal?, R.kind h, R.text h]

theorem expect_twin (kind : TokenKind) (what : Expectation) {ts ts' : List Token}
    (h : List.Forall₂ R.pairs ts ts') :
    InStep R R.pairs (expect kind what ts) (expect kind what ts') := by
  cases h with
  | nil => exact .error .nil
  | @cons t t' rest rest' ht hr =>
    rw [expect, expect, R.kind ht]
    apply InStep.ite
    · exact .ok ht hr
    · exact .error (.cons ht hr)

mutual

theorem binary_twin (least : Nat) {ts ts' : List Token} (h : List.Forall₂ R.pairs ts ts') :
    InStep R (Expr.Twin R Eq) (binary least ts) (binary least ts') := by
  rw [binary, binary]
  apply (unary_twin h).bind
  intro left left' hl h
  apply (operators_twin least hl h).bind
  intro all all' ha h
  exact .ok ha h
termination_by 4 * ts.length + 2
decreasing_by
  · omega
  · have := left.lt
    omega

theorem operators_twin (least : Nat) {left left' : Expr Unit} (hl : Expr.Twin R Eq left left')
    {ts ts' : List Token} (h : List.Forall₂ R.pairs ts ts') :
    InStep R (Expr.Twin R Eq) (operators least left ts) (operators least left' ts') := by
  cases h with
  | nil =>
    rw [operators, operators]
    exact .ok hl .nil
  | @cons t t' rest rest' ht hr =>
    rw [operators, operators, R.kind ht]
    apply InStep.ite
    · exact .ok hl (.cons ht hr)
    · apply (binary_twin _ hr).bind
      intro right right' hright h
      apply (operators_twin least (.binary rfl ht hl hright) h).bind
      intro all all' ha h
      exact .ok ha h
termination_by 4 * ts.length + 3
decreasing_by
  · simp only [List.length_cons]
    omega
  · have := right.lt
    simp only [List.length_cons]
    omega

theorem unary_twin {ts ts' : List Token} (h : List.Forall₂ R.pairs ts ts') :
    InStep R (Expr.Twin R Eq) (unary ts) (unary ts') := by
  cases h with
  | nil =>
    rw [unary]
    exact .error .nil
  | @cons t t' rest rest' ht hr =>
    rw [unary, unary, R.kind ht]
    apply InStep.ite
    · apply (unary_twin hr).bind
      intro operand operand' ho h
      exact .ok (.unary rfl ht ho) h
    · exact primary_twin ht hr
termination_by 4 * ts.length + 1
decreasing_by
  all_goals
    simp only [List.length_cons]
    omega

theorem primary_twin {t t' : Token} (ht : R.pairs t t') {rest rest' : List Token}
    (h : List.Forall₂ R.pairs rest rest') :
    InStep R (Expr.Twin R Eq) (primary t rest) (primary t' rest') := by
  rw [primary, primary, literal?_twin ht, R.kind ht, R.text ht]
  cases literal? t' with
  | some read =>
    cases read with
    | error what => exact .error (.cons ht h)
    | ok value => exact .ok (.literal rfl ht) h
  | none =>
    apply InStep.ite
    -- The test bounds what is left to read, so it is not a plain `if`: both runs pass it or neither.
    · by_cases hopen : at? (.delimiter .openParen) rest
      · have hlt := tail_length_of_at? hopen
        rw [dif_pos hopen, dif_pos (at?_twin _ h ▸ hopen)]
        apply (arguments_twin (forall₂_tail h)).bind
        intro args args' ha h
        exact .ok (.call rfl ht ha) h
      · rw [dif_neg hopen, dif_neg (at?_twin _ h ▸ hopen)]
        exact .ok (.ident rfl ht) h
    · apply InStep.ite
      · apply (binary_twin 1 h).bind
        intro inner inner' hi h
        apply (expect_twin _ _ h).bind
        intro close close' _ h
        exact .ok hi h
      · exact .error (.cons ht h)
termination_by 4 * rest.length + 4
decreasing_by
  all_goals omega

theorem arguments_twin {ts ts' : List Token} (h : List.Forall₂ R.pairs ts ts') :
    InStep R (Expr.Twins R Eq) (arguments ts) (arguments ts') := by
  rw [arguments, arguments, at?_twin _ h]
  apply InStep.ite
  · exact .ok .nil (forall₂_tail h)
  · apply (expressions_twin h).bind
    intro args args' ha h
    apply (expect_twin _ _ h).bind
    intro close close' _ h
    exact .ok ha h
termination_by 4 * ts.length + 4
decreasing_by omega

theorem expressions_twin {ts ts' : List Token} (h : List.Forall₂ R.pairs ts ts') :
    InStep R (Expr.Twins R Eq) (expressions ts) (expressions ts') := by
  rw [expressions, expressions]
  apply (binary_twin 1 h).bind
  intro first first' hf h
  rw [at?_twin _ h]
  apply InStep.ite
  · apply (expressions_twin (forall₂_tail h)).bind
    intro more more' hm h
    exact .ok (.cons hf hm) h
  · exact .ok (.cons hf .nil) h
termination_by 4 * ts.length + 3
decreasing_by
  · omega
  · have := first.lt
    simp only [List.length_tail]
    omega

end

theorem expression_twin {ts ts' : List Token} (h : List.Forall₂ R.pairs ts ts') :
    InStep R (Expr.Twin R Eq) (expression ts) (expression ts') := binary_twin 1 h

theorem typeName_twin {ts ts' : List Token} (h : List.Forall₂ R.pairs ts ts') :
    InStep R Eq (typeName ts) (typeName ts') := by
  cases h with
  | nil => exact .error .nil
  | @cons t t' rest rest' ht hr =>
    rw [typeName, typeName, R.kind ht]
    cases Ty.ofToken? t'.kind with
    | none => exact .error (.cons ht hr)
    | some type => exact .ok rfl hr

theorem initializer_twin {ts ts' : List Token} (h : List.Forall₂ R.pairs ts ts') :
    InStep R (Option.Rel (Expr.Twin R Eq)) (initializer ts) (initializer ts') := by
  rw [initializer, initializer, at?_twin _ h]
  apply InStep.ite
  · apply (expression_twin (forall₂_tail h)).bind
    intro value value' hv h
    exact .ok (.some hv) h
  · exact .ok .none h

theorem declaration_twin {ts ts' : List Token} (h : List.Forall₂ R.pairs ts ts') :
    InStep R (Stmt.Twin R Eq) (declaration ts) (declaration ts') := by
  unfold declaration
  apply (expect_twin _ _ h).bind
  intro word word' _ h
  apply (expect_twin _ _ h).bind
  intro name name' hn h
  apply (expect_twin _ _ h).bind
  intro colon colon' _ h
  apply (typeName_twin h).bind
  intro type type' hty h
  apply (initializer_twin h).bind
  intro value value' hv h
  apply (expect_twin _ _ h).bind
  intro stop stop' _ h
  rw [R.text hn, hty]
  exact .ok (.declare rfl hn hv) h

theorem isAssignment_twin {ts ts' : List Token} (h : List.Forall₂ R.pairs ts ts') :
    isAssignment ts = isAssignment ts' := by
  cases h with
  | nil => rfl
  | cons ht hr =>
    cases hr with
    | nil => rfl
    | cons ha _ => rw [isAssignment, isAssignment, R.kind ht, R.kind ha]

theorem simple_twin (what : Expectation) {ts ts' : List Token}
    (h : List.Forall₂ R.pairs ts ts') :
    InStep R (Stmt.Twin R Eq) (simple what ts) (simple what ts') := by
  cases h with
  | nil => exact .error .nil
  | @cons t t' rest rest' ht hr =>
    rw [simple, simple, isAssignment_twin (.cons ht hr), R.kind ht, R.text ht]
    apply InStep.ite
    · apply (expression_twin (forall₂_tail hr)).bind
      intro value value' hv h
      exact .ok (.assign rfl ht hv) h
    · apply InStep.ite
      · apply (expression_twin (.cons ht hr)).bind
        intro value value' hv h
        exact .ok (.evaluate hv.token hv) h
      · exact .error (.cons ht hr)

theorem condition_twin (word : Keyword) {ts ts' : List Token}
    (h : List.Forall₂ R.pairs ts ts') :
    InStep R (Expr.Twin R Eq) (condition word ts) (condition word ts') := by
  unfold condition
  apply (expect_twin _ _ h).bind
  intro left left' _ h
  apply (expression_twin h).bind
  intro cond cond' hc h
  apply (expect_twin _ _ h).bind
  intro right right' _ h
  exact .ok hc h

theorem returnStatement_twin {t t' : Token} (ht : R.pairs t t') {ts ts' : List Token}
    (h : List.Forall₂ R.pairs ts ts') :
    InStep R (Stmt.Twin R Eq) (returnStatement t ts) (returnStatement t' ts') := by
  unfold returnStatement
  apply (expression_twin h).bind
  intro value value' hv h
  apply (expect_twin _ _ h).bind
  intro stop stop' _ h
  exact .ok (.ret ht hv) h

theorem printStatement_twin {t t' : Token} (ht : R.pairs t t') {ts ts' : List Token}
    (h : List.Forall₂ R.pairs ts ts') :
    InStep R (Stmt.Twin R Eq) (printStatement t ts) (printStatement t' ts') := by
  unfold printStatement
  apply (expect_twin _ _ h).bind
  intro left left' _ h
  apply (expression_twin h).bind
  intro value value' hv h
  apply (expect_twin _ _ h).bind
  intro right right' _ h
  apply (expect_twin _ _ h).bind
  intro stop stop' _ h
  exact .ok (.print ht hv) h

theorem inputStatement_twin {ts ts' : List Token} (h : List.Forall₂ R.pairs ts ts') :
    InStep R (Stmt.Twin R Eq) (inputStatement ts) (inputStatement ts') := by
  unfold inputStatement
  apply (expect_twin _ _ h).bind
  intro left left' _ h
  apply (expect_twin _ _ h).bind
  intro name name' hn h
  apply (expect_twin _ _ h).bind
  intro right right' _ h
  apply (expect_twin _ _ h).bind
  intro stop stop' _ h
  rw [R.text hn]
  exact .ok (.input rfl hn) h

theorem simpleStatement_twin {ts ts' : List Token} (h : List.Forall₂ R.pairs ts ts') :
    InStep R (Stmt.Twin R Eq) (simpleStatement ts) (simpleStatement ts') := by
  unfold simpleStatement
  rw [isAssignment_twin h]
  apply (simple_twin _ h).bind
  intro stmt stmt' hs h
  apply (expect_twin _ _ h).bind
  intro stop stop' _ h
  exact .ok hs h

theorem initClause_twin {ts ts' : List Token} (h : List.Forall₂ R.pairs ts ts') :
    InStep R (Stmt.TwinClause R Eq) (initClause ts) (initClause ts') := by
  cases h with
  | nil => exact .error .nil
  | @cons t t' rest rest' ht hr =>
    rw [initClause, initClause, R.kind ht]
    apply InStep.ite
    · exact .ok .none hr
    · apply InStep.ite
      · apply (declaration_twin (.cons ht hr)).bind
        intro stmt stmt' hs h
        exact .ok (.some hs) h
      · apply (simple_twin _ (.cons ht hr)).bind
        intro stmt stmt' hs h
        apply (expect_twin _ _ h).bind
        intro stop stop' _ h
        exact .ok (.some hs) h

theorem condClause_twin {ts ts' : List Token} (h : List.Forall₂ R.pairs ts ts') :
    InStep R (Option.Rel (Expr.Twin R Eq)) (condClause ts) (condClause ts') := by
  rw [condClause, condClause, at?_twin _ h]
  apply InStep.ite
  · apply (expect_twin _ _ h).bind
    intro stop stop' _ h
    exact .ok .none h
  · apply (expression_twin h).bind
    intro cond cond' hc h
    apply (expect_twin _ _ h).bind
    intro stop stop' _ h
    exact .ok (.some hc) h

theorem stepClause_twin {ts ts' : List Token} (h : List.Forall₂ R.pairs ts ts') :
    InStep R (Stmt.TwinClause R Eq) (stepClause ts) (stepClause ts') := by
  rw [stepClause, stepClause, at?_twin _ h]
  apply InStep.ite
  · apply (expect_twin _ _ h).bind
    intro close close' _ h
    exact .ok .none h
  · apply (simple_twin _ h).bind
    intro stmt stmt' hs h
    apply (expect_twin _ _ h).bind
    intro close close' _ h
    exact .ok (.some hs) h

structure Header.Twin (R : TokenPairing) (x x' : Header) : Prop where
  init : Stmt.TwinClause R Eq x.init x'.init
  cond : Option.Rel (Expr.Twin R Eq) x.cond x'.cond
  step : Stmt.TwinClause R Eq x.step x'.step

theorem header_twin {ts ts' : List Token} (h : List.Forall₂ R.pairs ts ts') :
    InStep R (Header.Twin R) (header ts) (header ts') := by
  unfold header
  apply (expect_twin _ _ h).bind
  intro left left' _ h
  apply (initClause_twin h).bind
  intro init init' hi h
  apply (condClause_twin h).bind
  intro cond cond' hc h
  apply (stepClause_twin h).bind
  intro step step' hs h
  exact .ok ⟨hi, hc, hs⟩ h

structure Block.Twin (R : TokenPairing) (x x' : Block) : Prop where
  brace : R.pairs x.brace x'.brace
  body : Stmt.Twins R Eq x.body x'.body

mutual

theorem block_twin {ts ts' : List Token} (h : List.Forall₂ R.pairs ts ts') :
    InStep R (Block.Twin R) (block ts) (block ts') := by
  rw [block, block]
  apply (expect_twin _ _ h).bind
  intro left left' hl h
  apply (statements_twin h).bind
  intro body body' hb h
  apply (expect_twin _ _ h).bind
  intro right right' _ h
  exact .ok ⟨hl, hb⟩ h
termination_by 2 * ts.length
decreasing_by
  have := left.lt
  omega

theorem statements_twin {ts ts' : List Token} (h : List.Forall₂ R.pairs ts ts') :
    InStep R (Stmt.Twins R Eq) (statements ts) (statements ts') := by
  cases h with
  | nil =>
    rw [statements]
    exact .ok .nil .nil
  | @cons t t' rest rest' ht hr =>
    rw [statements, statements, R.kind ht]
    apply InStep.ite
    · exact .ok .nil (.cons ht hr)
    · apply (statement_twin ht hr).bind
      intro first first' hf h
      apply (statements_twin h).bind
      intro more more' hm h
      exact .ok (.cons hf hm) h
termination_by 2 * ts.length + 1
decreasing_by
  · simp only [List.length_cons]
    omega
  · have := first.lt
    omega

theorem statement_twin {t t' : Token} (ht : R.pairs t t') {rest rest' : List Token}
    (h : List.Forall₂ R.pairs rest rest') :
    InStep R (Stmt.Twin R Eq) (statement t rest) (statement t' rest') := by
  rw [statement, statement, R.kind ht]
  split
  · exact declaration_twin (.cons ht h)
  · apply (returnStatement_twin ht h).bind
    intro stmt stmt' hs h
    exact .ok hs h
  · apply (printStatement_twin ht h).bind
    intro stmt stmt' hs h
    exact .ok hs h
  · apply (inputStatement_twin h).bind
    intro stmt stmt' hs h
    exact .ok hs h
  · apply (condition_twin _ h).bind
    intro cond cond' hc h
    apply (block_twin h).bind
    intro body body' hb h
    rw [at?_twin _ h]
    apply InStep.ite
    · apply (block_twin (forall₂_tail h)).bind
      intro other other' ho h
      exact .ok (.ifElse ht hc hb.brace hb.body ho.brace ho.body) h
    · exact .ok (.ifThen ht hc hb.brace hb.body) h
  · apply (condition_twin _ h).bind
    intro cond cond' hc h
    apply (block_twin h).bind
    intro body body' hb h
    exact .ok (.whileDo ht hc hb.brace hb.body) h
  · apply (header_twin h).bind
    intro head head' hh h
    apply (block_twin h).bind
    intro body body' hb h
    exact .ok (.forDo ht hh.init hh.cond hh.step hb.brace hb.body) h
  · exact simpleStatement_twin (.cons ht h)
termination_by 2 * rest.length + 2
decreasing_by
  · have := cond.lt
    omega
  · have := cond.lt
    have := body.lt
    simp only [List.length_tail]
    omega
  · have := cond.lt
    omega
  · have := head.lt
    omega

end

theorem parameter_twin {ts ts' : List Token} (h : List.Forall₂ R.pairs ts ts') :
    InStep R (Param.Twin R Eq) (parameter ts) (parameter ts') := by
  unfold parameter
  apply (expect_twin _ _ h).bind
  intro name name' hn h
  apply (expect_twin _ _ h).bind
  intro colon colon' _ h
  apply (typeName_twin h).bind
  intro type type' hty h
  exact .ok ⟨rfl, hn, R.text hn, hty⟩ h

theorem parameters_twin {ts ts' : List Token} (h : List.Forall₂ R.pairs ts ts') :
    InStep R (List.Forall₂ (Param.Twin R Eq)) (parameters ts) (parameters ts') := by
  rw [parameters, parameters]
  apply (parameter_twin h).bind
  intro first first' hf h
  rw [at?_twin _ h]
  apply InStep.ite
  · apply (parameters_twin (forall₂_tail h)).bind
    intro more more' hm h
    exact .ok (.cons hf hm) h
  · exact .ok (.cons hf .nil) h
termination_by ts.length
decreasing_by
  have := first.lt
  simp only [List.length_tail]
  omega

theorem parameterList_twin {ts ts' : List Token} (h : List.Forall₂ R.pairs ts ts') :
    InStep R (List.Forall₂ (Param.Twin R Eq)) (parameterList ts) (parameterList ts') := by
  rw [parameterList, parameterList, at?_twin _ h]
  apply InStep.ite
  · exact .ok .nil h
  · apply (parameters_twin h).bind
    intro params params' hp h
    exact .ok hp h

theorem function_twin {ts ts' : List Token} (h : List.Forall₂ R.pairs ts ts') :
    InStep R (Func.Twin R Eq) (function ts) (function ts') := by
  unfold function
  apply (expect_twin _ _ h).bind
  intro word word' _ h
  apply (expect_twin _ _ h).bind
  intro name name' hn h
  apply (expect_twin _ _ h).bind
  intro left left' _ h
  apply (parameterList_twin h).bind
  intro params params' hp h
  apply (expect_twin _ _ h).bind
  intro right right' _ h
  apply (expect_twin _ _ h).bind
  intro colon colon' _ h
  apply (typeName_twin h).bind
  intro result result' hr h
  apply (block_twin h).bind
  intro body body' hb h
  exact .ok ⟨rfl, hn, R.text hn, hp, hr, hb.brace, hb.body⟩ h

theorem functions_twin {ts ts' : List Token} (h : List.Forall₂ R.pairs ts ts') :
    Parallel (Failure.Twin R) (List.Forall₂ (Func.Twin R Eq)) (functions ts) (functions ts') := by
  cases h with
  | nil =>
    rw [functions]
    exact .ok .nil
  | @cons t t' rest rest' ht hr =>
    rw [functions, functions]
    apply Parallel.bind (function_twin (.cons ht hr))
    intro first first' hf
    apply Parallel.bind (functions_twin hf.rest)
    intro more more' hm
    exact .ok (.cons hf.value hm)
termination_by ts.length
decreasing_by
  have := first.lt
  omega

theorem headD_twin {ts ts' : List Token} (h : List.Forall₂ R.pairs ts ts') {t t' : Token}
    (ht : R.pairs t t') : R.pairs (ts.headD t) (ts'.headD t') := by
  cases h with
  | nil => exact ht
  | cons hh _ => exact hh

theorem Failure.Twin.error {f f' : Failure} (h : Failure.Twin R f f') {eof eof' : Token}
    (he : R.pairs eof eof') : Stop.Twin R (.parse (f.error eof)) (.parse (f'.error eof')) := by
  have ht := headD_twin h.rest he
  simp only [Failure.error, R.kind ht, R.problem ht, h.expected]
  split
  · exact .parse ht
  · exact .parse ht

end MiniSharp.Parser

namespace MiniSharp

structure TokenStream.Twin (R : TokenPairing) (s s' : TokenStream) : Prop where
  tokens : List.Forall₂ R.pairs s.tokens s'.tokens
  eof : R.pairs s.eof s'.eof

theorem TokenStream.Twin.readProgram {R : TokenPairing} {s s' : TokenStream}
    (h : TokenStream.Twin R s s') :
    Parallel (Stop.Twin R) (Program.Twin R Eq) (s.readProgram.1.mapError .parse)
      (s'.readProgram.1.mapError .parse) := by
  unfold TokenStream.readProgram
  obtain ⟨fs, fs', hfs, hfs', hf⟩ | ⟨f, f', hfs, hfs', hf⟩ := (Parser.functions_twin h.tokens).ends
  · rw [hfs, hfs']
    exact .ok ⟨Parser.headD_twin h.tokens h.eof, hf⟩
  · rw [hfs, hfs']
    exact .error (hf.error h.eof)

end MiniSharp
