import MiniSharp.Proofs.GrammarCompleteness
import MiniSharp.Proofs.ReadingSteps

namespace MiniSharp

namespace Grammar

theorem isName_x : IsName [Text.byte 'x'] :=
  ⟨⟨Text.byte 'x', [], rfl, by decide⟩, List.forall_mem_singleton.mpr (by decide), by decide⟩

instance : Productive Name := productive_tok (.name isName_x)

instance : Productive TypeName :=
  ⟨⟨⟨.keyword .intKw, Keyword.intKw.spelling, .first, none⟩, .intKw, .int, List.mem_cons_self, rfl⟩,
    List.forall_mem_singleton.mpr ⟨_, .keyword .intKw⟩⟩

instance : Productive Unary := by
  obtain ⟨x, hx⟩ := Productive.sample (α := Name)
  exact ⟨.primary (.name x), hx⟩

theorem Productive.ladder : (n : Nat) → Productive (Ladder n)
  | 0 => by
    obtain ⟨e, he⟩ := Productive.sample (α := Unary)
    exact ⟨.operand e, he⟩
  | n + 1 => by
    obtain ⟨e, he⟩ := (Productive.ladder n).sample
    exact ⟨.next e, he⟩

instance (n : Nat) : Productive (Ladder n) := Productive.ladder n

instance : Productive Primary := by
  obtain ⟨x, hx⟩ := Productive.sample (α := Name)
  exact ⟨.name x, hx⟩

instance : Productive Args := ⟨.none, List.forall_mem_nil _⟩

instance : Productive More := ⟨.nil, List.forall_mem_nil _⟩

theorem Ladder.exists_lift {m n : Nat} (h : m ≤ n) (d : Ladder m) :
    ∃ e : Ladder n, e.tokens = d.tokens ∧ e.expr = d.expr := by
  induction h with
  | refl => exact ⟨d, rfl, rfl⟩
  | step _ ih =>
    obtain ⟨e, ht, he⟩ := ih
    exact ⟨.next e, ht, he⟩

def After (D : Type) [Phrase D] (done : List Token) : Type :=
  { d : D // done <+: Phrase.tokens d }

instance {D : Type} [Phrase D] {done : List Token} : Phrase (After D done) :=
  ⟨fun d => (Phrase.tokens d.1).drop done.length⟩

theorem After.append {D : Type} [Phrase D] {done : List Token} (d : After D done) :
    Phrase.tokens d.1 = done ++ Phrase.tokens d := by
  obtain ⟨d, rest, hd⟩ := d
  simp [Phrase.tokens, ← hd]

def After.back {D : Type} [Phrase D] {done w all : List Token} (d : After D all)
    (h : all = done ++ w) : After D done :=
  ⟨d.1, (h ▸ List.prefix_append done w).trans d.2⟩

theorem After.tokens_back {D : Type} [Phrase D] {done w all : List Token} (d : After D all)
    (h : all = done ++ w) : Phrase.tokens (d.back h) = w ++ Phrase.tokens d := by
  have hd : done ++ Phrase.tokens (d.back h) = all ++ Phrase.tokens d :=
    (After.append (d.back h)).symm.trans (After.append d)
  exact List.append_cancel_left
    (hd.trans ((congrArg (· ++ Phrase.tokens d) h).trans (List.append_assoc ..)))

def After.here {D : Type} [Phrase D] (d : D) {done : List Token} (h : Phrase.tokens d = done) :
    After D done :=
  ⟨d, h ▸ List.prefix_rfl⟩

theorem After.tokens_here {D : Type} [Phrase D] (d : D) {done : List Token}
    (h : Phrase.tokens d = done) : Phrase.tokens (After.here d h) = [] := by
  have hd : Phrase.tokens d = done ++ Phrase.tokens (After.here d h) :=
    After.append (After.here d h)
  rw [h] at hd
  exact List.self_eq_append_right.mp hd

theorem productive_after {m n : Nat} (d : Ladder m) (h : m ≤ n) :
    Productive (After (Ladder n) d.tokens) := by
  obtain ⟨e, he, -⟩ := d.exists_lift h
  exact ⟨.here e he, by rw [After.tokens_here]; exact List.forall_mem_nil _⟩

end Grammar

namespace Parser

open Grammar (Phrase Mark Ladder Unary Primary Args More Expression After productive_after)

variable {J : Type}

theorem denotes_of_literal? {t : Token} {value : Literal} (h : literal? t = some (.ok value)) :
    Grammar.Denotes t value := by
  unfold literal? at h
  split at h
  · next hk =>
    split at h
    · next hv =>
      cases h
      exact .int hk hv
    · cases h
  · next hk =>
    split at h
    · next hv =>
      cases h
      exact .float hk hv
    · cases h
  · next hk =>
    cases h
    exact .char hk
  · next hk =>
    cases h
    exact .string hk
  · next hk =>
    cases h
    exact .true hk
  · next hk =>
    cases h
    exact .false hk
  · cases h

theorem literal?_of_form {t t' : Token} (h : t.form = t'.form) : literal? t' = literal? t := by
  have htext : t'.text = t.text := (congrArg Prod.snd h).symm
  unfold literal?
  rw [kind_of_form h, htext]

theorem exists_level {kind : TokenKind} (h : precedence kind ≠ 0) :
    ∃ op n, kind = .operator op ∧ op ∈ Grammar.level (n + 1) ∧ precedence kind + n = 6 := by
  unfold precedence at h ⊢
  split at h
  · exact ⟨.or, 5, rfl, by decide, rfl⟩
  · exact ⟨.and, 4, rfl, by decide, rfl⟩
  · exact ⟨.equal, 3, rfl, by decide, rfl⟩
  · exact ⟨.notEqual, 3, rfl, by decide, rfl⟩
  · exact ⟨.less, 2, rfl, by decide, rfl⟩
  · exact ⟨.greater, 2, rfl, by decide, rfl⟩
  · exact ⟨.lessEqual, 2, rfl, by decide, rfl⟩
  · exact ⟨.greaterEqual, 2, rfl, by decide, rfl⟩
  · exact ⟨.plus, 1, rfl, by decide, rfl⟩
  · exact ⟨.minus, 1, rfl, by decide, rfl⟩
  · exact ⟨.times, 0, rfl, by decide, rfl⟩
  · exact ⟨.divide, 0, rfl, by decide, rfl⟩
  · exact ⟨.modulo, 0, rfl, by decide, rfl⟩
  · exact absurd rfl h

def Stops (least : Nat) (rest : List Token) : Prop :=
  ∀ t ∈ rest.head?, precedence t.kind = 0 ∨ precedence t.kind < least

theorem precedence_le (kind : TokenKind) : precedence kind ≤ 6 := by
  by_cases h : precedence kind = 0
  · omega
  · obtain ⟨_, _, -, -, hp⟩ := exists_level h
    omega

theorem exists_unary {kind : TokenKind} (h : isUnary kind) :
    ∃ op ∈ [Operator.not, .minus], kind = .operator op := by
  simp only [isUnary, Bool.or_eq_true, beq_iff_eq] at h
  obtain h | h := h
  · exact ⟨.not, by decide, h⟩
  · exact ⟨.minus, by decide, h⟩

mutual

theorem binary_reads {J : Type} {least n : Nat} (hn : least + n = 7) (ts : List Token)
    (us : J → List Token) :
    Reads (Ladder n) (fun d v rest => v = d.expr ∧ Stops least rest) ts (binary least ts) us
      fun j => ending (binary least (us j)) := by
  simp only [binary, ending_bind, ending_pure, thenEnding_rest]
  refine (unary_reads ts us).bind (fun (d : Unary) (e : After (Ladder n) d.tokens) => e.1)
    (fun d e => e.append) (fun d => productive_after (.operand d) (Nat.zero_le n)) ?_
  intro left d hd
  have hnext : ∀ t ∈ left.rest.head?, precedence t.kind + 0 ≤ 7 :=
    fun t _ => Nat.le_succ_of_le (precedence_le t.kind)
  exact (operators_reads hn (.operand d) (Nat.zero_le n) hd left.rest hnext _ _).finish
    fun _ _ h => h
termination_by 4 * ts.length + 2
decreasing_by
  · omega
  · have := left.lt
    omega

theorem operators_reads {J : Type} {least m n : Nat} {left : Expr Unit} (hn : least + n = 7)
    (d : Ladder m) (hm : m ≤ n) (hd : left = d.expr) (ts : List Token)
    (hnext : ∀ t ∈ ts.head?, precedence t.kind + m ≤ 7) (us : J → List Token)
    (lefts : J → Expr Unit) :
    Reads (After (Ladder n) d.tokens) (fun e v rest => v = e.1.expr ∧ Stops least rest) ts
      (operators least left ts) us fun j => ending (operators least (lefts j) (us j)) := by
  obtain ⟨all, hall, hexpr⟩ := d.exists_lift hm
  cases ts with
  | nil =>
    rw [operators]
    refine .of_ok (.here all hall) (by rw [After.tokens_here]; rfl) ⟨hd.trans hexpr.symm, ?_⟩ ?_
    · intro t ht
      cases ht
    · intro j u hj
      rw [← hj.eq_right, eq_nil_of_head hj.head, operators]
      rfl
  | cons t rest =>
    rw [operators]
    split
    · next hstop =>
      refine .of_ok (.here all hall) (by rw [After.tokens_here]; rfl) ⟨hd.trans hexpr.symm, ?_⟩ ?_
      · intro t' ht
        cases ht
        exact hstop
      · intro j u hj
        obtain ⟨t', rest', hus, ht⟩ := eq_cons_of_head hj.head
        rw [← hj.eq_right, hus, operators, kind_of_form ht, if_pos hstop]
        rfl
    · next hgo =>
      -- The operator is of a level from that of `d` up to `n`: what is read so far can be lifted to
      -- be its left operand, and the whole is no further up than asked for.
      obtain ⟨op, k, hk, hop, hp⟩ := exists_level (fun h => hgo (.inl h))
      have hle : m ≤ k + 1 := by
        have := hnext t rfl
        omega
      have hkn : k + 1 ≤ n := by omega
      obtain ⟨e, he, hexpr⟩ := d.exists_lift hle
      let apply (right : Ladder k) : Ladder (k + 1) := .apply e ⟨t, op, hop, hk⟩ right
      have happly (right : Ladder k) :
          (apply right).tokens = (d.tokens ++ [t]) ++ right.tokens := by
        rw [← he, List.append_assoc]
        rfl
      refine Reads.cons (fun p => thenEnding (binary (precedence t.kind + 1) p.2.2) fun right =>
          ending (operators least (.binary () p.2.1 t.kind (lefts p.1) right.value) right.rest))
        (fun x : After (Ladder n) (d.tokens ++ [t]) => x.back rfl)
        (fun x => x.tokens_back rfl)
        ((binary_reads (by omega) rest _).bind
          (fun right (x : After (Ladder n) (apply right).tokens) => x.back (happly right))
          (fun right x => x.tokens_back (happly right)) (fun right => productive_after _ hkn) ?_) ?_
      · intro right d' hd'
        refine (operators_reads hn (apply d') hkn ?_ right.rest ?_ _ _).finish fun _ _ h => h
        · rw [hd, hk, hd'.1, ← hexpr]
          rfl
        · intro t' ht'
          have := hd'.2 t' ht'
          omega
      · intro j t' rest' hus ht
        rw [hus, operators, kind_of_form ht, if_neg hgo]
        simp only [ending_bind, ending_pure, thenEnding_rest]
termination_by 4 * ts.length + 3
decreasing_by
  · subst ‹ts = t :: rest›
    simp only [List.length_cons]
    omega
  · have := right.lt
    subst ‹ts = t :: rest›
    simp only [List.length_cons]
    omega

theorem unary_reads {J : Type} (ts : List Token) (us : J → List Token) :
    Reads Unary (fun d v _ => v = d.expr) ts (unary ts) us fun j => ending (unary (us j)) := by
  cases ts with
  | nil =>
    rw [unary]
    refine .fail ?_
    intro j hj
    rw [eq_nil_of_head hj, unary]
    rfl
  | cons t rest =>
    rw [unary]
    split
    · next hu =>
      obtain ⟨op, hop, hk⟩ := exists_unary hu
      refine Reads.cons (fun p => ending (unary p.2.2)) (Unary.apply ⟨t, op, hop, hk⟩)
        (fun _ => rfl) ((unary_reads rest _).finish ?_) ?_
      · intro d r hd
        rw [hd, hk]
        rfl
      · intro j t' rest' hus ht
        rw [hus, unary, kind_of_form ht, if_pos hu]
        simp only [ending_bind, ending_pure, thenEnding_rest]
    · next hu =>
      refine .map Unary.primary (fun _ => rfl) (primary_reads t rest us _ ?_)
      intro j t' rest' hus ht
      rw [hus, unary, kind_of_form ht, if_neg hu]
termination_by 4 * ts.length + 1
decreasing_by
  · simp only [List.length_cons]
    omega
  · simp only [List.length_cons]
    omega

theorem primary_reads {J : Type} (t : Token) (rest : List Token) (us : J → List Token)
    (q : J → Bool × List Token)
    (hq : ∀ j t' rest', us j = t' :: rest' → t.form = t'.form → q j = ending (primary t' rest')) :
    Reads Primary (fun d v _ => v = d.expr) (t :: rest) (primary t rest) us q := by
  rw [primary]
  split
  · next value hv =>
    refine .of_ok (.constant ⟨t, value, denotes_of_literal? hv⟩) rfl rfl ?_
    intro j u hj
    obtain ⟨⟨t', hus, ht⟩, htail⟩ := hj.tail ⟨[], rfl⟩
    rw [hq j t' _ hus ht, primary, literal?_of_form ht, hv, ← htail.eq_right]
    rfl
  · next what hv =>
    refine .fail ?_
    intro j hj
    obtain ⟨t', rest', hus, ht⟩ := eq_cons_of_head hj
    rw [hq j t' _ hus ht, primary, literal?_of_form ht, hv, hus]
    rfl
  · next hv =>
    have hnone {j t' rest'} (hus : us j = t' :: rest') (ht : t.form = t'.form) :
        q j = if t.kind = .identifier then
            if at? (.delimiter .openParen) rest' then ending (arguments rest'.tail)
            else (true, rest')
          else if t.kind = .delimiter .openParen then
            thenEnding (binary 1 rest') fun inner =>
              ending (expect (.delimiter .closeParen) .closeParenthesis inner.rest)
          else (false, t' :: rest') := by
      rw [hq j t' _ hus ht, primary, literal?_of_form ht, hv, kind_of_form ht]
      simp only [apply_ite ending, ending_bind, ending_pure, thenEnding_rest,
        dite_eq_ite]
      rfl
    split
    · next hk =>
      simp only [if_pos hk] at hnone
      split
      · next hopen =>
        refine Reads.cons (fun p => if at? (.delimiter .openParen) p.2.2 then
            ending (arguments p.2.2.tail) else (true, p.2.2))
          (fun d : Mark .openParen × Args × Mark .closeParen =>
            Primary.call ⟨t, hk⟩ d.1 d.2.1 d.2.2)
          (fun _ => rfl) (Reads.congrAt hopen (Reads.taken hopen Prod.mk (fun _ _ => rfl) ?_)
            fun p hp => if_pos hp) (fun j t' rest' hus ht => hnone hus ht)
        intro left
        refine (arguments_reads rest.tail _).finish ?_
        intro d r hd
        rw [hd]
        rfl
      · next hopen =>
        refine .of_ok (.name ⟨t, hk⟩) rfl rfl ?_
        intro j u hj
        obtain ⟨⟨t', hus, ht⟩, htail⟩ := hj.tail ⟨[], rfl⟩
        rw [hnone hus ht, ← htail.eq_right, at?_eq_of_head htail.head, if_neg hopen]
    · next hk =>
      simp only [if_neg hk] at hnone
      split
      · next hopen =>
        refine Reads.cons (fun p => thenEnding (binary 1 p.2.2) fun inner =>
            ending (expect (.delimiter .closeParen) .closeParenthesis inner.rest))
          (fun d : Expression × Mark .closeParen => Primary.parens ⟨t, hopen⟩ d.1 d.2)
          (fun _ => rfl) ((binary_reads rfl rest _).seq ?_) ?_
        · intro inner d hd
          exact (expect_reads _ _ _ _ _).finish fun _ _ _ => hd.1
        · intro j t' rest' hus ht
          rw [hnone hus ht, if_pos hopen]
      · next hopen =>
        refine .fail ?_
        intro j hj
        obtain ⟨t', rest', hus, ht⟩ := eq_cons_of_head hj
        rw [hnone hus ht, if_neg hopen, hus]
termination_by 4 * rest.length + 4
decreasing_by
  · omega
  · have := tail_length_of_at? ‹at? _ rest = true›
    omega

theorem arguments_reads {J : Type} (ts : List Token) (us : J → List Token) :
    Reads (Args × Mark .closeParen) (fun d v _ => v = d.1.exprs) ts (arguments ts) us
      fun j => ending (arguments (us j)) := by
  simp only [arguments, apply_ite ending, ending_bind, ending_pure, thenEnding_rest]
  refine .ifAt ?_ ?_
  · intro h
    cases ts with
    | nil => cases h
    | cons t rest =>
      refine .of_ok (.none, ⟨t, by simpa [at?] using h⟩) rfl rfl ?_
      intro j u hj
      obtain ⟨-, htail⟩ := hj.tail ⟨[], rfl⟩
      rw [← htail.eq_right]
      rfl
  · intro _
    refine (expressions_reads ts us).bind
      (fun (d : Expression × More) (e : Mark .closeParen) => (Args.some d.1 d.2, e))
      (fun _ _ => rfl) (fun _ => inferInstance) ?_
    intro args d hd
    exact (expect_reads _ _ _ _ _).finish fun _ _ _ => hd
termination_by 4 * ts.length + 4
decreasing_by omega

theorem expressions_reads {J : Type} (ts : List Token) (us : J → List Token) :
    Reads (Expression × More) (fun d v _ => v = d.1.expr :: d.2.exprs) ts (expressions ts) us
      fun j => ending (expressions (us j)) := by
  have hend (ts : List Token) : ending (expressions ts) = thenEnding (binary 1 ts) fun first =>
      if at? (.delimiter .comma) first.rest then ending (expressions first.rest.tail)
      else (true, first.rest) := by
    rw [expressions]
    simp only [apply_ite ending, ending_bind, ending_pure, thenEnding_rest]
  rw [expressions]
  simp only [hend (us _)]
  refine (binary_reads rfl ts us).seq ?_
  intro first d hd
  refine .ifAt ?_ ?_
  · intro h
    refine Reads.taken h (fun comma (x : Expression × More) => More.cons comma x.1 x.2)
      (fun _ _ => rfl) ?_
    intro comma
    refine (expressions_reads first.rest.tail _).finish ?_
    intro e r he
    rw [he, hd.1]
    rfl
  · intro _
    refine .of_ok .nil rfl (by rw [hd.1]; rfl) ?_
    intro p u hp
    rw [hp.eq_right]
termination_by 4 * ts.length + 3
decreasing_by
  · omega
  · have := first.lt
    simp only [List.length_tail]
    omega

end

end Parser

end MiniSharp
