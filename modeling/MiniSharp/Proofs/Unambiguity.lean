import MiniSharp.Proofs.GrammarCompleteness

/-!
The grammar is unambiguous. A piece that is followed by tokens which cannot belong to it is
determined by the tokens, and so is where it ends. Operators of one level associate to the left, so
an expression is a first operand and a list of operators with their right operands.
-/

namespace MiniSharp.Grammar

open MiniSharp.Parser
open Phrase (tokens)

variable {α β : Type} [Phrase α] [Phrase β] {K L : List Token → Prop}

def Sole (K : List Token → Prop) (a : α) : Prop :=
  ∀ a' r r', K r → K r' → tokens a ++ r = tokens a' ++ r' → a = a' ∧ r = r'

namespace Sole

theorem mono {a : α} (h : Sole L a) (hK : ∀ r, K r → L r) : Sole K a :=
  fun a' r r' hr hr' heq => h a' r r' (hK r hr) (hK r' hr') heq

theorem tok {kind : TokenKind} (t : Tok kind) : Sole K t := by
  intro t' r r' _ _ h
  obtain ⟨ht, hr⟩ := List.cons.inj h
  exact ⟨Tok.ext ht, hr⟩

theorem pair {x : α × β} (ha : Sole L x.1) (hb : Sole K x.2)
    (hK : ∀ (b : β) r, K r → L (tokens b ++ r)) : Sole K x := by
  rintro ⟨a', b'⟩ r r' hr hr' h
  rw [← Prod.eta x] at h ⊢
  simp only [tokens_pair, List.append_assoc] at h
  obtain ⟨ha, h⟩ := ha a' _ _ (hK _ _ hr) (hK _ _ hr') h
  obtain ⟨hb, h⟩ := hb b' _ _ hr hr' h
  exact ⟨by rw [ha, hb], h⟩

theorem afterTok {kind : TokenKind} {x : Tok kind × β} (h : Sole K x.2) : Sole K x :=
  (tok x.1).pair (L := fun _ => True) h fun _ _ _ => trivial

theorem option {o : Option α} (ha : ∀ a ∈ o, Sole K a)
    (h : ∀ (a : α) r r', K r' → tokens a ++ r ≠ r') : Sole K o := by
  intro o' r r' hr hr' heq
  cases o with
  | none =>
    cases o' with
    | none => exact ⟨rfl, heq⟩
    | some a' => exact absurd heq.symm (h a' r' r hr)
  | some a =>
    cases o' with
    | none => exact absurd heq (h a r r' hr')
    | some a' =>
      obtain ⟨haa, hrr⟩ := ha a rfl a' r r' hr hr' heq
      exact ⟨congrArg some haa, hrr⟩

theorem sum {x : α ⊕ β} (ha : ∀ a : α, Sole K a) (hb : ∀ b : β, Sole K b)
    (h : ∀ (a : α) (b : β) r r', K r → K r' → tokens a ++ r ≠ tokens b ++ r') : Sole K x := by
  intro x' r r' hr hr' heq
  cases x with
  | inl a =>
    cases x' with
    | inl a' =>
      obtain ⟨haa, hrr⟩ := ha a a' r r' hr hr' heq
      exact ⟨congrArg Sum.inl haa, hrr⟩
    | inr b' => exact absurd heq (h a b' r r' hr hr')
  | inr b =>
    cases x' with
    | inl a' => exact absurd heq.symm (h a' b r' r hr' hr)
    | inr b' =>
      obtain ⟨hbb, hrr⟩ := hb b b' r r' hr hr' heq
      exact ⟨congrArg Sum.inr hbb, hrr⟩

theorem list {l : List α} (ha : ∀ a ∈ l, Sole L a) (hK : ∀ (l : List α) r, K r → L (tokens l ++ r))
    (h : ∀ (a : α) r r', K r' → tokens a ++ r ≠ r') : Sole K l := by
  intro l' r r' hr hr' heq
  induction l generalizing l' with
  | nil =>
    cases l' with
    | nil => exact ⟨rfl, heq⟩
    | cons a' l' =>
      rw [tokens_cons, List.append_assoc] at heq
      exact absurd heq.symm (h a' _ r hr)
  | cons a l ih =>
    cases l' with
    | nil =>
      rw [tokens_cons, List.append_assoc] at heq
      exact absurd heq (h a _ r' hr')
    | cons a' l' =>
      simp only [tokens_cons, List.append_assoc] at heq
      obtain ⟨haa, heq⟩ := ha a List.mem_cons_self a' _ _ (hK _ _ hr) (hK _ _ hr') heq
      obtain ⟨hll, hrr⟩ := ih (fun a ha' => ha a (List.mem_cons_of_mem _ ha')) l' heq
      exact ⟨by rw [haa, hll], hrr⟩

theorem make {b : β} (f : β → α) (hf : ∀ b, tokens (f b) = tokens b) (hb : Sole K b)
    (hform : ∀ a' r r', K r → K r' → tokens (f b) ++ r = tokens a' ++ r' → ∃ b', f b' = a') :
    Sole K (f b) := by
  intro a' r r' hr hr' h
  obtain ⟨b', rfl⟩ := hform a' r r' hr hr' h
  rw [hf, hf] at h
  obtain ⟨hbb, hrr⟩ := hb b' r r' hr hr' h
  exact ⟨congrArg f hbb, hrr⟩

end Sole

instance (ops : List Operator) : Phrase (OneOf ops) := ⟨fun op => [op.token]⟩

theorem OneOf.sole {ops : List Operator} (op : OneOf ops) : Sole K op := by
  intro op' r r' _ _ h
  obtain ⟨t, o, hmem, hk⟩ := op
  obtain ⟨t', o', hmem', hk'⟩ := op'
  obtain ⟨rfl, hr⟩ := List.cons.inj h
  cases hk.symm.trans hk'
  exact ⟨rfl, hr⟩

theorem TypeName.sole (d : TypeName) : Sole K d := by
  intro d' r r' _ _ h
  obtain ⟨t, word, type, hmem, hk⟩ := d
  obtain ⟨t', word', type', hmem', hk'⟩ := d'
  obtain ⟨rfl, hr⟩ := List.cons.inj h
  cases hk.symm.trans hk'
  obtain ⟨_, htype⟩ := typeName_gives ⟨t, word, type, hmem, hk⟩ []
  obtain ⟨_, htype'⟩ := typeName_gives ⟨t, word, type', hmem', hk⟩ []
  cases htype.symm.trans htype'
  exact ⟨rfl, hr⟩

def Ladder.climb {n : Nat} (d : Ladder (n + 1)) (steps : List (OneOf (level (n + 1)) × Ladder n)) :
    Ladder (n + 1) :=
  steps.foldl (fun left x => .apply left x.1 x.2) d

theorem Ladder.tokens_climb {n : Nat} (d : Ladder (n + 1))
    (steps : List (OneOf (level (n + 1)) × Ladder n)) :
    (d.climb steps).tokens = d.tokens ++ Phrase.tokens steps := by
  induction steps generalizing d with
  | nil => exact (List.append_nil _).symm
  | cons x steps ih =>
    have hx : (Ladder.apply d x.1 x.2).tokens = d.tokens ++ Phrase.tokens x := rfl
    rw [climb, List.foldl_cons, ← climb, ih, hx, tokens_cons, List.append_assoc]

def Apart (r : List Token) : Prop := ∀ t ∈ r.head?, t.kind ≠ .delimiter .openParen

def Ladder.Parts : {n : Nat} → Ladder n → Prop
  | _, .operand e => Sole Apart e
  | _, @Ladder.next n e => Sole (Follows (n + 1)) e
  | _, @Ladder.apply n left _ right => Parts left ∧ Sole (Follows (n + 1)) right

theorem Ladder.exists_climb {n : Nat} : (d : Ladder (n + 1)) →
    ∃ e steps, d = (Ladder.next e).climb steps ∧
      (d.Parts → Sole (Follows (n + 1)) e ∧ ∀ x ∈ steps, Sole (Follows (n + 1)) x.2)
  | .next e => ⟨e, [], rfl, fun h => ⟨h, List.forall_mem_nil _⟩⟩
  | .apply left op right => by
    obtain ⟨e, steps, hd, hparts⟩ := exists_climb left
    refine ⟨e, steps ++ [(op, right)], ?_, ?_⟩
    · simp only [hd, climb, List.foldl_append, List.foldl_cons, List.foldl_nil]
    · rintro ⟨hleft, hright⟩
      obtain ⟨he, hsteps⟩ := hparts hleft
      exact ⟨he, List.forall_mem_append.mpr ⟨hsteps, List.forall_mem_singleton.mpr hright⟩⟩

theorem follows_steps {n : Nat} (steps : List (OneOf (level (n + 1)) × Ladder n)) {r : List Token}
    (hr : Follows (n + 2) r) : Follows (n + 1) (tokens steps ++ r) := by
  cases steps with
  | nil => exact hr.below
  | cons x steps => exact follows_operator x.1 (Nat.le_of_eq (precedence_level x.1.mem).2)

theorem steps_sole {n : Nat} {steps : List (OneOf (level (n + 1)) × Ladder n)}
    (h : ∀ x ∈ steps, Sole (Follows (n + 1)) x.2) : Sole (Follows (n + 2)) steps := by
  refine .list (L := Follows (n + 1)) ?_ (fun steps r hr => follows_steps steps hr) ?_
  · intro x hx
    exact x.1.sole.pair (L := fun _ => True) (h x hx) fun _ _ _ => trivial
  · rintro x r r' hr' rfl
    have hlevel := (precedence_level x.1.mem).2
    have hfollow := (hr' x.1.token rfl).2
    rw [x.1.kind_eq] at hfollow
    omega

theorem Ladder.Parts.sole : {n : Nat} → {d : Ladder n} → d.Parts → Sole (Follows (n + 1)) d
  | 0, .operand e, h => by
    rintro ⟨e'⟩ r r' hr hr' heq
    obtain ⟨he, hrr⟩ := h e' r r' (fun t ht => (hr t ht).1) (fun t ht => (hr' t ht).1) heq
    exact ⟨congrArg Ladder.operand he, hrr⟩
  | n + 1, d, h => by
    -- A left operand may be followed by more operators of its own level, so nothing says where it
    -- ends. The first operand of a level below does end, and then the steps are taken one by one.
    obtain ⟨e, steps, rfl, hparts⟩ := d.exists_climb
    obtain ⟨he, hsteps⟩ := hparts h
    have hpair : Sole (Follows (n + 2)) (e, steps) :=
      Sole.pair he (steps_sole hsteps) fun steps r hr => follows_steps steps hr
    refine .make (fun x : Ladder n × List _ => x.1.next.climb x.2)
      (fun x => tokens_climb x.1.next x.2) hpair ?_
    intro d' _ _ _ _ _
    obtain ⟨e', steps', hd', -⟩ := d'.exists_climb
    exact ⟨(e', steps'), hd'.symm⟩

instance : Phrase Constant := ⟨fun c => [c.token]⟩

theorem Constant.sole (c : Constant) : Sole K c := by
  intro c' r r' _ _ h
  obtain ⟨t, value, hd⟩ := c
  obtain ⟨t', value', hd'⟩ := c'
  obtain ⟨rfl, hr⟩ := List.cons.inj h
  cases (literal?_of_denotes hd).symm.trans (literal?_of_denotes hd')
  exact ⟨rfl, hr⟩

theorem follows_mark {mark : Delimiter} (t : Mark mark) (h : mark ≠ .openParen) (r : List Token) :
    Follows 7 (t.token :: r) := by
  intro u hu
  obtain ⟨hopen, hnone⟩ := ends_mark t h r u hu
  exact ⟨hopen, by omega⟩

def Primary.lead : Primary → Option TokenKind
  | .constant _ => none
  | .name _ | .call .. => some .identifier
  | .parens .. => some (.delimiter .openParen)

theorem Primary.exists_head (d : Primary) : ∃ t rest, d.tokens = t :: rest ∧
    isUnary t.kind = false ∧
    (if t.kind ∈ [.identifier, .delimiter .openParen] then some t.kind else none) = d.lead := by
  cases d with
  | constant c =>
    refine ⟨c.token, [], rfl, (startsExpression_constant c).2.1, if_neg ?_⟩
    obtain ⟨t, value, h⟩ := c
    cases h with
    | int hk | float hk | char hk | string hk | true hk | false hk => simp only [hk]; decide
  | name name | call name =>
    refine ⟨name.token, _, rfl, ?_⟩
    rw [name.kind_eq]
    exact ⟨rfl, rfl⟩
  | parens left =>
    refine ⟨left.token, _, rfl, ?_⟩
    rw [left.kind_eq]
    exact ⟨rfl, rfl⟩

theorem Primary.lead_eq {d d' : Primary} {r r' : List Token} (h : tokens d ++ r = tokens d' ++ r') :
    d.lead = d'.lead := by
  obtain ⟨t, rest, ht, -, hlead⟩ := d.exists_head
  obtain ⟨t', rest', ht', -, hlead'⟩ := d'.exists_head
  have heq : t = t' := by
    change d.tokens ++ r = d'.tokens ++ r' at h
    rw [ht, ht'] at h
    exact (List.cons.inj h).1
  rw [← hlead, ← hlead', heq]

theorem Primary.ne_unary (d : Primary) (op : OneOf [.not, .minus]) (r r' : List Token) :
    d.tokens ++ r ≠ op.token :: r' := by
  obtain ⟨t, rest, ht, hunary, -⟩ := d.exists_head
  intro h
  rw [ht] at h
  obtain ⟨rfl, -⟩ := List.cons.inj h
  rw [isUnary_operator op] at hunary
  cases hunary

def Closed (r : List Token) : Prop := at? (.delimiter .closeParen) r = true

theorem Ladder.not_closed {n : Nat} (d : Ladder n) (r : List Token) : ¬Closed (d.tokens ++ r) := by
  obtain ⟨t, rest, ht, hstarts⟩ := ladder_head d
  rw [Closed, ht, List.cons_append, at?, beq_iff_eq]
  exact ne_of_startsExpression hstarts rfl

theorem follows_more (d : More) {r : List Token} (hr : Closed r) : Follows 7 (tokens d ++ r) := by
  cases d with
  | nil =>
    cases r with
    | nil => cases hr
    | cons t r => exact follows_mark ⟨t, by simpa [Closed, at?] using hr⟩ (by decide) r
  | cons comma e rest => exact follows_mark comma (by decide) _

mutual

theorem Ladder.parts : {n : Nat} → (d : Ladder n) → d.Parts
  | _, .operand e => e.sole
  | _, .next e => e.parts.sole
  | _, .apply left _ right => ⟨left.parts, right.parts.sole⟩

theorem Unary.sole : (d : Unary) → Sole Apart d
  | .apply op operand => by
    have hparts : Sole Apart (op, operand) :=
      .pair (L := fun _ => True) op.sole operand.sole fun _ _ _ => trivial
    refine .make (fun x : OneOf [.not, .minus] × Unary => Unary.apply x.1 x.2) (fun _ => rfl)
      hparts ?_
    intro d' r r' _ _ h
    cases d' with
    | apply op' operand' => exact ⟨(op', operand'), rfl⟩
    | primary e' => exact absurd h.symm (e'.ne_unary op r' _)
  | .primary e => by
    refine .make Unary.primary (fun _ => rfl) e.sole ?_
    intro d' r r' _ _ h
    cases d' with
    | apply op' operand' => exact absurd h (e.ne_unary op' r _)
    | primary e' => exact ⟨e', rfl⟩

theorem Primary.sole : (d : Primary) → Sole Apart d
  | .constant c => by
    refine .make Primary.constant (fun _ => rfl) c.sole ?_
    intro d' r r' _ _ h
    have hlead := Primary.lead_eq h
    cases d' with
    | constant c' => exact ⟨c', rfl⟩
    | _ => cases hlead
  | .name name => by
    refine .make Primary.name (fun _ => rfl) (.tok name) ?_
    intro d' r r' hr _ h
    have hlead := Primary.lead_eq h
    cases d' with
    | name name' => exact ⟨name', rfl⟩
    | call name' left' =>
      obtain ⟨-, rfl⟩ := List.cons.inj h
      exact absurd left'.kind_eq (hr left'.token rfl)
    | _ => cases hlead
  | .call name left args right => by
    have hparts : Sole Apart (name, left, args, right) :=
      .afterTok (.afterTok (.pair args.sole (.tok right) fun right r _ => at?_tok right r))
    refine .make (fun x : Name × Mark .openParen × Args × Mark .closeParen =>
      Primary.call x.1 x.2.1 x.2.2.1 x.2.2.2) (fun _ => rfl) hparts ?_
    intro d' r r' _ hr' h
    have hlead := Primary.lead_eq h
    cases d' with
    | name name' =>
      obtain ⟨-, rfl⟩ := List.cons.inj h
      exact absurd left.kind_eq (hr' left.token rfl)
    | call name' left' args' right' => exact ⟨(name', left', args', right'), rfl⟩
    | _ => cases hlead
  | .parens left e right => by
    have hparts : Sole Apart (left, e, right) :=
      .afterTok (.pair e.parts.sole (.tok right) fun right r _ => follows_mark right (by decide) r)
    refine .make (fun x : Mark .openParen × Expression × Mark .closeParen =>
      Primary.parens x.1 x.2.1 x.2.2) (fun _ => rfl) hparts ?_
    intro d' r r' _ _ h
    have hlead := Primary.lead_eq h
    cases d' with
    | parens left' e' right' => exact ⟨(left', e', right'), rfl⟩
    | _ => cases hlead

theorem Args.sole : (d : Args) → Sole Closed d
  | .none => by
    intro d' r r' hr _ h
    cases d' with
    | none => exact ⟨rfl, h⟩
    | some first' more' =>
      obtain rfl : r = first'.tokens ++ (more'.tokens ++ r') := h.trans (List.append_assoc ..)
      exact absurd hr (first'.not_closed _)
  | .some first more => by
    have hparts : Sole Closed (first, more) :=
      .pair first.parts.sole more.sole fun more r hr => follows_more more hr
    refine .make (fun x : Expression × More => Args.some x.1 x.2) (fun _ => rfl) hparts ?_
    intro d' r r' _ hr' h
    cases d' with
    | none =>
      obtain rfl : first.tokens ++ (more.tokens ++ r) = r' := (List.append_assoc ..).symm.trans h
      exact absurd hr' (first.not_closed _)
    | some first' more' => exact ⟨(first', more'), rfl⟩

theorem More.sole : (d : More) → Sole Closed d
  | .nil => by
    intro d' r r' hr _ h
    cases d' with
    | nil => exact ⟨rfl, h⟩
    | cons comma' e' rest' =>
      obtain rfl : r = _ := h
      cases hr.symm.trans (at?_tok_ne comma' (by decide) _)
  | .cons comma e rest => by
    have hparts : Sole Closed (comma, e, rest) :=
      .afterTok (.pair e.parts.sole rest.sole fun more r hr => follows_more more hr)
    refine .make (fun x : Mark .comma × Expression × More => More.cons x.1 x.2.1 x.2.2)
      (fun _ => rfl) hparts ?_
    intro d' r r' _ hr' h
    cases d' with
    | nil =>
      obtain rfl : _ = r' := h
      cases hr'.symm.trans (at?_tok_ne comma (by decide) _)
    | cons comma' e' rest' => exact ⟨(comma', e', rest'), rfl⟩

end

theorem Ladder.sole {n : Nat} (d : Ladder n) : Sole (Follows (n + 1)) d := d.parts.sole

def Done (r : List Token) : Prop :=
  ∃ mark, (mark = .semicolon ∨ mark = .closeParen) ∧
    ∃ (t : Mark mark) (rest : List Token), r = t.token :: rest

theorem done_semicolon (t : Mark .semicolon) (rest : List Token) : Done (t.token :: rest) :=
  ⟨_, .inl rfl, t, rest, rfl⟩

theorem done_closeParen (t : Mark .closeParen) (rest : List Token) : Done (t.token :: rest) :=
  ⟨_, .inr rfl, t, rest, rfl⟩

theorem Done.follows {r : List Token} (h : Done r) : Follows 7 r := by
  obtain ⟨mark, hmark, t, rest, rfl⟩ := h
  apply follows_mark t
  rintro rfl
  cases hmark <;> contradiction

theorem Done.not_assign {r : List Token} (h : Done r) : at? .assign r = false := by
  obtain ⟨mark, -, t, rest, rfl⟩ := h
  exact at?_tok_ne t (by simp) rest

theorem Done.not_starts {r : List Token} (h : Done r) :
    ∀ t ∈ r.head?, startsExpression t.kind = false := by
  obtain ⟨mark, rfl | rfl, t, rest, rfl⟩ := h
  all_goals
    intro u hu
    cases hu
    rw [t.kind_eq]
    rfl

theorem initializer_sole (d : Option (Tok .assign × Expression)) : Sole Done d := by
  refine .option (fun x _ => .afterTok (x.2.sole.mono fun _ => Done.follows)) ?_
  rintro x r r' hr' rfl
  cases hr'.not_assign.symm.trans (at?_tok x.1 _)

theorem varDecl_sole (d : VarDecl) : Sole K d :=
  .afterTok (.afterTok (.afterTok (.pair (L := fun _ => True) d.2.2.2.1.sole
    (.pair (initializer_sole _) (.tok _) fun stop r _ => done_semicolon stop r)
    fun _ _ _ => trivial)))

theorem simple_sole (d : Simple) : Sole Done d := by
  refine .sum (fun x => .afterTok (.afterTok (x.2.2.sole.mono fun _ => Done.follows)))
    (fun e => e.sole.mono fun _ => Done.follows) ?_
  intro x e r r' _ hr' h
  -- An expression may start with a name as an assignment does; the second token tells them apart.
  have hnot := ladder_not_assignment hr'.not_assign e
  have hassign : isAssignment (tokens x ++ r) = true := by
    change isAssignment (x.1.token :: x.2.1.token :: _) = true
    simp [isAssignment, x.1.kind_eq, x.2.1.kind_eq]
  rw [h] at hassign
  cases hnot.symm.trans hassign

theorem condition_sole (d : Condition) : Sole K d :=
  .afterTok (.pair d.2.1.sole (.tok _) fun right r _ => follows_mark right (by decide) r)

theorem clause_sole (d : Option Simple) : Sole Done d := by
  refine .option (fun x _ => simple_sole x) ?_
  rintro x r r' hr' rfl
  obtain ⟨t, rest, ht, hstarts⟩ := simple_head x
  have hnot := hr'.not_starts t (by rw [ht]; rfl)
  cases hnot.symm.trans hstarts

theorem condClause_sole (d : Option Expression) : Sole Done d := by
  refine .option (fun x _ => x.sole.mono fun _ => Done.follows) ?_
  rintro x r r' hr' rfl
  obtain ⟨t, rest, ht, hstarts⟩ := ladder_head x
  have hnot := hr'.not_starts t (by rw [show tokens x = t :: rest from ht]; rfl)
  cases hnot.symm.trans hstarts

theorem initClause_sole (d : VarDecl ⊕ (Option Simple × Mark .semicolon)) : Sole K d := by
  refine .sum varDecl_sole
    (fun x => .pair (clause_sole _) (.tok _) fun stop r _ => done_semicolon stop r) ?_
  rintro d ⟨s, stop⟩ r r' - - h
  have hvar : at? (.keyword .varKw) (tokens d ++ r) = true := at?_tok d.1 _
  rw [h] at hvar
  cases s with
  | none => cases hvar.symm.trans (at?_tok_ne stop (by decide) r')
  | some s =>
    obtain ⟨t, rest, ht, hstarts⟩ := simple_head s
    rw [tokens_pair, tokens_some, ht, List.cons_append, List.cons_append, at?, beq_iff_eq] at hvar
    exact ne_of_startsExpression hstarts rfl hvar

theorem header_sole (d : Header) : Sole K d := by
  refine .afterTok (.pair (L := fun _ => True) (initClause_sole _) (.pair (L := fun _ => True)
    (.pair (condClause_sole _) (.tok _) fun stop r _ => done_semicolon stop r)
    (.pair (clause_sole _) (.tok _) fun right r _ => done_closeParen right r) ?_) ?_)
  · intro _ _ _
    trivial
  · intro _ _ _
    trivial

def statementWords : List Keyword :=
  [.varKw, .returnKw, .printKw, .inputKw, .ifKw, .whileKw, .forKw]

def Statement.word : Statement → Option Keyword
  | .declare _ => some .varKw
  | .ret _ => some .returnKw
  | .print _ => some .printKw
  | .input _ => some .inputKw
  | .branch .. => some .ifKw
  | .loop .. => some .whileKw
  | .count .. => some .forKw
  | .simple _ => none

theorem startsExpression_word :
    ∀ word ∈ statementWords, startsExpression (.keyword word) = false := by decide

theorem Statement.exists_head (d : Statement) : ∃ t rest, d.tokens = t :: rest ∧
    statementWords.find? (fun word => t.kind = .keyword word) = d.word := by
  cases d with
  | declare d | ret d | print d | input d =>
    refine ⟨d.1.token, _, rfl, ?_⟩
    rw [d.1.kind_eq]
    rfl
  | branch word | loop word | count word =>
    refine ⟨word.token, _, rfl, ?_⟩
    rw [word.kind_eq]
    rfl
  | simple d =>
    obtain ⟨t, rest, ht, hstarts⟩ := simple_head d.1
    refine ⟨t, rest ++ Phrase.tokens d.2, ?_, ?_⟩
    · rw [← List.cons_append, ← ht]
      rfl
    · rw [Statement.word, List.find?_eq_none]
      intro word hword hk
      exact ne_of_startsExpression hstarts (startsExpression_word word hword) (by simpa using hk)

theorem Statement.word_eq {d d' : Statement} {r r' : List Token}
    (h : tokens d ++ r = tokens d' ++ r') : d.word = d'.word := by
  obtain ⟨t, rest, ht, hword⟩ := d.exists_head
  obtain ⟨t', rest', ht', hword'⟩ := d'.exists_head
  have heq : t = t' := by
    change d.tokens ++ r = d'.tokens ++ r' at h
    rw [ht, ht'] at h
    exact (List.cons.inj h).1
  rw [← hword, ← hword', heq]

def Lone (r : List Token) : Prop := at? (.keyword .elseKw) r = false

def Braced (r : List Token) : Prop := at? (.delimiter .closeBrace) r = true

theorem lone_body (d : Body) {r : List Token} (hr : Braced r) : Lone (tokens d ++ r) := by
  cases r with
  | nil => cases hr
  | cons t r => exact at?_of_ne (body_head d ⟨t, by simpa [Braced, at?] using hr⟩ r)

theorem Statement.not_braced (d : Statement) (r : List Token) : ¬Braced (d.tokens ++ r) := by
  obtain ⟨t, rest, ht, -, hbrace⟩ := statement_head d
  rw [Braced, ht, List.cons_append, at?, beq_iff_eq]
  exact hbrace

theorem Statement.sole_of_word {b : β} (f : β → Statement)
    (hf : ∀ b, Phrase.tokens (f b) = Phrase.tokens b) (hb : Sole Lone b)
    (hform : ∀ d', (f b).word = d'.word → ∃ b', f b' = d') : Sole Lone (f b) :=
  .make f hf hb fun d' _ _ _ _ h => hform d' (word_eq h)

mutual

theorem Statement.sole : (d : Statement) → Sole Lone d
  | .declare d => by
    refine Statement.sole_of_word Statement.declare (fun _ => rfl) (varDecl_sole d) ?_
    intro d' hword
    cases d' with
    | declare d' => exact ⟨d', rfl⟩
    | _ => cases hword
  | .ret d => by
    refine Statement.sole_of_word Statement.ret (fun _ => rfl) (.afterTok (.pair d.2.1.sole (.tok _)
      fun stop r _ => follows_mark stop (by decide) r)) ?_
    intro d' hword
    cases d' with
    | ret d' => exact ⟨d', rfl⟩
    | _ => cases hword
  | .print d => by
    refine Statement.sole_of_word Statement.print (fun _ => rfl) (.afterTok (.afterTok
      (.pair d.2.2.1.sole (.afterTok (.tok _)) fun x _ _ => follows_mark x.1 (by decide) _))) ?_
    intro d' hword
    cases d' with
    | print d' => exact ⟨d', rfl⟩
    | _ => cases hword
  | .input d => by
    refine Statement.sole_of_word Statement.input (fun _ => rfl)
      (.afterTok (.afterTok (.afterTok (.afterTok (.tok _))))) ?_
    intro d' hword
    cases d' with
    | input d' => exact ⟨d', rfl⟩
    | _ => cases hword
  | .branch word cond body other => by
    have hparts : Sole Lone (word, cond, body, other) := .afterTok (.pair (L := fun _ => True)
      (condition_sole cond) (.pair body.sole other.sole fun _ _ _ => trivial) fun _ _ _ => trivial)
    refine Statement.sole_of_word (fun x : Word .ifKw × Condition × Block × Else =>
      Statement.branch x.1 x.2.1 x.2.2.1 x.2.2.2) (fun _ => rfl) hparts ?_
    intro d' hword
    cases d' with
    | branch word' cond' body' other' => exact ⟨(word', cond', body', other'), rfl⟩
    | _ => cases hword
  | .loop word cond body => by
    have hparts : Sole Lone (word, cond, body) := .afterTok (.pair (L := fun _ => True)
      (condition_sole cond) (body.sole.mono fun _ _ => trivial) fun _ _ _ => trivial)
    refine Statement.sole_of_word (fun x : Word .whileKw × Condition × Block =>
      Statement.loop x.1 x.2.1 x.2.2) (fun _ => rfl) hparts ?_
    intro d' hword
    cases d' with
    | loop word' cond' body' => exact ⟨(word', cond', body'), rfl⟩
    | _ => cases hword
  | .count word header body => by
    have hparts : Sole Lone (word, header, body) := .afterTok (.pair (L := fun _ => True)
      (header_sole header) (body.sole.mono fun _ _ => trivial) fun _ _ _ => trivial)
    refine Statement.sole_of_word (fun x : Word .forKw × Header × Block =>
      Statement.count x.1 x.2.1 x.2.2) (fun _ => rfl) hparts ?_
    intro d' hword
    cases d' with
    | count word' header' body' => exact ⟨(word', header', body'), rfl⟩
    | _ => cases hword
  | .simple d => by
    refine Statement.sole_of_word Statement.simple (fun _ => rfl)
      (.pair (simple_sole d.1) (.tok _) fun stop r _ => done_semicolon stop r) ?_
    intro d' hword
    cases d' with
    | simple d' => exact ⟨d', rfl⟩
    | _ => cases hword

theorem Block.sole : (d : Block) → Sole (fun _ => True) d
  | .mk left body right => by
    have hparts : Sole (fun _ => True) (left, body, right) :=
      .afterTok (.pair body.sole (.tok right) fun right r _ => at?_tok right r)
    refine .make (fun x : Mark .openBrace × Body × Mark .closeBrace => Block.mk x.1 x.2.1 x.2.2)
      (fun _ => rfl) hparts ?_
    rintro ⟨left', body', right'⟩ r r' - - -
    exact ⟨(left', body', right'), rfl⟩

theorem Body.sole : (d : Body) → Sole Braced d
  | .nil => by
    intro d' r r' hr _ h
    cases d' with
    | nil => exact ⟨rfl, h⟩
    | cons first' rest' =>
      obtain rfl : r = first'.tokens ++ (rest'.tokens ++ r') := h.trans (List.append_assoc ..)
      exact absurd hr (first'.not_braced _)
  | .cons first rest => by
    have hparts : Sole Braced (first, rest) :=
      .pair first.sole rest.sole fun rest r hr => lone_body rest hr
    refine .make (fun x : Statement × Body => Body.cons x.1 x.2) (fun _ => rfl) hparts ?_
    intro d' r r' _ hr' h
    cases d' with
    | nil =>
      obtain rfl : first.tokens ++ (rest.tokens ++ r) = r' := (List.append_assoc ..).symm.trans h
      exact absurd hr' (first.not_braced _)
    | cons first' rest' => exact ⟨(first', rest'), rfl⟩

theorem Else.sole : (d : Else) → Sole Lone d
  | .none => by
    intro d' r r' hr _ h
    cases d' with
    | none => exact ⟨rfl, h⟩
    | some word' body' =>
      obtain rfl : r = _ := h
      cases hr.symm.trans (at?_tok word' _)
  | .some word body => by
    have hparts : Sole Lone (word, body) := .afterTok (body.sole.mono fun _ _ => trivial)
    refine .make (fun x : Word .elseKw × Block => Else.some x.1 x.2) (fun _ => rfl) hparts ?_
    intro d' r r' _ hr' h
    cases d' with
    | none =>
      obtain rfl : _ = r' := h
      cases hr'.symm.trans (at?_tok word _)
    | some word' body' => exact ⟨(word', body'), rfl⟩

end

theorem parameter_sole (d : Parameter) : Sole K d := .afterTok (.afterTok d.2.2.sole)

theorem parameters_sole (d : Option (Parameter × List (Mark .comma × Parameter))) :
    Sole Closed d := by
  refine .option (fun x _ => .pair (L := fun _ => True) (parameter_sole x.1)
    (.list (L := fun _ => True) (fun y _ => .afterTok (parameter_sole y.2)) ?_ ?_) ?_) ?_
  · intro _ _ _
    trivial
  · rintro y r r' hr' rfl
    cases hr'.symm.trans (at?_tok_ne y.1 (by decide) _)
  · intro _ _ _
    trivial
  · rintro x r r' hr' rfl
    cases hr'.symm.trans (at?_tok_ne x.1.1 (by decide) _)

theorem function_sole (d : Function) : Sole (fun _ => True) d :=
  .afterTok (.afterTok (.afterTok (.pair (parameters_sole _)
    (.afterTok (.afterTok (.pair (L := fun _ => True) d.2.2.2.2.2.2.1.sole d.2.2.2.2.2.2.2.sole
      fun _ _ _ => trivial))) fun x _ _ => at?_tok x.1 _)))

theorem sentence_sole (d : Sentence) : Sole K d := by
  refine .pair (L := fun r => at? .eof r = true)
    (.list (L := fun _ => True) (fun f _ => function_sole f) (fun _ _ _ => trivial) ?_) (.tok _)
    fun eof r _ => at?_tok eof r
  rintro f r r' hr' rfl
  cases hr'.symm.trans (at?_tok_ne f.1 (by decide) _)

theorem sentence_ext {d d' : Sentence} (h : tokens d = tokens d') : d = d' :=
  (sentence_sole (K := fun _ => True) d d' [] [] trivial trivial (congrArg (· ++ []) h)).1

end MiniSharp.Grammar
