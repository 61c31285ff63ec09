import MiniSharp.Proofs.ProgramReading
import MiniSharp.Proofs.TokenLayout
import MiniSharp.Proofs.Unambiguity

namespace MiniSharp

namespace Grammar

open Phrase (tokens)

class Known (α : Type) [Phrase α] : Prop where
  kind_ne : ∀ a : α, ∀ t ∈ tokens a, t.kind ≠ .unknown

section Combinators

variable {α β : Type} [Phrase α] [Phrase β]

instance [Known α] [Known β] : Known (α × β) :=
  ⟨fun a => List.forall_mem_append.mpr ⟨Known.kind_ne a.1, Known.kind_ne a.2⟩⟩

instance [Known α] [Known β] : Known (α ⊕ β) := by
  refine ⟨?_⟩
  rintro (a | b)
  · exact Known.kind_ne a
  · exact Known.kind_ne b

instance [Known α] : Known (Option α) := by
  refine ⟨?_⟩
  rintro (_ | a)
  · exact List.forall_mem_nil _
  · exact Known.kind_ne a

instance [Known α] : Known (List α) := by
  refine ⟨?_⟩
  intro l
  induction l with
  | nil => exact List.forall_mem_nil _
  | cons a l ih => exact List.forall_mem_append.mpr ⟨Known.kind_ne a, ih⟩

end Combinators

theorem known_tok {kind : TokenKind} (h : kind ≠ .unknown) : Known (Tok kind) :=
  ⟨fun t => List.forall_mem_singleton.mpr (by rwa [t.kind_eq])⟩

instance (word : Keyword) : Known (Word word) := known_tok (by simp)

instance (mark : Delimiter) : Known (Mark mark) := known_tok (by simp)

instance : Known Name := known_tok (by simp)

instance : Known (Tok .assign) := known_tok (by simp)

instance : Known TypeName := ⟨fun d => List.forall_mem_singleton.mpr (by rw [d.kind_eq]; simp)⟩

theorem OneOf.kind_ne {ops : List Operator} (op : OneOf ops) : op.token.kind ≠ .unknown := by
  rw [op.kind_eq]
  simp

theorem Constant.kind_ne (c : Constant) : c.token.kind ≠ .unknown :=
  Parser.ne_of_startsExpression (Parser.startsExpression_constant c).1 rfl

theorem Tok.kind_ne {kind : TokenKind} [Known (Tok kind)] (t : Tok kind) :
    t.token.kind ≠ .unknown :=
  Known.kind_ne t t.token (List.mem_singleton_self _)

mutual

theorem Ladder.kind_ne : {n : Nat} → (d : Ladder n) → ∀ t ∈ d.tokens, t.kind ≠ .unknown
  | _, .operand e => e.kind_ne
  | _, .next e => e.kind_ne
  | _, .apply left op right =>
    List.forall_mem_append.mpr ⟨left.kind_ne, List.forall_mem_cons.mpr ⟨op.kind_ne, right.kind_ne⟩⟩

theorem Unary.kind_ne : (d : Unary) → ∀ t ∈ d.tokens, t.kind ≠ .unknown
  | .apply op operand => List.forall_mem_cons.mpr ⟨op.kind_ne, operand.kind_ne⟩
  | .primary e => e.kind_ne

theorem Primary.kind_ne : (d : Primary) → ∀ t ∈ d.tokens, t.kind ≠ .unknown
  | .constant c => List.forall_mem_singleton.mpr c.kind_ne
  | .name name => Known.kind_ne name
  | .call name left args right =>
    List.forall_mem_cons.mpr ⟨name.kind_ne, List.forall_mem_cons.mpr ⟨left.kind_ne,
      List.forall_mem_append.mpr ⟨args.kind_ne, Known.kind_ne right⟩⟩⟩
  | .parens left e right =>
    List.forall_mem_cons.mpr ⟨left.kind_ne,
      List.forall_mem_append.mpr ⟨e.kind_ne, Known.kind_ne right⟩⟩

theorem Args.kind_ne : (d : Args) → ∀ t ∈ d.tokens, t.kind ≠ .unknown
  | .none => List.forall_mem_nil _
  | .some first more => List.forall_mem_append.mpr ⟨first.kind_ne, more.kind_ne⟩

theorem More.kind_ne : (d : More) → ∀ t ∈ d.tokens, t.kind ≠ .unknown
  | .nil => List.forall_mem_nil _
  | .cons comma e rest =>
    List.forall_mem_cons.mpr ⟨comma.kind_ne, List.forall_mem_append.mpr ⟨e.kind_ne, rest.kind_ne⟩⟩

end

instance (n : Nat) : Known (Ladder n) := ⟨Ladder.kind_ne⟩

mutual

theorem Statement.kind_ne : (d : Statement) → ∀ t ∈ d.tokens, t.kind ≠ .unknown
  | .declare d => Known.kind_ne d
  | .ret d => Known.kind_ne d
  | .print d => Known.kind_ne d
  | .input d => Known.kind_ne d
  | .branch word cond body other =>
    List.forall_mem_cons.mpr ⟨word.kind_ne, List.forall_mem_append.mpr ⟨Known.kind_ne cond,
      List.forall_mem_append.mpr ⟨body.kind_ne, other.kind_ne⟩⟩⟩
  | .loop word cond body =>
    List.forall_mem_cons.mpr ⟨word.kind_ne,
      List.forall_mem_append.mpr ⟨Known.kind_ne cond, body.kind_ne⟩⟩
  | .count word header body =>
    List.forall_mem_cons.mpr ⟨word.kind_ne,
      List.forall_mem_append.mpr ⟨Known.kind_ne header, body.kind_ne⟩⟩
  | .simple d => Known.kind_ne d

theorem Block.kind_ne : (d : Block) → ∀ t ∈ d.tokens, t.kind ≠ .unknown
  | .mk left body right =>
    List.forall_mem_cons.mpr ⟨left.kind_ne,
      List.forall_mem_append.mpr ⟨body.kind_ne, Known.kind_ne right⟩⟩

theorem Body.kind_ne : (d : Body) → ∀ t ∈ d.tokens, t.kind ≠ .unknown
  | .nil => List.forall_mem_nil _
  | .cons first rest => List.forall_mem_append.mpr ⟨first.kind_ne, rest.kind_ne⟩

theorem Else.kind_ne : (d : Else) → ∀ t ∈ d.tokens, t.kind ≠ .unknown
  | .none => List.forall_mem_nil _
  | .some word body => List.forall_mem_cons.mpr ⟨word.kind_ne, body.kind_ne⟩

end

instance : Known Block := ⟨Block.kind_ne⟩

theorem Sentence.program_eq (d : Sentence) :
    d.program = ⟨(Phrase.tokens d.1).headD d.2.token, d.1.map Function.func⟩ := by
  obtain ⟨ds, eof⟩ := d
  cases ds <;> rfl

end Grammar

open Grammar (Phrase)
open MiniSharp.Parser (toEnd ending Alike Opens functions functions_reads functions_eq_ok)

theorem functions_eq_ok_iff {ts : List Token} {fs : List (Func Unit)} :
    functions ts = .ok fs ↔ ∃ ds : List Grammar.Function, Phrase.tokens ds = ts ∧
      ds.map Grammar.Function.func = fs := by
  constructor
  · intro h
    obtain ⟨ds, hds, hfs⟩ := (functions_reads ts fun _ : Unit => []).ok ⟨fs, [], Nat.zero_lt_one⟩
      (by rw [h]; rfl)
    exact ⟨ds, by rw [hds, List.append_nil], hfs.symm⟩
  · rintro ⟨ds, rfl, rfl⟩
    exact functions_eq_ok ds

theorem functions_error {ts : List Token} {f : Parser.Failure} (h : functions ts = .error f) :
    ∃ w, ts = w ++ f.rest ∧ Opens (List Grammar.Function) w :=
  (functions_reads ts fun _ : Unit => []).error f (by rw [h]; rfl)

theorem accepts_alike {ts ts' : List Token} {fs : List (Func Unit)} (h : functions ts = .ok fs)
    (hforms : ts'.map Token.form = ts.map Token.form) : ∃ fs', functions ts' = .ok fs' := by
  have hend : ending (toEnd (functions ts)) = (true, []) := by
    rw [h]
    rfl
  have halike : Alike ts (ending (toEnd (functions ts))).2 ts' [] := by
    rw [hend]
    exact ⟨⟨ts, ts', (List.append_nil _).symm, (List.append_nil _).symm, hforms.symm⟩, rfl⟩
  have hend' := (functions_reads ts fun _ : Unit => ts').alike () [] halike
  rw [hend] at hend'
  cases h' : functions ts' with
  | ok fs' => exact ⟨fs', rfl⟩
  | error f =>
    rw [h'] at hend'
    cases hend'

theorem rejects_alike {ts ts' u : List Token} {f : Parser.Failure} (h : functions ts = .error f)
    (halike : Alike ts f.rest ts' u) : ∃ f', functions ts' = .error f' := by
  have hend : ending (toEnd (functions ts)) = (false, f.rest) := by
    rw [h]
    rfl
  have hend' := (functions_reads ts fun _ : Unit => ts').alike () u (by rw [hend]; exact halike)
  rw [hend] at hend'
  cases h' : functions ts' with
  | ok fs' =>
    rw [h'] at hend'
    cases hend'
  | error f' => exact ⟨f', rfl⟩

theorem scan_kinds (source : Text) : (scan source).eof.kind = .eof ∧
    ∀ t ∈ (scan source).tokens, t.kind ≠ .eof :=
  Lexer.scanFrom_kinds .first source

theorem parse_eq_ok_iff {source : Text} {x : Program Unit} :
    parse source = .ok x ↔ ∃ fs, functions (scan source).tokens = .ok fs ∧
      ⟨(scan source).current, fs⟩ = x := by
  unfold parse TokenStream.readProgram
  cases functions (scan source).tokens with
  | ok fs => simp
  | error f => simp

theorem scan_known {source : Text} {x : Program Unit} (h : parse source = .ok x) :
    ∀ t ∈ (scan source).tokens, t.kind ≠ .unknown := by
  obtain ⟨fs, hfs, -⟩ := parse_eq_ok_iff.mp h
  obtain ⟨ds, hds, -⟩ := functions_eq_ok_iff.mp hfs
  exact hds ▸ Grammar.Known.kind_ne ds

/-- The sources that are accepted are those whose tokens the grammar derives. They have one
derivation, and the program is the one that it denotes. -/
theorem parses_what_grammar_derives (source : Text) :
    (∀ x, parse source = .ok x ↔
      ∃ d : Grammar.Sentence, Phrase.tokens d = (scan source).toList ∧ d.program = x) ∧
    ∀ d d' : Grammar.Sentence, Phrase.tokens d = Phrase.tokens d' → d = d' := by
  refine ⟨?_, fun d d' h => Grammar.sentence_ext h⟩
  intro x
  rw [parse_eq_ok_iff]
  constructor
  · rintro ⟨fs, hfs, rfl⟩
    obtain ⟨ds, hds, rfl⟩ := functions_eq_ok_iff.mp hfs
    refine ⟨(ds, ⟨(scan source).eof, (scan_kinds source).1⟩), ?_, ?_⟩
    · rw [Grammar.tokens_pair, hds]
      rfl
    · rw [Grammar.Sentence.program_eq, TokenStream.current, hds]
  · rintro ⟨⟨ds, eof⟩, hd, rfl⟩
    obtain ⟨hds, heof⟩ := List.append_inj' hd rfl
    refine ⟨_, functions_eq_ok_iff.mpr ⟨ds, hds, rfl⟩, ?_⟩
    rw [Grammar.Sentence.program_eq, TokenStream.current, ← hds, ← (List.cons.inj heof).1]

theorem exists_scanFrom {ts : List Token} (h : ∀ t ∈ ts, t.Written) (p : Position) :
    ∃ source, (Lexer.scanFrom p source).tokens.map Token.form = ts.map Token.form := by
  induction ts generalizing p with
  | nil => exact ⟨[], by rw [Lexer.scanFrom_eq_afterGap, Lexer.gap]; rfl⟩
  | cons t ts ih =>
    obtain ⟨⟨bytes, hbytes⟩, hts⟩ := List.forall_mem_cons.mp h
    obtain ⟨rest, hrest⟩ := ih hts ((p.after bytes).next Text.blank)
    refine ⟨bytes ++ Text.blank :: rest, ?_⟩
    rw [Lexer.scanFrom_spells hbytes, List.map_cons, List.map_cons, hrest]
    rfl

theorem exists_covers {source : Text} {t : Token} (h : t ∈ (scan source).toList) :
    ∃ s, t.Covers source s := by
  obtain ⟨spans, -, hcovers⟩ := Lexer.scanFrom_laidOut [] source rfl
  obtain ⟨s, -, hs⟩ := exists_of_forall₂ hcovers h
  exact ⟨s, hs⟩

theorem exists_accepted {w : List Token} (hw : ∀ t ∈ w, t.kind ≠ .unknown → t.Written)
    (h : Opens (List Grammar.Function) w) :
    ∃ source x, parse source = .ok x ∧
      w.map Token.form <+: (scan source).toList.map Token.form := by
  obtain ⟨ds, more, hds, hmore⟩ := h
  -- All of the derivation can be written: `w` comes from a text, the rest is chosen so.
  have hwritten : ∀ t ∈ Phrase.tokens ds, t.Written := by
    intro t ht
    have hknown := Grammar.Known.kind_ne ds t ht
    rw [hds] at ht
    obtain ht | ht := List.mem_append.mp ht
    · exact hw t ht hknown
    · exact hmore t ht
  obtain ⟨source, hforms⟩ := exists_scanFrom hwritten .first
  obtain ⟨fs, hfs⟩ := accepts_alike (functions_eq_ok ds) hforms
  refine ⟨source, _, parse_eq_ok_iff.mpr ⟨fs, hfs, rfl⟩, ?_⟩
  rw [TokenStream.toList, List.map_append, scan, hforms, hds, List.map_append, List.append_assoc]
  exact List.prefix_append _ _

theorem parse_eq_error {source : Text} {e : ParseError} (h : parse source = .error e) :
    ∃ f, functions (scan source).tokens = .error f ∧ f.error (scan source).eof = e := by
  unfold parse TokenStream.readProgram at h
  cases hf : functions (scan source).tokens with
  | ok fs =>
    rw [hf] at h
    cases h
  | error f =>
    rw [hf] at h
    cases h
    exact ⟨f, rfl, rfl⟩

theorem exists_split {tokens w : List Token} {eof t : Token}
    (h : (w ++ [t]).map Token.form <+: (tokens ++ [eof]).map Token.form) :
    ∃ w' u, tokens = w' ++ u ∧ w.map Token.form = w'.map Token.form ∧
      t.form = (u.headD eof).form := by
  obtain ⟨z, hz⟩ := h
  rw [List.map_append, List.append_assoc] at hz
  obtain ⟨w', r, hr, hw, ht⟩ := List.map_eq_append_iff.mp hz.symm
  obtain ⟨t', r', rfl, ht, -⟩ := List.map_eq_cons_iff.mp ht
  obtain ⟨a, rfl, ha⟩ | ⟨u, hu, ha⟩ := List.append_eq_append_iff.mp hr
  · cases a with
    | nil =>
      obtain ⟨rfl, -⟩ := List.cons.inj ha
      exact ⟨tokens, [], (List.append_nil _).symm, by simpa using hw.symm, ht.symm⟩
    | cons b a => simp at ha
  · refine ⟨w', u, hu, hw.symm, ?_⟩
    cases u with
    | nil =>
      obtain ⟨rfl, -⟩ := List.cons.inj ha
      exact ht.symm
    | cons b u =>
      obtain ⟨rfl, -⟩ := List.cons.inj ha
      exact ht.symm

theorem head_form_eq {u u' : List Token} {eof eof' : Token} (heof : eof.kind = .eof)
    (heof' : eof'.kind = .eof) (hu : ∀ t ∈ u, t.kind ≠ .eof) (hu' : ∀ t ∈ u', t.kind ≠ .eof)
    (h : (u.headD eof).form = (u'.headD eof').form) :
    u.head?.map Token.form = u'.head?.map Token.form := by
  have hkind := Parser.kind_of_form h
  cases u with
  | nil =>
    cases u' with
    | nil => rfl
    | cons t' u' => exact absurd (hkind.trans heof) (hu' t' List.mem_cons_self)
  | cons t u =>
    cases u' with
    | nil => exact absurd (hkind.symm.trans heof') (hu t List.mem_cons_self)
    | cons t' u' => exact congrArg some h

theorem headD_append_tail (u : List Token) (eof : Token) :
    u ++ [eof] = u.headD eof :: (u ++ [eof]).tail := by
  cases u <;> rfl

theorem error_token (f : Parser.Failure) (eof : Token) :
    (f.error eof).token = f.rest.headD eof := by
  unfold Parser.Failure.error
  dsimp only
  split <;> rfl

theorem error_cause {f : Parser.Failure} {eof : Token} {p : Problem}
    (hk : (f.rest.headD eof).kind = .unknown) (hp : (f.rest.headD eof).problem = some p) :
    (f.error eof).cause = .lexical p := by
  simp only [Parser.Failure.error, hk, hp]

/-- An error is at the first token with which the source cannot go on: the tokens before it begin an
accepted source, and with it they begin none. A piece of text that is no token says why. -/
theorem errors_at_first_impossible_token {source : Text} {e : ParseError}
    (h : parse source = .error e) :
    ∃ before after, (scan source).toList = before ++ e.token :: after ∧ e.token ∉ before ∧
      (∃ source' x, parse source' = .ok x ∧
        before.map Token.form <+: (scan source').toList.map Token.form) ∧
      (∀ source' x, parse source' = .ok x →
        ¬(before ++ [e.token]).map Token.form <+: (scan source').toList.map Token.form) ∧
      (e.token.kind = .unknown →
        ∃ p, e.token.problem = some p ∧ e.cause.message = p.message) := by
  obtain ⟨f, hf, rfl⟩ := parse_eq_error h
  obtain ⟨w, hw, hopens⟩ := functions_error hf
  obtain ⟨heof, htokens⟩ := scan_kinds source
  have hlist : (scan source).toList =
      w ++ f.rest.headD (scan source).eof :: (f.rest ++ [(scan source).eof]).tail := by
    rw [← headD_append_tail, ← List.append_assoc, ← hw]
    rfl
  rw [error_token]
  refine ⟨w, _, hlist, ?_, ?_, ?_, ?_⟩
  · have hnodup : (scan source).toList.Nodup := Lexer.scanFrom_nodup .first source
    rw [hlist] at hnodup
    intro hmem
    exact (List.nodup_append.mp hnodup).2.2 _ hmem _ List.mem_cons_self rfl
  · refine exists_accepted ?_ hopens
    intro t ht hknown
    have hmem : t ∈ (scan source).tokens := hw ▸ List.mem_append_left _ ht
    obtain ⟨s, hs⟩ := exists_covers (List.mem_append_left _ hmem)
    exact ⟨_, hs.lexeme (htokens t hmem) hknown⟩
  · intro source' x hx hprefix
    obtain ⟨fs, hfs, -⟩ := parse_eq_ok_iff.mp hx
    obtain ⟨heof', htokens'⟩ := scan_kinds source'
    obtain ⟨w', u, hw', hforms, hhead⟩ := exists_split hprefix
    have halike : Alike (scan source).tokens f.rest (scan source').tokens u := by
      refine ⟨⟨w, w', hw, hw', hforms⟩, head_form_eq heof heof' ?_ ?_ hhead⟩
      · exact fun t ht => htokens t (hw ▸ List.mem_append_right _ ht)
      · exact fun t ht => htokens' t (hw' ▸ List.mem_append_right _ ht)
    obtain ⟨f', hf'⟩ := rejects_alike hf halike
    rw [hfs] at hf'
    cases hf'
  · intro hk
    obtain ⟨s, hs⟩ := exists_covers (hlist ▸ List.mem_append_right w List.mem_cons_self)
    obtain ⟨p, hp, -⟩ := hs.problem.mpr hk
    exact ⟨p, hp, by rw [error_cause hk hp]; rfl⟩

def strayByte : Text := Text.ofString
  "func main(): int \x7b if (a < 1 && @ b) \x7b\x7d return 0; \x7d"

theorem errors_at_first_impossible_token_strayByte :
    ∃ e, parse strayByte = .error e ∧ e.token.kind = .unknown ∧
      ∃ before after, (scan strayByte).toList = before ++ e.token :: after ∧ e.token ∉ before ∧
        (∃ source' x, parse source' = .ok x ∧
          before.map Token.form <+: (scan source').toList.map Token.form) ∧
        (∀ source' x, parse source' = .ok x →
          ¬(before ++ [e.token]).map Token.form <+: (scan source').toList.map Token.form) ∧
        (e.token.kind = .unknown →
          ∃ p, e.token.problem = some p ∧ e.cause.message = p.message) := by
  have hmap : (parse strayByte).map (fun _ => ()) = .error ⟨⟨.unknown, Text.ofString "@", ⟨1, 33⟩,
      some .unexpectedCharacter⟩, .lexical .unexpectedCharacter⟩ := by decide +kernel
  cases herror : parse strayByte with
  | ok x =>
    rw [herror] at hmap
    cases hmap
  | error e =>
    rw [herror] at hmap
    cases hmap
    exact ⟨_, rfl, rfl, errors_at_first_impossible_token herror⟩

end MiniSharp
