import Mathlib.Data.List.Induction
import MiniSharp.Proofs.Lexemes

namespace MiniSharp

open Text (byte)

structure Span where
  start : Nat
  stop : Nat

def Span.bytes (s : Span) (source : Text) : Text := (source.take s.stop).drop s.start

def Position.ofOffset (source : Text) (n : Nat) : Position :=
  let before := source.take n
  ⟨1 + before.count Text.newline, 1 + (before.reverse.takeWhile (· != Text.newline)).length⟩

/-- Blanks and comments before `rest`. A line comment goes on to the end of its line, a block
comment to the first end mark. -/
inductive Skipped (rest : Text) : Text → Prop
  | nil : Skipped rest []
  | blank {b t} : b ∈ [Text.blank, Text.tab, Text.carriageReturn, Text.newline] → Skipped rest t →
      Skipped rest (b :: t)
  | lineComment {body t} : Text.newline ∉ body → (∀ b ∈ (t ++ rest).head?, b = Text.newline) →
      Skipped rest t → Skipped rest (byte '/' :: byte '/' :: body ++ t)
  | blockComment {body t} : ¬ [byte '*', byte '/'] <:+: body → Skipped rest t →
      Skipped rest (byte '/' :: byte '*' :: body ++ byte '*' :: byte '/' :: t)

def Separated (source : Text) : Nat → List Span → Prop
  | n, [] => n = source.length
  | n, s :: rest => n ≤ s.start ∧ Skipped (source.drop s.start) (Span.bytes ⟨n, s.start⟩ source) ∧
      Separated source s.stop rest

structure Token.Covers (source : Text) (t : Token) (s : Span) : Prop where
  inside : s.start ≤ s.stop ∧ s.stop ≤ source.length
  empty : s.start = s.stop ↔ t.kind = .eof
  lexeme : t.kind ≠ .eof → t.kind ≠ .unknown → Spells t.kind t.text (s.bytes source)
  place : t.pos = Position.ofOffset source s.start
  problem : (∃ p, t.problem = some p ∧ p.message ≠ []) ↔ t.kind = .unknown

theorem Position.first_after (t : Text) : Position.first.after t =
    ⟨1 + t.count Text.newline, 1 + (t.reverse.takeWhile (· != Text.newline)).length⟩ := by
  induction t using List.reverseRecOn with
  | nil => rfl
  | append_singleton t b ih =>
    rw [Position.after_append, ih]
    by_cases hb : b = Text.newline
    · simp only [after, List.foldl_cons, List.foldl_nil, next, hb, if_true, List.count_append,
        List.count_singleton_self, List.reverse_append, List.reverse_singleton,
        List.singleton_append, List.takeWhile_cons, bne_self_eq_false, Bool.false_eq_true, if_false,
        List.length_nil]
      rw [Position.mk.injEq]
      omega
    · have hne : (b != Text.newline) = true := by simpa using hb
      simp only [after, List.foldl_cons, List.foldl_nil, next, hb, if_false, List.count_append,
        List.count_singleton, beq_iff_eq, List.reverse_append, List.reverse_singleton,
        List.singleton_append, List.takeWhile_cons, hne, if_true, List.length_cons]
      rw [Position.mk.injEq]
      omega

theorem Position.line_after (p : Position) (t : Text) :
    (p.after t).line = p.line + t.count Text.newline := by
  induction t generalizing p with
  | nil => simp [after]
  | cons b t ih =>
    rw [after, List.foldl_cons, ← after, ih, List.count_cons, next]
    by_cases hb : b = Text.newline
    · simp only [hb, if_true, beq_self_eq_true]
      omega
    · simp [hb]

theorem Position.column_after (p : Position) {t : Text} (h : Text.newline ∉ t) :
    (p.after t).column = p.column + t.length := by
  induction t generalizing p with
  | nil => simp [after]
  | cons b t ih =>
    rw [List.mem_cons, not_or] at h
    obtain ⟨hb, ht⟩ := h
    rw [after, List.foldl_cons, ← after, ih _ ht, next, if_neg (Ne.symm hb), List.length_cons]
    push_cast
    omega

theorem Position.after_eq_self {p : Position} {t : Text} (h : p.after t = p) : t = [] := by
  have hline := p.line_after t
  rw [h] at hline
  have hnone : Text.newline ∉ t := List.count_eq_zero.mp (by omega)
  have hcolumn := p.column_after hnone
  rw [h] at hcolumn
  exact List.length_eq_zero_iff.mp (by omega)

theorem Token.covers_of_append {source done bytes rest : Text} {t : Token}
    (hsource : source = done ++ bytes ++ rest) (hpos : t.pos = Position.first.after done)
    (he : bytes = [] ↔ t.kind = .eof)
    (hl : t.kind ≠ .eof → t.kind ≠ .unknown → Spells t.kind t.text bytes)
    (hp : (∃ p, t.problem = some p ∧ p.message ≠ []) ↔ t.kind = .unknown) :
    t.Covers source ⟨done.length, (done ++ bytes).length⟩ := by
  subst hsource
  have hbytes :
      Span.bytes ⟨done.length, (done ++ bytes).length⟩ (done ++ bytes ++ rest) = bytes := by
    rw [Span.bytes, List.take_left, List.drop_left]
  refine ⟨by simp, ?_, fun hk hu => hbytes.symm ▸ hl hk hu, ?_, hp⟩
  · rw [← he, ← List.length_eq_zero_iff]
    simp only [List.length_append]
    omega
  · rw [hpos, Position.ofOffset, Position.first_after, List.append_assoc, List.take_left]

def LaidOut (source : Text) (n : Nat) (tokens : List Token) : Prop :=
  ∃ spans, Separated source n spans ∧ List.Forall₂ (Token.Covers source) tokens spans

theorem LaidOut.cons {source done skipped bytes rest : Text} {t : Token} {ts : List Token}
    (hsource : source = done ++ skipped ++ bytes ++ rest) (hs : Skipped (bytes ++ rest) skipped)
    (ht : t.Covers source ⟨(done ++ skipped).length, (done ++ skipped ++ bytes).length⟩)
    (hts : LaidOut source (done ++ skipped ++ bytes).length ts) :
    LaidOut source done.length (t :: ts) := by
  obtain ⟨spans, hspans, hcovers⟩ := hts
  refine ⟨_ :: spans, ⟨by simp, ?_, hspans⟩, .cons ht hcovers⟩
  have hdrop : source.drop (done ++ skipped).length = bytes ++ rest := by
    rw [hsource, List.append_assoc, List.drop_left]
  have hskipped : Span.bytes ⟨done.length, (done ++ skipped).length⟩ source = skipped := by
    rw [Span.bytes, hsource, List.append_assoc, List.take_left, List.drop_left]
  rwa [hdrop, hskipped]

theorem LaidOut.eof {source done skipped : Text} (hsource : source = done ++ skipped)
    (hs : Skipped [] skipped) :
    LaidOut source done.length [.eof (Position.first.after (done ++ skipped))] := by
  have happ : source = done ++ skipped ++ [] ++ [] := by
    rw [List.append_nil, List.append_nil, hsource]
  apply LaidOut.cons happ hs
  · exact Token.covers_of_append happ rfl (by simp [Token.eof]) (absurd rfl) (by simp [Token.eof])
  · exact ⟨[], by simp [Separated, hsource], .nil⟩

namespace Lexer

theorem comment?_first {t c rest : Text} (h : comment? t = some (c, rest)) :
    ∃ body, c = body ++ [byte '*', byte '/'] ∧ ¬ [byte '*', byte '/'] <:+: body := by
  induction t generalizing c rest with
  | nil => simp [comment?] at h
  | cons a t ih =>
    cases t with
    | nil => simp [comment?] at h
    | cons b u =>
      rw [comment?] at h
      split at h
      · next hab =>
        simp only [Option.some.injEq, Prod.mk.injEq] at h
        obtain ⟨rfl, -⟩ := h
        exact ⟨[], by simp [hab], by simp⟩
      · next hab =>
        obtain ⟨⟨c', rest'⟩, hc, he⟩ := Option.map_eq_some_iff.mp h
        simp only [Prod.mk.injEq] at he
        obtain ⟨rfl, rfl⟩ := he
        obtain ⟨body, rfl, hbody⟩ := ih hc
        refine ⟨a :: body, rfl, ?_⟩
        rw [List.infix_cons_iff]
        rintro (hp | hi)
        · cases body with
          | nil => simp at hp
          | cons d body =>
            have htext := comment?_append hc
            simp only [List.cons_prefix_cons, List.cons_append, List.cons.injEq] at hp htext
            exact hab ⟨hp.1.symm, htext.1.trans hp.2.1.symm⟩
        · exact hbody hi

theorem gap_skipped (t : Text) : Skipped (gap t).rest (gap t).skipped := by
  fun_induction gap t with
  | case1 => exact .nil
  | case2 a t ha ih =>
    refine .blank ?_ ih
    simpa [isBlank, or_assoc] using ha
  | case3 => exact .nil
  | case4 u _ ih =>
    have hline : Text.newline ∉ u.takeWhile (· != Text.newline) := by
      intro hmem
      simpa using List.mem_takeWhile_imp hmem
    refine .lineComment hline ?_ ih
    simp only [Gap.after, gap_append]
    intro b hb
    have hstop := List.head?_dropWhile_not (· != Text.newline) u
    rw [Option.mem_def.mp hb] at hstop
    simpa using hstop
  | case5 u c rest hc _ _ ih =>
    obtain ⟨body, rfl, hbody⟩ := comment?_first hc
    simp only [Gap.after, List.cons_append, List.append_assoc, List.nil_append]
    exact .blockComment hbody ih
  | case6 => exact .nil
  | case7 => exact .nil
  | case8 => exact .nil

theorem lexeme_ne_eof (b : UInt8) (t : Text) : (lexeme b t).kind ≠ .eof := by
  rcases lexeme_sound b t with ⟨hs, -⟩ | ⟨hk, -⟩
  · exact hs.known.2
  · simp [hk]

theorem lexeme_covers {source done : Text} {b : UInt8} {t : Text}
    (hsource : source = done ++ b :: t) :
    Token.Covers source ⟨(lexeme b t).kind, (lexeme b t).text, Position.first.after done,
      (lexeme b t).problem⟩ ⟨done.length, (done ++ (lexeme b t).bytes).length⟩ := by
  obtain ⟨hsplit, hne⟩ := lexeme_splits b t
  have hbytes : source = done ++ (lexeme b t).bytes ++ (lexeme b t).rest := by
    rw [hsource, ← hsplit, List.append_assoc]
  refine Token.covers_of_append hbytes rfl ?_ ?_ ?_
  · exact iff_of_false hne (lexeme_ne_eof b t)
  · intro _ hu
    rcases lexeme_sound b t with ⟨hs, -⟩ | ⟨hk, -⟩
    · exact hs
    · exact absurd hk hu
  · rcases lexeme_sound b t with ⟨hs, hp⟩ | ⟨hk, hp⟩
    · simp [hp, hs.known.1]
    · exact ⟨fun _ => hk, fun _ => hp⟩

theorem scanFrom_kinds (p : Position) (t : Text) : (scanFrom p t).eof.kind = .eof ∧
    ∀ x ∈ (scanFrom p t).tokens, x.kind ≠ .eof := by
  fun_induction scanFrom p t with
  | case1 => exact ⟨rfl, by simp⟩
  | case2 p t start b rest hg hc l more ih =>
    exact ⟨ih.1, List.forall_mem_cons.mpr ⟨lexeme_ne_eof b rest, ih.2⟩⟩
  | case3 => exact ⟨rfl, by simp⟩

theorem scanFrom_after (p : Position) (t : Text) :
    ∀ x ∈ (scanFrom p t).toList, ∃ u, x.pos = p.after u := by
  fun_induction scanFrom p t with
  | case1 p t start => exact List.forall_mem_singleton.mpr ⟨_, rfl⟩
  | case2 p t start b rest hg hc l more ih =>
    refine List.forall_mem_cons.mpr ⟨⟨_, rfl⟩, ?_⟩
    intro x hx
    obtain ⟨u, hu⟩ := ih x hx
    refine ⟨(gap t).skipped ++ (l.bytes ++ u), ?_⟩
    rw [hu, Position.after_append, Position.after_append]
  | case3 p t start b rest =>
    refine List.forall_mem_cons.mpr ⟨⟨_, rfl⟩, List.forall_mem_singleton.mpr ?_⟩
    exact ⟨(gap t).skipped ++ (b :: rest), (Position.after_append ..).symm⟩

theorem scanFrom_nodup (p : Position) (t : Text) : (scanFrom p t).toList.Nodup := by
  fun_induction scanFrom p t with
  | case1 => exact List.nodup_cons.mpr ⟨List.not_mem_nil, List.nodup_nil⟩
  | case2 p t start b rest hg hc l more ih =>
    refine List.nodup_cons.mpr ⟨?_, ih⟩
    intro hmem
    obtain ⟨u, hu⟩ := scanFrom_after _ _ _ hmem
    rw [← Position.after_append] at hu
    exact (lexeme_splits b rest).2 (List.append_eq_nil_iff.mp (Position.after_eq_self hu.symm)).1
  | case3 => simp [TokenStream.toList, Token.eof]

theorem scanFrom_laidOut {source : Text} (done t : Text) (hsource : source = done ++ t) :
    LaidOut source done.length (scanFrom (.after .first done) t).toList := by
  induction hn : t.length using Nat.strongRecOn generalizing done t with
  | _ n ih =>
    have hskip := gap_skipped t
    have hstart : source = done ++ (gap t).skipped ++ (gap t).rest := by
      rw [List.append_assoc, gap_append, hsource]
    rw [scanFrom_eq_afterGap, afterGap, ← Position.after_append]
    cases hr : (gap t).rest with
    | nil =>
      rw [hr] at hstart hskip
      rw [List.append_nil] at hstart
      exact .eof hstart hskip
    | cons b rest =>
      rw [hr] at hstart hskip
      dsimp only
      split
      · obtain ⟨hsplit, -⟩ := lexeme_splits b rest
        have hshort : (lexeme b rest).rest.length < n := by
          have hl := congrArg List.length (gap_append t)
          have := lexeme_length b rest
          simp only [List.length_append, hr, List.length_cons] at hl
          omega
        have hrest : source =
            done ++ (gap t).skipped ++ (lexeme b rest).bytes ++ (lexeme b rest).rest := by
          rw [hstart, ← hsplit, List.append_assoc _ (lexeme b rest).bytes]
        have hmore := ih _ hshort _ _ hrest rfl
        rw [Position.after_append] at hmore
        exact .cons hrest (hsplit ▸ hskip) (lexeme_covers hstart) hmore
      · -- The comment without an end reaches to the end of the text.
        have hrest : source = done ++ (gap t).skipped ++ b :: rest ++ [] := by
          rw [List.append_nil, hstart]
        apply LaidOut.cons hrest (by rwa [List.append_nil])
        · exact Token.covers_of_append hrest rfl (by simp) (fun _ hu => absurd rfl hu)
            ⟨fun _ => rfl, fun _ => ⟨_, rfl, by decide⟩⟩
        · have heof := LaidOut.eof hrest .nil
          rwa [List.append_nil, Position.after_append] at heof

end Lexer

/-- Every source is covered by its tokens with blanks and comments between them, the last one and no
other is the end of input, and each stands where its first byte does. -/
theorem tokens_cover_source (source : Text) :
    (∃ tokens eof, (scan source).toList = tokens ++ [eof] ∧ eof.kind = .eof ∧
      ∀ t ∈ tokens, t.kind ≠ .eof) ∧
    ∃ spans, Separated source 0 spans ∧
      List.Forall₂ (Token.Covers source) (scan source).toList spans := by
  obtain ⟨heof, htokens⟩ := Lexer.scanFrom_kinds .first source
  exact ⟨⟨_, _, rfl, heof, htokens⟩, Lexer.scanFrom_laidOut [] source rfl⟩

end MiniSharp
