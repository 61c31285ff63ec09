import MiniSharp.Proofs.Acceptance

namespace MiniSharp

structure Token.TakenFrom (source : Text) (t : Token) (bytes : Text) : Prop where
  known : ∀ u ∈ (scan source).tokens, u.kind ≠ .unknown
  token : t ∈ (scan source).tokens
  span : ∃ s, t.Covers source s ∧ s.bytes source = bytes

def Text.ScansAs (t : Text) (forms : List (TokenKind × Text)) : Prop :=
  (scan t).toList.map Token.form = forms ∧ ∀ u ∈ (scan t).tokens, u.kind ≠ .unknown

def Text.spaced (lexemes : List Text) : Text := Text.join [Text.blank] lexemes

theorem Text.spaced_cons (w : Text) (ws : List Text) :
    ∃ rest, spaced (w :: ws) = w ++ rest ∧
      (rest = [] ∧ ws = [] ∨ rest = Text.blank :: spaced ws) := by
  cases ws with
  | nil => exact ⟨[], by simp [spaced, join], .inl ⟨rfl, rfl⟩⟩
  | cons v ws =>
    refine ⟨Text.blank :: spaced (v :: ws), ?_, .inr rfl⟩
    rw [spaced, join, List.intercalate_cons_cons, List.append_assoc]
    rfl

namespace Lexer

theorem scanFrom_spaced_cons {kind : TokenKind} {text w : Text} (h : Spells kind text w)
    (ws : List Text) (p : Position) :
    ∃ q, (scanFrom p (Text.spaced (w :: ws))).tokens =
      ⟨kind, text, p, none⟩ :: (scanFrom q (Text.spaced ws)).tokens := by
  obtain ⟨rest, hrest, ⟨rfl, rfl⟩ | rfl⟩ := Text.spaced_cons w ws
  · exact ⟨p.after w, by rw [hrest, scanFrom_apart h .nil]; rfl⟩
  · exact ⟨_, by rw [hrest, scanFrom_spells h]⟩

theorem scanFrom_spaced {ts : List Token} {ws : List Text}
    (h : List.Forall₂ (fun t w => Spells t.kind t.text w) ts ws) {more : List Text}
    (hmore : Text.spaced more = []) (p : Position) :
    (scanFrom p (Text.spaced (ws ++ more))).tokens.map Token.form = ts.map Token.form := by
  induction h generalizing p with
  | nil => rw [List.nil_append, hmore, scanFrom_nil]
  | @cons t w ts ws hw _ ih =>
    obtain ⟨q, hq⟩ := scanFrom_spaced_cons hw (ws ++ more) p
    rw [List.cons_append, hq, List.map_cons, List.map_cons, ih q]
    rfl

end Lexer

theorem scan_eof_form (source : Text) : (scan source).eof.form = (.eof, []) := by
  rw [scan]
  fun_induction Lexer.scanFrom .first source with
  | case1 => rfl
  | case2 p t start b rest hg hc l more ih => exact ih
  | case3 => rfl

theorem Text.scansAs_of_forms {t : Text} {ts : List Token} (hts : ∀ u ∈ ts, u.kind ≠ .unknown)
    (h : (scan t).tokens.map Token.form = ts.map Token.form) :
    t.ScansAs (ts.map Token.form ++ [(.eof, [])]) := by
  constructor
  · rw [TokenStream.toList, List.map_append, h, List.map_singleton, scan_eof_form]
  · intro u hu
    have hform : u.form ∈ ts.map Token.form := h ▸ List.mem_map_of_mem hu
    obtain ⟨v, hv, hvu⟩ := List.mem_map.mp hform
    rw [Parser.kind_of_form hvu]
    exact hts v hv

theorem Token.TakenFrom.spells {source : Text} {t : Token} {bytes : Text}
    (h : t.TakenFrom source bytes) : Spells t.kind t.text bytes := by
  obtain ⟨s, hs, rfl⟩ := h.span
  exact hs.lexeme ((scan_kinds source).2 t h.token) (h.known t h.token)

theorem Token.Covers.bytes_eq_nil {source : Text} {t : Token} {s : Span} (h : t.Covers source s)
    (hk : t.kind = .eof) : s.bytes source = [] := by
  rw [Span.bytes, h.empty.mpr hk]
  exact List.drop_eq_nil_of_le (List.length_take_le ..)

theorem exists_lexeme_spans {source : Text} {spans : List Span}
    (h : List.Forall₂ (Token.Covers source) (scan source).toList spans) :
    ∃ lexemes eof, spans = lexemes ++ [eof] ∧ eof.bytes source = [] ∧
      List.Forall₂ (Token.Covers source) (scan source).tokens lexemes := by
  have hinit := List.forall₂_take_append _ _ _ h.flip
  have hlast := List.forall₂_drop_append _ _ _ h.flip
  obtain ⟨eof, rest, heof, hnil, hrest⟩ := List.forall₂_cons_right_iff.mp hlast
  cases List.forall₂_nil_right_iff.mp hnil
  refine ⟨_, eof, ?_, heof.bytes_eq_nil (scan_kinds source).1, hinit.flip⟩
  rw [← hrest, List.take_append_drop]

/-- The lexemes of a source without unknown pieces, written with one blank between each and the
next, are read as the same tokens, and so are lexemes of such sources in any order. -/
theorem tokens_written_back :
    (∀ source spans, (∀ t ∈ (scan source).tokens, t.kind ≠ .unknown) →
      List.Forall₂ (Token.Covers source) (scan source).toList spans →
      (Text.spaced (spans.map fun s => s.bytes source)).ScansAs
        ((scan source).toList.map Token.form)) ∧
    ∀ ts ws, List.Forall₂ (fun t w => ∃ source, t.TakenFrom source w) ts ws →
      (Text.spaced ws).ScansAs (ts.map Token.form ++ [(.eof, [])]) := by
  constructor
  · intro source spans hknown hcovers
    obtain ⟨lexemes, eof, rfl, heof, htokens⟩ := exists_lexeme_spans hcovers
    have hspells : List.Forall₂ (fun t w => Spells t.kind t.text w) (scan source).tokens
        (lexemes.map fun s => s.bytes source) := by
      rw [List.forall₂_map_right_iff]
      refine List.forall₂_iff_zip.mpr ⟨htokens.length_eq, fun {t s} hmem => ?_⟩
      have ht := (List.of_mem_zip hmem).1
      exact ((List.forall₂_iff_zip.mp htokens).2 hmem).lexeme ((scan_kinds source).2 t ht)
        (hknown t ht)
    have hempty : Text.spaced [[]] = [] := rfl
    have hforms := Lexer.scanFrom_spaced hspells hempty .first
    rw [List.map_append, List.map_singleton, heof, TokenStream.toList, List.map_append,
      List.map_singleton, scan_eof_form]
    exact Text.scansAs_of_forms hknown hforms
  · intro ts ws h
    have hspells : List.Forall₂ (fun t w => Spells t.kind t.text w) ts ws := by
      refine h.imp ?_
      rintro t w ⟨source, hw⟩
      exact hw.spells
    have hempty : Text.spaced [] = [] := rfl
    have hforms := Lexer.scanFrom_spaced hspells hempty .first
    rw [List.append_nil] at hforms
    refine Text.scansAs_of_forms ?_ hforms
    intro t ht
    obtain ⟨w, -, hw⟩ := exists_of_forall₂ hspells ht
    exact hw.known.1

/-- Without blanks between them, some of its tokens would be read as comments or as one. -/
def glued : Text := Text.ofString "x=1.50/2*y//c\n<='/'!\"/*\"="

theorem tokens_written_back_glued :
    (∃ spans,
      List.Forall₂ (Token.Covers glued) (scan glued).toList spans ∧
      (Text.spaced (spans.map fun s => s.bytes glued)).ScansAs
        ((scan glued).toList.map Token.form)) ∧
    ∃ t u v w, t.TakenFrom glued v ∧ u.TakenFrom glued w ∧ t.kind = .operator .divide ∧
      u.kind = .operator .times ∧ (Text.spaced [v, w, v, v]).ScansAs
        ([t, u, t, t].map Token.form ++ [(.eof, [])]) := by
  have hknown : ∀ t ∈ (scan glued).tokens, t.kind ≠ .unknown := by
    have hall : (scan glued).tokens.all (fun t => t.kind != .unknown) = true := by
      rw [glued, Text.ofString_ofList]
      decide +kernel
    exact fun t ht => by simpa using List.all_eq_true.mp hall t ht
  have htaken : ∀ kind, (scan glued).tokens.any (fun t => t.kind == kind) = true →
      ∃ (t : Token) (w : Text), t.TakenFrom glued w ∧ t.kind = kind := by
    intro kind hany
    obtain ⟨t, ht, hk⟩ := List.any_eq_true.mp hany
    obtain ⟨s, hs⟩ := exists_covers (List.mem_append_left _ ht)
    exact ⟨t, _, ⟨hknown, ht, s, hs, rfl⟩, by simpa using hk⟩
  constructor
  · obtain ⟨spans, -, hcovers⟩ := Lexer.scanFrom_laidOut [] glued rfl
    exact ⟨spans, hcovers, tokens_written_back.1 _ _ hknown hcovers⟩
  · obtain ⟨t, v, hv, ht⟩ := htaken (.operator .divide) (by
      rw [glued, Text.ofString_ofList]
      decide +kernel)
    obtain ⟨u, w, hw, hu⟩ := htaken (.operator .times) (by
      rw [glued, Text.ofString_ofList]
      decide +kernel)
    refine ⟨t, u, v, w, hv, hw, ht, hu, tokens_written_back.2 [t, u, t, t] [v, w, v, v] ?_⟩
    exact .cons ⟨_, hv⟩ (.cons ⟨_, hw⟩ (.cons ⟨_, hv⟩ (.cons ⟨_, hv⟩ .nil)))

end MiniSharp
