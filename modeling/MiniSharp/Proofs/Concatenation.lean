import MiniSharp.Proofs.Acceptance
import MiniSharp.Proofs.TokenMaps
import MiniSharp.Proofs.TwinReading

namespace MiniSharp

open Text (byte isDigit)

def Position.down (n : Nat) (p : Position) : Position := { p with line := p.line + n }

def Token.down (n : Nat) (t : Token) : Token := { t with pos := t.pos.down n }

def TokenStream.down (n : Nat) (s : TokenStream) : TokenStream :=
  ⟨s.tokens.map (Token.down n), s.eof.down n⟩

theorem Position.after_down (n : Nat) (p : Position) (t : Text) :
    (p.down n).after t = (p.after t).down n := by
  induction t generalizing p with
  | nil => rfl
  | cons b t ih =>
    have hnext : (p.down n).next b = (p.next b).down n := by
      by_cases hb : b = Text.newline
      · simp only [next, down, hb, if_true, Position.mk.injEq, and_true]
        omega
      · simp only [next, down, hb, if_false]
    rw [after, List.foldl_cons, hnext]
    exact ih (p.next b)

namespace Lexer

theorem scanFrom_down (n : Nat) (p : Position) (t : Text) :
    scanFrom (p.down n) t = (scanFrom p t).down n := by
  fun_induction scanFrom p t with
  | case1 p t start hg =>
    rw [scanFrom_eq_afterGap, afterGap, hg, Position.after_down]
    rfl
  | case2 p t start b rest hg hc l more ih =>
    rw [← Position.after_down] at ih
    rw [scanFrom_eq_afterGap, afterGap, hg, Position.after_down]
    simp only [hc, if_true]
    exact congrArg (fun s : TokenStream =>
      (⟨⟨l.kind, l.text, start.down n, l.problem⟩ :: s.tokens, s.eof⟩ : TokenStream)) ih
  | case3 p t start b rest hg hc =>
    rw [scanFrom_eq_afterGap, afterGap, hg, Position.after_down]
    simp only [hc, Bool.false_eq_true, if_false, Position.after_down]
    rfl

section Newline

variable (more : Text)

theorem takeWhile_append_stop {p : UInt8 → Bool} {c : UInt8} (hc : p c = false) (t : Text) :
    (t ++ c :: more).takeWhile p = t.takeWhile p := by
  induction t with
  | nil => simp [hc]
  | cons b t ih => by_cases hb : p b <;> simp [hb, ih]

theorem dropWhile_append_stop {p : UInt8 → Bool} {c : UInt8} (hc : p c = false) (t : Text) :
    (t ++ c :: more).dropWhile p = t.dropWhile p ++ c :: more := by
  induction t with
  | nil => simp [hc]
  | cons b t ih => by_cases hb : p b <;> simp [hb, ih]

theorem comment?_append_right {t body rest : Text} (h : comment? t = some (body, rest)) :
    comment? (t ++ more) = some (body, rest ++ more) := by
  induction t generalizing body rest with
  | nil => simp [comment?] at h
  | cons a t ih =>
    cases t with
    | nil => simp [comment?] at h
    | cons b u =>
      rw [List.cons_append, List.cons_append, comment?]
      rw [comment?] at h
      split at h
      · next hab =>
        simp only [Option.some.injEq, Prod.mk.injEq] at h
        obtain ⟨rfl, rfl⟩ := h
        rw [if_pos hab]
      · next hab =>
        obtain ⟨⟨body', rest'⟩, hc, he⟩ := Option.map_eq_some_iff.mp h
        simp only [Prod.mk.injEq] at he
        obtain ⟨rfl, rfl⟩ := he
        have hmore := ih hc
        rw [List.cons_append] at hmore
        rw [if_neg hab, hmore]
        rfl

def Gap.extend (g : Gap) (u : Text) : Gap :=
  if g.rest = [] then (gap u).after g.skipped else { g with rest := g.rest ++ u }

theorem Gap.extend_after (g : Gap) (s u : Text) : (g.after s).extend u = (g.extend u).after s := by
  by_cases hr : g.rest = []
  · simp only [extend, after, hr, if_true, List.append_assoc]
  · simp only [extend, after, hr, if_false]

theorem gap_append_newline {t : Text} (h : (gap t).closed = true) :
    gap (t ++ Text.newline :: more) = (gap t).extend (Text.newline :: more) := by
  have hnewline : isBlank Text.newline = true ∧ Text.newline ≠ byte '/' ∧
      Text.newline ≠ byte '*' := by decide
  fun_induction gap t with
  | case1 => rfl
  | case2 a t ha ih =>
    rw [Gap.extend_after, ← ih h, List.cons_append, gap.eq_def]
    simp only [ha, if_true]
  | case3 ha =>
    rw [List.singleton_append, gap.eq_def]
    simp [ha, hnewline, Gap.extend]
  | case4 u ha ih =>
    have hstop : (Text.newline != Text.newline) = false := by decide
    have htake := takeWhile_append_stop more (p := (· != Text.newline)) hstop u
    have hdrop := dropWhile_append_stop more (p := (· != Text.newline)) hstop u
    rw [Gap.extend_after, ← ih h, List.cons_append, List.cons_append, gap.eq_def]
    simp only [ha, Bool.false_eq_true, if_false, if_true, htake, hdrop]
  | case5 u body rest hc ha hb ih =>
    rw [Gap.extend_after, ← ih h, List.cons_append, List.cons_append, gap.eq_def]
    simp only [ha, hb, Bool.false_eq_true, if_false, if_true]
    rw [comment?_append_right _ hc]
  | case6 => cases h
  | case7 b u ha hb hs =>
    rw [List.cons_append, List.cons_append, gap.eq_def]
    simp [ha, hb, hs, Gap.extend]
  | case8 a t ha hs =>
    rw [List.cons_append, gap.eq_def]
    simp [ha, hs, Gap.extend]

def Lexeme.extend (l : Lexeme) (u : Text) : Lexeme := { l with rest := l.rest ++ u }

theorem isPrefixOf?_append_newline {s : Text} (hs : Text.newline ∉ s) (t : Text) :
    s.isPrefixOf? (t ++ Text.newline :: more) =
      (s.isPrefixOf? t).map (· ++ Text.newline :: more) := by
  induction s generalizing t with
  | nil => rfl
  | cons a s ih =>
    rw [List.mem_cons, not_or] at hs
    cases t with
    | nil =>
      change (if a == Text.newline then s.isPrefixOf? more else none) = none
      rw [if_neg (by simpa using Ne.symm hs.1)]
    | cons b t =>
      change (if a == b then s.isPrefixOf? (t ++ Text.newline :: more) else none) =
        (if a == b then s.isPrefixOf? t else none).map (· ++ Text.newline :: more)
      split
      · exact ih hs.2 t
      · rfl

theorem symbol?_append_newline (t : Text) :
    symbol? (t ++ Text.newline :: more) =
      (symbol? t).map fun l => l.extend (Text.newline :: more) := by
  have hplain : ∀ p ∈ symbols, Text.newline ∉ p.2 := by decide +kernel
  unfold symbol?
  generalize symbols = ps at hplain
  induction ps with
  | nil => rfl
  | cons p ps ih =>
    obtain ⟨kind, spelling⟩ := p
    obtain ⟨hp, hps⟩ := List.forall_mem_cons.mp hplain
    have hcut := isPrefixOf?_append_newline more (s := spelling) hp t
    simp only [List.findSome?_cons, hcut]
    cases spelling.isPrefixOf? t with
    | none => exact ih hps
    | some rest => rfl

theorem stringLexeme_append {t : Text} (h : (stringLexeme t).kind ≠ .unknown) :
    stringLexeme (t ++ more) = (stringLexeme t).extend more := by
  cases hd : t.dropWhile (· != Text.doubleQuote) with
  | nil => simp [stringLexeme, hd] at h
  | cons q rest =>
    have hbody : ∀ b ∈ t.takeWhile (· != Text.doubleQuote), (b != Text.doubleQuote) = true :=
      fun b hb => List.mem_takeWhile_imp (p := (· != Text.doubleQuote)) hb
    have hq : (q != Text.doubleQuote) = false := by
      have hstop := List.head?_dropWhile_not (· != Text.doubleQuote) t
      rw [hd] at hstop
      simpa using hstop
    -- The closing quote is in `t`, so the body ends there whatever follows.
    have hmore : t ++ more = t.takeWhile (· != Text.doubleQuote) ++ q :: (rest ++ more) := by
      rw [← List.cons_append, ← hd, ← List.append_assoc, List.takeWhile_append_dropWhile]
    have htake := takeWhile_blank hbody hq (rest ++ more)
    have hdrop := dropWhile_blank hbody hq (rest ++ more)
    rw [← hmore] at htake hdrop
    simp only [stringLexeme, htake, hdrop, hd, Lexeme.extend]

theorem charLexeme_append {t : Text} (h : (charLexeme t).kind ≠ .unknown) :
    charLexeme (t ++ more) = (charLexeme t).extend more := by
  cases t with
  | nil => exact absurd rfl h
  | cons c t =>
    by_cases hc : c = Text.singleQuote
    · simp [charLexeme, hc] at h
    · cases t with
      | nil => simp [charLexeme, hc] at h
      | cons q t =>
        by_cases hq : q = Text.singleQuote
        · simp [charLexeme, hc, hq, Lexeme.extend]
        · simp [charLexeme, hc, hq] at h

theorem numberLexeme_append_newline {t : Text} (h : (numberLexeme t).kind ≠ .unknown) :
    numberLexeme (t ++ Text.newline :: more) =
      (numberLexeme t).extend (Text.newline :: more) := by
  have hdigit : isDigit Text.newline = false := by decide
  have hpoint : Text.newline ≠ byte '.' := by decide
  unfold numberLexeme at h ⊢
  simp only [takeWhile_append_stop more hdigit, dropWhile_append_stop more hdigit]
  cases hd : t.dropWhile isDigit with
  | nil => simp [hpoint, Lexeme.extend]
  | cons p rest =>
    by_cases hp : p = byte '.'
    · simp only [hd, hp, if_true, List.cons_append, takeWhile_append_stop more hdigit,
        dropWhile_append_stop more hdigit] at h ⊢
      cases hf : rest.takeWhile isDigit with
      | nil => simp [hf] at h
      | cons d ds => rfl
    · simp [hp, Lexeme.extend]

theorem wordLexeme_append_newline (t : Text) :
    wordLexeme (t ++ Text.newline :: more) = (wordLexeme t).extend (Text.newline :: more) := by
  have hword : isWordByte Text.newline = false := by decide
  simp only [wordLexeme, takeWhile_append_stop more hword, dropWhile_append_stop more hword,
    Lexeme.extend]

theorem lexeme_append_newline {b : UInt8} {t : Text} (h : (lexeme b t).kind ≠ .unknown) :
    lexeme b (t ++ Text.newline :: more) = (lexeme b t).extend (Text.newline :: more) := by
  have hsymbol := symbol?_append_newline more (b :: t)
  rw [List.cons_append] at hsymbol
  unfold lexeme at h ⊢
  rw [hsymbol]
  cases hs : symbol? (b :: t) with
  | some l => rfl
  | none =>
    rw [hs] at h
    simp only [Option.map_none] at h ⊢
    by_cases hd : b = Text.doubleQuote
    · rw [if_pos hd] at h
      rw [if_pos hd, if_pos hd, stringLexeme_append _ h]
    by_cases hq : b = Text.singleQuote
    · rw [if_neg hd, if_pos hq] at h
      rw [if_neg hd, if_pos hq, if_neg hd, if_pos hq, charLexeme_append _ h]
    by_cases hn : isDigit b
    · rw [if_neg hd, if_neg hq, if_pos hn] at h
      rw [if_neg hd, if_neg hq, if_pos hn, if_neg hd, if_neg hq, if_pos hn, ← List.cons_append,
        numberLexeme_append_newline _ h]
    by_cases hl : Text.isLetter b
    · rw [if_neg hd, if_neg hq, if_neg hn, if_pos hl, if_neg hd, if_neg hq, if_neg hn, if_pos hl,
        ← List.cons_append, wordLexeme_append_newline]
    · rw [if_neg hd, if_neg hq, if_neg hn, if_neg hl] at h
      split at h
      · exact absurd rfl h
      · exact absurd rfl h

theorem gap_closed {t : Text} (h : (gap t).rest = []) : (gap t).closed = true := by
  fun_induction gap t <;> simp_all [Gap.after]

theorem scanFrom_newline (p : Position) :
    scanFrom p (Text.newline :: more) = scanFrom (p.next Text.newline) more := by
  have hgap : gap (Text.newline :: more) = (gap more).after [Text.newline] := by
    rw [gap.eq_def]
    rfl
  rw [scanFrom_eq_afterGap, hgap, scanFrom_eq_afterGap]
  rfl

theorem scanFrom_append_newline {p : Position} {t : Text}
    (h : ∀ x ∈ (scanFrom p t).tokens, x.kind ≠ .unknown) :
    scanFrom p (t ++ Text.newline :: more) =
      ⟨(scanFrom p t).tokens ++ (scanFrom ((p.after t).next Text.newline) more).tokens,
        (scanFrom ((p.after t).next Text.newline) more).eof⟩ := by
  fun_induction scanFrom p t with
  | case1 p t start hg =>
    have hskipped : (gap t).skipped = t := by
      have happ := gap_append t
      rwa [hg, List.append_nil] at happ
    rw [scanFrom_eq_afterGap, gap_append_newline more (gap_closed hg), Gap.extend, if_pos hg,
      hskipped, ← scanFrom_newline, scanFrom_eq_afterGap (p.after t), ← Position.after_append]
    rfl
  | case2 p t start b rest hg hc l next ih =>
    obtain ⟨hl, hnext⟩ := List.forall_mem_cons.mp h
    have hgap : gap (t ++ Text.newline :: more) =
        ⟨(gap t).skipped, b :: (rest ++ Text.newline :: more), true⟩ := by
      rw [gap_append_newline more hc, Gap.extend, if_neg (hg ▸ List.cons_ne_nil b rest), hg, hc]
      rfl
    have hplace : p.after t = (start.after l.bytes).after l.rest := by
      rw [← Position.after_append, ← Position.after_append,
        (lexeme_splits b rest).1, ← hg, gap_append]
    rw [scanFrom_eq_afterGap, hgap, hplace]
    simp only [afterGap, if_true, lexeme_append_newline more hl]
    exact congrArg (fun s : TokenStream =>
      (⟨⟨l.kind, l.text, start, l.problem⟩ :: s.tokens, s.eof⟩ : TokenStream)) (ih hnext)
  | case3 p t start b rest hg hc => exact absurd rfl (h _ List.mem_cons_self)

end Newline

end Lexer

theorem Token.content_down (n : Nat) (t : Token) : TokenPairing.content.pairs t (t.down n) :=
  ⟨rfl, rfl, rfl⟩

theorem functions_down (n : Nat) {ts : List Token} {fs : List (Func Unit)}
    (h : Parser.functions ts = .ok fs) :
    Parser.functions (ts.map (Token.down n)) = .ok (fs.map (Func.mapTokens (Token.down n))) := by
  have hpairs : List.Forall₂ (TokenPairing.image _ (Token.content_down n)).pairs ts
      (ts.map (Token.down n)) := by
    rw [List.forall₂_map_right_iff, List.forall₂_same]
    exact fun _ _ => rfl
  obtain ⟨gs, gs', hgs, hgs', htwin⟩ | ⟨f, -, hf, -⟩ := (Parser.functions_twin hpairs).ends
  · rw [h] at hgs
    cases hgs
    have hmap : fs.map (Func.mapTokens (Token.down n)) = gs' := by
      rw [← List.map_id gs']
      exact map_eq_map_of_forall₂ (htwin.imp fun _ _ hf => hf.mapTokens)
    rw [hgs', hmap]
  · rw [h] at hf
    cases hf

theorem functions_append {ts us : List Token} {fs gs : List (Func Unit)}
    (ht : Parser.functions ts = .ok fs) (hu : Parser.functions us = .ok gs) :
    Parser.functions (ts ++ us) = .ok (fs ++ gs) := by
  obtain ⟨ds, rfl, rfl⟩ := functions_eq_ok_iff.mp ht
  obtain ⟨es, rfl, rfl⟩ := functions_eq_ok_iff.mp hu
  refine functions_eq_ok_iff.mpr ⟨ds ++ es, ?_, List.map_append⟩
  exact List.flatMap_append

theorem scan_append_newline {source : Text} {x : Program Unit} (h : parse source = .ok x)
    (other : Text) :
    (scan (source ++ Text.newline :: other)).tokens = (scan source).tokens ++
      (scan other).tokens.map (Token.down (1 + source.count Text.newline)) := by
  have hplace : (Position.first.after source).next Text.newline =
      Position.first.down (1 + source.count Text.newline) := by
    rw [Position.next, if_pos rfl, Position.line_after, Position.down, Position.mk.injEq]
    exact ⟨by simp only [Position.first]; push_cast; omega, rfl⟩
  rw [scan, Lexer.scanFrom_append_newline other (scan_known h), hplace, Lexer.scanFrom_down]
  rfl

/-- Two accepted sources with a newline between them are accepted. The functions of the first come
first and unchanged, those of the second follow with their tokens further down. -/
theorem sources_concatenate {source other : Text} {x y : Program Unit}
    (hx : parse source = .ok x) (hy : parse other = .ok y) :
    ∃ z, parse (source ++ Text.newline :: other) = .ok z ∧
      z.functions = x.functions ++
        y.functions.map (Func.mapTokens (Token.down (1 + source.count Text.newline))) := by
  obtain ⟨fs, hfs, rfl⟩ := parse_eq_ok_iff.mp hx
  obtain ⟨gs, hgs, rfl⟩ := parse_eq_ok_iff.mp hy
  have htokens := functions_append hfs (functions_down (1 + source.count Text.newline) hgs)
  rw [← scan_append_newline hx] at htokens
  exact ⟨_, parse_eq_ok_iff.mpr ⟨_, htokens, rfl⟩, rfl⟩

def openEnded : Text := Text.ofString
  "func one(): int\n\x7b return 1; \x7d // the rest of this line"

def caller : Text := Text.ofString "func main(): int \x7b return one(); \x7d"

theorem sources_concatenate_openEnded :
    ∃ x y z, parse openEnded = .ok x ∧ parse caller = .ok y ∧
      parse (openEnded ++ Text.newline :: caller) = .ok z ∧
      z.functions = x.functions ++ y.functions.map (Func.mapTokens (Token.down 2)) := by
  have hx : (parse openEnded).isOk := by
    rw [openEnded, Text.ofString_ofList]
    decide +kernel
  have hy : (parse caller).isOk := by
    rw [caller, Text.ofString_ofList]
    decide +kernel
  have hlines : 1 + openEnded.count Text.newline = 2 := by
    rw [openEnded, Text.ofString_ofList]
    decide +kernel
  obtain ⟨x, hx⟩ := exists_of_isOk hx
  obtain ⟨y, hy⟩ := exists_of_isOk hy
  obtain ⟨z, hz, hfunctions⟩ := sources_concatenate hx hy
  rw [hlines] at hfunctions
  exact ⟨x, y, z, hx, hy, hz, hfunctions⟩

end MiniSharp
