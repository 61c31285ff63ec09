import Mathlib.Data.List.DropRight
import MiniSharp.Proofs.Characters
import MiniSharp.Proofs.Concatenation
import MiniSharp.Proofs.LayoutIndependence
import MiniSharp.Shell.Phase

namespace MiniSharp

namespace Text

theorem lines_eq_splitOn (t : Text) : lines t = t.splitOn newline := by
  induction t with
  | nil => rfl
  | cons b t ih =>
    rw [List.splitOn, List.splitOnP_cons_eq_if_modifyHead, ← List.splitOn, ← ih, lines]
    by_cases hb : b = newline
    · rw [if_pos hb, if_pos (by simpa using hb)]
    · rw [if_neg hb, if_neg (by simpa using hb)]
      cases hl : lines t with
      | nil => exact absurd hl (lines_ne_nil t)
      | cons line more => rfl

theorem lines_first (t : Text) : (lines t)[0]? = some (t.takeWhile (· != newline)) := by
  induction t with
  | nil => rfl
  | cons b t ih =>
    rw [lines]
    by_cases hb : b = newline
    · simp [hb]
    · rw [if_neg hb]
      cases hl : lines t with
      | nil => exact absurd hl (lines_ne_nil t)
      | cons line more =>
        rw [hl] at ih
        simp_all

theorem rtakeWhile_newline (t : Text) :
    (newline :: t).rtakeWhile (· != newline) = t.rtakeWhile (· != newline) := by
  rw [List.rtakeWhile, List.reverse_cons,
    Lexer.takeWhile_append_stop [] (p := (· != newline)) (bne_self_eq_false newline),
    List.rtakeWhile]

theorem rtakeWhile_cons_of_mem {b : UInt8} {t : Text} (h : newline ∈ t) :
    (b :: t).rtakeWhile (· != newline) = t.rtakeWhile (· != newline) := by
  rw [List.rtakeWhile, List.reverse_cons, List.takeWhile_append, if_neg, List.rtakeWhile]
  intro hlen
  have hall := (List.takeWhile_prefix _).eq_of_length hlen
  rw [List.takeWhile_eq_self_iff] at hall
  simpa using hall newline (List.mem_reverse.mpr h)

theorem rtakeWhile_of_not_mem {t : Text} (h : newline ∉ t) :
    t.rtakeWhile (· != newline) = t := by
  rw [List.rtakeWhile_eq_self_iff]
  rintro b hb
  simpa using ne_of_mem_of_not_mem hb h

theorem lines_append (t rest : Text) : (lines (t ++ rest))[t.count newline]? =
    some (t.rtakeWhile (· != newline) ++ rest.takeWhile (· != newline)) := by
  induction t with
  | nil => exact lines_first rest
  | cons b t ih =>
    rw [List.cons_append, lines]
    by_cases hb : b = newline
    · rw [if_pos hb, hb, List.count_cons_self, List.getElem?_cons_succ, ih, rtakeWhile_newline]
    · rw [if_neg hb, List.count_cons_of_ne hb]
      cases hl : lines (t ++ rest) with
      | nil => exact absurd hl (lines_ne_nil _)
      | cons line more =>
        rw [hl] at ih
        by_cases hmem : newline ∈ t
        · obtain ⟨k, hk⟩ := Nat.exists_eq_succ_of_ne_zero (List.count_pos_iff.mpr hmem).ne'
          rw [hk, List.getElem?_cons_succ] at ih ⊢
          rw [ih, rtakeWhile_cons_of_mem hmem]
        · rw [List.count_eq_zero.mpr hmem, rtakeWhile_of_not_mem hmem] at *
          rw [rtakeWhile_of_not_mem (List.not_mem_cons_of_ne_of_not_mem (Ne.symm hb) hmem)]
          simp_all

theorem rdropWhile_append_stop {p : UInt8 → Bool} {b : UInt8} (hb : p b = false) (s t : Text) :
    (s ++ b :: t).rdropWhile p = s ++ b :: t.rdropWhile p := by
  rw [List.rdropWhile, List.reverse_append, List.reverse_cons, List.append_assoc,
    List.singleton_append, Lexer.dropWhile_append_stop _ hb, List.reverse_append,
    List.reverse_cons, List.reverse_reverse, List.append_assoc]
  rfl

end Text

namespace Lexer

theorem gap_rest_head {t : Text} {b : UInt8} {rest : Text} (h : (gap t).rest = b :: rest) :
    isBlank b = false := by
  fun_induction gap t with
  | case1 => cases h
  | case2 a t hblank ih => exact ih h
  | case3 hblank => exact List.cons.inj h |>.1 ▸ eq_false_of_ne_true hblank
  | case4 t hblank ih => exact ih h
  | case5 t body rest hc hblank _ ih => exact ih h
  | case6 t hc hblank => exact List.cons.inj h |>.1 ▸ eq_false_of_ne_true hblank
  | case7 c t _ _ hblank => exact List.cons.inj h |>.1 ▸ eq_false_of_ne_true hblank
  | case8 a t hblank => exact List.cons.inj h |>.1 ▸ eq_false_of_ne_true hblank

theorem scanFrom_starts (p : Position) (t : Text) : ∀ x ∈ (scanFrom p t).tokens,
    ∃ before b after, t = before ++ b :: after ∧ x.pos = p.after before ∧ isBlank b = false := by
  fun_induction scanFrom p t with
  | case1 => simp
  | case2 p t start b rest hg hc l more ih =>
    have ht : t = (gap t).skipped ++ b :: rest := hg ▸ (gap_append t).symm
    refine List.forall_mem_cons.mpr ⟨⟨_, b, rest, ht, rfl, gap_rest_head hg⟩, ?_⟩
    intro x hx
    obtain ⟨before, c, after, hrest, hpos, hblank⟩ := ih x hx
    refine ⟨(gap t).skipped ++ (l.bytes ++ before), c, after, ?_, ?_, hblank⟩
    · obtain ⟨hsplit, -⟩ := lexeme_splits b rest
      rw [List.append_assoc, List.append_assoc, ← hrest, hsplit]
      exact ht
    · rw [hpos, Position.after_append, Position.after_append]
  | case3 p t start b rest hg =>
    have ht : t = (gap t).skipped ++ b :: rest := hg ▸ (gap_append t).symm
    exact List.forall_mem_singleton.mpr ⟨_, b, rest, ht, rfl, gap_rest_head hg⟩

end Lexer

namespace Position

theorem eq_of_after {source s t : Text} (hs : s <+: source) (ht : t <+: source)
    (h : first.after s = first.after t) : s = t := by
  obtain ⟨u, rfl⟩ | ⟨u, rfl⟩ := List.prefix_or_prefix_of_prefix hs ht
  · rw [after_append] at h
    rw [after_eq_self h.symm, List.append_nil]
  · rw [after_append] at h
    rw [after_eq_self h, List.append_nil]

end Position

namespace Frame

/-- The bytes before the caret: a tab for a tab, nothing for a continuation byte of UTF-8, and a
blank for any other byte. -/
def image (t : Text) : Text := t.flatMap fun b =>
  if b = Text.tab then [Text.tab] else if Text.isContinuation b then [] else [Text.blank]

def layout (line column : Nat) (text before : Text) : Text :=
  "  --> line " ++ Text.decimal line ++ ", column " ++ Text.decimal column ++ [Text.newline] ++
    Text.blank :: Text.decimal line ++ " | " ++ text ++ [Text.newline] ++
    Text.blank :: Text.blanks (Text.decimal line).length ++ " | " ++ before ++ [Text.byte '^']

theorem padding_eq_image (t : Text) : padding t = image t := by
  rw [padding, image, List.filterMap_eq_flatMap_toList]
  refine congrArg (t.flatMap ·) (funext fun b => ?_)
  by_cases htab : b = Text.tab
  · rw [if_pos htab, if_pos htab, Option.toList_some]
  · rw [if_neg htab, if_neg htab]
    have hstarts : startsSequence b = !Text.isContinuation b := by
      rw [Bool.eq_iff_iff, Bool.not_eq_true', ← Bool.not_eq_true, Text.isContinuation_iff,
        startsSequence, Bool.or_eq_true, decide_eq_true_eq, decide_eq_true_eq,
        UInt8.lt_iff_toNat_lt, UInt8.lt_iff_toNat_lt]
      change b.toNat < 0x80 ∨ 0xBF < b.toNat ↔ _
      omega
    rw [hstarts]
    cases Text.isContinuation b <;> rfl

theorem render_eq_layout {source text : Text} {line column : Nat} (hne : source ≠ [])
    (hline : ((source.splitOn Text.newline)[line]?).map
      (List.rdropWhile (· == Text.carriageReturn)) = some text) (hcolumn : column < text.length) :
    render source ⟨line + 1, column + 1⟩ =
      layout (line + 1) (column + 1) text (image (text.take column)) := by
  have hpositive : ¬(source = [] ∨ (line + 1 : Int) ≤ 0) := by
    rintro (h | h)
    · exact hne h
    · omega
  have htext : line? source (line + 1) = some text := by
    rw [line?, if_neg hpositive, Text.lines_eq_splitOn, ← hline]
    rfl
  have hclamp : min (max (column + 1 : Int) 1) (text.length + 1) = column + 1 := by omega
  have hnat : ∀ n : Nat, Text.ofInt (n + 1) = Text.decimal (n + 1) := by
    intro n
    rw [Text.ofInt, if_neg (by omega)]
    exact congrArg Text.decimal (by omega)
  have hbefore : ((column + 1 : Int).toNat - 1) = column := by omega
  simp only [render, htext, hclamp, hnat, hbefore, padding_eq_image, layout]

end Frame

def Stop.pos? : Stop → Option Position
  | parse e => some e.pos
  | semantic e => some e.pos
  | fault _ => none

def Token.Spans (source : Text) (t : Token) (s : Span) : Prop :=
  ∃ spans, Separated source 0 spans ∧
    List.Forall₂ (Token.Covers source) (scan source).toList spans ∧
    (t, s) ∈ (scan source).toList.zip spans

theorem Token.exists_spans {source : Text} {t : Token} (h : t ∈ (scan source).toList) :
    ∃ s, t.Spans source s := by
  obtain ⟨spans, hseparated, hcovers⟩ := Lexer.scanFrom_laidOut [] source rfl
  obtain ⟨i, hi, rfl⟩ := List.getElem_of_mem h
  have hi' : i < spans.length := hcovers.length_eq ▸ hi
  refine ⟨spans[i], spans, hseparated, hcovers, ?_⟩
  rw [List.mem_iff_getElem]
  refine ⟨i, by rw [List.length_zip]; omega, List.getElem_zip⟩

theorem Token.Spans.covers {source : Text} {t : Token} {s : Span} (h : t.Spans source s) :
    t.Covers source s := by
  obtain ⟨spans, -, hcovers, hmem⟩ := h
  exact List.forall₂_iff_zip.mp hcovers |>.2 hmem

theorem exists_line {source before after : Text} {b : UInt8}
    (hsource : source = before ++ b :: after) (hb : Lexer.isBlank b = false) :
    ∃ (line column : Nat) (text : Text),
      Position.first.after before = ⟨line + 1, column + 1⟩ ∧
      ((source.splitOn Text.newline)[line]?).map
        (List.rdropWhile (· == Text.carriageReturn)) = some text ∧
      text[column]? = some b := by
  simp only [Lexer.isBlank, Bool.or_eq_false_iff] at hb
  obtain ⟨⟨-, hreturn⟩, hnewline⟩ := hb
  refine ⟨before.count Text.newline, (before.rtakeWhile (· != Text.newline)).length,
    before.rtakeWhile (· != Text.newline) ++
      b :: (after.takeWhile (· != Text.newline)).rdropWhile (· == Text.carriageReturn), ?_, ?_, ?_⟩
  · rw [Position.first_after, Position.mk.injEq, List.rtakeWhile, List.length_reverse]
    omega
  · rw [hsource, ← Text.lines_eq_splitOn, Text.lines_append, Option.map_some,
      List.takeWhile_cons_of_pos (by simpa using hnewline),
      Text.rdropWhile_append_stop (p := (· == Text.carriageReturn)) hreturn]
  · rw [List.getElem?_append_right (Nat.le_refl _), Nat.sub_self, List.getElem?_cons_zero]

theorem Token.Spans.first {source : Text} {t : Token} {s : Span} (h : t.Spans source s)
    (hk : t.kind ≠ .eof) : ∃ before b after, source = before ++ b :: after ∧
      s.start = before.length ∧ t.pos = Position.first.after before ∧
      Lexer.isBlank b = false := by
  have hcovers := h.covers
  obtain ⟨spans, -, -, hmem⟩ := h
  have ht : t ∈ (scan source).tokens := by
    rcases List.mem_append.mp (List.of_mem_zip hmem).1 with ht | ht
    · exact ht
    · rw [List.mem_singleton.mp ht] at hk
      exact absurd (scan_kinds source).1 hk
  obtain ⟨before, b, after, hsource, hpos, hb⟩ := Lexer.scanFrom_starts .first source t ht
  refine ⟨before, b, after, hsource, ?_, hpos, hb⟩
  have hplace := hcovers.place
  rw [Position.ofOffset, ← Position.first_after, hpos] at hplace
  rw [Position.eq_of_after ⟨b :: after, hsource.symm⟩ (List.take_prefix s.start source) hplace,
    List.length_take]
  have := hcovers.inside
  omega

theorem compile_error_token {source : Text} {stop : Stop} (h : compile source = .error stop) :
    ∃ t ∈ (scan source).toList,
      (∃ cause, stop = .parse ⟨t, cause⟩) ∨ ∃ violation, stop = .semantic ⟨some t, violation⟩ := by
  obtain ⟨text, _, hs, -, -⟩ | ⟨stop, stop', hs, -, hstop⟩ :=
    (compile_parallel (TokenStream.twin_byIndex (s := scan source) rfl)).ends
  · cases h.symm.trans hs
  · cases h.symm.trans hs
    cases hstop with
    | @parse t t' cause ht =>
      obtain ⟨i, hi, -⟩ := ht
      exact ⟨t, List.mem_of_getElem? hi, .inl ⟨cause, rfl⟩⟩
    | @semantic t t' violation ht =>
      obtain ⟨i, hi, -⟩ := ht
      exact ⟨t, List.mem_of_getElem? hi, .inr ⟨violation, rfl⟩⟩
    | fault => exact absurd hs (compile_ne_fault source _)

/-- An error is at a token of the source. Unless that is the end of input, its frame shows the
token's line with the carriage returns at its end cut off, in which the token's first byte stands in
the column of the error, and has the caret below that byte. -/
theorem errors_point_into_source {source : Text} {stop : Stop} (h : compile source = .error stop) :
    ∃ t ∈ (scan source).toList,
      ((∃ cause, stop = .parse ⟨t, cause⟩) ∨ ∃ violation, stop = .semantic ⟨some t, violation⟩) ∧
      (t.kind ≠ .eof → stop.report.frame source ≠ [] ∧
        ∃ (s : Span) (line column : Nat) (text : Text) (b : UInt8), t.Spans source s ∧
          stop.pos? = some ⟨line + 1, column + 1⟩ ∧
          stop.report.frame source =
            Frame.layout (line + 1) (column + 1) text (Frame.image (text.take column)) ∧
          ((source.splitOn Text.newline)[line]?).map
            (List.rdropWhile (· == Text.carriageReturn)) = some text ∧
          text[column]? = some b ∧ source[s.start]? = some b) := by
  obtain ⟨t, ht, hstop⟩ := compile_error_token h
  refine ⟨t, ht, hstop, fun hk => ?_⟩
  have hreport : stop.pos? = some t.pos ∧
      stop.report.frame source = Frame.render source t.pos := by
    obtain ⟨cause, rfl⟩ | ⟨violation, rfl⟩ := hstop
    · exact ⟨rfl, rfl⟩
    · exact ⟨rfl, rfl⟩
  obtain ⟨s, hspans⟩ := Token.exists_spans ht
  obtain ⟨before, b, after, hsource, hstart, hpos, hb⟩ := hspans.first hk
  obtain ⟨line, column, text, hplace, hline, hbyte⟩ := exists_line hsource hb
  have hcolumn : column < text.length := (List.getElem?_eq_some_iff.mp hbyte).1
  have hframe : stop.report.frame source =
      Frame.layout (line + 1) (column + 1) text (Frame.image (text.take column)) := by
    rw [hreport.2, hpos, hplace]
    exact Frame.render_eq_layout (by rw [hsource]; simp) hline hcolumn
  refine ⟨?_, s, line, column, text, b, hspans, ?_, hframe, hline, hbyte, ?_⟩
  · rw [hframe, Frame.layout]
    simp
  · rw [hreport.1, hpos, hplace]
  · rw [hstart, hsource, List.getElem?_append_right (Nat.le_refl _), Nat.sub_self,
      List.getElem?_cons_zero]

def undeclaredTotal : Text := Text.ofString
  "func main(): int \x7b\r\n\t/* \u00e9 */ return total;\r\n\x7d\r\n"

theorem errors_point_into_source_undeclaredTotal :
    let t : Token := ⟨.identifier, "total", ⟨2, 18⟩, none⟩
    compile undeclaredTotal = .error (.semantic ⟨some t, .undeclaredVariable "total"⟩) ∧
      ∃ s text b, t.Spans undeclaredTotal s ∧ text[17]? = some b ∧
        undeclaredTotal[s.start]? = some b ∧
        (Report.semantic ⟨some t, .undeclaredVariable "total"⟩).frame undeclaredTotal =
          Frame.layout 2 18 text (Frame.image (text.take 17)) := by
  intro t
  have hstop : compile undeclaredTotal =
      .error (.semantic ⟨some t, .undeclaredVariable "total"⟩) := by
    rw [undeclaredTotal, Text.ofString_ofList]
    decide +kernel
  obtain ⟨u, -, ⟨cause, hu⟩ | ⟨violation, hu⟩, hframe⟩ := errors_point_into_source hstop
  · cases hu
  · obtain rfl : t = u := by
      injection hu with hu
      injection hu with hu
      exact Option.some.inj hu
    obtain ⟨-, s, line, column, text, b, hspans, hpos, hframe, -, hbyte, hfirst⟩ :=
      hframe (by decide)
    injection hpos with hpos
    injection hpos with hline hcolumn
    change (2 : Int) = line + 1 at hline
    change (18 : Int) = column + 1 at hcolumn
    obtain rfl : line = 1 := by omega
    obtain rfl : column = 17 := by omega
    exact ⟨hstop, s, text, b, hspans, hbyte, hfirst, hframe⟩

end MiniSharp
