import MiniSharp.Proofs.Characters
import MiniSharp.Proofs.Lexemes
import MiniSharp.Proofs.PrintedLines

namespace MiniSharp.Target

open MiniSharp.Text (byte Clean)

/-- Reads a line at a depth of braces and gives the depth after it. A closing brace stands at the
depth it returns to, and all else at the depth it is read in, by four blanks each. -/
def readLine (depth : Nat) (line : Text) : Option Nat :=
  let indent := (line.takeWhile (· == Text.blank)).length
  let code := line.dropWhile (· == Text.blank)
  if line = [] then some depth
  else if code = [] then none
  else if code = [byte '\x7d'] then
    if 0 < depth ∧ indent = 4 * (depth - 1) then some (depth - 1) else none
  else if indent ≠ 4 * depth then none
  else if code = [byte '\x7b'] then some (depth + 1)
  else some depth

structure CodeText (t : Text) : Prop where
  clean : Clean t
  start : ∃ b rest, t = b :: rest ∧ b ≠ Text.blank
  brace : t ≠ [byte '\x7b'] ∧ t ≠ [byte '\x7d']

inductive Nested : List Line → Prop
  | nil : Nested []
  | blank : Nested [Line.blank]
  | code {t : Text} : CodeText t → Nested [⟨0, t⟩]
  | block {inside : List Line} : Nested inside → Nested (Line.braced inside)
  | append {ls ms : List Line} : Nested ls → Nested ms → Nested (ls ++ ms)

def Line.content (depth : Nat) (l : Line) : Text :=
  if l.text = [] then [] else Text.blanks (4 * (l.depth + depth)) ++ l.text

theorem Line.render_eq_content (l : Line) : l.render = l.content 0 ++ [Text.newline] := by
  unfold Line.render Line.content
  split
  · rfl
  · rfl

theorem Line.content_indent (depth : Nat) (l : Line) :
    l.indent.content depth = l.content (depth + 1) := by
  unfold Line.content Line.indent
  rw [Nat.add_assoc, Nat.add_comm 1]

theorem content_start {depth : Nat} {b : UInt8} {rest : Text} :
    (⟨0, b :: rest⟩ : Line).content depth = Text.blanks (4 * depth) ++ b :: rest := by
  unfold Line.content
  rw [if_neg (List.cons_ne_nil b rest), Nat.zero_add]

section Reading

variable {depth : Nat} {b : UInt8} {rest : Text}

theorem readLine_indented (hb : b ≠ Text.blank) (n : Nat) :
    readLine depth (Text.blanks n ++ b :: rest) =
      if b :: rest = [byte '\x7d'] then
        if 0 < depth ∧ n = 4 * (depth - 1) then some (depth - 1) else none
      else if n ≠ 4 * depth then none
      else if b :: rest = [byte '\x7b'] then some (depth + 1)
      else some depth := by
  have hblank : ∀ c ∈ Text.blanks n, (c == Text.blank) = true := by
    intro c hc
    rw [List.eq_of_mem_replicate hc, beq_self_eq_true]
  have hstop : (b == Text.blank) = false := beq_false_of_ne hb
  have htake := Lexer.takeWhile_blank (p := (· == Text.blank)) hblank hstop rest
  have hdrop := Lexer.dropWhile_blank (p := (· == Text.blank)) hblank hstop rest
  have hlength : (Text.blanks n).length = n := List.length_replicate
  have hne : Text.blanks n ++ b :: rest ≠ [] := by simp
  unfold readLine
  simp only [htake, hdrop, hlength, if_neg hne, if_neg (List.cons_ne_nil b rest)]

theorem readLine_code {t : Text} (h : CodeText t) :
    readLine depth ((⟨0, t⟩ : Line).content depth) = some depth := by
  obtain ⟨b, rest, rfl, hb⟩ := h.start
  rw [content_start, readLine_indented hb, if_neg h.brace.2, if_neg (fun h => h rfl),
    if_neg h.brace.1]

theorem readLine_open :
    readLine depth ((⟨0, [byte '\x7b']⟩ : Line).content depth) = some (depth + 1) := by
  rw [content_start, readLine_indented (by decide), if_neg (by decide), if_neg (fun h => h rfl),
    if_pos rfl]

theorem readLine_close :
    readLine (depth + 1) ((⟨0, [byte '\x7d']⟩ : Line).content depth) = some depth := by
  rw [content_start, readLine_indented (by decide), if_pos rfl, if_pos ⟨depth.succ_pos, rfl⟩]
  rfl

end Reading

theorem Nested.reads {ls : List Line} (h : Nested ls) (depth : Nat) :
    (ls.map (Line.content depth)).foldlM readLine depth = some depth := by
  induction h generalizing depth with
  | nil => rfl
  | blank => rfl
  | code ht =>
    rw [List.map_singleton, List.foldlM_cons, readLine_code ht]
    rfl
  | @block inside _ ih =>
    have hinside : (inside.map Line.indent).map (Line.content depth) =
        inside.map (Line.content (depth + 1)) := by
      rw [List.map_map]
      exact List.map_congr_left fun l _ => Line.content_indent depth l
    have hopen : ("\x7b" : Text) = [byte '\x7b'] := by decide
    have hclose : ("\x7d" : Text) = [byte '\x7d'] := by decide
    rw [Line.braced, hopen, hclose, List.map_append, List.map_cons, hinside, List.map_singleton,
      List.foldlM_append, List.foldlM_cons, readLine_open, Option.bind_eq_bind, Option.bind_some,
      ih, Option.bind_some, List.foldlM_cons, readLine_close]
    rfl
  | append _ _ ih ih' =>
    rw [List.map_append, List.foldlM_append, ih]
    exact ih' depth

theorem Nested.clean {ls : List Line} (h : Nested ls) : ∀ l ∈ ls, Clean l.text := by
  induction h with
  | nil => simp
  | blank => exact List.forall_mem_singleton.mpr .nil
  | code ht => exact List.forall_mem_singleton.mpr ht.clean
  | @block inside _ ih =>
    have hindent : ∀ l ∈ inside.map Line.indent, Clean l.text := List.forall_mem_map.mpr ih
    rw [Line.braced, List.cons_append, List.forall_mem_cons, List.forall_mem_append,
      List.forall_mem_singleton]
    exact ⟨Text.clean_ofList rfl, hindent, Text.clean_ofList rfl⟩
  | append _ _ ih ih' => exact List.forall_mem_append.mpr ⟨ih, ih'⟩

theorem clean_blanks (n : Nat) : Clean (Text.blanks n) :=
  Text.clean_of_printable fun b hb => by rw [List.eq_of_mem_replicate hb]; decide

theorem Line.content_clean {l : Line} (h : Clean l.text) (depth : Nat) :
    Clean (l.content depth) := by
  unfold Line.content
  split
  · exact .nil
  · exact (clean_blanks _).append h

theorem flatMap_lines (ts : List Text) :
    ts.flatMap (· ++ [Text.newline]) = [Text.newline].intercalate (ts ++ [[]]) := by
  induction ts with
  | nil => rfl
  | cons t ts ih =>
    rw [List.flatMap_cons, List.cons_append, List.intercalate_cons_of_ne_nil (by simp), ih]

/-- A file of encoded characters whose lines are nested: no control characters but newlines, one of
them at the end, and a depth of braces that never falls below zero and ends at zero. -/
structure WellStructured (text : Text) : Prop where
  encoded : ∃ cs : List Char, text = cs.flatMap String.utf8EncodeChar ∧
    ∀ c ∈ cs, Text.IsControl c → c = '\n'
  ended : text.getLast? = some Text.newline
  nested : (text.splitOn Text.newline).foldlM readLine 0 = some 0

theorem Nested.wellStructured {ls : List Line} (h : Nested ls) (hne : ls ≠ []) :
    WellStructured (ls.flatMap Line.render) := by
  have htext : ls.flatMap Line.render =
      (ls.map (Line.content 0)).flatMap (· ++ [Text.newline]) := by
    rw [List.flatMap_map]
    exact congrArg (ls.flatMap ·) (funext Line.render_eq_content)
  have hclean : ∀ t ∈ ls.map (Line.content 0), Clean t :=
    List.forall_mem_map.mpr fun l hl => Line.content_clean (h.clean l hl) 0
  rw [htext]
  constructor
  · generalize ls.map (Line.content 0) = ts at hclean
    induction ts with
    | nil => exact ⟨[], rfl, by simp⟩
    | cons t ts ih =>
      obtain ⟨⟨cs, rfl, hcs⟩, hts⟩ := List.forall_mem_cons.mp hclean
      obtain ⟨ds, hds, hcontrol⟩ := ih hts
      refine ⟨cs ++ '\n' :: ds, ?_, ?_⟩
      · rw [List.flatMap_cons, hds, List.flatMap_append, List.flatMap_cons, ← List.append_assoc]
        rfl
      · intro c hc hcontrol'
        rcases List.mem_append.mp hc with hc | hc
        · exact absurd hcontrol' (hcs c hc)
        · rcases List.mem_cons.mp hc with rfl | hc
          · rfl
          · exact hcontrol c hc hcontrol'
  · rcases List.eq_nil_or_concat (ls.map (Line.content 0)) with hnil | ⟨ts, t, hts⟩
    · exact absurd (List.map_eq_nil_iff.mp hnil) hne
    · simp [hts]
  · rw [flatMap_lines, List.splitOn_intercalate, List.foldlM_append, h.reads 0]
    · rfl
    · rw [List.forall_mem_append]
      exact ⟨fun t ht => (hclean t ht).newline_not_mem, by simp⟩
    · simp

structure Tidy (t : Text) : Prop where
  clean : Clean t
  start : ∃ b rest, t = b :: rest ∧ b ≠ Text.blank

theorem Tidy.append {s t : Text} (hs : Tidy s) (ht : Clean t) : Tidy (s ++ t) := by
  obtain ⟨b, rest, rfl, hb⟩ := hs.start
  exact ⟨hs.clean.append ht, b, rest ++ t, rfl, hb⟩

theorem Tidy.code {t s : Text} (ht : Tidy t) (hs : s ∈ ([";", ")", ");"] : List Text)) :
    CodeText (t ++ s) := by
  have hends : ∀ s ∈ ([";", ")", ");"] : List Text), Clean s ∧ s ≠ [] ∧
      ∀ b ∈ s, b ≠ byte '\x7b' ∧ b ≠ byte '\x7d' := by
    simp only [List.forall_mem_cons]
    exact ⟨⟨Text.clean_ofList rfl, by decide +kernel⟩, ⟨Text.clean_ofList rfl, by decide +kernel⟩,
      ⟨Text.clean_ofList rfl, by decide +kernel⟩, by simp⟩
  obtain ⟨hclean, hne, hbrace⟩ := hends s hs
  have hne' : ∀ {b : UInt8}, b ∉ s → t ++ s ≠ [b] := by
    intro b hb he
    obtain ⟨c, hc⟩ := List.exists_mem_of_ne_nil s hne
    have hmem : c ∈ [b] := he ▸ List.mem_append_right t hc
    exact hb (List.mem_singleton.mp hmem ▸ hc)
  have htidy := ht.append hclean
  exact ⟨htidy.clean, htidy.start, hne' fun h => (hbrace _ h).1 rfl,
    hne' fun h => (hbrace _ h).2 rfl⟩

theorem Nested.cons {t : Text} {ls : List Line} (ht : CodeText t) (h : Nested ls) :
    Nested (⟨0, t⟩ :: ls) :=
  .append (.code ht) h

end MiniSharp.Target
