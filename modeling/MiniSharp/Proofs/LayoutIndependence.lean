import MiniSharp.Proofs.Totality
import MiniSharp.Proofs.TokenLayout
import MiniSharp.Proofs.TwinChecking
import MiniSharp.Proofs.TwinLowering
import MiniSharp.Proofs.TwinReading

namespace MiniSharp

def Token.content (t : Token) : TokenKind × Text × Option Problem := (t.kind, t.text, t.problem)

theorem Token.content_of_index {ts ts' : List Token}
    (h : ts.map Token.content = ts'.map Token.content) {t t' : Token}
    (ht : ∃ i : Nat, ts[i]? = some t ∧ ts'[i]? = some t') : t.content = t'.content := by
  obtain ⟨i, hi, hi'⟩ := ht
  have hc : (ts.map Token.content)[i]? = (ts'.map Token.content)[i]? := by rw [h]
  simpa only [List.getElem?_map, hi, hi', Option.map_some, Option.some.injEq] using hc

def TokenPairing.byIndex (ts ts' : List Token)
    (h : ts.map Token.content = ts'.map Token.content) : TokenPairing where
  pairs t t' := ∃ i : Nat, ts[i]? = some t ∧ ts'[i]? = some t'
  kind ht := congrArg Prod.fst (Token.content_of_index h ht)
  text ht := congrArg (fun c => c.2.1) (Token.content_of_index h ht)
  problem ht := congrArg (fun c => c.2.2) (Token.content_of_index h ht)

theorem TokenStream.twin_byIndex {s s' : TokenStream}
    (h : s.toList.map Token.content = s'.toList.map Token.content) :
    TokenStream.Twin (.byIndex s.toList s'.toList h) s s' := by
  have hlen : s.tokens.length = s'.tokens.length := by
    have := congrArg List.length h
    simpa only [toList, List.length_map, List.length_append, List.length_singleton,
      Nat.add_right_cancel_iff] using this
  constructor
  · rw [List.forall₂_iff_get]
    refine ⟨hlen, fun i hi hi' => ⟨i, ?_, ?_⟩⟩
    · rw [toList, List.getElem?_append_left hi, List.getElem?_eq_getElem hi, List.get_eq_getElem]
    · rw [toList, List.getElem?_append_left hi', List.getElem?_eq_getElem hi',
        List.get_eq_getElem]
  · refine ⟨s.tokens.length, ?_, ?_⟩
    · rw [toList, List.getElem?_concat_length]
    · rw [toList, hlen, List.getElem?_concat_length]

theorem compile_parallel {R : TokenPairing} {source other : Text}
    (h : TokenStream.Twin R (scan source) (scan other)) :
    Parallel (Stop.Twin R) Eq (compile source) (compile other) := by
  have hcheck : Typing.Agrees R
      (fun a a' => Program.Twin R (Note.Twin R) a.program a'.program) (check source)
      (check other) := h.readProgram.bind fun _ _ hx => hx.analyze
  apply hcheck.bind
  intro a a' ha
  rw [Program.toCSharp, Program.toCSharp, ha.lower]
  cases a'.program.lower with
  | ok methods => exact .ok rfl
  | error f => exact .error .fault

theorem compile_ne_fault (source : Text) (f : Fault) : compile source ≠ .error (.fault f) := by
  intro h
  cases hx : parse source with
  | error e =>
    rw [compile_of_parse_error hx] at h
    cases h
  | ok x =>
    have hform := parse_formed hx (scan_wellSpelled source)
    cases hs : x.analyze with
    | ok a =>
      obtain ⟨methods, hl, -⟩ := Program.lower_emitted hform hs
      rw [compile_of_check (check_eq_ok.mpr ⟨x, hx, hs⟩) (toCSharp_of_lower hl)] at h
      cases h
    | error s =>
      rw [compile_of_analyze_error hx hs] at h
      rw [← Program.analyze_toTree hform] at hs
      obtain ⟨e, rfl⟩ := Tree.analyze_faultless (Program.toTree_shaped hform) s hs
      cases h

theorem scan_idxOf? {source : Text} {t : Token} {i : Nat}
    (h : (scan source).toList[i]? = some t) : (scan source).toList.idxOf? t = some i := by
  obtain ⟨hi, rfl⟩ := List.getElem?_eq_some_iff.mp h
  refine List.idxOf?_eq_some_iff.mpr ⟨hi, rfl, fun j hj he => ?_⟩
  have hnodup : (scan source).toList.Nodup := Lexer.scanFrom_nodup .first source
  exact Nat.ne_of_lt hj (hnodup.getElem_inj_iff.mp he)

/-- Sources whose tokens agree one by one in kind, text and problem are both compiled, to the same
text, or both refused for the same cause, and so in the same words, at tokens with the same
number. -/
theorem compile_ignores_layout {source other : Text}
    (h : (scan source).toList.map Token.content = (scan other).toList.map Token.content) :
    (∃ text, compile source = .ok text ∧ compile other = .ok text) ∨
      ∃ i t t', (scan source).toList.idxOf? t = some i ∧ (scan other).toList.idxOf? t' = some i ∧
        ((∃ cause, compile source = .error (.parse ⟨t, cause⟩) ∧
            compile other = .error (.parse ⟨t', cause⟩)) ∨
          ∃ violation, compile source = .error (.semantic ⟨some t, violation⟩) ∧
            compile other = .error (.semantic ⟨some t', violation⟩)) := by
  obtain ⟨text, _, hs, ho, rfl⟩ | ⟨stop, stop', hs, ho, hstop⟩ :=
    (compile_parallel (TokenStream.twin_byIndex h)).ends
  · exact .inl ⟨text, hs, ho⟩
  · right
    cases hstop with
    | @parse t t' cause ht =>
      obtain ⟨i, hi, hi'⟩ := ht
      exact ⟨i, t, t', scan_idxOf? hi, scan_idxOf? hi', .inl ⟨cause, hs, ho⟩⟩
    | @semantic t t' violation ht =>
      obtain ⟨i, hi, hi'⟩ := ht
      exact ⟨i, t, t', scan_idxOf? hi, scan_idxOf? hi', .inr ⟨violation, hs, ho⟩⟩
    | fault => exact absurd hs (compile_ne_fault source _)

def oneLine : Text := Text.ofString "func main(): int \x7b return 1 + 2; \x7d"

def spreadOut : Text := Text.ofString
  "func main ( ) :int // the sum

   \x7b return 1+ /* and */ 2 ;
   \x7d"

theorem compile_ignores_layout_spreadOut :
    (scan oneLine).toList.map Token.content = (scan spreadOut).toList.map Token.content ∧
      ∃ text, compile oneLine = .ok text ∧ compile spreadOut = .ok text := by
  have hsame : (scan oneLine).toList.map Token.content =
      (scan spreadOut).toList.map Token.content := by
    rw [oneLine, spreadOut, Text.ofString_ofList, Text.ofString_ofList]
    decide +kernel
  have hok : (compile oneLine).isOk := by
    rw [oneLine, Text.ofString_ofList]
    decide +kernel
  obtain h | ⟨i, t, t', -, -, ⟨cause, h, -⟩ | ⟨violation, h, -⟩⟩ := compile_ignores_layout hsame
  · exact ⟨hsame, h⟩
  · rw [h] at hok
    cases hok
  · rw [h] at hok
    cases hok

end MiniSharp
