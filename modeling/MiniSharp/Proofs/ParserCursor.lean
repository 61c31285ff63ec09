import MiniSharp.Proofs.Acceptance

namespace MiniSharp

open Grammar (Phrase Expression Function)

inductive Call
  | program
  | expression

namespace Call

def Derives (s : TokenStream) : Call → Program Unit ⊕ Expr Unit → Prop
  | program, a => ∃ ds : List Function, Phrase.tokens ds = s.tokens ∧
      .inl ⟨s.current, ds.map Function.func⟩ = a
  | expression, a => ∃ d : Expression, Phrase.tokens d = s.tokens ∧ .inr d.expr = a

def Begins : Call → List Token → Prop
  | program, w => ∃ ds : List Function, w <+: Phrase.tokens ds
  | expression, w => ∃ d : Expression, w <+: Phrase.tokens d

end Call

namespace TokenStream

def call (s : TokenStream) : Call → Except ParseError (Program Unit ⊕ Expr Unit) × TokenStream
  | .program => (s.readProgram.1.map .inl, s.readProgram.2)
  | .expression => (s.readExpression.1.map .inr, s.readExpression.2)

def after (s : TokenStream) (calls : List Call) : TokenStream :=
  calls.foldl (fun s c => (s.call c).2) s

/-- A call on `s` that reads the tokens of a stream from the `n`-th on and stops at the `m`-th. -/
structure Moves (all s : TokenStream) (c : Call) (n m : Nat) : Prop where
  le : n ≤ m ∧ m ≤ all.tokens.length
  start : ∀ k, s.take k = (all.take (n + k)).drop n
  stop : ∀ k, (s.call c).2.take k = (all.take (m + k)).drop m
  answer : ∀ a, (s.call c).1 = .ok a ↔ c.Derives s a
  error : ∀ e, (s.call c).1 = .error e →
    c.Begins ((all.take m).drop n) ∧ e.token ∉ all.take m ∧
      all.take (m + 1) = all.take m ++ [e.token] ∧ (s.call c).2.current = e.token
  ok : ∀ a, (s.call c).1 = .ok a → m = all.tokens.length ∧
    ∀ later, (((s.call c).2.after later).call .program).1 = .ok (.inl ⟨all.eof, []⟩) ∧
      (((s.call c).2.after later).call .expression).1 = .error ⟨all.eof, .expected .expression⟩

variable {s all : TokenStream} {c : Call}

theorem after_concat (s : TokenStream) (calls : List Call) (c : Call) :
    s.after (calls ++ [c]) = ((s.after calls).call c).2 := by
  simp only [after, List.foldl_append, List.foldl_cons, List.foldl_nil]

theorem call_eq_ok_iff {a : Program Unit ⊕ Expr Unit} :
    (s.call c).1 = .ok a ↔ c.Derives s a := by
  cases c with
  | program =>
    have hread : (s.call .program).1 = .ok a ↔
        ∃ fs, Parser.functions s.tokens = .ok fs ∧ .inl ⟨s.current, fs⟩ = a := by
      simp only [call, readProgram]
      cases Parser.functions s.tokens <;> simp [Except.map]
    rw [hread]
    constructor
    · rintro ⟨fs, hfs, rfl⟩
      obtain ⟨ds, hds, rfl⟩ := functions_eq_ok_iff.mp hfs
      exact ⟨ds, hds, rfl⟩
    · rintro ⟨ds, hds, rfl⟩
      exact ⟨_, functions_eq_ok_iff.mpr ⟨ds, hds, rfl⟩, rfl⟩
  | expression =>
    constructor
    · intro h
      simp only [call, readExpression] at h
      split at h
      · cases h
      · next r hr =>
        split at h
        · next hrest =>
          cases h
          obtain ⟨d, hd, he⟩ := (Parser.expression_reads s.tokens fun _ : Unit => []).ok r hr
          exact ⟨d, by rw [hd, hrest, List.append_nil], by rw [he]⟩
        · cases h
    · rintro ⟨d, hd, rfl⟩
      have hgives := Parser.expression_gives d (r := []) (by simp [Parser.Ends])
      rw [List.append_nil, hd] at hgives
      obtain ⟨_, hgives⟩ := hgives
      simp only [call, readExpression, hgives]
      rfl

structure Stops (s : TokenStream) (c : Call) (w rest : List Token) : Prop where
  split : s.tokens = w ++ rest
  left : (s.call c).2 = ⟨rest, s.eof⟩
  error : ∀ e, (s.call c).1 = .error e → c.Begins w ∧ e.token = rest.headD s.eof
  ok : ∀ a, (s.call c).1 = .ok a → rest = []

theorem Stops.of_ok {a : Program Unit ⊕ Expr Unit} (h : s.call c = (.ok a, ⟨[], s.eof⟩)) :
    s.Stops c s.tokens [] := by
  refine ⟨(List.append_nil _).symm, by rw [h], ?_, fun _ _ => rfl⟩
  intro e he
  rw [h] at he
  cases he

theorem Stops.of_error {w : List Token} {f : Parser.Failure} (hw : s.tokens = w ++ f.rest)
    (hbegins : c.Begins w) (h : s.call c = (.error (f.error s.eof), ⟨f.rest, s.eof⟩)) :
    s.Stops c w f.rest := by
  refine ⟨hw, by rw [h], ?_, ?_⟩
  · intro e he
    rw [h] at he
    cases he
    exact ⟨hbegins, error_token f s.eof⟩
  · intro a ha
    rw [h] at ha
    cases ha

theorem exists_stops (s : TokenStream) (c : Call) : ∃ w rest, s.Stops c w rest := by
  cases c with
  | program =>
    cases hf : Parser.functions s.tokens with
    | ok fs =>
      refine ⟨_, _, .of_ok (a := .inl ⟨s.current, fs⟩) ?_⟩
      simp only [call, readProgram, hf]
      rfl
    | error f =>
      obtain ⟨w, hw, ds, more, hds, -⟩ := functions_error hf
      refine ⟨w, f.rest, .of_error hw ⟨ds, more, hds.symm⟩ ?_⟩
      simp only [call, readProgram, hf]
      rfl
  | expression =>
    have hreads := Parser.expression_reads s.tokens fun _ : Unit => []
    cases hr : Parser.expression s.tokens with
    | error f =>
      obtain ⟨w, hw, d, more, hd, -⟩ := hreads.error f hr
      refine ⟨w, f.rest, .of_error hw ⟨d, more, hd.symm⟩ ?_⟩
      simp only [call, readExpression, hr]
      rfl
    | ok r =>
      obtain ⟨d, hd, -⟩ := hreads.ok r hr
      cases hrest : r.rest with
      | nil =>
        refine ⟨_, _, .of_ok (a := .inr r.value) ?_⟩
        simp only [call, readExpression, hr, hrest]
        rfl
      | cons t rest =>
        -- What is read reaches to a token that is no part of it, and the error is there.
        refine ⟨_, _, .of_error (f := ⟨t :: rest, .endOfSource⟩) (hrest ▸ hd) ⟨d, [], ?_⟩ ?_⟩
        · exact List.append_nil _
        · simp only [call, readExpression, hr, hrest]
          rfl

theorem after_suffix (s : TokenStream) (calls : List Call) :
    (s.after calls).tokens <:+ s.tokens ∧ (s.after calls).eof = s.eof := by
  induction calls using List.reverseRecOn with
  | nil => exact ⟨List.suffix_rfl, rfl⟩
  | append_singleton calls c ih =>
    obtain ⟨w, rest, hstops⟩ := (s.after calls).exists_stops c
    rw [after_concat, hstops.left]
    exact ⟨(hstops.split ▸ List.suffix_append w rest).trans ih.1, ih.2⟩

theorem call_end (heof : s.eof.kind = .eof) (h : s.tokens = []) :
    s.call .program = (.ok (.inl ⟨s.eof, []⟩), s) ∧
      s.call .expression = (.error ⟨s.eof, .expected .expression⟩, s) := by
  obtain ⟨tokens, eof⟩ := s
  cases h
  constructor
  · simp only [call, readProgram, Parser.functions, current, List.headD_nil]
    rfl
  · have hread : Parser.expression [] = .error ⟨[], .expression⟩ := by
      rw [Parser.expression, Parser.binary, Parser.unary]
      rfl
    simp only [call, readExpression, hread, Parser.Failure.error, List.headD_nil]
    split
    · next hk _ => rw [heof] at hk; cases hk
    · rfl

theorem after_end (heof : s.eof.kind = .eof) (h : s.tokens = []) (calls : List Call) :
    s.after calls = s := by
  induction calls using List.reverseRecOn with
  | nil => rfl
  | append_singleton calls c ih =>
    rw [after_concat, ih]
    cases c with
    | program => rw [(call_end heof h).1]
    | expression => rw [(call_end heof h).2]

theorem take_of_append {v : List Token} (h : all.tokens = v ++ s.tokens) (heof : all.eof = s.eof)
    (k : Nat) : s.take k = (all.take (v.length + k)).drop v.length := by
  have hmissing : v.length + k - (v ++ s.tokens).length = k - s.tokens.length := by
    rw [List.length_append]
    omega
  rw [take, take, h, heof, hmissing, List.take_length_add_append, List.append_assoc,
    List.drop_left]

theorem take_eq {n : Nat} (hn : n ≤ all.tokens.length + 1) : all.take n = all.toList.take n := by
  rw [take, toList, List.take_append]
  obtain h | h : n - all.tokens.length = 0 ∨ n - all.tokens.length = 1 := by omega
  · rw [h]
    rfl
  · rw [h]
    rfl

theorem Stops.moves {v w rest : List Token} (h : s.Stops c w rest) (hv : all.tokens = v ++ s.tokens)
    (heof : all.eof = s.eof) (hkind : all.eof.kind = .eof) (hnodup : all.toList.Nodup) :
    all.Moves s c v.length (v ++ w).length := by
  have hall : all.tokens = (v ++ w) ++ rest := by rw [hv, h.split, List.append_assoc]
  have hlist : all.toList = (v ++ w) ++ rest.headD all.eof :: (rest ++ [all.eof]).tail := by
    rw [toList, hall, List.append_assoc, ← headD_append_tail]
  have hle : (v ++ w).length ≤ all.tokens.length := by
    rw [hall]
    exact (List.prefix_append _ _).length_le
  have htake : all.take (v ++ w).length = v ++ w := by
    rw [take_eq (by omega), hlist, List.take_left]
  constructor
  · exact ⟨by simp, hle⟩
  · exact take_of_append hv heof
  · rw [h.left]
    exact take_of_append hall heof
  · exact fun a => call_eq_ok_iff
  · intro e he
    obtain ⟨hbegins, htoken⟩ := h.error e he
    rw [← heof] at htoken
    rw [htake, take_eq (by omega), hlist, htoken, h.left, List.take_length_add_append,
      List.drop_left]
    refine ⟨hbegins, ?_, rfl, ?_⟩
    · rw [hlist] at hnodup
      intro hmem
      exact (List.nodup_append.mp hnodup).2.2 _ hmem _ List.mem_cons_self rfl
    · rw [heof]
      rfl
  · intro a ha
    cases h.ok a ha
    rw [List.append_nil] at hall
    refine ⟨by rw [hall], fun later => ?_⟩
    rw [h.left, after_end (heof ▸ hkind) rfl, (call_end (heof ▸ hkind) rfl).1,
      (call_end (heof ▸ hkind) rfl).2, heof]
    exact ⟨rfl, rfl⟩

end TokenStream

/-- The calls of one parser go through the tokens of the source without a gap or an overlap, and an
error is at the token where the next call goes on. -/
theorem cursor_exact_across_calls (source : Text) :
    ∃ cursor : List Call → Nat, cursor [] = 0 ∧ ∀ calls c,
      (scan source).Moves ((scan source).after calls) c (cursor calls) (cursor (calls ++ [c])) := by
  refine ⟨fun calls => (scan source).tokens.length - ((scan source).after calls).tokens.length,
    Nat.sub_self _, fun calls c => ?_⟩
  obtain ⟨w, rest, hstops⟩ := ((scan source).after calls).exists_stops c
  obtain ⟨⟨v, hv⟩, heof⟩ := (scan source).after_suffix calls
  have hmoves := hstops.moves hv.symm heof.symm (scan_kinds source).1
    (Lexer.scanFrom_nodup .first source)
  have hstart : v.length =
      (scan source).tokens.length - ((scan source).after calls).tokens.length := by
    rw [← hv, List.length_append, Nat.add_sub_cancel]
  have hstop : (v ++ w).length =
      (scan source).tokens.length - ((scan source).after (calls ++ [c])).tokens.length := by
    rw [TokenStream.after_concat, hstops.left, ← hv, hstops.split]
    simp only [List.length_append, ← Nat.add_assoc, Nat.add_sub_cancel]
  rw [hstart, hstop] at hmoves
  exact hmoves

end MiniSharp
