import MiniSharp.Proofs.Lexemes
import MiniSharp.Proofs.ParserCursor
import MiniSharp.Token.Lookahead

namespace MiniSharp

namespace TokenStream

def tail (s : TokenStream) : TokenStream := ⟨s.tokens.tail, s.eof⟩

def token (s : TokenStream) (k : Nat) : Token := s.tokens.getD k s.eof

theorem token_zero (s : TokenStream) : s.token 0 = s.current := by
  rw [token, current]
  cases s.tokens <;> rfl

theorem token_tail (s : TokenStream) (k : Nat) : s.tail.token k = s.token (k + 1) := by
  rw [token, tail, token]
  cases s.tokens <;> rfl

end TokenStream

namespace Lexer

def Cursor.stream (c : Cursor) : TokenStream := scanFrom c.position c.rest

theorem Cursor.stream_end (p : Position) : (Cursor.mk p []).stream = ⟨[], .eof p⟩ := by
  rw [stream, scanFrom_eq_afterGap, gap]
  rfl

theorem Cursor.next_eq (c : Cursor) :
    c.next.1 = c.stream.current ∧ c.next.2.stream = c.stream.tail := by
  rw [stream, scanFrom_eq_afterGap, afterGap, Cursor.next]
  cases (gap c.rest).rest with
  | nil => exact ⟨rfl, stream_end _⟩
  | cons b rest =>
    cases (gap c.rest).closed with
    | true => exact ⟨rfl, rfl⟩
    | false => exact ⟨rfl, stream_end _⟩

end Lexer

namespace Lookahead

open Lexer (Cursor)

def Holds (c : Cursor) : List Token → TokenStream → Prop
  | [], s => c.stream = s
  | t :: rest, s => t = s.current ∧ Holds c rest s.tail

variable {c : Cursor} {buffer : List Token} {s : TokenStream}

theorem Holds.next (h : Holds c buffer s) : Holds c.next.2 (buffer ++ [c.next.1]) s := by
  induction buffer generalizing s with
  | nil =>
    cases h
    exact c.next_eq
  | cons t rest ih => exact ⟨h.1, ih h.2⟩

theorem Holds.get (h : Holds c buffer s) {k : Nat} (hk : k < buffer.length) :
    buffer.get ⟨k, hk⟩ = s.token k := by
  induction buffer generalizing s k with
  | nil => cases hk
  | cons t rest ih =>
    cases k with
    | zero => exact h.1.trans s.token_zero.symm
    | succ k => exact (ih h.2 (Nat.lt_of_succ_lt_succ hk)).trans (s.token_tail k)

def Shows {n : Nat} (p : Lookahead n) (s : TokenStream) : Prop := Holds p.lexer p.buffer s

theorem Holds.fill (h : Holds c buffer s) (n : Nat) : (fill n c buffer).Shows s := by
  fun_induction Lookahead.fill n c buffer with
  | case1 c buffer hlt ih => exact ih h.next
  | case2 c buffer hlt => exact h

theorem start_shows (source : Text) : (start source).Shows (scan source) := by
  have h : Holds ⟨.first, source⟩ [] (scan source) := rfl
  exact h.fill 1

variable {p : Lookahead 1}

namespace Shows

theorem current_eq (h : p.Shows s) : p.current = s.current :=
  (Holds.get h p.le).trans s.token_zero

theorem peek (h : p.Shows s) (k : Nat) : (p.peek k).1 = s.token k ∧ (p.peek k).2.Shows s :=
  ⟨Holds.get (Holds.fill h (k + 1)) _, Holds.fill h (k + 1)⟩

theorem advance (h : p.Shows s) : p.advance.1 = s.current ∧ p.advance.2.Shows s.tail := by
  refine ⟨h.current_eq, Holds.fill ?_ 1⟩
  obtain ⟨lexer, buffer, hle⟩ := p
  cases buffer with
  | nil => cases hle
  | cons t rest => exact h.2

theorem at?_eq (h : p.Shows s) (heof : s.eof.kind = .eof) {kind : TokenKind} (hk : kind ≠ .eof) :
    Parser.at? kind s.tokens = (p.current.kind == kind) := by
  rw [h.current_eq, TokenStream.current]
  cases s.tokens with
  | nil =>
    rw [List.headD_nil, heof]
    exact (beq_false_of_ne hk.symm).symm
  | cons t rest => rfl

theorem expect_ok (h : p.Shows s) {kind : TokenKind} {what : Expectation}
    {r : Parser.Read Token s.tokens.length} (hr : Parser.expect kind what s.tokens = .ok r) :
    ∃ q, p.expect? kind = some (r.value, q) ∧ q.Shows ⟨r.rest, s.eof⟩ := by
  obtain ⟨tokens, eof⟩ := s
  obtain ⟨hfirst, hrest⟩ := h.advance
  cases tokens with
  | nil => cases hr
  | cons t rest =>
    rw [Parser.expect] at hr
    split at hr
    · next hkind =>
      cases hr
      refine ⟨p.advance.2, ?_, hrest⟩
      rw [expect?, if_pos (h.current_eq ▸ hkind)]
      exact congrArg some (Prod.ext hfirst rfl)
    · cases hr

theorem expect_error (h : p.Shows s) (heof : s.eof.kind = .eof) {kind : TokenKind} (hk : kind ≠ .eof)
    {what : Expectation} {f : Parser.Failure} (hf : Parser.expect kind what s.tokens = .error f) :
    p.expect? kind = none ∧ f.rest = s.tokens := by
  obtain ⟨tokens, eof⟩ := s
  rw [expect?, h.current_eq]
  cases tokens with
  | nil =>
    cases hf
    exact ⟨if_neg (heof ▸ hk.symm), rfl⟩
  | cons t rest =>
    rw [Parser.expect] at hf
    split at hf
    · cases hf
    · next hkind =>
      cases hf
      exact ⟨if_neg hkind, rfl⟩

theorem isAssignment_eq (h : p.Shows s) (heof : s.eof.kind = .eof) :
    Parser.isAssignment s.tokens =
      (p.current.kind == .identifier && (p.peek 1).1.kind == .assign) := by
  rw [h.current_eq, (h.peek 1).1]
  obtain ⟨tokens, eof⟩ := s
  cases tokens with
  | nil =>
    have hfirst : (TokenStream.current ⟨[], eof⟩).kind = .eof := heof
    rw [hfirst]
    rfl
  | cons t rest =>
    cases rest with
    | nil =>
      have hsecond : (TokenStream.token ⟨[t], eof⟩ 1).kind = .eof := heof
      rw [hsecond]
      exact (Bool.and_false _).symm
    | cons a rest => rfl

end Shows

end Lookahead

inductive Ask
  | current
  | peek (k : Nat)
  | advance
deriving DecidableEq

def Lookahead.answer (p : Lookahead 1) : Ask → Token × Lookahead 1
  | .current => (p.current, p)
  | .peek k => p.peek k
  | .advance => p.advance

def TokenStream.answer (s : TokenStream) : Ask → Token × TokenStream
  | .current => (s.current, s)
  | .peek k => (s.token k, s)
  | .advance => (s.current, s.tail)

def answers {σ : Type} (answer : σ → Ask → Token × σ) (s : σ) : List Ask → List Token × σ
  | [] => ([], s)
  | a :: rest =>
    let later := answers answer (answer s a).2 rest
    ((answer s a).1 :: later.1, later.2)

namespace Lookahead

variable {p : Lookahead 1} {s : TokenStream}

theorem Shows.answer (h : p.Shows s) (a : Ask) :
    (p.answer a).1 = (s.answer a).1 ∧ (p.answer a).2.Shows (s.answer a).2 := by
  cases a with
  | current => exact ⟨h.current_eq, h⟩
  | peek k => exact h.peek k
  | advance => exact h.advance

theorem Shows.answers (h : p.Shows s) (asks : List Ask) :
    (answers Lookahead.answer p asks).1 = (answers TokenStream.answer s asks).1 ∧
      (answers Lookahead.answer p asks).2.Shows (answers TokenStream.answer s asks).2 := by
  induction asks generalizing p s with
  | nil => exact ⟨rfl, h⟩
  | cons a rest ih =>
    obtain ⟨hfirst, hnext⟩ := h.answer a
    obtain ⟨hlater, hlast⟩ := ih hnext
    exact ⟨congrArg₂ List.cons hfirst hlater, hlast⟩

end Lookahead

theorem TokenStream.answers_rest (s : TokenStream) (asks : List Ask) :
    (answers TokenStream.answer s asks).2 = ⟨s.tokens.drop (asks.count .advance), s.eof⟩ := by
  induction asks generalizing s with
  | nil => rfl
  | cons a rest ih =>
    rw [answers, ih]
    cases a with
    | current | peek => rfl
    | advance =>
      rw [List.count_cons_self, Nat.add_comm, ← List.drop_drop, List.drop_one]
      rfl

/-- A parser that looks ahead as far as it likes is answered from the tokens of the source, and
between two calls it holds the tokens from which the next call reads. -/
theorem lookahead_follows_tokens (source : Text) :
    (∀ asks, (answers Lookahead.answer (.start source) asks).1 =
        (answers TokenStream.answer (scan source) asks).1) ∧
      ∀ calls, ∃ taken, ∀ asks, asks.count .advance = taken →
        (answers Lookahead.answer (.start source) asks).2.Shows ((scan source).after calls) := by
  have hstart := Lookahead.start_shows source
  refine ⟨fun asks => (hstart.answers asks).1, fun calls => ?_⟩
  obtain ⟨hsuffix, heof⟩ := (scan source).after_suffix calls
  refine ⟨(scan source).tokens.length - ((scan source).after calls).tokens.length, ?_⟩
  intro asks hasks
  have hshows := (hstart.answers asks).2
  rwa [TokenStream.answers_rest, hasks, ← List.suffix_iff_eq_drop.mp hsuffix, ← heof] at hshows

end MiniSharp
