import MiniSharp.Program.Parser
import MiniSharp.Proofs.Grammar
import MiniSharp.Proofs.Lexemes

/-!
What a step of reading does, as one judgement. If the step reads a value, the tokens it took are
those of a derivation that denotes the value. If it stops, the tokens before the one that does not
fit begin a derivation. And how it ends depends on nothing but the kinds and texts of the tokens up
to the first one that is left.
-/

namespace MiniSharp

def Token.form (t : Token) : TokenKind × Text := (t.kind, t.text)

def Token.Written (t : Token) : Prop := ∃ bytes, Spells t.kind t.text bytes

namespace Grammar

open Phrase (tokens)

class Productive (α : Type) [Phrase α] : Prop where
  sample : ∃ a : α, ∀ t ∈ tokens a, t.Written

section Combinators

variable {α β : Type} [Phrase α] [Phrase β]

instance [Productive α] [Productive β] : Productive (α × β) := by
  obtain ⟨a, ha⟩ := Productive.sample (α := α)
  obtain ⟨b, hb⟩ := Productive.sample (α := β)
  exact ⟨(a, b), List.forall_mem_append.mpr ⟨ha, hb⟩⟩

instance [Productive β] : Productive (α ⊕ β) := by
  obtain ⟨b, hb⟩ := Productive.sample (α := β)
  exact ⟨.inr b, hb⟩

instance : Productive (Option α) := ⟨none, List.forall_mem_nil _⟩

instance : Productive (List α) := ⟨[], List.forall_mem_nil _⟩

end Combinators

theorem productive_tok {kind : TokenKind} {text bytes : Text} (h : Spells kind text bytes) :
    Productive (Tok kind) :=
  ⟨⟨⟨kind, text, .first, none⟩, rfl⟩, List.forall_mem_singleton.mpr ⟨bytes, h⟩⟩

instance (word : Keyword) : Productive (Word word) := productive_tok (.keyword word)

instance (mark : Delimiter) : Productive (Mark mark) := productive_tok (.delimiter mark)

instance : Productive (Tok .assign) := productive_tok .assign

end Grammar

namespace Parser

open Grammar (Phrase Productive Tok)
open Grammar.Phrase (tokens)

variable {α β J : Type} {m n : Nat}

def Opens (D : Type) [Phrase D] (w : List Token) : Prop :=
  ∃ d : D, ∃ more, tokens d = w ++ more ∧ ∀ t ∈ more, t.Written

def ending (s : Step α n) : Bool × List Token :=
  match s with
  | .ok r => (true, r.rest)
  | .error f => (false, f.rest)

def thenEnding (s : Step α n) (next : Read α n → Bool × List Token) : Bool × List Token :=
  match s with
  | .ok r => next r
  | .error f => (false, f.rest)

theorem ending_bind {s : Step α m} {g : Read α m → Step β n} :
    ending (s >>= g) = thenEnding s fun r => ending (g r) := by
  cases s <;> rfl

theorem ending_pure {r : Read α n} : ending (pure r : Step α n) = (true, r.rest) := rfl

theorem thenEnding_rest {s : Step α n} : (thenEnding s fun r => (true, r.rest)) = ending s := by
  cases s <;> rfl

theorem eq_nil_of_head {ts' : List Token}
    (h : ([] : List Token).head?.map Token.form = ts'.head?.map Token.form) : ts' = [] := by
  cases ts' with
  | nil => rfl
  | cons t' ts' => cases h

theorem eq_cons_of_head {t : Token} {ts ts' : List Token}
    (h : (t :: ts).head?.map Token.form = ts'.head?.map Token.form) :
    ∃ t' rest, ts' = t' :: rest ∧ t.form = t'.form := by
  cases ts' with
  | nil => cases h
  | cons t' ts' => exact ⟨t', ts', rfl, Option.some.inj h⟩

theorem kind_of_form {t t' : Token} (h : t.form = t'.form) : t'.kind = t.kind :=
  (congrArg Prod.fst h).symm

theorem at?_eq_of_head {kind : TokenKind} {ts ts' : List Token}
    (h : ts.head?.map Token.form = ts'.head?.map Token.form) : at? kind ts' = at? kind ts := by
  cases ts with
  | nil => rw [eq_nil_of_head h]
  | cons t ts =>
    obtain ⟨t', rest, rfl, ht⟩ := eq_cons_of_head h
    rw [at?, at?, kind_of_form ht]

structure Alike (ts u ts' u' : List Token) : Prop where
  before : ∃ w w', ts = w ++ u ∧ ts' = w' ++ u' ∧ w.map Token.form = w'.map Token.form
  next : u.head?.map Token.form = u'.head?.map Token.form

namespace Alike

variable {ts u ts' u' : List Token}

theorem head (h : Alike ts u ts' u') : ts.head?.map Token.form = ts'.head?.map Token.form := by
  obtain ⟨⟨w, w', rfl, rfl, hw⟩, hu⟩ := h
  cases w with
  | nil =>
    cases List.map_eq_nil_iff.mp hw.symm
    exact hu
  | cons t w =>
    cases w' with
    | nil => cases hw
    | cons t' w' => exact congrArg some (List.cons.inj hw).1

theorem eq_right (h : Alike ts ts ts' u') : ts' = u' := by
  obtain ⟨⟨w, w', hts, rfl, hw⟩, -⟩ := h
  cases List.self_eq_append_left.mp hts
  cases List.map_eq_nil_iff.mp hw.symm
  rfl

theorem tail {t : Token} (h : Alike (t :: ts) u ts' u') (hu : ∃ x, ts = x ++ u) :
    (∃ t', ts' = t' :: ts'.tail ∧ t.form = t'.form) ∧ Alike ts u ts'.tail u' := by
  obtain ⟨⟨w, w', hts, rfl, hw⟩, hnext⟩ := h
  obtain ⟨x, rfl⟩ := hu
  have hwx : w = t :: x := List.append_cancel_right (hts.symm.trans (List.cons_append ..))
  subst hwx
  cases w' with
  | nil => cases hw
  | cons t' w' =>
    obtain ⟨ht, hw⟩ := List.cons.inj hw
    exact ⟨⟨t', rfl, ht⟩, ⟨⟨x, w', rfl, rfl, hw⟩, hnext⟩⟩

theorem split {a b : List Token} (h : Alike (a ++ b) u ts' u') (hu : ∃ x, b = x ++ u) :
    ∃ b', Alike (a ++ b) b ts' b' ∧ Alike b u b' u' := by
  obtain ⟨⟨w, w', hw, rfl, hforms⟩, hnext⟩ := h
  obtain ⟨x, rfl⟩ := hu
  have hwx : w = a ++ x := List.append_cancel_right (hw.symm.trans (List.append_assoc ..).symm)
  subst hwx
  rw [List.map_append] at hforms
  obtain ⟨a', x', rfl, ha, hx⟩ := List.map_eq_append_iff.mp hforms.symm
  have hright : Alike (x ++ u) u (x' ++ u') u' := ⟨⟨x, x', rfl, rfl, hx.symm⟩, hnext⟩
  exact ⟨x' ++ u', ⟨⟨a, a', rfl, List.append_assoc .., ha.symm⟩, hright.head⟩, hright⟩

end Alike

theorem ending_eq_true {s : Step α n} {u : List Token} (h : ending s = (true, u)) :
    ∃ r, s = .ok r ∧ r.rest = u := by
  cases s with
  | ok r => exact ⟨r, rfl, congrArg Prod.snd h⟩
  | error f => cases h

theorem ending_eq_false {s : Step α n} {u : List Token} (h : ending s = (false, u)) :
    ∃ f, s = .error f ∧ f.rest = u := by
  cases s with
  | ok r => cases h
  | error f => exact ⟨f, rfl, congrArg Prod.snd h⟩

/-- A step on `ts`, read as pieces `D` of the grammar with `Q` between the derivation, the value and
the tokens left; and how the same step ends on other lists of tokens. -/
structure Reads (D : Type) [Phrase D] (Q : D → α → List Token → Prop) (ts : List Token)
    (s : Step α n) (us : J → List Token) (q : J → Bool × List Token) : Prop where
  ok : ∀ r, s = .ok r → ∃ d : D, ts = tokens d ++ r.rest ∧ Q d r.value r.rest
  error : ∀ f, s = .error f → ∃ w, ts = w ++ f.rest ∧ Opens D w
  alike : ∀ j u, Alike ts (ending s).2 (us j) u → q j = ((ending s).1, u)

theorem opens_nil (D : Type) [Phrase D] [Productive D] : Opens D [] := by
  obtain ⟨d, hd⟩ := Productive.sample (α := D)
  exact ⟨d, _, rfl, hd⟩

namespace Reads

variable {D : Type} [Phrase D] {Q : D → α → List Token → Prop} {ts : List Token} {s : Step α n}
  {us : J → List Token} {q q' : J → Bool × List Token}

theorem suffix (h : Reads D Q ts s us q) : ∃ w, ts = w ++ (ending s).2 := by
  cases hs : s with
  | ok r =>
    obtain ⟨d, hd, -⟩ := h.ok r hs
    exact ⟨_, hd⟩
  | error f =>
    obtain ⟨w, hw, -⟩ := h.error f hs
    exact ⟨w, hw⟩

theorem of_ok {a : α} {rest : List Token} {h : rest.length < n} (d : D)
    (hts : ts = tokens d ++ rest) (hd : Q d a rest)
    (hq : ∀ j u, Alike ts rest (us j) u → q j = (true, u)) :
    Reads D Q ts (.ok ⟨a, rest, h⟩ : Step α n) us q := by
  refine ⟨?_, ?_, hq⟩
  · intro r hr
    cases hr
    exact ⟨d, hts, hd⟩
  · intro f hf
    cases hf

theorem fail [Productive D] {what : Expectation}
    (hq : ∀ j, ts.head?.map Token.form = (us j).head?.map Token.form → q j = (false, us j)) :
    Reads D Q ts (.error ⟨ts, what⟩ : Step α n) us q := by
  refine ⟨?_, ?_, ?_⟩
  · intro r hr
    cases hr
  · intro f hf
    cases hf
    exact ⟨[], rfl, opens_nil D⟩
  · intro j u h
    rw [hq j h.head, h.eq_right]
    rfl

theorem congr (h : Reads D Q ts s us q)
    (hq : ∀ j u, Alike ts (ending s).2 (us j) u → q' j = q j) : Reads D Q ts s us q' :=
  ⟨h.ok, h.error, fun j u hj => (hq j u hj).trans (h.alike j u hj)⟩

theorem map {D' : Type} [Phrase D'] {Q' : D' → α → List Token → Prop} (f : D → D')
    (hf : ∀ d, tokens (f d) = tokens d) (h : Reads D (fun d => Q' (f d)) ts s us q) :
    Reads D' Q' ts s us q := by
  refine ⟨?_, ?_, h.alike⟩
  · intro r hr
    obtain ⟨d, hd, hQd⟩ := h.ok r hr
    exact ⟨f d, by rw [hf, hd], hQd⟩
  · intro e he
    obtain ⟨w, hw, d, more, hd, hmore⟩ := h.error e he
    exact ⟨w, hw, f d, more, by rw [hf, hd], hmore⟩

theorem finish {Q' : D → β → List Token → Prop} {f : Read α m → β}
    {h : ∀ r : Read α m, r.rest.length < n} {s : Step α m} (hs : Reads D Q ts s us q)
    (hQ : ∀ d r, Q d r.value r.rest → Q' d (f r) r.rest) :
    Reads D Q' ts (s >>= fun r => pure ⟨f r, r.rest, h r⟩ : Step β n) us q := by
  refine ⟨?_, ?_, ?_⟩
  · intro r hr
    cases s with
    | error e => cases hr
    | ok x =>
      cases hr
      obtain ⟨d, hd, hQd⟩ := hs.ok x rfl
      exact ⟨d, hd, hQ d x hQd⟩
  · intro e he
    cases s with
    | error e' =>
      cases he
      exact hs.error e rfl
    | ok x => cases he
  · rw [ending_bind]
    simp only [ending_pure, thenEnding_rest]
    exact hs.alike

theorem reindex {K : Type} (h : Reads D Q ts s us q) (f : K → J) :
    Reads D Q ts s (fun k => us (f k)) fun k => q (f k) :=
  ⟨h.ok, h.error, fun k => h.alike (f k)⟩

theorem tail {D' : Type} [Phrase D'] {Q' : D' → α → List Token → Prop} {t : Token}
    (f : D → D') (hf : ∀ d, tokens (f d) = t :: tokens d)
    (h : Reads D (fun d => Q' (f d)) ts s
      (fun j : { j // ∃ t', us j = t' :: (us j).tail ∧ t.form = t'.form } => (us j).tail)
      fun j => q j) : Reads D' Q' (t :: ts) s us q := by
  refine ⟨?_, ?_, ?_⟩
  · intro r hr
    obtain ⟨d, hd, hQd⟩ := h.ok r hr
    exact ⟨f d, by rw [hf, hd, List.cons_append], hQd⟩
  · intro e he
    obtain ⟨w, hw, d, more, hd, hmore⟩ := h.error e he
    exact ⟨t :: w, by rw [hw, List.cons_append], f d, more, by rw [hf, hd, List.cons_append], hmore⟩
  · intro j u hj
    obtain ⟨hhead, htail⟩ := hj.tail h.suffix
    exact h.alike ⟨j, hhead⟩ u htail

theorem cons {D' : Type} [Phrase D'] {Q' : D' → α → List Token → Prop} {t : Token}
    (next : J × Token × List Token → Bool × List Token) (f : D → D')
    (hf : ∀ d, tokens (f d) = t :: tokens d)
    (h : Reads D (fun d => Q' (f d)) ts s (fun p : J × Token × List Token => p.2.2) next)
    (hq : ∀ j t' rest', us j = t' :: rest' → t.form = t'.form → q j = next (j, t', rest')) :
    Reads D' Q' (t :: ts) s us q := by
  let partner (j : { j // ∃ t', us j = t' :: (us j).tail ∧ t.form = t'.form }) :=
    (j.1, j.2.choose, (us j.1).tail)
  refine tail f hf ((h.reindex partner).congr ?_)
  intro j _ _
  exact hq j.1 _ _ j.2.choose_spec.1 j.2.choose_spec.2

theorem onCons {t : Token} (next : J × Token × List Token → Bool × List Token)
    (h : Reads D Q (t :: ts) s (fun p : J × Token × List Token => p.2.1 :: p.2.2) next)
    (hq : ∀ j t' rest', us j = t' :: rest' → t.form = t'.form → q j = next (j, t', rest')) :
    Reads D Q (t :: ts) s us q := by
  refine ⟨h.ok, h.error, ?_⟩
  intro j u hj
  obtain ⟨t', rest', hus, ht⟩ := eq_cons_of_head hj.head
  rw [hq j t' rest' hus ht]
  exact h.alike (j, t', rest') u (hus ▸ hj)

theorem bind {D₁ : Type} [Phrase D₁] {D₂ : D₁ → Type} [∀ d, Phrase (D₂ d)]
    {Q₁ : D₁ → α → List Token → Prop} {Q : D → β → List Token → Prop} {s : Step α m}
    {g : Read α m → Step β n} {m' : J → Nat} {s' : (j : J) → Step α (m' j)}
    {next : (j : J) → Read α (m' j) → Bool × List Token} (f : (d : D₁) → D₂ d → D)
    (hf : ∀ d e, tokens (f d e) = tokens d ++ tokens e) (hp : ∀ d, Productive (D₂ d))
    (hs : Reads D₁ Q₁ ts s us fun j => ending (s' j))
    (hg : ∀ r d, Q₁ d r.value r.rest → Reads (D₂ d) (fun e => Q (f d e)) r.rest (g r)
      (fun p : (j : J) × Read α (m' j) => p.2.rest) fun p => next p.1 p.2) :
    Reads D Q ts (s >>= g) us fun j => thenEnding (s' j) (next j) := by
  cases s with
  | error e =>
    -- What the first part begins is completed by any derivation of the second.
    refine ⟨?_, ?_, ?_⟩
    · intro r hr
      cases hr
    · intro e' he
      cases he
      obtain ⟨w, hw, d, more, hd, hmore⟩ := hs.error e rfl
      obtain ⟨d', hd'⟩ := (hp d).sample
      refine ⟨w, hw, f d d', more ++ tokens d', ?_, List.forall_mem_append.mpr ⟨hmore, hd'⟩⟩
      rw [hf, hd, List.append_assoc]
    · intro j u hj
      obtain ⟨e', he', rfl⟩ := ending_eq_false (hs.alike j u hj)
      rw [he']
      rfl
  | ok x =>
    obtain ⟨d, hd, hQd⟩ := hs.ok x rfl
    have hgx := hg x d hQd
    refine ⟨?_, ?_, ?_⟩
    · intro r hr
      obtain ⟨d', hd', hQd'⟩ := hgx.ok r hr
      exact ⟨f d d', by rw [hf, hd, hd', List.append_assoc], hQd'⟩
    · intro e he
      obtain ⟨w, hw, d', more, hd', hmore⟩ := hgx.error e he
      exact ⟨tokens d ++ w, by rw [hd, hw, List.append_assoc], f d d', more,
        by rw [hf, hd', List.append_assoc], hmore⟩
    · intro j u hj
      rw [hd] at hj
      obtain ⟨v, hfirst, hrest⟩ := hj.split hgx.suffix
      rw [← hd] at hfirst
      obtain ⟨x', hx', rfl⟩ := ending_eq_true (hs.alike j v hfirst)
      rw [hx']
      exact hgx.alike ⟨j, x'⟩ u hrest

theorem seq {D₁ D₂ : Type} [Phrase D₁] [Phrase D₂] [hp : Productive D₂]
    {Q₁ : D₁ → α → List Token → Prop} {Q : D₁ × D₂ → β → List Token → Prop} {s : Step α m}
    {g : Read α m → Step β n} {m' : J → Nat} {s' : (j : J) → Step α (m' j)}
    {next : (j : J) → Read α (m' j) → Bool × List Token}
    (hs : Reads D₁ Q₁ ts s us fun j => ending (s' j))
    (hg : ∀ r d, Q₁ d r.value r.rest → Reads D₂ (fun e => Q (d, e)) r.rest (g r)
      (fun p : (j : J) × Read α (m' j) => p.2.rest) fun p => next p.1 p.2) :
    Reads (D₁ × D₂) Q ts (s >>= g) us fun j => thenEnding (s' j) (next j) :=
  hs.bind Prod.mk (fun _ _ => rfl) (fun _ => hp) hg

theorem congrAt {kind : TokenKind} {c : Bool} (h : at? kind ts = c) (hs : Reads D Q ts s us q)
    (hq : ∀ j, at? kind (us j) = c → q' j = q j) : Reads D Q ts s us q' := by
  refine hs.congr ?_
  intro j u hj
  exact hq j ((at?_eq_of_head hj.head).trans h)

theorem ifAt {kind : TokenKind} {a b : Step α n} {q₁ q₂ : J → Bool × List Token}
    (ha : at? kind ts = true → Reads D Q ts a us q₁)
    (hb : at? kind ts = false → Reads D Q ts b us q₂) :
    Reads D Q ts (if at? kind ts then a else b) us
      fun j => if at? kind (us j) then q₁ j else q₂ j := by
  split
  · next h => exact (ha h).congrAt h fun j hj => if_pos hj
  · next h =>
    have h := Bool.eq_false_iff.mpr h
    exact (hb h).congrAt h fun j hj => if_neg (Bool.eq_false_iff.mp hj)

theorem taken {D₁ : Type} [Phrase D₁] {kind : TokenKind} (h : at? kind ts = true)
    (f : Tok kind → D₁ → D) (hf : ∀ t d, tokens (f t d) = t.token :: tokens d)
    (hs : ∀ t, Reads D₁ (fun d => Q (f t d)) ts.tail s (fun j => (us j).tail) q) :
    Reads D Q ts s us q := by
  cases ts with
  | nil => cases h
  | cons t ts =>
    have hk : t.kind = kind := by simpa [at?] using h
    exact tail (f ⟨t, hk⟩) (hf ⟨t, hk⟩) ((hs ⟨t, hk⟩).reindex Subtype.val)

end Reads

theorem expect_reads (kind : TokenKind) [Productive (Tok kind)] (what : Expectation)
    (ts : List Token) (us : J → List Token) (what' : J → Expectation) :
    Reads (Tok kind) (fun d v _ => v = d.token) ts (expect kind what ts) us
      fun j => ending (expect kind (what' j) (us j)) := by
  cases ts with
  | nil =>
    refine .fail ?_
    intro j hj
    rw [eq_nil_of_head hj]
    rfl
  | cons t rest =>
    rw [expect]
    split
    · next hk =>
      refine .of_ok ⟨t, hk⟩ rfl rfl ?_
      intro j u hj
      obtain ⟨⟨t', hus, ht⟩, htail⟩ := hj.tail ⟨[], rfl⟩
      rw [hus, expect, if_pos ((kind_of_form ht).trans hk), ← htail.eq_right]
      rfl
    · next hk =>
      refine .fail ?_
      intro j hj
      obtain ⟨t', rest', hus, ht⟩ := eq_cons_of_head hj
      rw [hus, expect, if_neg (kind_of_form ht ▸ hk)]
      rfl

end Parser

end MiniSharp
