import MiniSharp.Proofs.FreshNames
import MiniSharp.Proofs.SuiteSections

namespace MiniSharp.Suite

def Fence.block (f : Fence) : Block := .fence f.language f.content f.line

instance : DecidablePred OpensCase
  | .heading title => inferInstanceAs (Decidable (Text.ofString "Test: " <+: title))
  | .fence .. => inferInstanceAs (Decidable False)

def HasInput (blocks : List Block) : Prop :=
  ∃ earlier f later, blocks = earlier ++ Fence.block f :: later ∧ f.isInput ∧ f.text ≠ [] ∧
    ∀ b ∈ later, ¬ OpensCase b

inductive Offends (before : List Block) (f : Fence) : Prop
  | outside : f.language ≠ [] → (∀ b ∈ before, ¬ OpensCase b) → Offends before f
  | unknown : f.language ≠ [] → ¬ f.isInput → ¬ f.isAssertion → Offends before f
  | secondInput : f.isInput → HasInput before → Offends before f
  | unreadable : f.language = Text.ofString "ast" ∨ f.language = Text.ofString "types" →
      (∀ d, Datum.parse f.text ≠ .ok d) → Offends before f

def Located (blocks : List Block) (k : Nat) (i : Input) : Prop :=
  ∃ earlier f later, blocks = earlier ++ Fence.block f :: later ∧ earlier.countP (OpensCase ·) = k + 1 ∧
    f.Holds i

theorem hasInput_concat {blocks : List Block} {b : Block} : HasInput (blocks ++ [b]) ↔
    HasInput blocks ∧ ¬ OpensCase b ∨ ∃ f, b = Fence.block f ∧ f.isInput ∧ f.text ≠ [] := by
  constructor
  · rintro ⟨earlier, f, later, hblocks, hinput, htext, hlater⟩
    -- The fence is the last block, or the last block is one of those after it.
    obtain rfl | ⟨later, b', rfl⟩ := List.eq_nil_or_concat later
    · obtain ⟨-, hb⟩ := List.append_inj' hblocks rfl
      exact .inr ⟨f, (List.cons.inj hb).1, hinput, htext⟩
    · rw [List.concat_eq_append, ← List.cons_append, ← List.append_assoc] at hblocks
      obtain ⟨rfl, hb⟩ := List.append_inj' hblocks rfl
      obtain ⟨rfl, -⟩ := List.cons.inj hb
      rw [List.concat_eq_append, List.forall_mem_append] at hlater
      exact .inl ⟨⟨earlier, f, later, rfl, hinput, htext, hlater.1⟩, hlater.2 b List.mem_cons_self⟩
  · rintro (⟨⟨earlier, f, later, rfl, hinput, htext, hlater⟩, hb⟩ | ⟨f, rfl, hinput, htext⟩)
    · refine ⟨earlier, f, later ++ [b], by simp, hinput, htext, ?_⟩
      exact List.forall_mem_append.mpr ⟨hlater, List.forall_mem_singleton.mpr hb⟩
    · exact ⟨blocks, f, [], rfl, hinput, htext, List.forall_mem_nil _⟩

theorem Located.concat {blocks : List Block} {k : Nat} {i : Input} (h : Located blocks k i) (b : Block) :
    Located (blocks ++ [b]) k i := by
  obtain ⟨earlier, f, later, rfl, hcount, hi⟩ := h
  exact ⟨earlier, f, later ++ [b], by simp, hcount, hi⟩

structure Tracks (blocks : List Block) (p : Progress) : Prop where
  start : p.draft = none → p.cases = []
  count : blocks.countP (OpensCase ·) = p.cases.length + p.draft.toList.length
  hasInput : ∀ d, p.draft = some d → ((∃ i ∈ d.input, i.text ≠ []) ↔ HasInput blocks)
  input : ∀ d i, p.draft = some d → d.input = some i → Located blocks p.cases.length i
  cases : ∀ k c, p.cases[k]? = some c → Located blocks k c.input ∧ c.input.text ≠ []

theorem Tracks.close {blocks : List Block} {p : Progress} (h : Tracks blocks p) {cases : List Case}
    (hclose : p.close = .ok cases) : blocks.countP (OpensCase ·) = cases.length ∧
      ∀ k c, cases[k]? = some c → Located blocks k c.input ∧ c.input.text ≠ [] := by
  obtain ⟨closed, draft⟩ := p
  cases draft with
  | none =>
    cases hclose
    exact ⟨h.count, h.cases⟩
  | some d =>
    obtain ⟨c, hc, rfl⟩ := progress_close_some.mp hclose
    obtain ⟨-, hinput, htext, -⟩ := close_eq_ok.mp hc
    refine ⟨by rw [List.length_append]; exact h.count, ?_⟩
    intro k c' hc'
    rw [List.getElem?_append] at hc'
    split at hc'
    · exact h.cases k c' hc'
    · next hk =>
      have hlast : k - closed.length = 0 := by
        by_contra hne
        rw [List.getElem?_eq_none (by rw [List.length_singleton]; omega)] at hc'
        cases hc'
      obtain rfl : k = closed.length := by omega
      rw [Nat.sub_self] at hc'
      cases hc'
      exact ⟨h.input d c.input rfl hinput, htext⟩

theorem tracks_nil : Tracks [] ⟨[], none⟩ where
  start _ := rfl
  count := rfl
  hasInput d h := by cases h
  input d i h := by cases h
  cases k c h := by cases h

theorem Tracks.same {blocks : List Block} {p : Progress} (h : Tracks blocks p) {b : Block}
    (hb : ¬ OpensCase b) (hinput : ∀ f, b = Fence.block f → ¬ f.isInput) : Tracks (blocks ++ [b]) p where
  start := h.start
  count := by simpa [List.countP_append, hb] using h.count
  hasInput d hd := by
    rw [h.hasInput d hd, hasInput_concat]
    constructor
    · intro hblocks
      exact .inl ⟨hblocks, hb⟩
    · rintro (⟨hblocks, -⟩ | ⟨f, hf, hisInput, -⟩)
      · exact hblocks
      · exact absurd hisInput (hinput f hf)
  input d i hd hi := (h.input d i hd hi).concat b
  cases k c hc := ⟨(h.cases k c hc).1.concat b, (h.cases k c hc).2⟩

theorem Tracks.case {blocks : List Block} {p : Progress} (h : Tracks blocks p) {cases : List Case}
    (hclose : p.close = .ok cases) (name : Text) :
    Tracks (blocks ++ [.heading (Text.ofString "Test: " ++ name)]) ⟨cases, some ⟨name, none, []⟩⟩ := by
  have hopens : OpensCase (.heading (Text.ofString "Test: " ++ name)) := List.prefix_append ..
  obtain ⟨hcount, hcases⟩ := h.close hclose
  refine ⟨(fun h => by cases h), ?_, ?_, ?_, ?_⟩
  · simp [List.countP_append, hopens, hcount]
  · rintro d ⟨⟩
    refine iff_of_false (by rintro ⟨i, ⟨⟩, -⟩) ?_
    rw [hasInput_concat]
    rintro (⟨-, hnot⟩ | ⟨f, hf, -⟩)
    · exact hnot hopens
    · cases hf
  · rintro d i ⟨⟩ ⟨⟩
  · intro k c hc
    exact ⟨(hcases k c hc).1.concat _, (hcases k c hc).2⟩

theorem Tracks.of_input_eq {blocks : List Block} {cases : List Case} {d m : Draft}
    (h : Tracks blocks ⟨cases, some d⟩) (hinput : m.input = d.input) :
    Tracks blocks ⟨cases, some m⟩ where
  start h := by cases h
  count := h.count
  hasInput := by
    rintro d' ⟨⟩
    rw [hinput]
    exact h.hasInput d rfl
  input := by
    rintro d' i ⟨⟩ hi
    exact h.input d i rfl (hinput ▸ hi)
  cases := h.cases

theorem Fence.block_injective {f g : Fence} (h : f.block = g.block) : f = g := by
  cases f
  cases g
  cases h
  rfl

theorem Tracks.fence {blocks : List Block} {cases : List Case} {d m : Draft} {f : Fence}
    (h : Tracks blocks ⟨cases, some d⟩) (hm : Adds f d m) :
    Tracks (blocks ++ [f.block]) ⟨cases, some m⟩ := by
  have hopens : ¬ OpensCase f.block := id
  have hsame (hf : ¬ f.isInput) : Tracks (blocks ++ [f.block]) ⟨cases, some d⟩ :=
    h.same hopens fun g hg => Fence.block_injective hg ▸ hf
  cases hm with
  | nothing hlanguage => exact hsame (not_isInput_of_plain hlanguage).1
  | assertion ha => exact (hsame (not_isInput_of_isAssertion ha.isAssertion)).of_input_eq rfl
  | @input i hi hempty =>
    refine ⟨(fun h => by cases h), ?_, ?_, ?_, ?_⟩
    · simpa [List.countP_append, hopens] using h.count
    · rintro _ ⟨⟩
      rw [hasInput_concat, ← h.hasInput d rfl]
      constructor
      · rintro ⟨_, ⟨⟩, htext⟩
        exact .inr ⟨f, rfl, hi.isInput, hi.text ▸ htext⟩
      · rintro (⟨⟨j, hj, htext⟩, -⟩ | ⟨g, hg, -, htext⟩)
        · exact absurd (hempty j hj) htext
        · obtain rfl := Fence.block_injective hg
          exact ⟨i, rfl, hi.text ▸ htext⟩
    · rintro _ _ ⟨⟩ ⟨⟩
      exact ⟨blocks, f, [], rfl, h.count, hi⟩
    · intro k c hc
      exact ⟨(h.cases k c hc).1.concat _, (h.cases k c hc).2⟩

theorem Tracks.block {blocks : List Block} {p q : Progress} (h : Tracks blocks p) {b : Block}
    (hb : p.block b = .ok q) : Tracks (blocks ++ [b]) q := by
  cases b with
  | heading title =>
    by_cases hopens : OpensCase (.heading title)
    · obtain ⟨name, rfl⟩ := hopens
      rw [block_case, bind_eq_ok] at hb
      obtain ⟨cases, hclose, ⟨⟩⟩ := hb
      exact h.case hclose name
    · rw [block_heading hopens] at hb
      cases hb
      exact h.same hopens fun f hf => by cases hf
  | fence language content line =>
    obtain ⟨cases, draft⟩ := p
    cases draft with
    | none =>
      rw [block_outside, bind_eq_ok] at hb
      obtain ⟨_, houtside, ⟨⟩⟩ := hb
      refine h.same id fun f hf => ?_
      cases hf
      exact (not_isInput_of_plain (outside_eq_ok.mp houtside)).1
    | some d =>
      rw [block_fence, bind_eq_ok] at hb
      obtain ⟨m, hm, ⟨⟩⟩ := hb
      exact h.fence (f := ⟨language, content, line⟩) (fence_eq_ok.mp hm)

theorem tracks_foldlM {blocks : List Block} {p : Progress}
    (h : blocks.foldlM Progress.block ⟨[], none⟩ = .ok p) : Tracks blocks p := by
  induction blocks using List.reverseRecOn generalizing p with
  | nil =>
    cases h
    exact tracks_nil
  | append_singleton blocks b ih =>
    rw [List.foldlM_append, bind_eq_ok] at h
    obtain ⟨q, hq, hb⟩ := h
    rw [List.foldlM_cons, bind_eq_ok] at hb
    obtain ⟨_, hb, ⟨⟩⟩ := hb
    exact (ih hq).block hb

theorem Offends.language_ne_nil {before : List Block} {f : Fence} (h : Offends before f) :
    f.language ≠ [] := by
  cases h with
  | outside h => exact h
  | unknown h => exact h
  | secondInput h => exact Suite.language_ne_nil (.inl h)
  | unreadable h =>
    obtain h | h := h <;> rw [h] <;> decide

theorem isTree_iff {k : AssertionKind} :
    k = .ast ∨ k = .types ↔ k.name = Text.ofString "ast" ∨ k.name = Text.ofString "types" := by
  cases k <;> decide

theorem not_adds_of_offends {before : List Block} {f : Fence} (h : Offends before f) {cases : List Case}
    {d m : Draft} (hp : Tracks before ⟨cases, some d⟩) : ¬ Adds f d m := by
  intro hm
  have hlanguage := h.language_ne_nil
  cases h with
  | outside _ hnone =>
    have hcount := hp.count
    rw [List.countP_eq_zero.mpr fun b hb => by simpa using hnone b hb] at hcount
    exact absurd hcount (Nat.succ_ne_zero _).symm
  | unknown _ hinput hassertion =>
    cases hm with
    | nothing hnil => exact hlanguage hnil
    | input hi _ => exact hinput hi.isInput
    | assertion ha => exact hassertion ha.isAssertion
  | secondInput hinput hbefore =>
    cases hm with
    | nothing hnil => exact hlanguage hnil
    | input _ hempty =>
      obtain ⟨j, hj, htext⟩ := (hp.hasInput d rfl).mpr hbefore
      exact htext (hempty j hj)
    | assertion ha => exact not_isInput_of_isAssertion ha.isAssertion hinput
  | unreadable htree hparse =>
    have hassertion : f.isAssertion := by
      obtain h | h := htree <;> rw [Fence.isAssertion, h] <;> decide
    cases hm with
    | nothing hnil => exact hlanguage hnil
    | input hi _ => exact not_isInput_of_isAssertion hassertion hi.isInput
    | @assertion a ha =>
      obtain ⟨datum, hdatum, -⟩ := ha.datum.1 (isTree_iff.mpr (ha.kind ▸ htree))
      exact hparse datum hdatum

theorem exists_adds {before : List Block} {f : Fence} (h : ¬ Offends before f) {cases : List Case}
    {d : Draft} (hp : Tracks before ⟨cases, some d⟩) : ∃ m, Adds f d m := by
  -- Each kind of fence that stands in a section either gives its draft something or offends.
  by_cases hlanguage : f.language = []
  · exact ⟨d, .nothing hlanguage⟩
  by_cases hinput : f.isInput
  · obtain ⟨k, hk⟩ := isInput_iff.mp hinput
    refine ⟨_, .input (i := ⟨k, f.text, f.line⟩) ⟨hk, rfl, rfl⟩ fun j hj => ?_⟩
    by_contra htext
    exact h (.secondInput hinput ((hp.hasInput d rfl).mp ⟨j, hj, htext⟩))
  by_cases hassertion : f.isAssertion
  · obtain ⟨k, hk⟩ := isAssertion_iff.mp hassertion
    by_cases htree : k = .ast ∨ k = .types
    · have hparse : ∃ datum, Datum.parse f.text = .ok datum := by
        by_contra hnone
        exact h (.unreadable (hk ▸ isTree_iff.mp htree) (not_exists.mp hnone))
      obtain ⟨datum, hdatum⟩ := hparse
      exact ⟨_, .assertion (a := ⟨k, f.text, some datum⟩)
        ⟨hk, rfl, fun _ => ⟨datum, hdatum, rfl⟩, fun hnot => absurd htree hnot⟩⟩
    · exact ⟨_, .assertion (a := ⟨k, f.text, none⟩)
        ⟨hk, rfl, fun htree' => absurd htree' htree, fun _ => rfl⟩⟩
  · exact absurd (.unknown hlanguage hinput hassertion) h

theorem Tracks.offends_iff {before : List Block} {p : Progress} (h : Tracks before p) (f : Fence) :
    Offends before f ↔ ∀ q, p.block f.block ≠ .ok q := by
  obtain ⟨cases, draft⟩ := p
  cases draft with
  | none =>
    have hnone : ∀ b ∈ before, ¬ OpensCase b := by
      have hcount := h.count
      rw [h.start rfl] at hcount
      simpa using List.countP_eq_zero.mp hcount
    have hok : (∃ q, Progress.block ⟨cases, none⟩ f.block = .ok q) ↔ f.language = [] := by
      rw [Fence.block, block_outside]
      constructor
      · rintro ⟨q, hq⟩
        obtain ⟨_, houtside, -⟩ := bind_eq_ok.mp hq
        exact outside_eq_ok.mp houtside
      · intro hlanguage
        exact ⟨_, bind_eq_ok.mpr ⟨(), outside_eq_ok.mpr hlanguage, rfl⟩⟩
    rw [← not_exists, hok]
    exact ⟨Offends.language_ne_nil, fun hlanguage => .outside hlanguage hnone⟩
  | some d =>
    have hok : (∃ q, Progress.block ⟨cases, some d⟩ f.block = .ok q) ↔ ∃ m, Adds f d m := by
      rw [Fence.block, block_fence]
      constructor
      · rintro ⟨q, hq⟩
        obtain ⟨m, hm, -⟩ := bind_eq_ok.mp hq
        exact ⟨m, fence_eq_ok.mp hm⟩
      · rintro ⟨m, hm⟩
        exact ⟨_, bind_eq_ok.mpr ⟨m, fence_eq_ok.mpr hm, rfl⟩⟩
    rw [← not_exists, hok]
    refine ⟨?_, ?_⟩
    · rintro hoffends ⟨m, hm⟩
      exact not_adds_of_offends hoffends h hm
    · intro hnone
      by_contra hoffends
      exact hnone (exists_adds hoffends h)

def Error.line? : Error → Option Nat
  | fenceOutside line _ => some line
  | unknownOutside line _ => some line
  | manyInputs line _ => some line
  | badDatum line _ _ => some line
  | unknownLanguage line _ _ => some line
  | noInput _ => none
  | noAssertions _ => none
  | typesInput _ => none
  | typesShape _ => none

def Failure.Names (e : Failure) (number : Nat) : Prop :=
  ∃ rest, e.message = Text.ofString "error walking markdown AST: line " ++ Text.decimal number ++
    Text.ofString ": " ++ rest

theorem decimal_colon_injective {m n : Nat} {rest rest' : Text}
    (h : Text.decimal m ++ (Text.ofString ": " ++ rest) =
      Text.decimal n ++ (Text.ofString ": " ++ rest')) : m = n := by
  have hdigits (n : Nat) (rest : Text) :
      (Text.decimal n ++ (Text.ofString ": " ++ rest)).takeWhile Text.isDigit = Text.decimal n := by
    have hcolon : (Text.ofString ": " ++ rest).takeWhile Text.isDigit = [] := rfl
    rw [List.takeWhile_append_of_pos (Text.isDigit_decimal n), hcolon, List.append_nil]
  have hsame := congrArg (List.takeWhile Text.isDigit) h
  rw [hdigits, hdigits] at hsame
  exact Text.decimal_injective hsame

theorem message_eq (e : Error) :
    (∃ line rest, e.line? = some line ∧
      e.message = Text.ofString "line " ++ (Text.decimal line ++ (Text.ofString ": " ++ rest))) ∨
    ∃ rest, e.line? = none ∧ e.message = Text.ofString "test '" ++ rest := by
  have hunknown : Text.ofString ": unknown fence language '" =
    Text.ofString ": " ++ Text.ofString "unknown fence language '" := by decide +kernel
  have hmany : Text.ofString ": multiple input fences found in test '" =
    Text.ofString ": " ++ Text.ofString "multiple input fences found in test '" := by decide +kernel
  have hbad : Text.ofString ": failed to parse Sexy assertion in test '" =
    Text.ofString ": " ++ Text.ofString "failed to parse Sexy assertion in test '" := by decide +kernel
  cases e with
  | fenceOutside line | unknownOutside line | manyInputs line | badDatum line | unknownLanguage line =>
    exact .inl ⟨line, _, rfl, by
      simp only [Error.message, hunknown, hmany, hbad, List.append_assoc]
      rfl⟩
  | noInput | noAssertions | typesInput | typesShape =>
    exact .inr ⟨_, rfl, by
      simp only [Error.message, List.append_assoc]
      rfl⟩

theorem names_within {e : Error} {number : Nat} (h : (Failure.within e).Names number) :
    e.line? = some number := by
  obtain ⟨rest, h⟩ := h
  have hsplit : Text.ofString "error walking markdown AST: line " =
    Text.ofString "error walking markdown AST: " ++ Text.ofString "line " := by decide +kernel
  rw [Failure.message, hsplit, List.append_assoc, List.append_assoc, List.append_assoc] at h
  have hmessage := List.append_cancel_left h
  obtain ⟨line, rest', hline, heq⟩ | ⟨rest', -, heq⟩ := message_eq e
  · rw [heq] at hmessage
    rw [hline, decimal_colon_injective (List.append_cancel_left hmessage)]
  · rw [heq] at hmessage
    have hfirst : some (Text.byte 't') = some (Text.byte 'l') := congrArg List.head? hmessage
    exact absurd hfirst (by decide)

theorem not_names_atEnd (e : Error) (number : Nat) : ¬ (Failure.atEnd e).Names number := by
  rintro ⟨rest, h⟩
  rw [Failure.message] at h
  obtain ⟨line, rest', -, heq⟩ | ⟨rest', -, heq⟩ := message_eq e
  · rw [heq] at h
    have hfirst : some (Text.byte 'l') = some (Text.byte 'e') := congrArg List.head? h
    exact absurd hfirst (by decide)
  · rw [heq] at h
    have hfirst : some (Text.byte 't') = some (Text.byte 'e') := congrArg List.head? h
    exact absurd hfirst (by decide)

theorem foldlM_eq_error {blocks : List Block} {p : Progress} {e : Error}
    (h : blocks.foldlM Progress.block p = .error e) :
    ∃ before b after q, blocks = before ++ b :: after ∧ before.foldlM Progress.block p = .ok q ∧
      q.block b = .error e := by
  induction blocks generalizing p with
  | nil => cases h
  | cons b blocks ih =>
    rw [List.foldlM_cons] at h
    cases hb : p.block b with
    | error e' =>
      rw [hb] at h
      cases h
      exact ⟨[], b, blocks, p, rfl, rfl, hb⟩
    | ok q =>
      rw [hb, ok_bind] at h
      obtain ⟨before, b', after, q', rfl, hq', he⟩ := ih h
      refine ⟨b :: before, b', after, q', rfl, ?_, he⟩
      rw [List.foldlM_cons, hb, ok_bind, hq']

theorem line?_fence {p : Progress} {f : Fence} {e : Error} (h : p.block f.block = .error e) :
    e.line? = some f.line := by
  obtain ⟨cases, draft⟩ := p
  cases draft with
  | none =>
    rw [Fence.block, block_outside] at h
    have houtside := bind_ok_eq_error h
    rw [outside] at houtside
    split at houtside
    · cases houtside
    split at houtside
    · cases houtside
      rfl
    · cases houtside
      rfl
  | some d =>
    rw [Fence.block, block_fence] at h
    have hfence := bind_ok_eq_error h
    dsimp only [Draft.fence] at hfence
    split at hfence
    · cases hfence
    split at hfence
    · rw [Draft.addInput] at hfence
      split at hfence
      · cases hfence
        rfl
      · cases hfence
    · rw [Draft.addAssertion] at hfence
      split at hfence
      · split at hfence
        · cases hfence
        · cases hfence
          rfl
      · cases hfence
    · cases hfence
      rfl

theorem line?_checkTypes {name : Text} {kind : InputKind} {assertions : List Assertion} {e : Error}
    (h : assertions.forM (checkTypes name kind) = .error e) : e.line? = none := by
  induction assertions with
  | nil => cases h
  | cons a assertions ih =>
    rw [List.forM_eq_forM, List.forM_cons] at h
    cases ha : checkTypes name kind a with
    | ok _ =>
      rw [ha] at h
      exact ih h
    | error e' =>
      rw [ha] at h
      cases h
      rw [checkTypes] at ha
      split at ha
      · cases ha
      split at ha
      · cases ha
        rfl
      split at ha
      · cases ha
      · cases ha
        rfl

theorem line?_close {d : Draft} {e : Error} (h : d.close = .error e) : e.line? = none := by
  rw [Draft.close] at h
  split at h
  · cases h
    rfl
  split at h
  · cases h
    rfl
  split at h
  · cases h
    rfl
  · exact line?_checkTypes (bind_ok_eq_error h)

theorem line?_heading {p : Progress} {title : Text} {e : Error}
    (h : p.block (.heading title) = .error e) : e.line? = none := by
  by_cases hopens : OpensCase (.heading title)
  · obtain ⟨name, rfl⟩ := hopens
    rw [block_case] at h
    have hclose := bind_ok_eq_error h
    obtain ⟨cases, draft⟩ := p
    cases draft with
    | none => cases hclose
    | some d => exact line?_close (bind_ok_eq_error hclose)
  · rw [block_heading hopens] at h
    cases h

theorem content_ne_nil {f : Fence} (h : f.text ≠ []) : f.content ≠ [] := by
  intro hnil
  exact h (by rw [Fence.text, hnil]; rfl)

theorem not_offends_of_foldlM {before after : List Block} {f : Fence} {p : Progress}
    (h : (before ++ f.block :: after).foldlM Progress.block ⟨[], none⟩ = .ok p) :
    ¬ Offends before f := by
  rw [List.foldlM_append, bind_eq_ok] at h
  obtain ⟨q, hq, h⟩ := h
  rw [List.foldlM_cons, bind_eq_ok] at h
  obtain ⟨r, hr, -⟩ := h
  exact fun hoffends => ((tracks_foldlM hq).offends_iff f).mp hoffends r hr

theorem ofBlocks_eq_error {blocks : List Block} {e : Failure} {number : Nat}
    (h : ofBlocks blocks = .error e) (hnames : e.Names number) :
    ∃ before f after, blocks = before ++ Fence.block f :: after ∧ f.line = number ∧ Offends before f ∧
      ∀ before' f' after', before = before' ++ Fence.block f' :: after' → ¬ Offends before' f' := by
  rw [ofBlocks] at h
  cases hfold : blocks.foldlM Progress.block ⟨[], none⟩ with
  | ok p =>
    rw [hfold] at h
    change p.close.mapError Failure.atEnd = .error e at h
    cases hclose : p.close with
    | ok cases =>
      rw [hclose] at h
      cases h
    | error error =>
      rw [hclose] at h
      cases h
      exact absurd hnames (not_names_atEnd error number)
  | error error =>
    rw [hfold] at h
    cases h
    -- Headings fail without a line, so the block that failed is a fence.
    have hline := names_within hnames
    obtain ⟨before, b, after, q, rfl, hq, hb⟩ := foldlM_eq_error hfold
    cases b with
    | heading title =>
      rw [line?_heading hb] at hline
      cases hline
    | fence language content line =>
      have hb' : q.block (Fence.block ⟨language, content, line⟩) = .error error := hb
      rw [line?_fence hb'] at hline
      refine ⟨before, ⟨language, content, line⟩, after, rfl, Option.some.inj hline, ?_, ?_⟩
      · refine ((tracks_foldlM hq).offends_iff _).mpr fun r hr => ?_
        rw [hb'] at hr
        cases hr
      · rintro before' f' after' rfl
        exact not_offends_of_foldlM hq

def lineNumber (t : Text) (place : Nat) : Nat := (t.take place).count Text.newline + 1

def nextLine (t : Text) (place : Nat) : Nat :=
  place + ((t.drop place).takeWhile (· != Text.newline)).length + 1

/-- A fence opens at a place that starts a line, and its content lines are lines of the document that
follow each other from the next one on. -/
@[mk_iff]
structure OpensAt (t : Text) (place : Nat) (lines : List Markdown.Segment) : Prop where
  flush : place = 0 ∨ t[place - 1]? = some Text.newline
  marked : Text.ofString "\x60\x60\x60" <+: t.drop place ∨ Text.ofString "~~~" <+: t.drop place
  starts : lines.map (·.start) = List.iterate (nextLine t) (nextLine t place) lines.length
  within : ∀ line ∈ lines, line.start < t.length

instance (t : Text) (place : Nat) (lines : List Markdown.Segment) : Decidable (OpensAt t place lines) :=
  decidable_of_iff' _ (opensAt_iff t place lines)

def Placed (parser : Markdown.Parser) (t : Text) (place : Nat → Nat) : Prop :=
  ∀ i language lines, (parser t)[i]? = some (.fence language lines) → OpensAt t (place i) lines

theorem take_nextLine {t : Text} {place : Nat} (h : nextLine t place ≤ t.length) :
    t.take (nextLine t place) =
      t.take place ++ (t.drop place).takeWhile (· != Text.newline) ++ [Text.newline] := by
  have hparts : (t.drop place).takeWhile (· != Text.newline) ++
      (t.drop place).dropWhile (· != Text.newline) = t.drop place :=
    List.takeWhile_append_dropWhile
  have hplace : place ≤ t.length := by
    rw [nextLine] at h
    omega
  -- The line ends within the document, so with a line feed.
  have hrest : (t.drop place).dropWhile (· != Text.newline) ≠ [] := by
    intro hnil
    rw [hnil, List.append_nil] at hparts
    rw [nextLine, hparts, List.length_drop] at h
    omega
  obtain ⟨b, rest, hcons⟩ := List.exists_cons_of_ne_nil hrest
  have hb : b = Text.newline := by
    have := List.head_dropWhile_not (· != Text.newline) hrest
    simpa [hcons] using this
  subst hb
  have hlength : (t.take place ++ (t.drop place).takeWhile (· != Text.newline) ++
      [Text.newline]).length = nextLine t place := by
    simp [nextLine, hplace, Nat.add_assoc]
  calc t.take (nextLine t place)
      = (t.take place ++ (t.drop place).takeWhile (· != Text.newline) ++ [Text.newline] ++ rest).take
          (nextLine t place) := by
        rw [List.append_assoc, List.singleton_append, ← hcons, List.append_assoc, hparts,
          List.take_append_drop]
    _ = _ := by rw [← hlength, List.take_left]

theorem lineNumber_nextLine {t : Text} {place : Nat} (h : nextLine t place ≤ t.length) :
    lineNumber t (nextLine t place) = lineNumber t place + 1 := by
  have hline : ((t.drop place).takeWhile (· != Text.newline)).count Text.newline = 0 := by
    rw [List.count_eq_zero]
    intro hmem
    simpa using List.mem_takeWhile_imp hmem
  rw [lineNumber, take_nextLine h, List.count_append, List.count_append, hline,
    List.count_singleton_self, lineNumber]

theorem OpensAt.fenceLine_eq {t : Text} {place : Nat} {lines : List Markdown.Segment}
    (h : OpensAt t place lines) (hlines : lines ≠ []) : fenceLine t lines = lineNumber t place := by
  obtain ⟨first, rest, rfl⟩ := List.exists_cons_of_ne_nil hlines
  have hstart : first.start = nextLine t place := (List.cons.inj h.starts).1
  have hwithin : first.start < t.length := h.within first List.mem_cons_self
  have hnext := lineNumber_nextLine (hstart ▸ hwithin.le)
  rw [fenceLine, Nat.min_eq_left hwithin.le, hstart]
  exact Nat.succ_injective hnext

theorem node_of_blocks {parser : Markdown.Parser} {t : Text} {before after : List Block} {f : Fence}
    (h : blocks parser t = before ++ f.block :: after) :
    ∃ lines, (parser t)[before.length]? = some (.fence f.language lines) ∧
      f.content = lines.flatMap Markdown.Segment.text ∧ f.line = fenceLine t lines := by
  have hblock : (blocks parser t)[before.length]? = some f.block := by
    rw [h, List.getElem?_append_right le_rfl, Nat.sub_self, List.getElem?_cons_zero]
  rw [blocks, List.getElem?_map, Option.map_eq_some_iff] at hblock
  obtain ⟨node, hnode, hof⟩ := hblock
  cases node with
  | heading texts => cases hof
  | fence language lines =>
    obtain ⟨hlanguage, hcontent, hline⟩ := Block.fence.inj hof
    exact ⟨lines, hlanguage ▸ hnode, hcontent.symm, hline.symm⟩

/-- The line of a case is the one that opens the fence of its input. The line in a message is the one
that opens the first offending fence if that fence has content lines, and line 1 if it has none. -/
theorem reported_lines (parser : Markdown.Parser) (t : Text) (place : Nat → Nat)
    (hplace : Placed parser t place) :
    (∀ cases, extractWith parser t = .ok cases → ∀ k c, cases[k]? = some c →
      ∃ before f after lines, blocks parser t = before ++ Fence.block f :: after ∧
        (parser t)[before.length]? = some (.fence f.language lines) ∧
        before.countP (OpensCase ·) = k + 1 ∧ f.Holds c.input ∧
        c.input.line = lineNumber t (place before.length)) ∧
    ∀ e number, extractWith parser t = .error e → e.Names number →
      ∃ before f after lines, blocks parser t = before ++ Fence.block f :: after ∧
        (parser t)[before.length]? = some (.fence f.language lines) ∧ Offends before f ∧
        (∀ before' f' after', before = before' ++ Fence.block f' :: after' → ¬ Offends before' f') ∧
        (lines ≠ [] → number = lineNumber t (place before.length)) ∧ (lines = [] → number = 1) := by
  constructor
  · intro cases hcases k c hc
    obtain ⟨p, hp, hclose⟩ := bind_eq_ok.mp (ofBlocks_eq_ok.mp hcases)
    obtain ⟨⟨before, f, after, hblocks, hcount, hinput⟩, htext⟩ :=
      ((tracks_foldlM hp).close hclose).2 k c hc
    obtain ⟨lines, hnode, hcontent, hline⟩ := node_of_blocks hblocks
    refine ⟨before, f, after, lines, hblocks, hnode, hcount, hinput, ?_⟩
    -- An input is not empty, so its fence has content lines.
    have hlines : lines ≠ [] := by
      rintro rfl
      exact content_ne_nil (hinput.text ▸ htext) hcontent
    rw [hinput.line, hline, (hplace _ _ _ hnode).fenceLine_eq hlines]
  · intro e number he hnames
    obtain ⟨before, f, after, hblocks, rfl, hoffends, hfirst⟩ := ofBlocks_eq_error he hnames
    obtain ⟨lines, hnode, -, hline⟩ := node_of_blocks hblocks
    refine ⟨before, f, after, lines, hblocks, hnode, hoffends, hfirst, ?_, ?_⟩
    · intro hlines
      rw [hline, (hplace _ _ _ hnode).fenceLine_eq hlines]
    · rintro rfl
      exact hline

theorem exists_of_message {outcome : Except Failure (List Case)} {message : Text}
    (h : (outcome.mapError Failure.message).map List.length = .error message) :
    ∃ e, outcome = .error e ∧ e.message = message := by
  cases outcome with
  | ok cases => cases h
  | error e => exact ⟨e, rfl, Except.error.inj h⟩

def document (lines : List String) : Text := Text.join [Text.newline] (lines.map Text.ofString)

structure Sample where
  text : Text
  nodes : List Markdown.Node
  place : Nat → Nat

def Sample.parser (s : Sample) : Markdown.Parser := fun _ => s.nodes

def separatedCases : Sample where
  text := document
    ["intro", "# Test: one\r", "~~~macs-expr", "1", "", "~~~", "> quoted", "```ast", "1", "```",
      "# Test: two", "```ast", "...", "```", "```macs-program", "//", "```"]
  nodes := [.heading ["Test: one"], .fence "macs-expr" [⟨32, "1\n"⟩, ⟨34, "\n"⟩],
    .fence "ast" [⟨55, "1\n"⟩], .heading ["Test: two"], .fence "ast" [⟨80, "...\n"⟩],
    .fence "macs-program" [⟨104, "//\n"⟩]]
  place i := [0, 19, 48, 0, 73, 88].getD i 0

def strayFence : Sample where
  text := document ["# Test: a", "```macs-expr", "1", "```", "~~~", "plain", "~~~", "", "```foo", "x"]
  nodes := [.heading ["Test: ", "a"], .fence "macs-expr" [⟨23, "1\n"⟩], .fence [] [⟨33, "plain\n"⟩],
    .fence "foo" [⟨51, "x\n"⟩]]
  place i := [0, 10, 29, 44].getD i 0

theorem placed_separatedCases :
    Placed separatedCases.parser separatedCases.text separatedCases.place := by
  intro i language lines h
  rcases i with _ | _ | _ | _ | _ | _ | i <;> cases h <;> decide +kernel

theorem placed_strayFence : Placed strayFence.parser strayFence.text strayFence.place := by
  intro i language lines h
  rcases i with _ | _ | _ | _ | i <;> cases h <;> decide +kernel

theorem reported_lines_samples :
    (∃ cases c, extractWith separatedCases.parser separatedCases.text = .ok cases ∧ cases[1]? = some c ∧
      c.input.line = 15 ∧ ∃ (before : List Block) (f : Fence), f.Holds c.input ∧
        lineNumber separatedCases.text (separatedCases.place before.length) = 15) ∧
    ∃ e, extractWith strayFence.parser strayFence.text = .error e ∧ e.Names 9 ∧
      ∃ (before : List Block) (f : Fence), Offends before f ∧
        lineNumber strayFence.text (strayFence.place before.length) = 9 := by
  constructor
  · have hlines : (extractWith separatedCases.parser separatedCases.text).toOption.map
        (fun cases => cases.map (·.input.line)) = some [3, 15] := by
      decide +kernel
    obtain ⟨cases, hcases, hmap⟩ := exists_of_toOption_map hlines
    have hsecond : (cases[1]?).map (·.input.line) = some 15 := by
      rw [← List.getElem?_map, hmap]
      rfl
    obtain ⟨c, hc, hline⟩ := Option.map_eq_some_iff.mp hsecond
    obtain ⟨before, f, -, -, -, -, -, hinput, hplaced⟩ :=
      (reported_lines _ _ _ placed_separatedCases).1 cases hcases 1 c hc
    exact ⟨cases, c, hcases, hc, hline, before, f, hinput, hplaced ▸ hline⟩
  · have hmessage : ((extractWith strayFence.parser strayFence.text).mapError
        Failure.message).map List.length =
          .error "error walking markdown AST: line 9: unknown fence language 'foo' in test 'a'" := by
      decide +kernel
    obtain ⟨e, he, hmessage⟩ := exists_of_message hmessage
    have hnames : e.Names 9 :=
      ⟨Text.ofString "unknown fence language 'foo' in test 'a'", hmessage.trans (by decide +kernel)⟩
    obtain ⟨before, f, -, lines, -, hnode, hoffends, -, hplaced, -⟩ :=
      (reported_lines _ _ _ placed_strayFence).2 e 9 he hnames
    have hlines : lines ≠ [] := by
      generalize before.length = i, f.language = language at hnode
      rcases i with _ | _ | _ | _ | i <;> cases hnode <;> exact List.cons_ne_nil _ _
    exact ⟨e, he, hnames, before, f, hoffends, (hplaced hlines).symm⟩

def emptyFence : Sample where
  text := document ["# Test: a", "", "```macs-expr", "1", "```", "```foo", "```", ""]
  nodes := [.heading ["Test: a"], .fence "macs-expr" [⟨24, "1\n"⟩], .fence "foo" []]
  place i := [0, 11, 30].getD i 0

/-- The fence on line 6 is reported on line 1. -/
theorem empty_fence_on_first_line :
    Placed emptyFence.parser emptyFence.text emptyFence.place ∧
    lineNumber emptyFence.text (emptyFence.place 2) = 6 ∧
    (∃ f : Fence, blocks emptyFence.parser emptyFence.text =
        [.heading "Test: a", .fence "macs-expr" "1\n" 3, f.block] ∧
      Offends [.heading "Test: a", .fence "macs-expr" "1\n" 3] f) ∧
    ∃ e, extractWith emptyFence.parser emptyFence.text = .error e ∧ e.Names 1 := by
  refine ⟨?_, by decide +kernel, ⟨⟨"foo", [], 1⟩, by decide +kernel, ?_⟩, ?_⟩
  · intro i language lines h
    rcases i with _ | _ | _ | i <;> cases h <;> decide +kernel
  · exact .unknown (by decide +kernel) (by decide +kernel) (by decide +kernel)
  · have hmessage : ((extractWith emptyFence.parser emptyFence.text).mapError
        Failure.message).map List.length =
          .error "error walking markdown AST: line 1: unknown fence language 'foo' in test 'a'" := by
      decide +kernel
    obtain ⟨e, he, hmessage⟩ := exists_of_message hmessage
    exact ⟨e, he, Text.ofString "unknown fence language 'foo' in test 'a'",
      hmessage.trans (by decide +kernel)⟩

end MiniSharp.Suite
