import Mathlib.Data.List.DropRight
import MiniSharp.Proofs.Outcome
import MiniSharp.Suite.Cases

namespace MiniSharp.Suite

structure Fence where
  language : Text
  content : Text
  line : Nat

namespace Fence

def ofBlock? : Block → Option Fence
  | .fence language content line => some ⟨language, content, line⟩
  | .heading _ => none

def text (f : Fence) : Text := f.content.rdropWhile (· == Text.newline)

def isInput (f : Fence) : Bool :=
  f.language == Text.ofString "macs-expr" || f.language == Text.ofString "macs-program"

def isAssertion (f : Fence) : Bool :=
  f.language == Text.ofString "ast" || f.language == Text.ofString "types" ||
    f.language == Text.ofString "csharp" || f.language == Text.ofString "compile-error"

structure Holds (f : Fence) (input : Input) : Prop where
  kind : input.kind.name = f.language
  text : input.text = f.text
  line : input.line = f.line

structure Asserts (f : Fence) (a : Assertion) : Prop where
  kind : a.kind.name = f.language
  content : a.content = f.text
  datum : (a.kind = .ast ∨ a.kind = .types → ∃ d, Datum.parse f.text = .ok d ∧ a.datum = some d) ∧
    (¬ (a.kind = .ast ∨ a.kind = .types) → a.datum = none)

end Fence

def OpensCase : Block → Prop
  | .heading title => Text.ofString "Test: " <+: title
  | .fence .. => False

def fences (blocks : List Block) : List Fence := blocks.filterMap Fence.ofBlock?

structure Section where
  name : Text
  body : List Block
  closed : ∀ b ∈ body, ¬ OpensCase b

namespace Section

def blocks (s : Section) : List Block := .heading (Text.ofString "Test: " ++ s.name) :: s.body

def fences (s : Section) : List Fence := Suite.fences s.body

def inputs (s : Section) : List Fence := s.fences.filter Fence.isInput

def assertions (s : Section) : List Fence := s.fences.filter Fence.isAssertion

/-- The case is that of the section. Its input is in the last input fence, and those before it are
empty. -/
structure Yields (s : Section) (c : Case) : Prop where
  name : c.name = s.name
  input : ∃ empty f, s.inputs = empty ++ [f] ∧ (∀ e ∈ empty, e.text = []) ∧ f.Holds c.input
  inputText : c.input.text ≠ []
  assertions : List.Forall₂ Fence.Asserts s.assertions c.assertions
  asserts : c.assertions ≠ []
  types : ∀ a ∈ c.assertions, a.kind = .types →
    c.input.kind = .expr ∧ ∃ items, a.datum = some (.list items)
  languages : ∀ f ∈ s.fences, f.language = [] ∨ f.isInput ∨ f.isAssertion

end Section

structure Outline where
  preamble : List Block
  sections : List Section
  closed : ∀ b ∈ preamble, ¬ OpensCase b

namespace Outline

def blocks (o : Outline) : List Block := o.preamble ++ o.sections.flatMap Section.blocks

structure Yields (o : Outline) (cases : List Case) : Prop where
  preamble : ∀ f ∈ fences o.preamble, f.language = []
  sections : List.Forall₂ Section.Yields o.sections cases

end Outline

theorem exists_outline (blocks : List Block) : ∃ o : Outline, o.blocks = blocks := by
  induction blocks with
  | nil => exact ⟨⟨[], [], by simp⟩, rfl⟩
  | cons b rest ih =>
    obtain ⟨o, rfl⟩ := ih
    by_cases hb : OpensCase b
    · cases b with
      | fence => exact hb.elim
      | heading title =>
        obtain ⟨name, rfl⟩ := hb
        -- What was before the first case is now the body of this one.
        exact ⟨⟨[], ⟨name, o.preamble, o.closed⟩ :: o.sections, by simp⟩, rfl⟩
    · exact ⟨⟨b :: o.preamble, o.sections, List.forall_mem_cons.mpr ⟨hb, o.closed⟩⟩, rfl⟩

theorem inputKind?_name (k : InputKind) : inputKind? k.name = some k := by
  cases k <;> decide +kernel

theorem assertionKind?_name (k : AssertionKind) :
    inputKind? k.name = none ∧ assertionKind? k.name = some k := by
  cases k <;> decide +kernel

theorem inputKind?_eq_some {language : Text} {k : InputKind} :
    inputKind? language = some k ↔ k.name = language := by
  constructor
  · intro h
    rw [inputKind?] at h
    have hk := List.find?_some h
    exact eq_of_beq hk
  · rintro rfl
    exact inputKind?_name k

theorem assertionKind?_eq_some {language : Text} {k : AssertionKind} :
    assertionKind? language = some k ↔ k.name = language := by
  constructor
  · intro h
    rw [assertionKind?] at h
    have hk := List.find?_some h
    exact eq_of_beq hk
  · rintro rfl
    exact (assertionKind?_name k).2

theorem isInput_iff {f : Fence} : f.isInput = true ↔ ∃ k : InputKind, k.name = f.language := by
  rw [Fence.isInput, Bool.or_eq_true, beq_iff_eq, beq_iff_eq]
  constructor
  · rintro (h | h)
    · exact ⟨.expr, h.symm⟩
    · exact ⟨.program, h.symm⟩
  · rintro ⟨k, hk⟩
    cases k with
    | expr => exact .inl hk.symm
    | program => exact .inr hk.symm

theorem isAssertion_iff {f : Fence} :
    f.isAssertion = true ↔ ∃ k : AssertionKind, k.name = f.language := by
  simp only [Fence.isAssertion, Bool.or_eq_true, beq_iff_eq]
  constructor
  · rintro (((h | h) | h) | h)
    · exact ⟨.ast, h.symm⟩
    · exact ⟨.types, h.symm⟩
    · exact ⟨.csharp, h.symm⟩
    · exact ⟨.compileError, h.symm⟩
  · rintro ⟨k, hk⟩
    cases k with
    | ast => exact .inl (.inl (.inl hk.symm))
    | types => exact .inl (.inl (.inr hk.symm))
    | csharp => exact .inl (.inr hk.symm)
    | compileError => exact .inr hk.symm

theorem Fence.Holds.isInput {f : Fence} {i : Input} (h : f.Holds i) : f.isInput = true :=
  isInput_iff.mpr ⟨i.kind, h.kind⟩

theorem Fence.Asserts.isAssertion {f : Fence} {a : Assertion} (h : f.Asserts a) :
    f.isAssertion = true :=
  isAssertion_iff.mpr ⟨a.kind, h.kind⟩

theorem not_isInput_of_isAssertion {f : Fence} (h : f.isAssertion = true) : ¬ f.isInput = true := by
  intro hinput
  obtain ⟨k, hk⟩ := isAssertion_iff.mp h
  obtain ⟨k', hk'⟩ := isInput_iff.mp hinput
  have := (assertionKind?_name k).1
  rw [hk, ← hk', inputKind?_name] at this
  cases this

theorem not_isAssertion_of_isInput {f : Fence} (h : f.isInput = true) : ¬ f.isAssertion = true :=
  fun hassertion => not_isInput_of_isAssertion hassertion h

theorem language_ne_nil {f : Fence} (h : f.isInput = true ∨ f.isAssertion = true) :
    f.language ≠ [] := by
  rw [isInput_iff, isAssertion_iff] at h
  rcases h with ⟨k, hk⟩ | ⟨k, hk⟩ <;> rw [← hk] <;> cases k <;> decide +kernel

theorem not_isInput_of_plain {f : Fence} (h : f.language = []) :
    ¬ f.isInput = true ∧ ¬ f.isAssertion = true :=
  ⟨fun hf => language_ne_nil (.inl hf) h, fun hf => language_ne_nil (.inr hf) h⟩

inductive Adds (f : Fence) (d : Draft) : Draft → Prop
  | nothing : f.language = [] → Adds f d d
  | input {i : Input} : f.Holds i → (∀ j ∈ d.input, j.text = []) → Adds f d { d with input := some i }
  | assertion {a : Assertion} : f.Asserts a →
      Adds f d { d with assertions := d.assertions ++ [a] }

theorem addInput_eq_ok {d d' : Draft} {i : Input} :
    d.addInput i = .ok d' ↔ (∀ j ∈ d.input, j.text = []) ∧ d' = { d with input := some i } := by
  rw [Draft.addInput]
  split
  · next h =>
    obtain ⟨j, hj, ht⟩ := (Option.any_eq_true ..).mp h
    simp only [reduceCtorEq, false_iff, not_and]
    intro hall
    exact absurd (hall j hj) (by simpa using ht)
  · next h =>
    have hall : ∀ j ∈ d.input, j.text = [] := by
      intro j hj
      by_contra ht
      exact h ((Option.any_eq_true ..).mpr ⟨j, hj, by simpa using ht⟩)
    rw [Except.ok.injEq, eq_comm]
    exact ⟨fun h => ⟨hall, h⟩, And.right⟩

theorem addAssertion_eq_ok {d d' : Draft} {f : Fence} {k : AssertionKind} (hk : k.name = f.language) :
    d.addAssertion k f.text f.line = .ok d' ↔
      ∃ a, f.Asserts a ∧ d' = { d with assertions := d.assertions ++ [a] } := by
  constructor
  · intro h
    rw [Draft.addAssertion] at h
    split at h
    · next hkind =>
      split at h
      · next datum hparse =>
        cases h
        exact ⟨⟨k, f.text, some datum⟩, ⟨hk, rfl, fun _ => ⟨datum, hparse, rfl⟩, absurd hkind⟩, rfl⟩
      · cases h
    · next hkind =>
      cases h
      exact ⟨⟨k, f.text, none⟩, ⟨hk, rfl, fun h => absurd h hkind, fun _ => rfl⟩, rfl⟩
  · rintro ⟨⟨kind, content, datum⟩, ⟨hname, hcontent, hdatum⟩, rfl⟩
    obtain rfl : kind = k := by
      have := (assertionKind?_name kind).2
      rw [show kind.name = k.name from hname.trans hk.symm, (assertionKind?_name k).2] at this
      exact (Option.some.inj this).symm
    obtain rfl : content = f.text := hcontent
    rw [Draft.addAssertion]
    split
    · next hkind =>
      obtain ⟨datum, hparse, rfl⟩ := hdatum.1 hkind
      rw [hparse]
      rfl
    · next hkind =>
      obtain rfl : datum = none := hdatum.2 hkind
      rfl

theorem fence_eq_ok {d d' : Draft} {f : Fence} :
    d.fence f.language f.content f.line = .ok d' ↔ Adds f d d' := by
  dsimp only [Draft.fence]
  constructor
  · intro h
    split at h
    · next hl =>
      cases h
      exact .nothing hl
    · split at h
      · next k hk =>
        obtain ⟨hempty, rfl⟩ := addInput_eq_ok.mp h
        exact .input ⟨inputKind?_eq_some.mp hk, rfl, rfl⟩ hempty
      · next k _ hk =>
        obtain ⟨a, ha, rfl⟩ := (addAssertion_eq_ok (assertionKind?_eq_some.mp hk)).mp h
        exact .assertion ha
      · cases h
  · intro h
    cases h with
    | nothing hl => rw [if_pos hl]
    | @input i hi hempty =>
      rw [if_neg (language_ne_nil (.inl hi.isInput)), inputKind?_eq_some.mpr hi.kind]
      obtain ⟨kind, text, line⟩ := i
      obtain ⟨hkind, rfl, rfl⟩ := hi
      exact addInput_eq_ok.mpr ⟨hempty, rfl⟩
    | @assertion a ha =>
      have hinput : inputKind? f.language = none := ha.kind ▸ (assertionKind?_name a.kind).1
      rw [if_neg (language_ne_nil (.inr ha.isAssertion)), hinput, assertionKind?_eq_some.mpr ha.kind]
      exact (addAssertion_eq_ok ha.kind).mpr ⟨a, ha, rfl⟩

def LastInput (fs : List Fence) (before after : Option Input) : Prop :=
  (fs = [] ∧ after = before) ∨
    ∃ empty f i, fs = empty ++ [f] ∧ (∀ j ∈ before, j.text = []) ∧ (∀ e ∈ empty, e.text = []) ∧
      f.Holds i ∧ after = some i

theorem lastInput_cons {f : Fence} {fs : List Fence} {before after : Option Input}
    (hf : f.isInput = true) : LastInput (f :: fs) before after ↔
      (∀ j ∈ before, j.text = []) ∧ ∃ i, f.Holds i ∧ LastInput fs (some i) after := by
  constructor
  · rintro (⟨h, -⟩ | ⟨empty, g, i, hfs, hbefore, hempty, hi, rfl⟩)
    · cases h
    · refine ⟨hbefore, ?_⟩
      cases empty with
      | nil =>
        cases hfs
        exact ⟨i, hi, .inl ⟨rfl, rfl⟩⟩
      | cons e empty =>
        -- The first of the empty fences is `f`, so the input it gives is empty too.
        obtain ⟨rfl, rfl⟩ := List.cons.inj hfs
        obtain ⟨hf', hempty⟩ := List.forall_mem_cons.mp hempty
        obtain ⟨k, hk⟩ := isInput_iff.mp hf
        refine ⟨⟨k, f.text, f.line⟩, ⟨hk, rfl, rfl⟩, .inr ⟨empty, g, i, rfl, ?_, hempty, hi, rfl⟩⟩
        rintro j ⟨⟩
        exact hf'
  · rintro ⟨hbefore, i, hi, ⟨rfl, rfl⟩ | ⟨empty, g, i', rfl, hi', hempty, hg, rfl⟩⟩
    · exact .inr ⟨[], f, i, rfl, hbefore, by simp, hi, rfl⟩
    · have hf' : f.text = [] := by rw [← hi.text, hi' i rfl]
      exact .inr ⟨f :: empty, g, i', rfl, hbefore, List.forall_mem_cons.mpr ⟨hf', hempty⟩, hg, rfl⟩

def Asserted (fs : List Fence) (before after : List Assertion) : Prop :=
  ∃ added, List.Forall₂ Fence.Asserts fs added ∧ after = before ++ added

theorem asserted_cons {f : Fence} {fs : List Fence} {before after : List Assertion} :
    Asserted (f :: fs) before after ↔ ∃ a, f.Asserts a ∧ Asserted fs (before ++ [a]) after := by
  constructor
  · rintro ⟨_, hadded, rfl⟩
    obtain ⟨a, added, ha, hmore, rfl⟩ := List.forall₂_cons_left_iff.mp hadded
    exact ⟨a, ha, added, hmore, List.append_cons ..⟩
  · rintro ⟨a, ha, added, hadded, rfl⟩
    exact ⟨a :: added, .cons ha hadded, (List.append_cons ..).symm⟩

structure AddsAll (fs : List Fence) (d d' : Draft) : Prop where
  name : d'.name = d.name
  input : LastInput (fs.filter Fence.isInput) d.input d'.input
  assertions : Asserted (fs.filter Fence.isAssertion) d.assertions d'.assertions
  languages : ∀ f ∈ fs, f.language = [] ∨ f.isInput ∨ f.isAssertion

theorem addsAll_nil {d d' : Draft} : AddsAll [] d d' ↔ d' = d := by
  constructor
  · rintro ⟨hname, ⟨-, hinput⟩ | ⟨empty, f, i, hf, -⟩, ⟨_, ⟨⟩, hassertions⟩, -⟩
    · rw [List.append_nil] at hassertions
      cases d
      cases d'
      exact Draft.mk.injEq .. ▸ ⟨hname, hinput, hassertions⟩
    · exact absurd hf.symm (by simp)
  · rintro rfl
    exact ⟨rfl, .inl ⟨rfl, rfl⟩, ⟨[], .nil, (List.append_nil _).symm⟩, by simp⟩

theorem addsAll_cons {f : Fence} {fs : List Fence} {d d' : Draft} :
    AddsAll (f :: fs) d d' ↔ ∃ m, Adds f d m ∧ AddsAll fs m d' := by
  constructor
  · rintro ⟨hname, hinput, hassertions, hlanguages⟩
    obtain ⟨hl | hf | hf, hlanguages⟩ := List.forall_mem_cons.mp hlanguages
    · obtain ⟨hi, ha⟩ := not_isInput_of_plain hl
      rw [List.filter_cons_of_neg hi] at hinput
      rw [List.filter_cons_of_neg ha] at hassertions
      exact ⟨d, .nothing hl, hname, hinput, hassertions, hlanguages⟩
    · rw [List.filter_cons_of_pos hf] at hinput
      rw [List.filter_cons_of_neg (not_isAssertion_of_isInput hf)] at hassertions
      obtain ⟨hempty, i, hi, hinput⟩ := (lastInput_cons hf).mp hinput
      exact ⟨_, .input hi hempty, hname, hinput, hassertions, hlanguages⟩
    · rw [List.filter_cons_of_neg (not_isInput_of_isAssertion hf)] at hinput
      rw [List.filter_cons_of_pos hf] at hassertions
      obtain ⟨a, ha, hassertions⟩ := asserted_cons.mp hassertions
      exact ⟨_, .assertion ha, hname, hinput, hassertions, hlanguages⟩
  · rintro ⟨m, hm, ⟨hname, hinput, hassertions, hlanguages⟩⟩
    cases hm with
    | nothing hl =>
      obtain ⟨hi, ha⟩ := not_isInput_of_plain hl
      refine ⟨hname, ?_, ?_, List.forall_mem_cons.mpr ⟨.inl hl, hlanguages⟩⟩
      · rwa [List.filter_cons_of_neg hi]
      · rwa [List.filter_cons_of_neg ha]
    | input hi hempty =>
      have hf := hi.isInput
      refine ⟨hname, ?_, ?_, List.forall_mem_cons.mpr ⟨.inr (.inl hf), hlanguages⟩⟩
      · rw [List.filter_cons_of_pos hf]
        exact (lastInput_cons hf).mpr ⟨hempty, _, hi, hinput⟩
      · rwa [List.filter_cons_of_neg (not_isAssertion_of_isInput hf)]
    | assertion ha =>
      have hf := ha.isAssertion
      refine ⟨hname, ?_, ?_, List.forall_mem_cons.mpr ⟨.inr (.inr hf), hlanguages⟩⟩
      · rwa [List.filter_cons_of_neg (not_isInput_of_isAssertion hf)]
      · rw [List.filter_cons_of_pos hf]
        exact asserted_cons.mpr ⟨_, ha, hassertions⟩

theorem fences_cons_heading (title : Text) (blocks : List Block) :
    fences (.heading title :: blocks) = fences blocks := rfl

theorem fences_cons_fence (language content : Text) (line : Nat) (blocks : List Block) :
    fences (.fence language content line :: blocks) = ⟨language, content, line⟩ :: fences blocks := rfl

theorem block_heading {p : Progress} {title : Text} (h : ¬ OpensCase (.heading title)) :
    p.block (.heading title) = .ok p := by
  have htitle : ¬ caseTitle.isPrefixOf title = true := fun hp => h (List.isPrefixOf_iff_prefix.mp hp)
  rw [Progress.block, if_neg htitle]
  rfl

theorem block_case (p : Progress) (name : Text) :
    p.block (.heading (Text.ofString "Test: " ++ name)) =
      p.close >>= fun cases => .ok ⟨cases, some ⟨name, none, []⟩⟩ := by
  have htitle : caseTitle.isPrefixOf (Text.ofString "Test: " ++ name) = true :=
    List.isPrefixOf_iff_prefix.mpr (List.prefix_append ..)
  have hname : (Text.ofString "Test: " ++ name).drop caseTitle.length = name := List.drop_left
  rw [Progress.block, if_pos htitle, hname]
  rfl

theorem block_fence (cases : List Case) (d : Draft) (language content : Text) (line : Nat) :
    Progress.block ⟨cases, some d⟩ (.fence language content line) =
      d.fence language content line >>= fun m => .ok ⟨cases, some m⟩ := rfl

theorem block_outside (cases : List Case) (language content : Text) (line : Nat) :
    Progress.block ⟨cases, none⟩ (.fence language content line) =
      outside language line >>= fun _ => .ok ⟨cases, none⟩ := rfl

theorem outside_eq_ok {language : Text} {line : Nat} {u : Unit} :
    outside language line = .ok u ↔ language = [] := by
  rw [outside]
  split
  · next h => exact iff_of_true rfl h
  · next h =>
    refine iff_of_false (fun he => ?_) h
    split at he <;> cases he

theorem foldlM_body {body : List Block} (hbody : ∀ b ∈ body, ¬ OpensCase b) {cases : List Case}
    {d : Draft} {q : Progress} : body.foldlM Progress.block ⟨cases, some d⟩ = .ok q ↔
      ∃ m, AddsAll (fences body) d m ∧ q = ⟨cases, some m⟩ := by
  induction body generalizing d with
  | nil =>
    simp only [List.foldlM_nil, pure_eq_ok, fences, List.filterMap_nil, addsAll_nil, exists_eq_left]
    exact eq_comm
  | cons b body ih =>
    obtain ⟨hb, hrest⟩ := List.forall_mem_cons.mp hbody
    rw [List.foldlM_cons]
    cases b with
    | heading title => rw [block_heading hb, ok_bind, ih hrest, fences_cons_heading]
    | fence language content line =>
      rw [block_fence, bind_assoc, fences_cons_fence]
      simp only [bind_eq_ok, ok_bind, ih hrest, addsAll_cons, ← fence_eq_ok]
      constructor
      · rintro ⟨m, hm, m', hm', rfl⟩
        exact ⟨m', ⟨m, hm, hm'⟩, rfl⟩
      · rintro ⟨m', ⟨m, hm, hm'⟩, rfl⟩
        exact ⟨m, hm, m', hm', rfl⟩

theorem foldlM_preamble {preamble : List Block} (hclosed : ∀ b ∈ preamble, ¬ OpensCase b)
    {cases : List Case} {q : Progress} : preamble.foldlM Progress.block ⟨cases, none⟩ = .ok q ↔
      (∀ f ∈ fences preamble, f.language = []) ∧ q = ⟨cases, none⟩ := by
  induction preamble with
  | nil =>
    rw [List.foldlM_nil, pure_eq_ok, eq_comm]
    exact ⟨fun h => ⟨by simp [fences], h⟩, And.right⟩
  | cons b preamble ih =>
    obtain ⟨hb, hrest⟩ := List.forall_mem_cons.mp hclosed
    rw [List.foldlM_cons]
    cases b with
    | heading title => rw [block_heading hb, ok_bind, ih hrest, fences_cons_heading]
    | fence language content line =>
      rw [block_outside, bind_assoc, fences_cons_fence, List.forall_mem_cons]
      simp only [bind_eq_ok, ok_bind, ih hrest, outside_eq_ok, exists_const, and_assoc]

theorem checkTypes_eq_ok {name : Text} {kind : InputKind} {a : Assertion} :
    checkTypes name kind a = .ok () ↔
      (a.kind = .types → kind = .expr ∧ ∃ items, a.datum = some (.list items)) := by
  rw [checkTypes]
  split
  · next h => exact iff_of_true rfl fun ht => absurd ht h
  · next ht =>
    split
    · next hk => exact iff_of_false (by simp) fun h => hk (h (not_not.mp ht)).1
    · next hk =>
      split
      · next items hd => exact iff_of_true rfl fun _ => ⟨not_not.mp hk, items, hd⟩
      · next hd =>
        refine iff_of_false (by simp) fun h => ?_
        obtain ⟨-, items, hitems⟩ := h (not_not.mp ht)
        exact hd items hitems

theorem close_eq_ok {d : Draft} {c : Case} : d.close = .ok c ↔
    c.name = d.name ∧ d.input = some c.input ∧ c.input.text ≠ [] ∧ c.assertions = d.assertions ∧
      c.assertions ≠ [] ∧ ∀ a ∈ c.assertions, a.kind = .types →
        c.input.kind = .expr ∧ ∃ items, a.datum = some (.list items) := by
  constructor
  · intro h
    rw [Draft.close] at h
    split at h
    · cases h
    · next input hinput =>
      split at h
      · cases h
      · next htext =>
        split at h
        · cases h
        · next hne =>
          obtain ⟨_, hall, hc⟩ := bind_eq_ok.mp h
          cases hc
          refine ⟨rfl, hinput, htext, rfl, fun he => hne (List.isEmpty_iff.mpr he), fun a ha => ?_⟩
          exact checkTypes_eq_ok.mp (forM_eq_ok.mp hall a ha)
  · intro h
    obtain ⟨name, input, assertions⟩ := d
    obtain ⟨name', input', assertions'⟩ := c
    obtain ⟨rfl, rfl, htext, rfl, hne, htypes⟩ := h
    have hall : assertions'.forM (checkTypes name' input'.kind) = .ok () :=
      forM_eq_ok.mpr fun a ha => checkTypes_eq_ok.mpr (htypes a ha)
    rw [Draft.close]
    simp only [if_neg htext, List.isEmpty_eq_false_iff.mpr hne, Bool.false_eq_true, if_false, hall,
      ok_bind]
    rfl

theorem close_section {s : Section} {c : Case} :
    (∃ d, AddsAll s.fences ⟨s.name, none, []⟩ d ∧ d.close = .ok c) ↔ s.Yields c := by
  constructor
  · rintro ⟨d, ⟨hname, hinput, ⟨added, hadded, hassertions⟩, hlanguages⟩, hclose⟩
    obtain ⟨hc, hd, htext, hsame, hne, htypes⟩ := close_eq_ok.mp hclose
    have hlast : ∃ empty f, s.inputs = empty ++ [f] ∧ (∀ e ∈ empty, e.text = []) ∧ f.Holds c.input := by
      obtain ⟨-, hnone⟩ | ⟨empty, f, i, hinputs, -, hempty, hi, hsome⟩ := hinput
      · cases hnone.symm.trans hd
      · cases hsome.symm.trans hd
        exact ⟨empty, f, hinputs, hempty, hi⟩
    rw [List.nil_append] at hassertions
    exact ⟨hc.trans hname, hlast, htext, hsame.trans hassertions ▸ hadded, hne, htypes, hlanguages⟩
  · rintro ⟨hname, ⟨empty, f, hinputs, hempty, hf⟩, htext, hassertions, hne, htypes, hlanguages⟩
    refine ⟨⟨c.name, some c.input, c.assertions⟩, ⟨hname, ?_, ⟨c.assertions, hassertions, rfl⟩, hlanguages⟩,
      close_eq_ok.mpr ⟨rfl, rfl, htext, rfl, hne, htypes⟩⟩
    exact .inr ⟨empty, f, c.input, hinputs, by simp, hempty, hf, rfl⟩

theorem progress_close_some {cases closed : List Case} {d : Draft} :
    Progress.close ⟨cases, some d⟩ = .ok closed ↔ ∃ c, d.close = .ok c ∧ closed = cases ++ [c] := by
  change (d.close >>= fun c => .ok (cases ++ [c])) = .ok closed ↔ _
  simp only [bind_eq_ok, Except.ok.injEq, @eq_comm _ closed]

theorem foldlM_section {s : Section} {p q : Progress} :
    s.blocks.foldlM Progress.block p = .ok q ↔
      ∃ cases d, p.close = .ok cases ∧ AddsAll s.fences ⟨s.name, none, []⟩ d ∧ q = ⟨cases, some d⟩ := by
  rw [Section.blocks, List.foldlM_cons, block_case, bind_assoc]
  simp only [bind_eq_ok, ok_bind, foldlM_body s.closed]
  constructor
  · rintro ⟨cases, hcases, d, hd, rfl⟩
    exact ⟨cases, d, hcases, hd, rfl⟩
  · rintro ⟨cases, d, hcases, hd, rfl⟩
    exact ⟨cases, hcases, d, hd, rfl⟩

theorem foldlM_sections {sections : List Section} {p : Progress} {cases : List Case} :
    ((sections.flatMap Section.blocks).foldlM Progress.block p >>= Progress.close) = .ok cases ↔
      ∃ before added, p.close = .ok before ∧ List.Forall₂ Section.Yields sections added ∧
        cases = before ++ added := by
  -- A section leaves its draft open, and the next heading or the end of the document closes it; so
  -- the induction is on the sections with the last closing in, and for any draft open before them.
  induction sections generalizing p with
  | nil =>
    rw [List.flatMap_nil, List.foldlM_nil]
    constructor
    · intro h
      exact ⟨cases, [], h, .nil, (List.append_nil _).symm⟩
    · rintro ⟨before, _, h, ⟨⟩, rfl⟩
      rwa [List.append_nil]
  | cons s sections ih =>
    rw [List.flatMap_cons, List.foldlM_append, bind_assoc, bind_eq_ok]
    constructor
    · rintro ⟨q, hq, hrest⟩
      obtain ⟨before, d, hp, hd, rfl⟩ := foldlM_section.mp hq
      obtain ⟨_, added, hclose, hadded, rfl⟩ := ih.mp hrest
      obtain ⟨c, hc, rfl⟩ := progress_close_some.mp hclose
      exact ⟨before, c :: added, hp, .cons (close_section.mp ⟨d, hd, hc⟩) hadded,
        (List.append_cons ..).symm⟩
    · rintro ⟨before, _, hp, hadded, rfl⟩
      obtain ⟨c, added, hc, hmore, rfl⟩ := List.forall₂_cons_left_iff.mp hadded
      obtain ⟨d, hd, hclose⟩ := close_section.mpr hc
      refine ⟨⟨before, some d⟩, foldlM_section.mpr ⟨before, d, hp, hd, rfl⟩, ih.mpr ?_⟩
      exact ⟨before ++ [c], added, progress_close_some.mpr ⟨c, hclose, rfl⟩, hmore,
        List.append_cons ..⟩

theorem ofBlocks_eq_ok {blocks : List Block} {cases : List Case} : ofBlocks blocks = .ok cases ↔
    (blocks.foldlM Progress.block ⟨[], none⟩ >>= Progress.close) = .ok cases := by
  rw [ofBlocks]
  cases blocks.foldlM Progress.block ⟨[], none⟩ with
  | error e => simp [Except.mapError]
  | ok p =>
    change p.close.mapError Failure.atEnd = .ok cases ↔ p.close = .ok cases
    cases p.close <;> simp [Except.mapError]

theorem ofBlocks_outline {o : Outline} {cases : List Case} :
    ofBlocks o.blocks = .ok cases ↔ o.Yields cases := by
  rw [ofBlocks_eq_ok, Outline.blocks, List.foldlM_append, bind_assoc, bind_eq_ok]
  constructor
  · rintro ⟨p, hp, h⟩
    obtain ⟨hpreamble, rfl⟩ := (foldlM_preamble o.closed).mp hp
    obtain ⟨_, added, ⟨⟩, hadded, rfl⟩ := foldlM_sections.mp h
    exact ⟨hpreamble, hadded⟩
  · rintro ⟨hpreamble, hsections⟩
    exact ⟨⟨[], none⟩, (foldlM_preamble o.closed).mpr ⟨hpreamble, rfl⟩,
      foldlM_sections.mpr ⟨[], cases, rfl, hsections, rfl⟩⟩

theorem mem_fences_outline {o : Outline} {f : Fence} :
    f ∈ fences o.blocks ↔ f ∈ fences o.preamble ∨ ∃ s ∈ o.sections, f ∈ s.fences := by
  rw [Outline.blocks, fences, List.filterMap_append, List.mem_append]
  refine or_congr Iff.rfl ?_
  simp only [List.mem_filterMap, List.mem_flatMap]
  constructor
  · rintro ⟨b, ⟨s, hs, hb⟩, hf⟩
    rcases List.mem_cons.mp hb with rfl | hb
    · cases hf
    · exact ⟨s, hs, List.mem_filterMap.mpr ⟨b, hb, hf⟩⟩
  · rintro ⟨s, hs, hf⟩
    obtain ⟨b, hb, hf⟩ := List.mem_filterMap.mp hf
    exact ⟨b, ⟨s, hs, List.mem_cons_of_mem _ hb⟩, hf⟩

def Section.HoldsOnly (s : Section) (c : Case) : Prop := ∃ f, s.inputs = [f] ∧ f.Holds c.input

theorem Section.Yields.holdsOnly_iff {s : Section} {c : Case} (h : s.Yields c) :
    s.HoldsOnly c ↔ ∀ f ∈ s.inputs, f.text ≠ [] := by
  constructor
  · rintro ⟨f, hs, hf⟩
    rw [hs, List.forall_mem_singleton, ← hf.text]
    exact h.inputText
  · intro hinputs
    obtain ⟨empty, f, hs, hempty, hf⟩ := h.input
    cases empty with
    | nil => exact ⟨f, hs, hf⟩
    | cons e empty =>
      have he : e ∈ s.inputs := hs ▸ List.mem_cons_self
      exact absurd (hempty e List.mem_cons_self) (hinputs e he)

theorem Outline.Yields.holdOnly_iff {o : Outline} {cases : List Case} (h : o.Yields cases) :
    List.Forall₂ Section.HoldsOnly o.sections cases ↔
      ∀ f ∈ fences o.blocks, f.isInput = true → f.text ≠ [] := by
  constructor
  · intro honly f hf hinput
    rcases mem_fences_outline.mp hf with hf | ⟨s, hs, hf⟩
    · exact absurd (h.preamble f hf) (language_ne_nil (.inl hinput))
    · have hnone : List.Forall₂ (fun s _ => ∀ f ∈ s.inputs, f.text ≠ []) o.sections cases :=
        List.Forall₂.mp (fun _ _ hs => hs.holdsOnly_iff.mp) h.sections honly
      obtain ⟨_, -, hinputs⟩ := exists_of_forall₂ hnone hs
      exact hinputs f (List.mem_filter.mpr ⟨hf, hinput⟩)
  · intro hinputs
    have hall : ∀ s ∈ o.sections, ∀ f ∈ s.inputs, f.text ≠ [] := by
      intro s hs f hf
      obtain ⟨hmem, hinput⟩ := List.mem_filter.mp hf
      exact hinputs f (mem_fences_outline.mpr (.inr ⟨s, hs, hmem⟩)) hinput
    exact ((List.forall₂_and_left _ _).mpr ⟨hall, h.sections⟩).imp
      fun _ _ h => h.2.holdsOnly_iff.mpr h.1

/-- A document has an outline, and its extraction succeeds with the cases that the outline yields and
with no others. Then each section holds exactly one input fence if and only if no input fence of the
document is empty. -/
theorem extraction_reflects_sections (blocks : List Block) :
    (∃ o : Outline, o.blocks = blocks) ∧
    ∀ (o : Outline) (cases : List Case), o.blocks = blocks →
      (ofBlocks blocks = .ok cases ↔ o.Yields cases) ∧
      (ofBlocks blocks = .ok cases → (List.Forall₂ Section.HoldsOnly o.sections cases ↔
        ∀ f ∈ fences blocks, f.isInput = true → f.text ≠ [])) := by
  refine ⟨exists_outline blocks, ?_⟩
  rintro o cases rfl
  exact ⟨ofBlocks_outline, fun h => (ofBlocks_outline.mp h).holdOnly_iff⟩

def twoCases : List Block :=
  [.heading "Test: one", .fence "macs-expr" "1\n\n" 3, .heading "Note", .fence "types" "((1 int))\n" 8,
    .heading "Test: two", .fence "ast" "...\n" 12, .fence [] "plain\n" 15,
    .fence "macs-program" "//\n" 18]

theorem ofBlocks_twoCases : (ofBlocks twoCases).toOption.map (fun cases => cases.map fun c =>
    (c.name, c.input.text, c.assertions.map (·.content))) =
      some [(Text.ofString "one", Text.ofString "1", [Text.ofString "((1 int))"]),
        (Text.ofString "two", Text.ofString "//", [Text.ofString "..."])] := by
  decide +kernel

theorem inputs_twoCases : (fences twoCases).all (fun f => !f.isInput || f.text != []) = true := by
  decide +kernel

theorem extraction_reflects_sections_twoCases :
    ∃ o : Outline, o.blocks = twoCases ∧ ∃ cases, ofBlocks twoCases = .ok cases ∧
      cases.map (·.name) = [Text.ofString "one", Text.ofString "two"] ∧ o.Yields cases ∧
      List.Forall₂ Section.HoldsOnly o.sections cases := by
  obtain ⟨⟨o, ho⟩, hreflects⟩ := extraction_reflects_sections twoCases
  obtain ⟨cases, hcases, hshape⟩ := exists_of_toOption_map ofBlocks_twoCases
  obtain ⟨hyields, honly⟩ := hreflects o cases ho
  have hinputs : ∀ f ∈ fences twoCases, f.isInput = true → f.text ≠ [] := by
    intro f hf hinput
    have := List.all_eq_true.mp inputs_twoCases f hf
    simpa [hinput] using this
  have hnames : cases.map (·.name) = [Text.ofString "one", Text.ofString "two"] := by
    have := congrArg (List.map Prod.fst) hshape
    rwa [List.map_map] at this
  exact ⟨o, ho, cases, hcases, hnames, hyields.mp hcases, (honly hcases).mpr hinputs⟩

def twoInputs : Section where
  name := Text.ofString "a"
  body := [.fence (Text.ofString "macs-expr") [] 1,
    .fence (Text.ofString "macs-expr") (Text.ofString "1\n") 4,
    .fence (Text.ofString "ast") (Text.ofString "1\n") 7]
  closed := by simp [OpensCase]

/-- The extraction succeeds although the section holds two input fences. -/
theorem empty_input_passed_over :
    twoInputs.inputs.length = 2 ∧ ∃ c, ofBlocks twoInputs.blocks = .ok [c] ∧ ¬ twoInputs.HoldsOnly c := by
  have hinputs : twoInputs.inputs.length = 2 := by decide +kernel
  have hcount : (ofBlocks twoInputs.blocks).toOption.map List.length = some 1 := by decide +kernel
  obtain ⟨cases, hcases, hlength⟩ := exists_of_toOption_map hcount
  obtain ⟨c, rfl⟩ := List.length_eq_one_iff.mp hlength
  refine ⟨hinputs, c, hcases, ?_⟩
  rintro ⟨f, hf, -⟩
  rw [hf] at hinputs
  cases hinputs

end MiniSharp.Suite
