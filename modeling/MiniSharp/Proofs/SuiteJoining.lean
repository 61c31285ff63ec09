import MiniSharp.Proofs.SuiteSections

namespace MiniSharp.Suite

theorem exists_sections {b : Block} (hb : OpensCase b) (rest : List Block) :
    ∃ sections : List Section, sections.flatMap Section.blocks = b :: rest := by
  cases b with
  | fence => exact hb.elim
  | heading title =>
    obtain ⟨name, rfl⟩ := hb
    obtain ⟨o, rfl⟩ := exists_outline rest
    exact ⟨⟨name, o.preamble, o.closed⟩ :: o.sections, rfl⟩

theorem ofBlocks_append {b : Block} (hb : OpensCase b) {first rest : List Block} {cases : List Case} :
    ofBlocks (first ++ b :: rest) = .ok cases ↔ ∃ before added,
      ofBlocks first = .ok before ∧ ofBlocks (b :: rest) = .ok added ∧ cases = before ++ added := by
  obtain ⟨sections, hsections⟩ := exists_sections hb rest
  have hadded {added : List Case} :
      ofBlocks (b :: rest) = .ok added ↔ List.Forall₂ Section.Yields sections added := by
    rw [← hsections, ofBlocks_eq_ok, foldlM_sections]
    constructor
    · rintro ⟨_, _, ⟨⟩, h, rfl⟩
      exact h
    · intro h
      exact ⟨[], added, rfl, h, rfl⟩
  simp only [hadded]
  rw [← hsections, ofBlocks_eq_ok, List.foldlM_append, bind_assoc, bind_eq_ok]
  simp only [foldlM_sections]
  simp only [ofBlocks_eq_ok, bind_eq_ok]
  constructor
  · rintro ⟨p, hp, before, added, hbefore, h, rfl⟩
    exact ⟨before, added, ⟨p, hp, hbefore⟩, h, rfl⟩
  · rintro ⟨before, added, ⟨p, hp, hbefore⟩, h, rfl⟩
    exact ⟨p, hp, before, added, hbefore, h, rfl⟩

def unnumbered : Block → Block
  | .heading title => .heading title
  | .fence language content _ => .fence language content 0

def Input.unnumbered (i : Input) : Input := { i with line := 0 }

def Case.unnumbered (c : Case) : Case := { c with input := c.input.unnumbered }

def Draft.unnumbered (d : Draft) : Draft := { d with input := d.input.map Input.unnumbered }

def Progress.unnumbered (p : Progress) : Progress :=
  ⟨p.cases.map Case.unnumbered, p.draft.map Draft.unnumbered⟩

theorem addInput_unnumbered (d : Draft) (i : Input) :
    (d.unnumbered.addInput i.unnumbered).toOption = (d.addInput i).toOption.map Draft.unnumbered := by
  have hany : d.unnumbered.input.any (·.text ≠ []) = d.input.any (·.text ≠ []) := by
    rw [Draft.unnumbered, Option.any_map]
    rfl
  rw [Draft.addInput, Draft.addInput, hany]
  split <;> rfl

theorem addAssertion_unnumbered (d : Draft) (kind : AssertionKind) (content : Text) (line : Nat) :
    (d.unnumbered.addAssertion kind content 0).toOption =
      (d.addAssertion kind content line).toOption.map Draft.unnumbered := by
  rw [Draft.addAssertion, Draft.addAssertion]
  split
  · split <;> rfl
  · rfl

theorem fence_unnumbered (d : Draft) (language content : Text) (line : Nat) :
    (d.unnumbered.fence language content 0).toOption =
      (d.fence language content line).toOption.map Draft.unnumbered := by
  dsimp only [Draft.fence]
  split
  · rfl
  · split
    · exact addInput_unnumbered d ⟨_, _, line⟩
    · exact addAssertion_unnumbered d ..
    · rfl

theorem draft_close_some (name text : Text) (kind : InputKind) (line : Nat)
    (assertions : List Assertion) : Draft.close ⟨name, some ⟨kind, text, line⟩, assertions⟩ =
      if text = [] then .error (.noInput name)
      else if assertions.isEmpty then .error (.noAssertions name)
      else assertions.forM (checkTypes name kind) >>= fun _ =>
        .ok ⟨name, ⟨kind, text, line⟩, assertions⟩ := rfl

theorem draft_close_unnumbered (d : Draft) :
    d.unnumbered.close.toOption = d.close.toOption.map Case.unnumbered := by
  obtain ⟨name, input, assertions⟩ := d
  cases input with
  | none => rfl
  | some i =>
    obtain ⟨kind, text, line⟩ := i
    change (Draft.close ⟨name, some ⟨kind, text, 0⟩, assertions⟩).toOption = _
    rw [draft_close_some, draft_close_some]
    split
    · rfl
    · split
      · rfl
      · cases assertions.forM (checkTypes name kind) <;> rfl

theorem toOption_bind {ε α β : Type} {x y : Except ε α} {f g : α → Except ε β} {r : α → α} {s : β → β}
    (hx : y.toOption = x.toOption.map r) (hf : ∀ a, (g (r a)).toOption = (f a).toOption.map s) :
    (y >>= g).toOption = (x >>= f).toOption.map s := by
  cases x with
  | error e =>
    cases y with
    | error e' => rfl
    | ok b => cases hx
  | ok a =>
    cases y with
    | error e => cases hx
    | ok b =>
      cases hx
      exact hf a

theorem progress_close_unnumbered (p : Progress) :
    p.unnumbered.close.toOption = p.close.toOption.map (List.map Case.unnumbered) := by
  obtain ⟨cases, draft⟩ := p
  cases draft with
  | none => rfl
  | some d =>
    refine toOption_bind (draft_close_unnumbered d) fun c => ?_
    change some (cases.map Case.unnumbered ++ [c.unnumbered]) = some ((cases ++ [c]).map Case.unnumbered)
    rw [List.map_append, List.map_singleton]

theorem outside_unnumbered (language : Text) (line : Nat) :
    (outside language 0).toOption = (outside language line).toOption.map id := by
  rw [outside, outside]
  split
  · rfl
  · split <;> rfl

theorem block_unnumbered (p : Progress) (b : Block) :
    (p.unnumbered.block (unnumbered b)).toOption = (p.block b).toOption.map Progress.unnumbered := by
  cases b with
  | heading title =>
    rw [unnumbered, Progress.block, Progress.block]
    split
    · exact toOption_bind (progress_close_unnumbered p) fun _ => rfl
    · rfl
  | fence language content line =>
    obtain ⟨cases, draft⟩ := p
    cases draft with
    | none => exact toOption_bind (outside_unnumbered language line) fun _ => rfl
    | some d => exact toOption_bind (fence_unnumbered d language content line) fun _ => rfl

theorem foldlM_unnumbered (p : Progress) (blocks : List Block) :
    ((blocks.map unnumbered).foldlM Progress.block p.unnumbered).toOption =
      (blocks.foldlM Progress.block p).toOption.map Progress.unnumbered := by
  induction blocks generalizing p with
  | nil => rfl
  | cons b blocks ih =>
    rw [List.map_cons, List.foldlM_cons, List.foldlM_cons]
    exact toOption_bind (block_unnumbered p b) ih

theorem toOption_ofBlocks (blocks : List Block) : (ofBlocks blocks).toOption =
    (blocks.foldlM Progress.block ⟨[], none⟩ >>= Progress.close).toOption := by
  rw [ofBlocks]
  cases blocks.foldlM Progress.block ⟨[], none⟩ with
  | error e => rfl
  | ok p =>
    change (p.close.mapError Failure.atEnd).toOption = p.close.toOption
    cases p.close <;> rfl

theorem ofBlocks_unnumbered (blocks : List Block) : (ofBlocks (blocks.map unnumbered)).toOption =
    (ofBlocks blocks).toOption.map (List.map Case.unnumbered) := by
  rw [toOption_ofBlocks, toOption_ofBlocks]
  exact toOption_bind (foldlM_unnumbered ⟨[], none⟩ blocks) progress_close_unnumbered

theorem exists_ofBlocks {blocks others : List Block} {cases : List Case}
    (h : others.map unnumbered = blocks.map unnumbered) (hblocks : ofBlocks blocks = .ok cases) :
    ∃ same, ofBlocks others = .ok same ∧
      same.map Case.unnumbered = cases.map Case.unnumbered := by
  apply exists_of_toOption_map
  rw [← ofBlocks_unnumbered, h, ofBlocks_unnumbered, hblocks]
  rfl

/-- A document that starts with a case may follow any other one: the extraction from both together
succeeds exactly if that from each of them does, and gives the cases of the first and then those of the
second. Only the numbers of lines may differ, with those of the joined blocks. -/
theorem sections_extracted_separately (first second joined : List Block)
    (hstart : ∃ b rest, second = b :: rest ∧ OpensCase b)
    (hjoined : joined.map unnumbered = (first ++ second).map unnumbered) :
    ((∃ cases, ofBlocks joined = .ok cases) ↔
      (∃ before, ofBlocks first = .ok before) ∧ ∃ added, ofBlocks second = .ok added) ∧
    ∀ cases before added, ofBlocks joined = .ok cases → ofBlocks first = .ok before →
      ofBlocks second = .ok added →
      cases.map Case.unnumbered = (before ++ added).map Case.unnumbered ∧
      (joined = first ++ second → cases = before ++ added) := by
  obtain ⟨b, rest, rfl, hb⟩ := hstart
  refine ⟨⟨?_, ?_⟩, ?_⟩
  · rintro ⟨cases, hcases⟩
    obtain ⟨_, hsame, -⟩ := exists_ofBlocks hjoined.symm hcases
    obtain ⟨before, added, hbefore, hadded, -⟩ := (ofBlocks_append hb).mp hsame
    exact ⟨⟨before, hbefore⟩, added, hadded⟩
  · rintro ⟨⟨before, hbefore⟩, added, hadded⟩
    obtain ⟨cases, hcases, -⟩ :=
      exists_ofBlocks hjoined ((ofBlocks_append hb).mpr ⟨before, added, hbefore, hadded, rfl⟩)
    exact ⟨cases, hcases⟩
  · intro cases before added hcases hbefore hadded
    have happend : ofBlocks (first ++ b :: rest) = .ok (before ++ added) :=
      (ofBlocks_append hb).mpr ⟨before, added, hbefore, hadded, rfl⟩
    constructor
    · obtain ⟨_, hsame, hmap⟩ := exists_ofBlocks hjoined happend
      cases hcases.symm.trans hsame
      exact hmap
    · rintro rfl
      exact Except.ok.inj (hcases.symm.trans happend)

def smallCase (name : String) (line : Nat) : List Block :=
  [.heading (Text.ofString "Test: " ++ Text.ofString name),
    .fence (Text.ofString "macs-expr") (Text.ofString "1\n") (line + 1),
    .fence (Text.ofString "ast") (Text.ofString "1\n") (line + 4)]

theorem ofBlocks_smallCases : (ofBlocks (smallCase "one" 1 ++ smallCase "two" 8)).toOption.map
    (fun cases => cases.map fun c => (c.name, c.input.line)) =
      some [(Text.ofString "one", 2), (Text.ofString "two", 9)] := by
  decide +kernel

theorem sections_extracted_separately_smallCases :
    (∃ b rest, smallCase "two" 1 = b :: rest ∧ OpensCase b) ∧
    (smallCase "one" 1 ++ smallCase "two" 8).map unnumbered =
      (smallCase "one" 1 ++ smallCase "two" 1).map unnumbered ∧
    ∃ cases before added, ofBlocks (smallCase "one" 1 ++ smallCase "two" 8) = .ok cases ∧
      ofBlocks (smallCase "one" 1) = .ok before ∧ ofBlocks (smallCase "two" 1) = .ok added ∧
      cases.map Case.unnumbered = (before ++ added).map Case.unnumbered ∧
      cases.map (fun c => (c.name, c.input.line)) =
        [(Text.ofString "one", 2), (Text.ofString "two", 9)] := by
  have hstart : ∃ b rest, smallCase "two" 1 = b :: rest ∧ OpensCase b :=
    ⟨_, _, rfl, List.prefix_append ..⟩
  obtain ⟨cases, hcases, hshape⟩ := exists_of_toOption_map ofBlocks_smallCases
  obtain ⟨hiff, hsame⟩ := sections_extracted_separately (smallCase "one" 1) (smallCase "two" 1)
    (smallCase "one" 1 ++ smallCase "two" 8) hstart rfl
  obtain ⟨⟨before, hbefore⟩, added, hadded⟩ := hiff.mp ⟨cases, hcases⟩
  exact ⟨hstart, rfl, cases, before, added, hcases, hbefore, hadded,
    (hsame cases before added hcases hbefore hadded).1, hshape⟩

end MiniSharp.Suite
