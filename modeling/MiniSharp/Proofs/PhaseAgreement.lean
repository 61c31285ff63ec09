import MiniSharp.Proofs.Acceptance
import MiniSharp.Proofs.Depiction
import MiniSharp.Proofs.Totality
import MiniSharp.Shell.Phase

namespace MiniSharp

open MiniSharp.Parser (Opens)

theorem scan_problem {source : Text} {t : Token} (h : t ∈ (scan source).toList)
    (hk : t.kind = .unknown) : ∃ p, t.problem = some p := by
  obtain ⟨s, hs⟩ := exists_covers h
  obtain ⟨p, hp, -⟩ := hs.problem.mpr hk
  exact ⟨p, hp⟩

theorem known_of_opens {w : List Token} (h : Opens (List Grammar.Function) w) :
    ∀ t ∈ w, t.kind ≠ .unknown := by
  obtain ⟨ds, more, hds, -⟩ := h
  intro t ht
  refine Grammar.Known.kind_ne ds t ?_
  rw [hds]
  exact List.mem_append_left more ht

theorem parse_fails_of_unknown {source : Text}
    (h : ∃ t ∈ (scan source).toList, t.kind = .unknown) : ∃ e, parse source = .error e := by
  obtain ⟨t, ht, hk⟩ := h
  cases hx : parse source with
  | error e => exact ⟨e, rfl⟩
  | ok x =>
    rcases List.mem_append.mp ht with ht | ht
    · exact absurd hk (scan_known hx t ht)
    · rw [List.mem_singleton.mp ht, (scan_kinds source).1] at hk
      cases hk

theorem error_before_unknown {source : Text} {e : ParseError} (h : parse source = .error e)
    {before after : List Token} {t : Token} {p : Problem}
    (hsplit : (scan source).toList = before ++ t :: after) (hk : t.kind = .unknown)
    (hp : t.problem = some p) :
    e.token ∈ before ++ [t] ∧ (e.token = t → e = ⟨t, .lexical p⟩) := by
  obtain ⟨f, hf, rfl⟩ := parse_eq_error h
  obtain ⟨w, hw, hopens⟩ := functions_error hf
  rw [error_token]
  constructor
  · have htokens : w ++ (f.rest.headD (scan source).eof :: (f.rest ++ [(scan source).eof]).tail) =
        before ++ t :: after := by
      rw [← headD_append_tail, ← List.append_assoc, ← hw]
      exact hsplit
    generalize f.rest.headD (scan source).eof = u at htokens ⊢
    obtain ⟨c, hc, hrest⟩ | ⟨c, hc, hrest⟩ := List.append_eq_append_iff.mp htokens
    · -- The reader stopped at the first token of `c ++ [t]`.
      cases c with
      | nil =>
        rw [(List.cons.inj hrest).1]
        exact List.mem_append_right before (List.mem_singleton.mpr rfl)
      | cons v c =>
        rw [(List.cons.inj hrest).1, hc]
        simp
    · cases c with
      | nil =>
        rw [← (List.cons.inj hrest).1]
        exact List.mem_append_right before (List.mem_singleton.mpr rfl)
      | cons v c =>
        have hmem : t ∈ w := by
          rw [hc, (List.cons.inj hrest).1]
          simp
        exact absurd hk (known_of_opens hopens t hmem)
  · intro htoken
    have hcause : (f.error (scan source).eof).cause = .lexical p :=
      error_cause (htoken ▸ hk) (htoken ▸ hp)
    have htoken' := error_token f (scan source).eof
    rw [htoken] at htoken'
    cases he : f.error (scan source).eof with
    | mk token cause =>
      rw [he] at hcause htoken'
      rw [← htoken', ← hcause]

namespace Phase

theorem listTokens_known {ts : List Token} (h : ∀ t ∈ ts, t.kind ≠ .unknown) :
    (listTokens ts).error = none := by
  induction ts with
  | nil => rfl
  | cons t rest ih =>
    obtain ⟨ht, hrest⟩ := List.forall_mem_cons.mp h
    rw [listTokens]
    split
    · next hk _ => exact absurd hk ht
    · exact ih hrest

theorem listTokens_unknown {before after : List Token} {t : Token} {p : Problem}
    (hbefore : ∀ u ∈ before, u.kind ≠ .unknown) (hk : t.kind = .unknown)
    (hp : t.problem = some p) :
    (listTokens (before ++ t :: after)).error = some (.parse ⟨t, .lexical p⟩) := by
  induction before with
  | nil => simp only [List.nil_append, listTokens, hk, hp]
  | cons u rest ih =>
    obtain ⟨hu, hrest⟩ := List.forall_mem_cons.mp hbefore
    rw [List.cons_append, listTokens]
    split
    · next hk _ => exact absurd hk hu
    · exact ih hrest

theorem exists_first_unknown {ts : List Token} (h : ∃ t ∈ ts, t.kind = .unknown) :
    ∃ before t after, ts = before ++ t :: after ∧ (∀ u ∈ before, u.kind ≠ .unknown) ∧
      t.kind = .unknown := by
  have hsome : (ts.find? fun t => decide (t.kind = .unknown)).isSome := by simpa using h
  obtain ⟨t, ht⟩ := Option.isSome_iff_exists.mp hsome
  obtain ⟨hk, before, after, hsplit, hbefore⟩ := List.find?_eq_some_iff_append.mp ht
  exact ⟨before, t, after, hsplit, by simpa using hbefore, by simpa using hk⟩

variable {source : Text}

theorem lex_fails (h : ∃ t ∈ (scan source).toList, t.kind = .unknown) :
    ∃ before t after problem, (scan source).toList = before ++ t :: after ∧
      (∀ u ∈ before, u.kind ≠ .unknown) ∧ t.kind = .unknown ∧ t.problem = some problem ∧
      (run source .lex).error = some (.parse ⟨t, .lexical problem⟩) := by
  obtain ⟨before, t, after, hsplit, hbefore, hk⟩ := exists_first_unknown h
  have hmem : t ∈ (scan source).toList := hsplit ▸ List.mem_append_right before List.mem_cons_self
  obtain ⟨problem, hproblem⟩ := scan_problem hmem hk
  refine ⟨before, t, after, problem, hsplit, hbefore, hk, hproblem, ?_⟩
  rw [run, hsplit]
  exact listTokens_unknown hbefore hk hproblem

theorem lex_fails_iff :
    (run source .lex).error ≠ none ↔ ∃ t ∈ (scan source).toList, t.kind = .unknown := by
  constructor
  · intro hfails
    by_contra hnone
    push Not at hnone
    exact hfails (listTokens_known hnone)
  · intro hunknown
    obtain ⟨_, _, _, _, _, _, _, _, herror⟩ := lex_fails hunknown
    rw [herror]
    exact Option.some_ne_none _

theorem errors_of_parse_error {e : ParseError} (h : MiniSharp.parse source = .error e) :
    (run source .parse).error = some (.parse e) ∧ (run source .check).error = some (.parse e) ∧
      (run source .build).error = some (.parse e) := by
  refine ⟨?_, ?_, ?_⟩
  · simp only [run, printTree, h]
    rfl
  · simp only [run, listFunctions, MiniSharp.check, h]
    rfl
  · simp only [run, compile_of_parse_error h]
    rfl

theorem parse_succeeds {x : Program Unit} (h : MiniSharp.parse source = .ok x) :
    (run source .parse).error = none := by
  have htext := (Program.readsAs (parse_formed h (scan_wellSpelled source))).1.text
  simp only [run, printTree, h, Except.mapError, ok_bind, htext]
  rfl

theorem errors_of_analyze_error {x : Program Unit} {e : SemanticError}
    (h : MiniSharp.parse source = .ok x) (he : x.analyze = .error (.semantic e)) :
    (run source .check).error = some (.semantic e) ∧
      (run source .build).error = some (.semantic e) := by
  constructor
  · simp only [run, listFunctions, MiniSharp.check, h, Except.mapError, ok_bind, he]
    rfl
  · simp only [run, compile_of_analyze_error h he]
    rfl

theorem check_and_build_succeed {x : Program Unit} {a : Analysis}
    (h : MiniSharp.parse source = .ok x) (ha : x.analyze = .ok a) :
    (run source .check).error = none ∧ (run source .build).error = none := by
  have hcheck := check_eq_ok.mpr ⟨x, h, ha⟩
  obtain ⟨methods, hmethods, -⟩ := Program.lower_emitted (parse_formed h (scan_wellSpelled source)) ha
  constructor
  · simp only [run, listFunctions, hcheck]
    rfl
  · simp only [run, compile_of_check hcheck (toCSharp_of_lower hmethods)]
    rfl

theorem analyze_error {x : Program Unit} {stop : Stop} (h : MiniSharp.parse source = .ok x)
    (hs : x.analyze = .error stop) : ∃ e, stop = .semantic e := by
  have hform := parse_formed h (scan_wellSpelled source)
  rw [← Program.analyze_toTree hform] at hs
  exact Tree.analyze_faultless (Program.toTree_shaped hform) stop hs

end Phase

/-- The list of tokens ends in an error exactly if there is a token that is none. Reading fails
then too, there or earlier, and there with the same error. What cannot be read is refused by the
later phases with the error of reading, and they agree on what can be read. -/
theorem phases_agree (source : Text) :
    ((Phase.run source .lex).error ≠ none ↔ ∃ t ∈ (scan source).toList, t.kind = .unknown) ∧
    (∀ r, (Phase.run source .lex).error = some r → ∃ before t after problem e,
      (scan source).toList = before ++ t :: after ∧ (∀ u ∈ before, u.kind ≠ .unknown) ∧
      t.kind = .unknown ∧ r = .parse ⟨t, .lexical problem⟩ ∧
      (Phase.run source .parse).error = some (.parse e) ∧ e.token ∈ before ++ [t] ∧
      (e.token = t → e = ⟨t, .lexical problem⟩)) ∧
    (∀ r, (Phase.run source .parse).error = some r → ∃ e, r = .parse e ∧
      (Phase.run source .check).error = some r ∧ (Phase.run source .build).error = some r) ∧
    ((Phase.run source .parse).error = none →
      (∃ e, (Phase.run source .check).error = some (.semantic e) ∧
        (Phase.run source .build).error = some (.semantic e)) ∨
      ((Phase.run source .check).error = none ∧ (Phase.run source .build).error = none)) := by
  refine ⟨Phase.lex_fails_iff, ?_, ?_, ?_⟩
  · intro r hr
    have hunknown := Phase.lex_fails_iff.mp (by rw [hr]; exact Option.some_ne_none r)
    obtain ⟨before, t, after, problem, hsplit, hbefore, hk, hp, herror⟩ := Phase.lex_fails hunknown
    obtain ⟨e, he⟩ := parse_fails_of_unknown hunknown
    obtain ⟨htoken, hsame⟩ := error_before_unknown he hsplit hk hp
    rw [herror] at hr
    exact ⟨before, t, after, problem, e, hsplit, hbefore, hk, (Option.some.inj hr).symm,
      (Phase.errors_of_parse_error he).1, htoken, hsame⟩
  · intro r hr
    cases hx : parse source with
    | error e =>
      obtain ⟨hparse, hcheck, hbuild⟩ := Phase.errors_of_parse_error hx
      rw [hparse] at hr
      obtain rfl := Option.some.inj hr
      exact ⟨e, rfl, hcheck, hbuild⟩
    | ok x =>
      rw [Phase.parse_succeeds hx] at hr
      cases hr
  · intro hr
    cases hx : parse source with
    | error e =>
      rw [(Phase.errors_of_parse_error hx).1] at hr
      cases hr
    | ok x =>
      cases ha : x.analyze with
      | error stop =>
        obtain ⟨e, rfl⟩ := Phase.analyze_error hx ha
        exact .inl ⟨e, Phase.errors_of_analyze_error hx ha⟩
      | ok a => exact .inr (Phase.check_and_build_succeed hx ha)

def nameless : Text := Text.ofString "func 1 @"

def undeclared : Text := Text.ofString "func main(): int \x7b return x; \x7d"

theorem phases_agree_samples :
    (∃ r e, (Phase.run nameless .lex).error = some r ∧
      (Phase.run nameless .parse).error = some (.parse e) ∧
      (Phase.run nameless .check).error = some (.parse e) ∧
      (Phase.run nameless .build).error = some (.parse e)) ∧
    (Phase.run undeclared .parse).error = none ∧
      ∃ e, (Phase.run undeclared .check).error = some (.semantic e) ∧
        (Phase.run undeclared .build).error = some (.semantic e) := by
  have hlex : (Phase.run nameless .lex).error.isSome := by
    rw [nameless, Text.ofString_ofList]
    decide +kernel
  have hparse : (Phase.run undeclared .parse).error = none := by
    rw [undeclared, Text.ofString_ofList]
    decide +kernel
  have hcheck : (Phase.run undeclared .check).error ≠ none := by
    rw [undeclared, Text.ofString_ofList]
    decide +kernel
  obtain ⟨r, hr⟩ := Option.isSome_iff_exists.mp hlex
  obtain ⟨-, hunknown, hlater, -⟩ := phases_agree nameless
  obtain ⟨_, _, _, _, e, _, _, _, _, he, -⟩ := hunknown r hr
  obtain ⟨e', he', hec, heb⟩ := hlater _ he
  refine ⟨⟨r, e, hr, he, hec, heb⟩, hparse, ?_⟩
  rcases (phases_agree undeclared).2.2.2 hparse with hboth | hnone
  · exact hboth
  · exact absurd hnone.1 hcheck

end MiniSharp
