import Mathlib.Data.List.Nodup
import MiniSharp.Analysis.Compiler
import MiniSharp.Proofs.CheckerRules

namespace MiniSharp.Typing

namespace Place

structure Later (p p' : Place) : Prop where
  function : p'.function = p.function
  result : p'.result = p.result
  outer : p'.scope.outer = p.scope.outer
  symbols : p.scope.symbols <+: p'.scope.symbols
  serial : p.serial ≤ p'.serial

namespace Later

theorem refl (p : Place) : Later p p := ⟨rfl, rfl, rfl, List.prefix_refl _, Nat.le_refl _⟩

theorem trans {p q r : Place} (h : Later p q) (h' : Later q r) : Later p r :=
  ⟨h'.function.trans h.function, h'.result.trans h.result, h'.outer.trans h.outer,
    h.symbols.trans h'.symbols, Nat.le_trans h.serial h'.serial⟩

theorem extend (p : Place) (x : Symbol) : Later p (p.extend x) :=
  ⟨rfl, rfl, rfl, List.prefix_append _ _, Nat.le_succ _⟩

theorem leave {p inside : Place} (h : Later p.inner inside) : Later p (p.leave inside) :=
  ⟨rfl, rfl, rfl, List.prefix_refl _, h.serial⟩

end Later

end Place

mutual

theorem StmtChecked.later {p p' : Place} {s : Stmt Unit} {s' : Stmt Note} :
    StmtChecked p s s' p' → p.Later p'
  | .declare _ => .extend p _
  | .declareWith _ _ _ => .extend p _
  | .assign _ _ _ _ => .refl p
  | .input _ _ => .refl p
  | .print _ => .refl p
  | .evaluate _ => .refl p
  | .ret _ _ => .refl p
  | .ifThen _ hb => hb.later.leave
  | .ifElse _ hb he => hb.later.leave.trans he.later.leave
  | .whileDo _ hb => hb.later.leave
  | .forDo hi _ hb hs => ((hi.later.trans hb.later).trans hs.later).leave
  | .block hb => hb.later.leave

theorem ClauseChecked.later {p p' : Place} {o : Option (Stmt Unit)} {o' : Option (Stmt Note)} :
    ClauseChecked p o o' p' → p.Later p'
  | .none => .refl p
  | .some hs => hs.later

theorem StmtsChecked.later {p p' : Place} {ss : List (Stmt Unit)} {ss' : List (Stmt Note)} :
    StmtsChecked p ss ss' p' → p.Later p'
  | .nil => .refl p
  | .cons hs hr => hs.later.trans hr.later

end

theorem Place.lookup?_extend {p : Place} {x : Symbol} {name : Text} :
    (p.extend x).scope.lookup? name = none ↔ p.scope.lookup? name = none ∧ x.name ≠ name := by
  simp [Place.extend, Scope.lookup?, Scope.find?, List.find?_append]

theorem addFunction_eq_ok {scope next : Scope} {f : Func Unit} :
    addFunction scope f = .ok next ↔ scope.lookup? f.name = none ∧
      (f.name = entryName → f.params = [] ∧ f.result = .int) ∧
      next = { scope with symbols := scope.symbols ++ [signature f] } := by
  unfold addFunction Scope.declares
  cases hl : scope.lookup? f.name with
  | some x => simp [violation]
  | none =>
    rw [Option.isSome_none, if_neg Bool.false_ne_true]
    split
    · next hm =>
      constructor
      · intro h
        cases h
      · rintro ⟨-, h, -⟩
        obtain ⟨hp, hr⟩ := h hm.1
        rcases hm.2 with hp' | hr'
        · exact absurd hp hp'
        · exact absurd hr hr'
    · next hm =>
      rw [Except.ok.injEq, eq_comm]
      constructor
      · intro h
        refine ⟨rfl, fun hn => ?_, h⟩
        by_contra hc
        exact hm ⟨hn, not_and_or.mp hc⟩
      · rintro ⟨-, -, h⟩
        exact h

theorem foldlM_addFunction {fs : List (Func Unit)} {scope global : Scope} :
    fs.foldlM addFunction scope = .ok global ↔
      (∀ f ∈ fs, scope.lookup? f.name = none) ∧ (fs.map Func.name).Nodup ∧
        (∀ f ∈ fs, f.name = entryName → f.params = [] ∧ f.result = .int) ∧
        global = { scope with symbols := scope.symbols ++ fs.map signature } := by
  induction fs generalizing scope with
  | nil =>
    rw [List.foldlM_nil, pure_eq_ok, eq_comm]
    simp
  | cons f fs ih =>
    have hlookup (name : Text) :
        ({ scope with symbols := scope.symbols ++ [signature f] } : Scope).lookup? name = none ↔
          scope.lookup? name = none ∧ f.name ≠ name := by
      simp [Scope.lookup?, Scope.find?, List.find?_append, signature]
    rw [List.foldlM_cons, bind_eq_ok]
    simp only [addFunction_eq_ok, ih, List.forall_mem_cons, List.map_cons, List.nodup_cons]
    constructor
    · rintro ⟨next, ⟨hf, hm, rfl⟩, hfs, hn, hms, rfl⟩
      refine ⟨⟨hf, fun g hg => ((hlookup _).mp (hfs g hg)).1⟩, ⟨?_, hn⟩, ⟨hm, hms⟩, by simp⟩
      intro hmem
      obtain ⟨g, hg, he⟩ := List.mem_map.mp hmem
      exact ((hlookup _).mp (hfs g hg)).2 he.symm
    · rintro ⟨⟨hf, hfs⟩, ⟨hne, hn⟩, ⟨hm, hms⟩, rfl⟩
      refine ⟨_, ⟨hf, hm, rfl⟩, ?_, hn, hms, by simp⟩
      intro g hg
      refine (hlookup _).mpr ⟨hfs g hg, ?_⟩
      intro he
      exact hne (he ▸ List.mem_map_of_mem hg)

end MiniSharp.Typing

namespace MiniSharp

theorem Program.analyze_eq_ok {x : Program Unit} {a : Analysis} :
    x.analyze = .ok a ↔ (x.functions.map Func.name).Nodup ∧
      (∀ f ∈ x.functions, f.name = Typing.entryName → f.params = [] ∧ f.result = .int) ∧
      a.global = ⟨x.functions.map Typing.signature, []⟩ ∧ a.program.token = x.token ∧
      List.Forall₂ (Typing.FuncChecked a.global) x.functions a.program.functions := by
  simp only [Program.analyze, bind_eq_ok, pure_eq_ok, Typing.foldlM_addFunction, mapM_eq_ok,
    Typing.function_checked]
  constructor
  · rintro ⟨global, ⟨-, hn, hm, rfl⟩, functions, hf, rfl⟩
    exact ⟨hn, hm, rfl, rfl, hf⟩
  · rintro ⟨hn, hm, hg, ht, hf⟩
    obtain ⟨global, token, functions⟩ := a
    exact ⟨global, ⟨fun _ _ => rfl, hn, hm, hg⟩, functions, hf, by rw [← ht]⟩

theorem check_eq_ok {source : Text} {a : Analysis} :
    check source = .ok a ↔ ∃ x, parse source = .ok x ∧ x.analyze = .ok a := by
  unfold check
  cases parse source <;> simp [Except.mapError]

theorem toCSharp_of_lower {x : Program Note} {methods : List Target.Method}
    (h : x.lower = .ok methods) : x.toCSharp = .ok (Target.renderFile methods) := by
  rw [Program.toCSharp, h]
  rfl

theorem compile_of_check {source text : Text} {a : Analysis} (hc : check source = .ok a)
    (ht : a.program.toCSharp = .ok text) : compile source = .ok text := by
  rw [compile, hc, ok_bind, ht]
  rfl

theorem compile_of_parse_error {source : Text} {e : ParseError} (h : parse source = .error e) :
    compile source = .error (.parse e) := by
  rw [compile, check, h]
  rfl

theorem compile_of_analyze_error {source : Text} {x : Program Unit} {s : Stop}
    (hx : parse source = .ok x) (hs : x.analyze = .error s) : compile source = .error s := by
  rw [compile, check, hx, Except.mapError, ok_bind, hs]
  rfl

end MiniSharp
