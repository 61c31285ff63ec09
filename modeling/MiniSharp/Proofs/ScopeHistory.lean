import Mathlib.Data.List.Induction
import Mathlib.Data.List.Nodup
import MiniSharp.Scope.Basic

namespace MiniSharp.Scope

inductive Step
  | push
  | pop
  | define (x : Symbol)

/-- The current scope after a step. The global scope is not left, and a refused symbol changes
nothing. -/
def step (s : Scope) : Step → Scope
  | .push => s.push
  | .pop => s.pop?.getD s
  | .define x => (s.define? x).getD s

def run (steps : List Step) : Scope := steps.foldl step global

def up? (s : Scope) : Nat → Option Scope
  | 0 => some s
  | n + 1 => s.pop?.bind fun t => t.up? n

def enter (time : Nat) (ids : List Nat) : Step → List Nat
  | .push => (time + 1) :: ids
  | .pop => if ids.tail = [] then ids else ids.tail
  | .define _ => ids

def path (steps : List Step) : List Nat :=
  steps.zipIdx.foldl (fun ids entry => enter entry.2 ids entry.1) [0]

example : path [.push, .push, .pop, .push] = [4, 1, 0] := rfl

def declared? (before : List Step) (id : Nat) : Step → Option Symbol
  | .push => none
  | .pop => none
  | .define x =>
    if (path before).head? = some id ∧ ((run before).define? x).isSome then some x else none

def declared (steps : List Step) (id : Nat) : List Symbol :=
  steps.zipIdx.filterMap fun entry => declared? (steps.take entry.2) id entry.1

theorem run_concat (steps : List Step) (a : Step) : run (steps ++ [a]) = (run steps).step a :=
  List.foldl_concat ..

theorem path_concat (steps : List Step) (a : Step) :
    path (steps ++ [a]) = enter steps.length (path steps) a := by
  simp [path, List.zipIdx_append]

theorem declared_concat (steps : List Step) (a : Step) (id : Nat) :
    declared (steps ++ [a]) id = declared steps id ++ (declared? steps id a).toList := by
  rw [declared, List.zipIdx_append, List.filterMap_append]
  congr 1
  · apply List.filterMap_congr
    rintro ⟨b, time⟩ h
    have htime : time < steps.length := by simpa using List.snd_lt_of_mem_zipIdx h
    rw [List.take_append_of_le_length (Nat.le_of_lt htime)]
  · cases h : declared? steps id a <;> simp [h]

theorem le_of_mem_path {steps : List Step} {id : Nat} (h : id ∈ path steps) : id ≤ steps.length := by
  induction steps using List.reverseRecOn with
  | nil => simpa [path] using h
  | append_singleton steps a ih =>
    rw [path_concat] at h
    rw [List.length_append, List.length_singleton]
    cases a with
    | push =>
      rcases List.mem_cons.mp h with rfl | h
      · exact Nat.le_refl _
      · exact Nat.le_succ_of_le (ih h)
    | pop =>
      have : id ∈ path steps := by
        rw [enter] at h
        split at h
        · exact h
        · exact List.mem_of_mem_tail h
      exact Nat.le_succ_of_le (ih this)
    | define x => exact Nat.le_succ_of_le (ih h)

theorem nodup_path (steps : List Step) : (path steps).Nodup := by
  induction steps using List.reverseRecOn with
  | nil => simp [path]
  | append_singleton steps a ih =>
    rw [path_concat]
    cases a with
    | push =>
      refine List.nodup_cons.mpr ⟨fun h => ?_, ih⟩
      exact absurd (le_of_mem_path h) (Nat.not_succ_le_self _)
    | pop =>
      rw [enter]
      split
      · exact ih
      · exact ih.tail
    | define x => exact ih

theorem declared_eq_nil {steps : List Step} {id : Nat} (h : steps.length < id) :
    declared steps id = [] := by
  rw [declared, List.filterMap_eq_nil_iff]
  rintro ⟨a, time⟩ hmem
  cases a with
  | push => rfl
  | pop => rfl
  | define x =>
    refine if_neg fun hx => ?_
    have := le_of_mem_path (List.mem_of_head? hx.1)
    rw [List.length_take] at this
    omega

theorem define?_eq_none {s : Scope} {x : Symbol} :
    s.define? x = none ↔ ∃ y ∈ s.symbols, y.name = x.name := by
  simp [define?, declares, lookup?, find?]

theorem define?_eq_some {s t : Scope} {x : Symbol} : s.define? x = some t ↔
    (∀ y ∈ s.symbols, y.name ≠ x.name) ∧ { s with symbols := s.symbols ++ [x] } = t := by
  simp [define?, declares, lookup?, find?]

def chain (s : Scope) : List (List Symbol) := s.symbols :: s.outer

theorem chain_push (s : Scope) : (s.step .push).chain = [] :: s.chain := rfl

theorem chain_pop (s : Scope) :
    (s.step .pop).chain = if s.outer = [] then s.chain else s.outer := by
  obtain ⟨symbols, outer⟩ := s
  cases outer <;> rfl

theorem step_refused {s : Scope} {x : Symbol} (h : s.define? x = none) : s.step (.define x) = s := by
  rw [step, h]
  rfl

theorem chain_define {s : Scope} {x : Symbol} (h : s.define? x ≠ none) :
    (s.step (.define x)).chain = (s.symbols ++ [x]) :: s.outer := by
  obtain ⟨t, ht⟩ := Option.ne_none_iff_exists'.mp h
  obtain ⟨-, rfl⟩ := define?_eq_some.mp ht
  rw [step, ht]
  rfl

theorem declared_of_none {steps : List Step} {a : Step} (h : ∀ id, declared? steps id a = none) :
    declared (steps ++ [a]) = declared steps := by
  funext id
  rw [declared_concat, h, Option.toList_none, List.append_nil]

theorem map_declared_define {steps : List Step} {x : Symbol} {id : Nat} {ids : List Nat}
    (hpath : path steps = id :: ids) (h : (run steps).define? x ≠ none) :
    (path steps).map (declared (steps ++ [.define x])) =
      (declared steps id ++ [x]) :: ids.map (declared steps) := by
  have hnew := (List.nodup_cons.mp (hpath ▸ nodup_path steps)).1
  have hsome : ((run steps).define? x).isSome := Option.isSome_iff_ne_none.mpr h
  rw [hpath, List.map_cons]
  congr 1
  · rw [declared_concat, declared?, if_pos ⟨by rw [hpath]; rfl, hsome⟩, Option.toList_some]
  · apply List.map_congr_left
    intro other hmem
    have hne : id ≠ other := fun h => hnew (h ▸ hmem)
    rw [declared_concat, declared?, if_neg (by simp [hpath, hne]), Option.toList_none,
      List.append_nil]

theorem chain_run (steps : List Step) : (run steps).chain = (path steps).map (declared steps) := by
  induction steps using List.reverseRecOn with
  | nil => rfl
  | append_singleton steps a ih =>
    rw [run_concat, path_concat]
    obtain ⟨id, ids, hpath⟩ : ∃ id ids, path steps = id :: ids := by
      cases h : path steps with
      | nil => simp [h, chain] at ih
      | cons id ids => exact ⟨id, ids, rfl⟩
    obtain ⟨hsymbols, houter⟩ := List.cons.inj (hpath ▸ ih)
    cases a with
    | push =>
      rw [declared_of_none fun _ => rfl, enter, List.map_cons, ← ih, chain_push,
        declared_eq_nil (Nat.lt_succ_self _)]
    | pop =>
      rw [declared_of_none fun _ => rfl, enter, chain_pop, apply_ite (List.map _), ← ih, hpath,
        List.tail_cons, houter]
      simp only [List.map_eq_nil_iff]
    | define x =>
      by_cases hdefine : (run steps).define? x = none
      · have hnone (id : Nat) : declared? steps id (.define x) = none :=
          if_neg (by simp [hdefine])
        rw [declared_of_none hnone, step_refused hdefine, ih, enter]
      · rw [chain_define hdefine, enter, map_declared_define hpath hdefine, hsymbols, houter]

theorem nodup_names (steps : List Step) :
    ∀ symbols ∈ (run steps).chain, (symbols.map (·.name)).Nodup := by
  induction steps using List.reverseRecOn with
  | nil => simp [run, global, chain]
  | append_singleton steps a ih =>
    rw [run_concat]
    obtain ⟨hsymbols, houter⟩ := List.forall_mem_cons.mp ih
    cases a with
    | push => exact List.forall_mem_cons.mpr ⟨List.nodup_nil, ih⟩
    | pop =>
      rw [chain_pop]
      split
      · exact ih
      · exact houter
    | define x =>
      by_cases hdefine : (run steps).define? x = none
      · rw [step_refused hdefine]
        exact ih
      · rw [chain_define hdefine, List.forall_mem_cons, List.map_append, List.nodup_append]
        rw [define?_eq_none] at hdefine
        push Not at hdefine
        exact ⟨⟨hsymbols, by simp, by simpa using hdefine⟩, houter⟩

theorem up?_eq_some {s t : Scope} {n : Nat} :
    s.up? n = some t ↔ s.chain.drop n = t.chain := by
  induction n generalizing s with
  | zero =>
    obtain ⟨symbols, outer⟩ := s
    obtain ⟨symbols', outer'⟩ := t
    simp [up?, chain]
  | succ n ih =>
    obtain ⟨symbols, outer⟩ := s
    cases outer with
    | nil => simp [up?, pop?, chain]
    | cons frame outer => exact ih

theorem lookup?_eq_some {s : Scope} (h : (s.symbols.map (·.name)).Nodup) {name : Text} {x : Symbol} :
    s.lookup? name = some x ↔ x ∈ s.symbols ∧ x.name = name := by
  constructor
  · intro hx
    exact ⟨List.mem_of_find?_eq_some hx, by simpa using List.find?_some hx⟩
  · rintro ⟨hx, rfl⟩
    cases hfound : s.lookup? x.name with
    | none => simpa using List.find?_eq_none.mp hfound x hx
    | some y =>
      have hy : y.name = x.name := by simpa using List.find?_some hfound
      rw [List.inj_on_of_nodup_map h (List.mem_of_find?_eq_some hfound) hx hy]

theorem getElem?_chain {s : Scope} {n : Nat} {symbols : List Symbol} :
    s.chain[n]? = some symbols ↔ ∃ t, s.up? n = some t ∧ t.symbols = symbols := by
  rw [← List.head?_drop, List.head?_eq_some_iff]
  constructor
  · rintro ⟨outer, h⟩
    exact ⟨⟨symbols, outer⟩, up?_eq_some.mpr h, rfl⟩
  · rintro ⟨t, ht, rfl⟩
    exact ⟨t.outer, up?_eq_some.mp ht⟩

def Nearest (s : Scope) (name : Text) (x : Symbol) : Prop :=
  ∃ n t, s.up? n = some t ∧ t.lookup? name = some x ∧
    ∀ m < n, ∀ u, s.up? m = some u → u.lookup? name = none

theorem resolve?_eq_some {s : Scope} {name : Text} {x : Symbol} :
    s.resolve? name = some x ↔ s.Nearest name x := by
  change s.chain.findSome? (find? name) = some x ↔ _
  rw [List.findSome?_eq_some_iff]
  constructor
  · rintro ⟨inner, symbols, outer, hchain, hx, hinner⟩
    refine ⟨inner.length, ⟨symbols, outer⟩, up?_eq_some.mpr ?_, hx, ?_⟩
    · rw [hchain, List.drop_left]
      rfl
    · intro m hm u hu
      have hsymbols : s.chain[m]? = some u.symbols := getElem?_chain.mpr ⟨u, hu, rfl⟩
      rw [hchain, List.getElem?_append_left hm] at hsymbols
      exact hinner u.symbols (List.mem_of_getElem? hsymbols)
  · rintro ⟨n, t, ht, hx, hinner⟩
    refine ⟨s.chain.take n, t.symbols, t.outer, ?_, hx, ?_⟩
    · rw [show t.symbols :: t.outer = t.chain from rfl, ← up?_eq_some.mp ht, List.take_append_drop]
    · intro symbols hmem
      obtain ⟨m, hm⟩ := List.mem_iff_getElem?.mp hmem
      rw [List.getElem?_take, Option.ite_none_right_eq_some] at hm
      obtain ⟨u, hu, rfl⟩ := getElem?_chain.mp hm.2
      exact hinner m hm.1 u hu

theorem resolve?_eq_none {s : Scope} {name : Text} :
    s.resolve? name = none ↔ ∀ n t, s.up? n = some t → t.lookup? name = none := by
  change s.chain.findSome? (find? name) = none ↔ _
  rw [List.findSome?_eq_none_iff]
  constructor
  · intro h n t ht
    exact h t.symbols (List.mem_of_getElem? (getElem?_chain.mpr ⟨t, ht, rfl⟩))
  · intro h symbols hmem
    obtain ⟨n, hn⟩ := List.mem_iff_getElem?.mp hmem
    obtain ⟨t, ht, rfl⟩ := getElem?_chain.mp hn
    exact h n t ht

theorem declared_append {steps inner : List Step} {id : Nat}
    (h : ∀ k x, inner[k]? = some (.define x) → id ∈ (path (steps ++ inner.take k)).tail) :
    declared (steps ++ inner) id = declared steps id := by
  induction inner using List.reverseRecOn with
  | nil => rw [List.append_nil]
  | append_singleton inner a ih =>
    have hinner : declared (steps ++ inner) id = declared steps id := by
      refine ih fun k x hk => ?_
      have hlt : k < inner.length := (List.getElem?_eq_some_iff.mp hk).1
      have := h k x (by rw [List.getElem?_append_left hlt, hk])
      rwa [List.take_append_of_le_length (Nat.le_of_lt hlt)] at this
    have hlast : declared? (steps ++ inner) id a = none := by
      cases a with
      | push => rfl
      | pop => rfl
      | define x =>
        have htail := h inner.length x (by simp)
        rw [List.take_left] at htail
        -- The path has a scope once, so one that is further out is not the current one.
        refine if_neg fun hx => ?_
        obtain ⟨ids, hpath⟩ := List.head?_eq_some_iff.mp hx.1
        rw [hpath, List.tail_cons] at htail
        exact (List.nodup_cons.mp (hpath ▸ nodup_path (steps ++ inner))).1 htail
    rw [← List.append_assoc, declared_concat, hlast, Option.toList_none, List.append_nil, hinner]

theorem symbols_up? {steps : List Step} {n : Nat} {t : Scope} (h : (run steps).up? n = some t) :
    (t.symbols.map (·.name)).Nodup ∧
      ∃ id, (path steps)[n]? = some id ∧ t.symbols = declared steps id := by
  have hsymbols : (run steps).chain[n]? = some t.symbols := getElem?_chain.mpr ⟨t, h, rfl⟩
  refine ⟨nodup_names steps _ (List.mem_of_getElem? hsymbols), ?_⟩
  rw [chain_run, List.getElem?_map, Option.map_eq_some_iff] at hsymbols
  obtain ⟨id, hid, hdeclared⟩ := hsymbols
  exact ⟨id, hid, hdeclared.symm⟩

end MiniSharp.Scope
