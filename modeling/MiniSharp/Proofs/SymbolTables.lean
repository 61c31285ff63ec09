import MiniSharp.Proofs.ScopeHistory
import MiniSharp.Scope.Table

/-!
The tables of scopes over a run of steps. The symbols by name and those in order stay in step, so that a
scope is an ordered map, and the tables refine the scopes that have the order alone.
-/

namespace MiniSharp.Scope

def Table.Coherent (t : Table) : Prop := ∀ name, t.lookup? name = find? name t.order

theorem Table.coherent_empty : Table.empty.Coherent := fun _ => rfl

theorem Table.define?_eq_some {t t' : Table} {x : Symbol} : t.define? x = some t' ↔
    t.lookup? x.name = none ∧ ⟨(x.name, x) :: t.byName, t.order ++ [x]⟩ = t' := by
  simp [define?]

theorem Table.Coherent.define? {t t' : Table} {x : Symbol} (h : t.Coherent)
    (hx : t.define? x = some t') : t'.Coherent := by
  obtain ⟨hnew, rfl⟩ := Table.define?_eq_some.mp hx
  intro name
  rw [find?, List.find?_append]
  by_cases hname : name = x.name
  · subst hname
    have hfind : find? x.name t.order = none := (h x.name).symm.trans hnew
    rw [find?] at hfind
    rw [hfind, lookup?, List.lookup_cons_self]
    simp
  · have hlookup : List.lookup name ((x.name, x) :: t.byName) = t.lookup? name := by
      rw [List.lookup_cons, beq_false_of_ne hname]
      rfl
    have hlast : [x].find? (fun y => y.name == name) = none := by simpa using Ne.symm hname
    rw [lookup?, hlookup, hlast, Option.or_none, h name]
    rfl

namespace Tables

def step (s : Tables) : Step → Tables
  | .push => s.push
  | .pop => s.pop?.getD s
  | .define x => (s.define? x).getD s

def run (steps : List Step) : Tables := steps.foldl step global

def up? (s : Tables) : Nat → Option Tables
  | 0 => some s
  | n + 1 => s.pop?.bind fun t => t.up? n

theorem run_concat (steps : List Step) (a : Step) : run (steps ++ [a]) = (run steps).step a :=
  List.foldl_concat ..

def Coherent (s : Tables) : Prop := ∀ t ∈ s.current :: s.parents, t.Coherent

namespace Coherent

variable {s t : Tables}

theorem push (h : s.Coherent) : s.push.Coherent :=
  List.forall_mem_cons.mpr ⟨Table.coherent_empty, h⟩

theorem pop? (h : s.Coherent) (ht : s.pop? = some t) : t.Coherent := by
  obtain ⟨current, parents⟩ := s
  cases parents with
  | nil => cases ht
  | cons parent parents =>
    cases ht
    exact (List.forall_mem_cons.mp h).2

theorem define? {x : Symbol} (h : s.Coherent) (ht : s.define? x = some t) : t.Coherent := by
  obtain ⟨table, htable, rfl⟩ := Option.map_eq_some_iff.mp ht
  obtain ⟨hcurrent, hparents⟩ := List.forall_mem_cons.mp h
  exact List.forall_mem_cons.mpr ⟨hcurrent.define? htable, hparents⟩

theorem step (h : s.Coherent) (a : Step) : (s.step a).Coherent := by
  cases a with
  | push => exact h.push
  | pop =>
    cases ht : s.pop? with
    | none => simpa [Tables.step, ht] using h
    | some t => simpa [Tables.step, ht] using h.pop? ht
  | define x =>
    cases ht : s.define? x with
    | none => simpa [Tables.step, ht] using h
    | some t => simpa [Tables.step, ht] using h.define? ht

theorem up? {n : Nat} (h : s.Coherent) (ht : s.up? n = some t) : t.Coherent := by
  induction n generalizing s with
  | zero =>
    cases ht
    exact h
  | succ n ih =>
    obtain ⟨parent, hparent, ht⟩ := Option.bind_eq_some_iff.mp ht
    exact ih (h.pop? hparent) ht

end Coherent

theorem coherent_run (steps : List Step) : (run steps).Coherent := by
  induction steps using List.reverseRecOn with
  | nil => exact List.forall_mem_singleton.mpr Table.coherent_empty
  | append_singleton steps a ih =>
    rw [run_concat]
    exact ih.step a

theorem pop?_scope (s : Tables) : s.scope.pop? = s.pop?.map scope := by
  obtain ⟨current, parents⟩ := s
  cases parents <;> rfl

theorem up?_scope (s : Tables) (n : Nat) : s.scope.up? n = (s.up? n).map scope := by
  induction n generalizing s with
  | zero => rfl
  | succ n ih =>
    rw [Scope.up?, pop?_scope, up?]
    cases s.pop? with
    | none => rfl
    | some parent => exact ih parent

namespace Coherent

variable {s : Tables}

theorem lookup?_scope (h : s.Coherent) (name : Text) : s.scope.lookup? name = s.lookup? name :=
  (List.forall_mem_cons.mp h).1 name |>.symm

theorem define?_scope (h : s.Coherent) (x : Symbol) :
    s.scope.define? x = (s.define? x).map scope := by
  have hlookup : s.current.lookup? x.name = s.scope.lookup? x.name := (h.lookup?_scope x.name).symm
  rw [Scope.define?, declares, Tables.define?, Table.define?, hlookup]
  split <;> rfl

theorem resolve?_scope (h : s.Coherent) (name : Text) :
    s.scope.resolve? name = s.resolve? name := by
  have hall (tables : List Table) (htables : ∀ t ∈ tables, t.Coherent) :
      (tables.map Table.order).findSome? (find? name) = resolveIn name tables := by
    induction tables with
    | nil => rfl
    | cons t tables ih =>
      obtain ⟨ht, htables⟩ := List.forall_mem_cons.mp htables
      rw [List.map_cons, List.findSome?_cons, ← ht name, resolveIn, ih htables]
      cases t.lookup? name <;> rfl
  exact hall (s.current :: s.parents) h

theorem scope_step (h : s.Coherent) (a : Step) : (s.step a).scope = s.scope.step a := by
  cases a with
  | push => rfl
  | pop =>
    rw [Scope.step, pop?_scope, Tables.step]
    cases s.pop? <;> rfl
  | define x =>
    rw [Scope.step, h.define?_scope, Tables.step]
    cases s.define? x <;> rfl

end Coherent

theorem scope_run (steps : List Step) : (run steps).scope = Scope.run steps := by
  induction steps using List.reverseRecOn with
  | nil => rfl
  | append_singleton steps a ih =>
    rw [run_concat, (coherent_run steps).scope_step, ih, Scope.run_concat]

def declared? (before : List Step) (id : Nat) : Step → Option Symbol
  | .push => none
  | .pop => none
  | .define x =>
    if (path before).head? = some id ∧ ((run before).define? x).isSome then some x else none

def declared (steps : List Step) (id : Nat) : List Symbol :=
  steps.zipIdx.filterMap fun entry => declared? (steps.take entry.2) id entry.1

theorem declared_eq (steps : List Step) (id : Nat) : declared steps id = Scope.declared steps id := by
  have hstep (before : List Step) (a : Step) : declared? before id a = Scope.declared? before id a := by
    cases a with
    | push => rfl
    | pop => rfl
    | define x =>
      rw [declared?, Scope.declared?, ← scope_run, (coherent_run before).define?_scope,
        Option.isSome_map]
  rw [declared, Scope.declared]
  simp only [hstep]

/-- The scope is an ordered map with these entries: it lists them in order, a name has at most one of
them, and looking the name up gives that one. -/
structure Holds (s : Tables) (entries : List Symbol) : Prop where
  symbols : s.symbols = entries
  distinct : (entries.map (·.name)).Nodup
  lookup : ∀ name x, s.lookup? name = some x ↔ x ∈ entries ∧ x.name = name

theorem exists_holds {steps : List Step} {n : Nat} {t : Tables} (h : (run steps).up? n = some t) :
    ∃ id, (path steps)[n]? = some id ∧ t.Holds (declared steps id) := by
  have hscope : (Scope.run steps).up? n = some t.scope := by
    rw [← scope_run, up?_scope, h]
    rfl
  obtain ⟨hdistinct, id, hid, hsymbols⟩ := symbols_up? hscope
  have hlookup (name : Text) (x : Symbol) :
      t.lookup? name = some x ↔ x ∈ t.symbols ∧ x.name = name := by
    rw [← ((coherent_run steps).up? h).lookup?_scope, lookup?_eq_some hdistinct]
    rfl
  have hentries : t.symbols = declared steps id := hsymbols.trans (declared_eq steps id).symm
  exact ⟨id, hid, hentries, hentries ▸ hdistinct, hentries ▸ hlookup⟩

theorem Holds.lookup?_eq {s t : Tables} {entries : List Symbol} (hs : s.Holds entries)
    (ht : t.Holds entries) (name : Text) : s.lookup? name = t.lookup? name :=
  Option.ext fun x => (hs.lookup name x).trans (ht.lookup name x).symm

def Nearest (s : Tables) (name : Text) (x : Symbol) : Prop :=
  ∃ n t, s.up? n = some t ∧ t.lookup? name = some x ∧
    ∀ m < n, ∀ u, s.up? m = some u → u.lookup? name = none

theorem Coherent.lacks_scope {s : Tables} (h : s.Coherent) {n : Nat} {name : Text} :
    (∀ t, s.scope.up? n = some t → t.lookup? name = none) ↔
      ∀ t, s.up? n = some t → t.lookup? name = none := by
  rw [up?_scope]
  constructor
  · intro hall t ht
    rw [← (h.up? ht).lookup?_scope]
    exact hall t.scope (by rw [ht]; rfl)
  · intro hall t ht
    obtain ⟨u, hu, rfl⟩ := Option.map_eq_some_iff.mp ht
    rw [(h.up? hu).lookup?_scope]
    exact hall u hu

theorem Coherent.nearest_scope {s : Tables} (h : s.Coherent) {name : Text} {x : Symbol} :
    s.scope.Nearest name x ↔ s.Nearest name x := by
  constructor
  · rintro ⟨n, t, ht, hx, hinner⟩
    rw [up?_scope] at ht
    obtain ⟨u, hu, rfl⟩ := Option.map_eq_some_iff.mp ht
    rw [(h.up? hu).lookup?_scope] at hx
    exact ⟨n, u, hu, hx, fun m hm => h.lacks_scope.mp (hinner m hm)⟩
  · rintro ⟨n, t, ht, hx, hinner⟩
    refine ⟨n, t.scope, by rw [up?_scope, ht]; rfl, ?_, fun m hm => h.lacks_scope.mpr (hinner m hm)⟩
    rw [(h.up? ht).lookup?_scope, hx]

theorem step_refused {s : Tables} {x : Symbol} (h : s.define? x = none) : s.step (.define x) = s := by
  rw [step, h]
  rfl

theorem define?_eq_none {s : Tables} (h : s.Coherent) {x : Symbol} :
    s.define? x = none ↔ ∃ y ∈ s.symbols, y.name = x.name := by
  rw [← Option.map_eq_none_iff (f := scope), ← h.define?_scope, Scope.define?_eq_none]
  rfl

/-- Over every run of steps the tables hold what the scopes hold that have the order alone, and in each
of them the symbols by name and in order stay in step. The current scope and those around it are ordered
maps of what was declared in each of them with success, and nothing that is declared further in changes
them. A symbol is refused exactly if the current scope has its name, and then nothing changes; a name
means the symbol of the nearest scope that has it. -/
theorem scopes_refine_ordered_maps (steps : List Step) :
    (run steps).scope = Scope.run steps ∧
    (∀ n t, (run steps).up? n = some t → t.current.Coherent ∧ ∃ id, (path steps)[n]? = some id ∧
      t.Holds (declared steps id) ∧
      ∀ inner, (∀ k x, inner[k]? = some (.define x) → id ∈ (path (steps ++ inner.take k)).tail) →
        ∀ m u, (run (steps ++ inner)).up? m = some u → (path (steps ++ inner))[m]? = some id →
          u.symbols = t.symbols ∧ ∀ name, u.lookup? name = t.lookup? name) ∧
    (∀ x, ((run steps).define? x = none ↔ ∃ y ∈ (run steps).symbols, y.name = x.name) ∧
      ((run steps).define? x = none → run (steps ++ [.define x]) = run steps)) ∧
    ∀ name, (∀ x, (run steps).resolve? name = some x ↔ (run steps).Nearest name x) ∧
      ((run steps).resolve? name = none ↔
        ∀ n t, (run steps).up? n = some t → t.lookup? name = none) := by
  have hcoherent := coherent_run steps
  refine ⟨scope_run steps, fun n t ht => ⟨?_, ?_⟩, fun x => ⟨define?_eq_none hcoherent, fun hx => ?_⟩,
    fun name => ⟨fun x => ?_, ?_⟩⟩
  · exact (List.forall_mem_cons.mp (hcoherent.up? ht)).1
  · obtain ⟨id, hid, hholds⟩ := exists_holds ht
    refine ⟨id, hid, hholds, fun inner hinner m u hu hm => ?_⟩
    obtain ⟨id', hid', hholds'⟩ := exists_holds hu
    obtain rfl : id' = id := Option.some.inj (hid'.symm.trans hm)
    rw [declared_eq, declared_append hinner, ← declared_eq] at hholds'
    exact ⟨hholds'.symbols.trans hholds.symbols.symm, hholds'.lookup?_eq hholds⟩
  · rw [run_concat, step_refused hx]
  · rw [← hcoherent.resolve?_scope, resolve?_eq_some, hcoherent.nearest_scope]
  · rw [← hcoherent.resolve?_scope, resolve?_eq_none]
    exact forall_congr' fun n => hcoherent.lacks_scope

end Tables

end MiniSharp.Scope
