import MiniSharp.Shell.MenuState

namespace MiniSharp.Menu.State

variable {Window : Type} {terminal : Terminal Window}

def after (terminal : Terminal Window) (m : State Window) (events : List Event) : State Window :=
  events.foldl (fun m e => (m.update terminal e).1) m

theorem after_cons (m : State Window) (e : Event) (events : List Event) :
    m.after terminal (e :: events) = (m.update terminal e).1.after terminal events := rfl

theorem after_append (m : State Window) (events more : List Event) :
    m.after terminal (events ++ more) = (m.after terminal events).after terminal more :=
  List.foldl_append ..

def Selects (m : State Window) (s : Source) (c : Choice) : Prop :=
  atIndex? m.sources m.source = some s ∧ atIndex? m.phases m.choice = some c

def size (m : State Window) : Pane → Nat
  | .sources => m.sources.length
  | .choices => m.phases.length

def index (m : State Window) : Pane → Int
  | .sources => m.source
  | .choices => m.choice

def withIndex (m : State Window) (pane : Pane) (i : Int) : State Window :=
  match pane with
  | .sources => { m with source := i }
  | .choices => { m with choice := i }

def InRange (m : State Window) (pane : Pane) (i : Int) : Prop := 0 ≤ i ∧ i < m.size pane

theorem move_eq (m : State Window) (delta : Int) :
    m.move delta = m.withIndex m.focus (clamp (m.index m.focus + delta) (m.size m.focus)) := by
  unfold move withIndex index size
  cases m.focus <;> rfl

theorem clamp_inRange {m : State Window} {pane : Pane} (h : 0 < m.size pane) (i : Int) :
    m.InRange pane (clamp i (m.size pane)) := by
  unfold InRange clamp
  omega

theorem clamp_eq {m : State Window} {pane : Pane} {i : Int} (h : m.InRange pane i) :
    clamp i (m.size pane) = i := by
  unfold InRange at h
  unfold clamp
  omega

theorem exists_atIndex {α : Type} {entries : List α} {i : Int} (h : 0 ≤ i ∧ i < entries.length) :
    ∃ x, atIndex? entries i = some x := by
  have hi : i.toNat < entries.length := by omega
  exact ⟨entries[i.toNat], by rw [atIndex?, if_pos h.1, List.getElem?_eq_getElem hi]⟩

theorem mem_of_atIndex {α : Type} {entries : List α} {i : Int} {x : α}
    (h : atIndex? entries i = some x) : x ∈ entries := by
  rw [atIndex?, Option.ite_none_right_eq_some] at h
  exact List.mem_of_getElem? h.2

theorem exists_index {α : Type} {entries : List α} {x : α} (h : x ∈ entries) :
    ∃ i : Int, (0 ≤ i ∧ i < entries.length) ∧ atIndex? entries i = some x := by
  obtain ⟨i, hi, rfl⟩ := List.mem_iff_getElem.mp h
  refine ⟨i, by omega, ?_⟩
  rw [atIndex?, if_pos (by omega), Int.toNat_natCast, List.getElem?_eq_getElem hi]

inductive Step (terminal : Terminal Window) (m : State Window) : State Window → Prop
  | idle : Step terminal m m
  | leave : Step terminal m { m with quitting := true }
  | turn (pane : Pane) : Step terminal m { m with focus := pane }
  | move (pane : Pane) (i : Int) : Step terminal m (m.withIndex pane (clamp i (m.size pane)))
  | run {s : Source} : m.Selects s .run → Step terminal m { m with run := some s, quitting := true }
  | print {s : Source} {p : Phase} (v : Window) : m.Selects s (.phase p) →
      Step terminal m { m with output := outputOf terminal.styled p s, window := v }
  | scroll (v : Window) : Step terminal m { m with window := v }
  | resize (width height : Int) (v : Window) :
      Step terminal m { m with width, height, window := v, ready := true }

theorem enter_run {m : State Window} {s : Source} (h : m.Selects s .run) :
    m.enter terminal = ({ m with run := some s, quitting := true }, true) := by
  rw [enter, h.1, h.2]

theorem enter_phase {m : State Window} {s : Source} {p : Phase} (h : m.Selects s (.phase p)) :
    m.enter terminal = ({ m with
      output := outputOf terminal.styled p s
      window := terminal.top (terminal.setContent m.window (outputOf terminal.styled p s)) }, false) := by
  rw [enter, h.1, h.2]

theorem enter_step (m : State Window) : Step terminal m (m.enter terminal).1 := by
  cases hs : atIndex? m.sources m.source with
  | none =>
    rw [enter, hs]
    exact .idle
  | some s =>
    cases hc : atIndex? m.phases m.choice with
    | none =>
      rw [enter, hs, hc]
      exact .idle
    | some c =>
      cases c with
      | run =>
        rw [enter_run ⟨hs, hc⟩]
        exact .run ⟨hs, hc⟩
      | phase p =>
        rw [enter_phase ⟨hs, hc⟩]
        exact .print _ ⟨hs, hc⟩

theorem act_step (m : State Window) (a : Action) : Step terminal m (m.act terminal a).1 := by
  cases a with
  | quit => exact .leave
  | switch => exact .turn _
  | up | down =>
    rw [act, move_eq]
    exact .move _ _
  | enter => exact enter_step m

theorem update_step (m : State Window) (e : Event) : Step terminal m (m.update terminal e).1 := by
  cases e with
  | resize width height => exact .resize width height _
  | key name =>
    rw [update]
    cases Action.ofKey? name with
    | none => exact .scroll _
    | some a => exact act_step m a

theorem after_keeps {P : State Window → Prop} (hstep : ∀ {m n}, P m → Step terminal m n → P n)
    {m : State Window} (hm : P m) (events : List Event) : P (m.after terminal events) := by
  induction events generalizing m with
  | nil => exact hm
  | cons e events ih => exact ih (hstep hm (update_step m e))

theorem quitting_step {m n : State Window} (h : m.quitting = true) (hs : Step terminal m n) :
    n.quitting = true := by
  cases hs with
  | leave | run => rfl
  | move pane => cases pane <;> exact h
  | idle | turn | print | scroll | resize => exact h

structure Consistent (terminal : Terminal Window) (extra : List Source) (m : State Window) : Prop where
  sources : m.sources = samples ++ extra
  phases : m.phases = choices
  source : 0 ≤ m.source ∧ m.source < m.sources.length
  choice : 0 ≤ m.choice ∧ m.choice < m.phases.length
  run : m.run = none ∨ ∃ s ∈ m.sources, m.run = some s ∧ m.quitting = true
  output : m.output = prompt terminal.styled ∨
    ∃ p ∈ Phase.all, ∃ s ∈ m.sources, m.output = outputOf terminal.styled p s

theorem mem_all (p : Phase) : p ∈ Phase.all := by
  cases p <;> decide

theorem initial_consistent (terminal : Terminal Window) (extra : List Source) :
    (initial terminal extra).Consistent terminal extra where
  sources := rfl
  phases := rfl
  source := by
    have hlength : (samples ++ extra).length = 3 + extra.length := List.length_append
    have hpos : 0 < (samples ++ extra).length := by omega
    exact ⟨Int.le_refl 0, Int.natCast_pos.mpr hpos⟩
  choice := ⟨Int.le_refl 0, by simp [initial, choices, Phase.all]⟩
  run := .inl rfl
  output := .inl rfl

namespace Consistent

variable {extra : List Source} {m n : State Window}

theorem inRange (h : m.Consistent terminal extra) (pane : Pane) : m.InRange pane (m.index pane) := by
  cases pane with
  | sources => exact h.source
  | choices => exact h.choice

theorem withIndex (h : m.Consistent terminal extra) {pane : Pane} {i : Int} (hi : m.InRange pane i) :
    (m.withIndex pane i).Consistent terminal extra := by
  cases pane with
  | sources => exact { h with source := hi }
  | choices => exact { h with choice := hi }

theorem step (h : m.Consistent terminal extra) (hs : Step terminal m n) : n.Consistent terminal extra := by
  cases hs with
  | idle | turn | scroll | resize => exact { h with }
  | leave =>
    refine { h with run := ?_ }
    obtain hnone | ⟨s, hs, hrun, -⟩ := h.run
    · exact .inl hnone
    · exact .inr ⟨s, hs, hrun, rfl⟩
  | move pane i =>
    have hpos : 0 < m.size pane := by
      have := h.inRange pane
      unfold InRange at this
      omega
    exact h.withIndex (clamp_inRange hpos i)
  | run hsel => exact { h with run := .inr ⟨_, mem_of_atIndex hsel.1, rfl, rfl⟩ }
  | print v hsel => exact { h with output := .inr ⟨_, mem_all _, _, mem_of_atIndex hsel.1, rfl⟩ }

theorem after (h : m.Consistent terminal extra) (events : List Event) :
    (m.after terminal events).Consistent terminal extra :=
  after_keeps step h events

theorem selects (h : m.Consistent terminal extra) : ∃ s c, m.Selects s c := by
  obtain ⟨s, hs⟩ := exists_atIndex h.source
  obtain ⟨c, hc⟩ := exists_atIndex h.choice
  exact ⟨s, c, hs, hc⟩

end Consistent

theorem ofKey?_of_mem {a : Action} {key : Text} (h : key ∈ keys a) : Action.ofKey? key = some a := by
  have hall : ∀ a ∈ actions, ∀ key ∈ keys a, Action.ofKey? key = some a := by decide +kernel
  refine hall a ?_ key h
  cases a <;> decide

theorem update_key {a : Action} {key : Text} (h : key ∈ keys a) (m : State Window) :
    m.update terminal (.key key) = m.act terminal a := by
  rw [update, ofKey?_of_mem h]

theorem after_key {a : Action} {key : Text} (h : key ∈ keys a) (m : State Window) :
    m.after terminal [.key key] = (m.act terminal a).1 := by
  rw [after_cons, update_key h]
  rfl

theorem after_enter (m : State Window) : m.after terminal [.key "enter"] = (m.enter terminal).1 :=
  after_key (a := .enter) (List.mem_singleton_self _) m

theorem after_enter_run {m : State Window} {s : Source} (h : m.Selects s .run) :
    (m.after terminal [.key "enter"]).run = some s ∧ (m.after terminal [.key "enter"]).quitting = true := by
  rw [after_enter, enter_run h]
  exact ⟨rfl, rfl⟩

theorem after_enter_phase {m : State Window} {s : Source} {p : Phase} (h : m.Selects s (.phase p)) :
    (m.after terminal [.key "enter"]).output = outputOf terminal.styled p s := by
  rw [after_enter, enter_phase h]

theorem exists_turn (m : State Window) (pane : Pane) :
    ∃ more, m.after terminal more = { m with focus := pane } := by
  by_cases h : m.focus = pane
  · exact ⟨[], by rw [← h]; rfl⟩
  · refine ⟨[.key "tab"], ?_⟩
    rw [after_key (a := .switch) (List.mem_singleton_self _), act]
    cases hfocus : m.focus with
    | sources =>
      cases pane with
      | sources => exact absurd hfocus h
      | choices => rfl
    | choices =>
      cases pane with
      | sources => rfl
      | choices => exact absurd hfocus h

@[simp]
theorem focus_withIndex (m : State Window) (pane : Pane) (i : Int) :
    (m.withIndex pane i).focus = m.focus := by
  cases pane <;> rfl

@[simp]
theorem size_withIndex (m : State Window) (pane other : Pane) (i : Int) :
    (m.withIndex pane i).size other = m.size other := by
  cases pane <;> cases other <;> rfl

@[simp]
theorem index_withIndex (m : State Window) (pane : Pane) (i : Int) :
    (m.withIndex pane i).index pane = i := by
  cases pane <;> rfl

@[simp]
theorem withIndex_index (m : State Window) (pane : Pane) : m.withIndex pane (m.index pane) = m := by
  cases pane <;> rfl

@[simp]
theorem withIndex_withIndex (m : State Window) (pane : Pane) (i j : Int) :
    (m.withIndex pane i).withIndex pane j = m.withIndex pane j := by
  cases pane <;> rfl

theorem exists_nearer {m : State Window} {i : Int} (hm : m.InRange m.focus (m.index m.focus))
    (hi : m.InRange m.focus i) (hne : m.index m.focus ≠ i) :
    ∃ key j, (m.update terminal (.key key)).1 = m.withIndex m.focus j ∧ m.InRange m.focus j ∧
      (i - j).natAbs < (i - m.index m.focus).natAbs := by
  have hpress {key : Text} {a : Action} {delta : Int} (hkey : key ∈ keys a)
      (ha : m.act terminal a = (m.move delta, false)) (hj : m.InRange m.focus (m.index m.focus + delta)) :
      (m.update terminal (.key key)).1 = m.withIndex m.focus (m.index m.focus + delta) := by
    rw [update_key hkey, ha, move_eq, clamp_eq hj]
  unfold InRange at hm hi
  rcases Int.lt_or_gt_of_ne hne with hlt | hgt
  · have hj : m.InRange m.focus (m.index m.focus + 1) := by
      unfold InRange
      omega
    exact ⟨"down", _, hpress (a := .down) List.mem_cons_self rfl hj, hj, by omega⟩
  · have hj : m.InRange m.focus (m.index m.focus + -1) := by
      unfold InRange
      omega
    exact ⟨"up", _, hpress (a := .up) List.mem_cons_self rfl hj, hj, by omega⟩

theorem exists_walk {m : State Window} {i : Int} (hm : m.InRange m.focus (m.index m.focus))
    (hi : m.InRange m.focus i) : ∃ more, m.after terminal more = m.withIndex m.focus i := by
  -- The induction is on how far the selected entry is from the other.
  induction hd : (i - m.index m.focus).natAbs using Nat.strongRecOn generalizing m with
  | _ d ih =>
    by_cases hne : m.index m.focus = i
    · exact ⟨[], by rw [← hne, withIndex_index]; rfl⟩
    · obtain ⟨key, j, hstep, hj, hlt⟩ := exists_nearer hm hi hne
      obtain ⟨more, hmore⟩ := @ih _ (hd ▸ hlt) (m.withIndex m.focus j) (by simpa [InRange] using hj)
        (by simpa [InRange] using hi) (by simp)
      refine ⟨.key key :: more, ?_⟩
      rw [after_cons, hstep, hmore, focus_withIndex, withIndex_withIndex]

theorem exists_select {m : State Window} {pane : Pane} {i : Int} (hm : m.InRange pane (m.index pane))
    (hi : m.InRange pane i) :
    ∃ more, m.after terminal more = { m with focus := pane }.withIndex pane i := by
  obtain ⟨turn, hturn⟩ := exists_turn m pane
  obtain ⟨walk, hwalk⟩ := exists_walk (m := { m with focus := pane }) hm hi
  exact ⟨turn ++ walk, by rw [after_append, hturn, hwalk]⟩

namespace Consistent

variable {extra : List Source} {m : State Window}

theorem exists_selects (h : m.Consistent terminal extra) {s : Source} {c : Choice} (hs : s ∈ m.sources)
    (hc : c ∈ m.phases) : ∃ more, (m.after terminal more).Selects s c := by
  obtain ⟨i, hi, hsi⟩ := exists_index hs
  obtain ⟨j, hj, hcj⟩ := exists_index hc
  obtain ⟨first, hfirst⟩ := exists_select (h.inRange .sources) hi
  have hrange := (h.after first).inRange .choices
  rw [hfirst] at hrange
  obtain ⟨second, hsecond⟩ := exists_select hrange hj
  refine ⟨first ++ second, ?_⟩
  rw [after_append, hfirst, hsecond]
  exact ⟨hsi, hcj⟩

end Consistent

theorem view_eq_nil (m : State Window) : m.view terminal = [] ↔ m.quitting = true := by
  rw [view]
  split
  · next h => exact iff_of_true rfl h
  · next h =>
    -- There are line feeds before the help, whatever the terminal makes of the rest.
    refine iff_of_false (List.append_ne_nil_of_left_ne_nil ?_ _) h
    exact List.append_ne_nil_of_right_ne_nil _ (by decide +kernel)

/-- Whatever the events, the lists of the menu stay as they were, an entry of each is selected and enter
acts on these; a program that is to be run is one of the list and the menu is left for it; a menu that was
left stays so, and then shows nothing; and what it shows otherwise is the prompt or what one of the phases
printed for one of the programs. Each of these texts and each of the programs can be asked for. -/
theorem menu_consistent_over_runs (terminal : Terminal Window) (extra : List Source)
    (events : List Event) :
    let m := (initial terminal extra).after terminal events
    m.Consistent terminal extra ∧ (m.view terminal = [] ↔ m.quitting = true) ∧
    (∀ more, m.quitting = true → (m.after terminal more).quitting = true) ∧
    (∃ s c, m.Selects s c ∧
      (c = .run →
        (m.after terminal [.key "enter"]).run = some s ∧ (m.after terminal [.key "enter"]).quitting = true) ∧
      ∀ p, c = .phase p → (m.after terminal [.key "enter"]).output = outputOf terminal.styled p s) ∧
    ∀ s ∈ m.sources, (∃ more, (m.after terminal more).run = some s) ∧
      ∀ p ∈ Phase.all, ∃ more, (m.after terminal more).output = outputOf terminal.styled p s := by
  intro m
  have h : m.Consistent terminal extra := (initial_consistent terminal extra).after events
  refine ⟨h, view_eq_nil m, fun more hq => after_keeps quitting_step hq more, ?_, ?_⟩
  · obtain ⟨s, c, hsel⟩ := h.selects
    refine ⟨s, c, hsel, ?_, ?_⟩
    · rintro rfl
      exact after_enter_run hsel
    · rintro p rfl
      exact after_enter_phase hsel
  · intro s hs
    constructor
    · have hrun : Choice.run ∈ m.phases :=
        h.phases.symm ▸ List.mem_append_right _ List.mem_cons_self
      obtain ⟨more, hsel⟩ := h.exists_selects hs hrun
      refine ⟨more ++ [.key "enter"], ?_⟩
      rw [after_append]
      exact (after_enter_run hsel).1
    · intro p hp
      have hphase : Choice.phase p ∈ m.phases :=
        h.phases.symm ▸ List.mem_append_left _ (List.mem_map_of_mem hp)
      obtain ⟨more, hsel⟩ := h.exists_selects hs hphase
      refine ⟨more ++ [.key "enter"], ?_⟩
      rw [after_append]
      exact after_enter_phase hsel

end MiniSharp.Menu.State
