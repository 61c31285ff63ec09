import MiniSharp.Files.Host
import MiniSharp.Proofs.FileChanges

/-!
Calls to a machine: every way they can end, and what they leave of the files outside a place. A machine
may fail at any call and leave a part of the work behind.
-/

namespace MiniSharp

open World (pathOf)

namespace World

variable {α β ε : Type}

def call (x : StateM World α) (w : World) : α × World := (x.run w).run

theorem call_bind (x : ExceptT ε (StateM World) α) (f : α → ExceptT ε (StateM World) β) (w : World) :
    call (x >>= f).run w = call (ExceptT.bindCont f (call x.run w).1) (call x.run w).2 := rfl

theorem call_bind_ok {x : ExceptT ε (StateM World) α} {f : α → ExceptT ε (StateM World) β} {w w' : World}
    {a : α} (h : call x.run w = (.ok a, w')) : call (x >>= f).run w = call (f a).run w' := by
  rw [call_bind, h]
  rfl

theorem call_bind_error {x : ExceptT ε (StateM World) α} {f : α → ExceptT ε (StateM World) β}
    {w w' : World} {e : ε} (h : call x.run w = (.error e, w')) :
    call (x >>= f).run w = (.error e, w') := by
  rw [call_bind, h]
  rfl

/-- Every outcome of a call on a machine: a result that is good, or a failure that is not too bad. -/
structure Ends (x : ExceptT ε (StateM World) α) (w : World) (good : α → World → Prop)
    (bad : World → Prop) : Prop where
  ok : ∀ a w', call x.run w = (.ok a, w') → good a w'
  error : ∀ e w', call x.run w = (.error e, w') → bad w'

namespace Ends

variable {x : ExceptT ε (StateM World) α} {w : World} {good : α → World → Prop} {bad : World → Prop}

theorem bind {f : α → ExceptT ε (StateM World) β} {good' : β → World → Prop} (hx : Ends x w good bad)
    (hf : ∀ a w', good a w' → Ends (f a) w' good' bad) : Ends (x >>= f) w good' bad := by
  rcases h : call x.run w with ⟨e | a, w'⟩
  · have hx' := hx.error e w' h
    constructor
    · intro b w'' hb
      rw [call_bind_error h] at hb
      cases hb
    · intro e' w'' he
      rw [call_bind_error h] at he
      cases he
      exact hx'
  · have hfa := hf a w' (hx.ok a w' h)
    constructor
    · intro b w'' hb
      exact hfa.ok b w'' (call_bind_ok h ▸ hb)
    · intro e w'' he
      exact hfa.error e w'' (call_bind_ok h ▸ he)

theorem mono {good' : α → World → Prop} {bad' : World → Prop} (hx : Ends x w good bad)
    (hgood : ∀ a w', good a w' → good' a w') (hbad : ∀ w', bad w' → bad' w') : Ends x w good' bad' where
  ok a w' h := hgood a w' (hx.ok a w' h)
  error e w' h := hbad w' (hx.error e w' h)

theorem pure {a : α} (h : good a w) : Ends (Pure.pure a : ExceptT ε (StateM World) α) w good bad where
  ok := by
    rintro b w' ⟨⟩
    exact h
  error := by rintro e w' ⟨⟩

theorem throw {e : ε} (h : bad w) :
    Ends (MonadExcept.throw e : ExceptT ε (StateM World) α) w good bad where
  ok := by rintro b w' ⟨⟩
  error := by
    rintro e w' ⟨⟩
    exact h

theorem lift {x : StateM World α} (h : good (call x w).1 (call x w).2) :
    Ends (liftM x : ExceptT ε (StateM World) α) w good bad where
  ok := by
    rintro b w' ⟨⟩
    exact h
  error := by rintro e w' ⟨⟩

end Ends

def Fails (result : Except FileError Unit × World) (before after : World) : Prop :=
  ∃ e files, result = (.error e, { before with files }) ∧
    ∀ p, files.get? p = before.files.get? p ∨ files.get? p = after.files.get? p

/-- Nothing outside a place is changed, but missing directories above it may be made. -/
def Spares (p : Place) (w w' : World) : Prop :=
  ∀ q, ¬ p <+: q → w'.files.get? q = w.files.get? q ∨
    q <+: p ∧ w.files.get? q = none ∧ w'.files.get? q = some .directory

variable {p : Place} {w w' w'' : World}

theorem Spares.of_files_eq (h : w'.files = w.files) : Spares p w w' :=
  fun q _ => .inl (by rw [h])

theorem Spares.trans (h : Spares p w w') (h' : Spares p w' w'') : Spares p w w'' := by
  intro q hq
  obtain heq | ⟨habove, hnone, hmade⟩ := h q hq
  · rw [← heq]
    exact h' q hq
  · obtain heq' | ⟨-, hnone', -⟩ := h' q hq
    · exact .inr ⟨habove, hnone, heq'.trans hmade⟩
    · rw [hmade] at hnone'
      cases hnone'

theorem Fails.spares {result : Except FileError Unit × World} (h : Fails result w w')
    (hspares : Spares p w w') : Spares p w result.2 := by
  obtain ⟨e, files, rfl, hbetween⟩ := h
  intro q hq
  obtain heq | heq := hbetween q
  · exact .inl heq
  · obtain hsame | ⟨habove, hnone, hmade⟩ := hspares q hq
    · exact .inl (heq.trans hsame)
    · exact .inr ⟨habove, hnone, heq.trans hmade⟩

theorem host_has_world (path : Text) : (call (host.has path) w).2 = w := by
  dsimp only [call, host, StateT.run, Id.run]
  split <;> rfl

theorem host_has {path : Text} (h : (call (host.has path) w).1 = true) :
    (w.files.get? (Path.destination w.directory path)).isSome := by
  dsimp only [call, host, StateT.run, Id.run] at h
  split at h
  · next p hlocate => rwa [← FileTree.locate_eq_ok hlocate]
  · cases h

theorem host_remove {path : Text} (h : w.files.locate w.directory path = .ok p) :
    call (host.remove path) w = (.ok (), { w with files := w.files.remove p }) := by
  dsimp only [call, host, StateT.run, Id.run]
  rw [h]

theorem host_makeDirectories (hp : ∀ name ∈ p, Path.IsName name) :
    (call (host.makeDirectories (pathOf p)) w).2.files = w.files.makeDirectories p ∧
      ((call (host.makeDirectories (pathOf p)) w).1 = .ok () → w.files.obstacle? p = none) := by
  have hrooted := Path.isRooted_pathOf p []
  rw [List.append_nil] at hrooted
  have hplace : placeOf (Path.absolute (pathOf w.directory) (pathOf p)) = p := by
    rw [Path.absolute, if_pos hrooted, Path.clean_pathOf hp, Path.placeOf_pathOf hp]
  dsimp only [call, host, StateT.run, Id.run]
  rw [hplace]
  split
  · next hnone => exact ⟨rfl, fun _ => hnone⟩
  · exact ⟨rfl, fun h => by cases h⟩

theorem host_write (hp : ∀ name ∈ p, Path.IsName name) (content : Text) :
    (∀ w', call (host.write (pathOf p) content) w = (.ok (), w') →
      w'.files = w.files.insert p (.file content)) ∧
    ∀ e w', call (host.write (pathOf p) content) w = (.error e, w') → w' = w := by
  dsimp only [call, host, StateT.run, Id.run]
  split
  · next files hwrite =>
    have hfiles := FileTree.write_eq_ok hwrite
    rw [Path.destination_pathOf _ hp] at hfiles
    refine ⟨?_, by rintro e w' ⟨⟩⟩
    rintro w' ⟨⟩
    exact hfiles
  · refine ⟨by rintro w' ⟨⟩, ?_⟩
    rintro e w' ⟨⟩
    rfl

end World

/-- A machine whose calls do what they should, or fail for a reason of their own: calls that change files
may then have done any part of the work. -/
structure Host.Fallible (host : Host (StateM World)) : Prop where
  directory : ∀ w, World.call host.directory w = World.call World.host.directory w
  list : ∀ path w, World.call (host.list path) w = World.call (World.host.list path) w ∨
    ∃ e, e.cause ≠ .missing ∧ World.call (host.list path) w = (.error e, w)
  has : ∀ path w, World.call (host.has path) w = World.call (World.host.has path) w ∨
    World.call (host.has path) w = (false, w)
  remove : ∀ path w, World.call (host.remove path) w = World.call (World.host.remove path) w ∨
    World.Fails (World.call (host.remove path) w) w (World.call (World.host.remove path) w).2
  makeDirectories : ∀ path w,
    World.call (host.makeDirectories path) w = World.call (World.host.makeDirectories path) w ∨
      World.Fails (World.call (host.makeDirectories path) w) w
        (World.call (World.host.makeDirectories path) w).2
  write : ∀ path content w,
    World.call (host.write path content) w = World.call (World.host.write path content) w ∨
      ∃ part, World.Fails (World.call (host.write path content) w) w
        (World.call (World.host.write path part) w).2

end MiniSharp
