import Mathlib.Data.Nat.Init
import Mathlib.Order.Bounds.Basic
import MiniSharp.Proofs.Outcome
import MiniSharp.Proofs.TwinLowering

namespace MiniSharp

namespace Target

inductive CountsTo (base : Text) (used : List Text) : Nat → Nat → Prop
  | free {i : Nat} : numbered base i ∉ used → CountsTo base used i i
  | taken {i k : Nat} : numbered base i ∈ used → CountsTo base used (i + 1) k → CountsTo base used i k

theorem countsTo_iff {base : Text} {used : List Text} {i k : Nat} :
    CountsTo base used i k ↔ IsLeast {j | i ≤ j ∧ numbered base j ∉ used} k := by
  constructor
  · intro h
    induction h with
    | free hfree => exact ⟨⟨Nat.le_refl _, hfree⟩, fun j hj => hj.1⟩
    | @taken i k htaken _ ih =>
      refine ⟨⟨Nat.le_of_succ_le ih.1.1, ih.1.2⟩, ?_⟩
      rintro j ⟨hij, hj⟩
      have hne : i ≠ j := fun he => hj (he ▸ htaken)
      exact ih.2 ⟨by omega, hj⟩
  · rintro ⟨⟨hik, hfree⟩, hleast⟩
    -- Counting back from the number that is free: all before it are taken.
    induction hik using Nat.decreasingInduction with
    | self => exact .free hfree
    | of_succ i hi ih =>
      have htaken : numbered base i ∈ used := by
        by_contra hfree
        exact absurd (hleast ⟨Nat.le_refl _, hfree⟩) (Nat.not_le_of_lt hi)
      exact .taken htaken (ih fun j hj => hleast ⟨Nat.le_of_succ_le hj.1, hj.2⟩)

theorem leastFree_isLeast (base : Text) (used : List Text) :
    IsLeast {k | 1 ≤ k ∧ numbered base k ∉ used} (leastFree base used) := by
  refine ⟨⟨Nat.le_add_left 1 _, freshName_not_mem base used⟩, ?_⟩
  rintro k ⟨hk, hfree⟩
  obtain ⟨i, rfl⟩ := Nat.exists_eq_add_of_le' hk
  exact leastFree_le hfree

theorem leastFree_le_length (base : Text) (used : List Text) :
    leastFree base used ≤ used.length + 1 := by
  obtain ⟨i, hi, hfree⟩ := exists_free base used
  exact Nat.le_trans (leastFree_le hfree) hi

def takeFresh (base : Text) (used : List Text) : Text × List Text :=
  (freshName base used, freshName base used :: used)

def takeAll (used : List Text) : List Text → List Text
  | [] => []
  | base :: bases => (takeFresh base used).1 :: takeAll (takeFresh base used).2 bases

theorem takeFresh_ne {base other : Text} {used later : List Text}
    (h : (takeFresh base used).2 ⊆ later) : (takeFresh other later).1 ≠ (takeFresh base used).1 := by
  intro he
  have hmem : (takeFresh other later).1 ∈ later := he ▸ h List.mem_cons_self
  exact freshName_not_mem other later hmem

theorem not_mem_of_mem_takeAll {used bases : List Text} {x : Text} (h : x ∈ takeAll used bases) :
    x ∉ used := by
  induction bases generalizing used with
  | nil => cases h
  | cons base bases ih =>
    rcases List.mem_cons.mp h with rfl | h
    · exact freshName_not_mem base used
    · exact fun hx => ih h (List.mem_cons_of_mem _ hx)

theorem takeAll_nodup (used bases : List Text) : (takeAll used bases).Nodup := by
  induction bases generalizing used with
  | nil => exact List.nodup_nil
  | cons base bases ih =>
    refine List.nodup_cons.mpr ⟨fun h => ?_, ih _⟩
    exact not_mem_of_mem_takeAll h List.mem_cons_self

example : takeAll ["x", "x_1"] ["x", "x_1", "x"] = ["x_2", "x_1_1", "x_3"] := by decide +kernel

end Target

namespace Lowering

theorem declare_takeFresh {names names' : Names} {note : Note} {name given : Text}
    (h : declare names note name = .ok (given, names')) (htaken : Target.escapeName name ∈ names.used) :
    (given, names'.used) = Target.takeFresh name names.used := by
  simp only [declare, bind_eq_ok, pure_eq_ok, Prod.mk.injEq] at h
  obtain ⟨x, -, rfl, rfl⟩ := h
  rw [Target.localName, if_pos htaken]
  rfl

theorem nameMethods_takeFresh {f : Func Note} (hne : f.name ≠ Typing.entryName)
    (hres : f.name ∈ Target.reserved) (used : List Text) (rest : List (Func Note)) :
    nameMethods used (f :: rest) = do
      let x ← defined f.note f.name
      let methods ← nameMethods (Target.takeFresh f.name used).2 rest
      return (x.id, (Target.takeFresh f.name used).1) :: methods := by
  simp only [nameMethods, methodName, if_neg hne, if_pos hres]
  rfl

end Lowering

open Target in
/-- Trying numbers from 1 on always ends, with at most one try more than there are names taken, and at the
least number that is free. Exactly the name with that number is taken then, so no later search gives it
again, whatever the bases are and whatever else has been taken since. This is how variables and methods
get numbered names. -/
theorem numbered_names_least_free (base : Text) (used : List Text) :
    (∀ k, CountsTo base used 1 k ↔ k = leastFree base used) ∧
    leastFree base used ≤ used.length + 1 ∧
    IsLeast {k | 1 ≤ k ∧ numbered base k ∉ used} (leastFree base used) ∧
    (takeFresh base used).1 = numbered base (leastFree base used) ∧
    (∀ x, x ∈ (takeFresh base used).2 ↔ x ∈ used ∨ x = (takeFresh base used).1) ∧
    (∀ bases, (takeAll used bases).Nodup) ∧
    (∀ other later, (takeFresh base used).2 ⊆ later →
      (takeFresh other later).1 ≠ (takeFresh base used).1) ∧
    (∀ names note given names', names.used = used → escapeName base ∈ used →
      Lowering.declare names note base = .ok (given, names') →
      (given, names'.used) = takeFresh base used) ∧
    ∀ f rest, f.name = base → base ≠ Typing.entryName → base ∈ reserved →
      Lowering.nameMethods used (f :: rest) = do
        let x ← Lowering.defined f.note base
        let methods ← Lowering.nameMethods (takeFresh base used).2 rest
        return (x.id, (takeFresh base used).1) :: methods := by
  have hleast := leastFree_isLeast base used
  refine ⟨fun k => ?_, leastFree_le_length base used, hleast, rfl, fun x => ?_, takeAll_nodup used,
    fun other later => takeFresh_ne, ?_, ?_⟩
  · rw [countsTo_iff]
    exact ⟨fun h => h.unique hleast, fun h => h ▸ hleast⟩
  · exact List.mem_cons.trans or_comm
  · rintro names note given names' rfl htaken h
    exact Lowering.declare_takeFresh h htaken
  · rintro f rest rfl hne hres
    exact Lowering.nameMethods_takeFresh hne hres used rest

end MiniSharp
