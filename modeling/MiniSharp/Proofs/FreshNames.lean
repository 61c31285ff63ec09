import Mathlib.Data.List.Nodup
import Mathlib.Data.List.Perm.Subperm
import MiniSharp.Proofs.TokenForms
import MiniSharp.Target.Name

namespace MiniSharp

namespace Text

theorem value_append_digit (ds : Text) (b : UInt8) :
    value (ds ++ [b]) = 10 * value ds + (b.toNat - 48) := by
  simp [value]

theorem toNat_digit {d : Nat} (h : d < 10) : (48 + d).toUInt8.toNat - 48 = d := by
  rw [Nat.toUInt8_eq, UInt8.toNat_ofNat']
  omega

theorem value_decimal (n : Nat) : value (decimal n) = n := by
  induction n using Nat.strongRecOn with
  | _ n ih =>
    rw [decimal]
    split
    · rename_i hn
      simpa [value] using toNat_digit hn
    · rw [value_append_digit, ih (n / 10) (by omega), toNat_digit (Nat.mod_lt n (by omega))]
      omega

theorem decimal_injective : Function.Injective decimal :=
  Function.LeftInverse.injective value_decimal

theorem isDigit_digit {d : Nat} (h : d < 10) : isDigit (48 + d).toUInt8 = true := by
  have hall : ∀ d < 10, isDigit (48 + d).toUInt8 = true := by decide
  exact hall d h

theorem isDigit_decimal (n : Nat) : ∀ b ∈ decimal n, isDigit b := by
  induction n using Nat.strongRecOn with
  | _ n ih =>
    intro b hb
    rw [decimal] at hb
    split at hb
    · next hn =>
      rw [List.mem_singleton.mp hb]
      exact isDigit_digit hn
    · rcases List.mem_append.mp hb with hb | hb
      · exact ih (n / 10) (by omega) b hb
      · rw [List.mem_singleton.mp hb]
        exact isDigit_digit (Nat.mod_lt n (by omega))

end Text

theorem IsName.head {x : Text} (h : IsName x) : x.head? ≠ some (Text.byte '@') := by
  obtain ⟨b, t, rfl, hb⟩ := h.start
  rintro ⟨rfl⟩
  revert hb
  decide

namespace Target

theorem numbered_injective (base : Text) : Function.Injective (numbered base) := by
  intro i j h
  apply Text.decimal_injective
  simpa [numbered] using h

theorem exists_free (base : Text) (used : List Text) :
    ∃ i < used.length + 1, numbered base (i + 1) ∉ used := by
  -- Otherwise more names are taken than there are.
  by_contra hall
  push Not at hall
  let tried := (List.range (used.length + 1)).map fun i => numbered base (i + 1)
  have hnodup : tried.Nodup :=
    List.Nodup.map (fun i j h => Nat.succ.inj (numbered_injective base h)) List.nodup_range
  have hsub : tried ⊆ used := by
    intro x hx
    obtain ⟨i, hi, rfl⟩ := List.mem_map.mp hx
    exact hall i (List.mem_range.mp hi)
  have hle := (hnodup.subperm hsub).length_le
  simp only [tried, List.length_map, List.length_range] at hle
  omega

theorem freshName_not_mem (base : Text) (used : List Text) : freshName base used ∉ used := by
  obtain ⟨i, hi, hfree⟩ := exists_free base used
  unfold freshName leastFree
  cases hf : (List.range (used.length + 1)).find? fun i => numbered base (i + 1) ∉ used with
  | none =>
    exact absurd (decide_eq_true hfree) (List.find?_eq_none.mp hf i (List.mem_range.mpr hi))
  | some k => simpa using List.find?_some hf

theorem localName_not_mem (name : Text) (used : List Text) : localName name used ∉ used := by
  unfold localName
  split
  · exact freshName_not_mem name used
  · assumption

inductive Legal : Text → Prop
  | plain {x : Text} : x ∉ keywords → x.head? ≠ some (Text.byte '@') → Legal x
  | escaped {k : Text} : k ∈ keywords → Legal (Text.byte '@' :: k)

def bare : Text → Text
  | [] => []
  | b :: rest => if b = Text.byte '@' then rest else b :: rest

theorem bare_of_head {x : Text} (h : x.head? ≠ some (Text.byte '@')) : bare x = x := by
  cases x with
  | nil => rfl
  | cons b rest => exact if_neg fun hb => h (by rw [List.head?_cons, hb])

@[simp]
theorem bare_escaped (k : Text) : bare (Text.byte '@' :: k) = k := by
  simp [bare]

theorem keywords_head {k : Text} (h : k ∈ keywords) : k.head? ≠ some (Text.byte '@') := by
  have hall : ∀ k ∈ keywords, k.head? ≠ some (Text.byte '@') := by decide +kernel
  exact hall k h

theorem keywords_underscore {k : Text} (h : k ∈ keywords) : Text.byte '_' ∉ k := by
  have hall : ∀ k ∈ keywords, Text.byte '_' ∉ k := by decide +kernel
  exact hall k h

theorem reserved_plain {x : Text} (h : x ∈ reserved) :
    x ∉ keywords ∧ x.head? ≠ some (Text.byte '@') := by
  have hall : ∀ x ∈ reserved, x ∉ keywords ∧ x.head? ≠ some (Text.byte '@') := by decide +kernel
  exact hall x h

theorem Legal.not_keyword {x : Text} (h : Legal x) : x ∉ keywords := by
  cases h with
  | plain hx _ => exact hx
  | escaped _ => exact fun hk => keywords_head hk rfl

theorem Legal.bare_injective {x y : Text} (hx : Legal x) (hy : Legal y) (h : bare x = bare y) :
    x = y := by
  cases hx with
  | plain hx hx' =>
    cases hy with
    | plain hy hy' => rwa [bare_of_head hx', bare_of_head hy'] at h
    | escaped hk =>
      rw [bare_of_head hx', bare_escaped] at h
      exact absurd (h ▸ hk) hx
  | escaped hk =>
    cases hy with
    | plain hy hy' =>
      rw [bare_escaped, bare_of_head hy'] at h
      exact absurd (h ▸ hk) hy
    | escaped hk' => rw [bare_escaped, bare_escaped] at h; rw [h]

theorem Legal.of_reserved {x : Text} (h : x ∈ reserved) : Legal x :=
  .plain (reserved_plain h).1 (reserved_plain h).2

theorem escapeName_legal {name : Text} (h : IsName name) : Legal (escapeName name) := by
  unfold escapeName
  split
  · exact .escaped ‹_›
  · exact .plain ‹_› h.head

theorem bare_escapeName {name : Text} (h : IsName name) : bare (escapeName name) = name := by
  unfold escapeName
  split
  · exact bare_escaped name
  · exact bare_of_head h.head

theorem freshName_head {base : Text} (h : IsName base) (used : List Text) :
    (freshName base used).head? ≠ some (Text.byte '@') := by
  obtain ⟨b, t, rfl, -⟩ := h.start
  simpa [freshName, numbered] using h.head

theorem freshName_legal {base : Text} (h : IsName base) (used : List Text) :
    Legal (freshName base used) :=
  .plain (fun hk => keywords_underscore hk (by simp [freshName, numbered])) (freshName_head h used)

theorem localName_legal {name : Text} (h : IsName name) (used : List Text) :
    Legal (localName name used) := by
  unfold localName
  split
  · exact freshName_legal h used
  · exact escapeName_legal h

end Target

end MiniSharp
