import Mathlib.Algebra.Order.Field.Power
import Mathlib.Algebra.Order.Field.Rat
import Mathlib.Data.List.Induction
import Mathlib.Tactic.Linarith
import Mathlib.Tactic.NormNum
import Mathlib.Tactic.Ring
import MiniSharp.Number.Binary32
import MiniSharp.Proofs.FreshNames
import MiniSharp.Proofs.Lexemes

namespace MiniSharp

namespace Binary32

def Decimal.toRat (d : Decimal) : ℚ := d.digits * 10 ^ d.scale

namespace Neighbourhood

def lowEnd (v : Neighbourhood) : ℚ := v.low * 2 ^ v.exponent

def highEnd (v : Neighbourhood) : ℚ := v.high * 2 ^ v.exponent

/-- The ends belong to a neighbourhood only if it is closed. -/
structure Contains (v : Neighbourhood) (x : ℚ) : Prop where
  low : v.lowEnd ≤ x
  high : x ≤ v.highEnd
  ends : v.closed = false → v.lowEnd ≠ x ∧ x ≠ v.highEnd

def factor (v : Neighbourhood) (scale : ℤ) : ℕ :=
  Nat.pow 2 v.exponent.toNat * Nat.pow 10 (-scale).toNat

def step (v : Neighbourhood) (scale : ℤ) : ℕ :=
  Nat.pow 2 (-v.exponent).toNat * Nat.pow 10 scale.toNat

def inside (v : Neighbourhood) (scale : ℤ) (n : ℕ) : Bool :=
  if v.closed then
    v.low * v.factor scale ≤ n * v.step scale && n * v.step scale ≤ v.high * v.factor scale
  else v.low * v.factor scale < n * v.step scale && n * v.step scale < v.high * v.factor scale

theorem onGrid?_eq (v : Neighbourhood) (scale : ℤ) : v.onGrid? scale =
    let below := v.mid * v.factor scale / v.step scale
    let up := roundDiv (v.mid * v.factor scale) (v.step scale)
    let other := if up = below then below + 1 else below
    if v.inside scale up && 0 < up then some up
    else if v.inside scale other && 0 < other then some other
    else none := rfl

theorem inside_of_onGrid? {v : Neighbourhood} {scale : ℤ} {n : ℕ}
    (h : v.onGrid? scale = some n) : v.inside scale n = true ∧ 0 < n := by
  rw [onGrid?_eq] at h
  dsimp only at h
  generalize roundDiv _ _ = up at h
  generalize (if up = _ then _ else _) = other at h
  split at h
  · next hup =>
    cases h
    simpa using hup
  · split at h
    · next hother =>
      cases h
      simpa using hother
    · cases h

theorem pow_toNat (a : ℚ) (ha : a ≠ 0) (e : ℤ) : a ^ e.toNat = a ^ e * a ^ (-e).toNat := by
  have he : (e.toNat : ℤ) = e + (-e).toNat := by omega
  rw [← zpow_natCast, he, zpow_add₀ ha, zpow_natCast]

theorem common_denominator (v : Neighbourhood) (scale : ℤ) : ∃ k : ℚ, 0 < k ∧
    (v.factor scale : ℚ) = 2 ^ v.exponent * k ∧ (v.step scale : ℚ) = 10 ^ scale * k := by
  refine ⟨2 ^ (-v.exponent).toNat * 10 ^ (-scale).toNat, by positivity, ?_, ?_⟩
  · simp only [factor, Nat.pow_eq, Nat.cast_mul, Nat.cast_pow, Nat.cast_ofNat,
      pow_toNat 2 two_ne_zero v.exponent]
    ring
  · simp only [step, Nat.pow_eq, Nat.cast_mul, Nat.cast_pow, Nat.cast_ofNat,
      pow_toNat 10 (by norm_num) scale]
    ring

theorem le_point_iff (v : Neighbourhood) (scale : ℤ) (a n : ℕ) :
    a * v.factor scale ≤ n * v.step scale ↔ (a : ℚ) * 2 ^ v.exponent ≤ n * 10 ^ scale := by
  obtain ⟨k, hk, hfactor, hstep⟩ := v.common_denominator scale
  rw [← Nat.cast_le (α := ℚ), Nat.cast_mul, Nat.cast_mul, hfactor, hstep, ← mul_assoc, ← mul_assoc,
    mul_le_mul_iff_left₀ hk]

theorem point_le_iff (v : Neighbourhood) (scale : ℤ) (a n : ℕ) :
    n * v.step scale ≤ a * v.factor scale ↔ (n : ℚ) * 10 ^ scale ≤ a * 2 ^ v.exponent := by
  obtain ⟨k, hk, hfactor, hstep⟩ := v.common_denominator scale
  rw [← Nat.cast_le (α := ℚ), Nat.cast_mul, Nat.cast_mul, hfactor, hstep, ← mul_assoc, ← mul_assoc,
    mul_le_mul_iff_left₀ hk]

theorem contains_of_inside {v : Neighbourhood} {scale : ℤ} {n : ℕ}
    (h : v.inside scale n = true) : v.Contains (Decimal.toRat ⟨n, scale⟩) := by
  cases hc : v.closed with
  | true =>
    simp only [inside, hc, if_true, Bool.and_eq_true, decide_eq_true_eq, le_point_iff,
      point_le_iff] at h
    exact ⟨h.1, h.2, fun ho => by cases hc.symm.trans ho⟩
  | false =>
    simp only [inside, hc, Bool.false_eq_true, if_false, Bool.and_eq_true, decide_eq_true_eq,
      ← not_le, le_point_iff, point_le_iff] at h
    rw [not_le, not_le] at h
    exact ⟨h.1.le, h.2.le, fun _ => ⟨h.1.ne, h.2.ne⟩⟩

theorem onGrid?_of_dvd {v : Neighbourhood} {scale : ℤ} (hlow : v.low < v.mid)
    (hhigh : v.mid < v.high) (hdvd : v.step scale ∣ v.mid * v.factor scale) :
    v.onGrid? scale ≠ none := by
  obtain ⟨n, hn⟩ := hdvd
  have hfactor : 0 < v.factor scale := by
    exact Nat.mul_pos (Nat.pow_pos two_pos) (Nat.pow_pos (by omega))
  have hstep : 0 < v.step scale := by
    exact Nat.mul_pos (Nat.pow_pos two_pos) (Nat.pow_pos (by omega))
  have hup : roundDiv (v.mid * v.factor scale) (v.step scale) = n := by
    rw [hn, roundDiv, Nat.mul_div_cancel_left n hstep, Nat.mul_mod_right]
    exact if_pos (.inl hstep)
  have hpoint : n * v.step scale = v.mid * v.factor scale := by rw [hn, Nat.mul_comm]
  have hlt : v.low * v.factor scale < n * v.step scale := by
    rw [hpoint]
    exact Nat.mul_lt_mul_of_pos_right hlow hfactor
  have hgt : n * v.step scale < v.high * v.factor scale := by
    rw [hpoint]
    exact Nat.mul_lt_mul_of_pos_right hhigh hfactor
  have hin : v.inside scale n = true := by
    simp [inside, hlt, hgt, hlt.le, hgt.le]
  have hpos : 0 < n := by
    rcases Nat.eq_zero_or_pos n with rfl | hpos
    · omega
    · exact hpos
  rw [onGrid?_eq]
  simp [hup, hin, hpos]

end Neighbourhood

theorem neighbourhood_bounds {bits : ℕ} (h : 0 < bits) :
    (neighbourhood bits).low < (neighbourhood bits).mid ∧
      (neighbourhood bits).mid < (neighbourhood bits).high := by
  have hpow : Nat.pow 2 23 = 8388608 := rfl
  simp only [neighbourhood, hpow]
  split_ifs <;> omega

theorem neighbourhood_closed (bits : ℕ) :
    (neighbourhood bits).closed = decide (bits % 2 = 0) := by
  have hpow : Nat.pow 2 23 = 8388608 := rfl
  simp only [neighbourhood, hpow]
  split_ifs <;> congr 1 <;> apply propext <;> omega

theorem neighbourhood_succ (bits : ℕ) :
    ((neighbourhood (bits + 1)).low = (neighbourhood bits).high ∧
        (neighbourhood (bits + 1)).exponent = (neighbourhood bits).exponent) ∨
      (2 * (neighbourhood (bits + 1)).low = (neighbourhood bits).high ∧
        (neighbourhood (bits + 1)).exponent = (neighbourhood bits).exponent + 1) := by
  have hpow : Nat.pow 2 23 = 8388608 := rfl
  simp only [neighbourhood, hpow]
  split_ifs <;> omega

theorem lowEnd_succ (bits : ℕ) :
    (neighbourhood (bits + 1)).lowEnd = (neighbourhood bits).highEnd := by
  rw [Neighbourhood.lowEnd, Neighbourhood.highEnd]
  rcases neighbourhood_succ bits with ⟨hlow, he⟩ | ⟨hlow, he⟩
  · rw [hlow, he]
  · rw [← hlow, he, zpow_add_one₀ two_ne_zero, Nat.cast_mul, Nat.cast_ofNat]
    ring

theorem highEnd_strictMono : StrictMono fun bits => (neighbourhood bits).highEnd := by
  refine strictMono_nat_of_lt_succ fun bits => ?_
  rw [← lowEnd_succ]
  have hlt := neighbourhood_bounds (Nat.succ_pos bits)
  have : ((neighbourhood (bits + 1)).low : ℚ) < (neighbourhood (bits + 1)).high := by
    exact_mod_cast hlt.1.trans hlt.2
  exact mul_lt_mul_of_pos_right this (by positivity)

theorem contains_lt {a b : ℕ} {x : ℚ} (ha : (neighbourhood a).Contains x)
    (hb : (neighbourhood b).Contains x) : ¬ a < b := by
  intro hlt
  obtain ⟨c, rfl⟩ := Nat.exists_eq_add_of_lt hlt
  have hlow := hb.low
  rw [lowEnd_succ] at hlow
  have hmono := highEnd_strictMono.monotone (Nat.le_add_right a c)
  have hx : (neighbourhood a).highEnd = x := le_antisymm (hmono.trans hlow) ha.high
  have hc : (neighbourhood (a + c)).highEnd = x := le_antisymm hlow (hx ▸ hmono)
  have hac : a = a + c := highEnd_strictMono.injective (hx.trans hc.symm)
  -- One of the two values is odd, and its neighbourhood lacks the common end.
  have haclosed : (neighbourhood a).closed = true := by
    by_contra hopen
    exact (ha.ends (by simpa using hopen)).2 hx.symm
  have hbclosed : (neighbourhood (a + c + 1)).closed = true := by
    by_contra hopen
    refine (hb.ends (by simpa using hopen)).1 ?_
    rw [lowEnd_succ, hc]
  rw [neighbourhood_closed, decide_eq_true_eq] at haclosed hbclosed
  omega

theorem contains_unique {a b : ℕ} {x : ℚ} (ha : (neighbourhood a).Contains x)
    (hb : (neighbourhood b).Contains x) : a = b := by
  have hab := contains_lt ha hb
  have hba := contains_lt hb ha
  omega

theorem onGrid?_finest {bits : ℕ} (h : 0 < bits) : (neighbourhood bits).onGrid? (-150) ≠ none := by
  obtain ⟨hlow, hhigh⟩ := neighbourhood_bounds h
  refine Neighbourhood.onGrid?_of_dvd hlow hhigh ?_
  have hmid : 4 ∣ (neighbourhood bits).mid := Dvd.intro _ rfl
  have hexponent : (-(neighbourhood bits).exponent).toNat ≤ 2 + 150 := by
    have hpow : Nat.pow 2 23 = 8388608 := rfl
    simp only [neighbourhood, hpow]
    split_ifs <;> omega
  calc (neighbourhood bits).step (-150)
      = 2 ^ (-(neighbourhood bits).exponent).toNat := by simp [Neighbourhood.step]
    _ ∣ 2 ^ (2 + 150) := Nat.pow_dvd_pow 2 hexponent
    _ ∣ 4 * 10 ^ 150 := by norm_num
    _ ∣ (neighbourhood bits).mid * (neighbourhood bits).factor (-150) :=
      Nat.mul_dvd_mul hmid (Nat.dvd_mul_left _ _)

theorem shortest_contains {bits : ℕ} (h : 0 < bits) :
    0 < (shortest bits).digits ∧ (neighbourhood bits).Contains (shortest bits).toRat := by
  rw [shortest]
  split
  · next d hd =>
    obtain ⟨scale, -, hscale⟩ := List.exists_of_findSome?_eq_some hd
    obtain ⟨n, hn, rfl⟩ := Option.map_eq_some_iff.mp hscale
    obtain ⟨hin, hpos⟩ := Neighbourhood.inside_of_onGrid? hn
    exact ⟨hpos, Neighbourhood.contains_of_inside hin⟩
  · next hnone =>
    have hmem : (-150 : ℤ) ∈ (List.range 190).map fun i : ℕ => (39 : ℤ) - i := by
      exact List.mem_map.mpr ⟨189, List.mem_range.mpr (by omega), by omega⟩
    have := List.findSome?_eq_none_iff.mp hnone (-150) hmem
    exact absurd (Option.map_eq_none_iff.mp this) (onGrid?_finest h)

end Binary32

namespace Text

theorem value_append (ds es : Text) :
    value (ds ++ es) = value ds * 10 ^ es.length + value es := by
  induction es using List.reverseRecOn with
  | nil => simp [value]
  | append_singleton es b ih =>
    rw [← List.append_assoc, value_append_digit, value_append_digit, ih, List.length_append,
      List.length_singleton, pow_succ]
    ring

theorem value_zeros (n : ℕ) : value (List.replicate n (byte '0')) = 0 := by
  induction n with
  | zero => rfl
  | succ n ih =>
    rw [List.replicate_succ', value_append_digit, ih]
    rfl

theorem value_append_zeros (ds : Text) (n : ℕ) :
    value (ds ++ List.replicate n (byte '0')) = value ds * 10 ^ n := by
  rw [value_append, value_zeros, List.length_replicate, Nat.add_zero]

theorem value_zeros_append (n : ℕ) (ds : Text) :
    value (List.replicate n (byte '0') ++ ds) = value ds := by
  rw [value_append, value_zeros, Nat.zero_mul, Nat.zero_add]

theorem dropTrailing_zeros (t : Text) :
    ∃ n, t = dropTrailing (· == byte '0') t ++ List.replicate n (byte '0') := by
  have hzeros : t.reverse.takeWhile (· == byte '0') =
      List.replicate (t.reverse.takeWhile (· == byte '0')).length (byte '0') := by
    refine List.eq_replicate_of_mem fun b hb => ?_
    simpa using List.mem_takeWhile_imp hb
  have hcut := congrArg List.reverse
    (List.takeWhile_append_dropWhile (p := (· == byte '0')) (l := t.reverse))
  rw [List.reverse_append, List.reverse_reverse, hzeros, List.reverse_replicate] at hcut
  exact ⟨_, hcut.symm⟩

def number (t : Text) : ℚ :=
  let body := t.takeWhile (· != byte 'e')
  let whole := body.takeWhile (· != byte '.')
  let fraction := (body.dropWhile (· != byte '.')).drop 1
  let exponent : ℤ :=
    match (t.dropWhile (· != byte 'e')).drop 1 with
    | [] => 0
    | sign :: ds => if sign = byte '-' then -(value ds : ℤ) else value ds
  value (whole ++ fraction) * 10 ^ (exponent - fraction.length)

theorem cut_at {mark : UInt8} {w : Text} (h : mark ∉ w) (rest : Text) :
    (w ++ mark :: rest).takeWhile (· != mark) = w ∧
      (w ++ mark :: rest).dropWhile (· != mark) = mark :: rest := by
  have hne : ∀ b ∈ w, (b != mark) = true := by
    intro b hb
    simpa using ne_of_mem_of_not_mem hb h
  have hstop : (mark != mark) = false := by simp
  exact ⟨Lexer.takeWhile_blank (p := (· != mark)) hne hstop rest,
    Lexer.dropWhile_blank (p := (· != mark)) hne hstop rest⟩

theorem cut_at_end {mark : UInt8} {w : Text} (h : mark ∉ w) :
    w.takeWhile (· != mark) = w ∧ w.dropWhile (· != mark) = [] := by
  have hne : ∀ b ∈ w, (b != mark) = true := by
    intro b hb
    simpa using ne_of_mem_of_not_mem hb h
  exact ⟨List.takeWhile_eq_self_iff.mpr hne, List.dropWhile_eq_nil_iff.mpr hne⟩

theorem number_whole {w : Text} (hexp : byte 'e' ∉ w) (hpoint : byte '.' ∉ w) :
    number w = value w := by
  simp only [number, (cut_at_end hexp).1, (cut_at_end hexp).2, (cut_at_end hpoint).1,
    (cut_at_end hpoint).2, List.drop_nil, List.append_nil, List.length_nil, Nat.cast_zero, sub_zero,
    zpow_zero, mul_one]

theorem number_fraction {w f : Text} (hexp : byte 'e' ∉ w ++ byte '.' :: f)
    (hpoint : byte '.' ∉ w) :
    number (w ++ byte '.' :: f) = value (w ++ f) * 10 ^ (-(f.length : ℤ)) := by
  simp only [number, (cut_at_end hexp).1, (cut_at_end hexp).2, (cut_at hpoint f).1,
    (cut_at hpoint f).2, List.drop_nil, List.drop_succ_cons, List.drop_zero, zero_sub]

theorem number_exponent {body : Text} (hexp : byte 'e' ∉ body) (sign : UInt8) (ds : Text) :
    number (body ++ byte 'e' :: sign :: ds) =
      number body * 10 ^ (if sign = byte '-' then -(value ds : ℤ) else value ds) := by
  simp only [number, (cut_at_end hexp).1, (cut_at_end hexp).2, (cut_at hexp (sign :: ds)).1,
    (cut_at hexp (sign :: ds)).2, List.drop_nil, List.drop_succ_cons, List.drop_zero]
  rw [mul_assoc, ← zpow_add₀ (by norm_num)]
  congr 2
  ring

end Text

namespace Binary32

open Text (byte number)

theorem not_mem_digits {ds : Text} (h : ∀ b ∈ ds, Text.isDigit b) {mark : UInt8}
    (hmark : Text.isDigit mark = false) : mark ∉ ds := by
  intro hmem
  simpa [hmark] using h mark hmem

def significand : Text → Text
  | [] => []
  | [b] => [b]
  | b :: rest => b :: byte '.' :: rest

theorem number_significand {ds : Text} (hne : ds ≠ []) (h : ∀ b ∈ ds, Text.isDigit b) :
    byte 'e' ∉ significand ds ∧
      number (significand ds) = Text.value ds * 10 ^ (1 - (ds.length : ℤ)) := by
  have hmarks : Text.isDigit (byte 'e') = false ∧ Text.isDigit (byte '.') = false ∧
      byte 'e' ≠ byte '.' := by decide
  have hexp := not_mem_digits h hmarks.1
  have hpoint := not_mem_digits h hmarks.2.1
  cases ds with
  | nil => exact absurd rfl hne
  | cons b rest =>
    cases rest with
    | nil =>
      refine ⟨hexp, ?_⟩
      rw [significand, Text.number_whole hexp hpoint]
      simp
    | cons c rest =>
      have hmark : byte 'e' ∉ [b] ++ byte '.' :: c :: rest := by
        simp only [List.mem_cons, not_or, List.singleton_append] at hexp ⊢
        exact ⟨hexp.1, hmarks.2.2, hexp.2⟩
      have hfirst : byte '.' ∉ [b] := by
        rw [List.mem_singleton]
        exact List.ne_of_not_mem_cons hpoint
      have hlength : 1 - ((b :: c :: rest).length : ℤ) = -((c :: rest).length : ℤ) := by
        simp only [List.length_cons]
        omega
      refine ⟨hmark, ?_⟩
      rw [hlength]
      exact Text.number_fraction hmark hfirst

section Layout

variable {ds : Text} (hds : ∀ b ∈ ds, Text.isDigit b)

include hds

theorem number_scientific (hne : ds ≠ []) (first : ℤ) (zeros : ℕ) :
    number (significand ds ++ [byte 'e', byte (if first < 0 then '-' else '+')] ++
        List.replicate zeros (byte '0') ++ Text.decimal first.natAbs) =
      Text.value ds * 10 ^ (first + 1 - (ds.length : ℤ)) := by
  obtain ⟨hexp, hnumber⟩ := number_significand hne hds
  have hplus : byte '+' ≠ byte '-' := by decide
  have hexponent : (if byte (if first < 0 then '-' else '+') = byte '-' then
      -(first.natAbs : ℤ) else first.natAbs) = first := by
    by_cases hfirst : first < 0
    · rw [if_pos hfirst, if_pos rfl]
      omega
    · rw [if_neg hfirst, if_neg hplus]
      omega
  rw [List.append_assoc, List.append_assoc, List.cons_append, List.cons_append, List.nil_append,
    Text.number_exponent hexp, Text.value_zeros_append, Text.value_decimal, hexponent, hnumber, mul_assoc,
    ← zpow_add₀ (by norm_num)]
  congr 2
  ring

theorem number_below_one {first : ℤ} (hfirst : first < 0) :
    number ("0." ++ List.replicate (first.natAbs - 1) (byte '0') ++ ds) =
      Text.value ds * 10 ^ (first + 1 - (ds.length : ℤ)) := by
  have htext : "0." ++ List.replicate (first.natAbs - 1) (byte '0') ++ ds =
      List.replicate 1 (byte '0') ++
        byte '.' :: (List.replicate (first.natAbs - 1) (byte '0') ++ ds) := by
    rw [Text.ofString_ofList]
    rfl
  have hexp : byte 'e' ∉ List.replicate 1 (byte '0') ++
      byte '.' :: (List.replicate (first.natAbs - 1) (byte '0') ++ ds) := by
    have hzero : byte 'e' ≠ byte '0' ∧ byte 'e' ≠ byte '.' := by decide
    have hdigits : byte 'e' ∉ ds := not_mem_digits hds (by decide)
    simp [List.mem_append, List.mem_replicate, hzero, hdigits]
  have hlength : -((List.replicate (first.natAbs - 1) (byte '0') ++ ds).length : ℤ) =
      first + 1 - (ds.length : ℤ) := by
    rw [List.length_append, List.length_replicate]
    omega
  rw [htext, Text.number_fraction hexp (by decide), Text.value_zeros_append,
    Text.value_zeros_append, hlength]

theorem number_in_place {first : ℤ} (hfirst : 0 ≤ first) :
    number (ds.take (first.toNat + 1) ++
        List.replicate (first.toNat + 1 - (ds.take (first.toNat + 1)).length) (byte '0') ++
        (if (ds.drop (first.toNat + 1)).isEmpty then []
          else byte '.' :: ds.drop (first.toNat + 1))) =
      Text.value ds * 10 ^ (first + 1 - (ds.length : ℤ)) := by
  have hexp : byte 'e' ∉ ds := not_mem_digits hds (by decide)
  have hpoint : byte '.' ∉ ds := not_mem_digits hds (by decide)
  by_cases hle : ds.length ≤ first.toNat + 1
  · -- The digits end before the point: zeros fill up the places.
    have hzero : byte 'e' ≠ byte '0' ∧ byte '.' ≠ byte '0' := by decide
    have hexponent : first + 1 - (ds.length : ℤ) = ((first.toNat + 1 - ds.length : ℕ) : ℤ) := by
      omega
    rw [List.take_of_length_le hle, List.drop_eq_nil_of_le hle, List.isEmpty_nil, if_pos rfl,
      List.append_nil, Text.number_whole, Text.value_append_zeros, hexponent, zpow_natCast]
    · push_cast
      rfl
    · simp [List.mem_append, List.mem_replicate, hzero, hexp]
    · simp [List.mem_append, List.mem_replicate, hzero, hpoint]
  · have hdrop : ds.drop (first.toNat + 1) ≠ [] := by
      intro hnil
      exact hle (List.drop_eq_nil_iff.mp hnil)
    have hwidth : (ds.take (first.toNat + 1)).length = first.toNat + 1 := by
      rw [List.length_take]
      omega
    have hmark : byte 'e' ∉ ds.take (first.toNat + 1) ++ byte '.' :: ds.drop (first.toNat + 1) := by
      have hne : byte 'e' ≠ byte '.' := by decide
      rw [List.mem_append, List.mem_cons]
      rintro (hm | hm | hm)
      · exact hexp (List.mem_of_mem_take hm)
      · exact hne hm
      · exact hexp (List.mem_of_mem_drop hm)
    have hexponent : -((ds.drop (first.toNat + 1)).length : ℤ) = first + 1 - (ds.length : ℤ) := by
      rw [List.length_drop]
      omega
    rw [hwidth, Nat.sub_self, List.replicate_zero, List.append_nil,
      if_neg (by simpa using hdrop), Text.number_fraction hmark, List.take_append_drop, hexponent]
    exact fun hm => hpoint (List.mem_of_mem_take hm)

end Layout

theorem number_render (f : Format) {d : Decimal} (h : 0 < d.digits) :
    number (f.render d) = d.toRat := by
  obtain ⟨n, hn⟩ := Text.dropTrailing_zeros (Text.decimal d.digits)
  generalize hds : Text.dropTrailing (· == byte '0') (Text.decimal d.digits) = ds at hn
  have hvalue : d.digits = Text.value ds * 10 ^ n := by
    rw [← Text.value_append_zeros, ← hn, Text.value_decimal]
  have hdigits : ∀ b ∈ ds, Text.isDigit b := by
    intro b hb
    refine Text.isDigit_decimal d.digits b ?_
    rw [hn]
    exact List.mem_append_left _ hb
  have hne : ds ≠ [] := by
    rintro rfl
    rw [hvalue] at h
    simp [Text.value] at h
  have hlength : (Text.decimal d.digits).length = ds.length + n := by
    rw [hn, List.length_append, List.length_replicate]
  have hrat : d.toRat = Text.value ds *
      10 ^ (d.scale + ((Text.decimal d.digits).length : ℤ) - 1 + 1 - (ds.length : ℤ)) := by
    have hexponent : d.scale + ((Text.decimal d.digits).length : ℤ) - 1 + 1 - (ds.length : ℤ) =
        n + d.scale := by omega
    rw [hexponent, zpow_add₀ (by norm_num), Decimal.toRat, hvalue]
    push_cast
    rw [zpow_natCast, mul_assoc]
  rw [hrat, Format.render]
  simp only [hds]
  split
  · exact number_scientific hdigits hne _ _
  · split
    · next hfirst => exact number_below_one hdigits hfirst
    · next hfirst => exact number_in_place hdigits (not_lt.mp hfirst)

theorem render_finite {x : Binary32} (h : x.bits.toNat < infinityBits) :
    x.render = if x.bits.toNat = 0 then Text.ofString "0"
      else plain.render (shortest x.bits.toNat) := by
  have hinf : infinityBits = 2139095040 := rfl
  have hpow : Nat.pow 2 31 = 2147483648 := rfl
  have hmagnitude : x.magnitude = x.bits.toNat := by
    rw [magnitude, hpow]
    omega
  have hsign : x.isNegative = false := by
    rw [isNegative, hpow, decide_eq_false_iff_not]
    omega
  have hover : ¬ infinityBits < x.bits.toNat := by omega
  rw [render, hmagnitude, hsign, if_neg hover, if_neg h.ne]
  simp only [if_neg h.ne, Bool.false_eq_true, if_false]

theorem render_contains {x : Binary32} (h : x.bits.toNat < infinityBits)
    (hpos : 0 < x.bits.toNat) :
    (neighbourhood x.bits.toNat).Contains (number x.render) ∧ number x.render ≠ 0 := by
  obtain ⟨hdigits, hcontains⟩ := shortest_contains hpos
  rw [render_finite h, if_neg hpos.ne', number_render plain hdigits]
  refine ⟨hcontains, ?_⟩
  have : ((shortest x.bits.toNat).digits : ℚ) ≠ 0 := by exact_mod_cast hdigits.ne'
  exact mul_ne_zero this (by positivity)

theorem number_render_zero {x : Binary32} (h : x.bits.toNat = 0) : number x.render = 0 := by
  have hzero : byte 'e' ∉ [byte '0'] ∧ byte '.' ∉ [byte '0'] := by decide
  have htext : Text.ofString "0" = [byte '0'] := by
    rw [Text.ofString_ofList]
    rfl
  rw [render_finite (by rw [h]; decide), if_pos h, htext, Text.number_whole hzero.1 hzero.2]
  exact Nat.cast_zero

theorem render_injective {x y : Binary32} (hx : x.bits.toNat < infinityBits)
    (hy : y.bits.toNat < infinityBits) (h : x.render = y.render) : x = y := by
  have hbits : x.bits.toNat = y.bits.toNat := by
    rcases Nat.eq_zero_or_pos x.bits.toNat with hx0 | hxpos
    · rcases Nat.eq_zero_or_pos y.bits.toNat with hy0 | hypos
      · rw [hx0, hy0]
      · have := (render_contains hy hypos).2
        rw [← h, number_render_zero hx0] at this
        exact absurd rfl this
    · rcases Nat.eq_zero_or_pos y.bits.toNat with hy0 | hypos
      · have := (render_contains hx hxpos).2
        rw [h, number_render_zero hy0] at this
        exact absurd rfl this
      · refine contains_unique (render_contains hx hxpos).1 ?_
        rw [h]
        exact (render_contains hy hypos).1
  cases x
  cases y
  exact congrArg Binary32.mk (UInt32.toNat_inj.mp hbits)

theorem ofDecimal?_finite {t : Text} {x : Binary32} (h : ofDecimal? t = some x) :
    x.bits.toNat < infinityBits := by
  rw [ofDecimal?] at h
  split at h
  · next hlt =>
    cases h
    have hinf : infinityBits = 2139095040 := rfl
    rw [Nat.toUInt32_eq, UInt32.toNat_ofNat']
    omega
  · cases h

end Binary32

end MiniSharp
