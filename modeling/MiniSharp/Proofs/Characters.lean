import MiniSharp.Text.Utf8
import Mathlib.Tactic.SplitIfs

namespace MiniSharp.Text

theorem isContinuation_iff {b : UInt8} :
    isContinuation b = true ↔ 0x80 ≤ b.toNat ∧ b.toNat ≤ 0xBF := by
  simp [isContinuation, UInt8.le_iff_toNat_le]

theorem isPair_iff {a b : UInt8} :
    isPair a b = true ↔ (0xC2 ≤ a.toNat ∧ a.toNat ≤ 0xDF) ∧ 0x80 ≤ b.toNat ∧ b.toNat ≤ 0xBF := by
  simp [isPair, isContinuation_iff, UInt8.le_iff_toNat_le]

theorem isTriple_iff {a b c : UInt8} :
    isTriple a b c = true ↔ (0xE0 ≤ a.toNat ∧ a.toNat ≤ 0xEF) ∧
      (0x80 ≤ b.toNat ∧ b.toNat ≤ 0xBF) ∧ (0x80 ≤ c.toNat ∧ c.toNat ≤ 0xBF) ∧
      (a.toNat ≠ 0xE0 ∨ 0xA0 ≤ b.toNat) ∧ (a.toNat ≠ 0xED ∨ b.toNat ≤ 0x9F) := by
  simp [isTriple, isContinuation_iff, UInt8.le_iff_toNat_le, UInt8.lt_iff_toNat_lt,
    ← UInt8.toNat_inj, and_assoc]

theorem isQuadruple_iff {a b c d : UInt8} :
    isQuadruple a b c d = true ↔ (0xF0 ≤ a.toNat ∧ a.toNat ≤ 0xF4) ∧
      (0x80 ≤ b.toNat ∧ b.toNat ≤ 0xBF) ∧ (0x80 ≤ c.toNat ∧ c.toNat ≤ 0xBF) ∧
      (0x80 ≤ d.toNat ∧ d.toNat ≤ 0xBF) ∧
      (a.toNat ≠ 0xF0 ∨ 0x90 ≤ b.toNat) ∧ (a.toNat ≠ 0xF4 ∨ b.toNat ≤ 0x8F) := by
  simp [isQuadruple, isContinuation_iff, UInt8.le_iff_toNat_le, UInt8.lt_iff_toNat_lt,
    ← UInt8.toNat_inj, and_assoc]

theorem toNat_valid (c : Char) : c.toNat.isValidChar := c.valid

theorem encode_char (c : Char) : encode c.toNat = String.utf8EncodeChar c := by
  have hc := toNat_valid c
  have hv : c.val.toNat = c.toNat := rfl
  unfold encode String.utf8EncodeChar
  simp only [hv]
  generalize c.toNat = n at *
  unfold Nat.isValidChar at hc
  split_ifs <;> try omega
  all_goals simp [← UInt8.toNat_inj]
  all_goals try omega

theorem toUInt8_eq {n : Nat} {b : UInt8} (h : n = b.toNat) : n.toUInt8 = b := by
  rw [h]
  exact UInt8.ofNat_toNat

theorem pair_encode {a b : UInt8} (h : isPair a b = true) :
    (codePoint [a.toNat - 0xC0, b.toNat - 0x80]).isValidChar ∧
      encode (codePoint [a.toNat - 0xC0, b.toNat - 0x80]) = [a, b] := by
  rw [isPair_iff] at h
  have hn : codePoint [a.toNat - 0xC0, b.toNat - 0x80] =
      0x40 * (a.toNat - 0xC0) + (b.toNat - 0x80) := by simp [codePoint]
  rw [hn]
  generalize hm : 0x40 * (a.toNat - 0xC0) + (b.toNat - 0x80) = n
  refine ⟨Or.inl (by omega), ?_⟩
  rw [encode, if_neg (by omega), if_pos (by omega), toUInt8_eq (b := a) (by omega),
    toUInt8_eq (b := b) (by omega)]

theorem triple_encode {a b c : UInt8} (h : isTriple a b c = true) :
    (codePoint [a.toNat - 0xE0, b.toNat - 0x80, c.toNat - 0x80]).isValidChar ∧
      encode (codePoint [a.toNat - 0xE0, b.toNat - 0x80, c.toNat - 0x80]) = [a, b, c] := by
  rw [isTriple_iff] at h
  have hn : codePoint [a.toNat - 0xE0, b.toNat - 0x80, c.toNat - 0x80] =
      0x40 * (0x40 * (a.toNat - 0xE0) + (b.toNat - 0x80)) + (c.toNat - 0x80) := by simp [codePoint]
  rw [hn]
  generalize hm : 0x40 * (0x40 * (a.toNat - 0xE0) + (b.toNat - 0x80)) + (c.toNat - 0x80) = n
  constructor
  · unfold Nat.isValidChar
    omega
  · rw [encode, if_neg (by omega), if_neg (by omega), if_pos (by omega),
      toUInt8_eq (b := a) (by omega), toUInt8_eq (b := b) (by omega),
      toUInt8_eq (b := c) (by omega)]

theorem quadruple_encode {a b c d : UInt8} (h : isQuadruple a b c d = true) :
    (codePoint [a.toNat - 0xF0, b.toNat - 0x80, c.toNat - 0x80, d.toNat - 0x80]).isValidChar ∧
      encode (codePoint [a.toNat - 0xF0, b.toNat - 0x80, c.toNat - 0x80, d.toNat - 0x80]) =
        [a, b, c, d] := by
  rw [isQuadruple_iff] at h
  have hn : codePoint [a.toNat - 0xF0, b.toNat - 0x80, c.toNat - 0x80, d.toNat - 0x80] =
      0x40 * (0x40 * (0x40 * (a.toNat - 0xF0) + (b.toNat - 0x80)) + (c.toNat - 0x80)) +
        (d.toNat - 0x80) := by simp [codePoint]
  rw [hn]
  generalize hm : 0x40 * (0x40 * (0x40 * (a.toNat - 0xF0) + (b.toNat - 0x80)) +
    (c.toNat - 0x80)) + (d.toNat - 0x80) = n
  constructor
  · unfold Nat.isValidChar
    omega
  · rw [encode, if_neg (by omega), if_neg (by omega), if_neg (by omega),
      toUInt8_eq (b := a) (by omega), toUInt8_eq (b := b) (by omega),
      toUInt8_eq (b := c) (by omega),
      toUInt8_eq (b := d) (by omega)]

theorem sequence?_sound {a : UInt8} {t rest : Text} {n : Nat}
    (h : sequence? a t = some (n, rest)) : n.isValidChar ∧ a :: t = encode n ++ rest := by
  unfold sequence? at h
  split at h
  · next hlow =>
    rw [UInt8.lt_iff_toNat_lt] at hlow
    simp only [Option.some.injEq, Prod.mk.injEq] at h
    obtain ⟨rfl, rfl⟩ := h
    refine ⟨Or.inl (Nat.lt_trans hlow (by decide)), ?_⟩
    rw [encode_ascii hlow, toUInt8_eq rfl, List.singleton_append]
  · repeat' split at h
    all_goals simp only [Option.some.injEq, Prod.mk.injEq, reduceCtorEq] at h
    all_goals obtain ⟨rfl, rfl⟩ := h
    · next hp => exact ⟨(pair_encode hp).1, by rw [(pair_encode hp).2]; rfl⟩
    · next hp => exact ⟨(triple_encode hp).1, by rw [(triple_encode hp).2]; rfl⟩
    · next hp => exact ⟨(quadruple_encode hp).1, by rw [(quadruple_encode hp).2]; rfl⟩

theorem sequence?_ascii {a : UInt8} {t : Text} (h : a.toNat < 0x80) :
    sequence? a t = some (a.toNat, t) :=
  if_pos (UInt8.lt_iff_toNat_lt.mpr h)

theorem not_ascii {a : UInt8} (h : 0x80 ≤ a.toNat) : ¬a < 0x80 := by
  rw [UInt8.lt_iff_toNat_lt]
  exact Nat.not_lt.mpr h

theorem sequence?_pair {a b : UInt8} {t : Text} (h : isPair a b = true) :
    sequence? a (b :: t) = some (codePoint [a.toNat - 0xC0, b.toNat - 0x80], t) := by
  have ha := isPair_iff.mp h
  exact (if_neg (not_ascii (by omega))).trans (if_pos h)

theorem sequence?_triple {a b c : UInt8} {t : Text} (h : isTriple a b c = true) :
    sequence? a (b :: c :: t) =
      some (codePoint [a.toNat - 0xE0, b.toNat - 0x80, c.toNat - 0x80], t) := by
  have ha := isTriple_iff.mp h
  have hp : ¬isPair a b = true := by
    rw [isPair_iff]
    omega
  exact (if_neg (not_ascii (by omega))).trans ((if_neg hp).trans (if_pos h))

theorem sequence?_quadruple {a b c d : UInt8} {t : Text} (h : isQuadruple a b c d = true) :
    sequence? a (b :: c :: d :: t) =
      some (codePoint [a.toNat - 0xF0, b.toNat - 0x80, c.toNat - 0x80, d.toNat - 0x80], t) := by
  have ha := isQuadruple_iff.mp h
  have hp : ¬isPair a b = true := by
    rw [isPair_iff]
    omega
  have ht : ¬isTriple a b c = true := by
    rw [isTriple_iff]
    omega
  exact (if_neg (not_ascii (by omega))).trans ((if_neg hp).trans ((if_neg ht).trans (if_pos h)))

theorem toNat_toUInt8 {n : Nat} (h : n < 0x100) : n.toUInt8.toNat = n := UInt8.toNat_ofNat_of_lt' h

theorem sequence?_encode {n : Nat} (h : n.isValidChar) (rest : Text) :
    ∃ a t, encode n ++ rest = a :: t ∧ sequence? a t = some (n, rest) := by
  unfold Nat.isValidChar at h
  unfold encode
  split_ifs with hone htwo hthree
  · have ha := toNat_toUInt8 (n := n) (by omega)
    refine ⟨_, _, rfl, ?_⟩
    rw [sequence?_ascii (by omega), ha]
    rfl
  · have ha := toNat_toUInt8 (n := 0xC0 + n / 0x40) (by omega)
    have hb := toNat_toUInt8 (n := 0x80 + n % 0x40) (by omega)
    refine ⟨_, _, rfl, (sequence?_pair ?_).trans ?_⟩
    · rw [isPair_iff, ha, hb]
      omega
    · rw [ha, hb]
      simp only [codePoint, List.foldl_cons, List.foldl_nil, Option.some.injEq, Prod.mk.injEq]
      exact ⟨by omega, rfl⟩
  · have ha := toNat_toUInt8 (n := 0xE0 + n / 0x1000) (by omega)
    have hb := toNat_toUInt8 (n := 0x80 + n / 0x40 % 0x40) (by omega)
    have hc := toNat_toUInt8 (n := 0x80 + n % 0x40) (by omega)
    refine ⟨_, _, rfl, (sequence?_triple ?_).trans ?_⟩
    · rw [isTriple_iff, ha, hb, hc]
      omega
    · rw [ha, hb, hc]
      simp only [codePoint, List.foldl_cons, List.foldl_nil, Option.some.injEq, Prod.mk.injEq]
      exact ⟨by omega, rfl⟩
  · have ha := toNat_toUInt8 (n := 0xF0 + n / 0x40000) (by omega)
    have hb := toNat_toUInt8 (n := 0x80 + n / 0x1000 % 0x40) (by omega)
    have hc := toNat_toUInt8 (n := 0x80 + n / 0x40 % 0x40) (by omega)
    have hd := toNat_toUInt8 (n := 0x80 + n % 0x40) (by omega)
    refine ⟨_, _, rfl, (sequence?_quadruple ?_).trans ?_⟩
    · rw [isQuadruple_iff, ha, hb, hc, hd]
      omega
    · rw [ha, hb, hc, hd]
      simp only [codePoint, List.foldl_cons, List.foldl_nil, Option.some.injEq, Prod.mk.injEq]
      exact ⟨by omega, rfl⟩

theorem codePoints_of_some {a : UInt8} {t rest : Text} {n : Nat}
    (h : sequence? a t = some (n, rest)) : codePoints (a :: t) = n :: codePoints rest := by
  unfold codePoints
  rw [pieces]
  split
  · next m u hu =>
    obtain ⟨rfl, rfl⟩ := Prod.mk.inj (Option.some.inj (hu.symm.trans h))
    rfl
  · next hu => cases hu.symm.trans h

theorem codePoints_of_none {a : UInt8} {t : Text} (h : sequence? a t = none) :
    codePoints (a :: t) = a.toNat :: codePoints t := by
  unfold codePoints
  rw [pieces]
  split
  · next hu => cases hu.symm.trans h
  · rfl

theorem exists_char {a : UInt8} {t rest : Text} {n : Nat} (h : sequence? a t = some (n, rest)) :
    ∃ c : Char, c.toNat = n ∧ String.utf8EncodeChar c ++ rest = a :: t := by
  obtain ⟨hn, ht⟩ := sequence?_sound h
  have hc : (Char.ofNatAux n hn).toNat = n := rfl
  exact ⟨Char.ofNatAux n hn, hc, by rw [← encode_char, hc, ht]⟩

/-- How bytes read as characters: an encoded character as itself, and a byte that starts no encoded
character as the character of its number. -/
inductive Decodes : Text → List Char → Prop
  | nil : Decodes [] []
  | encoded {c : Char} {rest : Text} {cs : List Char} :
    Decodes rest cs → Decodes (String.utf8EncodeChar c ++ rest) (c :: cs)
  | stray {b : UInt8} {rest : Text} {cs : List Char} :
    (∀ c : Char, ¬String.utf8EncodeChar c <+: b :: rest) → Decodes rest cs →
      Decodes (b :: rest) (Char.ofUInt8 b :: cs)

theorem sequence?_eq_none {b : UInt8} {rest : Text} :
    sequence? b rest = none ↔ ∀ c : Char, ¬String.utf8EncodeChar c <+: b :: rest := by
  constructor
  · rintro h c ⟨more, hmore⟩
    obtain ⟨a, t, ht, hs⟩ := sequence?_encode (toNat_valid c) more
    obtain ⟨rfl, rfl⟩ := List.cons.inj (ht.symm.trans (encode_char c ▸ hmore))
    cases h.symm.trans hs
  · intro h
    cases hs : sequence? b rest with
    | none => rfl
    | some found =>
      obtain ⟨c, -, hc⟩ := exists_char hs
      exact absurd ⟨found.2, hc⟩ (h c)

theorem codePoints_of_decodes {t : Text} {cs : List Char} (h : Decodes t cs) :
    codePoints t = cs.map Char.toNat := by
  induction h with
  | nil => rw [codePoints, pieces, List.map_nil, List.map_nil]
  | @encoded c rest cs _ ih =>
    obtain ⟨a, t, ht, hs⟩ := sequence?_encode (toNat_valid c) rest
    rw [← encode_char, ht, codePoints_of_some hs, ih, List.map_cons]
  | @stray b rest cs hstray _ ih =>
    rw [codePoints_of_none (sequence?_eq_none.mpr hstray), ih, List.map_cons]
    rfl

theorem exists_decodes (t : Text) : ∃ cs, Decodes t cs := by
  fun_induction pieces t with
  | case1 => exact ⟨[], .nil⟩
  | case2 a t n rest hs ih =>
    obtain ⟨c, -, hc⟩ := exists_char hs
    obtain ⟨cs, hcs⟩ := ih
    exact ⟨c :: cs, hc ▸ .encoded hcs⟩
  | case3 a t hs ih =>
    obtain ⟨cs, hcs⟩ := ih
    exact ⟨Char.ofUInt8 a :: cs, .stray (sequence?_eq_none.mp hs) hcs⟩

theorem decodes_unique {t : Text} {cs ds : List Char} (hc : Decodes t cs) (hd : Decodes t ds) :
    cs = ds :=
  (List.map_inj_right fun _ _ => Char.toNat_inj.mp).mp
    ((codePoints_of_decodes hc).symm.trans (codePoints_of_decodes hd))

theorem ofString_chars (cs : List Char) :
    ofString (String.ofList cs) = cs.flatMap String.utf8EncodeChar := by
  rw [ofString_ofList]
  exact congrArg (cs.flatMap ·) (funext encode_char)

def IsControl (c : Char) : Prop := c.toNat < 0x20 ∨ 0x7F ≤ c.toNat ∧ c.toNat ≤ 0x9F

instance (c : Char) : Decidable (IsControl c) := inferInstanceAs (Decidable (_ ∨ _ ∧ _))

def Clean (t : Text) : Prop :=
  ∃ cs : List Char, t = cs.flatMap String.utf8EncodeChar ∧ ∀ c ∈ cs, ¬IsControl c

theorem Clean.nil : Clean [] := ⟨[], rfl, by simp⟩

theorem Clean.append {s t : Text} (hs : Clean s) (ht : Clean t) : Clean (s ++ t) := by
  obtain ⟨cs, rfl, hcs⟩ := hs
  obtain ⟨ds, rfl, hds⟩ := ht
  exact ⟨cs ++ ds, List.flatMap_append.symm, List.forall_mem_append.mpr ⟨hcs, hds⟩⟩

theorem Clean.flatten {ts : List Text} (h : ∀ t ∈ ts, Clean t) : Clean ts.flatten := by
  induction ts with
  | nil => exact .nil
  | cons t ts ih =>
    obtain ⟨ht, hts⟩ := List.forall_mem_cons.mp h
    exact ht.append (ih hts)

theorem clean_ofList {cs : List Char} (h : cs.any (IsControl ·) = false) :
    Clean (ofString (String.ofList cs)) := by
  refine ⟨cs, ofString_chars cs, fun c hc => ?_⟩
  simpa using List.any_eq_false.mp h c hc

theorem clean_byte {b : UInt8} (h : 0x20 ≤ b.toNat ∧ b.toNat < 0x7F) : Clean [b] := by
  have hc : (Char.ofUInt8 b).toNat = b.toNat := rfl
  refine ⟨[Char.ofUInt8 b], ?_, ?_⟩
  · rw [List.flatMap_singleton, ← encode_char, hc, encode_ascii (by omega), toUInt8_eq rfl]
  · intro c hmem
    rw [List.mem_singleton.mp hmem, IsControl, hc]
    omega

theorem clean_of_printable {t : Text} (h : ∀ b ∈ t, 0x20 ≤ b.toNat ∧ b.toNat < 0x7F) :
    Clean t := by
  induction t with
  | nil => exact .nil
  | cons b t ih =>
    obtain ⟨hb, ht⟩ := List.forall_mem_cons.mp h
    exact (clean_byte hb).append (ih ht)

theorem high_of_mem_encode {n : Nat} (h : 0x80 ≤ n) (hn : n < 0x110000) :
    ∀ b ∈ encode n, 0x80 ≤ b.toNat := by
  have hhigh : ∀ {k : Nat}, 0x80 ≤ k ∧ k < 0x100 → 0x80 ≤ k.toUInt8.toNat := by
    intro k hk
    rw [toNat_toUInt8 hk.2]
    exact hk.1
  unfold encode
  split_ifs with hone htwo hthree
  · omega
  all_goals simp only [List.forall_mem_cons]
  · exact ⟨hhigh (by omega), hhigh (by omega), by simp⟩
  · exact ⟨hhigh (by omega), hhigh (by omega), hhigh (by omega), by simp⟩
  · exact ⟨hhigh (by omega), hhigh (by omega), hhigh (by omega), hhigh (by omega), by simp⟩

theorem Clean.newline_not_mem {t : Text} (h : Clean t) : newline ∉ t := by
  obtain ⟨cs, rfl, hcs⟩ := h
  intro hmem
  obtain ⟨c, hc, hb⟩ := List.mem_flatMap.mp hmem
  have hvalid := toNat_valid c
  unfold Nat.isValidChar at hvalid
  rw [← encode_char] at hb
  by_cases hlow : c.toNat < 0x80
  · rw [encode_ascii hlow, List.mem_singleton] at hb
    have hten := congrArg UInt8.toNat hb
    rw [toNat_toUInt8 (by omega)] at hten
    refine hcs c hc (Or.inl ?_)
    rw [← hten]
    decide
  · have := high_of_mem_encode (by omega) (by omega) _ hb
    exact absurd this (by decide)

end MiniSharp.Text
