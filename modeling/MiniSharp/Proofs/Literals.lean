import MiniSharp.Analysis.Lowering
import MiniSharp.Proofs.Characters

namespace MiniSharp.Target

open MiniSharp.Text (byte IsControl)

def hexValue? (c : Char) : Option Nat :=
  if '0' ≤ c ∧ c ≤ '9' then some (c.toNat - '0'.toNat)
  else if 'a' ≤ c ∧ c ≤ 'f' then some (c.toNat - 'a'.toNat + 10)
  else if 'A' ≤ c ∧ c ≤ 'F' then some (c.toNat - 'A'.toNat + 10)
  else none

def unicode? (digits : List Char) : Option Char := do
  let n ← digits.foldlM (fun n c => (hexValue? c).map (16 * n + ·)) 0
  if n.isValidChar then some (Char.ofNat n) else none

def letters (quote : Char) : List (Char × Char) :=
  [('\x5c', '\x5c'), ('n', '\n'), ('r', '\r'), ('t', '\t'), ('0', '\x00'), (quote, quote)]

/-- The characters that the text between two quotes stands for. A quote or a backslash that is no
part of an escape is refused. -/
def unescape (quote : Char) : List Char → Option (List Char)
  | [] => some []
  | c :: rest =>
    if c = quote then none
    else if c ≠ '\x5c' then (unescape quote rest).map (c :: ·)
    else match rest with
      | [] => none
      | e :: rest =>
        if e ≠ 'u' then ((letters quote).lookup e).bind fun c => (unescape quote rest).map (c :: ·)
        else match rest with
          | x :: y :: z :: w :: rest =>
            (unicode? [x, y, z, w]).bind fun c => (unescape quote rest).map (c :: ·)
          | _ => none

section Reading

variable {quote : Char}

theorem unescape_plain {c : Char} (hq : c ≠ quote) (hb : c ≠ '\x5c') (rest : List Char) :
    unescape quote (c :: rest) = (unescape quote rest).map (c :: ·) := by
  rw [unescape.eq_def]
  simp only [if_neg hq, if_pos hb]

theorem unescape_letter {e c : Char} (hq : '\x5c' ≠ quote) (he : e ≠ 'u')
    (h : (letters quote).lookup e = some c) (rest : List Char) :
    unescape quote ('\x5c' :: e :: rest) = (unescape quote rest).map (c :: ·) := by
  rw [unescape.eq_def]
  simp only [if_neg hq, ne_eq, not_true_eq_false, if_false, he, not_false_eq_true, if_true, h,
    Option.bind_some]

theorem unescape_unicode {x y z w c : Char} (hq : '\x5c' ≠ quote)
    (h : unicode? [x, y, z, w] = some c) (rest : List Char) :
    unescape quote ('\x5c' :: 'u' :: x :: y :: z :: w :: rest) =
      (unescape quote rest).map (c :: ·) := by
  rw [unescape.eq_def]
  simp only [if_neg hq, ne_eq, not_true_eq_false, if_false, h, Option.bind_some]

end Reading

def hexChar (d : Nat) : Char := Char.ofNat (Text.hexDigit d).toNat

theorem hexChar_spec {d : Nat} (h : d < 16) :
    String.utf8EncodeChar (hexChar d) = [Text.hexDigit d] ∧ hexValue? (hexChar d) = some d ∧
      0x30 ≤ (hexChar d).toNat ∧ (hexChar d).toNat < 0x7F := by
  revert d
  decide +kernel

theorem hex_four (n : Nat) :
    Text.hex 4 n = [Text.hexDigit (n / 16 / 16 / 16 % 16), Text.hexDigit (n / 16 / 16 % 16),
      Text.hexDigit (n / 16 % 16), Text.hexDigit (n % 16)] := rfl

structure Escaped (quote c : Char) (cs : List Char) : Prop where
  printable : ∀ x ∈ cs, ¬IsControl x ∧ x.toNat ≠ 0x2028 ∧ x.toNat ≠ 0x2029
  reads : ∀ rest, unescape quote (cs ++ rest) = (unescape quote rest).map (c :: ·)

variable {quote : Char}

theorem backslash_ne (hq : quote = '\x22' ∨ quote = '\x27') : '\x5c' ≠ quote := by
  rcases hq with rfl | rfl <;> decide

theorem escaped_letter (hq : quote = '\x22' ∨ quote = '\x27') {e c : Char}
    (h : (e, c) ∈ letters quote) : Escaped quote c ['\x5c', e] := by
  have hletters : ∀ p ∈ letters quote, p.1 ≠ 'u' ∧ (letters quote).lookup p.1 = some p.2 ∧
      ¬IsControl p.1 ∧ p.1.toNat ≠ 0x2028 ∧ p.1.toNat ≠ 0x2029 := by
    rcases hq with rfl | rfl <;> decide +kernel
  obtain ⟨hu, hlookup, hprintable⟩ := hletters _ h
  constructor
  · intro x hx
    rcases List.mem_cons.mp hx with rfl | hx
    · decide
    · rw [List.mem_singleton.mp hx]
      exact hprintable
  · exact unescape_letter (backslash_ne hq) hu hlookup

theorem escaped_unicode (hq : quote = '\x22' ∨ quote = '\x27') {c : Char} (h : c.toNat < 0x10000) :
    ∃ cs, "\\u" ++ Text.hex 4 c.toNat = cs.flatMap String.utf8EncodeChar ∧ Escaped quote c cs := by
  obtain ⟨ex, hx, px⟩ := hexChar_spec (d := c.toNat / 16 / 16 / 16 % 16) (by omega)
  obtain ⟨ey, hy, py⟩ := hexChar_spec (d := c.toNat / 16 / 16 % 16) (by omega)
  obtain ⟨ez, hz, pz⟩ := hexChar_spec (d := c.toNat / 16 % 16) (by omega)
  obtain ⟨ew, hw, pw⟩ := hexChar_spec (d := c.toNat % 16) (by omega)
  refine ⟨['\x5c', 'u'] ++ [hexChar (c.toNat / 16 / 16 / 16 % 16), hexChar (c.toNat / 16 / 16 % 16),
    hexChar (c.toNat / 16 % 16), hexChar (c.toNat % 16)], ?_, ?_, ?_⟩
  · have hu : ("\\u" : Text) = ['\x5c', 'u'].flatMap String.utf8EncodeChar :=
      Text.ofString_chars _
    rw [hu, List.flatMap_append, hex_four]
    simp only [List.flatMap_cons, List.flatMap_nil, ex, ey, ez, ew, List.cons_append,
      List.nil_append]
  · unfold IsControl
    simp only [List.cons_append, List.nil_append, List.forall_mem_cons, Char.reduceToNat]
    refine ⟨by omega, by omega, by omega, by omega, by omega, by omega, ?_⟩
    exact fun x hx => absurd hx List.not_mem_nil
  · refine unescape_unicode (backslash_ne hq) ?_
    have hn : 16 * (16 * (16 * (16 * 0 + c.toNat / 16 / 16 / 16 % 16) + c.toNat / 16 / 16 % 16) +
        c.toNat / 16 % 16) + c.toNat % 16 = c.toNat := by omega
    simp only [unicode?, List.foldlM_cons, List.foldlM_nil, hx, hy, hz, hw, Option.map_some,
      Option.pure_def, Option.bind_eq_bind, Option.bind_some, hn]
    rw [if_pos (Text.toNat_valid c), Char.ofNat_toNat]

theorem isControl_iff {c : Char} : isControl c.toNat = true ↔ IsControl c := by
  simp only [isControl, IsControl, Bool.or_eq_true, Bool.and_eq_true, decide_eq_true_eq]
  omega

theorem endsLine_iff {n : Nat} : endsLine n = true ↔ n = 0x2028 ∨ n = 0x2029 := by
  simp [endsLine]

theorem exists_escaped (hq : quote = '\x22' ∨ quote = '\x27') (c : Char) :
    ∃ cs, escape (byte quote) c.toNat = cs.flatMap String.utf8EncodeChar ∧ Escaped quote c cs := by
  have hbyte : (byte quote).toNat = quote.toNat := by rcases hq with rfl | rfl <;> decide
  unfold escape
  split_ifs with hbackslash hn hr ht hzero hquote hnumber
  · obtain rfl : c = '\x5c' := Char.toNat_inj.mp hbackslash
    exact ⟨_, Text.ofString_chars _, escaped_letter hq (by simp [letters])⟩
  · obtain rfl : c = '\n' := Char.toNat_inj.mp hn
    exact ⟨_, Text.ofString_chars _, escaped_letter hq (by simp [letters])⟩
  · obtain rfl : c = '\r' := Char.toNat_inj.mp hr
    exact ⟨_, Text.ofString_chars _, escaped_letter hq (by simp [letters])⟩
  · obtain rfl : c = '\t' := Char.toNat_inj.mp ht
    exact ⟨_, Text.ofString_chars _, escaped_letter hq (by simp [letters])⟩
  · obtain rfl : c = '\x00' := Char.toNat_inj.mp hzero
    exact ⟨_, Text.ofString_chars _, escaped_letter hq (by simp [letters])⟩
  · obtain rfl : c = quote := Char.toNat_inj.mp (hquote.trans hbyte)
    refine ⟨_, ?_, escaped_letter hq (e := c) (by simp [letters])⟩
    rcases hq with rfl | rfl <;> decide
  · refine escaped_unicode hq ?_
    rw [Bool.or_eq_true, isControl_iff, endsLine_iff, IsControl] at hnumber
    omega
  · refine ⟨[c], by rw [Text.encode_char, List.flatMap_singleton], ?_, ?_⟩
    · intro x hx
      rw [List.mem_singleton.mp hx]
      rw [Bool.or_eq_true, isControl_iff, endsLine_iff, not_or, not_or] at hnumber
      exact hnumber
    · refine unescape_plain ?_ ?_
      · rintro rfl
        exact hquote hbyte.symm
      · rintro rfl
        exact hbackslash rfl

theorem exists_body (cs : List Char) :
    ∃ body : List Char, cs.flatMap (fun c => escape Text.doubleQuote c.toNat) =
        body.flatMap String.utf8EncodeChar ∧
      (∀ x ∈ body, ¬IsControl x ∧ x.toNat ≠ 0x2028 ∧ x.toNat ≠ 0x2029) ∧
      unescape '\x22' body = some cs := by
  induction cs with
  | nil => exact ⟨[], rfl, fun x hx => absurd hx List.not_mem_nil, rfl⟩
  | cons c cs ih =>
    obtain ⟨front, hfront, hescaped⟩ := exists_escaped (Or.inl rfl) c
    obtain ⟨body, hbody, hprintable, hreads⟩ := ih
    refine ⟨front ++ body, ?_, ?_, ?_⟩
    · rw [List.flatMap_cons, List.flatMap_append, hbody]
      exact congrArg (· ++ _) hfront
    · intro x hx
      exact (List.mem_append.mp hx).elim (hescaped.printable x) (hprintable x)
    · rw [hescaped.reads, hreads, Option.map_some]

/-- A string is written between quotes, on one line, so that reading its escapes gives the
characters of the value: the encoded ones and, for every other byte, the character of its number. -/
theorem string_literal_reencoded (names : Lowering.Names) (note : Note) (t : Token) (value : Text) :
    ∃ code body cs, Lowering.expr names (.literal note t (.string value)) = .ok code ∧
      code.render =
        Text.doubleQuote :: body.flatMap String.utf8EncodeChar ++ [Text.doubleQuote] ∧
      (∀ c ∈ body, ¬IsControl c ∧ c.toNat ≠ 0x2028 ∧ c.toNat ≠ 0x2029) ∧
      unescape '\x22' body = some cs ∧ ∀ ds, Text.Decodes value ds ↔ ds = cs := by
  obtain ⟨cs, hcs⟩ := Text.exists_decodes value
  obtain ⟨body, hbody, hprintable, hreads⟩ := exists_body cs
  refine ⟨.string value, body, cs, rfl, ?_, hprintable, hreads, fun ds => ⟨?_, ?_⟩⟩
  · rw [Expr.render, stringLiteral, Text.codePoints_of_decodes hcs, List.flatMap_map, hbody]
  · intro hds
    exact Text.decodes_unique hds hcs
  · rintro rfl
    exact hcs

end MiniSharp.Target
