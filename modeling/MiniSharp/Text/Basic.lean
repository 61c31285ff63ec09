/-!
Text is a sequence of bytes. Source files need not be valid UTF-8, columns count bytes, and literals
are carried byte for byte, so bytes are the unit throughout; characters appear only where a rule
speaks of them.
-/

namespace MiniSharp

abbrev Text := List UInt8

namespace Text

def byte (c : Char) : UInt8 := c.toNat.toUInt8

def newline : UInt8 := byte '\n'
def carriageReturn : UInt8 := byte '\r'
def tab : UInt8 := byte '\t'
def blank : UInt8 := byte ' '
def doubleQuote : UInt8 := byte '\x22'
def singleQuote : UInt8 := byte '\x27'
def backslash : UInt8 := byte '\x5c'

def encode (c : Nat) : Text :=
  if c < 0x80 then [c.toUInt8]
  else if c < 0x800 then [(0xC0 + c / 0x40).toUInt8, (0x80 + c % 0x40).toUInt8]
  else if c < 0x10000 then
    [(0xE0 + c / 0x1000).toUInt8, (0x80 + c / 0x40 % 0x40).toUInt8, (0x80 + c % 0x40).toUInt8]
  else
    [(0xF0 + c / 0x40000).toUInt8, (0x80 + c / 0x1000 % 0x40).toUInt8,
      (0x80 + c / 0x40 % 0x40).toUInt8, (0x80 + c % 0x40).toUInt8]

theorem encode_ascii {c : Nat} (h : c < 0x80) : encode c = [c.toUInt8] := if_pos h

theorem encode_ne_nil (c : Nat) : encode c ≠ [] := by
  unfold encode
  split
  · exact List.cons_ne_nil _ _
  · split
    · exact List.cons_ne_nil _ _
    · split <;> exact List.cons_ne_nil _ _

def ofString (s : String) : Text := s.toList.flatMap fun c => encode c.toNat

/-- Spells a literal out, which is evaluated faster than its bytes are decoded. -/
theorem ofString_ofList (cs : List Char) :
    ofString (String.ofList cs) = cs.flatMap fun c => encode c.toNat := by
  rw [ofString, String.toList_ofList]

instance : Coe String Text := ⟨ofString⟩

def isDigit (b : UInt8) : Bool := byte '0' ≤ b && b ≤ byte '9'

def isLetter (b : UInt8) : Bool :=
  (byte 'a' ≤ b && b ≤ byte 'z') || (byte 'A' ≤ b && b ≤ byte 'Z') || b == byte '_'

def decimal (n : Nat) : Text :=
  if n < 10 then [(48 + n).toUInt8] else decimal (n / 10) ++ [(48 + n % 10).toUInt8]

theorem decimal_ne_nil (n : Nat) : decimal n ≠ [] := by
  unfold decimal
  split
  · exact List.cons_ne_nil _ _
  · exact List.append_ne_nil_of_right_ne_nil _ (List.cons_ne_nil _ _)

def ofInt (i : Int) : Text := if i < 0 then byte '-' :: decimal i.natAbs else decimal i.natAbs

def value (digits : Text) : Nat := digits.foldl (fun n b => 10 * n + (b.toNat - 48)) 0

def replaceByte (t : Text) (old : UInt8) (new : Text) : Text :=
  t.flatMap fun b => if b = old then new else [b]

def join (separator : Text) (parts : List Text) : Text := separator.intercalate parts

def lines : Text → List Text
  | [] => [[]]
  | b :: rest =>
    if b = newline then [] :: lines rest
    else
      match lines rest with
      | [] => [[b]]
      | line :: more => (b :: line) :: more

theorem lines_ne_nil (t : Text) : lines t ≠ [] := by
  cases t with
  | nil => exact List.cons_ne_nil _ _
  | cons b rest =>
    unfold lines
    split
    · exact List.cons_ne_nil _ _
    · split <;> exact List.cons_ne_nil _ _

def dropTrailing (p : UInt8 → Bool) (t : Text) : Text := (t.reverse.dropWhile p).reverse

def blanks (n : Nat) : Text := List.replicate n blank

def padRight (width : Nat) (t : Text) : Text := t ++ blanks (width - t.length)

def padLeft (width : Nat) (t : Text) : Text := blanks (width - t.length) ++ t

end Text

end MiniSharp
