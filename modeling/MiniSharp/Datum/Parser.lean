import MiniSharp.Datum.Basic
import MiniSharp.Text.Quoted

namespace MiniSharp

namespace Datum

inductive ReadError
  | endOfText
  | closing (offset : Nat)
  | character (c : UInt8) (offset : Nat)
  | unclosed
  | unterminated
  | badEscape (c : UInt8)
  | trailing (c : UInt8) (offset : Nat)
  deriving DecidableEq, Repr

def ReadError.message : ReadError → Text
  | endOfText => "unexpected token: EOF"
  | closing offset => "unexpected token: ')' at offset " ++ Text.decimal offset
  | character c offset =>
    "unexpected character '" ++ Text.encode c.toNat ++ "' at offset " ++ Text.decimal offset
  | unclosed => "expected ')' but got EOF"
  | unterminated => "unterminated string"
  | badEscape c => "invalid escape sequence: \\" ++ Text.encode c.toNat
  | trailing c offset =>
    "expected EOF but got " ++ Text.quotedPoint c.toNat ++ " at offset " ++ Text.decimal offset

/-- A blank is decided byte by byte; the two above 0x7F are blanks as code points. -/
def isBlank (b : UInt8) : Bool := (9 ≤ b && b ≤ 13) || b == 0x20 || b == 0x85 || b == 0xA0

def skip (inComment : Bool) : Text → Text
  | [] => []
  | b :: rest =>
    if inComment then skip (b != Text.newline) rest
    else if b = Text.byte ';' then skip true rest
    else if isBlank b then skip false rest
    else b :: rest

theorem skip_length (inComment : Bool) (t : Text) : (skip inComment t).length ≤ t.length := by
  induction t generalizing inComment with
  | nil => simp [skip]
  | cons b rest ih =>
    unfold skip
    split
    · exact Nat.le_succ_of_le (ih _)
    · split
      · exact Nat.le_succ_of_le (ih _)
      · split
        · exact Nat.le_succ_of_le (ih _)
        · exact Nat.le_refl _

def startsSymbol (b : UInt8) : Bool :=
  Text.isLetter b || b == Text.byte '+' || b == Text.byte '-'

def isSymbolByte (b : UInt8) : Bool := startsSymbol b || Text.isDigit b

def startsInteger : Text → Bool
  | [] => false
  | b :: rest =>
    Text.isDigit b ||
      ((b == Text.byte '-' || b == Text.byte '+') && (rest.head?.any Text.isDigit))

structure Read (α : Type) (n : Nat) where
  value : α
  rest : Text
  lt : rest.length < n

abbrev Step (α : Type) (n : Nat) := Except ReadError (Read α n)

def stringBody : (t : Text) → Step Text t.length
  | [] => .error .unterminated
  | b :: rest =>
    if b = Text.doubleQuote then .ok ⟨[], rest, by simp⟩
    else if b = Text.backslash then
      match rest with
      | [] => .error .unterminated
      | c :: rest =>
        if c = Text.doubleQuote ∨ c = Text.backslash then do
          let more ← stringBody rest
          return ⟨c :: more.value, more.rest, by
            have := more.lt
            simp only [List.length_cons]
            omega⟩
        else .error (.badEscape c)
    else do
      let more ← stringBody rest
      return ⟨b :: more.value, more.rest, by
        have := more.lt
        simp only [List.length_cons]
        omega⟩

theorem dropWhile_length (p : UInt8 → Bool) (t : Text) : (t.dropWhile p).length ≤ t.length :=
  (List.dropWhile_suffix p).length_le

def run (fits : UInt8 → Bool) (sort : Text → Datum) (b : UInt8) (rest : Text) :
    Read Datum (b :: rest).length :=
  ⟨sort (b :: rest.takeWhile fits), rest.dropWhile fits, by
    have := dropWhile_length fits rest
    simp only [List.length_cons]
    omega⟩

def atom (offset : Nat) (b : UInt8) (rest : Text) : Step Datum (b :: rest).length :=
  if b = Text.byte ')' then .error (.closing offset)
  else if b = Text.doubleQuote then do
    let text ← stringBody rest
    return ⟨.string text.value, text.rest, by
      have := text.lt
      simp only [List.length_cons]
      omega⟩
  else if (b :: rest).take 3 = Text.ofString "..." then
    .ok ⟨.ellipsis, rest.drop 2, by simp only [List.length_drop, List.length_cons]; omega⟩
  else if startsInteger (b :: rest) then .ok (run Text.isDigit .integer b rest)
  else if startsSymbol b then .ok (run isSymbolByte .symbol b rest)
  else .error (.character b offset)

mutual

def read (size : Nat) (t : Text) : Step Datum t.length :=
  match h : skip false t with
  | [] => .error .endOfText
  | b :: rest =>
    have hlen : rest.length + 1 ≤ t.length := by
      have := skip_length false t
      rw [h] at this
      exact this
    if b = Text.byte '(' then do
      let items ← readItems size rest
      return ⟨.list items.value, items.rest, by have := items.lt; omega⟩
    else do
      let d ← atom (size - (b :: rest).length) b rest
      return ⟨d.value, d.rest, by
        have := d.lt
        simp only [List.length_cons] at this
        omega⟩
termination_by 2 * t.length
decreasing_by omega

def readItems (size : Nat) (t : Text) : Step (List Datum) t.length :=
  match h : skip false t with
  | [] => .error .unclosed
  | b :: rest =>
    have hlen : rest.length + 1 ≤ t.length := by
      have := skip_length false t
      rw [h] at this
      exact this
    if b = Text.byte ')' then .ok ⟨[], rest, by omega⟩
    else do
      let first ← read size (b :: rest)
      let more ← readItems size first.rest
      return ⟨first.value :: more.value, more.rest, by
        have := first.lt
        have := more.lt
        simp only [List.length_cons] at *
        omega⟩
termination_by 2 * t.length + 1
decreasing_by
  · simp only [List.length_cons]
    omega
  · have := first.lt
    simp only [List.length_cons] at this
    omega

end

def parse (t : Text) : Except ReadError Datum := do
  let d ← read t.length t
  match skip false d.rest with
  | [] => return d.value
  | b :: rest => throw (.trailing b (t.length - (b :: rest).length))

end Datum

end MiniSharp
