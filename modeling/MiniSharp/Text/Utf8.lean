import MiniSharp.Text.Basic

namespace MiniSharp.Text

inductive Piece
  | point (code : Nat)
  | stray (byte : UInt8)
  deriving DecidableEq, Repr

def Piece.bytes : Piece → Text
  | .point c => encode c
  | .stray b => [b]

def isContinuation (b : UInt8) : Bool := 0x80 ≤ b && b ≤ 0xBF

def codePoint (digits : List Nat) : Nat := digits.foldl (fun n d => 0x40 * n + d) 0

def isPair (a b : UInt8) : Bool := 0xC2 ≤ a && a ≤ 0xDF && isContinuation b

def isTriple (a b c : UInt8) : Bool :=
  0xE0 ≤ a && a ≤ 0xEF && isContinuation b && isContinuation c &&
    !(a == 0xE0 && b < 0xA0) && !(a == 0xED && b > 0x9F)

def isQuadruple (a b c d : UInt8) : Bool :=
  0xF0 ≤ a && a ≤ 0xF4 && isContinuation b && isContinuation c && isContinuation d &&
    !(a == 0xF0 && b < 0x90) && !(a == 0xF4 && b > 0x8F)

/-- The code point of the sequence that `a` opens, with the bytes after it. Overlong forms,
surrogates and code points above U+10FFFF are no sequences. -/
def sequence? (a : UInt8) (t : Text) : Option (Nat × Text) :=
  if a < 0x80 then some (a.toNat, t)
  else match t with
    | [] => none
    | b :: t =>
      if isPair a b then some (codePoint [a.toNat - 0xC0, b.toNat - 0x80], t)
      else match t with
        | [] => none
        | c :: t =>
          if isTriple a b c then
            some (codePoint [a.toNat - 0xE0, b.toNat - 0x80, c.toNat - 0x80], t)
          else match t with
            | [] => none
            | d :: t =>
              if isQuadruple a b c d then
                some (codePoint [a.toNat - 0xF0, b.toNat - 0x80, c.toNat - 0x80, d.toNat - 0x80], t)
              else none

theorem sequence?_length {a : UInt8} {t rest : Text} {c : Nat}
    (h : sequence? a t = some (c, rest)) : rest.length ≤ t.length := by
  unfold sequence? at h
  repeat' split at h
  all_goals simp only [Option.some.injEq, Prod.mk.injEq, reduceCtorEq] at h
  all_goals
    obtain ⟨_, rfl⟩ := h
    grind

def pieces : Text → List Piece
  | [] => []
  | a :: t =>
    match _h : sequence? a t with
    | some (c, rest) => .point c :: pieces rest
    | none => .stray a :: pieces t
termination_by t => t.length
decreasing_by
  · have := sequence?_length _h
    simp only [List.length_cons]
    omega
  · simp

def codePoints (t : Text) : List Nat := (pieces t).map fun
  | .point c => c
  | .stray b => b.toNat

end MiniSharp.Text
