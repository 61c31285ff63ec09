import MiniSharp.Text.Utf8

namespace MiniSharp.Text

def isSpaceCode (c : Nat) : Bool :=
  (9 ≤ c && c ≤ 13) || c == 0x20 || c == 0x85 || c == 0xA0 || c == 0x1680 ||
    (0x2000 ≤ c && c ≤ 0x200A) || c == 0x2028 || c == 0x2029 || c == 0x202F || c == 0x205F ||
    c == 0x3000

def Piece.isSpace : Piece → Bool
  | .point c => isSpaceCode c
  | .stray _ => false

def trim (t : Text) : Text :=
  let inner := (pieces t).dropWhile Piece.isSpace
  (inner.reverse.dropWhile Piece.isSpace).reverse.flatMap Piece.bytes

def Piece.columns : Piece → Nat
  | .point c => if c < 0x20 ∨ (0x7F ≤ c ∧ c < 0xA0) then 0 else 1
  | .stray b => if 0xC2 ≤ b ∧ b < 0xF5 then 1 else 0

def width (t : Text) : Nat := (pieces t).foldr (fun p n => p.columns + n) 0

end MiniSharp.Text
