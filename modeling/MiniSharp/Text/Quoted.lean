import MiniSharp.Text.Printable

namespace MiniSharp.Text

def hexDigit (n : Nat) : UInt8 := if n < 10 then (48 + n).toUInt8 else (87 + n).toUInt8

def hex (width n : Nat) : Text :=
  match width with
  | 0 => []
  | width + 1 => hex width (n / 16) ++ [hexDigit (n % 16)]

def controlLetter? (c : Nat) : Option Char :=
  match c with
  | 7 => some 'a'
  | 8 => some 'b'
  | 9 => some 't'
  | 10 => some 'n'
  | 11 => some 'v'
  | 12 => some 'f'
  | 13 => some 'r'
  | _ => none

def escaped (delimiter : UInt8) : Piece → Text
  | .stray b => "\\x" ++ hex 2 b.toNat
  | .point c =>
    if c = delimiter.toNat ∨ c = backslash.toNat then backslash :: encode c
    else if isPrintable c then encode c
    else match controlLetter? c with
      | some letter => [backslash, byte letter]
      | none =>
        if c < 0x80 then "\\x" ++ hex 2 c
        else if c < 0x10000 then "\\u" ++ hex 4 c
        else "\\U" ++ hex 8 c

def quoted (t : Text) : Text :=
  doubleQuote :: (pieces t).flatMap (escaped doubleQuote) ++ [doubleQuote]

def quotedPoint (c : Nat) : Text := singleQuote :: escaped singleQuote (.point c) ++ [singleQuote]

end MiniSharp.Text
