import MiniSharp.Text.Quoted

namespace MiniSharp.Target

def isControl (c : Nat) : Bool := c < 0x20 || (0x7F ≤ c && c < 0xA0)

def endsLine (c : Nat) : Bool := c == 0x2028 || c == 0x2029

def escape (quote : UInt8) (c : Nat) : Text :=
  if c = 0x5C then "\\\\"
  else if c = 0x0A then "\\n"
  else if c = 0x0D then "\\r"
  else if c = 0x09 then "\\t"
  else if c = 0 then "\\0"
  else if c = quote.toNat then [Text.backslash, quote]
  else if isControl c || endsLine c then "\\u" ++ Text.hex 4 c
  else Text.encode c

def charLiteral (value : UInt8) : Text :=
  Text.singleQuote :: escape Text.singleQuote value.toNat ++ [Text.singleQuote]

def stringLiteral (value : Text) : Text :=
  Text.doubleQuote :: value.codePoints.flatMap (escape Text.doubleQuote) ++ [Text.doubleQuote]

end MiniSharp.Target
