import MiniSharp.Token.Basic

namespace MiniSharp

inductive Ty
  | int | float | char | bool | string
  /-- No type of the language, told apart by its number; 0 marks what has no type. -/
  | other (code : Int)
  deriving DecidableEq, Repr

namespace Ty

def invalid : Ty := other 0

def ofCode (code : Int) : Ty :=
  if code = 1 then int
  else if code = 2 then float
  else if code = 3 then char
  else if code = 4 then bool
  else if code = 5 then string
  else other code

def name : Ty → Text
  | int => "int"
  | float => "float"
  | char => "char"
  | bool => "bool"
  | string => "string"
  | other _ => "invalid"

def ofName (name : Text) : Ty :=
  ([int, float, char, bool, string].find? fun t => t.name == name).getD invalid

def isNumeric : Ty → Bool
  | int | float => true
  | _ => false

def accepts (target source : Ty) : Bool := target == source || (target == float && source == int)

def comparable (a b : Ty) : Bool := (a.isNumeric && b.isNumeric) || (a == b && a != invalid)

def arithmetic (a b : Ty) : Ty := if a = float ∨ b = float then float else int

def ofToken? : TokenKind → Option Ty
  | .keyword .intKw => some int
  | .keyword .floatKw => some float
  | .keyword .charKw => some char
  | .keyword .boolKw => some bool
  | .keyword .stringKw => some string
  | _ => none

end Ty

end MiniSharp
