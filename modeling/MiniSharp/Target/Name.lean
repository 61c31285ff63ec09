import MiniSharp.Text.Basic

namespace MiniSharp.Target

def keywords : List Text := List.map Text.ofString
  [ "abstract", "as", "base", "bool", "break", "byte", "case", "catch", "char", "checked",
    "class", "const", "continue", "decimal", "default", "delegate", "do", "double", "else", "enum",
    "event", "explicit", "extern", "false", "finally", "fixed", "float", "for", "foreach", "goto",
    "if", "implicit", "in", "int", "interface", "internal", "is", "lock", "long", "namespace",
    "new", "null", "object", "operator", "out", "override", "params", "private", "protected",
    "public", "readonly", "ref", "return", "sbyte", "sealed", "short", "sizeof", "stackalloc",
    "static", "string", "struct", "switch", "this", "throw", "true", "try", "typeof", "uint",
    "ulong", "unchecked", "unsafe", "ushort", "using", "virtual", "void", "volatile", "while" ]

def reserved : List Text :=
  ["Main", "Program", "Runtime", "args", "_", "System", "Console", "CultureInfo", "StreamWriter",
    "MACSLangRuntime"]

instance (name : Text) : Decidable (name ∈ reserved) :=
  inferInstanceAs (Decidable (name ∈ reserved))

def escapeName (name : Text) : Text :=
  if name ∈ keywords then Text.byte '@' :: name else name

def numbered (base : Text) (k : Nat) : Text := base ++ Text.byte '_' :: Text.decimal k

/-- The least number from 1 on whose name is not taken. One of the first numbers is free, as there
are more of them than names taken. -/
def leastFree (base : Text) (used : List Text) : Nat :=
  ((List.range (used.length + 1)).find? fun i => numbered base (i + 1) ∉ used).getD used.length + 1

def freshName (base : Text) (used : List Text) : Text := numbered base (leastFree base used)

def localName (name : Text) (used : List Text) : Text :=
  if escapeName name ∈ used then freshName name used else escapeName name

end MiniSharp.Target
