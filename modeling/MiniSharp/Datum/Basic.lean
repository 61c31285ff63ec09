import MiniSharp.Text.Basic

namespace MiniSharp

inductive Datum
  | symbol (text : Text)
  | string (text : Text)
  | integer (text : Text)
  | ellipsis
  | list (items : List Datum)
  | other (code : Int) (text : Text)

namespace Datum

instance : Inhabited Datum := ⟨ellipsis⟩

def quote (t : Text) : Text :=
  Text.doubleQuote :: t.flatMap body ++ [Text.doubleQuote]
where
  body (b : UInt8) : Text :=
    if b = Text.backslash ∨ b = Text.doubleQuote then [Text.backslash, b] else [b]

mutual

def render : Datum → Text
  | symbol t => t
  | string t => quote t
  | integer t => t
  | ellipsis => "..."
  | list items => Text.byte '(' :: renderItems items ++ [Text.byte ')']
  | other _ _ => "?"

def renderItems : List Datum → Text
  | [] => []
  | [d] => d.render
  | d :: e :: rest => d.render ++ Text.blank :: renderItems (e :: rest)

end

def sort : Datum → Text
  | symbol _ => "symbol"
  | string _ => "string"
  | integer _ => "integer"
  | ellipsis => "ellipsis"
  | list _ => "list"
  | other code _ => "NodeType(" ++ Text.ofInt code ++ ")"

def ofCode (code : Int) (text : Text) (items : List Datum) : Datum :=
  if code = 0 then symbol text
  else if code = 1 then string text
  else if code = 2 then integer text
  else if code = 3 then ellipsis
  else if code = 4 then list items
  else other code text

end Datum

end MiniSharp
