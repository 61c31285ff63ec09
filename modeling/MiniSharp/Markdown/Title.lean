import MiniSharp.Markdown.Html

namespace MiniSharp.Markdown

def endsLine (t : Text) : Bool :=
  t.head? == some Text.newline || t.take 2 == [Text.carriageReturn, Text.newline]

/-- The text from a place on. Before it stand `gap`, the white space since the last character, and
`last`, the byte before; that byte is `escaping` if it is a backslash that counts. -/
def titleFrom (escaping : Bool) (last : Option UInt8) (gap : Text) (t : Text) : Text :=
  match t with
  | [] => []
  | b :: rest =>
    if b = Text.newline then titleFrom escaping none [] rest
    else if isSpace b then titleFrom false (some b) (gap ++ [b]) rest
    else if b = Text.backslash && last != some Text.backslash && endsLine rest then
      gap ++ titleFrom false none [] rest
    else if b = Text.byte '<' && !escaping then
      match Html.bracketed? rest with
      | none => gap ++ b :: titleFrom false (some b) [] rest
      | some after =>
        if after.length ≤ rest.length then gap ++ titleFrom false none [] after
        else gap ++ b :: titleFrom false (some b) [] rest
    else gap ++ b :: titleFrom (b == Text.backslash && !escaping) (some b) [] rest
termination_by t.length

def title (t : Text) : Text := titleFrom false none [] t

end MiniSharp.Markdown
