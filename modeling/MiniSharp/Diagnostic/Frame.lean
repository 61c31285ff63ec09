import MiniSharp.Diagnostic.Basic

namespace MiniSharp.Frame

def startsSequence (b : UInt8) : Bool := b < 0x80 || 0xBF < b

def padding (t : Text) : Text :=
  t.filterMap fun b =>
    if b = Text.tab then some Text.tab
    else if startsSequence b then some Text.blank
    else none

def line? (source : Text) (n : Int) : Option Text :=
  if source = [] ∨ n ≤ 0 then none
  else (source.lines[n.toNat - 1]?).map (Text.dropTrailing (· == Text.carriageReturn))

/-- The frame for a place; nothing if the source has no such line. A column outside the line is
moved to its nearer end. -/
def render (source : Text) (p : Position) : Text :=
  match line? source p.line with
  | none => []
  | some text =>
    let column := min (max p.column 1) (text.length + 1)
    let label := Text.ofInt p.line
    "  --> line " ++ label ++ ", column " ++ Text.ofInt column ++ [Text.newline] ++
      Text.blank :: label ++ " | " ++ text ++ [Text.newline] ++
      Text.blank :: Text.blanks label.length ++ " | " ++
      padding (text.take (column.toNat - 1)) ++ [Text.byte '^']

end MiniSharp.Frame
