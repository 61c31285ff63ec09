import MiniSharp.Shell.Terminal
import MiniSharp.Text.Space

namespace MiniSharp.Style

def tabWidth : Nat := 4

def expandTabs (t : Text) : Text := t.replaceByte Text.tab (Text.blanks tabWidth)

def dropReturns : Text → Text
  | [] => []
  | b :: rest =>
    if b = Text.carriageReturn && rest.head? == some Text.newline then dropReturns rest
    else b :: dropReturns rest

def fill (width : Nat) (line : Text) : Text := line ++ Text.blanks (width - line.width)

def widest (lines : List Text) : Nat := lines.foldl (fun n line => max n line.width) 0

def unlines (lines : List Text) : Text := Text.join [Text.newline] lines

def square (lines : List Text) : List Text := lines.map (fill (widest lines))

def plain (t : Text) : Text :=
  let t := dropReturns (expandTabs t)
  match t.lines with
  | [_] => t
  | lines => unlines (square lines)

def padded (t : Text) : List Text :=
  (square (dropReturns (expandTabs t)).lines).map fun line => Text.blank :: line ++ [Text.blank]

def boxed (t : Text) : List Text :=
  let lines := padded t
  let bar := (List.replicate (widest lines) (Text.ofString "─")).flatten
  ("╭" ++ bar ++ "╮") :: lines.map (fun line => "│" ++ line ++ "│") ++ ["╰" ++ bar ++ "╯"]

def styled : Styling
  | .header, t => unlines (padded t)
  | .pane, t => unlines (boxed t)
  | .focusedPane, t => unlines (boxed t)
  | _, t => plain t

def beside (texts : List Text) : Text :=
  let height := texts.foldl (fun n t => max n t.lines.length) 0
  let column (t : Text) : List Text :=
    square (t.lines ++ List.replicate (height - t.lines.length) [])
  let columns := texts.map column
  unlines ((List.range height).map fun i => columns.flatMap (·.getD i []))

end MiniSharp.Style
