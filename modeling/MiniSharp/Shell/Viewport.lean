import MiniSharp.Shell.Wrap

namespace MiniSharp

structure Viewport where
  width : Nat
  height : Nat
  offset : Nat
  lines : List Text

namespace Viewport

def ofSize (width height : Int) : Viewport := ⟨width.toNat, height.toNat, 0, []⟩

def resize (v : Viewport) (width height : Int) : Viewport :=
  { v with width := width.toNat, height := height.toNat }

def lowest (v : Viewport) : Nat := v.lines.length - v.height

def setContent (v : Viewport) (t : Text) : Viewport :=
  let v := { v with lines := (Style.dropReturns t).lines }
  if v.offset + 1 > v.lines.length then { v with offset := v.lowest } else v

def top (v : Viewport) : Viewport := { v with offset := 0 }

def down (v : Viewport) (n : Nat) : Viewport :=
  if v.lowest ≤ v.offset then v else { v with offset := min (v.offset + n) v.lowest }

def up (v : Viewport) (n : Nat) : Viewport := { v with offset := min (v.offset - n) v.lowest }

def key (v : Viewport) (name : Text) : Viewport :=
  let among (names : List Text) : Bool := names.contains name
  if among ["pgdown", " ", "f"] then v.down v.height
  else if among ["pgup", "b"] then v.up v.height
  else if among ["d", "ctrl+d"] then v.down (v.height / 2)
  else if among ["u", "ctrl+u"] then v.up (v.height / 2)
  else v

def fitting (n : Nat) : List Text.Piece → List Text.Piece
  | [] => []
  | p :: rest => if p.columns ≤ n then p :: fitting (n - p.columns) rest else []

def cut (n : Nat) (t : Text) : Text := (fitting n (Text.pieces t)).flatMap Text.Piece.bytes

/-- The lines shown, each of the full width, and blank ones up to the full height. A tab takes no
room when a line is cut, so the line may have to be broken once its tabs are blanks. -/
def view (v : Viewport) : Text :=
  let lines := ((v.lines.drop v.offset).take v.height).map (cut v.width)
  let text := Style.dropReturns (Style.expandTabs (Style.unlines lines))
  let shown := (text.lines.flatMap (Style.wrap v.width)).take v.height
  let rest := List.replicate (v.height - shown.length) []
  Style.unlines ((shown ++ rest).map fun line => Style.fill v.width line)

end Viewport

def Terminal.plain : Terminal Viewport where
  styled := Style.styled
  beside := Style.beside
  window := .ofSize
  resize := Viewport.resize
  setContent := Viewport.setContent
  top := Viewport.top
  key := Viewport.key
  view := Viewport.view

end MiniSharp
