import MiniSharp.Text.Basic

namespace MiniSharp.Markdown

def isSpace (b : UInt8) : Bool :=
  b == Text.blank || b == Text.tab || b == Text.newline || b == Text.carriageReturn

def trimLeft (t : Text) : Text := t.dropWhile isSpace

def trimRight (t : Text) : Text := Text.dropTrailing isSpace t

def tabWidth (column : Nat) : Nat := 4 - column % 4

/-- What is left of a line: blanks left over from a tab, and bytes, the first of which is in
`column` and at `offset` in the document. -/
structure Line where
  offset : Nat
  column : Nat
  padding : Nat
  bytes : Text

def indentation (column : Nat) : Text → Nat × Nat
  | [] => (0, 0)
  | b :: rest =>
    if b = Text.blank then
      let (width, count) := indentation (column + 1) rest
      (width + 1, count + 1)
    else if b = Text.tab then
      let (width, count) := indentation (column + tabWidth column) rest
      (width + tabWidth column, count + 1)
    else (0, 0)

def spanColumns (column columns : Nat) (t : Text) : Option (Nat × Nat) :=
  if columns = 0 then some (0, 0)
  else match t with
    | [] => none
    | b :: rest =>
      if b = Text.blank then
        (spanColumns (column + 1) (columns - 1) rest).map fun (count, left) => (count + 1, left)
      else if b = Text.tab then
        let width := tabWidth column
        if columns ≤ width then some (1, width - columns)
        else (spanColumns (column + width) (columns - width) rest).map fun (count, left) =>
          (count + 1, left)
      else none

namespace Line

def ofText (offset : Nat) (t : Text) : Line := ⟨offset, 0, 0, t⟩

def shown (l : Line) : Text := Text.blanks l.padding ++ l.bytes

def start (l : Line) : Nat := l.column - l.padding

def isBlank (l : Line) : Bool := l.bytes.all isSpace

def indent (l : Line) : Nat × Nat := indentation l.start l.shown

def advance : Nat → Line → Line
  | 0, l => l
  | n + 1, l =>
    if 0 < l.padding then advance n { l with padding := l.padding - 1 }
    else match l.bytes with
      | [] => l
      | b :: rest =>
        advance n
          ⟨l.offset + 1, l.column + (if b = Text.tab then tabWidth l.column else 1), 0, rest⟩

def padded (n : Nat) (l : Line) : Line := { l with padding := max n l.padding }

def dropIndent? (columns : Nat) (l : Line) : Option Line :=
  (spanColumns l.start columns l.shown).map fun (count, left) => (l.advance count).padded left

end Line

end MiniSharp.Markdown
