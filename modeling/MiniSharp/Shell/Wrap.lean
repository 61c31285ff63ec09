import MiniSharp.Shell.Style

namespace MiniSharp.Style

/-- Lines that are being filled: those that are full, the open one, the blanks after it, and the
word after these. -/
structure Filling where
  full : List Text
  line : Text
  columns : Nat
  blanks : Nat
  word : Text
  wordColumns : Nat

namespace Filling

def start : Filling := ⟨[], [], 0, 0, [], 0⟩

def addBlanks (f : Filling) : Filling :=
  { f with line := f.line ++ Text.blanks f.blanks, columns := f.columns + f.blanks, blanks := 0 }

def addWord (f : Filling) : Filling :=
  if f.word = [] then f
  else
    let f := f.addBlanks
    { f with line := f.line ++ f.word, columns := f.columns + f.wordColumns, word := [], wordColumns := 0 }

def newLine (f : Filling) : Filling :=
  { f with full := f.full ++ [f.line], line := [], columns := 0, blanks := 0 }

def extend (limit : Nat) (f : Filling) (p : Text.Piece) : Filling :=
  let f := if limit < f.wordColumns + p.columns then f.addWord else f
  let f := { f with word := f.word ++ p.bytes, wordColumns := f.wordColumns + p.columns }
  if limit < f.columns + f.wordColumns + f.blanks then f.newLine else f

def hyphen : Text.Piece := .point 0x2D

def step (limit : Nat) (f : Filling) (p : Text.Piece) : Filling :=
  if p.columns = 0 then { f with word := f.word ++ p.bytes }
  else if p = .point 0x20 then
    let f := f.addWord
    { f with blanks := f.blanks + 1 }
  else if p = hyphen then
    let f := f.addBlanks
    if f.columns + f.wordColumns + 1 ≤ limit then
      let f := f.addWord
      { f with line := f.line ++ p.bytes, columns := f.columns + 1 }
    else f.extend limit p
  else f.extend limit p

def finish (limit : Nat) (f : Filling) : List Text :=
  let f :=
    if 0 < f.wordColumns then f
    else if limit < f.columns + f.blanks then { f with blanks := 0 }
    else f.addBlanks
  let f := f.addWord
  f.full ++ [f.line]

end Filling

def wrap (limit : Nat) (line : Text) : List Text :=
  ((Text.pieces line).foldl (Filling.step limit) .start).finish limit

end MiniSharp.Style
