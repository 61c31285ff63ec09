import MiniSharp.Markdown.Node
import MiniSharp.Markdown.Title

namespace MiniSharp.Markdown

/-- A block that holds others: a quote, or an item of a list with the mark and the indentation of what
it holds. An item is `bare` as long as it holds nothing. -/
inductive Frame
  | quote
  | item (mark : UInt8) (offset : Nat) (bare : Bool)

def Frame.filled : Frame → Frame
  | quote => quote
  | item mark offset _ => item mark offset false

structure Fence where
  mark : UInt8
  size : Nat
  indent : Nat
  language : Text

/-- A block that goes on over lines: a paragraph with its lines or a fence with its content, last line
first, indented code, or markup. -/
inductive Leaf
  | paragraph (lines : List Text)
  | fence (fence : Fence) (content : List Segment)
  | code
  | markup (ending : Html.Ending)

def dropClosing (title : Text) : Text :=
  let kept := Text.dropTrailing (· == Text.byte '#') title
  if kept.isEmpty || kept.getLast?.any isSpace then trimRight kept else title

def heading? (t : Text) : Option Text :=
  let level := (t.takeWhile (· == Text.byte '#')).length
  let rest := t.drop level
  if 1 ≤ level && level ≤ 6 && (rest.isEmpty || rest.head?.any isSpace) then
    some (title (dropClosing (trimRight (trimLeft rest))))
  else none

def isUnderline (t : Text) : Bool :=
  let bar := trimRight t
  !bar.isEmpty && (bar.all (· == Text.byte '=') || bar.all (· == Text.byte '-'))

def paragraphTitle (lines : List Text) : Text :=
  title (trimRight (lines.reverse.map trimLeft).flatten)

def isRule (t : Text) : Bool :=
  match t.filter fun b => !isSpace b with
  | [] => false
  | mark :: more => Html.oneOf "*-_" mark && 2 ≤ more.length && more.all (· == mark)

def info (rest : Text) : Text := if rest.length ≤ 1 then [] else trimRight (trimLeft rest)

def fence? (indent : Nat) (t : Text) : Option Fence :=
  match t with
  | [] => none
  | mark :: more =>
    let size := 1 + (more.takeWhile (· == mark)).length
    let text := info (more.dropWhile (· == mark))
    if 3 ≤ size && (mark == Text.byte '~' ||
        (mark == Text.byte '\x60' && !text.contains mark)) then
      some ⟨mark, size, indent, text.takeWhile (· != Text.blank)⟩
    else none

namespace Fence

def closedBy (f : Fence) (l : Line) : Bool :=
  let (width, count) := l.indent
  let body := l.shown.drop count
  let marks := (body.takeWhile (· == f.mark)).length
  width ≤ 3 && f.size ≤ marks && (body.drop marks).all isSpace

/-- A line of content, without the indentation of the fence; a line that is indented less loses what
it has, unless it is blank. -/
def contentLine (f : Fence) (l : Line) : Segment :=
  match l.dropIndent? f.indent with
  | some l => ⟨l.offset, l.shown⟩
  | none =>
    let count := (l.shown.takeWhile fun b => b == Text.blank || b == Text.tab).length
    if (l.shown.drop count).all (· == Text.newline) then ⟨l.offset, l.bytes⟩
    else ⟨l.offset + count, l.bytes.drop count⟩

end Fence

def quoted? (l : Line) : Option Line :=
  let (width, count) := l.indent
  if width ≤ 3 && (l.shown.drop count).head? == some (Text.byte '>') then
    let inner := l.advance (count + 1)
    match inner.bytes with
    | [] => some inner
    | b :: _ =>
      if b = Text.blank then some (inner.advance 1)
      else if b = Text.tab then some ((inner.advance 1).padded (tabWidth inner.start - 1))
      else some inner
  else none

structure Mark where
  byte : UInt8
  number : Option Nat
  size : Nat

def mark? (shown : Text) : Option Mark :=
  let indent := (shown.takeWhile (· == Text.blank)).length
  let t := shown.drop indent
  let digits := t.takeWhile Text.isDigit
  let found : Option Mark :=
    match digits, t.drop digits.length with
    | [], b :: _ => if Html.oneOf "-*+" b then some ⟨b, none, indent + 1⟩ else none
    | _ :: _, b :: _ =>
      if digits.length ≤ 9 && Html.oneOf ".)" b then
        some ⟨b, some (Text.value digits), indent + digits.length + 1⟩
      else none
    | _, [] => none
  found.filter fun m =>
    let rest := shown.drop m.size
    indent ≤ 3 && (rest.isEmpty || rest.head?.any fun b =>
      b == Text.newline || b == Text.blank || b == Text.tab)

/-- What stands in the first line of an item, and how far in what it holds stands. Before code, and in
an item that starts with a blank line, one column belongs to the mark. -/
def Mark.open (m : Mark) (l : Line) : Frame × Line :=
  let rest := l.shown.drop m.size
  if rest.all isSpace then (.item m.byte (m.size + 1) true, ⟨l.offset, l.column, 0, []⟩)
  else
    let width := (indentation m.size rest).1
    let offset := if 4 < width then 1 else width
    let (count, left) := (spanColumns m.size offset rest).getD (0, 0)
    (.item m.byte (m.size + offset) true, (l.advance (m.size + count)).padded left)

/-- Whether an item may break a paragraph: not if it is empty or starts counting at another number
than 1. -/
def Mark.breaksParagraph (m : Mark) (l : Line) : Bool :=
  m.number.all (· == 1) && !(l.shown.drop m.size).all isSpace

inductive Before
  | nothing
  | paragraph
  | innerParagraph
  deriving DecidableEq, Repr

inductive Start
  | underline
  | heading (title : Text)
  | rule
  | leaf (leaf : Leaf)
  | frame (frame : Frame) (rest : Line)

def start? (before : Before) (l : Line) : Option Start :=
  let (width, count) := l.indent
  let t := l.shown.drop count
  if l.isBlank then none
  else if 3 < width then
    if before = .nothing then some (.leaf .code) else none
  else if before = .paragraph && isUnderline t then some .underline
  else if isRule t then some .rule
  else match mark? l.shown with
    | some m =>
      if before ≠ .paragraph || m.breaksParagraph l then
        let (frame, rest) := m.open l
        some (.frame frame rest)
      else none
    | none =>
      match heading? t with
      | some title => some (.heading title)
      | none =>
        match fence? count t with
        | some f => some (.leaf (.fence f []))
        | none =>
          match quoted? l with
          | some rest => some (.frame .quote rest)
          | none =>
            match (Html.strip? [Text.byte '<'] t).bind (Html.block? (before ≠ .nothing)) with
            | some ending => some (.leaf (.markup ending))
            | none => if before = .nothing then some (.leaf (.paragraph [trimLeft t])) else none

end MiniSharp.Markdown
