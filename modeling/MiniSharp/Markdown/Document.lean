import MiniSharp.Markdown.Block

/-!
Documents as sequences of headings and fences. A line is read from the outside in: first it has to go
on with the quotes and items that are open, and only then it starts something new, goes on with the
block that is open inside them, or goes on with an open paragraph although it stands further out.
-/

namespace MiniSharp.Markdown

/-- The blocks that are open after some lines: those that hold others, outermost first, and the one
inside them. `spaced` tells whether a blank line followed an item that holds nothing yet. -/
structure Open where
  frames : List Frame
  leaf : Option Leaf
  spaced : Bool

inductive Entry
  | inside (rest : Line)
  | next (mark : Mark)
  | outside

def enterItem (mark : UInt8) (offset : Nat) (bare spaced : Bool) (l : Line) : Entry :=
  let (width, count) := l.indent
  let next := if width < 4 then mark? l.shown else none
  let inside := ((l.dropIndent? offset).map Entry.inside).getD .outside
  if l.isBlank then .inside (l.advance (l.shown.length - 1))
  else if width < offset || bare then
    match next with
    | some m =>
      if m.byte ≠ mark || isRule (l.shown.drop count) then .outside
      else if width < offset || spaced then .next m
      else inside
    | none => if width < offset || spaced then .outside else inside
  else if spaced then .outside
  else inside

def Frame.enter (spaced : Bool) (l : Line) : Frame → Entry
  | .quote => ((quoted? l).map Entry.inside).getD .outside
  | .item mark offset bare => enterItem mark offset bare spaced l

def Frame.spacedBy (l : Line) : Frame → Bool
  | .item _ _ bare => bare && l.isBlank
  | .quote => false

/-- Where a line has left the open frames: `kept` go on, and all of them do if it is `whole`. -/
structure Descent where
  kept : List Frame
  whole : Bool
  next : Option Mark
  rest : Line
  spaced : Bool

def descend (spaced : Bool) (l : Line) : List Frame → Descent
  | [] => ⟨[], true, none, l, spaced⟩
  | f :: frames =>
    let spaced := spaced || f.spacedBy l
    match f.enter spaced l with
    | .inside rest =>
      let d := descend spaced rest frames
      { d with kept := f :: d.kept }
    | .next m => ⟨[], false, some m, l, spaced⟩
    | .outside => ⟨[], false, none, l, spaced⟩

structure Opened where
  frames : List Frame
  leaf : Option Leaf
  nodes : List Node

def Leaf.afterFirst (l : Line) : Leaf → Option Leaf
  | .markup (.marks marks) =>
    if (Html.Ending.marks marks).reached l.shown then none else some (.markup (.marks marks))
  | leaf => some leaf

def Opened.within (frame : Frame) : Option Opened → Opened
  | none => ⟨[frame], none, []⟩
  | some o => ⟨frame.filled :: o.frames, o.leaf, o.nodes⟩

/-- What a line opens. A frame takes at least its mark, so the rest of the line is shorter. -/
def opening (before : Before) (l : Line) : Option Opened :=
  match start? before l with
  | none => none
  | some .underline => none
  | some .rule => some ⟨[], none, []⟩
  | some (.heading title) => some ⟨[], none, [.heading [title]]⟩
  | some (.leaf leaf) => some ⟨[], leaf.afterFirst l, []⟩
  | some (.frame frame rest) =>
    if rest.bytes.length < l.bytes.length then some (.within frame (opening .nothing rest))
    else none
termination_by l.bytes.length

def Leaf.close : Leaf → List Node
  | .fence f content => [.fence f.language content.reverse]
  | _ => []

def closeLeaf (leaf : Option Leaf) : List Node := (leaf.map Leaf.close).getD []

def fillLast : List Frame → List Frame
  | [] => []
  | [f] => [f.filled]
  | f :: g :: frames => f :: fillLast (g :: frames)

def reopen (kept : List Frame) (leaf : Option Leaf) (spaced : Bool) (o : Option Opened) :
    List Node × Open :=
  match o with
  | none => (closeLeaf leaf, ⟨kept, none, spaced⟩)
  | some o =>
    let opensItem := o.frames.any fun
      | .item .. => true
      | .quote => false
    (closeLeaf leaf ++ o.nodes, ⟨fillLast kept ++ o.frames, o.leaf, spaced && !opensItem⟩)

def Leaf.continue (frames : List Frame) (spaced : Bool) (l : Line) (leaf : Leaf) :
    List Node × Open :=
  let stay := fun leaf => ([], ⟨frames, some leaf, spaced⟩)
  let leave := reopen frames (some leaf) spaced (opening .nothing l)
  match leaf with
  | .paragraph lines =>
    match start? .paragraph l with
    | some .underline => ([.heading [paragraphTitle lines]], ⟨frames, none, spaced⟩)
    | some _ => reopen frames (some leaf) spaced (opening .paragraph l)
    | none => if l.isBlank then ([], ⟨frames, none, spaced⟩) else stay (.paragraph (l.bytes :: lines))
  | .fence f content =>
    if f.closedBy l then (closeLeaf (some leaf), ⟨frames, none, spaced⟩)
    else stay (.fence f (f.contentLine l :: content))
  | .code => if l.isBlank || (l.dropIndent? 4).isSome then stay .code else leave
  | .markup ending =>
    if ending.reached l.shown then ([], ⟨frames, none, spaced⟩) else stay (.markup ending)

def outside (s : Open) (d : Descent) : List Node × Open :=
  match s.leaf with
  | some (.paragraph lines) =>
    match opening .innerParagraph d.rest with
    | some o => reopen d.kept s.leaf d.spaced (some o)
    | none =>
      if d.rest.isBlank then ([], ⟨d.kept, none, d.spaced⟩)
      else ([], { s with leaf := some (.paragraph (d.rest.bytes :: lines)), spaced := d.spaced })
  | leaf => reopen d.kept leaf d.spaced (opening .nothing d.rest)

def nextItem (s : Open) (d : Descent) (m : Mark) : List Node × Open :=
  let (frame, rest) := m.open d.rest
  let o := Opened.within frame (opening .nothing rest)
  (closeLeaf s.leaf ++ o.nodes, ⟨d.kept ++ o.frames, o.leaf, false⟩)

def Open.line (s : Open) (l : Line) : List Node × Open :=
  let d := descend s.spaced l s.frames
  match d.next with
  | some m => nextItem s d m
  | none =>
    if d.whole then
      match s.leaf with
      | some leaf => leaf.continue d.kept d.spaced d.rest
      | none => reopen d.kept none d.spaced (opening .nothing d.rest)
    else outside s d

def linesOf : Text → List Text
  | [] => []
  | b :: rest =>
    if b = Text.newline then [b] :: linesOf rest
    else
      match linesOf rest with
      | [] => [[b]]
      | line :: more => (b :: line) :: more

def nodesFrom (offset : Nat) (s : Open) : List Text → List Node
  | [] => closeLeaf s.leaf
  | line :: rest =>
    let (nodes, s) := s.line (.ofText offset line)
    nodes ++ nodesFrom (offset + line.length) s rest

def nodes : Parser := fun t => nodesFrom 0 ⟨[], none, false⟩ (linesOf t)

end MiniSharp.Markdown
