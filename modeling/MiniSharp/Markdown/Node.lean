import MiniSharp.Text.Basic

namespace MiniSharp.Markdown

structure Segment where
  start : Nat
  text : Text

inductive Node
  | heading (texts : List Text)
  | fence (language : Text) (lines : List Segment)

abbrev Parser := Text → List Node

end MiniSharp.Markdown
