import MiniSharp.Text.Basic

namespace MiniSharp

inductive Face
  | muted | success | error | header | pane | focusedPane | selected | helpKey
  deriving DecidableEq, Repr

abbrev Styling := Face → Text → Text

structure Terminal (Window : Type) where
  styled : Styling
  beside : List Text → Text
  window : Int → Int → Window
  resize : Window → Int → Int → Window
  setContent : Window → Text → Window
  top : Window → Window
  key : Window → Text → Window
  view : Window → Text

end MiniSharp
