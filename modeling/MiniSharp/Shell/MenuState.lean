import MiniSharp.Shell.Phase
import MiniSharp.Shell.Sample

namespace MiniSharp.Menu

structure Source where
  name : Text
  description : Text
  text : Text

inductive Choice
  | phase (phase : Phase)
  | run

def Choice.name : Choice → Text
  | phase p => p.name
  | run => "run"

def choices : List Choice := Phase.all.map .phase ++ [.run]

inductive Pane
  | sources | choices
  deriving DecidableEq, Repr

inductive Action
  | quit | switch | up | down | enter
  deriving DecidableEq, Repr

def keys : Action → List Text
  | .quit => ["q", "ctrl+c"]
  | .switch => ["tab"]
  | .up => ["up", "k"]
  | .down => ["down", "j"]
  | .enter => ["enter"]

def Action.help : Action → Text × Text
  | quit => ("q", "quit")
  | switch => ("tab", "switch pane")
  | up => ("↑/k", "up")
  | down => ("↓/j", "down")
  | enter => ("enter", "run phase")

def actions : List Action := [.quit, .switch, .up, .down, .enter]

def Action.ofKey? (key : Text) : Option Action := actions.find? fun a => (keys a).contains key

inductive Event
  | key (name : Text)
  | resize (width height : Int)

structure State (Window : Type) where
  sources : List Source
  phases : List Choice
  source : Int
  choice : Int
  focus : Pane
  output : Text
  window : Window
  width : Int
  height : Int
  ready : Bool
  run : Option Source
  quitting : Bool

def samples : List Source := Sample.all.map fun s => ⟨s.name, s.description, s.source⟩

/-- The index nearest to `i` in a list of that length; it is below zero if the list is empty. -/
def clamp (i : Int) (length : Nat) : Int := min (max i 0) (length - 1)

def atIndex? {α : Type} (entries : List α) (i : Int) : Option α :=
  if 0 ≤ i then entries[i.toNat]? else none

def prompt (styled : Styling) : Text := styled .muted "Pick a program and a phase, then press enter."

def outputOf (styled : Styling) (p : Phase) (s : Source) : Text :=
  let r := p.run s.text
  match r.error with
  | some e => r.output ++ e.renderWith styled s.text
  | none =>
    styled .success (p.name ++ " of " ++ s.name ++ " succeeded") ++ "\n\n" ++ r.output

namespace State

variable {Window : Type} (terminal : Terminal Window)

def initial (extra : List Source) : State Window where
  sources := samples ++ extra
  phases := choices
  source := 0
  choice := 0
  focus := .sources
  output := prompt terminal.styled
  window := terminal.window 80 10
  width := 0
  height := 0
  ready := false
  run := none
  quitting := false

def move (m : State Window) (delta : Int) : State Window :=
  match m.focus with
  | .sources => { m with source := clamp (m.source + delta) m.sources.length }
  | .choices => { m with choice := clamp (m.choice + delta) m.phases.length }

def enter (m : State Window) : State Window × Bool :=
  match atIndex? m.sources m.source, atIndex? m.phases m.choice with
  | some s, some .run => ({ m with run := some s, quitting := true }, true)
  | some s, some (.phase p) =>
    let output := outputOf terminal.styled p s
    ({ m with output, window := terminal.top (terminal.setContent m.window output) }, false)
  | _, _ => (m, false)

def resize (m : State Window) (width height : Int) : State Window :=
  let window := terminal.resize m.window (max (width - 4) 20)
    (max (height - m.sources.length - m.phases.length - 10) 5)
  { m with width, height, window := terminal.setContent window m.output, ready := true }

def act (m : State Window) : Action → State Window × Bool
  | .quit => ({ m with quitting := true }, true)
  | .switch =>
    ({ m with focus := match m.focus with
        | .sources => .choices
        | .choices => .sources }, false)
  | .up => (m.move (-1), false)
  | .down => (m.move 1, false)
  | .enter => m.enter terminal

def update (m : State Window) : Event → State Window × Bool
  | .resize width height => (m.resize terminal width height, false)
  | .key name =>
    match Action.ofKey? name with
    | some action => m.act terminal action
    | none => ({ m with window := terminal.key m.window name }, false)

def items (texts : List Text) (selected : Int) : Text :=
  Text.join "\n" (texts.mapIdx fun i text =>
    (if (i : Int) = selected then terminal.styled .selected "› " else "  ") ++ text)

def pane (m : State Window) (p : Pane) (content : Text) : Text :=
  terminal.styled (if m.focus = p then .focusedPane else .pane) content

def help : Text :=
  Text.join "  " ([.up, .down, .switch, .enter, .quit].map fun a : Action =>
    terminal.styled .helpKey a.help.1 ++ " " ++ terminal.styled .muted a.help.2)

def view (m : State Window) : Text :=
  if m.quitting then []
  else
    let sources := m.sources.map fun s => s.name ++ terminal.styled .muted ("  " ++ s.description)
    let left := m.pane terminal .sources (items terminal sources m.source)
    let right := m.pane terminal .choices (items terminal (m.phases.map Choice.name) m.choice)
    terminal.styled .header "MACSLang compiler" ++ "\n\n" ++ terminal.beside [left, " ", right] ++
      "\n" ++ (if m.ready then terminal.view m.window else m.output) ++ "\n\n" ++ help terminal

end State

end MiniSharp.Menu
