import MiniSharp.Shell.MenuState
import MiniSharp.Shell.Viewport

namespace MiniSharp

abbrev Menu := Menu.State Viewport

namespace Menu

def initial (extra : List Source) : Menu := State.initial .plain extra

def update (m : Menu) (e : Event) : Menu × Bool := State.update .plain m e

def view (m : Menu) : Text := State.view .plain m

def viewport (m : Menu) : Viewport := m.window

end Menu

end MiniSharp
