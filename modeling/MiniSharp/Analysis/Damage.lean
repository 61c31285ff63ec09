import MiniSharp.Analysis.Note
import MiniSharp.Program.Map

namespace MiniSharp

inductive Damage
  | types | declarations | uses | inputs | symbols

namespace Damage

def note : Damage → Note → Note
  | types, n => { n with type := none }
  | declarations, n => { n with defines := none }
  | uses, n => { n with refers := none }
  | inputs, n => { n with input := none }
  | symbols, n => { n with refers := n.refers.map fun x => { x with id := .loose 0 } }

def program (d : Damage) (x : Program Note) : Program Note := x.map d.note

end Damage

end MiniSharp
