import MiniSharp.Datum.Basic

namespace MiniSharp

namespace Datum

mutual

def fits : Datum → Datum → Bool
  | ellipsis, _ => true
  | symbol a, symbol b => a == b
  | string a, string b => a == b
  | integer a, integer b => a == b
  | other code a, other code' b => code == code' && a == b
  | list ps, list items => fitsAll ps items
  | _, _ => false

def fitsAll : List Datum → List Datum → Bool
  | [], items => items.isEmpty
  | ellipsis :: ps, items =>
    (List.range (items.length + 1)).any fun n => fitsAll ps (items.drop n)
  | p :: ps, d :: items => fits p d && fitsAll ps items
  | _ :: _, [] => false

end

def mismatch (p d : Datum) : Text :=
  if p.sort = d.sort then "at root: expected " ++ p.render ++ ", got " ++ d.render
  else "at root: expected " ++ p.sort ++ " " ++ p.render ++ ", got " ++ d.sort ++ " " ++ d.render

end Datum

end MiniSharp
