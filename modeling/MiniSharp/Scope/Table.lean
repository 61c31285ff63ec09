import MiniSharp.Scope.Basic

namespace MiniSharp.Scope

structure Table where
  byName : List (Text × Symbol)
  order : List Symbol

namespace Table

def empty : Table := ⟨[], []⟩

def lookup? (t : Table) (name : Text) : Option Symbol := t.byName.lookup name

def define? (t : Table) (x : Symbol) : Option Table :=
  if (t.lookup? x.name).isSome then none
  else some ⟨(x.name, x) :: t.byName, t.order ++ [x]⟩

end Table

structure Tables where
  current : Table
  parents : List Table

namespace Tables

def global : Tables := ⟨.empty, []⟩

def push (s : Tables) : Tables := ⟨.empty, s.current :: s.parents⟩

def pop? (s : Tables) : Option Tables :=
  match s.parents with
  | [] => none
  | parent :: parents => some ⟨parent, parents⟩

def define? (s : Tables) (x : Symbol) : Option Tables :=
  (s.current.define? x).map fun t => { s with current := t }

def symbols (s : Tables) : List Symbol := s.current.order

def lookup? (s : Tables) (name : Text) : Option Symbol := s.current.lookup? name

def resolveIn (name : Text) : List Table → Option Symbol
  | [] => none
  | t :: tables =>
    match t.lookup? name with
    | some x => some x
    | none => resolveIn name tables

def resolve? (s : Tables) (name : Text) : Option Symbol := resolveIn name (s.current :: s.parents)

def scope (s : Tables) : Scope := ⟨s.current.order, s.parents.map Table.order⟩

end Tables

end MiniSharp.Scope
