import MiniSharp.Program.Basic

namespace MiniSharp

/-- Which declaration a symbol stands for: a function by its name, a variable by its place among the
declarations of a function. Loose symbols stand for no declaration. -/
inductive SymbolId
  | func (name : Text)
  | var (function : Text) (serial : Nat)
  | loose (index : Nat)
  deriving DecidableEq, Repr

inductive SymbolSort
  | var (type : Ty)
  | func (params : List Ty) (result : Ty)
  deriving DecidableEq, Repr

def SymbolSort.name : SymbolSort → Text
  | var _ => "variable"
  | func _ _ => "function"

def SymbolSort.ofCode (code : Int) : SymbolSort :=
  if code = 1 then func [] .invalid else var .invalid

structure Symbol where
  id : SymbolId
  name : Text
  sort : SymbolSort
  pos : Position
  deriving DecidableEq, Repr

structure Scope where
  symbols : List Symbol
  outer : List (List Symbol)

namespace Scope

def global : Scope := ⟨[], []⟩

def push (s : Scope) : Scope := ⟨[], s.symbols :: s.outer⟩

def pop? (s : Scope) : Option Scope :=
  match s.outer with
  | [] => none
  | symbols :: outer => some ⟨symbols, outer⟩

def find? (name : Text) (symbols : List Symbol) : Option Symbol :=
  symbols.find? fun x => x.name == name

def lookup? (s : Scope) (name : Text) : Option Symbol := find? name s.symbols

def resolve? (s : Scope) (name : Text) : Option Symbol :=
  (s.symbols :: s.outer).findSome? (find? name)

def declares (s : Scope) (name : Text) : Bool := (s.lookup? name).isSome

def define? (s : Scope) (x : Symbol) : Option Scope :=
  if s.declares x.name then none else some { s with symbols := s.symbols ++ [x] }

def refusal (x : Symbol) : Text :=
  x.sort.name ++ " '" ++ x.name ++ "' already declared in this scope"

end Scope

end MiniSharp
