import MiniSharp.Program.Shape
import MiniSharp.Scope.Basic

namespace MiniSharp

/-- The type of an expression, the symbol that a declaration defines, the symbol that a name refers
to, and the type that an input statement reads. -/
structure Note where
  type : Option Ty
  defines : Option Symbol
  refers : Option Symbol
  input : Option Ty

namespace Note

def none : Note := ⟨.none, .none, .none, .none⟩

def ofType (type : Ty) : Note := ⟨some type, .none, .none, .none⟩

def ofDeclaration (x : Symbol) : Note := ⟨.none, some x, .none, .none⟩

def ofUse (x : Symbol) : Note := ⟨.none, .none, some x, .none⟩

end Note

structure Remark where
  label : Label
  note : Note

/-- Every node of a tree about which something is known, and every expression: one without a type
has the invalid one. -/
def remarks (t : Tree) (notes : List (Tree.Path × Note)) : List Remark :=
  (t.walk []).filterMap fun (path, label) =>
    match notes.lookup path with
    | some note => some ⟨label, { note with type := listedType label note.type }⟩
    | none => if label.kind.isExpr then some ⟨label, .ofType .invalid⟩ else none
where
  listedType (label : Label) (type : Option Ty) : Option Ty :=
    if label.kind.isExpr then some (type.getD .invalid) else none

end MiniSharp
