import MiniSharp.Files.Path

namespace MiniSharp

abbrev Place := List Text

inductive FileNode
  | directory
  | file (content : Text)
  deriving DecidableEq, Repr

structure FileTree where
  entries : List (Place × FileNode)

inductive FileCause
  | missing | notDirectory | isDirectory | notExecutable | longName | badName
  deriving DecidableEq, Repr

def FileCause.message : FileCause → Text
  | missing => "no such file or directory"
  | notDirectory => "not a directory"
  | isDirectory => "is a directory"
  | notExecutable => "permission denied"
  | longName => "file name too long"
  | badName => "invalid argument"

structure FileError where
  operation : Text
  path : Text
  cause : FileCause
  deriving DecidableEq, Repr

def FileError.message (e : FileError) : Text :=
  e.operation ++ " " ++ e.path ++ ": " ++ e.cause.message

namespace FileTree

def get? (t : FileTree) (p : Place) : Option FileNode :=
  if p = [] then some .directory else t.entries.lookup p

def insert (t : FileTree) (p : Place) (n : FileNode) : FileTree :=
  ⟨(p, n) :: t.entries.filter fun e => e.1 ≠ p⟩

def remove (t : FileTree) (p : Place) : FileTree := ⟨t.entries.filter fun e => !p.isPrefixOf e.1⟩

def children (t : FileTree) (p : Place) : List Text :=
  t.entries.filterMap fun e => if e.1.dropLast = p then e.1.getLast? else none

def entered (t : FileTree) (p : Place) : Except FileCause Unit :=
  match t.get? p with
  | some .directory => .ok ()
  | some (.file _) => .error .notDirectory
  | none => .error .missing

def nameLimit : Nat := 255

def pathLimit : Nat := 4095

def way (p : Place) : List Place := (List.range p.length).map fun n => p.take (n + 1)

def obstacle (t : FileTree) (p : Place) : Option FileCause :=
  match t.get? p with
  | some .directory => none
  | some (.file _) => some .notDirectory
  | none => if p.getLast?.any fun name => nameLimit < name.length then some .longName else none

def obstacle? (t : FileTree) (p : Place) : Option (Place × FileCause) :=
  (way p).findSome? fun q => (t.obstacle q).map fun cause => (q, cause)

/-- Makes the directories at a place and above it that are missing, as far as they can be made. -/
def makeDirectories (t : FileTree) (p : Place) : FileTree :=
  ((way p).takeWhile fun q => (t.obstacle q).isNone).foldl
    (fun t q => if (t.get? q).isSome then t else t.insert q .directory) t

def walk (t : FileTree) (p : Place) : List Text → Except FileCause Place
  | [] => .ok p
  | part :: rest => do
    t.entered p
    if part = [] ∨ part = Path.here then t.walk p rest
    else if part = Path.parent then t.walk p.dropLast rest
    else if nameLimit < part.length then .error .longName
    else t.walk (p ++ [part]) rest

def locate (t : FileTree) (directory : Place) (path : Text) : Except FileCause Place :=
  if path = [] then .error .missing
  else if path.contains 0 then .error .badName
  else if pathLimit < path.length then .error .longName
  else t.walk (if Path.isRooted path then [] else directory) (Path.split path)

def read (t : FileTree) (directory : Place) (path : Text) : Except FileError Text :=
  match t.locate directory path with
  | .error cause => .error ⟨"open", path, cause⟩
  | .ok p =>
    match t.get? p with
    | none => .error ⟨"open", path, .missing⟩
    | some .directory => .error ⟨"read", path, .isDirectory⟩
    | some (.file content) => .ok content

def write (t : FileTree) (directory : Place) (path content : Text) : Except FileError FileTree :=
  let named := Text.dropTrailing (· == Path.slash) path
  match t.locate directory (if named = [] then path else named) with
  | .error cause => .error ⟨"open", path, cause⟩
  | .ok p =>
    match t.get? p, t.entered p.dropLast with
    | some .directory, _ => .error ⟨"open", path, .isDirectory⟩
    | _, .error cause => .error ⟨"open", path, cause⟩
    | some (.file _), .ok () =>
      if named = path then .ok (t.insert p (.file content))
      else .error ⟨"open", path, .notDirectory⟩
    | none, .ok () =>
      if named = path then .ok (t.insert p (.file content))
      else .error ⟨"open", path, .isDirectory⟩

def list (t : FileTree) (directory : Place) (path : Text) : Except FileError (List Text) :=
  match t.locate directory path with
  | .error cause => .error ⟨"open", path, cause⟩
  | .ok p =>
    match t.entered p with
    | .error cause => .error ⟨"open", path, cause⟩
    | .ok () => .ok (t.children p)

end FileTree

end MiniSharp
