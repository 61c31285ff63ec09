import MiniSharp.Files.Tree
import MiniSharp.Text.Quoted

namespace MiniSharp

structure Execution where
  output : Text
  complaints : Text
  failure : Option Text

structure Host (m : Type → Type) where
  directory : m Text
  read : Text → m (Except FileError Text)
  write : Text → Text → m (Except FileError Unit)
  list : Text → m (Except FileError (List Text))
  has : Text → m Bool
  remove : Text → m (Except FileError Unit)
  makeDirectories : Text → m (Except FileError Unit)
  which : Text → m (Option Text)
  execute : Text → List Text → Text → m Execution
  print : Text → m Unit
  complain : Text → m Unit

structure Utility where
  name : Text
  paths : List Text
  run : List Text → Execution

structure World where
  directory : Place
  files : FileTree
  utilities : List Utility
  output : Text
  complaints : Text

namespace World

def initial (directory : Place) (utilities : List Utility) : World :=
  ⟨directory, FileTree.makeDirectories ⟨[]⟩ directory, utilities, [], []⟩

def find? (w : World) (program : Text) : Option Utility :=
  w.utilities.find? fun u => u.name == program || u.paths.contains program

def notFound (program : Text) : Text :=
  "exec: " ++ program.quoted ++ ": executable file not found in $PATH"

def pathOf (p : Place) : Text := Path.slash :: Text.join [Path.slash] p

def placeOf (path : Text) : Place := (Path.split path).filter (· ≠ [])

def unrunnable (w : World) (directory program : Text) : Text :=
  if !program.contains Path.slash then notFound program
  else
    let cause :=
      match w.files.locate (placeOf directory) program with
      | .error cause => cause
      | .ok p => if (w.files.get? p).isSome then .notExecutable else .missing
    FileError.message ⟨"fork/exec", program, cause⟩

def host : Host (StateM World) where
  directory := fun w => (pathOf w.directory, w)
  read path := fun w => (w.files.read w.directory path, w)
  write path content := fun w =>
    match w.files.write w.directory path content with
    | .ok files => (.ok (), { w with files })
    | .error e => (.error e, w)
  list path := fun w => (w.files.list w.directory path, w)
  has path := fun w =>
    match w.files.locate w.directory path with
    | .ok p => ((w.files.get? p).isSome, w)
    | .error _ => (false, w)
  remove path := fun w =>
    match w.files.locate w.directory path with
    | .ok p => (.ok (), { w with files := w.files.remove p })
    | .error _ => (.ok (), w)
  makeDirectories path := fun w =>
    let place := placeOf (Path.absolute (pathOf w.directory) path)
    let made := { w with files := w.files.makeDirectories place }
    match w.files.obstacle? place with
    | none => (.ok (), made)
    | some (p, cause) => (.error ⟨"mkdir", pathOf p, cause⟩, made)
  which program := fun w =>
    (if program.contains Path.slash then some program
    else (w.find? program).bind fun u => u.paths.head?, w)
  execute program args directory := fun w =>
    match w.find? program with
    | some u => (u.run args, w)
    | none => (⟨[], [], some (w.unrunnable directory program)⟩, w)
  print text := fun w => ((), { w with output := w.output ++ text })
  complain text := fun w => ((), { w with complaints := w.complaints ++ text })

end World

end MiniSharp
