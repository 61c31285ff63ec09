import MiniSharp.Shell.Session

namespace MiniSharp

def pathName (t : Text) : String := (String.fromUTF8? ⟨t.toArray⟩).getD ""

def bytesOf (t : Text) : ByteArray := ⟨t.toArray⟩

def causeOf (e : IO.Error) : FileCause :=
  match e with
  | .inappropriateType .. => .isDirectory
  | _ => .missing

def attemptFile {α : Type} (operation path : Text) (x : IO α) : IO (Except FileError α) := do
  try
    return .ok (← x)
  catch e => return .error ⟨operation, path, causeOf e⟩

def machine : Host IO where
  directory := return Text.ofString (← IO.currentDir).toString
  read path := attemptFile "open" path do
    return (← IO.FS.readBinFile (pathName path)).toList
  write path content := attemptFile "open" path do
    IO.FS.writeBinFile (pathName path) (bytesOf content)
  list path := attemptFile "open" path do
    let entries ← ((← IO.currentDir) / pathName path).readDir
    return entries.toList.map fun e => Text.ofString e.fileName
  has path := do ((← IO.currentDir) / pathName path).pathExists
  remove path := attemptFile "remove" path do
    IO.FS.removeDirAll (pathName path)
  makeDirectories path := attemptFile "mkdir" path do
    IO.FS.createDirAll (pathName path)
  which _ := return none
  execute program _ _ := return ⟨[], [], some (World.notFound program)⟩
  print text := do (← IO.getStdout).write (bytesOf text)
  complain text := do (← IO.getStderr).write (bytesOf text)

end MiniSharp

open MiniSharp in
def main (args : List String) : IO UInt32 := do
  match ← (Session.run machine (args.map Text.ofString)).run with
  | .ok () => return 0
  | .error .reported => return 1
  | .error e =>
    machine.complain (Style.styled .error ("error: " ++ e.message) ++ [Text.newline])
    return 1
