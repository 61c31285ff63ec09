import MiniSharp.Files.Host
import MiniSharp.Project.Basic

/-!
Writing, building and running projects. A directory is replaced only if it is empty or holds the
project file of an earlier write.
-/

namespace MiniSharp

inductive LogLevel
  | debug | info
  deriving DecidableEq, Repr

def LogLevel.name : LogLevel → Text
  | debug => "DEBU"
  | info => "INFO"

structure LogEntry where
  level : LogLevel
  message : Text
  fields : List (Text × Text)

inductive ProjectError
  | badName (name : Text)
  | unreadable (directory : Text) (error : FileError)
  | refused (directory name : Text)
  | notCleared (directory : Text) (error : FileError)
  | notCreated (directory : Text) (error : FileError)
  | sourceNotWritten (error : FileError)
  | fileNotWritten (error : FileError)
  | build (output reason : Text)
  | run (assembly reason : Text)
  deriving DecidableEq, Repr

def ProjectError.message : ProjectError → Text
  | badName name =>
    "invalid project name " ++ name.quoted ++ ": must be a plain directory name"
  | unreadable directory error => "inspecting " ++ directory ++ ": " ++ error.message
  | refused directory name =>
    "refusing to replace " ++ directory ++ ": it does not contain " ++ Project.fileName name
  | notCleared directory error => "clearing " ++ directory ++ ": " ++ error.message
  | notCreated directory error => "creating " ++ directory ++ ": " ++ error.message
  | sourceNotWritten error => "writing generated source: " ++ error.message
  | fileNotWritten error => "writing project file: " ++ error.message
  | build _ reason => "dotnet build failed: " ++ reason
  | run assembly reason => "running " ++ Path.base assembly ++ ": " ++ reason

namespace Project

variable {m : Type → Type} [Monad m]

def attempt {α : Type} (reason : FileError → ProjectError) (x : m (Except FileError α)) :
    ExceptT ProjectError m α :=
  ExceptT.mk do
    match ← x with
    | .ok a => return .ok a
    | .error e => return .error (reason e)

def clear (host : Host m) (directory name : Text) : ExceptT ProjectError m Unit := do
  match ← (host.list directory : m _) with
  | .error e => if e.cause = .missing then return () else throw (.unreadable directory e)
  | .ok [] => return ()
  | .ok (_ :: _) =>
    if ← (host.has (Path.join [directory, fileName name]) : m _) then
      attempt (.notCleared directory) (host.remove directory)
    else throw (.refused directory name)

def write (host : Host m) (log : LogEntry → m Unit) (config : ProjectConfig) (source : Text) :
    ExceptT ProjectError m Project := do
  let config := config.completed
  if !ProjectConfig.isPlain config.name then throw (.badName config.name)
  let directory := Path.absolute (← (host.directory : m _)) (Path.join [config.directory, config.name])
  clear host directory config.name
  attempt (.notCreated directory) (host.makeDirectories directory)
  let project : Project := ⟨config, directory⟩
  attempt .sourceNotWritten (host.write project.sourcePath source)
  attempt .fileNotWritten (host.write project.filePath (file config.framework))
  log ⟨.debug, "wrote project", [("dir", directory), ("framework", config.framework)]⟩
  return project

def build (host : Host m) (log : LogEntry → m Unit) (p : Project) : ExceptT ProjectError m Unit := do
  let command := Text.join [Text.blank] (p.config.sdk :: p.buildArguments)
  log ⟨.debug, "building", [("cmd", command)]⟩
  let r ← (host.execute p.config.sdk p.buildArguments p.directory : m _)
  match r.failure with
  | some reason => throw (.build (r.output ++ r.complaints) reason)
  | none => log ⟨.info, "build succeeded", [("assembly", p.assemblyPath)]⟩

def run (host : Host m) (log : LogEntry → m Unit) (p : Project) : ExceptT ProjectError m Unit := do
  let program := (← (host.which p.config.sdk : m _)).getD p.config.sdk
  log ⟨.debug, "running", [("cmd", Text.join [Text.blank] (program :: p.runArguments))]⟩
  let r ← (host.execute p.config.sdk p.runArguments p.directory : m _)
  host.print r.output
  host.complain r.complaints
  match r.failure with
  | some reason => throw (.run p.assemblyPath reason)
  | none => return ()

def launch (host : Host m) (log : LogEntry → m Unit) (config : ProjectConfig) (source : Text) :
    ExceptT ProjectError m Unit := do
  let p ← write host log config source
  p.build host log
  p.run host log

end Project

end MiniSharp
