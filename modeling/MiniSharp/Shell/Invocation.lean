import MiniSharp.Shell.Flags
import MiniSharp.Shell.Phase
import MiniSharp.Text.Lowercase

namespace MiniSharp

inductive Command
  | phase (phase : Phase)
  | run
  | menu
  deriving DecidableEq, Repr

namespace Command

def all : List Command := Phase.all.map .phase ++ [.run, .menu]

def name : Command → Text
  | phase p => p.name
  | run => "run"
  | menu => "menu"

def ofName? (name : Text) : Option Command := all.find? fun c => c.name == name

def limit? : Command → Option Nat
  | menu => none
  | _ => some 1

end Command

structure Options where
  verbose : Bool := false
  out : Text := []
  sample : Text := []
  sdk : Text := "dotnet"
  framework : Text := "net6.0"
  project : Text := "MACSLangGeneratedApp"

inductive Invocation
  | help
  | command (command : Command) (options : Options) (arguments : List Text)

namespace Invocation

def verboseFlag : Flag := ⟨"verbose", some (Text.byte 'v'), true⟩
def outFlag : Flag := ⟨"out", some (Text.byte 'o'), false⟩
def sampleFlag : Flag := ⟨"sample", some (Text.byte 's'), false⟩
def helpFlag : Flag := ⟨"help", some (Text.byte 'h'), true⟩
def sdkFlag : Flag := ⟨"dotnet", none, false⟩
def frameworkFlag : Flag := ⟨"framework", none, false⟩
def projectFlag : Flag := ⟨"project", none, false⟩

def globalFlags : List Flag := [verboseFlag, outFlag, sampleFlag]

def flags : Command → List Flag
  | .phase _ => globalFlags ++ [helpFlag]
  | .run | .menu => globalFlags ++ [helpFlag, sdkFlag, frameworkFlag, projectFlag]

/-- The arguments that are neither flags nor their values, as far as can be told before the command
is known. -/
def words : List Text → List Text
  | [] => []
  | a :: rest =>
    if a = [dash, dash] then []
    else if Flag.takesNext globalFlags a then
      match rest with
      | [] => []
      | [_] => []
      | _ :: rest => words rest
    else if a = [] ∨ Flag.isDashed a then words rest
    else a :: words rest

def withoutCommand (name : Text) : List Text → List Text
  | [] => []
  | a :: rest =>
    if a = [dash, dash] then a :: rest
    else if Flag.takesNext globalFlags a then
      match rest with
      | [] => [a]
      | value :: rest => a :: value :: withoutCommand name rest
    else if a = name then rest
    else a :: withoutCommand name rest

def distanceRow (b : UInt8) (left diagonal : Nat) : Text → List Nat → List Nat
  | c :: t, above :: row =>
    let d := if b = c then diagonal else min (min left above) diagonal + 1
    d :: distanceRow b d above t row
  | _, _ => []

def editDistance (s t : Text) : Nat :=
  let last := s.foldl (fun (row : List Nat) b =>
    match row with
    | [] => []
    | first :: rest => (first + 1) :: distanceRow b (first + 1) first t rest)
    (List.range (t.length + 1))
  last.getLast?.getD 0

def suggestions (name : Text) : List Text :=
  (Command.all.map Command.name ++ [Text.ofString "completion"]).filter fun c =>
    editDistance name.lower c.lower ≤ 2 || name.lower.isPrefixOf c.lower

def withFlag (o : Options) (f : Flag × Text) : Options :=
  let (flag, value) := f
  if flag.name = verboseFlag.name then { o with verbose := Flag.trueWords.contains value }
  else if flag.name = outFlag.name then { o with out := value }
  else if flag.name = sampleFlag.name then { o with sample := value }
  else if flag.name = sdkFlag.name then { o with sdk := value }
  else if flag.name = frameworkFlag.name then { o with framework := value }
  else if flag.name = projectFlag.name then { o with project := value }
  else o

def asksForHelp (values : List (Flag × Text)) : Bool :=
  ((values.filter fun f => f.1.name == helpFlag.name).getLast?).any fun f =>
    Flag.trueWords.contains f.2

def ofCommand (c : Command) (arguments : List Text) : Except UsageError Invocation := do
  let parsed ← Flag.parse (flags c) arguments
  if asksForHelp parsed.values then return .help
  match c.limit? with
  | some limit =>
    if limit < parsed.arguments.length then throw (.tooManyArguments limit parsed.arguments.length)
  | none => pure ()
  return .command c (parsed.values.foldl withFlag {}) parsed.arguments

def programName : Text := "macsc"

def shells : List Text := ["bash", "zsh", "fish", "powershell"]

def descriptionsFlag : Flag := ⟨"no-descriptions", none, true⟩

def ofHelp (arguments : List Text) : Except UsageError Invocation := do
  let _ ← Flag.parse (globalFlags ++ [helpFlag]) arguments
  return .help

def ofShell (shell : Text) (arguments : List Text) : Except UsageError Invocation := do
  let parsed ← Flag.parse (globalFlags ++ [helpFlag, descriptionsFlag]) arguments
  if asksForHelp parsed.values then return .help
  match parsed.arguments with
  | [] => return .help
  | a :: _ => throw (.unknownCommand (programName ++ " completion " ++ shell) a [])

def ofCompletion (arguments : List Text) : Except UsageError Invocation :=
  match (words arguments).head?.filter shells.contains with
  | some shell => ofShell shell (withoutCommand shell arguments)
  | none => ofHelp arguments

def ofGuide? (name : Text) (arguments : List Text) : Option (Except UsageError Invocation) :=
  if name = Text.ofString "help" then some (ofHelp arguments)
  else if name = Text.ofString "completion" then some (ofCompletion arguments)
  else none

def parse (arguments : List Text) : Except UsageError Invocation :=
  match words arguments with
  | [] => ofHelp arguments
  | name :: _ =>
    match Command.ofName? name, ofGuide? name (withoutCommand name arguments) with
    | some c, _ => ofCommand c (withoutCommand name arguments)
    | none, some guide => guide
    | none, none => .error (.unknownCommand programName name (suggestions name))

end Invocation

end MiniSharp
