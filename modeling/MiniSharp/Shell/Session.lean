import MiniSharp.Project.Build
import MiniSharp.Shell.Invocation
import MiniSharp.Shell.Sample
import MiniSharp.Shell.Style

namespace MiniSharp

inductive Exit
  | reported
  | failed (message : Text)

def Exit.message : Exit → Text
  | reported => "compilation failed"
  | failed message => message

def Report.render (source : Text) (r : Report) : Text := r.renderWith Style.styled source

namespace Session

variable {m : Type → Type} [Monad m]

def needsQuotes (value : Text) : Bool :=
  (Text.pieces value).any fun
    | .point c => c == 0x20 || c == 0x22 || c == 0x3D || c == 0xFFFD || !Text.isPrintable c
    | .stray _ => true

def logPoint (quotes : Bool) (c : Nat) : Text :=
  if c = 0x22 then if quotes then [Text.backslash, Text.doubleQuote] else [Text.doubleQuote]
  else if Text.isPrintable c then Text.encode c
  else match Text.controlLetter? c with
    | some letter => [Text.backslash, Text.byte letter]
    | none =>
      if c < 0x20 then "\\x" ++ Text.hex 2 c
      else if c < 0x10000 then "\\u" ++ Text.hex 4 c
      else "\\U" ++ Text.hex 8 c

def logText (quotes : Bool) (value : Text) : Text :=
  (Text.pieces value).flatMap fun
    | .point c => logPoint quotes c
    | .stray b => [b]

/-- The lines of a value that has several, each behind a bar. After the last one the line ends if
there are `more` fields. -/
def logLines (more : Bool) : List Text → Text
  | [] => []
  | [[]] => []
  | [line] => "  │ " ++ logText false line ++ (if more then [Text.newline] else [])
  | line :: lines => "  │ " ++ logText false line ++ Text.newline :: logLines more lines

def logField (f : Text × Text) (more : Bool) : Text :=
  let (key, value) := f
  if value.contains Text.newline then
    "\n  " ++ key ++ "=\n" ++ logLines more value.lines
  else Text.blank :: key ++ Text.byte '=' ::
    (if value = [] then [Text.doubleQuote, Text.doubleQuote]
    else if needsQuotes value then
      Text.doubleQuote :: logText true value ++ [Text.doubleQuote]
    else value)

def logFields : List (Text × Text) → Text
  | [] => []
  | f :: rest => logField f (!rest.isEmpty) ++ logFields rest

def logLine (e : LogEntry) : Text :=
  e.level.name ++ " macsc: " ++ e.message ++ logFields e.fields ++ [Text.newline]

def log (host : Host m) (verbose : Bool) (e : LogEntry) : m Unit :=
  if verbose || e.level = .info then host.complain (logLine e) else pure ()

def note (host : Host m) (o : Options) (e : LogEntry) : ExceptT Exit m Unit :=
  ExceptT.lift (log host o.verbose e)

def fail {α : Type} (message : Text) : ExceptT Exit m α := throw (.failed message)

def readSource (host : Host m) (path : Text) : ExceptT Exit m Text := do
  match ← (host.read path : m _) with
  | .ok text => return text
  | .error e => fail ("read source: " ++ e.message)

def source (host : Host m) (o : Options) (arguments : List Text) : ExceptT Exit m (Text × Text) := do
  if o.sample ≠ [] then
    if arguments ≠ [] then fail "pass either a file or --sample, not both"
    match Sample.find? o.sample with
    | some s => return ("sample " ++ s.name, s.source)
    | none =>
      fail ("unknown sample " ++ o.sample.quoted ++ " (available: " ++
        Text.join ", " Sample.names ++ ")")
  else
    match arguments with
    | [path] => return (path, ← readSource host path)
    | _ => fail "expected a source file or --sample"

def report {α : Type} (host : Host m) (source : Text) (r : Report) : ExceptT Exit m α := do
  host.complain (r.render source)
  throw .reported

def emit (host : Host m) (o : Options) (output : Text) : ExceptT Exit m Unit := do
  if o.out = [] then host.print output
  else
    match ← (host.write o.out output : m _) with
    | .error e => fail ("write output: " ++ e.message)
    | .ok () => note host o ⟨.info, "wrote output", [("path", o.out)]⟩

def runPhase (host : Host m) (o : Options) (arguments : List Text) (p : Phase) :
    ExceptT Exit m Unit := do
  let (name, text) ← source host o arguments
  note host o ⟨.debug, "running phase", [("phase", p.name), ("source", name)]⟩
  let r := p.run text
  match r.error with
  | none => emit host o r.output
  | some e =>
    host.print r.output
    report host text e

def config (o : Options) : ProjectConfig := ⟨o.sdk, o.framework, o.project, o.out⟩

def runProgram (host : Host m) (o : Options) (name text : Text) : ExceptT Exit m Unit := do
  match compile text with
  | .error stop => report host text stop.report
  | .ok code =>
    note host o
      ⟨.debug, "generated C#", [("source", name), ("bytes", Text.decimal code.length)]⟩
    match ← ((Project.launch host (log host o.verbose) (config o) code).run : m _) with
    | .ok () => return ()
    | .error (.build output _) =>
      host.complain (Style.styled .error "dotnet build failed" ++ "\n" ++ output)
      throw .reported
    | .error e => fail e.message

def runMenu (host : Host m) (arguments : List Text) : ExceptT Exit m Unit := do
  for path in arguments do
    let _ ← readSource host path
  fail "could not open a new TTY: open /dev/tty: no such device or address"

def runCommand (host : Host m) (c : Command) (o : Options) (arguments : List Text) :
    ExceptT Exit m Unit :=
  match c with
  | .phase p => runPhase host o arguments p
  | .run => do
    let (name, text) ← source host o arguments
    runProgram host o name text
  | .menu => runMenu host arguments

def run (host : Host m) (arguments : List Text) : ExceptT Exit m Unit :=
  match Invocation.parse arguments with
  | .error e => fail e.message
  | .ok .help => return ()
  | .ok (.command c o arguments) => runCommand host c o arguments

end Session

end MiniSharp
