import MiniSharp.Analysis.Compiler
import MiniSharp.Diagnostic.Report
import MiniSharp.Shell.Terminal

namespace MiniSharp

def Stop.report : Stop → Report
  | parse e => .parse e
  | semantic e => .semantic e
  | fault f => .plain f.message

def Report.renderWith (styled : Styling) (source : Text) (r : Report) : Text :=
  let head := styled .error (r.stage.name ++ " failed: " ++ r.message)
  let frame := r.frame source
  if frame = [] then head ++ [Text.newline]
  else head ++ Text.newline :: styled .muted frame ++ [Text.newline]

inductive Phase
  | lex | parse | check | build
  deriving DecidableEq, Repr

namespace Phase

def all : List Phase := [lex, parse, check, build]

def name : Phase → Text
  | lex => "lex"
  | parse => "parse"
  | check => "check"
  | build => "build"

def description : Phase → Text
  | lex => "List the tokens of a MACSLang program"
  | parse => "Print the syntax tree of a MACSLang program"
  | check => "Type-check a MACSLang program"
  | build => "Translate a MACSLang program to C#"

def ofName? (name : Text) : Option Phase := all.find? fun p => p.name == name

structure Outcome where
  output : Text
  error : Option Report

def Outcome.ofExcept : Except Stop Text → Outcome
  | .ok output => ⟨output, none⟩
  | .error stop => ⟨[], some stop.report⟩

def tokenLine (t : Token) : Text :=
  Text.padLeft 4 (Text.ofInt t.pos.line) ++ ":" ++ Text.padRight 4 (Text.ofInt t.pos.column) ++ " " ++
    Text.padRight 15 t.kind.name ++ " " ++ t.text.quoted ++ [Text.newline]

def listTokens : List Token → Outcome
  | [] => ⟨[], none⟩
  | t :: rest =>
    match t.kind, t.problem with
    | .unknown, some problem => ⟨tokenLine t, some (.parse ⟨t, .lexical problem⟩)⟩
    | _, _ =>
      let more := listTokens rest
      { more with output := tokenLine t ++ more.output }

def printTree (source : Text) : Except Stop Text := do
  let program ← (MiniSharp.parse source).mapError .parse
  let text ← program.toTree.render.mapError .fault
  return text ++ [Text.newline]

def functionLine (x : Symbol) : Text :=
  match x.sort with
  | .func params result =>
    "func " ++ x.name ++ "(" ++ Text.join ", " (params.map Ty.name) ++ "): " ++ result.name ++
      [Text.newline]
  | .var _ => []

def listFunctions (source : Text) : Except Stop Text := do
  let analysis ← MiniSharp.check source
  return analysis.global.symbols.flatMap functionLine ++ Text.ofString "no errors found\n"

def run (source : Text) : Phase → Outcome
  | lex => listTokens (scan source).toList
  | parse => .ofExcept (printTree source)
  | check => .ofExcept (listFunctions source)
  | build => .ofExcept (compile source)

end Phase

end MiniSharp
