import MiniSharp.Datum.Parser
import MiniSharp.Markdown.Node
import MiniSharp.Text.Space

namespace MiniSharp

namespace Suite

inductive InputKind
  | expr | program
  deriving DecidableEq, Repr

def InputKind.name : InputKind → Text
  | expr => "macs-expr"
  | program => "macs-program"

inductive AssertionKind
  | ast | types | csharp | compileError
  deriving DecidableEq, Repr

def AssertionKind.name : AssertionKind → Text
  | ast => "ast"
  | types => "types"
  | csharp => "csharp"
  | compileError => "compile-error"

def inputKind? (language : Text) : Option InputKind :=
  [.expr, .program].find? fun k : InputKind => k.name == language

def assertionKind? (language : Text) : Option AssertionKind :=
  [.ast, .types, .csharp, .compileError].find? fun k : AssertionKind => k.name == language

structure Assertion where
  kind : AssertionKind
  content : Text
  datum : Option Datum

def Assertion.lines (a : Assertion) : List Text :=
  (a.content.lines.map Text.trim).filter (· ≠ [])

structure Input where
  kind : InputKind
  text : Text
  line : Nat

structure Case where
  name : Text
  input : Input
  assertions : List Assertion

inductive Error
  | fenceOutside (line : Nat) (language : Text)
  | unknownOutside (line : Nat) (language : Text)
  | manyInputs (line : Nat) (name : Text)
  | badDatum (line : Nat) (name : Text) (error : Datum.ReadError)
  | unknownLanguage (line : Nat) (language name : Text)
  | noInput (name : Text)
  | noAssertions (name : Text)
  | typesInput (name : Text)
  | typesShape (name : Text)
  deriving DecidableEq, Repr

def Error.message : Error → Text
  | fenceOutside line language =>
    "line " ++ Text.decimal line ++ ": " ++ language ++ " fence found outside of test case"
  | unknownOutside line language =>
    "line " ++ Text.decimal line ++ ": unknown fence language '" ++ language ++
      "' found outside of test case"
  | manyInputs line name =>
    "line " ++ Text.decimal line ++ ": multiple input fences found in test '" ++ name ++ "'"
  | badDatum line name error =>
    "line " ++ Text.decimal line ++ ": failed to parse Sexy assertion in test '" ++ name ++ "': " ++
      error.message
  | unknownLanguage line language name =>
    "line " ++ Text.decimal line ++ ": unknown fence language '" ++ language ++ "' in test '" ++
      name ++ "'"
  | noInput name => "test '" ++ name ++ "' has no input fence"
  | noAssertions name => "test '" ++ name ++ "' has no assertion fences"
  | typesInput name => "test '" ++ name ++ "': types assertion requires a macs-expr input"
  | typesShape name =>
    "test '" ++ name ++ "': types assertion must be a list of (pattern type) pairs"

structure Draft where
  name : Text
  input : Option Input
  assertions : List Assertion

def checkTypes (name : Text) (kind : InputKind) (a : Assertion) : Except Error Unit :=
  if a.kind ≠ .types then .ok ()
  else if kind ≠ .expr then .error (.typesInput name)
  else match a.datum with
    | some (.list _) => .ok ()
    | _ => .error (.typesShape name)

def Draft.close (d : Draft) : Except Error Case :=
  match d.input with
  | none => .error (.noInput d.name)
  | some input =>
    if input.text = [] then .error (.noInput d.name)
    else if d.assertions.isEmpty then .error (.noAssertions d.name)
    else do
      d.assertions.forM (checkTypes d.name input.kind)
      return ⟨d.name, input, d.assertions⟩

def Draft.addInput (d : Draft) (input : Input) : Except Error Draft :=
  if d.input.any (·.text ≠ []) then .error (.manyInputs input.line d.name)
  else .ok { d with input := some input }

def Draft.addAssertion (d : Draft) (kind : AssertionKind) (content : Text) (line : Nat) :
    Except Error Draft := do
  let datum ←
    if kind = .ast ∨ kind = .types then
      match Datum.parse content with
      | .ok datum => pure (some datum)
      | .error e => throw (.badDatum line d.name e)
    else pure none
  return { d with assertions := d.assertions ++ [⟨kind, content, datum⟩] }

def Draft.fence (d : Draft) (language content : Text) (line : Nat) : Except Error Draft :=
  let content := Text.dropTrailing (· == Text.newline) content
  if language = [] then .ok d
  else match inputKind? language, assertionKind? language with
    | some kind, _ => d.addInput ⟨kind, content, line⟩
    | none, some kind => d.addAssertion kind content line
    | none, none => .error (.unknownLanguage line language d.name)

def outside (language : Text) (line : Nat) : Except Error Unit :=
  if language = [] then .ok ()
  else if (inputKind? language).isSome || (assertionKind? language).isSome then
    .error (.fenceOutside line language)
  else .error (.unknownOutside line language)

structure Progress where
  cases : List Case
  draft : Option Draft

def Progress.close (p : Progress) : Except Error (List Case) :=
  match p.draft with
  | none => .ok p.cases
  | some d => return p.cases ++ [← d.close]

def caseTitle : Text := "Test: "

/-- The line that opens a fence. Only the lines of its content have a place, so it is taken to be the
one before the first of them. -/
def fenceLine (document : Text) : List Markdown.Segment → Nat
  | [] => 1
  | first :: _ => (document.take (min first.start document.length)).count Text.newline

inductive Block
  | heading (title : Text)
  | fence (language content : Text) (line : Nat)
  deriving DecidableEq, Repr

def Block.ofNode (document : Text) : Markdown.Node → Block
  | .heading texts => .heading texts.flatten
  | .fence language lines =>
    .fence language (lines.flatMap Markdown.Segment.text) (fenceLine document lines)

def blocks (parser : Markdown.Parser) (document : Text) : List Block :=
  (parser document).map (.ofNode document)

def Progress.block (p : Progress) : Block → Except Error Progress
  | .heading title =>
    if caseTitle.isPrefixOf title then
      return ⟨← p.close, some ⟨title.drop caseTitle.length, none, []⟩⟩
    else return p
  | .fence language content line =>
    match p.draft with
    | none => do
      outside language line
      return p
    | some d => return { p with draft := some (← d.fence language content line) }

inductive Failure
  | within (error : Error)
  | atEnd (error : Error)

def Failure.message : Failure → Text
  | within error => "error walking markdown AST: " ++ error.message
  | atEnd error => error.message

def ofBlocks (blocks : List Block) : Except Failure (List Case) := do
  let p ← (blocks.foldlM Progress.block ⟨[], none⟩).mapError .within
  p.close.mapError .atEnd

def extractWith (parser : Markdown.Parser) (document : Text) : Except Failure (List Case) :=
  ofBlocks (blocks parser document)

end Suite

end MiniSharp
