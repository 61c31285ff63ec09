import MiniSharp.Text.Quoted

namespace MiniSharp

structure Flag where
  name : Text
  short : Option UInt8
  switch : Bool

inductive UsageError
  | unknownCommand (within name : Text) (suggestions : List Text)
  | unknownFlag (name : Text)
  | unknownShorthand (c : UInt8) (letters : Text)
  | badSyntax (argument : Text)
  | missingValue (argument : Text)
  | missingShortValue (c : UInt8) (letters : Text)
  | badSwitch (flag : Flag) (value : Text)
  | tooManyArguments (limit found : Nat)

def dash : UInt8 := Text.byte '-'

def Flag.display (f : Flag) : Text :=
  match f.short with
  | some c => dash :: c :: (Text.ofString ", --" ++ f.name)
  | none => dash :: dash :: f.name

def didYouMean (suggestions : List Text) : Text :=
  if suggestions.isEmpty then []
  else Text.ofString "\n\nDid you mean this?\n" ++
    suggestions.flatMap fun s => Text.tab :: s ++ [Text.newline]

def UsageError.message : UsageError → Text
  | unknownCommand within name suggestions =>
    "unknown command " ++ name.quoted ++ " for " ++ within.quoted ++ didYouMean suggestions
  | unknownFlag name => "unknown flag: --" ++ name
  | unknownShorthand c letters =>
    "unknown shorthand flag: " ++ Text.quotedPoint c.toNat ++ " in -" ++ letters
  | badSyntax argument => "bad flag syntax: " ++ argument
  | missingValue argument => "flag needs an argument: " ++ argument
  | missingShortValue c letters =>
    "flag needs an argument: " ++ Text.quotedPoint c.toNat ++ " in -" ++ letters
  | badSwitch flag value =>
    "invalid argument " ++ value.quoted ++ " for " ++ flag.display.quoted ++
      " flag: strconv.ParseBool: parsing " ++ value.quoted ++ ": invalid syntax"
  | tooManyArguments limit found =>
    "accepts at most " ++ Text.decimal limit ++ " arg(s), received " ++ Text.decimal found

namespace Flag

def equals : UInt8 := Text.byte '='

def isDashed (t : Text) : Bool := t.head? == some dash

def isLong (t : Text) : Bool := t.take 2 == [dash, dash]

def find? (flags : List Flag) (name : Text) : Option Flag := flags.find? fun f => f.name == name

def findShort? (flags : List Flag) (c : UInt8) : Option Flag :=
  flags.find? fun f => f.short == some c

def takesNext (flags : List Flag) (argument : Text) : Bool :=
  !argument.contains equals &&
    ((isLong argument && !((find? flags (argument.drop 2)).any Flag.switch)) ||
      (isDashed argument && argument.length == 2 &&
        !((argument.drop 1).head?.any fun c => (findShort? flags c).any Flag.switch)))

def trueWords : List Text := ["1", "t", "T", "TRUE", "true", "True"]
def falseWords : List Text := ["0", "f", "F", "FALSE", "false", "False"]

def check (f : Flag) (value : Text) : Except UsageError (Flag × Text) :=
  if f.switch && !trueWords.contains value && !falseWords.contains value then
    .error (.badSwitch f value)
  else .ok (f, value)

structure Parsed where
  values : List (Flag × Text)
  arguments : List Text

def Parsed.withValue (f : Flag × Text) (p : Parsed) : Parsed := { p with values := f :: p.values }

def Parsed.withArgument (a : Text) (p : Parsed) : Parsed := { p with arguments := a :: p.arguments }

/-- Letters that start like this are meant for a test runner and are passed over. -/
def testLetters : Text := "test."

def letters (flags : List Flag) : Text → Except UsageError (List (Flag × Text) × Option (Flag × UInt8))
  | [] => .ok ([], none)
  | c :: rest =>
    if testLetters.isPrefixOf (c :: rest) then .ok ([], none)
    else match findShort? flags c with
    | none => .error (.unknownShorthand c (c :: rest))
    | some f =>
      if rest.head? == some equals && 2 ≤ rest.length then do
        return ([← f.check (rest.drop 1)], none)
      else if f.switch then do
        let (more, pending) ← letters flags rest
        return ((f, Text.ofString "true") :: more, pending)
      else if rest = [] then .ok ([], some (f, c))
      else .ok ([(f, rest)], none)

def long (flags : List Flag) (argument : Text) : Except UsageError (Flag × Option Text) :=
  let body := argument.drop 2
  if isDashed body || body.head? == some equals then .error (.badSyntax argument)
  else
    let name := body.takeWhile (· != equals)
    match find? flags name with
    | none => .error (.unknownFlag name)
    | some f =>
      if body.contains equals then do
        return (f, some (← f.check (body.drop (name.length + 1))).2)
      else if f.switch then .ok (f, some (Text.ofString "true"))
      else .ok (f, none)

/-- Reads arguments; two dashes end the flags. A flag that needs its value comes with the error for
when there is none. -/
def parseFrom (flags : List Flag) (pending : Option (Flag × UsageError)) :
    List Text → Except UsageError Parsed
  | [] =>
    match pending with
    | some (_, e) => .error e
    | none => .ok ⟨[], []⟩
  | a :: rest =>
    match pending with
    | some (f, _) => return (← parseFrom flags none rest).withValue (f, a)
    | none =>
      if !isDashed a || a.length == 1 then return (← parseFrom flags none rest).withArgument a
      else if a == [dash, dash] then .ok ⟨[], rest⟩
      else if isLong a then do
        match ← long flags a with
        | (f, some value) => return (← parseFrom flags none rest).withValue (f, value)
        | (f, none) => parseFrom flags (some (f, .missingValue a)) rest
      else do
        let (values, last) ← letters flags (a.drop 1)
        let pending := last.map fun (f, c) => (f, .missingShortValue c [c])
        let more ← parseFrom flags pending rest
        return { more with values := values ++ more.values }

def parse (flags : List Flag) (arguments : List Text) : Except UsageError Parsed :=
  parseFrom flags none arguments

end Flag

end MiniSharp
