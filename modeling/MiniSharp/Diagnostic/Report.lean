import MiniSharp.Diagnostic.Frame

namespace MiniSharp

inductive Stage
  | lex | parse | check | generate
  | other (code : Int)
  deriving DecidableEq, Repr

namespace Stage

def ofCode (code : Int) : Stage :=
  if code = 0 then lex
  else if code = 1 then parse
  else if code = 2 then check
  else if code = 3 then generate
  else other code

def name : Stage → Text
  | lex => "lex"
  | parse => "parse"
  | check => "check"
  | generate => "generate"
  | other code => "Stage(" ++ Text.ofInt code ++ ")"

end Stage

inductive Report
  | parse (error : ParseError)
  | semantic (error : SemanticError)
  | plain (message : Text)
  | within (context : Text) (inner : Report)
  deriving DecidableEq, Repr

namespace Report

def message : Report → Text
  | parse e => e.message
  | semantic e => e.message
  | plain text => text
  | within context inner => context ++ inner.message

def cause : Report → Report
  | within _ inner => inner.cause
  | r => r

def stage (r : Report) : Stage :=
  match r.cause with
  | parse _ => .parse
  | semantic _ => .check
  | _ => .generate

def frame (source : Text) : Report → Text
  | parse e => Frame.render source e.pos
  | semantic e => Frame.render source e.pos
  | _ => []

end Report

end MiniSharp
