import MiniSharp.Target.Basic
import MiniSharp.Target.Literal

namespace MiniSharp.Target

def typeName : Ty → Text
  | .int => "int"
  | .float => "float"
  | .char => "char"
  | .bool => "bool"
  | .string => "string"
  | .other _ => []

def defaultValue : Ty → Text
  | .int => "0"
  | .float => "0.0f"
  | .char => "'\\0'"
  | .bool => "false"
  | .string => "string.Empty"
  | .other _ => []

def readValue : Ty → Text
  | .int => "int.Parse(Console.ReadLine()!, CultureInfo.InvariantCulture)"
  | .float => "float.Parse(Console.ReadLine()!, CultureInfo.InvariantCulture)"
  | .char => "Console.ReadLine()![0]"
  | .bool => "bool.Parse(Console.ReadLine()!)"
  | .string => "Console.ReadLine() ?? string.Empty"
  | .other _ => []

mutual

def Expr.render : Expr → Text
  | .int value => Text.ofInt value
  | .float digits => digits ++ "f"
  | .bool value => if value then "true" else "false"
  | .char value => charLiteral value
  | .string value => stringLiteral value
  | .default type => defaultValue type
  | .name x => x
  | .call method args => List.flatten [method, "(", Expr.renderList args, ")"]
  | .entry => "Main(System.Array.Empty<string>())"
  | .display value => List.flatten ["global::MACSLangRuntime.Runtime.Show(", value.render, ")"]
  | .unary op operand => List.flatten ["(", op.operatorSpelling, operand.render, ")"]
  | .binary op left right =>
    List.flatten ["(", left.render, " ", op.operatorSpelling, " ", right.render, ")"]

def Expr.renderList : List Expr → Text
  | [] => []
  | [e] => e.render
  | e :: f :: rest => e.render ++ ", " ++ Expr.renderList (f :: rest)

end

def Local.render (x : Local) : Text := typeName x.type ++ " " ++ x.name

def Simple.render : Simple → Text
  | .declare type name value => typeName type ++ " " ++ name ++ " = " ++ value.render
  | .assign name value => name ++ " = " ++ value.render
  | .call value => value.render
  | .discard value => "_ = " ++ value.render

structure Writer where
  text : Text
  indent : Nat

namespace Writer

def line (w : Writer) (t : Text) : Writer :=
  if t = [] then { w with text := w.text ++ [Text.newline] }
  else { w with text := w.text ++ Text.blanks (4 * w.indent) ++ t ++ [Text.newline] }

def openBrace (w : Writer) : Writer :=
  let w := w.line "\x7b"
  { w with indent := w.indent + 1 }

def closeBrace (w : Writer) : Writer := { w with indent := w.indent - 1 }.line "\x7d"

end Writer

def forHeader (init : Option Simple) (cond : Option Expr) (step : Option Simple) : Text :=
  init.elim [] Simple.render ++ ";" ++ cond.elim [] (fun e => Text.blank :: e.render) ++ ";" ++
    step.elim [] (fun s => Text.blank :: s.render)

mutual

def Stmt.write (w : Writer) : Stmt → Writer
  | .simple stmt => w.line (stmt.render ++ ";")
  | .print value => w.line ("Console.WriteLine(" ++ value.render ++ ");")
  | .read name type => (w.line "Console.Out.Flush();").line (name ++ " = " ++ readValue type ++ ";")
  | .ret value => w.line ("return " ++ value.render ++ ";")
  | .ifThen cond body =>
    (Stmt.writeAll (w.line ("if (" ++ cond.render ++ ")")).openBrace body).closeBrace
  | .ifElse cond body elseBody =>
    let w := (Stmt.writeAll (w.line ("if (" ++ cond.render ++ ")")).openBrace body).closeBrace
    (Stmt.writeAll (w.line "else").openBrace elseBody).closeBrace
  | .whileDo cond body =>
    (Stmt.writeAll (w.line ("while (" ++ cond.render ++ ")")).openBrace body).closeBrace
  | .forDo init cond step body =>
    (Stmt.writeAll (w.line ("for (" ++ forHeader init cond step ++ ")")).openBrace body).closeBrace
  | .block body => (Stmt.writeAll w.openBrace body).closeBrace

def Stmt.writeAll (w : Writer) : List Stmt → Writer
  | [] => w
  | s :: rest => Stmt.writeAll (Stmt.write w s) rest

end

namespace Method

def head (m : Method) : Text :=
  if m.entry then "public static int Main(string[] args)"
  else "public static " ++ typeName m.result ++ " " ++ m.name ++ "(" ++
    Text.join ", " (m.params.map Local.render) ++ ")"

def autoFlush : Text :=
  "Console.SetOut(new StreamWriter(Console.OpenStandardOutput()) \x7b AutoFlush = true \x7d);"

def write (w : Writer) (m : Method) : Writer :=
  let w := (w.line m.head).openBrace
  (Stmt.writeAll (if m.entry then w.line autoFlush else w) m.body).closeBrace

end Method

def showMethods : List Text :=
  ["public static string Show(int value) => value.ToString(CultureInfo.InvariantCulture);",
    "public static string Show(float value) => value.ToString(CultureInfo.InvariantCulture);",
    "public static string Show(bool value) => value ? \"true\" : \"false\";",
    "public static string Show(char value) => value.ToString();",
    "public static string Show(string value) => value;"]

def Writer.runtime (w : Writer) : Writer :=
  (showMethods.foldl Writer.line (w.line "internal static class Runtime").openBrace).closeBrace

def Writer.methods (w : Writer) : List Method → Writer
  | [] => w
  | [m] => m.write w
  | m :: n :: rest => Writer.methods ((m.write w).line []) (n :: rest)

def Writer.file (w : Writer) (methods : List Method) : Writer :=
  let w := (((w.line "using System;").line "using System.Globalization;").line "using System.IO;").line []
  let w := (w.line "namespace MACSLangRuntime").openBrace
  let w := (((w.line "public static class Program").openBrace).methods methods).closeBrace
  (w.line []).runtime.closeBrace

def renderFile (methods : List Method) : Text := (Writer.file ⟨[], 0⟩ methods).text

end MiniSharp.Target
