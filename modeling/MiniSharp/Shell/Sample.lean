import MiniSharp.Text.Basic

namespace MiniSharp

structure Sample where
  name : Text
  description : Text
  source : Text

namespace Sample

def ofLines (lines : List String) : Text :=
  lines.flatMap fun line => Text.ofString line ++ [Text.newline]

def correct : Text := ofLines
  [ "// Example MACSLang program",
    "func factorial(n: int): int \x7b",
    "    var result: int = 1;",
    "    for (var i: int = 1; i <= n; i = i + 1) \x7b",
    "        result = result * i;",
    "    \x7d",
    "    return result;",
    "\x7d",
    "",
    "func main(): int \x7b",
    "    print(\"Enter a number to compute its factorial:\");",
    "    var number: int;",
    "    input(number);",
    "",
    "    var fact: int = factorial(number);",
    "    print(\"The factorial of \" + number + \" is \" + fact);",
    "",
    "    /*",
    "     * A block comment.",
    "     * It may span several lines.",
    "     */",
    "    var myFloat: float = 123.45;",
    "    var myChar: char = 'X';",
    "    var myBool: bool = true;",
    "    if (myBool == false) \x7b",
    "        // nothing",
    "    \x7d else \x7b",
    "        var temp: int = 0;",
    "    \x7d",
    "    while (myBool) \x7b",
    "        myBool = false;",
    "    \x7d",
    "    var exprResult: bool = (5 + 3 * 2) == 11 && !false || true;",
    "    return 0;",
    "\x7d" ]

def semanticError : Text := ofLines
  [ "// Program with semantic errors",
    "func semanticErrors(): int \x7b",
    "    var a: int = 10;",
    "    var b: float = 5.5;",
    "    var c: bool = true;",
    "",
    "    undeclaredVar = 20;",
    "    a = b;",
    "    var result: int = a + c;",
    "    factorial(a, b);",
    "    factorial(c);",
    "    return b;",
    "\x7d",
    "",
    "func otherFunction(): int \x7b",
    "    return 0;",
    "\x7d",
    "",
    "func duplicate(): int \x7b return 1; \x7d",
    "func duplicate(): int \x7b return 2; \x7d" ]

def syntaxError : Text := ofLines
  [ "// Program with a syntax error",
    "func syntaxError(): int \x7b",
    "    var x: int = ; // missing value after '='",
    "    print(\"This line is never reached.\");",
    "    return 0;",
    "\x7d" ]

def all : List Sample :=
  [⟨"correct", "factorial program that compiles and runs", correct⟩,
    ⟨"semantic-error", "program that parses but breaks typing and scoping rules", semanticError⟩,
    ⟨"syntax-error", "program with a missing initializer expression", syntaxError⟩]

def names : List Text := all.map Sample.name

def find? (name : Text) : Option Sample := all.find? fun s => s.name == name

end Sample

end MiniSharp
