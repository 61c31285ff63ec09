import MiniSharp.Text.Basic

namespace MiniSharp

open Text (byte)

inductive Keyword
  | varKw | funcKw
  | intKw | floatKw | charKw | boolKw | stringKw
  | ifKw | elseKw | whileKw | forKw | returnKw
  | printKw | inputKw | trueKw | falseKw
  deriving DecidableEq, Repr

namespace Keyword

def all : List Keyword :=
  [varKw, funcKw, intKw, floatKw, charKw, boolKw, stringKw, ifKw, elseKw, whileKw, forKw, returnKw,
    printKw, inputKw, trueKw, falseKw]

def spelling : Keyword → Text
  | varKw => "var"
  | funcKw => "func"
  | intKw => "int"
  | floatKw => "float"
  | charKw => "char"
  | boolKw => "bool"
  | stringKw => "string"
  | ifKw => "if"
  | elseKw => "else"
  | whileKw => "while"
  | forKw => "for"
  | returnKw => "return"
  | printKw => "print"
  | inputKw => "input"
  | trueKw => "true"
  | falseKw => "false"

def ofSpelling? (t : Text) : Option Keyword := all.find? fun k => k.spelling == t

def name : Keyword → Text
  | varKw => "VAR"
  | funcKw => "FUNC"
  | intKw => "INT_KEYWORD"
  | floatKw => "FLOAT_KEYWORD"
  | charKw => "CHAR_KEYWORD"
  | boolKw => "BOOL_KEYWORD"
  | stringKw => "STRING_KEYWORD"
  | ifKw => "IF"
  | elseKw => "ELSE"
  | whileKw => "WHILE"
  | forKw => "FOR"
  | returnKw => "RETURN"
  | printKw => "PRINT"
  | inputKw => "INPUT"
  | trueKw => "TRUE"
  | falseKw => "FALSE"

end Keyword

inductive Operator
  | plus | minus | times | divide | modulo
  | equal | notEqual | less | greater | lessEqual | greaterEqual
  | and | or | not
  deriving DecidableEq, Repr

namespace Operator

def all : List Operator :=
  [plus, minus, times, divide, modulo, equal, notEqual, less, greater, lessEqual, greaterEqual,
    and, or, not]

def spelling : Operator → Text
  | plus => "+"
  | minus => "-"
  | times => "*"
  | divide => "/"
  | modulo => "%"
  | equal => "=="
  | notEqual => "!="
  | less => "<"
  | greater => ">"
  | lessEqual => "<="
  | greaterEqual => ">="
  | and => "&&"
  | or => "||"
  | not => "!"

def name : Operator → Text
  | plus => "PLUS"
  | minus => "MINUS"
  | times => "MULTIPLY"
  | divide => "DIVIDE"
  | modulo => "MODULO"
  | equal => "EQUALS"
  | notEqual => "NOT_EQUALS"
  | less => "LESS_THAN"
  | greater => "GREATER_THAN"
  | lessEqual => "LESS_EQUAL"
  | greaterEqual => "GREATER_EQUAL"
  | and => "AND"
  | or => "OR"
  | not => "NOT"

end Operator

inductive Delimiter
  | openParen | closeParen | openBrace | closeBrace | semicolon | colon | comma
  deriving DecidableEq, Repr

namespace Delimiter

def all : List Delimiter :=
  [openParen, closeParen, openBrace, closeBrace, semicolon, colon, comma]

def spelling : Delimiter → Text
  | openParen => "("
  | closeParen => ")"
  | openBrace => "\x7b"
  | closeBrace => "\x7d"
  | semicolon => ";"
  | colon => ":"
  | comma => ","

def name : Delimiter → Text
  | openParen => "OPEN_PAREN"
  | closeParen => "CLOSE_PAREN"
  | openBrace => "OPEN_BRACE"
  | closeBrace => "CLOSE_BRACE"
  | semicolon => "SEMICOLON"
  | colon => "COLON"
  | comma => "COMMA"

end Delimiter

inductive TokenKind
  | keyword (word : Keyword)
  | operator (op : Operator)
  | delimiter (mark : Delimiter)
  | assign
  | identifier
  | intLiteral | floatLiteral | charLiteral | stringLiteral
  | eof
  | unknown
  | other (name : Text)
  deriving DecidableEq, Repr

namespace TokenKind

def name : TokenKind → Text
  | keyword k => k.name
  | operator o => o.name
  | delimiter d => d.name
  | assign => "ASSIGN"
  | identifier => "IDENTIFIER"
  | intLiteral => "INT_LITERAL"
  | floatLiteral => "FLOAT_LITERAL"
  | charLiteral => "CHAR_LITERAL"
  | stringLiteral => "STRING_LITERAL"
  | eof => "EOF"
  | unknown => "UNKNOWN"
  | other name => name

def named : List TokenKind :=
  Keyword.all.map keyword ++ Operator.all.map operator ++ Delimiter.all.map delimiter ++
    [assign, identifier, intLiteral, floatLiteral, charLiteral, stringLiteral, eof, unknown]

def ofName (name : Text) : TokenKind :=
  (named.find? fun k => k.name == name).getD (other name)

def operatorSpelling : TokenKind → Text
  | operator o => o.spelling
  | _ => []

end TokenKind

/-- A place in a text. Lines and columns count from 1, columns by bytes. -/
structure Position where
  line : Int
  column : Int
  deriving DecidableEq, Repr

namespace Position

def first : Position := ⟨1, 1⟩

def next (p : Position) (b : UInt8) : Position :=
  if b = Text.newline then ⟨p.line + 1, 1⟩ else ⟨p.line, p.column + 1⟩

def after (p : Position) (t : Text) : Position := t.foldl next p

theorem after_append (p : Position) (s t : Text) : p.after (s ++ t) = (p.after s).after t :=
  List.foldl_append

end Position

inductive Problem
  | unexpectedCharacter
  | unterminatedString
  | badCharacter
  | badFloat
  | unterminatedComment
  | badOperator
  | other (text : Text)
  deriving DecidableEq, Repr

def Problem.message : Problem → Text
  | unexpectedCharacter => "unexpected character"
  | unterminatedString => "unterminated string literal"
  | badCharacter => "invalid character literal"
  | badFloat => "malformed float literal: expected digit after '.'"
  | unterminatedComment => "unterminated block comment"
  | badOperator => "invalid operator"
  | other text => text

structure Token where
  kind : TokenKind
  text : Text
  pos : Position
  problem : Option Problem := none
  deriving DecidableEq, Repr

def Token.absent : Token := ⟨.other [], [], ⟨0, 0⟩, none⟩

def Token.eof (p : Position) : Token := ⟨.eof, [], p, none⟩

structure TokenStream where
  tokens : List Token
  eof : Token

namespace TokenStream

def toList (s : TokenStream) : List Token := s.tokens ++ [s.eof]

def take (s : TokenStream) (n : Nat) : List Token :=
  s.tokens.take n ++ List.replicate (n - s.tokens.length) s.eof

end TokenStream

end MiniSharp
