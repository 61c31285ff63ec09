import MiniSharp.Token.Lexer

namespace MiniSharp

namespace Lexer

structure Cursor where
  position : Position
  rest : Text

def Cursor.next (c : Cursor) : Token × Cursor :=
  let start := c.position.after (gap c.rest).skipped
  match (gap c.rest).rest with
  | [] => (.eof start, ⟨start, []⟩)
  | b :: rest =>
    if (gap c.rest).closed then
      let l := lexeme b rest
      (⟨l.kind, l.text, start, l.problem⟩, ⟨start.after l.bytes, l.rest⟩)
    else (⟨.unknown, "/*", start, some .unterminatedComment⟩, ⟨start.after (b :: rest), []⟩)

end Lexer

/-- A lexer, and at least `n` tokens that are read from it and not yet taken by the parser. -/
structure Lookahead (n : Nat) where
  lexer : Lexer.Cursor
  buffer : List Token
  le : n ≤ buffer.length

namespace Lookahead

def fill (n : Nat) (lexer : Lexer.Cursor) (buffer : List Token) : Lookahead n :=
  if h : buffer.length < n then fill n lexer.next.2 (buffer ++ [lexer.next.1])
  else ⟨lexer, buffer, Nat.le_of_not_lt h⟩
termination_by n - buffer.length
decreasing_by
  simp only [List.length_append, List.length_singleton]
  omega

def start (source : Text) : Lookahead 1 := fill 1 ⟨.first, source⟩ []

def current (p : Lookahead 1) : Token := p.buffer.get ⟨0, p.le⟩

def peek (k : Nat) (p : Lookahead 1) : Token × Lookahead 1 :=
  let q := fill (k + 1) p.lexer p.buffer
  (q.buffer.get ⟨k, q.le⟩, ⟨q.lexer, q.buffer, Nat.le_trans (Nat.le_add_left 1 k) q.le⟩)

def advance (p : Lookahead 1) : Token × Lookahead 1 := (p.current, fill 1 p.lexer p.buffer.tail)

def expect? (kind : TokenKind) (p : Lookahead 1) : Option (Token × Lookahead 1) :=
  if p.current.kind = kind then some p.advance else none

end Lookahead

end MiniSharp
