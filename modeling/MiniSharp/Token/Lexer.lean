import MiniSharp.Token.Basic

namespace MiniSharp

open Text (byte isDigit isLetter)

namespace Lexer

def isBlank (b : UInt8) : Bool :=
  b == Text.blank || b == Text.tab || b == Text.carriageReturn || b == Text.newline

def comment? : Text → Option (Text × Text)
  | [] => none
  | a :: t =>
    match t with
    | [] => none
    | b :: u =>
      if a = byte '*' ∧ b = byte '/' then some ([a, b], u)
      else (comment? t).map fun (body, rest) => (a :: body, rest)

theorem comment?_append {t body rest : Text} (h : comment? t = some (body, rest)) :
    t = body ++ rest := by
  induction t generalizing body rest with
  | nil => simp [comment?] at h
  | cons a t ih =>
    cases t with
    | nil => simp [comment?] at h
    | cons b u =>
      rw [comment?] at h
      split at h
      · simp only [Option.some.injEq, Prod.mk.injEq] at h
        obtain ⟨rfl, rfl⟩ := h
        rfl
      · obtain ⟨⟨body', rest'⟩, hc, he⟩ := Option.map_eq_some_iff.mp h
        simp only [Prod.mk.injEq] at he
        obtain ⟨rfl, rfl⟩ := he
        rw [ih hc, List.cons_append]

/-- What stands before a token. The text is not `closed` if a block comment in it has no end; the
rest then starts with that comment. -/
structure Gap where
  skipped : Text
  rest : Text
  closed : Bool

def Gap.after (t : Text) (g : Gap) : Gap := { g with skipped := t ++ g.skipped }

def gap (t : Text) : Gap :=
  match t with
  | [] => ⟨[], [], true⟩
  | a :: t =>
    if isBlank a then (gap t).after [a]
    else if a = byte '/' then
      match t with
      | [] => ⟨[], [a], true⟩
      | b :: t =>
        if b = byte '/' then
          (gap (t.dropWhile (· != Text.newline))).after
            (a :: b :: t.takeWhile (· != Text.newline))
        else if b = byte '*' then
          match _h : comment? t with
          | some (body, rest) => (gap rest).after (a :: b :: body)
          | none => ⟨[], a :: b :: t, false⟩
        else ⟨[], a :: b :: t, true⟩
    else ⟨[], a :: t, true⟩
termination_by t.length
decreasing_by
  · simp
  · have := (List.dropWhile_suffix (· != Text.newline) (l := t)).length_le
    simp only [List.length_cons]
    omega
  · have := congrArg List.length (comment?_append _h)
    simp only [List.length_append, List.length_cons] at this ⊢
    omega

theorem gap_append (t : Text) : (gap t).skipped ++ (gap t).rest = t := by
  fun_induction gap t <;> simp_all [Gap.after]
  exact (comment?_append (by assumption)).symm

structure Lexeme where
  kind : TokenKind
  text : Text
  problem : Option Problem
  bytes : Text
  rest : Text

/-- The kinds with one spelling. A longer spelling comes before its beginning. -/
def symbols : List (TokenKind × Text) :=
  ([.equal, .notEqual, .lessEqual, .greaterEqual, .and, .or].map pair) ++
    [(.assign, [byte '='])] ++
    ([.not, .less, .greater, .plus, .minus, .times, .divide, .modulo].map pair) ++
    Delimiter.all.map fun d => (.delimiter d, d.spelling)
where
  pair (o : Operator) : TokenKind × Text := (.operator o, o.spelling)

def symbol? (t : Text) : Option Lexeme :=
  symbols.findSome? fun (kind, spelling) =>
    (spelling.isPrefixOf? t).map fun rest => ⟨kind, spelling, none, spelling, rest⟩

def stringLexeme (t : Text) : Lexeme :=
  let body := t.takeWhile (· != Text.doubleQuote)
  match t.dropWhile (· != Text.doubleQuote) with
  | [] => ⟨.unknown, body, some .unterminatedString, Text.doubleQuote :: body, []⟩
  | q :: rest => ⟨.stringLiteral, body, none, Text.doubleQuote :: body ++ [q], rest⟩

/-- One byte between single quotes. Its text is the character with the number of the byte. -/
def charLexeme (t : Text) : Lexeme :=
  match t with
  | [] => ⟨.unknown, [], some .badCharacter, [Text.singleQuote], []⟩
  | c :: t =>
    if c = Text.singleQuote then ⟨.unknown, [], some .badCharacter, [Text.singleQuote, c], t⟩
    else
      match t with
      | [] => ⟨.unknown, Text.encode c.toNat, some .badCharacter, [Text.singleQuote, c], []⟩
      | q :: t =>
        if q = Text.singleQuote then
          ⟨.charLiteral, Text.encode c.toNat, none, [Text.singleQuote, c, q], t⟩
        else ⟨.unknown, Text.encode c.toNat, some .badCharacter, [Text.singleQuote, c], q :: t⟩

def numberLexeme (t : Text) : Lexeme :=
  let whole := t.takeWhile isDigit
  match t.dropWhile isDigit with
  | [] => ⟨.intLiteral, whole, none, whole, []⟩
  | p :: rest =>
    if p = byte '.' then
      match rest.takeWhile isDigit with
      | [] => ⟨.unknown, whole ++ [p], some .badFloat, whole ++ [p], rest⟩
      | d :: ds =>
        ⟨.floatLiteral, whole ++ p :: d :: ds, none, whole ++ p :: d :: ds, rest.dropWhile isDigit⟩
    else ⟨.intLiteral, whole, none, whole, p :: rest⟩

def isWordByte (b : UInt8) : Bool := isLetter b || isDigit b

def wordLexeme (t : Text) : Lexeme :=
  let word := t.takeWhile isWordByte
  let kind := match Keyword.ofSpelling? word with
    | some k => .keyword k
    | none => .identifier
  ⟨kind, word, none, word, t.dropWhile isWordByte⟩

def lexeme (b : UInt8) (t : Text) : Lexeme :=
  match symbol? (b :: t) with
  | some l => l
  | none =>
    if b = Text.doubleQuote then stringLexeme t
    else if b = Text.singleQuote then charLexeme t
    else if isDigit b then numberLexeme (b :: t)
    else if isLetter b then wordLexeme (b :: t)
    else if b = byte '&' ∨ b = byte '|' then ⟨.unknown, [b], some .badOperator, [b], t⟩
    else ⟨.unknown, Text.encode b.toNat, some .unexpectedCharacter, [b], t⟩

theorem isPrefixOf?_append {s t rest : Text} (h : s.isPrefixOf? t = some rest) :
    s ++ rest = t := by
  induction s generalizing t with
  | nil => exact (Option.some.inj h).symm
  | cons a s ih =>
    cases t with
    | nil => cases h
    | cons b t =>
      change (if a == b then s.isPrefixOf? t else none) = some rest at h
      split at h
      · next hab => rw [eq_of_beq hab, List.cons_append, ih h]
      · simp at h

def Lexeme.Splits (l : Lexeme) (t : Text) : Prop := l.bytes ++ l.rest = t ∧ l.bytes ≠ []

theorem symbol?_splits {t : Text} {l : Lexeme} (h : symbol? t = some l) : l.Splits t := by
  obtain ⟨⟨kind, spelling⟩, hmem, hl⟩ := List.exists_of_findSome?_eq_some h
  obtain ⟨rest, hr, rfl⟩ := Option.map_eq_some_iff.mp hl
  have hne : ∀ p ∈ symbols, p.2 ≠ [] := by decide
  exact ⟨isPrefixOf?_append hr, hne _ hmem⟩

theorem stringLexeme_splits (t : Text) : (stringLexeme t).Splits (Text.doubleQuote :: t) := by
  have ht := List.takeWhile_append_dropWhile (p := (· != Text.doubleQuote)) (l := t)
  unfold stringLexeme Lexeme.Splits
  split <;> simp_all

theorem charLexeme_splits (t : Text) : (charLexeme t).Splits (Text.singleQuote :: t) := by
  unfold charLexeme Lexeme.Splits
  repeat' split
  all_goals simp

theorem numberLexeme_splits {b : UInt8} (hb : isDigit b) (t : Text) :
    (numberLexeme (b :: t)).Splits (b :: t) := by
  have hw := List.takeWhile_append_dropWhile (p := isDigit) (l := b :: t)
  have hf (r : Text) := List.takeWhile_append_dropWhile (p := isDigit) (l := r)
  have hne : (b :: t).takeWhile isDigit ≠ [] := by simp [hb]
  unfold numberLexeme Lexeme.Splits
  split
  · next h => exact ⟨by rwa [h] at hw, hne⟩
  · next p rest h =>
    rw [h] at hw
    split
    · split
      · exact ⟨by simpa using hw, by simp⟩
      · next d ds hd =>
        refine ⟨?_, by simp⟩
        rw [← hf rest, hd] at hw
        simpa using hw
    · exact ⟨hw, hne⟩

theorem wordLexeme_splits {b : UInt8} (hb : isLetter b) (t : Text) :
    (wordLexeme (b :: t)).Splits (b :: t) :=
  ⟨List.takeWhile_append_dropWhile, by simp [wordLexeme, isWordByte, hb]⟩

theorem lexeme_splits (b : UInt8) (t : Text) : (lexeme b t).Splits (b :: t) := by
  unfold lexeme
  split
  · next l h => exact symbol?_splits h
  · split
    · next hb => exact hb ▸ stringLexeme_splits t
    · split
      · next hb => exact hb ▸ charLexeme_splits t
      · split
        · next hb => exact numberLexeme_splits hb t
        · split
          · next hb => exact wordLexeme_splits hb t
          · split <;> exact ⟨rfl, List.cons_ne_nil _ _⟩

theorem lexeme_length (b : UInt8) (t : Text) : (lexeme b t).rest.length ≤ t.length := by
  have h := lexeme_splits b t
  have hl := congrArg List.length h.1
  have hp := List.length_pos_iff.mpr h.2
  simp only [List.length_append, List.length_cons] at hl
  omega

def scanFrom (p : Position) (t : Text) : TokenStream :=
  let start := p.after (gap t).skipped
  match _h : (gap t).rest with
  | [] => ⟨[], .eof start⟩
  | b :: rest =>
    if (gap t).closed then
      let l := lexeme b rest
      let more := scanFrom (start.after l.bytes) l.rest
      ⟨⟨l.kind, l.text, start, l.problem⟩ :: more.tokens, more.eof⟩
    else
      ⟨[⟨.unknown, "/*", start, some .unterminatedComment⟩], .eof (start.after (b :: rest))⟩
termination_by t.length
decreasing_by
  have hg := congrArg List.length (gap_append t)
  have hl := lexeme_length b rest
  simp only [List.length_append, _h, List.length_cons] at hg
  omega

end Lexer

def scan (source : Text) : TokenStream := Lexer.scanFrom .first source

end MiniSharp
