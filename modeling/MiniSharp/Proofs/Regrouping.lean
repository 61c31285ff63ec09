import MiniSharp.Proofs.ChosenNames
import MiniSharp.Proofs.TokenMaps

namespace MiniSharp

open Text (byte isDigit isLetter)
open Grammar (Phrase Tok Mark OneOf Ladder Unary Primary Args More Expression)

namespace Lexer

open Grammar.Phrase (tokens)

def EndsWord (rest : Text) : Prop := ∀ b ∈ rest.head?, isWordByte b = false ∧ b ≠ byte '.'

theorem EndsWord.mark (d : Delimiter) (rest : Text) : EndsWord (d.spelling ++ rest) := by
  cases d <;> exact fun b hb => Option.some.inj hb ▸ by decide

theorem EndsWord.blank (rest : Text) : EndsWord (Text.blank :: rest) :=
  fun b hb => Option.some.inj hb ▸ by decide

theorem EndsWord.nil : EndsWord [] := by simp [EndsWord]

section ReadAs

variable {D D' : Type} [Phrase D] [Phrase D'] {t u rest : Text}

def ReadAs (Q : D → Prop) (t rest : Text) : Prop :=
  ∀ p, ∃ d, Q d ∧
    (scanFrom p (t ++ rest)).tokens = tokens d ++ (scanFrom (p.after t) rest).tokens

theorem ReadAs.append {Q : D → Prop} {R : D' → Prop} (h : ReadAs Q t (u ++ rest))
    (h' : ReadAs R u rest) : ReadAs (fun d : D × D' => Q d.1 ∧ R d.2) (t ++ u) rest := by
  intro p
  obtain ⟨d, hd, ht⟩ := h p
  obtain ⟨e, he, hu⟩ := h' (p.after t)
  refine ⟨(d, e), ⟨hd, he⟩, ?_⟩
  rw [List.append_assoc, ht, hu, Position.after_append, Grammar.tokens_pair, List.append_assoc]

theorem ReadAs.imp {Q : D → Prop} {R : D' → Prop} (h : ReadAs Q t rest)
    (hi : ∀ d, Q d → ∃ e, R e ∧ tokens e = tokens d) : ReadAs R t rest := by
  intro p
  obtain ⟨d, hd, ht⟩ := h p
  obtain ⟨e, he, hte⟩ := hi d hd
  exact ⟨e, he, hte ▸ ht⟩

end ReadAs

theorem readAs_token {kind : TokenKind} {text : Text} {b : UInt8} {t rest : Text}
    (hb : isBlank b = false) (hs : b ≠ byte '/')
    (h : lexeme b (t ++ rest) = ⟨kind, text, none, b :: t, rest⟩) :
    ReadAs (fun x : Tok kind => x.token.text = text) (b :: t) rest := by
  intro p
  refine ⟨⟨⟨kind, text, p, none⟩, rfl⟩, rfl, ?_⟩
  rw [List.cons_append, scanFrom_eq_afterGap, gap_of_plain hb fun he => absurd he hs]
  simp only [afterGap, h, if_true]
  rfl

theorem readAs_mark (d : Delimiter) (rest : Text) :
    ReadAs (fun x : Mark d => x.token.text = d.spelling) d.spelling rest := by
  cases d <;> exact readAs_token (by decide) (by decide) rfl

theorem readAs_word {kind : TokenKind} {x rest : Text} (hx : ∃ b t, x = b :: t ∧ isLetter b)
    (h : wordLexeme (x ++ rest) = ⟨kind, x, none, x, rest⟩) :
    ReadAs (fun t : Tok kind => t.token.text = x) x rest := by
  obtain ⟨b, t, rfl, hb⟩ := hx
  obtain ⟨hblank, hslash⟩ := isWordByte_plain (b := b) (by simp [isWordByte, hb])
  exact readAs_token hblank hslash ((lexeme_word hb _).trans h)

theorem readAs_name {x rest : Text} (hx : IsName x) (hr : EndsWord rest) :
    ReadAs (fun t : Grammar.Name => t.token.text = x) x rest := by
  obtain ⟨htake, hdrop⟩ := takeWhile_ends hx.word fun b hb => (hr b hb).1
  refine readAs_word hx.start ?_
  rw [wordLexeme_of_name (htake.symm ▸ hx.notKeyword), htake, hdrop]

theorem readAs_keyword (k : Keyword) {rest : Text} (hr : EndsWord rest) :
    ReadAs (fun t : Grammar.Word k => t.token.text = k.spelling) k.spelling rest := by
  obtain ⟨hstart, hword, hk⟩ := keyword_spelled k
  obtain ⟨htake, hdrop⟩ := takeWhile_ends hword fun b hb => (hr b hb).1
  refine readAs_word hstart ?_
  rw [wordLexeme_of_keyword (htake.symm ▸ hk), hdrop]

theorem readAs_digits {ds rest : Text} (hd : IsDigits ds) (hr : EndsWord rest) :
    ReadAs (fun t : Tok .intLiteral => t.token.text = ds) ds rest := by
  have hend : ∀ b ∈ rest.head?, isDigit b = false := by
    intro b hb
    exact (Bool.or_eq_false_iff.mp (hr b hb).1).2
  obtain ⟨htake, hdrop⟩ := takeWhile_ends hd.digit hend
  have hnumber : numberLexeme (ds ++ rest) = ⟨.intLiteral, ds, none, ds, rest⟩ := by
    cases rest with
    | nil => simp only [numberLexeme, htake, hdrop]
    | cons c rest => simp only [numberLexeme, htake, hdrop, if_neg (hr c rfl).2]
  obtain ⟨b, t, rfl⟩ := List.exists_cons_of_ne_nil hd.nonempty
  have hb : isDigit b := hd.digit b List.mem_cons_self
  obtain ⟨hblank, hslash⟩ := isWordByte_plain (b := b) (by simp [isWordByte, hb])
  exact readAs_token hblank hslash ((lexeme_number hb _).trans hnumber)

theorem symbols_not : ∃ before after, symbols = before ++ (.operator .not, [byte '!']) :: after ∧
    ∀ p ∈ before, p.2.head? = some (byte '!') → p.2 = [byte '!', byte '='] :=
  ⟨symbols.take 7, symbols.drop 8, by decide +kernel, by decide +kernel⟩

theorem symbol?_not {c : UInt8} (hc : c ≠ byte '=') (rest : Text) :
    symbol? (byte '!' :: c :: rest) =
      some ⟨.operator .not, [byte '!'], none, [byte '!'], c :: rest⟩ := by
  obtain ⟨before, after, hsymbols, hbefore⟩ := symbols_not
  refine List.findSome?_eq_some_iff.mpr ⟨before, _, after, hsymbols, rfl, fun p hp => ?_⟩
  rw [Option.map_eq_none_iff]
  cases hr : p.2.isPrefixOf? (byte '!' :: c :: rest) with
  | none => rfl
  | some more =>
    have happ := isPrefixOf?_append hr
    cases hs : p.2 with
    | nil =>
      have hne : ∀ p ∈ symbols, p.2 ≠ [] := by decide
      exact absurd hs (hne p (hsymbols ▸ List.mem_append_left _ hp))
    | cons b s =>
      rw [hs, List.cons_append, List.cons.injEq] at happ
      have heq := hbefore p hp (by rw [hs, happ.1]; rfl)
      rw [hs, List.cons.injEq] at heq
      rw [heq.2, List.singleton_append, List.cons.injEq] at happ
      exact absurd happ.2.1.symm hc

theorem readAs_sign {o : Operator} (ho : o ∈ [Operator.not, .minus]) {c : UInt8}
    (hc : c ≠ byte '=') (rest : Text) :
    ReadAs (fun t : Tok (.operator o) => t.token.text = o.spelling) o.spelling (c :: rest) := by
  simp only [List.mem_cons, List.not_mem_nil, or_false] at ho
  rcases ho with rfl | rfl
  · refine readAs_token (b := byte '!') (t := []) (by decide) (by decide) ?_
    simp only [lexeme, List.nil_append, symbol?_not hc]
    rfl
  · exact readAs_token (by decide) (by decide) rfl

theorem readAs_spaced {kind : TokenKind} {text bytes : Text} (h : Spells kind text bytes)
    (rest : Text) :
    ReadAs (fun t : Tok kind => t.token.text = text) (bytes ++ [Text.blank]) rest := by
  intro p
  refine ⟨⟨⟨kind, text, p, none⟩, rfl⟩, rfl, ?_⟩
  rw [List.append_assoc, List.singleton_append, scanFrom_spells h, Position.after_append]
  rfl

theorem ReadAs.after_blank {D : Type} [Phrase D] {Q : D → Prop} {t rest : Text}
    (h : ReadAs Q t rest) : ReadAs Q (Text.blank :: t) rest := by
  intro p
  obtain ⟨d, hd, ht⟩ := h (p.next Text.blank)
  exact ⟨d, hd, by rw [List.cons_append, scanFrom_blank, ht]; rfl⟩

end Lexer

open Lexer (ReadAs EndsWord)

theorem TokenStream.readExpression_of_gives {s : TokenStream} {e : Expr Unit}
    (h : Parser.Gives (Parser.expression s.tokens) e []) : s.readExpression.1 = .ok e := by
  obtain ⟨_, h⟩ := h
  simp only [readExpression, h]

theorem parseExpression_of_readAs {Q : Expression → Prop} {t : Text} (h : ReadAs Q t []) :
    ∃ d, Q d ∧ parseExpression t = .ok d.expr := by
  obtain ⟨d, hd, ht⟩ := h .first
  rw [List.append_nil, Lexer.scanFrom_nil] at ht
  refine ⟨d, hd, TokenStream.readExpression_of_gives ?_⟩
  rw [scan, ht]
  exact Parser.expression_gives d (r := []) (by simp [Parser.Ends])

theorem Grammar.Primary.exists_ladder (d : Primary) (n : Nat) :
    ∃ e : Ladder n, e.tokens = d.tokens ∧ e.expr = d.expr :=
  Ladder.exists_lift (Nat.zero_le n) (.operand (.primary d))

section Renaming

variable (given : SymbolId → Text)

def Note.chosen (note : Note) (name : Text) : Text :=
  note.refers.elim name fun x => given x.id

mutual

def Expr.rename : Expr Note → Expr Unit
  | .literal _ t value => .literal () t value
  | .ident note t name => .ident () t (note.chosen given name)
  | .call note t name args => .call () t (note.chosen given name) (Expr.renameAll args)
  | .unary _ t op operand => .unary () t op operand.rename
  | .binary _ t op left right => .binary () t op left.rename right.rename
  | .foreign t kind => .foreign t kind

def Expr.renameAll : List (Expr Note) → List (Expr Unit)
  | [] => []
  | e :: rest => e.rename :: Expr.renameAll rest

end

def Literal.Plain : Literal → Prop
  | .float _ | .char _ | .string _ => False
  | .int _ | .bool _ | .untyped => True

def Note.Plain (note : Note) : Prop :=
  ∀ x ∈ note.refers, (given x.id).head? ≠ some (byte '@')

mutual

/-- An expression whose code has only tokens of the source language: no float, char or string, no
name behind an at sign, no call of the entry and no concatenation. -/
def Expr.Plain : Expr Note → Prop
  | .literal _ _ value => value.Plain
  | .ident note _ _ => note.Plain given
  | .call note _ name args => name ≠ Typing.entryName ∧ note.Plain given ∧ Expr.AllPlain args
  | .unary _ _ _ operand => operand.Plain
  | .binary note _ op left right =>
    ¬(op = .operator .plus ∧ note.type = some .string) ∧ left.Plain ∧ right.Plain
  | .foreign .. => True

def Expr.AllPlain : List (Expr Note) → Prop
  | [] => True
  | e :: rest => e.Plain ∧ Expr.AllPlain rest

end

end Renaming

section Alike

variable {ν : Type}

def Expr.Alike (e e' : Expr ν) : Prop :=
  e.mapTokens (fun _ => .absent) = e'.mapTokens (fun _ => .absent)

def Expr.AllAlike (es es' : List (Expr ν)) : Prop :=
  Expr.mapTokensAll (fun _ => .absent) es = Expr.mapTokensAll (fun _ => .absent) es'

namespace Expr

variable {note : ν} {t t' : Token}

theorem Alike.literal {value : Literal} :
    Alike (literal note t value) (literal note t' value) := rfl

theorem Alike.ident {name : Text} : Alike (ident note t name) (ident note t' name) := rfl

theorem Alike.call {name : Text} {args args' : List (Expr ν)} (h : AllAlike args args') :
    Alike (call note t name args) (call note t' name args') :=
  congrArg (Expr.call note .absent name) h

theorem Alike.unary {op : TokenKind} {e e' : Expr ν} (h : Alike e e') :
    Alike (unary note t op e) (unary note t' op e') :=
  congrArg (Expr.unary note .absent op) h

theorem Alike.binary {op : TokenKind} {l l' r r' : Expr ν} (hl : Alike l l') (hr : Alike r r') :
    Alike (binary note t op l r) (binary note t' op l' r') :=
  congrArg₂ (Expr.binary note .absent op) hl hr

theorem AllAlike.cons {e e' : Expr ν} {es es' : List (Expr ν)} (h : Alike e e')
    (hs : AllAlike es es') : AllAlike (e :: es) (e' :: es') :=
  congrArg₂ List.cons h hs

end Expr

end Alike

theorem Target.Identifier.isName {x : Text} (h : Target.Identifier x)
    (hp : x.head? ≠ some (byte '@')) : IsName x := by
  cases h with
  | plain hx => exact hx
  | escaped => exact absurd rfl hp

namespace Emitted

variable {given : SymbolId → Text}

/-- The code is read back: it is an expression of the source language, and the one that it is the
code of, but for the names. -/
def Regroups (given : SymbolId → Text) (e : Expr Note) (c : Target.Expr) : Prop :=
  e.Plain given → ∃ r, parseExpression c.render = .ok r ∧ r.Alike (e.rename given)

structure Scans (given : SymbolId → Text) (e : Expr Note) (c : Target.Expr) : Prop where
  starts : ∃ b t, c.render = b :: t ∧ b ≠ byte '='
  reads : ∀ rest, EndsWord rest →
    ReadAs (fun d : Primary => d.expr.Alike (e.rename given)) c.render rest

theorem Scans.parses {e : Expr Note} {c : Target.Expr} (h : Scans given e c) :
    ∃ r, parseExpression c.render = .ok r ∧ r.Alike (e.rename given) := by
  have hread : ReadAs (fun d : Expression => d.expr.Alike (e.rename given)) c.render [] := by
    refine (h.reads [] .nil).imp fun d hd => ?_
    obtain ⟨l, hl, he⟩ := d.exists_ladder 6
    exact ⟨l, he ▸ hd, hl⟩
  obtain ⟨d, hd, hparse⟩ := parseExpression_of_readAs hread
  exact ⟨d.expr, hparse, hd⟩

theorem ne_equals_of_isWordByte {b : UInt8} (h : Lexer.isWordByte b) : b ≠ byte '=' := by
  rintro rfl
  exact absurd h (by decide)

theorem scans_int {note : Note} {t : Token} {n : Nat} (hn : n ≤ 2147483647) :
    Scans given (.literal note t (.int n)) (.int n) := by
  have hdigits : IsDigits (Text.decimal n) := ⟨Text.decimal_ne_nil n, Text.isDigit_decimal n⟩
  have hrender : (Target.Expr.int n).render = Text.decimal n := by
    rw [Target.Expr.render, Text.ofInt, if_neg (by omega), Int.natAbs_natCast]
  constructor
  · obtain ⟨b, u, hb⟩ := List.exists_cons_of_ne_nil hdigits.nonempty
    have hdigit := hdigits.digit b (hb ▸ List.mem_cons_self)
    exact ⟨b, u, hrender.trans hb, ne_equals_of_isWordByte (by simp [Lexer.isWordByte, hdigit])⟩
  · intro rest hr
    rw [hrender]
    refine (Lexer.readAs_digits hdigits hr).imp fun d hd => ?_
    have hvalue : Text.value d.token.text = n := by rw [hd, Text.value_decimal]
    have hdenotes : Grammar.Denotes d.token (.int n) := by
      have := Grammar.Denotes.int d.kind_eq (by rw [hvalue]; exact hn)
      rwa [hvalue] at this
    exact ⟨.constant ⟨d.token, _, hdenotes⟩, .literal, rfl⟩

theorem scans_bool {note : Note} {t : Token} {b : Bool} :
    Scans given (.literal note t (.bool b)) (.bool b) := by
  cases b with
  | true =>
    refine ⟨⟨_, _, rfl, by decide⟩, fun rest hr => ?_⟩
    refine (Lexer.readAs_keyword .trueKw hr).imp fun d _ => ?_
    exact ⟨.constant ⟨d.token, _, .true d.kind_eq⟩, .literal, rfl⟩
  | false =>
    refine ⟨⟨_, _, rfl, by decide⟩, fun rest hr => ?_⟩
    refine (Lexer.readAs_keyword .falseKw hr).imp fun d _ => ?_
    exact ⟨.constant ⟨d.token, _, .false d.kind_eq⟩, .literal, rfl⟩

theorem scans_literal {note : Note} {t : Token} {value : Literal} {c : Target.Expr}
    (hv : Parser.literal? t = some (.ok value)) (h : Lowering.literal t value = .ok c)
    (hp : value.Plain) : Scans given (.literal note t value) c := by
  cases Parser.denotes_of_literal? hv with
  | int hk hn =>
    cases h
    exact scans_int hn
  | true | false =>
    cases h
    exact scans_bool
  | float | char | string => exact hp.elim

theorem starts_of_isName {x : Text} (h : IsName x) (more : Text) :
    ∃ b t, x ++ more = b :: t ∧ b ≠ byte '=' := by
  obtain ⟨b, t, rfl, -⟩ := h.start
  exact ⟨b, t ++ more, rfl, ne_equals_of_isWordByte (h.word b List.mem_cons_self)⟩

theorem scans_name {note : Note} {t : Token} {name : Text} {x : Symbol}
    (hx : note.refers = some x) (hn : IsName (given x.id)) :
    Scans given (.ident note t name) (.name (given x.id)) := by
  have hchosen : note.chosen given name = given x.id := by rw [Note.chosen, hx]; rfl
  constructor
  · simpa [Target.Expr.render] using starts_of_isName hn []
  · intro rest hr
    refine (Lexer.readAs_name hn hr).imp fun d hd => ⟨.name d, ?_, rfl⟩
    rw [Primary.expr, Expr.rename, hchosen, hd]
    exact .ident

section Arguments

def moreArgs (cs : List Target.Expr) : Text := cs.flatMap fun c => ", " ++ c.render

theorem renderList_cons (c : Target.Expr) (cs : List Target.Expr) :
    Target.Expr.renderList (c :: cs) = c.render ++ moreArgs cs := by
  induction cs generalizing c with
  | nil => exact (List.append_nil _).symm
  | cons d cs ih =>
    rw [Target.Expr.renderList, ih]
    simp [moreArgs]

theorem endsWord_moreArgs (cs : List Target.Expr) {rest : Text} (h : EndsWord rest) :
    EndsWord (moreArgs cs ++ rest) := by
  cases cs with
  | nil => exact h
  | cons c cs => exact Lexer.EndsWord.mark .comma _

theorem readAs_moreArgs {es : List (Expr Note)} {cs : List Target.Expr} {rest : Text}
    (h : List.Forall₂ (Scans given) es cs) (hr : EndsWord rest) :
    ReadAs (fun d : More => Expr.AllAlike d.exprs (Expr.renameAll given es)) (moreArgs cs)
      rest := by
  induction h with
  | nil => exact fun p => ⟨.nil, rfl, rfl⟩
  | @cons e c es cs hc _ ih =>
    have hsplit : moreArgs (c :: cs) =
        (Delimiter.comma.spelling ++ [Text.blank]) ++ (c.render ++ moreArgs cs) :=
      List.append_assoc _ _ _
    have hcomma := Lexer.readAs_spaced (.delimiter .comma) ((c.render ++ moreArgs cs) ++ rest)
    rw [hsplit]
    refine (hcomma.append ((hc.reads _ (endsWord_moreArgs cs hr)).append ih)).imp ?_
    rintro ⟨comma, d, more⟩ ⟨-, hd, hmore⟩
    obtain ⟨l, hl, he⟩ := d.exists_ladder 6
    refine ⟨.cons comma l more, .cons (he ▸ hd) hmore, ?_⟩
    exact congrArg (comma.token :: ·) (congrArg (· ++ more.tokens) hl)

theorem readAs_args {es : List (Expr Note)} {cs : List Target.Expr} {rest : Text}
    (h : List.Forall₂ (Scans given) es cs) (hr : EndsWord rest) :
    ReadAs (fun d : Args => Expr.AllAlike d.exprs (Expr.renameAll given es))
      (Target.Expr.renderList cs) rest := by
  cases h with
  | nil => exact fun p => ⟨.none, rfl, rfl⟩
  | @cons e c es cs hc hcs =>
    rw [renderList_cons]
    refine ((hc.reads _ (endsWord_moreArgs cs hr)).append (readAs_moreArgs hcs hr)).imp ?_
    rintro ⟨d, more⟩ ⟨hd, hmore⟩
    obtain ⟨l, hl, he⟩ := d.exists_ladder 6
    exact ⟨.some l more, .cons (he ▸ hd) hmore, congrArg (· ++ more.tokens) hl⟩

theorem scans_call {note : Note} {t : Token} {name : Text} {x : Symbol} {es : List (Expr Note)}
    {cs : List Target.Expr} (hx : note.refers = some x) (hn : IsName (given x.id))
    (h : List.Forall₂ (Scans given) es cs) :
    Scans given (.call note t name es) (.call (given x.id) cs) := by
  have hchosen : note.chosen given name = given x.id := by rw [Note.chosen, hx]; rfl
  have hrender : (Target.Expr.call (given x.id) cs).render =
      given x.id ++ (Delimiter.openParen.spelling ++
        (Target.Expr.renderList cs ++ Delimiter.closeParen.spelling)) := by
    rw [Target.Expr.render]
    simp only [List.flatten_cons, List.flatten_nil, List.append_nil]
    rfl
  constructor
  · rw [hrender]
    exact starts_of_isName hn _
  · intro rest hr
    have hclose := Lexer.readAs_mark .closeParen rest
    have hargs := readAs_args h (Lexer.EndsWord.mark .closeParen rest)
    have hopen := Lexer.readAs_mark .openParen
      ((Target.Expr.renderList cs ++ Delimiter.closeParen.spelling) ++ rest)
    have hname := Lexer.readAs_name hn (Lexer.EndsWord.mark .openParen
      ((Target.Expr.renderList cs ++ Delimiter.closeParen.spelling) ++ rest))
    rw [hrender]
    rw [← List.append_assoc] at hname
    refine (hname.append (hopen.append (hargs.append hclose))).imp ?_
    rintro ⟨d, left, args, right⟩ ⟨hd, -, hargs, -⟩
    refine ⟨.call d left args right, ?_, rfl⟩
    rw [Primary.expr, Expr.rename, hchosen, hd]
    exact .call hargs

end Arguments

theorem scans_parens {e : Expr Note} {t : Text} {c : Target.Expr}
    (hrender : c.render = Delimiter.openParen.spelling ++ (t ++ Delimiter.closeParen.spelling))
    (h : ∀ rest, EndsWord rest →
      ReadAs (fun d : Expression => d.expr.Alike (e.rename given)) t rest) : Scans given e c := by
  constructor
  · rw [hrender]
    exact ⟨_, _, rfl, by decide⟩
  · intro rest hr
    have hclose := Lexer.readAs_mark .closeParen rest
    have hopen := Lexer.readAs_mark .openParen ((t ++ Delimiter.closeParen.spelling) ++ rest)
    rw [hrender]
    refine (hopen.append ((h _ (.mark .closeParen rest)).append hclose)).imp ?_
    rintro ⟨left, d, right⟩ ⟨-, hd, -⟩
    exact ⟨.parens left d right, hd, rfl⟩

theorem scans_unary {note : Note} {t : Token} {op : TokenKind} {e : Expr Note} {c : Target.Expr}
    (hop : Parser.isUnary op) (h : Scans given e c) :
    Scans given (.unary note t op e) (.unary op c) := by
  obtain ⟨o, ho, rfl⟩ := Parser.exists_unary hop
  refine scans_parens (t := o.spelling ++ c.render) ?_ fun rest hr => ?_
  · rw [Target.Expr.render]
    simp only [List.flatten_cons, List.flatten_nil, List.append_nil, List.append_assoc]
    rfl
  · obtain ⟨b, u, hb, hne⟩ := h.starts
    have hsign : ReadAs (fun t : Tok (.operator o) => t.token.text = o.spelling) o.spelling
        (c.render ++ rest) := by
      rw [hb]
      exact Lexer.readAs_sign ho hne (u ++ rest)
    refine (hsign.append (h.reads rest hr)).imp ?_
    rintro ⟨sign, d⟩ ⟨-, hd⟩
    obtain ⟨l, hl, he⟩ := Ladder.exists_lift (n := 6) (by decide)
      (.operand (.apply ⟨sign.token, o, ho, sign.kind_eq⟩ (.primary d)))
    exact ⟨l, he ▸ .unary hd, hl⟩

theorem scans_binary {note : Note} {t : Token} {op : TokenKind} {e f : Expr Note}
    {l r : Target.Expr} (hop : Parser.precedence op ≠ 0) (hl : Scans given e l)
    (hr : Scans given f r) : Scans given (.binary note t op e f) (.binary op l r) := by
  obtain ⟨o, n, rfl, ho, hp⟩ := Parser.exists_level hop
  refine scans_parens (t := l.render ++ ((Text.blank :: (o.spelling ++ [Text.blank])) ++ r.render))
    ?_ fun rest hrest => ?_
  · rw [Target.Expr.render]
    simp only [List.flatten_cons, List.flatten_nil, List.append_nil, List.append_assoc,
      List.cons_append]
    rfl
  · have hop' := (Lexer.readAs_spaced (.operator o) (r.render ++ rest)).after_blank
    refine ((hl.reads _ (.blank _)).append (hop'.append (hr.reads rest hrest))).imp ?_
    rintro ⟨d, sign, d'⟩ ⟨hd, -, hd'⟩
    -- The operands are lifted to the two sides of the operator's own level.
    obtain ⟨x, hx, hex⟩ := d.exists_ladder (n + 1)
    obtain ⟨y, hy, hey⟩ := d'.exists_ladder n
    obtain ⟨z, hz, hez⟩ := Ladder.exists_lift (n := 6) (by omega)
      (.apply x ⟨sign.token, o, ho, sign.kind_eq⟩ y)
    refine ⟨z, hez ▸ .binary (hex ▸ hd) (hey ▸ hd'), hz.trans ?_⟩
    rw [Ladder.tokens, hx, hy]
    rfl

section Code

variable (given : SymbolId → Text) (P : Expr Note → Target.Expr → Prop)

mutual

/-- The code of an expression, node by node: names are the given ones, the operands of a
concatenation may be shown, and every node and its code are related by `P`. -/
inductive ExprCode : Expr Note → Target.Expr → Prop
  | literal {note t value c} : Lowering.literal t value = .ok c → P (.literal note t value) c →
    ExprCode (.literal note t value) c
  | name {note t name x} : note.refers = some x → P (.ident note t name) (.name (given x.id)) →
    ExprCode (.ident note t name) (.name (given x.id))
  | call {note t name x args cs} : note.refers = some x → ArgsCode args cs →
    P (.call note t name args) (.call (given x.id) cs) →
    ExprCode (.call note t name args) (.call (given x.id) cs)
  | entry {note t} : P (.call note t Typing.entryName []) .entry →
    ExprCode (.call note t Typing.entryName []) .entry
  | unary {note t op operand c} : ExprCode operand c →
    P (.unary note t op operand) (.unary op c) → ExprCode (.unary note t op operand) (.unary op c)
  | binary {note t op left right l r} : ExprCode left l → ExprCode right r →
    P (.binary note t op left right) (.binary op l r) →
    ExprCode (.binary note t op left right) (.binary op l r)
  | concat {note t op left right l r l' r'} : note.type = some .string → ExprCode left l →
    ExprCode right r → Operand l l' → Operand r r' →
    P (.binary note t op left right) (.binary op l' r') →
    ExprCode (.binary note t op left right) (.binary op l' r')

inductive ArgsCode : List (Expr Note) → List Target.Expr → Prop
  | nil : ArgsCode [] []
  | cons {e c rest cs} : ExprCode e c → ArgsCode rest cs → ArgsCode (e :: rest) (c :: cs)

end

end Code

end Emitted

namespace Lowering

open Emitted

variable {given : SymbolId → Text} {Γ : Target.Env} {names : Names}

theorem literal_ne_display {t : Token} {value : Literal} {c : Target.Expr} :
    literal t value ≠ .ok (.display c) := by
  intro h
  cases value <;> cases h

theorem expr_ne_display {e : Expr Note} {c : Target.Expr} : expr names e ≠ .ok (.display c) := by
  intro h
  cases e with
  | literal note t value =>
    rw [expr] at h
    exact literal_ne_display h
  | ident | unary =>
    simp only [expr, bind_eq_ok, pure_eq_ok] at h
    obtain ⟨_, -, h⟩ := h
    cases h
  | call note t name args =>
    rw [expr] at h
    split at h
    · cases pure_eq_ok.mp h
    · simp only [bind_eq_ok, pure_eq_ok] at h
      obtain ⟨_, -, _, -, h⟩ := h
      cases h
  | binary =>
    obtain ⟨_, _, _, _, -, -, -, -, h, -⟩ := binary_operands h
    cases h
  | foreign => cases h

end Lowering

namespace Emitted

variable {given : SymbolId → Text} {Γ : Target.Env} {names : Lowering.Names}

theorem ExprTyped.ne_display {e : Expr Note} {c : Target.Expr} (h : ExprTyped Γ e (.display c)) :
    False := by
  cases h with
  | literal hl => exact Lowering.literal_ne_display hl

theorem ExprTyped.operands {note : Note} {t : Token} {op : TokenKind} {left right : Expr Note}
    {l' r' : Target.Expr} (h : ExprTyped Γ (.binary note t op left right) (.binary op l' r')) :
    ∃ l r, ExprTyped Γ left l ∧ ExprTyped Γ right r ∧ Operand l l' ∧ Operand r r' := by
  cases h with
  | binary hl hr => exact ⟨_, _, hl, hr, .kept, .kept⟩
  | concat hl hr _ hol hor => exact ⟨_, _, hl, hr, hol, hor⟩

theorem Operand.unique {e : Expr Note} {l l₀ l' : Target.Expr} (ht : ExprTyped Γ e l)
    (h : Operand l l') (he : Lowering.expr names e = .ok l₀) (h₀ : Operand l₀ l') : l = l₀ := by
  cases h with
  | kept =>
    cases h₀ with
    | kept => rfl
    | shown => exact ht.ne_display.elim
  | shown =>
    cases h₀ with
    | kept => exact absurd he Lowering.expr_ne_display
    | shown => rfl

end Emitted

namespace Lowering

open Emitted

variable {given : SymbolId → Text} {Γ : Target.Env} {names : Names}

theorem code_of_scans {e : Expr Note} {c : Target.Expr} (hs : e.Plain given → Scans given e c)
    (hcode : Regroups given e c → ExprCode given (Regroups given) e c) :
    ExprCode given (Regroups given) e c ∧ (e.Plain given → Scans given e c) :=
  ⟨hcode fun hp => (hs hp).parses, hs⟩

mutual

theorem expr_code (hgiven : ∀ id, Target.Identifier (given id)) (hf : names.Follows given)
    {c : Target.Expr} : (e : Expr Note) → e.Formed Token.Spelt → ExprTyped Γ e c →
      expr names e = .ok c →
      ExprCode given (Regroups given) e c ∧ (e.Plain given → Scans given e c)
  | .literal note t value, he, _, h => by
    rw [expr] at h
    exact code_of_scans (fun hp => scans_literal he.2 h hp) (.literal h)
  | .ident note t name, _, _, h => by
    simp only [expr, bind_eq_ok, pure_eq_ok] at h
    obtain ⟨g, hg, rfl⟩ := h
    obtain ⟨x, hx, rfl⟩ := givenName_follows hf hg
    exact code_of_scans (fun hp => scans_name hx ((hgiven x.id).isName (hp x hx))) (.name hx)
  | .call note t name args, he, ht, h => by
    by_cases hm : name = Typing.entryName
    · rw [expr, if_pos hm, pure_eq_ok] at h
      subst h
      cases ht with
      | entry => exact code_of_scans (fun hp => absurd hm hp.1) .entry
    · rw [expr, if_neg hm] at h
      simp only [bind_eq_ok, pure_eq_ok] at h
      obtain ⟨cs, hcs, g, hg, rfl⟩ := h
      obtain ⟨x, hx, rfl⟩ := givenName_follows hf hg
      cases ht with
      | call hargs =>
        obtain ⟨hcode, hscan⟩ := exprs_code hgiven hf args he.2 hargs hcs
        refine code_of_scans (fun hp => ?_) (.call hx hcode)
        exact scans_call hx ((hgiven x.id).isName (hp.2.1 x hx)) (hscan hp.2.2)
  | .unary note t op operand, he, ht, h => by
    simp only [expr, bind_eq_ok, pure_eq_ok] at h
    obtain ⟨c, hc, rfl⟩ := h
    cases ht with
    | unary ho =>
      obtain ⟨hcode, hscan⟩ := expr_code hgiven hf operand he.2.2.2 ho hc
      exact code_of_scans (fun hp => scans_unary he.2.2.1 (hscan hp)) (.unary hcode)
  | .binary note t op left right, he, ht, h => by
    obtain ⟨l, r, l', r', hl, hr, hol, hor, rfl, hplain⟩ := binary_operands h
    obtain ⟨l₁, r₁, htl, htr, hol₁, hor₁⟩ := ht.operands
    obtain rfl := hol₁.unique htl hl hol
    obtain rfl := hor₁.unique htr hr hor
    obtain ⟨-, -, hop, hleft, hright⟩ := he
    obtain ⟨hcl, hsl⟩ := expr_code hgiven hf left hleft htl hl
    obtain ⟨hcr, hsr⟩ := expr_code hgiven hf right hright htr hr
    rcases hplain with hconcat | ⟨rfl, rfl⟩
    · exact code_of_scans (fun hp => absurd hconcat hp.1) (.concat hconcat.2 hcl hcr hol hor)
    · exact code_of_scans (fun hp => scans_binary hop (hsl hp.2.1) (hsr hp.2.2)) (.binary hcl hcr)
  | .foreign .., he, _, _ => he.elim

theorem exprs_code (hgiven : ∀ id, Target.Identifier (given id)) (hf : names.Follows given)
    {cs : List Target.Expr} : (es : List (Expr Note)) → Expr.AllFormed Token.Spelt es →
      ArgsTyped Γ es cs → exprs names es = .ok cs →
      ArgsCode given (Regroups given) es cs ∧
        (Expr.AllPlain given es → List.Forall₂ (Scans given) es cs)
  | [], _, _, h => by
    simp only [exprs, pure_eq_ok] at h
    subst h
    exact ⟨.nil, fun _ => .nil⟩
  | e :: rest, he, ht, h => by
    simp only [exprs, bind_eq_ok, pure_eq_ok] at h
    obtain ⟨c, hc, cs, hcs, rfl⟩ := h
    cases ht with
    | cons hte htrest =>
      obtain ⟨hcode, hscan⟩ := expr_code hgiven hf e he.1 hte hc
      obtain ⟨hcodes, hscans⟩ := exprs_code hgiven hf rest he.2 htrest hcs
      exact ⟨.cons hcode hcodes, fun hp => .cons (hscan hp.1) (hscans hp.2)⟩

end

end Lowering

open Emitted (MethodCode ExprCode Regroups)

/-- Grouping survives lowering: the names given to the symbols of an accepted program are such that
every node of every expression of it is read back from its code, under these names. -/
theorem grouping_survives_lowering {source : Text} {a : Analysis} (h : check source = .ok a) :
    ∃ methods, a.program.lower = .ok methods ∧
      compile source = .ok (Target.renderFile methods) ∧
      ∃ given, List.Forall₂ (MethodCode given (ExprCode given (Regroups given)))
        a.program.functions methods := by
  obtain ⟨-, methods, hlower, hcompile, given, -, hcode⟩ :=
    check_code (E := fun given => ExprCode given (Regroups given)) h
      fun given Γ hgiven names e c hf he ht hc => (Lowering.expr_code hgiven hf e he ht hc).1
  exact ⟨methods, hlower, hcompile, given, hcode⟩

def regrouped : Text := Text.ofString
  "func twice(x: int): int \x7b return x * 2; \x7d
  func main(): int \x7b var a: int = 1; var base: int = a;
    while (!(a == 9) && true) \x7b var a: int = (2 + 3) * -twice(4 - base); print(\"a\" + a); \x7d
    return a - (base - 1); \x7d"

theorem grouping_survives_lowering_regrouped :
    ∃ a methods given, check regrouped = .ok a ∧ a.program.lower = .ok methods ∧
      compile regrouped = .ok (Target.renderFile methods) ∧
      List.Forall₂ (MethodCode given (ExprCode given (Regroups given))) a.program.functions
        methods := by
  have hok : (check regrouped).isOk := by
    rw [regrouped, Text.ofString_ofList]
    decide +kernel
  obtain ⟨a, ha⟩ := exists_of_isOk hok
  obtain ⟨methods, hlower, hcompile, given, hcode⟩ := grouping_survives_lowering ha
  exact ⟨a, methods, given, ha, hlower, hcompile, hcode⟩

end MiniSharp
