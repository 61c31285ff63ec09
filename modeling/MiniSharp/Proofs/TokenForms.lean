import Mathlib.Data.List.TakeWhile
import MiniSharp.Token.Lexer

namespace MiniSharp

structure IsName (x : Text) : Prop where
  start : ∃ b t, x = b :: t ∧ Text.isLetter b
  word : ∀ b ∈ x, Lexer.isWordByte b
  notKeyword : Keyword.ofSpelling? x = none

structure Token.WellSpelled (t : Token) : Prop where
  name : t.kind = .identifier → IsName t.text
  char : t.kind = .charLiteral → t.text ≠ []

namespace Lexer

theorem symbol?_kind {t : Text} {l : Lexeme} (h : symbol? t = some l) :
    l.kind ≠ .identifier ∧ l.kind ≠ .charLiteral := by
  obtain ⟨⟨kind, spelling⟩, hmem, hl⟩ := List.exists_of_findSome?_eq_some h
  obtain ⟨rest, -, rfl⟩ := Option.map_eq_some_iff.mp hl
  have hall : ∀ p ∈ symbols, p.1 ≠ .identifier ∧ p.1 ≠ .charLiteral := by decide
  exact hall _ hmem

theorem stringLexeme_kind (t : Text) :
    (stringLexeme t).kind ≠ .identifier ∧ (stringLexeme t).kind ≠ .charLiteral := by
  unfold stringLexeme
  split <;> simp

theorem charLexeme_kind (t : Text) : (charLexeme t).kind ≠ .identifier := by
  unfold charLexeme
  repeat' split
  all_goals simp

theorem charLexeme_text {t : Text} (h : (charLexeme t).kind = .charLiteral) :
    (charLexeme t).text ≠ [] := by
  unfold charLexeme at h ⊢
  cases t with
  | nil => cases h
  | cons c t =>
    by_cases hc : c = Text.singleQuote
    · simp [hc] at h
    · cases t with
      | nil => simp [hc] at h
      | cons q t =>
        by_cases hq : q = Text.singleQuote
        · simp [hc, hq, Text.encode_ne_nil]
        · simp [hc, hq] at h

theorem numberLexeme_kind (t : Text) :
    (numberLexeme t).kind ≠ .identifier ∧ (numberLexeme t).kind ≠ .charLiteral := by
  unfold numberLexeme
  repeat' split
  all_goals simp

theorem wordLexeme_kind (t : Text) : (wordLexeme t).kind ≠ .charLiteral := by
  unfold wordLexeme
  dsimp only
  split <;> simp

theorem wordLexeme_name {b : UInt8} (hb : Text.isLetter b) (t : Text)
    (h : (wordLexeme (b :: t)).kind = .identifier) : IsName (wordLexeme (b :: t)).text := by
  have hw : isWordByte b = true := by simp [isWordByte, hb]
  refine ⟨⟨b, t.takeWhile isWordByte, by simp [wordLexeme, hw], hb⟩, ?_, ?_⟩
  · intro c hc
    exact List.mem_takeWhile_imp hc
  · unfold wordLexeme at h ⊢
    dsimp only at h ⊢
    split at h
    · cases h
    · assumption

theorem lexeme_wellSpelled (b : UInt8) (t : Text) (p : Position) :
    Token.WellSpelled ⟨(lexeme b t).kind, (lexeme b t).text, p, (lexeme b t).problem⟩ := by
  unfold lexeme
  split
  · next l hl => exact ⟨fun h => absurd h (symbol?_kind hl).1, fun h => absurd h (symbol?_kind hl).2⟩
  · split
    · exact ⟨fun h => absurd h (stringLexeme_kind t).1, fun h => absurd h (stringLexeme_kind t).2⟩
    · split
      · exact ⟨fun h => absurd h (charLexeme_kind t), charLexeme_text⟩
      · split
        · exact ⟨fun h => absurd h (numberLexeme_kind _).1,
            fun h => absurd h (numberLexeme_kind _).2⟩
        · split
          · next hb => exact ⟨wordLexeme_name hb t, fun h => absurd h (wordLexeme_kind _)⟩
          · split <;> exact ⟨by simp, by simp⟩

theorem scanFrom_wellSpelled (p : Position) (t : Text) :
    ∀ x ∈ (scanFrom p t).tokens, x.WellSpelled := by
  fun_induction scanFrom p t with
  | case1 =>
    intro x hx
    cases hx
  | case2 p t start b rest hg hc l more ih =>
    intro x hx
    rcases List.mem_cons.mp hx with rfl | hx
    · exact lexeme_wellSpelled b rest start
    · exact ih x hx
  | case3 p t start b rest hg hc =>
    intro x hx
    rw [List.mem_singleton.mp hx]
    exact ⟨by simp, by simp⟩

end Lexer

theorem scan_wellSpelled (source : Text) : ∀ t ∈ (scan source).tokens, t.WellSpelled :=
  Lexer.scanFrom_wellSpelled .first source

end MiniSharp
