import MiniSharp.Proofs.TokenForms

namespace MiniSharp

open Text (byte isDigit isLetter)

structure IsDigits (t : Text) : Prop where
  nonempty : t ≠ []
  digit : ∀ b ∈ t, isDigit b

theorem IsDigits.start {ds : Text} (h : IsDigits ds) (more : Text) :
    ∃ b t, ds ++ more = b :: t ∧ isDigit b := by
  obtain ⟨b, t, rfl⟩ := List.exists_cons_of_ne_nil h.nonempty
  exact ⟨b, t ++ more, rfl, h.digit b List.mem_cons_self⟩

inductive Spells : TokenKind → Text → Text → Prop
  | keyword (k : Keyword) : Spells (.keyword k) k.spelling k.spelling
  | operator (o : Operator) : Spells (.operator o) o.spelling o.spelling
  | delimiter (d : Delimiter) : Spells (.delimiter d) d.spelling d.spelling
  | assign : Spells .assign [byte '='] [byte '=']
  | name {x : Text} : IsName x → Spells .identifier x x
  | int {ds : Text} : IsDigits ds → Spells .intLiteral ds ds
  | float {whole fraction : Text} : IsDigits whole → IsDigits fraction →
      Spells .floatLiteral (whole ++ byte '.' :: fraction) (whole ++ byte '.' :: fraction)
  | string {body : Text} : Text.doubleQuote ∉ body →
      Spells .stringLiteral body (Text.doubleQuote :: body ++ [Text.doubleQuote])
  | char {c : UInt8} : c ≠ Text.singleQuote →
      Spells .charLiteral (Text.encode c.toNat) [Text.singleQuote, c, Text.singleQuote]

theorem Spells.known {kind : TokenKind} {text bytes : Text} (h : Spells kind text bytes) :
    kind ≠ .unknown ∧ kind ≠ .eof := by
  cases h <;> simp

namespace Lexer

theorem isDigits_takeWhile {t : Text} (h : t.takeWhile isDigit ≠ []) :
    IsDigits (t.takeWhile isDigit) :=
  ⟨h, fun _ hb => List.mem_takeWhile_imp hb⟩

def Lexeme.Sound (l : Lexeme) : Prop :=
  (Spells l.kind l.text l.bytes ∧ l.problem = none) ∨
    (l.kind = .unknown ∧ ∃ p, l.problem = some p ∧ p.message ≠ [])

theorem symbol?_sound {t : Text} {l : Lexeme} (h : symbol? t = some l) : l.Sound := by
  obtain ⟨⟨kind, spelling⟩, hmem, hl⟩ := List.exists_of_findSome?_eq_some h
  obtain ⟨rest, -, rfl⟩ := Option.map_eq_some_iff.mp hl
  refine .inl ⟨?_, rfl⟩
  simp only [symbols, List.mem_append, List.mem_map, symbols.pair, List.mem_singleton,
    Prod.mk.injEq] at hmem
  obtain ((⟨o, -, rfl, rfl⟩ | ⟨rfl, rfl⟩) | ⟨o, -, rfl, rfl⟩) | ⟨d, -, rfl, rfl⟩ := hmem
  · exact .operator o
  · exact .assign
  · exact .operator o
  · exact .delimiter d

theorem stringLexeme_sound (t : Text) : (stringLexeme t).Sound := by
  unfold stringLexeme
  split
  · exact .inr ⟨rfl, _, rfl, by decide⟩
  · next q rest hq =>
    have hquote : q = Text.doubleQuote := by
      have := List.head?_dropWhile_not (· != Text.doubleQuote) t
      rw [hq] at this
      simpa using this
    subst hquote
    refine .inl ⟨.string ?_, rfl⟩
    intro hmem
    simpa using List.mem_takeWhile_imp hmem

theorem charLexeme_sound (t : Text) : (charLexeme t).Sound := by
  unfold charLexeme
  split
  · exact .inr ⟨rfl, _, rfl, by decide⟩
  · next c t =>
    split
    · exact .inr ⟨rfl, _, rfl, by decide⟩
    · next hc =>
      split
      · exact .inr ⟨rfl, _, rfl, by decide⟩
      · next q t =>
        split
        · next hq => exact .inl ⟨hq ▸ .char hc, rfl⟩
        · exact .inr ⟨rfl, _, rfl, by decide⟩

theorem numberLexeme_sound {b : UInt8} (hb : isDigit b) (t : Text) :
    (numberLexeme (b :: t)).Sound := by
  have hwhole : IsDigits ((b :: t).takeWhile isDigit) := isDigits_takeWhile (by simp [hb])
  unfold numberLexeme
  split
  · exact .inl ⟨.int hwhole, rfl⟩
  · next p rest _ =>
    split
    · next hp =>
      subst hp
      split
      · exact .inr ⟨rfl, _, rfl, by decide⟩
      · next d ds hd =>
        have hfraction : IsDigits (d :: ds) := hd ▸ isDigits_takeWhile (hd ▸ List.cons_ne_nil d ds)
        exact .inl ⟨.float hwhole hfraction, rfl⟩
    · exact .inl ⟨.int hwhole, rfl⟩

theorem ofSpelling?_eq_some {x : Text} {k : Keyword} (h : Keyword.ofSpelling? x = some k) :
    k.spelling = x := by
  simpa using List.find?_some h

theorem wordLexeme_of_keyword {t : Text} {k : Keyword}
    (h : Keyword.ofSpelling? (t.takeWhile isWordByte) = some k) :
    wordLexeme t = ⟨.keyword k, k.spelling, none, k.spelling, t.dropWhile isWordByte⟩ := by
  simp only [wordLexeme, h, ofSpelling?_eq_some h]

theorem wordLexeme_of_name {t : Text} (h : Keyword.ofSpelling? (t.takeWhile isWordByte) = none) :
    wordLexeme t = ⟨.identifier, t.takeWhile isWordByte, none, t.takeWhile isWordByte,
      t.dropWhile isWordByte⟩ := by
  simp only [wordLexeme, h]

theorem wordLexeme_sound {b : UInt8} (hb : isLetter b) (t : Text) :
    (wordLexeme (b :: t)).Sound := by
  cases hk : Keyword.ofSpelling? ((b :: t).takeWhile isWordByte) with
  | none =>
    have hname := wordLexeme_name hb t
    rw [wordLexeme_of_name hk] at hname ⊢
    exact .inl ⟨.name (hname rfl), rfl⟩
  | some k =>
    rw [wordLexeme_of_keyword hk]
    exact .inl ⟨.keyword k, rfl⟩

theorem lexeme_sound (b : UInt8) (t : Text) : (lexeme b t).Sound := by
  unfold lexeme
  split
  · next l h => exact symbol?_sound h
  · split
    · exact stringLexeme_sound t
    · split
      · exact charLexeme_sound t
      · split
        · next hb => exact numberLexeme_sound hb t
        · split
          · next hb => exact wordLexeme_sound hb t
          · split
            · exact .inr ⟨rfl, _, rfl, by decide⟩
            · exact .inr ⟨rfl, _, rfl, by decide⟩

theorem symbols_head : ∀ p ∈ symbols, ∀ b ∈ p.2.head?,
    isWordByte b = false ∧ b ≠ Text.doubleQuote ∧ b ≠ Text.singleQuote ∧ isBlank b = false := by
  decide +kernel

theorem symbol?_eq_none {b : UInt8} (t : Text)
    (h : isWordByte b ∨ b = Text.doubleQuote ∨ b = Text.singleQuote) :
    symbol? (b :: t) = none := by
  apply List.findSome?_eq_none_iff.mpr
  intro p hp
  rw [Option.map_eq_none_iff]
  cases hr : p.2.isPrefixOf? (b :: t) with
  | none => rfl
  | some rest =>
    have happ := isPrefixOf?_append hr
    have hhead : b ∈ p.2.head? := by
      cases hs : p.2 with
      | nil =>
        have hne : ∀ p ∈ symbols, p.2 ≠ [] := by decide
        exact absurd hs (hne p hp)
      | cons c s =>
        rw [hs] at happ
        simp [(List.cons.inj happ).1]
    obtain ⟨hw, hd, hs, -⟩ := symbols_head p hp b hhead
    simp [hw, hd, hs] at h

theorem takeWhile_blank {p : UInt8 → Bool} {w : Text} (hw : ∀ b ∈ w, p b) {c : UInt8}
    (hc : p c = false) (rest : Text) : (w ++ c :: rest).takeWhile p = w := by
  rw [List.takeWhile_append_of_pos hw]
  simp [hc]

theorem dropWhile_blank {p : UInt8 → Bool} {w : Text} (hw : ∀ b ∈ w, p b) {c : UInt8}
    (hc : p c = false) (rest : Text) : (w ++ c :: rest).dropWhile p = c :: rest := by
  rw [List.dropWhile_append_of_pos hw]
  simp [hc]

theorem takeWhile_ends {p : UInt8 → Bool} {w rest : Text} (hw : ∀ b ∈ w, p b)
    (hr : ∀ b ∈ rest.head?, p b = false) :
    (w ++ rest).takeWhile p = w ∧ (w ++ rest).dropWhile p = rest := by
  cases rest with
  | nil =>
    rw [List.append_nil]
    exact ⟨List.takeWhile_eq_self_iff.mpr hw, List.dropWhile_eq_nil_iff.mpr hw⟩
  | cons c rest => exact ⟨takeWhile_blank hw (hr c rfl) rest, dropWhile_blank hw (hr c rfl) rest⟩

theorem not_isDigit_of_isLetter {b : UInt8} (h : isLetter b) : isDigit b = false := by
  have hbytes : (byte '0').toNat = 48 ∧ (byte '9').toNat = 57 ∧ (byte 'A').toNat = 65 ∧
      (byte 'a').toNat = 97 ∧ (byte '_').toNat = 95 := by decide
  simp only [isLetter, isDigit, Bool.or_eq_true, Bool.and_eq_true, decide_eq_true_eq, beq_iff_eq,
    Bool.and_eq_false_iff, decide_eq_false_iff_not, UInt8.le_iff_toNat_le,
    ← UInt8.toNat_inj] at h ⊢
  omega

theorem quotes_of_isWordByte {b : UInt8} (h : isWordByte b) :
    b ≠ Text.doubleQuote ∧ b ≠ Text.singleQuote := by
  have hquotes : isWordByte Text.doubleQuote = false ∧ isWordByte Text.singleQuote = false := by
    decide
  constructor
  · rintro rfl
    simp [hquotes.1] at h
  · rintro rfl
    simp [hquotes.2] at h

theorem lexeme_word {b : UInt8} (hb : isLetter b) (t : Text) :
    lexeme b t = wordLexeme (b :: t) := by
  have hword : isWordByte b = true := by simp [isWordByte, hb]
  simp only [lexeme, symbol?_eq_none t (.inl hword), quotes_of_isWordByte hword,
    not_isDigit_of_isLetter hb, hb, if_false, if_true, Bool.false_eq_true]

theorem lexeme_number {b : UInt8} (hb : isDigit b) (t : Text) :
    lexeme b t = numberLexeme (b :: t) := by
  have hword : isWordByte b = true := by simp [isWordByte, hb]
  simp only [lexeme, symbol?_eq_none t (.inl hword), quotes_of_isWordByte hword, hb, if_false,
    if_true]

def Apart (rest : Text) : Prop := ∀ b ∈ rest.head?, b = Text.blank

theorem Apart.nil : Apart [] := by simp [Apart]

theorem Apart.blank (rest : Text) : Apart (Text.blank :: rest) :=
  fun _ hb => (Option.some.inj hb).symm

theorem Apart.ends {rest : Text} (h : Apart rest) {p : UInt8 → Bool} (hp : p Text.blank = false) :
    ∀ b ∈ rest.head?, p b = false :=
  fun b hb => h b hb ▸ hp

theorem Apart.cases {rest : Text} (h : Apart rest) :
    rest = [] ∨ ∃ more, rest = Text.blank :: more := by
  cases rest with
  | nil => exact .inl rfl
  | cons b more => exact .inr ⟨more, by rw [h b rfl]⟩

def ReadsBack (kind : TokenKind) (text bytes : Text) : Prop :=
  ∃ b t, bytes = b :: t ∧ isBlank b = false ∧ (b = byte '/' → t = []) ∧
    ∀ rest, Apart rest → lexeme b (t ++ rest) = ⟨kind, text, none, bytes, rest⟩

theorem readsBack_of_symbol {kind : TokenKind} {b : UInt8} {t : Text} (hb : isBlank b = false)
    (ht : b = byte '/' → t = [])
    (hend : symbol? (b :: t) = some ⟨kind, b :: t, none, b :: t, []⟩)
    (h : ∀ rest, symbol? (b :: t ++ Text.blank :: rest) =
      some ⟨kind, b :: t, none, b :: t, Text.blank :: rest⟩) :
    ReadsBack kind (b :: t) (b :: t) := by
  refine ⟨b, t, rfl, hb, ht, fun rest hrest => ?_⟩
  obtain rfl | ⟨more, rfl⟩ := hrest.cases
  · simp only [lexeme, List.append_nil, hend]
  · have hs := h more
    rw [List.cons_append] at hs
    simp only [lexeme, hs]

theorem readsBack_operator (o : Operator) : ReadsBack (.operator o) o.spelling o.spelling := by
  cases o <;> exact readsBack_of_symbol (by decide) (by decide) rfl fun _ => rfl

theorem readsBack_delimiter (d : Delimiter) : ReadsBack (.delimiter d) d.spelling d.spelling := by
  cases d <;> exact readsBack_of_symbol (by decide) (by decide) rfl fun _ => rfl

theorem isWordByte_plain {b : UInt8} (h : isWordByte b) : isBlank b = false ∧ b ≠ byte '/' := by
  have hplain : isWordByte Text.blank = false ∧ isWordByte Text.tab = false ∧
      isWordByte Text.carriageReturn = false ∧ isWordByte Text.newline = false ∧
      isWordByte (byte '/') = false := by decide
  constructor
  · by_contra hb
    simp only [isBlank, Bool.not_eq_false, Bool.or_eq_true, beq_iff_eq] at hb
    rcases hb with ((rfl | rfl) | rfl) | rfl <;> simp_all
  · rintro rfl
    simp_all

theorem readsBack_word {kind : TokenKind} {x : Text} (hs : ∃ b t, x = b :: t ∧ isLetter b)
    (hw : ∀ b ∈ x, isWordByte b)
    (h : ∀ rest, Apart rest → wordLexeme (x ++ rest) = ⟨kind, x, none, x, rest⟩) :
    ReadsBack kind x x := by
  obtain ⟨b, t, rfl, hb⟩ := hs
  obtain ⟨hblank, hslash⟩ := isWordByte_plain (hw b List.mem_cons_self)
  refine ⟨b, t, rfl, hblank, fun he => absurd he hslash, fun rest hrest => ?_⟩
  rw [lexeme_word hb, ← List.cons_append]
  exact h rest hrest

theorem keyword_spelled (k : Keyword) : (∃ b t, k.spelling = b :: t ∧ isLetter b) ∧
    (∀ b ∈ k.spelling, isWordByte b) ∧ Keyword.ofSpelling? k.spelling = some k := by
  cases k <;>
    exact ⟨⟨_, _, rfl, by decide⟩, List.all_eq_true.mp (by decide +kernel), by decide +kernel⟩

theorem readsBack_keyword (k : Keyword) : ReadsBack (.keyword k) k.spelling k.spelling := by
  obtain ⟨hstart, hword, hk⟩ := keyword_spelled k
  refine readsBack_word hstart hword fun rest hrest => ?_
  obtain ⟨htake, hdrop⟩ := takeWhile_ends hword (hrest.ends rfl)
  rw [wordLexeme_of_keyword (htake.symm ▸ hk), hdrop]

theorem readsBack_name {x : Text} (hx : IsName x) : ReadsBack .identifier x x := by
  refine readsBack_word hx.start hx.word fun rest hrest => ?_
  obtain ⟨htake, hdrop⟩ := takeWhile_ends hx.word (hrest.ends rfl)
  rw [wordLexeme_of_name (htake.symm ▸ hx.notKeyword), htake, hdrop]

theorem readsBack_number {kind : TokenKind} {x : Text} (hx : ∃ b t, x = b :: t ∧ isDigit b)
    (h : ∀ rest, Apart rest → numberLexeme (x ++ rest) = ⟨kind, x, none, x, rest⟩) :
    ReadsBack kind x x := by
  obtain ⟨b, t, rfl, hb⟩ := hx
  obtain ⟨hblank, hslash⟩ := isWordByte_plain (b := b) (by simp [isWordByte, hb])
  refine ⟨b, t, rfl, hblank, fun he => absurd he hslash, fun rest hrest => ?_⟩
  rw [lexeme_number hb, ← List.cons_append]
  exact h rest hrest

theorem readsBack_int {ds : Text} (h : IsDigits ds) : ReadsBack .intLiteral ds ds := by
  refine readsBack_number (by simpa using h.start []) fun rest hrest => ?_
  obtain ⟨htake, hdrop⟩ := takeWhile_ends h.digit (hrest.ends rfl)
  have hne : Text.blank ≠ byte '.' := by decide
  obtain rfl | ⟨more, rfl⟩ := hrest.cases
  · simp only [numberLexeme, htake, hdrop]
  · simp only [numberLexeme, htake, hdrop, if_neg hne]

theorem readsBack_float {whole fraction : Text} (hw : IsDigits whole) (hf : IsDigits fraction) :
    ReadsBack .floatLiteral (whole ++ byte '.' :: fraction) (whole ++ byte '.' :: fraction) := by
  refine readsBack_number (hw.start _) fun rest hrest => ?_
  obtain ⟨htake, hdrop⟩ := takeWhile_ends hf.digit (hrest.ends rfl)
  obtain ⟨d, ds, rfl⟩ := List.exists_cons_of_ne_nil hf.nonempty
  have hpoint : isDigit (byte '.') = false := by decide
  rw [List.append_assoc, List.cons_append]
  simp only [numberLexeme, takeWhile_blank hw.digit hpoint, dropWhile_blank hw.digit hpoint,
    if_true, htake, hdrop]

theorem readsBack_string {body : Text} (h : Text.doubleQuote ∉ body) :
    ReadsBack .stringLiteral body (Text.doubleQuote :: body ++ [Text.doubleQuote]) := by
  refine ⟨Text.doubleQuote, body ++ [Text.doubleQuote], rfl, by decide,
    fun hs => absurd hs (by decide), fun rest _ => ?_⟩
  have hbody : ∀ b ∈ body, (b != Text.doubleQuote) = true := by
    intro b hb
    simpa using ne_of_mem_of_not_mem hb h
  have hquote : (Text.doubleQuote != Text.doubleQuote) = false := by decide
  rw [List.append_assoc, List.singleton_append]
  simp only [lexeme, symbol?_eq_none _ (.inr (.inl rfl)), if_true, stringLexeme,
    takeWhile_blank hbody hquote, dropWhile_blank hbody hquote]

theorem readsBack_char {c : UInt8} (h : c ≠ Text.singleQuote) :
    ReadsBack .charLiteral (Text.encode c.toNat) [Text.singleQuote, c, Text.singleQuote] := by
  refine ⟨Text.singleQuote, [c, Text.singleQuote], rfl, by decide,
    fun hs => absurd hs (by decide), fun rest _ => ?_⟩
  have hne : Text.singleQuote ≠ Text.doubleQuote := by decide
  simp only [lexeme, symbol?_eq_none _ (.inr (.inr rfl)), if_neg hne, if_true, charLexeme,
    List.cons_append, List.nil_append, if_neg h]

theorem readsBack_of_spells {kind : TokenKind} {text bytes : Text} (h : Spells kind text bytes) :
    ReadsBack kind text bytes := by
  cases h with
  | keyword k => exact readsBack_keyword k
  | operator o => exact readsBack_operator o
  | delimiter d => exact readsBack_delimiter d
  | assign => exact readsBack_of_symbol (by decide) (by decide) rfl fun _ => rfl
  | name hx => exact readsBack_name hx
  | int hd => exact readsBack_int hd
  | float hw hf => exact readsBack_float hw hf
  | string hb => exact readsBack_string hb
  | char hc => exact readsBack_char hc

theorem gap_of_plain {b : UInt8} {t : Text} (hb : isBlank b = false)
    (ht : b = byte '/' → Apart t) : gap (b :: t) = ⟨[], b :: t, true⟩ := by
  have hne : Text.blank ≠ byte '/' ∧ Text.blank ≠ byte '*' := by decide
  rw [gap.eq_def]
  simp only [hb, Bool.false_eq_true, if_false]
  by_cases hs : b = byte '/'
  · obtain rfl | ⟨u, rfl⟩ := (ht hs).cases
    · simp [hs]
    · simp [hs, hne]
  · simp [hs]

def afterGap (start : Position) (g : Gap) : TokenStream :=
  match g.rest with
  | [] => ⟨[], .eof start⟩
  | b :: rest =>
    if g.closed then
      let l := lexeme b rest
      let more := scanFrom (start.after l.bytes) l.rest
      ⟨⟨l.kind, l.text, start, l.problem⟩ :: more.tokens, more.eof⟩
    else
      ⟨[⟨.unknown, "/*", start, some .unterminatedComment⟩], .eof (start.after (b :: rest))⟩

theorem scanFrom_eq_afterGap (p : Position) (t : Text) :
    scanFrom p t = afterGap (p.after (gap t).skipped) (gap t) := by
  rw [scanFrom, afterGap]
  split
  · next h => rw [h]
  · next h => rw [h]

theorem scanFrom_blank (p : Position) (t : Text) :
    scanFrom p (Text.blank :: t) = scanFrom (p.next Text.blank) t := by
  have hgap : gap (Text.blank :: t) = (gap t).after [Text.blank] := by
    rw [gap.eq_def]
    rfl
  rw [scanFrom_eq_afterGap, hgap, scanFrom_eq_afterGap]
  rfl

theorem scanFrom_nil (p : Position) : (scanFrom p []).tokens = [] := by
  have hgap : gap [] = ⟨[], [], true⟩ := by rw [gap.eq_def]
  rw [scanFrom_eq_afterGap, hgap]
  rfl

theorem scanFrom_apart {kind : TokenKind} {text bytes rest : Text} (h : Spells kind text bytes)
    (hrest : Apart rest) (p : Position) :
    (scanFrom p (bytes ++ rest)).tokens =
      ⟨kind, text, p, none⟩ :: (scanFrom (p.after bytes) rest).tokens := by
  obtain ⟨b, t, rfl, hb, ht, hl⟩ := readsBack_of_spells h
  have hgap : gap (b :: (t ++ rest)) = ⟨[], b :: (t ++ rest), true⟩ := by
    apply gap_of_plain hb
    intro hs
    rwa [ht hs, List.nil_append]
  rw [List.cons_append, scanFrom_eq_afterGap, hgap]
  simp only [afterGap, hl rest hrest, if_true]
  rfl

theorem scanFrom_spells {kind : TokenKind} {text bytes : Text} (h : Spells kind text bytes)
    (p : Position) (rest : Text) :
    (scanFrom p (bytes ++ Text.blank :: rest)).tokens =
      ⟨kind, text, p, none⟩ ::
        (scanFrom ((p.after bytes).next Text.blank) rest).tokens := by
  rw [scanFrom_apart h (.blank rest), scanFrom_blank]

end Lexer

end MiniSharp
