import Mathlib.Data.List.Chain
import MiniSharp.Proofs.DatumText

namespace MiniSharp.Datum

open Text (byte)

def InRanges (ranges : List (UInt8 × UInt8)) (b : UInt8) : Prop :=
  ∃ r ∈ ranges, r.1 ≤ b ∧ b ≤ r.2

instance (ranges : List (UInt8 × UInt8)) : DecidablePred (InRanges ranges) :=
  fun _ => List.decidableBEx _ _

def digitRanges : List (UInt8 × UInt8) := [(byte '0', byte '9')]

def signRanges : List (UInt8 × UInt8) := [(byte '+', byte '+'), (byte '-', byte '-')]

def symbolRanges : List (UInt8 × UInt8) :=
  (byte 'A', byte 'Z') :: (byte 'a', byte 'z') :: (byte '_', byte '_') :: signRanges

def blankRanges : List (UInt8 × UInt8) := [(0x09, 0x0D), (0x20, 0x20), (0x85, 0x85), (0xA0, 0xA0)]

theorem inRanges_nil {b : UInt8} : ¬ InRanges [] b := by
  rintro ⟨r, hr, -⟩
  cases hr

theorem inRanges_cons {lo hi b : UInt8} {ranges : List (UInt8 × UInt8)} :
    InRanges ((lo, hi) :: ranges) b ↔ (lo ≤ b ∧ b ≤ hi) ∨ InRanges ranges b := by
  simp only [InRanges, List.mem_cons, exists_eq_or_imp]

theorem between_iff {c b : UInt8} : c ≤ b ∧ b ≤ c ↔ b = c := by
  rw [UInt8.le_iff_toNat_le, UInt8.le_iff_toNat_le, ← UInt8.toNat_inj]
  omega

theorem inRanges_digit {b : UInt8} : InRanges digitRanges b ↔ Text.isDigit b = true := by
  simp only [digitRanges, inRanges_cons, inRanges_nil, or_false, Text.isDigit, Bool.and_eq_true,
    decide_eq_true_eq]

theorem inRanges_sign {b : UInt8} :
    InRanges signRanges b ↔ b = byte '+' ∨ b = byte '-' := by
  simp only [signRanges, inRanges_cons, between_iff, inRanges_nil, or_false]

theorem inRanges_symbol {b : UInt8} : InRanges symbolRanges b ↔ startsSymbol b = true := by
  simp only [symbolRanges, inRanges_cons, between_iff, inRanges_sign, startsSymbol, Text.isLetter,
    Bool.or_eq_true, Bool.and_eq_true, decide_eq_true_eq, beq_iff_eq]
  tauto

theorem inRanges_blank {b : UInt8} : InRanges blankRanges b ↔ isBlank b = true := by
  simp only [blankRanges, inRanges_cons, between_iff, inRanges_nil, or_false, isBlank,
    Bool.or_eq_true, Bool.and_eq_true, decide_eq_true_eq, beq_iff_eq, or_assoc]

/-- A text of `[A-Za-z_+-][A-Za-z0-9_+-]*` that does not begin with a sign and a digit. -/
structure SymbolText (t : Text) : Prop where
  shape : ∃ b u, t = b :: u ∧ InRanges symbolRanges b ∧
    ∀ c ∈ u, InRanges (digitRanges ++ symbolRanges) c
  unsigned : ¬ ∃ s c u, t = s :: c :: u ∧ InRanges signRanges s ∧ InRanges digitRanges c

/-- A text of `[+-]?[0-9]+`. -/
def IntegerText (t : Text) : Prop :=
  ∃ sign digits, t = sign ++ digits ∧ (sign = [] ∨ ∃ b, sign = [b] ∧ InRanges signRanges b) ∧
    digits ≠ [] ∧ ∀ c ∈ digits, InRanges digitRanges c

inductive Legible : Datum → Prop
  | symbol {t : Text} : SymbolText t → Legible (.symbol t)
  | string (t : Text) : Legible (.string t)
  | integer {t : Text} : IntegerText t → Legible (.integer t)
  | ellipsis : Legible .ellipsis
  | list {items : List Datum} : (∀ d ∈ items, Legible d) → Legible (.list items)

theorem inRanges_symbolByte {b : UInt8} :
    InRanges (digitRanges ++ symbolRanges) b ↔ isSymbolByte b = true := by
  change InRanges (_ :: symbolRanges) b ↔ _
  rw [inRanges_cons, inRanges_symbol, isSymbolByte, Bool.or_eq_true, or_comm, Text.isDigit,
    Bool.and_eq_true, decide_eq_true_eq, decide_eq_true_eq]

theorem startsSymbol_not_digit {b : UInt8} (h : startsSymbol b = true) : Text.isDigit b = false := by
  have hbytes := symbolBytes_toNat
  simp only [startsSymbol, Text.isLetter, Text.isDigit, Bool.or_eq_true, Bool.and_eq_true,
    decide_eq_true_eq, beq_iff_eq, Bool.and_eq_false_iff, decide_eq_false_iff_not,
    UInt8.le_iff_toNat_le, ← UInt8.toNat_inj] at h ⊢
  omega

theorem startsInteger_iff {b : UInt8} {u : Text} (hb : startsSymbol b = true) :
    startsInteger (b :: u) = true ↔
      ∃ s c v, b :: u = s :: c :: v ∧ InRanges signRanges s ∧ InRanges digitRanges c := by
  simp only [startsInteger, startsSymbol_not_digit hb, Bool.false_or, Bool.and_eq_true,
    Bool.or_eq_true, beq_iff_eq, inRanges_sign, inRanges_digit]
  cases u with
  | nil => simp
  | cons c v =>
    constructor
    · rintro ⟨hsign, hc⟩
      exact ⟨b, c, v, rfl, hsign.symm, hc⟩
    · rintro ⟨s, c', v', he, hsign, hc⟩
      cases he
      exact ⟨hsign.symm, hc⟩

theorem symbolText_iff {t : Text} : SymbolText t ↔ IsSymbol t := by
  constructor
  · rintro ⟨⟨b, u, rfl, hb, hu⟩, hunsigned⟩
    have hstart := inRanges_symbol.mp hb
    refine ⟨⟨b, u, rfl, hstart⟩, List.forall_mem_cons.mpr ⟨?_, ?_⟩, ?_⟩
    · simp [isSymbolByte, hstart]
    · exact fun c hc => inRanges_symbolByte.mp (hu c hc)
    · exact Bool.eq_false_iff.mpr fun h => hunsigned ((startsInteger_iff hstart).mp h)
  · rintro ⟨⟨b, u, rfl, hstart⟩, hinside, hnot⟩
    refine ⟨⟨b, u, rfl, inRanges_symbol.mpr hstart, ?_⟩, ?_⟩
    · exact fun c hc => inRanges_symbolByte.mpr (hinside c (List.mem_cons_of_mem b hc))
    · exact fun h => Bool.eq_false_iff.mp hnot ((startsInteger_iff hstart).mpr h)

theorem integerText_iff {t : Text} : IntegerText t ↔ IsInteger t := by
  constructor
  · rintro ⟨sign, ds, rfl, hsign, hne, hds⟩
    have hdigits : IsDigits ds := ⟨hne, fun c hc => inRanges_digit.mp (hds c hc)⟩
    obtain rfl | ⟨b, rfl, hb⟩ := hsign
    · exact .unsigned hdigits
    · exact .signed (inRanges_sign.mp hb) hdigits
  · intro h
    cases h with
    | unsigned h =>
      exact ⟨[], t, rfl, .inl rfl, h.nonempty, fun c hc => inRanges_digit.mpr (h.digit c hc)⟩
    | @signed sign ds hsign h =>
      exact ⟨[sign], ds, rfl, .inr ⟨sign, rfl, inRanges_sign.mpr hsign⟩, h.nonempty,
        fun c hc => inRanges_digit.mpr (h.digit c hc)⟩

mutual

theorem legible_iff (d : Datum) : d.Legible ↔ d.WellFormed :=
  match d with
  | .symbol t => ⟨fun h => by cases h with | symbol h => exact symbolText_iff.mp h,
      fun h => .symbol (symbolText_iff.mpr h)⟩
  | .string t => iff_of_true (.string t) trivial
  | .integer t => ⟨fun h => by cases h with | integer h => exact integerText_iff.mp h,
      fun h => .integer (integerText_iff.mpr h)⟩
  | .ellipsis => iff_of_true .ellipsis trivial
  | .list items => ⟨fun h => by cases h with | list h => exact (allLegible_iff items).mp h,
      fun h => .list ((allLegible_iff items).mpr h)⟩
  | .other _ _ => iff_of_false (fun h => by cases h) id

theorem allLegible_iff (items : List Datum) : (∀ d ∈ items, d.Legible) ↔ AllWellFormed items :=
  match items with
  | [] => iff_of_true (fun _ h => by cases h) trivial
  | d :: rest => by rw [List.forall_mem_cons, legible_iff d, allLegible_iff rest, AllWellFormed]

end

theorem isInteger_of_starts {b : UInt8} {rest : Text} (h : startsInteger (b :: rest) = true) :
    IsInteger (b :: rest.takeWhile Text.isDigit) := by
  have hdigits : ∀ c ∈ rest.takeWhile Text.isDigit, Text.isDigit c := fun _ => List.mem_takeWhile_imp
  rw [startsInteger, Bool.or_eq_true] at h
  obtain hb | hsign := h
  · exact .unsigned ⟨List.cons_ne_nil _ _, List.forall_mem_cons.mpr ⟨hb, hdigits⟩⟩
  · simp only [Bool.and_eq_true, Bool.or_eq_true, beq_iff_eq] at hsign
    refine .signed hsign.1.symm ⟨?_, hdigits⟩
    cases rest with
    | nil => cases hsign.2
    | cons c rest =>
      have hc : Text.isDigit c = true := hsign.2
      rw [List.takeWhile_cons_of_pos hc]
      exact List.cons_ne_nil _ _

theorem isSymbol_of_starts {b : UInt8} {rest : Text} (hb : startsSymbol b = true)
    (hnot : startsInteger (b :: rest) = false) : IsSymbol (b :: rest.takeWhile isSymbolByte) := by
  refine ⟨⟨b, _, rfl, hb⟩, List.forall_mem_cons.mpr ⟨?_, fun _ => List.mem_takeWhile_imp⟩, ?_⟩
  · simp [isSymbolByte, hb]
  · rw [Bool.eq_false_iff, ne_eq, startsInteger_iff hb] at hnot ⊢
    rintro ⟨s, c, v, he, hs, hc⟩
    obtain ⟨rfl, hv⟩ := List.cons.inj he
    -- The symbol stops somewhere in `rest`, but a digit right after its sign is in `rest` as well.
    have hrest : rest = c :: (v ++ rest.dropWhile isSymbolByte) := by
      rw [← List.cons_append, ← hv, List.takeWhile_append_dropWhile]
    exact hnot ⟨b, c, _, congrArg (b :: ·) hrest, hs, hc⟩

theorem atom_wellFormed {offset : Nat} {b : UInt8} {rest : Text} {r : Read Datum (b :: rest).length}
    (h : atom offset b rest = .ok r) : r.value.WellFormed := by
  rw [atom] at h
  split at h
  · cases h
  · split at h
    · obtain ⟨text, -, htext⟩ := bind_eq_ok.mp h
      cases htext
      trivial
    · split at h
      · cases h
        trivial
      · split at h
        · next hstart =>
          cases h
          exact isInteger_of_starts hstart
        · next hnot =>
          split at h
          · next hstart =>
            cases h
            exact isSymbol_of_starts hstart (Bool.eq_false_iff.mpr hnot)
          · cases h

theorem skip_cons_length {t rest : Text} {b : UInt8} (h : skip false t = b :: rest) :
    rest.length + 1 ≤ t.length := by
  have := skip_length false t
  rwa [h] at this

mutual

theorem read_wellFormed {size : Nat} {t : Text} {r : Read Datum t.length}
    (h : read size t = .ok r) : r.value.WellFormed := by
  rw [read] at h
  split at h
  · cases h
  · next b rest hskip =>
    have hlen := skip_cons_length hskip
    split at h
    · obtain ⟨items, hitems, hr⟩ := bind_eq_ok.mp h
      cases hr
      exact readItems_wellFormed hitems
    · obtain ⟨d, hd, hr⟩ := bind_eq_ok.mp h
      cases hr
      exact atom_wellFormed hd
termination_by 2 * t.length
decreasing_by omega

theorem readItems_wellFormed {size : Nat} {t : Text} {r : Read (List Datum) t.length}
    (h : readItems size t = .ok r) : AllWellFormed r.value := by
  rw [readItems] at h
  split at h
  · cases h
  · next b rest hskip =>
    have hlen := skip_cons_length hskip
    split at h
    · cases h
      trivial
    · obtain ⟨first, hfirst, h⟩ := bind_eq_ok.mp h
      obtain ⟨more, hmore, hr⟩ := bind_eq_ok.mp h
      have hfirstRest := first.lt
      cases hr
      exact ⟨read_wellFormed hfirst, readItems_wellFormed hmore⟩
termination_by 2 * t.length + 1
decreasing_by
  · simp only [List.length_cons]
    omega
  · simp only [List.length_cons] at hfirstRest
    omega

end

theorem parse_wellFormed {t : Text} {d : Datum} (h : parse t = .ok d) : d.WellFormed := by
  obtain ⟨r, hr, hend⟩ := bind_eq_ok.mp h
  split at hend
  · cases hend
    exact read_wellFormed hr
  · cases hend

inductive Spacer
  | blank (b : UInt8) (isBlank : InRanges blankRanges b)
  | comment (body : Text) (oneLine : Text.newline ∉ body)

def Spacer.bytes : Spacer → Text
  | blank b _ => [b]
  | comment body _ => byte ';' :: body ++ [Text.newline]

def spaceText (gap : List Spacer) : Text := gap.flatMap Spacer.bytes

inductive Lexeme
  | opening
  | closing
  | atom (text : Text)
  | ellipsis
  | string (text : Text)

namespace Lexeme

def bytes : Lexeme → Text
  | opening => [byte '(']
  | closing => [byte ')']
  | atom t => t
  | ellipsis => [byte '.', byte '.', byte '.']
  | string t => Text.doubleQuote :: t.flatMap escape ++ [Text.doubleQuote]
where
  escape (b : UInt8) : Text :=
    if b = Text.backslash ∨ b = Text.doubleQuote then [Text.backslash, b] else [b]

def isAtom : Lexeme → Bool
  | atom _ => true
  | _ => false

end Lexeme

mutual

def lexemes : Datum → List Lexeme
  | symbol t => [.atom t]
  | string t => [.string t]
  | integer t => [.atom t]
  | ellipsis => [.ellipsis]
  | list items => .opening :: itemLexemes items ++ [.closing]
  | other _ _ => []

def itemLexemes : List Datum → List Lexeme
  | [] => []
  | d :: rest => d.lexemes ++ itemLexemes rest

end

structure Placed where
  gap : List Spacer
  lexeme : Lexeme

def Placed.text (p : Placed) : Text := spaceText p.gap ++ p.lexeme.bytes

def Apart (ps : List Placed) : Prop :=
  ps.IsChain fun p q => p.lexeme.isAtom → q.lexeme.isAtom → q.gap ≠ []

structure Layout where
  placed : List Placed
  last : List Spacer
  apart : Apart placed

def Layout.lexemes (l : Layout) : List Lexeme := l.placed.map Placed.lexeme

def Layout.text (l : Layout) : Text := l.placed.flatMap Placed.text ++ spaceText l.last

theorem isSpace_spaceText (gap : List Spacer) : IsSpace (spaceText gap) := by
  induction gap with
  | nil => exact .nil
  | cons s gap ih =>
    rw [spaceText, List.flatMap_cons]
    cases s with
    | blank b hb => exact .blank (inRanges_blank.mp hb) ih
    | comment body hbody =>
      rw [Spacer.bytes, List.append_assoc, List.singleton_append]
      exact .comment hbody ih

def Breaks (t : Text) : Prop := ∀ b ∈ t.head?, isSymbolByte b = false

theorem Breaks.of_cons {b : UInt8} (h : isSymbolByte b = false) (t : Text) : Breaks (b :: t) := by
  intro c hc
  obtain rfl := Option.mem_some_iff.mp hc
  exact h

theorem breaks_space {gap : List Spacer} (h : gap ≠ []) (rest : Text) :
    Breaks (spaceText gap ++ rest) := by
  cases gap with
  | nil => exact absurd rfl h
  | cons s gap =>
    cases s with
    | blank b hb =>
      refine Breaks.of_cons (Bool.eq_false_iff.mpr fun hsymbol => ?_) _
      rw [inRanges_blank, (isSymbolByte_apart hsymbol).1.blank] at hb
      cases hb
    | comment body => exact Breaks.of_cons (by decide) _

theorem breaks_mark {x : Lexeme} (h : x.isAtom = false) (rest : Text) : Breaks (x.bytes ++ rest) := by
  cases x with
  | atom => cases h
  | opening | closing | ellipsis | string => exact Breaks.of_cons (by decide) _

theorem breaks_placed {ps : List Placed} (last : List Spacer)
    (h : ∀ p ∈ ps.head?, p.lexeme.isAtom → p.gap ≠ []) :
    Breaks (ps.flatMap Placed.text ++ spaceText last) := by
  cases ps with
  | nil =>
    cases last with
    | nil => intro b hb; cases hb
    | cons s last =>
      have := breaks_space (List.cons_ne_nil s last) []
      rwa [List.append_nil] at this
  | cons p ps =>
    rw [List.flatMap_cons, Placed.text, List.append_assoc, List.append_assoc]
    by_cases hgap : p.gap = []
    · have hatom : p.lexeme.isAtom = false := Bool.eq_false_iff.mpr fun hp => h p rfl hp hgap
      rw [hgap]
      exact breaks_mark hatom _
    · exact breaks_space hgap _

theorem stops_placed {d : Datum} {ps qs : List Placed} (hps : ps.map Placed.lexeme = d.lexemes)
    (hapart : Apart (ps ++ qs)) (last : List Spacer) :
    d.Stops (qs.flatMap Placed.text ++ spaceText last) := by
  intro hd
  have hatom : ∃ t, d.lexemes = [.atom t] := by
    cases d with
    | symbol t | integer t => exact ⟨t, rfl⟩
    | string | ellipsis | list | other => cases hd
  obtain ⟨t, ht⟩ := hatom
  rw [ht, List.map_eq_singleton_iff] at hps
  obtain ⟨p, rfl, hp⟩ := hps
  refine breaks_placed last fun q hq hatom => ?_
  exact (List.isChain_append.mp hapart).2.2 p rfl q hq (by rw [hp]; rfl) hatom

theorem placed_one {ps : List Placed} {x : Lexeme} (hps : ps.map Placed.lexeme = [x]) :
    ∃ gap, ps.flatMap Placed.text = spaceText gap ++ x.bytes := by
  obtain ⟨p, rfl, rfl⟩ := List.map_eq_singleton_iff.mp hps
  exact ⟨p.gap, List.flatMap_singleton ..⟩

mutual

theorem written_placed (d : Datum) (h : d.WellFormed) {ps : List Placed}
    (hps : ps.map Placed.lexeme = d.lexemes) (hapart : Apart ps) :
    ∃ gap text, ps.flatMap Placed.text = spaceText gap ++ text ∧ Written d text :=
  match d with
  | .symbol t => by
    obtain ⟨gap, hgap⟩ := placed_one hps
    exact ⟨gap, t, hgap, .symbol h⟩
  | .string t => by
    obtain ⟨gap, hgap⟩ := placed_one hps
    exact ⟨gap, quote t, hgap, .string t⟩
  | .integer t => by
    obtain ⟨gap, hgap⟩ := placed_one hps
    exact ⟨gap, t, hgap, .integer h⟩
  | .ellipsis => by
    obtain ⟨gap, hgap⟩ := placed_one hps
    have hdots : Text.ofString "..." = Lexeme.ellipsis.bytes := Text.ofString_ofList _
    exact ⟨gap, Text.ofString "...", hdots ▸ hgap, .ellipsis⟩
  | .list items => by
    obtain ⟨opening, more, rfl, hopening, hmore⟩ := List.map_eq_cons_iff.mp hps
    obtain ⟨inner, closing, rfl, hinner, hclosing⟩ := List.map_eq_append_iff.mp hmore
    -- The space before the closing parenthesis is the one after the last item.
    obtain ⟨last, hlast⟩ := placed_one hclosing
    have hbody := writtenItems_placed items h hinner hapart.tail.left_of_append last
    refine ⟨opening.gap, _, ?_, .list hbody⟩
    rw [List.flatMap_cons, List.flatMap_append, hlast, Placed.text, hopening]
    simp only [Lexeme.bytes, List.append_assoc, List.cons_append, List.nil_append]

theorem writtenItems_placed (items : List Datum) (h : AllWellFormed items) {ps : List Placed}
    (hps : ps.map Placed.lexeme = itemLexemes items) (hapart : Apart ps) (last : List Spacer) :
    WrittenItems items (ps.flatMap Placed.text ++ spaceText last) :=
  match items with
  | [] => by
    obtain rfl := List.map_eq_nil_iff.mp hps
    exact .nil (isSpace_spaceText last)
  | d :: rest => by
    obtain ⟨front, back, rfl, hfront, hback⟩ := List.map_eq_append_iff.mp hps
    obtain ⟨gap, text, htext, hd⟩ := written_placed d h.1 hfront hapart.left_of_append
    have hmore := writtenItems_placed rest h.2 hback hapart.right_of_append last
    rw [List.flatMap_append, htext, List.append_assoc]
    exact .cons (isSpace_spaceText gap) hd (stops_placed hfront hapart last) hmore

end

theorem parse_layout {d : Datum} (h : d.WellFormed) {l : Layout} (hl : l.lexemes = d.lexemes) :
    parse l.text = .ok d := by
  obtain ⟨gap, text, htext, hd⟩ := written_placed d h hl l.apart
  have hstop : d.Stops (([] : List Placed).flatMap Placed.text ++ spaceText l.last) :=
    stops_placed hl (by rw [List.append_nil]; exact l.apart) l.last
  rw [Layout.text, htext]
  exact parse_written hd (isSpace_spaceText gap) (isSpace_spaceText l.last) hstop

/-- Reading undoes every layout: what is read is legible, a legible datum is read from its lexemes in
any layout, and also from its rendered text, whatever text it was read from before. -/
theorem parse_inverts_layouts :
    (∀ t d, parse t = .ok d → d.Legible) ∧
    (∀ d, d.Legible → ∀ l : Layout, l.lexemes = d.lexemes → parse l.text = .ok d) ∧
    (∀ d, d.Legible → parse d.render = .ok d) ∧
    ∀ t d, parse t = .ok d → parse d.render = .ok d := by
  simp only [legible_iff]
  exact ⟨fun _ _ => parse_wellFormed, fun _ h _ => parse_layout h, fun _ => parse_render,
    fun _ _ h => parse_render (parse_wellFormed h)⟩

def spread : Datum :=
  .list [.symbol "f", .integer "+1", .ellipsis, .list [], .string "a\x22;"]

def spreadLayout : Layout where
  placed :=
    [⟨[.comment " (" (by decide)], .opening⟩, ⟨[], .atom "f"⟩, ⟨[.blank 0x85 (by decide)], .atom "+1"⟩,
      ⟨[], .ellipsis⟩, ⟨[], .opening⟩, ⟨[.comment ")" (by decide), .blank 0x0B (by decide)], .closing⟩,
      ⟨[], .string "a\x22;"⟩, ⟨[], .closing⟩]
  last := [.blank 0xA0 (by decide)]
  apart := by simp [Apart, Lexeme.isAtom]

theorem spread_wellFormed : spread.WellFormed := by
  have hsymbol : IsSymbol (Text.ofString "f") := by
    rw [Text.ofString_ofList]
    decide
  have hinteger : IsInteger (Text.ofString "+1") := by
    rw [Text.ofString_ofList]
    exact .signed (.inl rfl) ⟨List.cons_ne_nil _ _, List.forall_mem_singleton.mpr rfl⟩
  exact ⟨hsymbol, hinteger, trivial, trivial, trivial, trivial⟩

theorem parse_inverts_layouts_spread : spread.Legible ∧ spreadLayout.lexemes = spread.lexemes ∧
    spreadLayout.text = Text.ofString "; (\n(f" ++ [0x85] ++
      Text.ofString "+1...(;)\n\x0b)\x22a\\\x22;\x22)" ++ [0xA0] ∧
    parse spreadLayout.text = .ok spread ∧ parse spread.render = .ok spread := by
  have hlegible := (legible_iff spread).mpr spread_wellFormed
  have hparse := parse_inverts_layouts.2.1 spread hlegible spreadLayout rfl
  have hrender := parse_inverts_layouts.2.2.2 _ spread hparse
  exact ⟨hlegible, rfl, by decide +kernel, hparse, hrender⟩

end MiniSharp.Datum
