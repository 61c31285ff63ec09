import MiniSharp.Datum.Parser
import MiniSharp.Proofs.FreshNames
import MiniSharp.Proofs.Lexemes
import MiniSharp.Proofs.Outcome

namespace MiniSharp.Datum

open Text (byte)

structure IsSymbol (t : Text) : Prop where
  start : ∃ b u, t = b :: u ∧ startsSymbol b
  inside : ∀ b ∈ t, isSymbolByte b
  notInteger : startsInteger t = false

theorem isSymbol_iff (t : Text) :
    IsSymbol t ↔ t.head?.any startsSymbol ∧ t.all isSymbolByte ∧ startsInteger t = false := by
  rw [List.all_eq_true]
  constructor
  · rintro ⟨⟨b, u, rfl, hb⟩, hin, hnot⟩
    exact ⟨by simpa using hb, hin, hnot⟩
  · rintro ⟨hb, hin, hnot⟩
    cases t with
    | nil => cases hb
    | cons b u => exact ⟨⟨b, u, rfl, by simpa using hb⟩, hin, hnot⟩

instance : DecidablePred IsSymbol := fun t => decidable_of_iff' _ (isSymbol_iff t)

inductive IsInteger : Text → Prop
  | unsigned {ds : Text} : IsDigits ds → IsInteger ds
  | signed {sign : UInt8} {ds : Text} : sign = byte '+' ∨ sign = byte '-' → IsDigits ds →
      IsInteger (sign :: ds)

mutual

def WellFormed : Datum → Prop
  | symbol t => IsSymbol t
  | string _ => True
  | integer t => IsInteger t
  | ellipsis => True
  | list items => AllWellFormed items
  | other .. => False

def AllWellFormed : List Datum → Prop
  | [] => True
  | d :: rest => d.WellFormed ∧ AllWellFormed rest

end

theorem allWellFormed_iff (items : List Datum) :
    AllWellFormed items ↔ ∀ d ∈ items, d.WellFormed := by
  induction items with
  | nil => simp [AllWellFormed]
  | cons d rest ih => rw [AllWellFormed, ih, List.forall_mem_cons]

theorem isInteger_ofInt (i : Int) : IsInteger (Text.ofInt i) := by
  have hdigits : IsDigits (Text.decimal i.natAbs) :=
    ⟨Text.decimal_ne_nil _, Text.isDigit_decimal _⟩
  rw [Text.ofInt]
  split
  · exact .signed (.inr rfl) hdigits
  · exact .unsigned hdigits

inductive IsSpace : Text → Prop
  | nil : IsSpace []
  | blank {b : UInt8} {t : Text} : isBlank b → IsSpace t → IsSpace (b :: t)
  | comment {body t : Text} : Text.newline ∉ body → IsSpace t →
      IsSpace (byte ';' :: body ++ Text.newline :: t)

def isAtom : Datum → Bool
  | symbol _ | integer _ => true
  | _ => false

def Stops (d : Datum) (rest : Text) : Prop :=
  d.isAtom → ∀ b ∈ rest.head?, isSymbolByte b = false

mutual

inductive Written : Datum → Text → Prop
  | symbol {t : Text} : IsSymbol t → Written (.symbol t) t
  | integer {t : Text} : IsInteger t → Written (.integer t) t
  | string (t : Text) : Written (.string t) (quote t)
  | ellipsis : Written .ellipsis (Text.ofString "...")
  | list {items : List Datum} {body : Text} : WrittenItems items body →
      Written (.list items) (byte '(' :: body ++ [byte ')'])

inductive WrittenItems : List Datum → Text → Prop
  | nil {gap : Text} : IsSpace gap → WrittenItems [] gap
  | cons {gap text body : Text} {d : Datum} {rest : List Datum} : IsSpace gap → Written d text →
      d.Stops body → WrittenItems rest body → WrittenItems (d :: rest) (gap ++ text ++ body)

end

theorem skip_comment {body : Text} (h : Text.newline ∉ body) (t : Text) :
    skip true (body ++ Text.newline :: t) = skip false t := by
  induction body with
  | nil => simp [skip]
  | cons b body ih =>
    rw [List.mem_cons, not_or] at h
    have hb : (b != Text.newline) = true := by simpa using Ne.symm h.1
    rw [List.cons_append, skip, if_pos rfl, hb, ih h.2]

theorem skip_space {gap : Text} (h : IsSpace gap) (t : Text) :
    skip false (gap ++ t) = skip false t := by
  induction h with
  | nil => rfl
  | @blank b u hb _ ih =>
    have hne : b ≠ byte ';' := by
      rintro rfl
      exact absurd hb (by decide)
    simp only [List.cons_append, skip, Bool.false_eq_true, if_false, hne, hb, if_true, ih]
  | @comment body u hbody _ ih =>
    rw [List.cons_append, List.cons_append, List.append_assoc, List.cons_append, skip]
    simp only [Bool.false_eq_true, if_false, if_true, skip_comment hbody, ih]

structure IsPlain (b : UInt8) : Prop where
  blank : isBlank b = false
  comment : b ≠ byte ';'

theorem skip_plain {b : UInt8} (h : IsPlain b) (t : Text) : skip false (b :: t) = b :: t := by
  simp only [skip, Bool.false_eq_true, if_false, h.blank, h.comment]

theorem symbolBytes_toNat : (byte '0').toNat = 48 ∧ (byte '9').toNat = 57 ∧
    (byte 'A').toNat = 65 ∧ (byte 'Z').toNat = 90 ∧ (byte 'a').toNat = 97 ∧ (byte 'z').toNat = 122 ∧
    (byte '_').toNat = 95 ∧ (byte '+').toNat = 43 ∧ (byte '-').toNat = 45 := by
  decide

theorem isSymbolByte_apart {b : UInt8} (h : isSymbolByte b) :
    IsPlain b ∧ b ≠ byte '(' ∧ b ≠ byte ')' ∧ b ≠ Text.doubleQuote ∧ b ≠ byte '.' := by
  have hblank : isBlank b = false := by
    have hbytes := symbolBytes_toNat
    have hblanks : (9 : UInt8).toNat = 9 ∧ (13 : UInt8).toNat = 13 ∧ (0x20 : UInt8).toNat = 32 ∧
        (0x85 : UInt8).toNat = 133 ∧ (0xA0 : UInt8).toNat = 160 := by decide
    simp only [isSymbolByte, startsSymbol, Text.isLetter, Text.isDigit, isBlank, Bool.or_eq_true,
      Bool.and_eq_true, decide_eq_true_eq, beq_iff_eq, Bool.or_eq_false_iff, Bool.and_eq_false_iff,
      decide_eq_false_iff_not, beq_eq_false_iff_ne, ne_eq, UInt8.le_iff_toNat_le,
      ← UInt8.toNat_inj] at h ⊢
    omega
  have hmarks : isSymbolByte (byte ';') = false ∧ isSymbolByte (byte '(') = false ∧
      isSymbolByte (byte ')') = false ∧ isSymbolByte Text.doubleQuote = false ∧
      isSymbolByte (byte '.') = false := by decide
  have hne {c : UInt8} (hc : isSymbolByte c = false) : b ≠ c := by
    rintro rfl
    simp [hc] at h
  obtain ⟨hs, ho, hc, hd, hp⟩ := hmarks
  exact ⟨⟨hblank, hne hs⟩, hne ho, hne hc, hne hd, hne hp⟩

def Gives {α : Type} {n : Nat} (s : Step α n) (a : α) (rest : Text) : Prop :=
  ∃ h, s = .ok ⟨a, rest, h⟩

theorem Gives.bind {α β : Type} {m n : Nat} {s : Step α m} {g : Read α m → Step β n} {a : α} {b : β}
    {r rest : Text} (hs : Gives s a r) (hg : ∀ h, Gives (g ⟨a, r, h⟩) b rest) :
    Gives (s >>= g) b rest := by
  obtain ⟨h, rfl⟩ := hs
  exact hg h

theorem stringBody_quote (rest : Text) :
    Gives (stringBody (Text.doubleQuote :: rest)) [] rest := by
  cases rest with
  | nil => exact ⟨_, rfl⟩
  | cons c rest => exact ⟨_, rfl⟩

theorem stringBody_escape {c : UInt8} (hc : c = Text.doubleQuote ∨ c = Text.backslash)
    {u t rest : Text} (h : Gives (stringBody u) t rest) :
    Gives (stringBody (Text.backslash :: c :: u)) (c :: t) rest := by
  change Gives (if c = Text.doubleQuote ∨ c = Text.backslash then _ else _) _ _
  rw [if_pos hc]
  exact h.bind fun _ => ⟨_, rfl⟩

theorem stringBody_plain {b : UInt8} (hq : b ≠ Text.doubleQuote) (hb : b ≠ Text.backslash)
    {u t rest : Text} (h : Gives (stringBody u) t rest) :
    Gives (stringBody (b :: u)) (b :: t) rest := by
  cases u with
  | nil =>
    change Gives (if b = Text.doubleQuote then _ else if b = Text.backslash then _ else _) _ _
    rw [if_neg hq, if_neg hb]
    exact h.bind fun _ => ⟨_, rfl⟩
  | cons c u =>
    change Gives (if b = Text.doubleQuote then _ else if b = Text.backslash then _ else _) _ _
    rw [if_neg hq, if_neg hb]
    exact h.bind fun _ => ⟨_, rfl⟩

theorem stringBody_gives (t rest : Text) :
    Gives (stringBody (t.flatMap quote.body ++ Text.doubleQuote :: rest)) t rest := by
  induction t with
  | nil => exact stringBody_quote rest
  | cons b t ih =>
    rw [List.flatMap_cons, List.append_assoc, quote.body]
    by_cases hb : b = Text.backslash ∨ b = Text.doubleQuote
    · rw [if_pos hb]
      exact stringBody_escape hb.symm ih
    · rw [if_neg hb]
      rw [not_or] at hb
      exact stringBody_plain hb.2 hb.1 ih

theorem run_gives {fits : UInt8 → Bool} {sort : Text → Datum} {b : UInt8} {u rest : Text}
    (hu : ∀ c ∈ u, fits c) (hrest : ∀ c ∈ rest.head?, fits c = false) :
    Gives (.ok (run fits sort b (u ++ rest))) (sort (b :: u)) rest := by
  have htake : (u ++ rest).takeWhile fits = u := by
    cases rest with
    | nil => rw [List.append_nil, List.takeWhile_eq_self_iff.mpr hu]
    | cons c rest => exact Lexer.takeWhile_blank hu (hrest c rfl) rest
  have hdrop : (u ++ rest).dropWhile fits = rest := by
    cases rest with
    | nil => rw [List.append_nil, List.dropWhile_eq_nil_iff.mpr hu]
    | cons c rest => exact Lexer.dropWhile_blank hu (hrest c rfl) rest
  refine ⟨by simp only [List.length_cons, List.length_append]; omega, ?_⟩
  simp only [run, htake, hdrop]

theorem take_dots {b : UInt8} (hb : b ≠ byte '.') (t : Text) :
    (b :: t).take 3 ≠ Text.ofString "..." := by
  intro h
  rw [Text.ofString_ofList] at h
  exact hb (List.cons.inj h).1

theorem startsInteger_append {t rest : Text} (ht : t ≠ []) (hstart : startsInteger t = false)
    (hrest : ∀ c ∈ rest.head?, isSymbolByte c = false) : startsInteger (t ++ rest) = false := by
  cases t with
  | nil => exact absurd rfl ht
  | cons b u =>
    cases u with
    | cons c u => exact hstart
    | nil =>
      cases rest with
      | nil => exact hstart
      | cons c rest =>
        have hc : Text.isDigit c = false := by
          have := hrest c rfl
          simp only [isSymbolByte, Bool.or_eq_false_iff] at this
          exact this.2
        simp only [startsInteger, Bool.or_eq_false_iff] at hstart
        simp [startsInteger, hstart.1, hc]

theorem atom_symbol (offset : Nat) {b : UInt8} {u rest : Text} (h : IsSymbol (b :: u))
    (hrest : (symbol (b :: u)).Stops rest) :
    Gives (atom offset b (u ++ rest)) (.symbol (b :: u)) rest := by
  obtain ⟨-, -, hclose, hquote, hdot⟩ := isSymbolByte_apart (h.inside b List.mem_cons_self)
  have hint : startsInteger (b :: (u ++ rest)) = false :=
    startsInteger_append (t := b :: u) (by simp) h.notInteger (hrest rfl)
  have hstart : startsSymbol b = true := by
    obtain ⟨c, v, he, hc⟩ := h.start
    rw [(List.cons.inj he).1]
    exact hc
  rw [atom, if_neg hclose, if_neg hquote, if_neg (take_dots hdot _), hint, hstart]
  exact run_gives (fun c hc => h.inside c (List.mem_cons_of_mem b hc)) (hrest rfl)

theorem IsInteger.starts {b : UInt8} {u : Text} (h : IsInteger (b :: u)) (rest : Text) :
    startsInteger (b :: (u ++ rest)) = true := by
  cases h with
  | unsigned h => simp [startsInteger, h.2 b List.mem_cons_self]
  | signed hb h =>
    cases u with
    | nil => exact absurd rfl h.1
    | cons c u => rcases hb with rfl | rfl <;> simp [startsInteger, h.2 c List.mem_cons_self]

theorem IsInteger.digits {b : UInt8} {u : Text} (h : IsInteger (b :: u)) :
    ∀ c ∈ u, Text.isDigit c := by
  cases h with
  | unsigned h => exact fun c hc => h.2 c (List.mem_cons_of_mem b hc)
  | signed _ h => exact h.2

theorem IsInteger.head {b : UInt8} {u : Text} (h : IsInteger (b :: u)) : isSymbolByte b := by
  cases h with
  | unsigned h => simp [isSymbolByte, h.2 b List.mem_cons_self]
  | signed hb => rcases hb with rfl | rfl <;> decide

theorem atom_integer (offset : Nat) {b : UInt8} {u rest : Text} (h : IsInteger (b :: u))
    (hrest : (integer (b :: u)).Stops rest) :
    Gives (atom offset b (u ++ rest)) (.integer (b :: u)) rest := by
  obtain ⟨-, -, hclose, hquote, hdot⟩ := isSymbolByte_apart h.head
  rw [atom, if_neg hclose, if_neg hquote, if_neg (take_dots hdot _), if_pos (h.starts rest)]
  refine run_gives h.digits fun c hc => ?_
  have := hrest rfl c hc
  simp only [isSymbolByte, Bool.or_eq_false_iff] at this
  exact this.2

theorem atom_string (offset : Nat) (t rest : Text) :
    Gives (atom offset Text.doubleQuote (t.flatMap quote.body ++ Text.doubleQuote :: rest))
      (.string t) rest := by
  have hne : Text.doubleQuote ≠ byte ')' := by decide
  rw [atom, if_neg hne, if_pos rfl]
  exact (stringBody_gives t rest).bind fun _ => ⟨_, rfl⟩

theorem atom_ellipsis (offset : Nat) (rest : Text) :
    Gives (atom offset (byte '.') (byte '.' :: byte '.' :: rest)) .ellipsis rest := by
  have hne : byte '.' ≠ byte ')' ∧ byte '.' ≠ Text.doubleQuote := by decide
  have hdots : (byte '.' :: byte '.' :: byte '.' :: rest).take 3 = Text.ofString "..." := by
    rw [Text.ofString_ofList]
    rfl
  rw [atom, if_neg hne.1, if_neg hne.2, if_pos hdots]
  exact ⟨_, rfl⟩

variable {size : Nat}

theorem read_list {t u rest : Text} {items : List Datum} (ht : skip false t = byte '(' :: u)
    (h : Gives (readItems size u) items rest) : Gives (read size t) (.list items) rest := by
  rw [read]
  split
  · next he => cases ht.symm.trans he
  · next b r he =>
    cases ht.symm.trans he
    rw [if_pos rfl]
    exact h.bind fun _ => ⟨_, rfl⟩

theorem read_atom {t u rest : Text} {b : UInt8} {d : Datum} (ht : skip false t = b :: u)
    (hb : b ≠ byte '(') (h : ∀ offset, Gives (atom offset b u) d rest) :
    Gives (read size t) d rest := by
  rw [read]
  split
  · next he => cases ht.symm.trans he
  · next c r he =>
    cases ht.symm.trans he
    rw [if_neg hb]
    exact (h _).bind fun _ => ⟨_, rfl⟩

theorem readItems_close {t rest : Text} (ht : skip false t = byte ')' :: rest) :
    Gives (readItems size t) [] rest := by
  rw [readItems]
  split
  · next he => cases ht.symm.trans he
  · next b r he =>
    cases ht.symm.trans he
    rw [if_pos rfl]
    exact ⟨_, rfl⟩

theorem readItems_cons {t u r rest : Text} {b : UInt8} {d : Datum} {ds : List Datum}
    (ht : skip false t = b :: u) (hb : b ≠ byte ')') (hd : Gives (read size (b :: u)) d r)
    (hds : Gives (readItems size r) ds rest) : Gives (readItems size t) (d :: ds) rest := by
  rw [readItems]
  split
  · next he => cases ht.symm.trans he
  · next c v he =>
    cases ht.symm.trans he
    rw [if_neg hb]
    exact hd.bind fun _ => hds.bind fun _ => ⟨_, rfl⟩

theorem Written.starts {d : Datum} {text : Text} (h : Written d text) :
    ∃ b u, text = b :: u ∧ IsPlain b ∧ b ≠ byte ')' := by
  have hopen : IsPlain (byte '(') ∧ byte '(' ≠ byte ')' := by
    exact ⟨⟨by decide, by decide⟩, by decide⟩
  have hquote : IsPlain Text.doubleQuote ∧ Text.doubleQuote ≠ byte ')' := by
    exact ⟨⟨by decide, by decide⟩, by decide⟩
  have hdot : IsPlain (byte '.') ∧ byte '.' ≠ byte ')' := by
    exact ⟨⟨by decide, by decide⟩, by decide⟩
  cases h with
  | symbol h =>
    obtain ⟨b, u, rfl, -⟩ := h.start
    have hb := isSymbolByte_apart (h.inside b List.mem_cons_self)
    exact ⟨b, u, rfl, hb.1, hb.2.2.1⟩
  | integer h =>
    cases text with
    | nil => cases h with | unsigned h => exact absurd rfl h.nonempty
    | cons b u =>
      have hb := isSymbolByte_apart h.head
      exact ⟨b, u, rfl, hb.1, hb.2.2.1⟩
  | string t => exact ⟨_, _, rfl, hquote⟩
  | ellipsis => exact ⟨byte '.', [byte '.', byte '.'], Text.ofString_ofList _, hdot⟩
  | list => exact ⟨_, _, rfl, hopen⟩

theorem Stops.before_close {d : Datum} {body : Text} (h : d.Stops body) (rest : Text) :
    d.Stops (body ++ byte ')' :: rest) := by
  intro hd b hb
  cases body with
  | nil =>
    obtain rfl := Option.mem_some_iff.mp hb
    decide
  | cons c body => exact h hd b hb

mutual

theorem read_written {d : Datum} {text t rest : Text} (h : Written d text) (hrest : d.Stops rest)
    (ht : skip false t = text ++ rest) : Gives (read size t) d rest :=
  match h with
  | .symbol h => by
    obtain ⟨b, u, rfl, -⟩ := h.start
    have hb := isSymbolByte_apart (h.inside b List.mem_cons_self)
    exact read_atom ht hb.2.1 fun offset => atom_symbol offset h hrest
  | .integer h => by
    cases text with
    | nil => cases h with | unsigned h => exact absurd rfl h.nonempty
    | cons b u =>
      exact read_atom ht (isSymbolByte_apart h.head).2.1 fun offset => atom_integer offset h hrest
  | .string s => by
    rw [quote, List.cons_append, List.cons_append, List.append_assoc, List.singleton_append] at ht
    exact read_atom ht (by decide) fun offset => atom_string offset s rest
  | .ellipsis => by
    rw [Text.ofString_ofList] at ht
    exact read_atom ht (by decide) fun offset => atom_ellipsis offset rest
  | .list h => by
    rw [List.cons_append, List.cons_append, List.append_assoc, List.singleton_append] at ht
    exact read_list ht (readItems_written h rest)

theorem readItems_written {items : List Datum} {body : Text} (h : WrittenItems items body)
    (rest : Text) : Gives (readItems size (body ++ byte ')' :: rest)) items rest :=
  match h with
  | .nil hgap => by
    have hclose : IsPlain (byte ')') := ⟨by decide, by decide⟩
    refine readItems_close ?_
    rw [skip_space hgap, skip_plain hclose]
  | @WrittenItems.cons gap text more d _ hgap hd hstop hmore => by
    obtain ⟨b, u, hu, hplain, hb⟩ := hd.starts
    have htail : gap ++ text ++ more ++ byte ')' :: rest =
        gap ++ b :: (u ++ (more ++ byte ')' :: rest)) := by
      rw [hu]
      simp only [List.append_assoc, List.cons_append]
    rw [htail]
    have hskip : skip false (gap ++ b :: (u ++ (more ++ byte ')' :: rest))) =
        b :: (u ++ (more ++ byte ')' :: rest)) := by
      rw [skip_space hgap, skip_plain hplain]
    refine readItems_cons hskip hb ?_ (readItems_written hmore rest)
    refine read_written hd (hstop.before_close rest) ?_
    rw [skip_plain hplain, hu, List.cons_append]

end

theorem parse_written {d : Datum} {before text after : Text} (h : Written d text)
    (hbefore : IsSpace before) (hafter : IsSpace after) (hstop : d.Stops after) :
    parse (before ++ text ++ after) = .ok d := by
  obtain ⟨b, u, hu, hplain, -⟩ := h.starts
  have hskip : skip false (before ++ text ++ after) = text ++ after := by
    rw [List.append_assoc, skip_space hbefore, hu, List.cons_append, skip_plain hplain]
  have hgives : Gives (read (before ++ text ++ after).length (before ++ text ++ after)) d after :=
    read_written h hstop hskip
  obtain ⟨hlt, hread⟩ := hgives
  have hend : skip false after = [] := by
    rw [← List.append_nil after, skip_space hafter, skip]
  simp only [parse, hread, ok_bind, hend]
  rfl

theorem WrittenItems.blank {items : List Datum} {body : Text} (h : WrittenItems items body) :
    WrittenItems items (Text.blank :: body) := by
  have hblank : isBlank Text.blank = true := by decide
  cases h with
  | nil hgap => exact .nil (.blank hblank hgap)
  | cons hgap hd hstop hmore => exact .cons (.blank hblank hgap) hd hstop hmore

mutual

theorem render_written (d : Datum) (h : d.WellFormed) : Written d d.render :=
  match d, h with
  | .symbol _, h => .symbol h
  | .string t, _ => .string t
  | .integer _, h => .integer h
  | .ellipsis, _ => .ellipsis
  | .list items, h => .list (renderItems_written items h)

theorem renderItems_written (items : List Datum) (h : AllWellFormed items) :
    WrittenItems items (renderItems items) :=
  match items, h with
  | [], _ => .nil .nil
  | [d], h => by
    have := WrittenItems.cons .nil (render_written d h.1) (fun _ b hb => by cases hb) (.nil .nil)
    simpa [renderItems] using this
  | d :: e :: rest, h => by
    have hstop : d.Stops (Text.blank :: renderItems (e :: rest)) := by
      rintro - b hb
      obtain rfl := Option.mem_some_iff.mp hb
      decide
    exact .cons .nil (render_written d h.1) hstop (renderItems_written (e :: rest) h.2).blank

end

theorem parse_render {d : Datum} (h : d.WellFormed) : parse d.render = .ok d := by
  have := parse_written (render_written d h) .nil .nil fun _ b hb => by cases hb
  rwa [List.nil_append, List.append_nil] at this

theorem render_injective {d e : Datum} (hd : d.WellFormed) (he : e.WellFormed)
    (h : d.render = e.render) : d = e := by
  have := parse_render hd
  rw [h, parse_render he] at this
  exact (Except.ok.inj this).symm

end MiniSharp.Datum
