import Mathlib.Data.Nat.Digits.Defs
import MiniSharp.Proofs.ExpressionReading
import MiniSharp.Proofs.Frames
import MiniSharp.Proofs.FreshNames
import MiniSharp.Proofs.TreeForms

namespace MiniSharp

open Text (byte)

variable {P : Token → Prop}

namespace Text

def natural (digits : Text) : Nat :=
  Nat.ofDigits 10 (digits.reverse.map fun b => b.toNat - (byte '0').toNat)

theorem value_eq_natural (digits : Text) : value digits = natural digits := by
  induction digits using List.reverseRecOn with
  | nil => rfl
  | append_singleton ds b ih =>
    have hnatural : natural (ds ++ [b]) = b.toNat - 48 + 10 * natural ds := by
      rw [natural, List.reverse_append, List.reverse_singleton, List.singleton_append,
        List.map_cons, Nat.ofDigits_cons]
      rfl
    rw [value_append_digit, ih, hnatural, Nat.add_comm]

def lead (c : UInt8) : UInt8 :=
  if c < 0x80 then c else if c < 0xC0 then 0xC2 else 0xC3

theorem headD_encode (c : UInt8) : (encode c.toNat).headD 0 = lead c := by
  have hc : c.toNat < 0x100 := c.toNat_lt
  rw [lead, encode]
  simp only [UInt8.lt_iff_toNat_lt, UInt8.reduceToNat]
  split
  · exact UInt8.ofNat_toNat
  · rw [if_pos (by omega)]
    split
    · have hq : c.toNat / 0x40 = 2 := by omega
      rw [hq]
      rfl
    · have hq : c.toNat / 0x40 = 3 := by omega
      rw [hq]
      rfl

theorem lead_eq_self (c : UInt8) : lead c = c ↔ c < 0x80 ∨ c = 0xC3 := by
  unfold lead
  split
  · next hc => exact iff_of_true rfl (.inl hc)
  · next hc =>
    split
    · next hlt =>
      refine iff_of_false ?_ ?_
      · rintro rfl
        exact absurd hlt (by decide)
      · rintro (hlt' | rfl)
        · exact hc hlt'
        · exact absurd hlt (by decide)
    · exact ⟨fun h => .inr h.symm, fun h => (h.resolve_left hc).symm⟩

end Text

/-- A literal and its bytes. `hold` gives the value for the byte between the quotes of a char
literal. -/
inductive Literal.WrittenAs (hold : UInt8 → UInt8) : Literal → Text → Prop
  | int {ds : Text} : IsDigits ds → Text.natural ds ≤ 2147483647 →
      WrittenAs hold (.int (Text.natural ds)) ds
  | float {whole fraction : Text} {x : Binary32} : IsDigits whole → IsDigits fraction →
      Binary32.ofDecimal? (whole ++ byte '.' :: fraction) = some x →
      WrittenAs hold (.float x) (whole ++ byte '.' :: fraction)
  | char {c : UInt8} : c ≠ Text.singleQuote →
      WrittenAs hold (.char (hold c)) [Text.singleQuote, c, Text.singleQuote]
  | string {body : Text} : Text.doubleQuote ∉ body →
      WrittenAs hold (.string body) (Text.doubleQuote :: body ++ [Text.doubleQuote])
  | true : WrittenAs hold (.bool true) (Text.ofString "true")
  | false : WrittenAs hold (.bool false) (Text.ofString "false")

theorem Spells.char_inv {text bytes : Text} (h : Spells .charLiteral text bytes) :
    ∃ c, c ≠ Text.singleQuote ∧ text = Text.encode c.toNat ∧
      bytes = [Text.singleQuote, c, Text.singleQuote] := by
  cases h with
  | char hc => exact ⟨_, hc, rfl, rfl⟩

theorem Grammar.Denotes.known {t : Token} {value : Literal} (h : Grammar.Denotes t value) :
    t.kind ≠ .unknown := by
  cases h <;> simp_all only [ne_eq, reduceCtorEq, not_false_eq_true]

namespace Literal

variable {value : Literal} {bytes : Text}

theorem writtenAs_of_denotes {t : Token} (hd : Grammar.Denotes t value)
    (hs : Spells t.kind t.text bytes) : value.WrittenAs Text.lead bytes := by
  obtain ⟨kind, text, pos, problem⟩ := t
  cases hd with
  | int hk hle =>
    cases hk
    rw [Text.value_eq_natural] at hle ⊢
    cases hs with
    | int hds => exact .int hds hle
  | float hk hx =>
    cases hk
    cases hs with
    | float hwhole hfraction => exact .float hwhole hfraction hx
  | char hk =>
    cases hk
    obtain ⟨c, hc, rfl, rfl⟩ := hs.char_inv
    rw [Text.headD_encode]
    exact .char hc
  | string hk =>
    cases hk
    cases hs with
    | string hbody => exact .string hbody
  | true hk =>
    cases hk
    cases hs
    exact .true
  | false hk =>
    cases hk
    cases hs
    exact .false

theorem digits_ne_quoted {ds : Text} (h : IsDigits ds) (more : Text) (c : UInt8) :
    ds ++ more ≠ [Text.singleQuote, c, Text.singleQuote] := by
  obtain ⟨b, t, ht, hb⟩ := h.start more
  rw [ht]
  intro hquoted
  cases hquoted
  cases hb

theorem WrittenAs.char_inv {hold : UInt8 → UInt8} {v c : UInt8}
    (h : (Literal.char v).WrittenAs hold [Text.singleQuote, c, Text.singleQuote]) : v = hold c := by
  generalize hbytes : [Text.singleQuote, c, Text.singleQuote] = bytes at h
  cases h
  cases hbytes
  rfl

theorem WrittenAs.id_iff (h : value.WrittenAs Text.lead bytes) : value.WrittenAs id bytes ↔
    ∀ c, bytes = [Text.singleQuote, c, Text.singleQuote] → c < 0x80 ∨ c = 0xC3 := by
  cases h with
  | int hds hle =>
    refine iff_of_true (.int hds hle) fun c hc => ?_
    exact absurd ((List.append_nil _).trans hc) (digits_ne_quoted hds [] c)
  | float hwhole hfraction hx =>
    refine iff_of_true (.float hwhole hfraction hx) fun c hc => ?_
    exact absurd hc (digits_ne_quoted hwhole _ c)
  | @char c hc =>
    constructor
    · intro hid c' hc'
      cases hc'
      exact (Text.lead_eq_self c).mp hid.char_inv
    · intro hall
      rw [(Text.lead_eq_self c).mpr (hall c rfl)]
      exact .char hc
  | string hbody => exact iff_of_true (.string hbody) fun c hc => by cases hc
  | true => exact iff_of_true .true fun c hc => by cases hc
  | false => exact iff_of_true .false fun c hc => by cases hc

end Literal

/-- What a literal of the source holds: for a byte between single quotes the first byte of a
character, which need not be that byte, and for any other bytes what they say. -/
structure Label.HoldsValue (source : Text) (l : Label) : Prop where
  spans : ∃ s, l.token.Spans source s
  written : ∀ s, l.token.Spans source s → l.literal.WrittenAs Text.lead (s.bytes source)
  faithful : ∀ s, l.token.Spans source s → (l.literal.WrittenAs id (s.bytes source) ↔
    ∀ c, s.bytes source = [Text.singleQuote, c, Text.singleQuote] → c < 0x80 ∨ c = 0xC3)

def Label.ReadFrom (P : Token → Prop) (l : Label) : Prop :=
  l.kind = .literal → P l.token ∧ Parser.literal? l.token = some (.ok l.literal)

theorem Label.readFrom_of_kind {l : Label} (h : l.kind ≠ .literal) : l.ReadFrom P :=
  fun hk => absurd hk h

theorem Label.ReadFrom.holdsValue {source : Text} {l : Label}
    (h : l.ReadFrom (· ∈ (scan source).tokens)) (hk : l.kind = .literal) : l.HoldsValue source := by
  obtain ⟨hmem, hvalue⟩ := h hk
  have hwritten : ∀ s, l.token.Spans source s →
      l.literal.WrittenAs Text.lead (s.bytes source) := by
    intro s hs
    have hd := Parser.denotes_of_literal? hvalue
    exact Literal.writtenAs_of_denotes hd
      (hs.covers.lexeme ((scan_kinds source).2 l.token hmem) hd.known)
  exact ⟨Token.exists_spans (List.mem_append_left _ hmem), hwritten,
    fun s hs => (hwritten s hs).id_iff⟩

section Trees

open MiniSharp.Tree (each_absent each_node each_list eachOf_nil eachOf_cons)

namespace Expr

mutual

theorem each_toTree (p : Tree.Path) : (e : Expr Unit) → e.Formed P →
    e.toTree.Each (Label.ReadFrom P) p
  | .literal _ _ _, h => by
    rw [toTree, Tree.leaf, each_list]
    exact ⟨fun _ => h, eachOf_nil _ _ _ _⟩
  | .ident .., _ => by
    rw [toTree, Tree.leaf, each_list]
    exact ⟨Label.readFrom_of_kind (by simp), eachOf_nil _ _ _ _⟩
  | .call _ _ _ args, h => by
    rw [toTree, each_list]
    exact ⟨Label.readFrom_of_kind (by simp), eachOf_toTrees p 0 args h.2⟩
  | .unary _ _ _ operand, h => by
    simp only [toTree, each_node, each_absent, eachOf_nil, and_true, true_and]
    exact ⟨Label.readFrom_of_kind (by simp), each_toTree _ operand h.2.2.2⟩
  | .binary _ _ _ left right, h => by
    simp only [toTree, each_node, each_absent, eachOf_nil, and_true, true_and]
    exact ⟨Label.readFrom_of_kind (by simp), each_toTree _ left h.2.2.2.1,
      each_toTree _ right h.2.2.2.2⟩
  | .foreign .., h => h.elim

theorem eachOf_toTrees (p : Tree.Path) (i : Nat) : (es : List (Expr Unit)) → AllFormed P es →
    Tree.EachOf (Label.ReadFrom P) p .child i (toTrees es)
  | [], _ => eachOf_nil _ _ _ _
  | e :: rest, h => by
    rw [toTrees, eachOf_cons]
    exact ⟨each_toTree _ e h.1, eachOf_toTrees p (i + 1) rest h.2⟩

end

end Expr

namespace Stmt

theorem each_valueTree (p : Tree.Path) {label : Label} (hk : label.kind ≠ .literal)
    {e : Expr Unit} (h : e.Formed P) :
    (valueTree label e.toTree).Each (Label.ReadFrom P) p := by
  simp only [valueTree, each_node, each_absent, eachOf_nil, and_true, true_and]
  exact ⟨Label.readFrom_of_kind hk, Expr.each_toTree _ e h⟩

theorem each_blockTree (p : Tree.Path) (brace : Token) {ts : List Tree}
    (h : Tree.EachOf (Label.ReadFrom P) p .child 0 ts) :
    (blockTree brace ts).Each (Label.ReadFrom P) p := by
  rw [blockTree, each_list]
  exact ⟨Label.readFrom_of_kind (by simp), h⟩

mutual

theorem each_toTree (p : Tree.Path) : (s : Stmt Unit) → s.Formed P →
    s.toTree.Each (Label.ReadFrom P) p
  | .declare _ _ _ _ none, _ | .input .., _ => by
    rw [toTree, Tree.leaf, each_list]
    exact ⟨Label.readFrom_of_kind (by simp), eachOf_nil _ _ _ _⟩
  | .declare _ _ _ _ (some value), h => each_valueTree p (by simp) (h.2.2 value rfl)
  | .assign _ _ _ value, h | .print _ value, h | .evaluate _ value, h | .ret _ value, h =>
    each_valueTree p (by simp) h.2
  | .ifThen _ cond _ body, h | .whileDo _ cond _ body, h => by
    simp only [toTree, each_node, each_absent, eachOf_nil, and_true, true_and]
    exact ⟨Label.readFrom_of_kind (by simp), Expr.each_toTree _ cond h.2.1,
      each_blockTree _ _ (eachOf_toTrees _ 0 body h.2.2.2)⟩
  | .ifElse _ cond _ body _ elseBody, h => by
    simp only [toTree, each_node, each_absent, eachOf_nil, and_true, true_and]
    exact ⟨Label.readFrom_of_kind (by simp), Expr.each_toTree _ cond h.2.1,
      each_blockTree _ _ (eachOf_toTrees _ 0 body h.2.2.2.1),
      each_blockTree _ _ (eachOf_toTrees _ 0 elseBody h.2.2.2.2.2)⟩
  | .forDo _ init cond step _ body, h => by
    obtain ⟨-, -, hinit, hcond, -, hstep, -, hbody⟩ := h
    simp only [toTree, each_node, each_absent, eachOf_nil, and_true, true_and]
    refine ⟨Label.readFrom_of_kind (by simp), each_toTree? _ init hinit, ?_,
      each_toTree? _ step hstep, each_blockTree _ _ (eachOf_toTrees _ 0 body hbody)⟩
    cases cond with
    | none => exact each_absent _ _
    | some e => exact Expr.each_toTree _ e (hcond e rfl)
  | .block brace body, h => each_blockTree p brace (eachOf_toTrees p 0 body h.2)
  | .foreign .., h => h.elim

theorem each_toTree? (p : Tree.Path) : (o : Option (Stmt Unit)) → OptFormed P o →
    (toTree? o).Each (Label.ReadFrom P) p
  | none, _ => each_absent _ _
  | some s, h => each_toTree p s h

theorem eachOf_toTrees (p : Tree.Path) (i : Nat) : (ss : List (Stmt Unit)) → AllFormed P ss →
    Tree.EachOf (Label.ReadFrom P) p .child i (toTrees ss)
  | [], _ => eachOf_nil _ _ _ _
  | s :: rest, h => by
    rw [toTrees, eachOf_cons]
    exact ⟨each_toTree _ s h.1, eachOf_toTrees p (i + 1) rest h.2⟩

end

end Stmt

theorem Param.eachOf_toTree (p : Tree.Path) (i : Nat) (xs : List (Param Unit)) :
    Tree.EachOf (Label.ReadFrom P) p .param i (xs.map toTree) := by
  induction xs generalizing i with
  | nil => exact eachOf_nil _ _ _ _
  | cons x rest ih =>
    rw [List.map_cons, eachOf_cons, toTree, Tree.leaf, each_list]
    exact ⟨⟨Label.readFrom_of_kind (by simp), eachOf_nil _ _ _ _⟩, ih (i + 1)⟩

theorem Func.each_toTree (p : Tree.Path) {f : Func Unit} (h : f.Formed P) :
    f.toTree.Each (Label.ReadFrom P) p := by
  simp only [toTree, each_node, each_absent, eachOf_nil, and_true, true_and]
  exact ⟨Label.readFrom_of_kind (by simp), Param.eachOf_toTree p 0 f.params,
    Stmt.each_blockTree _ _ (Stmt.eachOf_toTrees _ 0 f.body h.body)⟩

theorem Program.each_toTree {x : Program Unit} (h : x.Formed P) :
    x.toTree.Each (Label.ReadFrom P) [] := by
  rw [toTree, each_list]
  refine ⟨Label.readFrom_of_kind (by simp), ?_⟩
  have hall : ∀ (fs : List (Func Unit)) (i : Nat), (∀ f ∈ fs, f.Formed P) →
      Tree.EachOf (Label.ReadFrom P) [] .child i (fs.map Func.toTree) := by
    intro fs
    induction fs with
    | nil => exact fun i _ => eachOf_nil _ _ _ _
    | cons f rest ih =>
      intro i hfs
      rw [List.map_cons, eachOf_cons]
      obtain ⟨hf, hrest⟩ := List.forall_mem_cons.mp hfs
      exact ⟨Func.each_toTree _ hf, ih (i + 1) hrest⟩
  exact hall x.functions 0 h

end Trees

/-- Every literal of a program or an expression that is read holds a value of its bytes in the
source: the number of its digits, the bytes between double quotes, the truth value of its keyword,
and the lead byte of a char literal's character, which is the byte between the quotes exactly for
those below `0x80` and for `0xC3`. -/
theorem literals_hold_source_values (source : Text) :
    (∀ x, parse source = .ok x →
      ∀ n ∈ x.toTree.walk [], n.2.kind = .literal → n.2.HoldsValue source) ∧
    (∀ e, parseExpression source = .ok e →
      ∀ n ∈ e.toTree.walk [], n.2.kind = .literal → n.2.HoldsValue source) := by
  constructor
  · intro x hx n hn
    exact (Program.each_toTree (parse_formed hx fun _ => id) n hn).holdsValue
  · intro e he n hn
    exact (Expr.each_toTree [] e (parseExpression_formed he fun _ => id) n hn).holdsValue

def Label.value? (l : Label) : Option Literal :=
  match l.kind with
  | .literal => some l.literal
  | _ => none

theorem Label.value?_eq_some {l : Label} {value : Literal} (h : l.value? = some value) :
    l.kind = .literal ∧ l.literal = value := by
  unfold value? at h
  split at h
  · next hk => exact ⟨hk, Option.some.inj h⟩
  · cases h

def Tree.values (t : Tree) : List Literal := (t.walk []).filterMap fun n => n.2.value?

theorem exists_literal {ε α : Type} {r : Except ε α} {tree : α → Tree} {value : Literal}
    {values : List Literal} (h : r.toOption.map (fun x => (tree x).values) = some values)
    (hv : value ∈ values) :
    ∃ x, r = .ok x ∧ ∃ n ∈ (tree x).walk [], n.2.kind = .literal ∧ n.2.literal = value := by
  obtain ⟨x, rfl, rfl⟩ := exists_of_toOption_map h
  obtain ⟨n, hn, hvalue⟩ := List.mem_filterMap.mp hv
  exact ⟨x, rfl, n, hn, Label.value?_eq_some hvalue⟩

def assorted : Text := Text.ofString
  "func f(n: int): bool \x7b print(\"it's // 0\"); return n == 0042 && 'q' == '\"' == true; \x7d"

theorem values_assorted : (parse assorted).toOption.map (fun x => x.toTree.values) = some
    [.string (Text.ofString "it's // 0"), .int 42, .char 113, .char 34, .bool true] := by
  rw [assorted, Text.ofString_ofList]
  decide +kernel

def quotedByte : Text := [Text.singleQuote, 0xE9, Text.singleQuote]

theorem values_quotedByte : (parseExpression quotedByte).toOption.map (fun e => e.toTree.values) =
    some [.char 0xC3] := by
  decide +kernel

theorem literals_hold_source_values_assorted :
    (∃ x, parse assorted = .ok x ∧ ∃ n ∈ x.toTree.walk [],
      n.2.kind = .literal ∧ n.2.literal = .int 42 ∧ n.2.HoldsValue assorted) ∧
    (∃ e, parseExpression quotedByte = .ok e ∧ ∃ n ∈ e.toTree.walk [],
      n.2.kind = .literal ∧ n.2.literal = .char 0xC3 ∧ n.2.HoldsValue quotedByte) := by
  constructor
  · obtain ⟨x, hx, n, hn, hk, hvalue⟩ := exists_literal values_assorted
      (.tail _ List.mem_cons_self)
    exact ⟨x, hx, n, hn, hk, hvalue, (literals_hold_source_values assorted).1 x hx n hn hk⟩
  · obtain ⟨e, he, n, hn, hk, hvalue⟩ := exists_literal values_quotedByte List.mem_cons_self
    exact ⟨e, he, n, hn, hk, hvalue, (literals_hold_source_values quotedByte).2 e he n hn hk⟩

theorem Span.bytes_infix (s : Span) (source : Text) : s.bytes source <:+: source :=
  (List.drop_suffix _ _).isInfix.trans (List.take_prefix _ _).isInfix

/-- The literal holds `0xC3`, and the byte between its quotes is `0xE9`. -/
theorem quoted_byte_not_held : ∃ e, parseExpression quotedByte = .ok e ∧
    ∃ n ∈ e.toTree.walk [], n.2.kind = .literal ∧ n.2.literal = .char 0xC3 ∧
      ∀ s, n.2.token.Spans quotedByte s → s.bytes quotedByte = quotedByte ∧
        ¬ n.2.literal.WrittenAs id (s.bytes quotedByte) := by
  obtain ⟨e, he, n, hn, hk, hvalue⟩ := exists_literal values_quotedByte List.mem_cons_self
  refine ⟨e, he, n, hn, hk, hvalue, fun s hs => ?_⟩
  have hholds :=
    (Expr.each_toTree [] e (parseExpression_formed he fun _ => id) n hn).holdsValue hk
  have hlength : (s.bytes quotedByte).length = quotedByte.length := by
    have hwritten := hholds.written s hs
    rw [hvalue] at hwritten
    generalize s.bytes quotedByte = bytes at hwritten
    generalize hv : Literal.char 0xC3 = value at hwritten
    cases hwritten <;> first | rfl | cases hv
  have hbytes := (s.bytes_infix quotedByte).eq_of_length hlength
  refine ⟨hbytes, ?_⟩
  rw [hvalue, hbytes]
  intro hid
  exact absurd hid.char_inv (by decide)

end MiniSharp
