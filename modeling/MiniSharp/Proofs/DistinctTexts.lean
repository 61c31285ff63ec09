import MiniSharp.Proofs.Depiction
import MiniSharp.Proofs.ShortestDecimal

namespace MiniSharp

variable {P : Token → Prop}

namespace Tree

mutual

def bare : Tree → Tree
  | absent => absent
  | node label params children init cond step value left right body orElse =>
    node { label with token := .absent } (bareAll params) (bareAll children) init.bare cond.bare
      step.bare value.bare left.bare right.bare body.bare orElse.bare

def bareAll : List Tree → List Tree
  | [] => []
  | t :: rest => t.bare :: bareAll rest

end

theorem isAbsent_bare (t : Tree) : t.bare.isAbsent = t.isAbsent := by
  cases t <;> rfl

theorem bareAll_eq_map (ts : List Tree) : bareAll ts = ts.map bare := by
  induction ts with
  | nil => rfl
  | cons t rest ih => rw [bareAll, ih, List.map_cons]

mutual

theorem datum_bare : (t : Tree) → t.bare.datum = t.datum
  | absent => rfl
  | node label params children init cond step value left right body orElse => by
    simp only [bare, datum, isAbsent_bare, data_bareAll params, data_bareAll children,
      datum_bare init, datum_bare cond, datum_bare step, datum_bare value, datum_bare left,
      datum_bare right, datum_bare body, datum_bare orElse]

theorem data_bareAll : (ts : List Tree) → data (bareAll ts) = data ts
  | [] => rfl
  | t :: rest => by simp only [bareAll, data, datum_bare t, data_bareAll rest]

end

end Tree

theorem Text.ofInt_injective : Function.Injective ofInt := by
  intro i j h
  have hminus (n : Nat) (t : Text) : byte '-' :: t ≠ decimal n := by
    intro he
    have hdigit := isDigit_decimal n (byte '-') (he ▸ List.mem_cons_self)
    revert hdigit
    decide
  rw [ofInt, ofInt] at h
  split at h
  · split at h
    · have := decimal_injective (List.cons.inj h).2
      omega
    · exact absurd h (hminus _ _)
  · split at h
    · exact absurd h.symm (hminus _ _)
    · have := decimal_injective h
      omega

theorem Text.asCharacter_injective : Function.Injective asCharacter := by
  intro b c h
  have hb := b.toNat_lt
  have hc := c.toNat_lt
  have hsmall : b.toNat < 0x800 ∧ c.toNat < 0x800 := by omega
  apply UInt8.toNat_inj.mp
  rw [asCharacter, asCharacter, encode, encode] at h
  by_cases hbA : b.toNat < 0x80
  · rw [if_pos hbA] at h
    by_cases hcA : c.toNat < 0x80
    · rw [if_pos hcA, List.cons.injEq, ← UInt8.toNat_inj, Nat.toUInt8_eq, Nat.toUInt8_eq,
        UInt8.toNat_ofNat', UInt8.toNat_ofNat'] at h
      omega
    · rw [if_neg hcA, if_pos hsmall.2, List.cons.injEq] at h
      cases h.2
  · rw [if_neg hbA, if_pos hsmall.1] at h
    by_cases hcA : c.toNat < 0x80
    · rw [if_pos hcA, List.cons.injEq] at h
      cases h.2
    · rw [if_neg hcA, if_pos hsmall.2] at h
      simp only [List.cons.injEq, and_true, ← UInt8.toNat_inj, Nat.toUInt8_eq,
        UInt8.toNat_ofNat'] at h
      omega

def Literal.Finite : Literal → Prop
  | float value => value.bits.toNat < Binary32.infinityBits
  | _ => True

theorem Parser.literal?_finite {t : Token} {value : Literal}
    (h : Parser.literal? t = some (.ok value)) : value.Finite := by
  unfold Parser.literal? at h
  split at h
  · split at h <;> cases h
    trivial
  · split at h
    · next x hx =>
      cases h
      exact Binary32.ofDecimal?_finite hx
    · cases h
  all_goals cases h
  all_goals trivial

theorem Literal.eq_of_depict {v w : Literal} (hv : v.Finite) (hw : w.Finite)
    (h : v.depict Text.asCharacter = w.depict Text.asCharacter) : v = w := by
  have hwords : Text.ofString "float" ≠ "char" ∧ Text.ofString "float" ≠ "bool" ∧
      Text.ofString "char" ≠ "bool" := by decide +kernel
  obtain ⟨hfc, hfb, hcb⟩ := hwords
  cases v with
  | int i =>
    cases w with
    | int j => rw [Text.ofInt_injective (Datum.integer.inj h)]
    | _ => cases h
  | float x =>
    cases w with
    | float y =>
      simp only [depict, Datum.list.injEq, List.cons.injEq, Datum.string.injEq, true_and,
        and_true] at h
      rw [Binary32.render_injective hv hw h]
    | char | bool => simp [depict, hfc, hfb] at h
    | _ => cases h
  | char b =>
    cases w with
    | char c =>
      simp only [depict, Datum.list.injEq, List.cons.injEq, Datum.string.injEq, true_and,
        and_true] at h
      rw [Text.asCharacter_injective h]
    | float | bool => simp [depict, hfc.symm, hcb] at h
    | _ => cases h
  | bool b =>
    cases w with
    | bool c =>
      have hne : Text.ofString "true" ≠ "false" := by decide +kernel
      cases b <;> cases c <;> simp_all [depict]
    | float | char => simp [depict, hfb.symm, hcb.symm] at h
    | _ => cases h
  | string t =>
    cases w with
    | string u => rw [Datum.string.inj h]
    | _ => cases h
  | untyped =>
    cases w with
    | untyped => rfl
    | _ => cases h

namespace NodeKind

theorem mem_named {k : NodeKind} (h : k.heads) : k ∈ named := by
  cases k with
  | literal | other => cases h
  | _ => decide

theorem symbol_injective {k l : NodeKind} (hk : k.heads) (hl : l.heads)
    (h : k.symbol = l.symbol) : k = l := by
  have hall : ∀ k ∈ named, ∀ l ∈ named, k.symbol = l.symbol → k = l := by decide +kernel
  exact hall k (mem_named hk) l (mem_named hl) h

theorem eq_of_headed {k l : NodeKind} (hk : k.heads) (hl : l.heads) {xs ys : List Datum}
    (h : k.headed xs = l.headed ys) : k = l := by
  rw [headed, headed, Datum.list.injEq, List.cons.injEq, Datum.symbol.injEq] at h
  exact symbol_injective hk hl h.1

end NodeKind

theorem Literal.depict_ne_headed (spell : UInt8 → Text) (v : Literal) {k : NodeKind}
    (hk : k.heads) (items : List Datum) : v.depict spell ≠ k.headed items := by
  have hall : ∀ k ∈ NodeKind.named,
      k.symbol ∉ [Text.ofString "float", "char", "bool"] := by decide +kernel
  have hword := hall k (NodeKind.mem_named hk)
  intro h
  cases v with
  | int | string | untyped => cases h
  | float | char | bool =>
    rw [depict, NodeKind.headed, Datum.list.injEq, List.cons.injEq, Datum.symbol.injEq] at h
    simp [← h.1] at hword

theorem Ty.name_injective {a b : Ty} (ha : a.Proper) (hb : b.Proper) (h : a.name = b.name) :
    a = b := by
  have hall : ∀ a ∈ [int, float, char, bool, string], ∀ b ∈ [int, float, char, bool, string],
      a.name = b.name → a = b := by decide +kernel
  have hmem {c : Ty} (hc : c.Proper) : c ∈ [int, float, char, bool, string] := by
    cases c with
    | other => exact hc.elim
    | _ => decide
  exact hall a (hmem ha) b (hmem hb) h

theorem Tree.operator_injective {op op' : TokenKind}
    (h : op ∈ unaryOperators ++ binaryOperators) (h' : op' ∈ unaryOperators ++ binaryOperators)
    (heq : op.operatorSpelling = op'.operatorSpelling) : op = op' := by
  have hall : ∀ op ∈ unaryOperators ++ binaryOperators,
      ∀ op' ∈ unaryOperators ++ binaryOperators,
        op.operatorSpelling = op'.operatorSpelling → op = op' := by decide +kernel
  exact hall op h op' h' heq

-- What shows two trees as the same datum: their roots are of one kind, and the parts follow.
section Bare

open Text (asCharacter)

namespace Expr

theorem depict_cases {e : Expr Unit} (h : e.Formed P) :
    (e.kind = .literal ∧ ∃ v : Literal, e.depict asCharacter = v.depict asCharacter) ∨
      (e.kind.heads ∧ ∃ items, e.depict asCharacter = e.kind.headed items) := by
  cases e with
  | literal => exact .inl ⟨rfl, _, rfl⟩
  | ident | call | unary | binary => exact .inr ⟨rfl, _, rfl⟩
  | foreign => exact h.elim

theorem kind_of_depict {e e' : Expr Unit} (h : e.Formed P) (h' : e'.Formed P)
    (heq : e.depict asCharacter = e'.depict asCharacter) : e.kind = e'.kind := by
  rcases depict_cases h with ⟨hk, v, hv⟩ | ⟨hk, items, hi⟩
  · rcases depict_cases h' with ⟨hk', -⟩ | ⟨hk', items', hi'⟩
    · rw [hk, hk']
    · rw [hv, hi'] at heq
      exact absurd heq (v.depict_ne_headed _ hk' _)
  · rcases depict_cases h' with ⟨hk', v', hv'⟩ | ⟨hk', items', hi'⟩
    · rw [hi, hv'] at heq
      exact absurd heq.symm (v'.depict_ne_headed _ hk _)
    · rw [hi, hi'] at heq
      exact NodeKind.eq_of_headed hk hk' heq

theorem depict_ne_symbol {e : Expr Unit} (h : e.Formed P) (t : Text) :
    e.depict asCharacter ≠ .symbol t := by
  intro heq
  cases e with
  | literal _ _ value =>
    cases value with
    | untyped => exact Parser.literal?_proper h.2
    | _ => cases heq
  | foreign => exact h.elim
  | _ => cases heq

mutual

theorem bare_of_depict : (e e' : Expr Unit) → e.Formed P → e'.Formed P →
    e.depict asCharacter = e'.depict asCharacter → e.toTree.bare = e'.toTree.bare
  | .literal _ _ v, e', h, h', heq => by
    have hk := kind_of_depict h h' heq
    cases e' with
    | literal _ _ w =>
      rw [Literal.eq_of_depict (Parser.literal?_finite h.2) (Parser.literal?_finite h'.2) heq]
      rfl
    | foreign => exact h'.elim
    | _ => cases hk
  | .ident _ _ x, e', h, h', heq => by
    have hk := kind_of_depict h h' heq
    cases e' with
    | ident _ _ y =>
      cases heq
      rfl
    | foreign => exact h'.elim
    | _ => cases hk
  | .call _ _ x args, e', h, h', heq => by
    have hk := kind_of_depict h h' heq
    cases e' with
    | call _ _ y args' =>
      simp only [depict, NodeKind.headed_inj, List.cons.injEq, Datum.string.injEq] at heq
      simp only [toTree, Tree.list, Tree.bare, heq.1,
        bareAll_of_depictAll args args' h.2 h'.2 heq.2]
    | foreign => exact h'.elim
    | _ => cases hk
  | .unary _ _ op operand, e', h, h', heq => by
    have hk := kind_of_depict h h' heq
    cases e' with
    | unary _ _ op' operand' =>
      simp only [depict, NodeKind.headed_inj, List.cons.injEq, Datum.string.injEq, and_true] at heq
      have hop := Tree.operator_injective
        (List.mem_append_left _ (Parser.mem_unaryOperators h.2.2.1))
        (List.mem_append_left _ (Parser.mem_unaryOperators h'.2.2.1)) heq.1
      simp only [toTree, Tree.bare, hop,
        bare_of_depict operand operand' h.2.2.2 h'.2.2.2 heq.2]
    | foreign => exact h'.elim
    | _ => cases hk
  | .binary _ _ op left right, e', h, h', heq => by
    have hk := kind_of_depict h h' heq
    cases e' with
    | binary _ _ op' left' right' =>
      simp only [depict, NodeKind.headed_inj, List.cons.injEq, Datum.string.injEq, and_true] at heq
      have hop := Tree.operator_injective
        (List.mem_append_right _ (Parser.mem_binaryOperators h.2.2.1))
        (List.mem_append_right _ (Parser.mem_binaryOperators h'.2.2.1)) heq.1
      simp only [toTree, Tree.bare, hop,
        bare_of_depict left left' h.2.2.2.1 h'.2.2.2.1 heq.2.1,
        bare_of_depict right right' h.2.2.2.2 h'.2.2.2.2 heq.2.2]
    | foreign => exact h'.elim
    | _ => cases hk
  | .foreign .., _, h, _, _ => h.elim

theorem bareAll_of_depictAll : (es es' : List (Expr Unit)) → AllFormed P es → AllFormed P es' →
    depictAll asCharacter es = depictAll asCharacter es' →
      Tree.bareAll (toTrees es) = Tree.bareAll (toTrees es')
  | [], [], _, _, _ => rfl
  | e :: rest, e' :: rest', h, h', heq => by
    have hparts := List.cons.inj heq
    simp only [toTrees, Tree.bareAll, bare_of_depict e e' h.1 h'.1 hparts.1,
      bareAll_of_depictAll rest rest' h.2 h'.2 hparts.2]
  | [], _ :: _, _, _, heq => by cases heq
  | _ :: _, [], _, _, heq => by cases heq

end

end Expr

namespace Stmt

theorem depict_headed {s : Stmt Unit} (h : s.Formed P) :
    s.kind.heads ∧ ∃ items, s.depict asCharacter = s.kind.headed items := by
  cases s with
  | foreign => exact h.elim
  | _ => exact ⟨rfl, _, rfl⟩

theorem kind_of_depict {s s' : Stmt Unit} (h : s.Formed P) (h' : s'.Formed P)
    (heq : s.depict asCharacter = s'.depict asCharacter) : s.kind = s'.kind := by
  obtain ⟨hk, items, hi⟩ := depict_headed h
  obtain ⟨hk', items', hi'⟩ := depict_headed h'
  rw [hi, hi'] at heq
  exact NodeKind.eq_of_headed hk hk' heq

theorem condition_of_depict {o o' : Option (Expr Unit)} (h : ∀ e ∈ o, e.Formed P)
    (h' : ∀ e ∈ o', e.Formed P)
    (heq : (o.map (Expr.depict asCharacter)).getD (.symbol "nil") =
      (o'.map (Expr.depict asCharacter)).getD (.symbol "nil")) :
    (o.elim .absent Expr.toTree).bare = (o'.elim .absent Expr.toTree).bare := by
  cases o with
  | none =>
    cases o' with
    | none => rfl
    | some e' => exact absurd heq.symm (Expr.depict_ne_symbol (h' e' rfl) _)
  | some e =>
    cases o' with
    | none => exact absurd heq (Expr.depict_ne_symbol (h e rfl) _)
    | some e' => exact Expr.bare_of_depict e e' (h e rfl) (h' e' rfl) heq

theorem declare_of_depict {token token' : Token} {x : Text} {type : Ty}
    {o o' : Option (Expr Unit)} (h : ∀ e ∈ o, e.Formed P) (h' : ∀ e ∈ o', e.Formed P)
    (heq : (o.map (Expr.depict asCharacter)).toList = (o'.map (Expr.depict asCharacter)).toList) :
    (declare () token x type o).toTree.bare = (declare () token' x type o').toTree.bare := by
  cases o with
  | none =>
    cases o' with
    | none => rfl
    | some => cases heq
  | some e =>
    cases o' with
    | none => cases heq
    | some e' =>
      have hvalue := Expr.bare_of_depict e e' (h e rfl) (h' e' rfl) (List.cons.inj heq).1
      simp only [toTree, valueTree, Tree.bare, hvalue]

mutual

theorem bare_of_depict : (s s' : Stmt Unit) → s.Formed P → s'.Formed P →
    s.depict asCharacter = s'.depict asCharacter → s.toTree.bare = s'.toTree.bare
  | .declare _ _ x type value, s', h, h', heq => by
    have hk := kind_of_depict h h' heq
    cases s' with
    | declare _ _ y type' value' =>
      simp only [depict, NodeKind.headed_inj, List.cons.injEq, Datum.string.injEq,
        Datum.symbol.injEq] at heq
      obtain ⟨rfl, htype, hvalue⟩ := heq
      obtain rfl := Ty.name_injective h.2.1 h'.2.1 htype
      exact declare_of_depict h.2.2 h'.2.2 hvalue
    | foreign => exact h'.elim
    | _ => cases hk
  | .assign _ _ x value, s', h, h', heq => by
    have hk := kind_of_depict h h' heq
    cases s' with
    | assign _ _ y value' =>
      simp only [depict, NodeKind.headed_inj, List.cons.injEq, Datum.string.injEq, and_true] at heq
      simp only [toTree, valueTree, Tree.bare, heq.1,
        Expr.bare_of_depict value value' h.2 h'.2 heq.2]
    | foreign => exact h'.elim
    | _ => cases hk
  | .input _ _ x, s', h, h', heq => by
    have hk := kind_of_depict h h' heq
    cases s' with
    | input _ _ y =>
      cases heq
      rfl
    | foreign => exact h'.elim
    | _ => cases hk
  | .print _ value, s', h, h', heq => by
    have hk := kind_of_depict h h' heq
    cases s' with
    | print _ value' =>
      simp only [depict, NodeKind.headed_inj, List.cons.injEq, and_true] at heq
      simp only [toTree, valueTree, Tree.bare, Expr.bare_of_depict value value' h.2 h'.2 heq]
    | foreign => exact h'.elim
    | _ => cases hk
  | .evaluate _ value, s', h, h', heq => by
    have hk := kind_of_depict h h' heq
    cases s' with
    | evaluate _ value' =>
      simp only [depict, NodeKind.headed_inj, List.cons.injEq, and_true] at heq
      simp only [toTree, valueTree, Tree.bare, Expr.bare_of_depict value value' h.2 h'.2 heq]
    | foreign => exact h'.elim
    | _ => cases hk
  | .ret _ value, s', h, h', heq => by
    have hk := kind_of_depict h h' heq
    cases s' with
    | ret _ value' =>
      simp only [depict, NodeKind.headed_inj, List.cons.injEq, and_true] at heq
      simp only [toTree, valueTree, Tree.bare, Expr.bare_of_depict value value' h.2 h'.2 heq]
    | foreign => exact h'.elim
    | _ => cases hk
  | .ifThen _ cond _ body, s', h, h', heq => by
    have hk := kind_of_depict h h' heq
    cases s' with
    | ifThen _ cond' _ body' =>
      simp only [depict, NodeKind.headed_inj, List.cons.injEq, and_true] at heq
      simp only [toTree, blockTree, Tree.list, Tree.bare,
        Expr.bare_of_depict cond cond' h.2.1 h'.2.1 heq.1,
        bareAll_of_depictAll body body' h.2.2.2 h'.2.2.2 heq.2]
    | ifElse => simp [depict, NodeKind.headed_inj] at heq
    | foreign => exact h'.elim
    | _ => cases hk
  | .ifElse _ cond _ body _ elseBody, s', h, h', heq => by
    have hk := kind_of_depict h h' heq
    cases s' with
    | ifElse _ cond' _ body' _ elseBody' =>
      simp only [depict, NodeKind.headed_inj, List.cons.injEq, and_true] at heq
      simp only [toTree, blockTree, Tree.list, Tree.bare,
        Expr.bare_of_depict cond cond' h.2.1 h'.2.1 heq.1,
        bareAll_of_depictAll body body' h.2.2.2.1 h'.2.2.2.1 heq.2.1,
        bareAll_of_depictAll elseBody elseBody' h.2.2.2.2.2 h'.2.2.2.2.2 heq.2.2]
    | ifThen => simp [depict, NodeKind.headed_inj] at heq
    | foreign => exact h'.elim
    | _ => cases hk
  | .whileDo _ cond _ body, s', h, h', heq => by
    have hk := kind_of_depict h h' heq
    cases s' with
    | whileDo _ cond' _ body' =>
      simp only [depict, NodeKind.headed_inj, List.cons.injEq, and_true] at heq
      simp only [toTree, blockTree, Tree.list, Tree.bare,
        Expr.bare_of_depict cond cond' h.2.1 h'.2.1 heq.1,
        bareAll_of_depictAll body body' h.2.2.2 h'.2.2.2 heq.2]
    | foreign => exact h'.elim
    | _ => cases hk
  | .forDo _ init cond step _ body, s', h, h', heq => by
    have hk := kind_of_depict h h' heq
    cases s' with
    | forDo _ init' cond' step' _ body' =>
      obtain ⟨_, _, hi, hc, _, hs, _, hb⟩ := h
      obtain ⟨_, _, hi', hc', _, hs', _, hb'⟩ := h'
      simp only [depict, NodeKind.headed_inj, List.cons.injEq, and_true] at heq
      simp only [toTree, blockTree, Tree.list, Tree.bare,
        bare?_of_depict? init init' hi hi' heq.1, condition_of_depict hc hc' heq.2.1,
        bare?_of_depict? step step' hs hs' heq.2.2.1,
        bareAll_of_depictAll body body' hb hb' heq.2.2.2]
    | foreign => exact h'.elim
    | _ => cases hk
  | .block _ body, s', h, h', heq => by
    have hk := kind_of_depict h h' heq
    cases s' with
    | block _ body' =>
      simp only [depict, NodeKind.headed_inj] at heq
      simp only [toTree, blockTree, Tree.list, Tree.bare,
        bareAll_of_depictAll body body' h.2 h'.2 heq]
    | foreign => exact h'.elim
    | _ => cases hk
  | .foreign .., _, h, _, _ => h.elim

theorem bare?_of_depict? : (o o' : Option (Stmt Unit)) → OptFormed P o → OptFormed P o' →
    depict? asCharacter o = depict? asCharacter o' → (toTree? o).bare = (toTree? o').bare
  | none, none, _, _, _ => rfl
  | some s, some s', h, h', heq => bare_of_depict s s' h h' heq
  | none, some s', _, h', heq => by
    obtain ⟨-, items, hi⟩ := depict_headed h'
    rw [depict?, depict?, hi] at heq
    cases heq
  | some s, none, h, _, heq => by
    obtain ⟨-, items, hi⟩ := depict_headed h
    rw [depict?, depict?, hi] at heq
    cases heq

theorem bareAll_of_depictAll : (ss ss' : List (Stmt Unit)) → AllFormed P ss → AllFormed P ss' →
    depictAll asCharacter ss = depictAll asCharacter ss' →
      Tree.bareAll (toTrees ss) = Tree.bareAll (toTrees ss')
  | [], [], _, _, _ => rfl
  | s :: rest, s' :: rest', h, h', heq => by
    have hparts := List.cons.inj heq
    simp only [toTrees, Tree.bareAll, bare_of_depict s s' h.1 h'.1 hparts.1,
      bareAll_of_depictAll rest rest' h.2 h'.2 hparts.2]
  | [], _ :: _, _, _, heq => by cases heq
  | _ :: _, [], _, _, heq => by cases heq

end

end Stmt

theorem Param.bare_of_depict {x y : Param Unit} (h : x.Formed P) (h' : y.Formed P)
    (heq : x.depict = y.depict) : x.toTree.bare = y.toTree.bare := by
  simp only [depict, NodeKind.headed_inj, List.cons.injEq, Datum.string.injEq, Datum.symbol.injEq,
    and_true] at heq
  have htype := Ty.name_injective h.type h'.type heq.2
  simp only [toTree, Tree.leaf, Tree.list, Tree.bare, heq.1, htype]

theorem Tree.bareAll_map_of_depict {α : Type} {Q : α → Prop} {toTree : α → Tree}
    {depict : α → Datum}
    (hbare : ∀ x y, Q x → Q y → depict x = depict y → (toTree x).bare = (toTree y).bare)
    {xs ys : List α} (hx : ∀ x ∈ xs, Q x) (hy : ∀ y ∈ ys, Q y)
    (heq : xs.map depict = ys.map depict) :
    bareAll (xs.map toTree) = bareAll (ys.map toTree) := by
  rw [bareAll_eq_map, bareAll_eq_map, List.map_map, List.map_map]
  induction xs generalizing ys with
  | nil =>
    cases ys with
    | nil => rfl
    | cons => cases heq
  | cons x xs ih =>
    cases ys with
    | nil => cases heq
    | cons y ys =>
      obtain ⟨hxQ, hxs⟩ := List.forall_mem_cons.mp hx
      obtain ⟨hyQ, hys⟩ := List.forall_mem_cons.mp hy
      obtain ⟨hhead, htail⟩ := List.cons.inj heq
      rw [List.map_cons, List.map_cons, ih hxs hys htail, Function.comp, Function.comp,
        hbare x y hxQ hyQ hhead]

theorem Func.bare_of_depict {f g : Func Unit} (h : f.Formed P) (h' : g.Formed P)
    (heq : f.depict asCharacter = g.depict asCharacter) : f.toTree.bare = g.toTree.bare := by
  simp only [depict, NodeKind.headed_inj, List.cons.injEq, Datum.string.injEq, Datum.symbol.injEq,
    Datum.list.injEq, true_and, and_true] at heq
  obtain ⟨hname, hparams, hresult, hbody⟩ := heq
  have htype := Ty.name_injective h.result h'.result hresult
  have hparams' := Tree.bareAll_map_of_depict (fun x y hx hy => Param.bare_of_depict hx hy)
    h.params h'.params hparams
  simp only [toTree, Stmt.blockTree, Tree.list, Tree.bare, hname, htype, hparams',
    Stmt.bareAll_of_depictAll f.body g.body h.body h'.body hbody]

theorem Program.bare_of_depict {x y : Program Unit} (h : x.Formed P) (h' : y.Formed P)
    (heq : x.depict asCharacter = y.depict asCharacter) : x.toTree.bare = y.toTree.bare := by
  rw [depict, depict, NodeKind.headed_inj] at heq
  have hfunctions := Tree.bareAll_map_of_depict (fun f g hf hg => Func.bare_of_depict hf hg)
    h h' heq
  simp only [toTree, Tree.list, Tree.bare, hfunctions]

end Bare

inductive Tree.Parsed : Tree → Prop
  | program {source : Text} {x : Program Unit} : parse source = .ok x → Parsed x.toTree
  | expression {source : Text} {e : Expr Unit} : parseExpression source = .ok e → Parsed e.toTree

namespace Tree.Parsed

open Text (asCharacter)

theorem program_formed {source : Text} {x : Program Unit} (h : parse source = .ok x) :
    x.Formed fun _ => True :=
  parse_formed h fun _ _ => trivial

theorem expression_formed {source : Text} {e : Expr Unit} (h : parseExpression source = .ok e) :
    e.Formed fun _ => True :=
  parseExpression_formed h fun _ _ => trivial

theorem exists_datum {t : Tree} (h : t.Parsed) : ∃ d, t.datum = .ok d ∧ d.WellFormed := by
  cases h with
  | program hx =>
    have hformed := program_formed hx
    exact ⟨_, Program.datum_toTree hformed, Program.depict_wellFormed _ hformed⟩
  | expression he =>
    have hformed := expression_formed he
    exact ⟨_, Expr.datum_toTree _ hformed, Expr.depict_wellFormed _ _ hformed⟩

theorem program_ne_expression {x : Program Unit} {e : Expr Unit} (h : e.Formed P) :
    x.depict asCharacter ≠ e.depict asCharacter := by
  intro heq
  rcases Expr.depict_cases h with ⟨-, v, hv⟩ | ⟨hk, items, hi⟩
  · rw [hv] at heq
    exact v.depict_ne_headed _ rfl _ heq.symm
  · rw [hi] at heq
    have hkind : NodeKind.program = e.kind := NodeKind.eq_of_headed rfl hk heq
    cases e with
    | foreign => exact h.elim
    | _ => cases hkind

theorem bare_of_datum {t u : Tree} (ht : t.Parsed) (hu : u.Parsed) (h : t.datum = u.datum) :
    t.bare = u.bare := by
  cases ht with
  | program hx =>
    have hformed := program_formed hx
    rw [Program.datum_toTree hformed] at h
    cases hu with
    | program hy =>
      have hformed' := program_formed hy
      rw [Program.datum_toTree hformed'] at h
      exact Program.bare_of_depict hformed hformed' (Except.ok.inj h)
    | expression he =>
      have hformed' := expression_formed he
      rw [Expr.datum_toTree _ hformed'] at h
      exact absurd (Except.ok.inj h) (program_ne_expression hformed')
  | expression he =>
    have hformed := expression_formed he
    rw [Expr.datum_toTree _ hformed] at h
    cases hu with
    | program hy =>
      have hformed' := program_formed hy
      rw [Program.datum_toTree hformed'] at h
      exact absurd (Except.ok.inj h).symm (program_ne_expression hformed)
    | expression he' =>
      have hformed' := expression_formed he'
      rw [Expr.datum_toTree _ hformed'] at h
      exact Expr.bare_of_depict _ _ hformed hformed' (Except.ok.inj h)

end Tree.Parsed

/-- Two trees have the same text exactly if they are the same but for their tokens. -/
theorem tree_texts_unambiguous {t u : Tree} (ht : t.Parsed) (hu : u.Parsed) :
    ∃ a b, t.render = .ok a ∧ u.render = .ok b ∧ (a = b ↔ t.bare = u.bare) := by
  obtain ⟨d, hd, hdwf⟩ := ht.exists_datum
  obtain ⟨e, he, hewf⟩ := hu.exists_datum
  refine ⟨d.render, e.render, by rw [Tree.render_eq, hd]; rfl, by rw [Tree.render_eq, he]; rfl, ?_⟩
  constructor
  · intro htext
    obtain rfl := Datum.render_injective hdwf hewf htext
    exact ht.bare_of_datum hu (hd.trans he.symm)
  · intro hbare
    have hdatum : t.datum = u.datum := by rw [← Tree.datum_bare t, hbare, Tree.datum_bare]
    rw [hd, he, Except.ok.injEq] at hdatum
    rw [hdatum]

theorem exists_parsed {source text : Text}
    (h : ((parseExpression source).toOption.bind fun e => e.toTree.render.toOption) = some text) :
    ∃ t : Tree, t.Parsed ∧ t.render = .ok text := by
  cases he : parseExpression source with
  | error =>
    rw [he] at h
    cases h
  | ok e =>
    rw [he] at h
    refine ⟨e.toTree, .expression he, ?_⟩
    cases ht : e.toTree.render with
    | error =>
      simp only [Except.toOption, Option.bind_some, ht] at h
      cases h
    | ok =>
      simp only [Except.toOption, Option.bind_some, ht] at h
      rw [Option.some.inj h]

theorem tree_texts_unambiguous_quoted : ∃ t u v : Tree, t.Parsed ∧ u.Parsed ∧ v.Parsed ∧
    t.bare = u.bare ∧ t.bare ≠ v.bare := by
  have ht : ((parseExpression "x*(y)").toOption.bind fun e => e.toTree.render.toOption) =
      some (Text.ofString "(binary \"*\" (ident \"x\") (ident \"y\"))") := by
    rw [Text.ofString_ofList, Text.ofString_ofList]
    decide +kernel
  have hu : ((parseExpression " x * y").toOption.bind fun e => e.toTree.render.toOption) =
      some (Text.ofString "(binary \"*\" (ident \"x\") (ident \"y\"))") := by
    rw [Text.ofString_ofList, Text.ofString_ofList]
    decide +kernel
  have hv : ((parseExpression "x * \"y\"").toOption.bind fun e => e.toTree.render.toOption) =
      some (Text.ofString "(binary \"*\" (ident \"x\") \"y\")") := by
    rw [Text.ofString_ofList, Text.ofString_ofList]
    decide +kernel
  obtain ⟨t, ht, httext⟩ := exists_parsed ht
  obtain ⟨u, hu, hutext⟩ := exists_parsed hu
  obtain ⟨v, hv, hvtext⟩ := exists_parsed hv
  refine ⟨t, u, v, ht, hu, hv, ?_, ?_⟩
  · obtain ⟨a, b, ha, hb, hiff⟩ := tree_texts_unambiguous ht hu
    rw [httext] at ha
    rw [hutext] at hb
    exact hiff.mp ((Except.ok.inj ha).symm.trans (Except.ok.inj hb))
  · obtain ⟨a, b, ha, hb, hiff⟩ := tree_texts_unambiguous ht hv
    rw [httext] at ha
    rw [hvtext] at hb
    intro hbare
    have htexts := (Except.ok.inj ha).trans ((hiff.mpr hbare).trans (Except.ok.inj hb).symm)
    rw [Text.ofString_ofList, Text.ofString_ofList] at htexts
    revert htexts
    decide +kernel

end MiniSharp
