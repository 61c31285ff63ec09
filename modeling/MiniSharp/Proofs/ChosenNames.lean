import MiniSharp.Proofs.Acceptance
import MiniSharp.Proofs.TypedLowering

namespace MiniSharp

open Text (byte)

def Token.Spelt (t : Token) : Prop := t.kind = .unknown ∨ ∃ bytes, Spells t.kind t.text bytes

theorem scan_spelt (source : Text) : ∀ t ∈ (scan source).tokens, t.Spelt := by
  intro t ht
  by_cases hu : t.kind = .unknown
  · exact .inl hu
  · obtain ⟨s, hs⟩ := exists_covers (List.mem_append_left _ ht)
    exact .inr ⟨_, hs.lexeme ((scan_kinds source).2 t ht) hu⟩

theorem Token.Names.spelt {t : Token} {name : Text} (h : t.Names Token.Spelt name) :
    IsName name := by
  rw [h.text]
  rcases h.holds with hu | ⟨bytes, hs⟩
  · cases h.kind.symm.trans hu
  · rw [h.kind] at hs
    cases hs with
    | name hx => exact hx

namespace Target

inductive Identifier : Text → Prop
  | plain {x : Text} : IsName x → Identifier x
  | escaped {k : Text} : k ∈ keywords → Identifier (byte '@' :: k)

theorem spelling_plain (k : Keyword) : byte '_' ∉ k.spelling := by
  cases k <;> decide +kernel

theorem freshName_isName {base : Text} (h : IsName base) (used : List Text) :
    IsName (freshName base used) := by
  obtain ⟨b, t, rfl, hb⟩ := h.start
  refine ⟨⟨b, _, rfl, hb⟩, ?_, ?_⟩
  · intro c hc
    rcases List.mem_append.mp hc with hc | hc
    · exact h.word c hc
    · rcases List.mem_cons.mp hc with rfl | hc
      · decide
      · simp [Lexer.isWordByte, Text.isDigit_decimal _ c hc]
  · -- No keyword has an underscore.
    refine List.find?_eq_none.mpr fun k _ hk => spelling_plain k ?_
    rw [beq_iff_eq.mp hk]
    simp [freshName, numbered]

theorem escapeName_identifier {name : Text} (h : IsName name) : Identifier (escapeName name) := by
  unfold escapeName
  split
  · exact .escaped ‹_›
  · exact .plain h

theorem localName_identifier {name : Text} (h : IsName name) (used : List Text) :
    Identifier (localName name used) := by
  unfold localName
  split
  · exact .plain (freshName_isName h used)
  · exact escapeName_identifier h

theorem methodName_identifier {name : Text} (h : IsName name) (used : List Text) :
    Identifier (Lowering.methodName name used) := by
  unfold Lowering.methodName
  split
  · exact .plain ⟨⟨byte 'M', _, rfl, by decide⟩, List.all_eq_true.mp (by decide +kernel),
      by decide +kernel⟩
  · split
    · exact .plain (freshName_isName h used)
    · exact escapeName_identifier h

end Target

namespace Lowering

def Adds (names names' : Names) (xs : List Symbol) : Prop :=
  ∃ new, names'.given = new ++ names.given ∧ (new.map Prod.fst).Perm (xs.map Symbol.id) ∧
    ∀ p ∈ new, Target.Identifier p.2

namespace Adds

theorem nil (names : Names) : Adds names names [] := ⟨[], rfl, .nil, by simp⟩

theorem append {names₁ names₂ names₃ : Names} {xs ys : List Symbol} (h : Adds names₁ names₂ xs)
    (h' : Adds names₂ names₃ ys) : Adds names₁ names₃ (xs ++ ys) := by
  obtain ⟨new, hnew, hids, hspelt⟩ := h
  obtain ⟨new', hnew', hids', hspelt'⟩ := h'
  refine ⟨new' ++ new, by rw [hnew', hnew, List.append_assoc], ?_, ?_⟩
  · rw [List.map_append, List.map_append]
    exact List.perm_append_comm.trans (hids.append hids')
  · exact List.forall_mem_append.mpr ⟨hspelt', hspelt⟩

theorem perm {names names' : Names} {xs ys : List Symbol} (h : Adds names names' xs)
    (hp : xs.Perm ys) : Adds names names' ys := by
  obtain ⟨new, hnew, hids, hspelt⟩ := h
  exact ⟨new, hnew, hids.trans (hp.map _), hspelt⟩

end Adds

theorem declare_adds {names names' : Names} {note : Note} {name given : Text} (hn : IsName name)
    (h : declare names note name = .ok (given, names')) :
    Adds names names' note.defines.toList := by
  unfold declare defined at h
  cases hx : note.defines with
  | none => rw [hx] at h; cases h
  | some x =>
    rw [hx] at h
    cases h
    exact ⟨[_], rfl, .refl _, List.forall_mem_singleton.mpr (Target.localName_identifier hn _)⟩

theorem simple_adds {names names' : Names} {s : Stmt Note} {c : Target.Simple}
    (hs : s.Formed Token.Spelt) (h : simple names s = .ok (c, names')) :
    Adds names names' s.defines := by
  cases s with
  | declare note token name type value =>
    simp only [simple] at h
    split at h
    all_goals
      simp only [bind_eq_ok, pure_eq_ok, Prod.exists, Prod.mk.injEq] at h
      obtain ⟨e, -, given, _, hd, rfl, rfl⟩ := h
      exact declare_adds hs.1.spelt hd
  | assign =>
    simp only [simple, bind_eq_ok, pure_eq_ok, Prod.mk.injEq] at h
    obtain ⟨given, -, e, -, rfl, rfl⟩ := h
    exact .nil names
  | evaluate =>
    simp only [simple, bind_eq_ok, pure_eq_ok, Prod.mk.injEq] at h
    obtain ⟨e, -, rfl, rfl⟩ := h
    exact .nil names
  | input | print | ret | ifThen | ifElse | whileDo | forDo | block | foreign => cases h

theorem clause_adds {names names' : Names} {o : Option (Stmt Note)} {c : Option Target.Simple}
    (ho : Stmt.OptFormed Token.Spelt o) (h : simple? names o = .ok (c, names')) :
    Adds names names' (Stmt.defines? o) := by
  cases o with
  | none =>
    simp only [simple?, pure_eq_ok, Prod.mk.injEq] at h
    obtain ⟨rfl, rfl⟩ := h
    exact .nil names
  | some s =>
    simp only [simple?, bind_eq_ok, pure_eq_ok, Prod.exists, Prod.mk.injEq] at h
    obtain ⟨t, _, hs, rfl, rfl⟩ := h
    exact simple_adds ho hs

mutual

theorem stmt_adds {names names' : Names} {c : Target.Stmt} :
    (s : Stmt Note) → s.Formed Token.Spelt → stmt names s = .ok (c, names') →
      Adds names names' s.defines
  | .declare .., hs, h | .assign .., hs, h | .evaluate .., hs, h => by
    rw [stmt_of_isInit rfl] at h
    simp only [bind_eq_ok, pure_eq_ok, Prod.exists, Prod.mk.injEq] at h
    obtain ⟨t, _, hs', rfl, rfl⟩ := h
    exact simple_adds hs hs'
  | .input note t name, hs, h => by
    simp only [stmt, bind_eq_ok] at h
    obtain ⟨given, -, h⟩ := h
    split at h <;> cases h
    exact .nil names
  | .print t value, hs, h | .ret t value, hs, h => by
    simp only [stmt, bind_eq_ok, pure_eq_ok, Prod.mk.injEq] at h
    obtain ⟨e, -, rfl, rfl⟩ := h
    exact .nil names
  | .ifThen t cond brace body, hs, h | .whileDo t cond brace body, hs, h => by
    simp only [stmt, bind_eq_ok, pure_eq_ok, Prod.exists, Prod.mk.injEq] at h
    obtain ⟨c, -, b, _, hb, rfl, rfl⟩ := h
    exact stmts_adds body hs.2.2.2 hb
  | .ifElse t cond brace body elseBrace elseBody, hs, h => by
    simp only [stmt, bind_eq_ok, pure_eq_ok, Prod.exists, Prod.mk.injEq] at h
    obtain ⟨c, -, b, _, hb, e, _, he, rfl, rfl⟩ := h
    obtain ⟨-, -, -, hbody, -, helse⟩ := hs
    exact (stmts_adds body hbody hb).append (stmts_adds elseBody helse he)
  | .forDo t init cond step brace body, hs, h => by
    simp only [stmt, bind_eq_ok] at h
    obtain ⟨used, -, h⟩ := h
    obtain ⟨-, -, hinit, -, -, hstep, -, hbody⟩ := hs
    split at h
    · simp only [bind_eq_ok, pure_eq_ok, Prod.exists, Prod.mk.injEq] at h
      obtain ⟨i, _, hi, c, -, b, _, hb, s, _, hst, rfl, rfl⟩ := h
      exact ((clause_adds hinit hi).append (stmts_adds body hbody hb)).append
        (clause_adds hstep hst)
    · simp only [bind_eq_ok, pure_eq_ok, Prod.exists, Prod.mk.injEq] at h
      obtain ⟨i, _, hi, c, -, s, _, hst, b, _, hb, rfl, rfl⟩ := h
      have hadds := (clause_adds hinit hi).append
        ((clause_adds hstep hst).append (stmts_adds body hbody hb))
      rw [Stmt.defines, List.append_assoc]
      exact hadds.perm (List.perm_append_comm.append_left _)
  | .block brace body, hs, h => by
    simp only [stmt, bind_eq_ok, pure_eq_ok, Prod.exists, Prod.mk.injEq] at h
    obtain ⟨b, _, hb, rfl, rfl⟩ := h
    exact stmts_adds body hs.2 hb
  | .foreign .., hs, _ => hs.elim

theorem stmts_adds {names names' : Names} {cs : List Target.Stmt} :
    (ss : List (Stmt Note)) → Stmt.AllFormed Token.Spelt ss → stmts names ss = .ok (cs, names') →
      Adds names names' (Stmt.definesAll ss)
  | [], _, h => by
    simp only [stmts, pure_eq_ok, Prod.mk.injEq] at h
    obtain ⟨rfl, rfl⟩ := h
    exact .nil names
  | s :: rest, hs, h => by
    simp only [stmts, bind_eq_ok, pure_eq_ok, Prod.exists, Prod.mk.injEq] at h
    obtain ⟨t, _, ht, ts, _, hts, rfl, rfl⟩ := h
    exact (stmt_adds s hs.1 ht).append (stmts_adds rest hs.2 hts)

end

theorem params_adds {names names' : Names} {xs : List (Param Note)} {ls : List Target.Local}
    (hx : ∀ x ∈ xs, x.Formed Token.Spelt) (h : params names xs = .ok (ls, names')) :
    Adds names names' (xs.flatMap fun x => x.note.defines.toList) := by
  induction xs generalizing names ls with
  | nil =>
    simp only [params, pure_eq_ok, Prod.mk.injEq] at h
    obtain ⟨rfl, rfl⟩ := h
    exact .nil names
  | cons x rest ih =>
    simp only [params, bind_eq_ok, pure_eq_ok, Prod.exists, Prod.mk.injEq] at h
    obtain ⟨given, _, hd, ls, _, hls, rfl, rfl⟩ := h
    obtain ⟨hx, hrest⟩ := List.forall_mem_cons.mp hx
    exact (declare_adds hx.name.spelt hd).append (ih hrest hls)

theorem nameMethods_identifiers {fs : List (Func Note)} {used : List Text}
    {methods : List (SymbolId × Text)} (hf : ∀ f ∈ fs, IsName f.name)
    (h : nameMethods used fs = .ok methods) : ∀ p ∈ methods, Target.Identifier p.2 := by
  induction fs generalizing used methods with
  | nil =>
    simp only [nameMethods, pure_eq_ok] at h
    subst h
    simp
  | cons f rest ih =>
    simp only [nameMethods, bind_eq_ok, pure_eq_ok] at h
    obtain ⟨x, -, more, hmore, rfl⟩ := h
    obtain ⟨hf, hrest⟩ := List.forall_mem_cons.mp hf
    exact List.forall_mem_cons.mpr ⟨Target.methodName_identifier hf used, ih hrest hmore⟩

end Lowering

namespace Emitted

section Code

variable (given : SymbolId → Text) (E : Expr Note → Target.Expr → Prop)

inductive SimpleCode : Stmt Note → Target.Simple → Prop
  | declare {note t name type x} : note.defines = some x →
    SimpleCode (.declare note t name type none) (.declare type (given x.id) (.default type))
  | declareWith {note t name type value x c} : note.defines = some x → E value c →
    SimpleCode (.declare note t name type (some value)) (.declare type (given x.id) c)
  | assign {note t name value x c} : note.refers = some x → E value c →
    SimpleCode (.assign note t name value) (.assign (given x.id) c)
  | call {t value c} : Lowering.isCall value = true → E value c →
    SimpleCode (.evaluate t value) (.call c)
  | discard {t value c} : Lowering.isCall value = false → E value c →
    SimpleCode (.evaluate t value) (.discard c)

mutual

inductive StmtCode : Stmt Note → Target.Stmt → Prop
  | simple {s c} : SimpleCode given E s c → StmtCode s (.simple c)
  | print {t value c} : E value c → StmtCode (.print t value) (.print (.display c))
  | read {note t name type x} : note.refers = some x → note.input = some type →
    StmtCode (.input note t name) (.read (given x.id) type)
  | ret {t value c} : E value c → StmtCode (.ret t value) (.ret c)
  | ifThen {t cond brace body c b} : E cond c → StmtsCode body b →
    StmtCode (.ifThen t cond brace body) (.ifThen c b)
  | ifElse {t cond brace body elseBrace elseBody c b e} : E cond c → StmtsCode body b →
    StmtsCode elseBody e →
    StmtCode (.ifElse t cond brace body elseBrace elseBody) (.ifElse c b e)
  | whileDo {t cond brace body c b} : E cond c → StmtsCode body b →
    StmtCode (.whileDo t cond brace body) (.whileDo c b)
  | forHeader {t init cond step brace body i c s b} : Option.Rel (SimpleCode given E) init i →
    Option.Rel E cond c → Option.Rel (SimpleCode given E) step s → StmtsCode body b →
    StmtCode (.forDo t init cond step brace body) (.forDo i c s b)
  | forAsWhile {t init cond step brace body i c s b} : Option.Rel (SimpleCode given E) init i →
    Option.Rel E cond c → Option.Rel (SimpleCode given E) step s → StmtsCode body b →
    StmtCode (.forDo t init cond step brace body)
      (.block ((i.map .simple).toList ++
        [.whileDo (c.getD (.bool true)) (b ++ (s.map .simple).toList)]))
  | block {brace body b} : StmtsCode body b → StmtCode (.block brace body) (.block b)

inductive StmtsCode : List (Stmt Note) → List Target.Stmt → Prop
  | nil : StmtsCode [] []
  | cons {s c rest cs} : StmtCode s c → StmtsCode rest cs → StmtsCode (s :: rest) (c :: cs)

end

structure MethodCode (f : Func Note) (m : Target.Method) : Prop where
  name : ∃ x, f.note.defines = some x ∧ m.name = given x.id
  result : m.result = f.result
  params : List.Forall₂ (fun p l => l.type = p.type ∧
    ∃ x, p.note.defines = some x ∧ l.name = given x.id) f.params m.params
  body : ∃ code, StmtsCode given E f.body code ∧
    (m.body = code ∨ m.body = code ++ [.ret (.default f.result)])

end Code

end Emitted

namespace Lowering

open Emitted

variable {given : SymbolId → Text} {E : Expr Note → Target.Expr → Prop} {Γ : Target.Env}
  {result : Ty}

def Names.Follows (names : Names) (given : SymbolId → Text) : Prop :=
  ∀ p ∈ names.given, given p.1 = p.2

theorem Adds.follows {names names' : Names} {xs : List Symbol} (h : Adds names names' xs)
    (hf : names'.Follows given) : names.Follows given := by
  obtain ⟨new, hnew, -, -⟩ := h
  intro p hp
  exact hf p (hnew ▸ List.mem_append_right _ hp)

theorem givenName_follows {names : Names} {note : Note} {name g : Text} (hf : names.Follows given)
    (h : givenName names note name = .ok g) : ∃ x, note.refers = some x ∧ g = given x.id := by
  cases hx : note.refers with
  | none =>
    simp only [givenName, hx] at h
    cases h
  | some x =>
    obtain ⟨front, back, hsplit, -⟩ := List.lookup_eq_some_iff.mp (lookup_of_givenName hx h)
    exact ⟨x, rfl, (hf (x.id, g) (by rw [hsplit]; simp)).symm⟩

theorem displayed_operand {e : Expr Note} {c c' : Target.Expr} (h : displayed e c = .ok c') :
    Operand c c' := by
  simp only [displayed, bind_eq_ok, pure_eq_ok] at h
  obtain ⟨τ, -, rfl⟩ := h
  split
  · exact .kept
  · exact .shown

theorem binary_operands {note : Note} {t : Token} {op : TokenKind} {left right : Expr Note}
    {c : Target.Expr} (h : expr names (.binary note t op left right) = .ok c) :
    ∃ l r l' r', expr names left = .ok l ∧ expr names right = .ok r ∧ Operand l l' ∧
      Operand r r' ∧ c = .binary op l' r' ∧
      ((op = .operator .plus ∧ note.type = some .string) ∨ (l' = l ∧ r' = r)) := by
  cases ht : note.type with
  | some τ =>
    obtain ⟨l, r, hl, hr, ⟨hop, rfl, l', r', hl', hr', rfl⟩ | ⟨-, rfl⟩⟩ := binary_eq_ok ht h
    · exact ⟨l, r, l', r', hl, hr, displayed_operand hl', displayed_operand hr', rfl,
        .inl ⟨hop, rfl⟩⟩
    · exact ⟨l, r, l, r, hl, hr, .kept, .kept, rfl, .inr ⟨rfl, rfl⟩⟩
  | none =>
    simp only [expr, bind_eq_ok] at h
    obtain ⟨l, hl, r, hr, h⟩ := h
    split at h
    · simp only [knownType, Expr.note?, Option.bind_some, ht] at h
      cases h
    · exact ⟨l, r, l, r, hl, hr, .kept, .kept, (pure_eq_ok.mp h).symm, .inr ⟨rfl, rfl⟩⟩

theorem declare_follows {names names' : Names} {note : Note} {name g : Text}
    (hf : names'.Follows given) (h : declare names note name = .ok (g, names')) :
    ∃ x, note.defines = some x ∧ g = given x.id := by
  unfold declare defined at h
  cases hx : note.defines with
  | none => rw [hx] at h; cases h
  | some x =>
    rw [hx] at h
    cases h
    exact ⟨x, rfl, (hf _ List.mem_cons_self).symm⟩

def Covers (given : SymbolId → Text) (Γ : Target.Env) (E : Expr Note → Target.Expr → Prop) : Prop :=
  ∀ names e c, Names.Follows names given → e.Formed Token.Spelt → ExprTyped Γ e c →
    expr names e = .ok c → E e c

theorem simple_code (hE : Covers given Γ E) {names names' : Names} {s : Stmt Note}
    {c : Target.Simple} (hs : s.Formed Token.Spelt) (ht : SimpleTyped Γ s c)
    (h : simple names s = .ok (c, names')) (hf : names'.Follows given) :
    SimpleCode given E s c := by
  have hnames := (simple_adds hs h).follows hf
  cases ht with
  | declare =>
    simp only [simple, bind_eq_ok, pure_eq_ok, Prod.exists, Prod.mk.injEq] at h
    obtain ⟨_, rfl, g, _, hd, hc, rfl⟩ := h
    cases hc
    obtain ⟨x, hx, rfl⟩ := declare_follows hf hd
    exact .declare hx
  | declareWith _ hv =>
    simp only [simple, bind_eq_ok, pure_eq_ok, Prod.exists, Prod.mk.injEq] at h
    obtain ⟨e, he, g, _, hd, hc, rfl⟩ := h
    cases hc
    obtain ⟨x, hx, rfl⟩ := declare_follows hf hd
    exact .declareWith hx (hE _ _ _ hnames (hs.2.2 _ rfl) hv he)
  | assign _ hv =>
    simp only [simple, bind_eq_ok, pure_eq_ok, Prod.mk.injEq] at h
    obtain ⟨g, hg, e, he, hc, rfl⟩ := h
    cases hc
    obtain ⟨x, hx, rfl⟩ := givenName_follows hnames hg
    exact .assign hx (hE _ _ _ hnames hs.2 hv he)
  | call hv =>
    simp only [simple, bind_eq_ok, pure_eq_ok, Prod.mk.injEq] at h
    obtain ⟨e, he, hc, rfl⟩ := h
    split at hc <;> cases hc
    exact .call ‹_› (hE _ _ _ hnames hs.2 hv he)
  | discard hv =>
    simp only [simple, bind_eq_ok, pure_eq_ok, Prod.mk.injEq] at h
    obtain ⟨e, he, hc, rfl⟩ := h
    split at hc <;> cases hc
    exact .discard (Bool.not_eq_true _ ▸ ‹_›) (hE _ _ _ hnames hs.2 hv he)

theorem clause_code (hE : Covers given Γ E) {names names' : Names} {o : Option (Stmt Note)}
    {c : Option Target.Simple} (ho : Stmt.OptFormed Token.Spelt o)
    (ht : Option.Rel (SimpleTyped Γ) o c) (h : simple? names o = .ok (c, names'))
    (hf : names'.Follows given) : Option.Rel (SimpleCode given E) o c := by
  cases ht with
  | none => exact .none
  | some ht =>
    simp only [simple?, bind_eq_ok, pure_eq_ok, Prod.exists, Prod.mk.injEq] at h
    obtain ⟨c, _, hc, hsome, rfl⟩ := h
    cases hsome
    exact .some (simple_code hE ho ht hc hf)

theorem condition_code (hE : Covers given Γ E) {names : Names} {o : Option (Expr Note)}
    {c : Option Target.Expr} (ho : ∀ e ∈ o, e.Formed Token.Spelt)
    (ht : Option.Rel (ConditionTyped Γ) o c) (h : o.mapM (expr names) = .ok c)
    (hf : names.Follows given) : Option.Rel E o c := by
  cases ht with
  | none => exact .none
  | some ht =>
    obtain ⟨c, he, hsome⟩ := mapM_some_eq_ok.mp h
    cases hsome
    exact .some (hE _ _ _ hf (ho _ rfl) ht.1 he)

theorem rel_isSome {α β : Type} {R : α → β → Prop} {o : Option α} {c : Option β}
    (h : Option.Rel R o c) : c.isSome = o.isSome := by
  cases h <;> rfl

theorem clause_isSome {names names' : Names} {o : Option (Stmt Note)} {c : Option Target.Simple}
    (h : simple? names o = .ok (c, names')) : c.isSome = o.isSome := by
  cases o with
  | none =>
    simp only [simple?, pure_eq_ok, Prod.mk.injEq] at h
    rw [← h.1]
    rfl
  | some s =>
    simp only [simple?, bind_eq_ok, pure_eq_ok, Prod.exists, Prod.mk.injEq] at h
    obtain ⟨c, _, -, rfl, -⟩ := h
    rfl

theorem condition_isSome {names : Names} {o : Option (Expr Note)} {c : Option Target.Expr}
    (h : o.mapM (expr names) = .ok c) : c.isSome = o.isSome := by
  cases o with
  | none =>
    cases h
    rfl
  | some e =>
    obtain ⟨c, -, rfl⟩ := mapM_some_eq_ok.mp h
    rfl

theorem asWhile_inj {i i' s s' : Option Target.Simple} {e e' : Option Target.Expr}
    {b b' : List Target.Stmt} (he : e.isSome = e'.isSome) (hs : s.isSome = s'.isSome)
    (h : (i.map Target.Stmt.simple).toList ++
        [.whileDo (e.getD (.bool true)) (b ++ (s.map Target.Stmt.simple).toList)] =
      (i'.map Target.Stmt.simple).toList ++
        [.whileDo (e'.getD (.bool true)) (b' ++ (s'.map Target.Stmt.simple).toList)]) :
    i = i' ∧ e = e' ∧ s = s' ∧ b = b' := by
  have hclause : ∀ {o o' : Option Target.Simple},
      (o.map Target.Stmt.simple).toList = (o'.map Target.Stmt.simple).toList → o = o' := by
    intro o o' ho
    cases o <;> cases o' <;> simp_all
  obtain ⟨hi, hw⟩ := List.append_inj' h rfl
  simp only [List.cons.injEq, Target.Stmt.whileDo.injEq, and_true] at hw
  obtain ⟨hcond, hbody⟩ := hw
  have hlength : (s.map Target.Stmt.simple).toList.length =
      (s'.map Target.Stmt.simple).toList.length := by
    cases s <;> cases s' <;> simp_all
  obtain ⟨hb, hstep⟩ := List.append_inj' hbody hlength
  refine ⟨hclause hi, ?_, hclause hstep, hb⟩
  cases e <;> cases e' <;> simp_all

theorem forDo_code (hE : Covers given Γ E) {names names' : Names} {t brace : Token}
    {init step : Option (Stmt Note)} {cond : Option (Expr Note)} {body : List (Stmt Note)}
    {c : Target.Stmt} (hs : (Stmt.forDo t init cond step brace body).Formed Token.Spelt)
    (ht : StmtTyped Γ result (.forDo t init cond step brace body) c)
    (h : stmt names (.forDo t init cond step brace body) = .ok (c, names'))
    (hf : names'.Follows given)
    (hbody : ∀ names names' b, StmtsTyped Γ result body b → stmts names body = .ok (b, names') →
      names'.Follows given → StmtsCode given E body b) :
    StmtCode given E (.forDo t init cond step brace body) c := by
  obtain ⟨-, -, hinit, hcond, -, hstep, -, hbodyForm⟩ := hs
  obtain ⟨i, e, s, b, hi, he, hst, hb, hc⟩ : ∃ i e s b, Option.Rel (SimpleTyped Γ) init i ∧
      Option.Rel (ConditionTyped Γ) cond e ∧ Option.Rel (SimpleTyped Γ) step s ∧
      StmtsTyped Γ result body b ∧ (c = .forDo i e s b ∨ c = .block ((i.map .simple).toList ++
        [.whileDo (e.getD (.bool true)) (b ++ (s.map .simple).toList)])) := by
    cases ht with
    | simple hsimple => cases hsimple
    | forHeader hi he hst hb => exact ⟨_, _, _, _, hi, he, hst, hb, .inl rfl⟩
    | forAsWhile hi he hst hb => exact ⟨_, _, _, _, hi, he, hst, hb, .inr rfl⟩
  simp only [stmt, bind_eq_ok] at h
  obtain ⟨used, -, h⟩ := h
  split at h
  · simp only [bind_eq_ok, pure_eq_ok, Prod.exists, Prod.mk.injEq] at h
    obtain ⟨i', names₁, hi', e', he', b', names₂, hb', s', names₃, hst', rfl, rfl⟩ := h
    rcases hc with hc | hc
    · cases hc
    · obtain ⟨rfl, rfl, rfl, rfl⟩ := asWhile_inj
        ((condition_isSome he').trans (rel_isSome he).symm)
        ((clause_isSome hst').trans (rel_isSome hst).symm) (Target.Stmt.block.inj hc)
      have hf₂ := (clause_adds hstep hst').follows hf
      have hf₁ := (stmts_adds body hbodyForm hb').follows hf₂
      exact .forAsWhile (clause_code hE hinit hi hi' hf₁) (condition_code hE hcond he he' hf₁)
        (clause_code hE hstep hst hst' hf) (hbody _ _ _ hb hb' hf₂)
  · simp only [bind_eq_ok, pure_eq_ok, Prod.exists, Prod.mk.injEq] at h
    obtain ⟨i', names₁, hi', e', he', s', names₂, hst', b', names₃, hb', rfl, rfl⟩ := h
    rcases hc with hc | hc
    · cases hc
      have hf₂ := (stmts_adds body hbodyForm hb').follows hf
      have hf₁ := (clause_adds hstep hst').follows hf₂
      exact .forHeader (clause_code hE hinit hi hi' hf₁) (condition_code hE hcond he he' hf₁)
        (clause_code hE hstep hst hst' hf₂) (hbody _ _ _ hb hb' hf)
    · cases hc

mutual

theorem stmt_code (hE : Covers given Γ E) {names names' : Names} {c : Target.Stmt} :
    (s : Stmt Note) → s.Formed Token.Spelt → StmtTyped Γ result s c →
      stmt names s = .ok (c, names') → names'.Follows given → StmtCode given E s c
  | .declare .., hs, ht, h, hf | .assign .., hs, ht, h, hf | .evaluate .., hs, ht, h, hf => by
    rw [stmt_of_isInit rfl] at h
    simp only [bind_eq_ok, pure_eq_ok, Prod.exists, Prod.mk.injEq] at h
    obtain ⟨c, _, hc, rfl, rfl⟩ := h
    cases ht with
    | simple ht => exact .simple (simple_code hE hs ht hc hf)
  | .input note t name, hs, ht, h, hf => by
    simp only [stmt, bind_eq_ok] at h
    obtain ⟨g, hg, h⟩ := h
    split at h <;> cases h
    obtain ⟨x, hx, rfl⟩ := givenName_follows hf hg
    exact .read hx ‹_›
  | .print t value, hs, ht, h, hf => by
    simp only [stmt, bind_eq_ok, pure_eq_ok, Prod.mk.injEq] at h
    obtain ⟨e, he, rfl, rfl⟩ := h
    cases ht with
    | print hv => exact .print (hE _ _ _ hf hs.2 hv he)
  | .ret t value, hs, ht, h, hf => by
    simp only [stmt, bind_eq_ok, pure_eq_ok, Prod.mk.injEq] at h
    obtain ⟨e, he, rfl, rfl⟩ := h
    cases ht with
    | ret hv => exact .ret (hE _ _ _ hf hs.2 hv he)
  | .ifThen t cond brace body, hs, ht, h, hf => by
    simp only [stmt, bind_eq_ok, pure_eq_ok, Prod.exists, Prod.mk.injEq] at h
    obtain ⟨e, he, b, _, hb, rfl, rfl⟩ := h
    obtain ⟨-, hcond, -, hbody⟩ := hs
    cases ht with
    | ifThen hc htb =>
      have hnames := (stmts_adds body hbody hb).follows hf
      exact .ifThen (hE _ _ _ hnames hcond hc.1 he) (stmts_code hE body hbody htb hb hf)
  | .ifElse t cond brace body elseBrace elseBody, hs, ht, h, hf => by
    simp only [stmt, bind_eq_ok, pure_eq_ok, Prod.exists, Prod.mk.injEq] at h
    obtain ⟨e, he, b, _, hb, b', _, hb', rfl, rfl⟩ := h
    obtain ⟨-, hcond, -, hbody, -, helse⟩ := hs
    cases ht with
    | ifElse hc htb hte =>
      have hfelse := (stmts_adds elseBody helse hb').follows hf
      have hnames := (stmts_adds body hbody hb).follows hfelse
      exact .ifElse (hE _ _ _ hnames hcond hc.1 he) (stmts_code hE body hbody htb hb hfelse)
        (stmts_code hE elseBody helse hte hb' hf)
  | .whileDo t cond brace body, hs, ht, h, hf => by
    simp only [stmt, bind_eq_ok, pure_eq_ok, Prod.exists, Prod.mk.injEq] at h
    obtain ⟨e, he, b, _, hb, rfl, rfl⟩ := h
    obtain ⟨-, hcond, -, hbody⟩ := hs
    cases ht with
    | whileDo hc htb =>
      have hnames := (stmts_adds body hbody hb).follows hf
      exact .whileDo (hE _ _ _ hnames hcond hc.1 he) (stmts_code hE body hbody htb hb hf)
  | .forDo t init cond step brace body, hs, ht, h, hf =>
    forDo_code hE hs ht h hf fun _ _ _ htb hb hfb =>
      stmts_code hE body hs.2.2.2.2.2.2.2 htb hb hfb
  | .block brace body, hs, ht, h, hf => by
    simp only [stmt, bind_eq_ok, pure_eq_ok, Prod.exists, Prod.mk.injEq] at h
    obtain ⟨b, _, hb, rfl, rfl⟩ := h
    cases ht with
    | block htb => exact .block (stmts_code hE body hs.2 htb hb hf)
  | .foreign .., hs, _, _, _ => hs.elim

theorem stmts_code (hE : Covers given Γ E) {names names' : Names} {cs : List Target.Stmt} :
    (ss : List (Stmt Note)) → Stmt.AllFormed Token.Spelt ss → StmtsTyped Γ result ss cs →
      stmts names ss = .ok (cs, names') → names'.Follows given → StmtsCode given E ss cs
  | [], _, ht, _, _ => by
    cases ht
    exact .nil
  | s :: rest, hs, ht, h, hf => by
    simp only [stmts, bind_eq_ok, pure_eq_ok, Prod.exists, Prod.mk.injEq] at h
    obtain ⟨c, _, hc, cs, _, hcs, rfl, rfl⟩ := h
    cases ht with
    | cons htc htcs =>
      have hfirst := (stmts_adds rest hs.2 hcs).follows hf
      exact .cons (stmt_code hE s hs.1 htc hc hfirst) (stmts_code hE rest hs.2 htcs hcs hf)

end

theorem params_code {names names' : Names} {xs : List (Param Note)} {ls : List Target.Local}
    (hx : ∀ x ∈ xs, x.Formed Token.Spelt) (h : params names xs = .ok (ls, names'))
    (hf : names'.Follows given) : List.Forall₂ (fun p l => l.type = p.type ∧
      ∃ x, p.note.defines = some x ∧ l.name = given x.id) xs ls := by
  induction xs generalizing names ls with
  | nil =>
    simp only [params, pure_eq_ok, Prod.mk.injEq] at h
    obtain ⟨rfl, rfl⟩ := h
    exact .nil
  | cons x rest ih =>
    simp only [params, bind_eq_ok, pure_eq_ok, Prod.exists, Prod.mk.injEq] at h
    obtain ⟨g, _, hd, ls, _, hls, rfl, rfl⟩ := h
    obtain ⟨-, hrest⟩ := List.forall_mem_cons.mp hx
    exact .cons ⟨rfl, declare_follows ((params_adds hrest hls).follows hf) hd⟩ (ih hrest hls)

theorem stmtsTyped_length {ss : List (Stmt Note)} {cs : List Target.Stmt}
    (h : StmtsTyped Γ result ss cs) : ss.length = cs.length := by
  induction ss generalizing cs with
  | nil =>
    cases h
    rfl
  | cons s rest ih =>
    cases h with
    | cons _ hrest => rw [List.length_cons, List.length_cons, ih hrest]

theorem stmts_length {names names' : Names} {ss : List (Stmt Note)} {cs : List Target.Stmt}
    (h : stmts names ss = .ok (cs, names')) : ss.length = cs.length := by
  induction ss generalizing names names' cs with
  | nil =>
    simp only [stmts, pure_eq_ok, Prod.mk.injEq] at h
    rw [← h.1]
    rfl
  | cons s rest ih =>
    simp only [stmts, bind_eq_ok, pure_eq_ok, Prod.exists, Prod.mk.injEq] at h
    obtain ⟨c, _, -, cs, _, hcs, rfl, -⟩ := h
    rw [List.length_cons, List.length_cons, ih hcs]

def Final (methods : List (SymbolId × Text)) (f : Func Note) (names' : Names) : Prop :=
  ∃ names ls code, params ⟨methods, Target.reserved ++ methods.map Prod.snd⟩ f.params =
    .ok (ls, names) ∧ stmts names f.body = .ok (code, names')

theorem Final.unique {methods : List (SymbolId × Text)} {f : Func Note} {names names' : Names}
    (h : Final methods f names) (h' : Final methods f names') : names = names' := by
  obtain ⟨n, ls, code, hp, hb⟩ := h
  obtain ⟨n', ls', code', hp', hb'⟩ := h'
  obtain ⟨rfl, rfl⟩ := Prod.mk.inj (Except.ok.inj (hp.symm.trans hp'))
  exact (Prod.mk.inj (Except.ok.inj (hb.symm.trans hb'))).2

theorem Final.adds {methods : List (SymbolId × Text)} {f : Func Note} {names : Names}
    (hf : f.Formed Token.Spelt) (h : Final methods f names) :
    Adds ⟨methods, Target.reserved ++ methods.map Prod.snd⟩ names f.defines := by
  obtain ⟨n, ls, code, hp, hb⟩ := h
  exact (params_adds hf.params hp).append (stmts_adds f.body hf.body hb)

theorem method_follows {methods : List (SymbolId × Text)} {ms : List Target.Method} {f : Func Note}
    {m : Target.Method} (hf : f.Formed Token.Spelt) (ht : MethodTyped ms f m)
    (hname : ∃ x g, f.note.defines = some x ∧ (x.id, g) ∈ methods)
    (hkeys : (methods.map Prod.fst).Nodup) (h : methodApart methods f = .ok m) :
    ∃ names, Final methods f names ∧ (names.Follows given → Covers given ⟨ms, m.declarations⟩ E →
      MethodCode given E f m) := by
  obtain ⟨names, code, names', hparams, hcode, hbody⟩ := method_code h
  have hfinal : Final methods f names' := ⟨names, m.params, code, hparams, hcode⟩
  refine ⟨names', hfinal, fun hfollows hE => ⟨?_, ht.result, ?_, code, ?_, hbody⟩⟩
  · obtain ⟨x, g, hx, hmem⟩ := hname
    refine ⟨x, hx, ?_⟩
    simp only [methodApart, method, defined, hx, ok_bind, bind_eq_ok, pure_eq_ok,
      Prod.exists] at h
    obtain ⟨_, _, ⟨ls, names, -, body, names', -, hm⟩, rfl⟩ := h
    cases hm
    rw [lookup_of_mem hkeys hmem, Option.getD_some]
    exact ((hfinal.adds hf).follows hfollows (x.id, g) hmem).symm
  · exact params_code hf.params hparams ((stmts_adds f.body hf.body hcode).follows hfollows)
  · -- The code that is typed and the code that is lowered begin the same body, and are as long as
    -- the body of the function.
    obtain ⟨code', htyped, hbody'⟩ := ht.body
    have hsame : code = code' := by
      have hlength := (stmts_length hcode).symm.trans (stmtsTyped_length htyped)
      have hstart : code <+: m.body := by
        rcases hbody with hb | hb
        · exact ⟨[], (List.append_nil code).trans hb.symm⟩
        · exact ⟨_, hb.symm⟩
      have hstart' : code' <+: m.body := by
        rcases hbody' with hb | ⟨hb, -⟩
        · exact ⟨[], (List.append_nil code').trans hb.symm⟩
        · exact ⟨_, hb.symm⟩
      exact (List.prefix_of_prefix_length_le hstart hstart' hlength.le).eq_of_length hlength
    exact stmts_code hE f.body hf.body (hsame ▸ htyped) hcode hfollows

end Lowering

theorem underscore_identifier : Target.Identifier [byte '_'] :=
  .plain ⟨⟨byte '_', [], rfl, by decide⟩, List.forall_mem_singleton.mpr (by decide),
    by decide +kernel⟩

theorem exists_choice {R : SymbolId → Text → Prop} (hR : ∀ id g g', R id g → R id g' → g = g')
    (hid : ∀ id g, R id g → Target.Identifier g) :
    ∃ given : SymbolId → Text, (∀ id, Target.Identifier (given id)) ∧
      ∀ id g, R id g → given id = g := by
  classical
  refine ⟨fun id => if h : ∃ g, R id g then h.choose else [byte '_'], fun id => ?_, ?_⟩
  · dsimp only
    split
    · next h => exact hid id _ h.choose_spec
    · exact underscore_identifier
  · intro id g hg
    have h : ∃ g, R id g := ⟨g, hg⟩
    exact (dif_pos h).trans (hR id _ _ h.choose_spec hg)

theorem Lowering.eq_of_keys {names : Names} (h : (names.given.map Prod.fst).Nodup) {id : SymbolId}
    {g g' : Text} (hg : (id, g) ∈ names.given) (hg' : (id, g') ∈ names.given) : g = g' :=
  Option.some.inj ((lookup_of_mem h hg).symm.trans (lookup_of_mem h hg'))

namespace Program

variable {x : Program Unit} {a : Analysis} {methods : List (SymbolId × Text)}

theorem names_nodup (ha : x.analyze = .ok a) : (a.program.functions.map Func.name).Nodup := by
  rw [Program.analyze_names ha]
  exact (Program.analyze_eq_ok.mp ha).1

theorem final_names (ha : x.analyze = .ok a)
    (hids : methods.map Prod.fst = (a.program.functions.map Func.name).map SymbolId.func)
    {f : Func Note} (hf : f ∈ a.program.functions) (hform : f.Formed Token.Spelt)
    {names : Lowering.Names} (h : Lowering.Final methods f names) :
    (names.given.map Prod.fst).Nodup ∧ ∃ new, names.given = new ++ methods ∧
      (∀ p ∈ new, ∃ serial, p.1 = .var f.name serial) ∧ ∀ p ∈ new, Target.Identifier p.2 := by
  obtain ⟨hnodup, -, hg, -, hfs⟩ := Program.analyze_eq_ok.mp ha
  obtain ⟨u, -, hc⟩ := exists_of_forall₂ hfs.flip hf
  obtain ⟨new, hnew, hperm, hspelt⟩ := h.adds hform
  refine ⟨?_, new, hnew, ?_, hspelt⟩
  · have hsymbols := Lowering.symbols_nodup hnodup hc
    have hsignatures : (x.functions.map Typing.signature).map Symbol.id =
        (x.functions.map Func.name).map SymbolId.func := by
      rw [List.map_map, List.map_map]
      rfl
    rw [List.map_append, hsignatures, ← Program.analyze_names ha, ← hids] at hsymbols
    rw [hnew, List.map_append, (hperm.append_right _).nodup_iff]
    exact List.perm_append_comm.nodup_iff.mp hsymbols
  · intro p hp
    exact hc.defines_ids p.1 (hperm.mem_iff.mp (List.mem_map_of_mem hp))

theorem final_unique (hform : a.program.Formed Token.Spelt) (ha : x.analyze = .ok a)
    (hids : methods.map Prod.fst = (a.program.functions.map Func.name).map SymbolId.func)
    {f f' : Func Note} (hf : f ∈ a.program.functions) (hf' : f' ∈ a.program.functions)
    {names names' : Lowering.Names} (h : Lowering.Final methods f names)
    (h' : Lowering.Final methods f' names') {id : SymbolId} {g g' : Text}
    (hg : (id, g) ∈ names.given) (hg' : (id, g') ∈ names'.given) : g = g' := by
  obtain ⟨hkeys, new, hnew, hvars, -⟩ := final_names ha hids hf (hform f hf) h
  obtain ⟨hkeys', new', hnew', hvars', -⟩ := final_names ha hids hf' (hform f' hf') h'
  rw [hnew] at hg
  rcases List.mem_append.mp hg with hv | hm
  · rw [hnew'] at hg'
    rcases List.mem_append.mp hg' with hv' | hm'
    · obtain ⟨serial, hid⟩ := hvars _ hv
      obtain ⟨serial', hid'⟩ := hvars' _ hv'
      have hname := (SymbolId.var.inj (hid.symm.trans hid')).1
      obtain rfl := List.inj_on_of_nodup_map (names_nodup ha) hf hf' hname
      obtain rfl := h.unique h'
      exact Lowering.eq_of_keys hkeys (hnew ▸ hg) (hnew' ▸ hg')
    · exact Lowering.eq_of_keys hkeys (hnew ▸ hg) (hnew ▸ List.mem_append_right new hm')
  · exact Lowering.eq_of_keys hkeys' (hnew' ▸ List.mem_append_right new' hm) hg'

theorem exists_given (hform : a.program.Formed Token.Spelt) (ha : x.analyze = .ok a)
    (hids : methods.map Prod.fst = (a.program.functions.map Func.name).map SymbolId.func)
    (hspelt : ∀ p ∈ methods, Target.Identifier p.2) :
    ∃ given, (∀ id, Target.Identifier (given id)) ∧
      ∀ f ∈ a.program.functions, ∀ names, Lowering.Final methods f names →
        names.Follows given := by
  obtain ⟨given, hgiven, hchosen⟩ := exists_choice
    (R := fun id g => ∃ f ∈ a.program.functions, ∃ names, Lowering.Final methods f names ∧
      (id, g) ∈ names.given)
    (fun id g g' => by
      rintro ⟨f, hf, names, h, hg⟩ ⟨f', hf', names', h', hg'⟩
      exact final_unique hform ha hids hf hf' h h' hg hg')
    (fun id g => by
      rintro ⟨f, hf, names, h, hg⟩
      obtain ⟨-, new, hnew, -, hnewSpelt⟩ := final_names ha hids hf (hform f hf) h
      rw [hnew] at hg
      exact (List.mem_append.mp hg).elim (hnewSpelt _) (hspelt _))
  exact ⟨given, hgiven, fun f hf names h p hp => hchosen p.1 p.2 ⟨f, hf, names, h, hp⟩⟩

theorem exists_method_name (ha : x.analyze = .ok a)
    (hids : methods.map Prod.fst = (a.program.functions.map Func.name).map SymbolId.func)
    {f : Func Note} (hf : f ∈ a.program.functions) :
    ∃ y g, f.note.defines = some y ∧ (y.id, g) ∈ methods := by
  obtain ⟨y, hy, hid⟩ := Program.analyze_defines ha f hf
  have hkey : y.id ∈ methods.map Prod.fst := by
    rw [hids, hid]
    exact List.mem_map_of_mem (List.mem_map_of_mem hf)
  obtain ⟨p, hp, hpid⟩ := List.mem_map.mp hkey
  exact ⟨y, p.2, hy, hpid ▸ hp⟩

theorem lower_code {ms : List Target.Method} (hform : x.Formed Token.Spelt)
    (ha : x.analyze = .ok a) (hl : a.program.lower = .ok ms)
    (htyped : List.Forall₂ (Emitted.MethodTyped ms) a.program.functions ms)
    {E : (SymbolId → Text) → Expr Note → Target.Expr → Prop}
    (hE : ∀ given Γ, (∀ id, Target.Identifier (given id)) → Lowering.Covers given Γ (E given)) :
    ∃ given, (∀ id, Target.Identifier (given id)) ∧
      List.Forall₂ (Emitted.MethodCode given (E given)) a.program.functions ms := by
  rw [lower_eq_lowerApart hform ha] at hl
  rw [← Program.analyze_erased ha, Program.formed_map] at hform
  simp only [Program.lowerApart, bind_eq_ok] at hl
  obtain ⟨methods, hmethods, hms⟩ := hl
  obtain ⟨_, hmethods', hids⟩ := Lowering.nameMethods_eq_ok (Program.analyze_defines ha)
    (Target.reserved ++ (a.program.functions.map Func.name).filter (· ≠ Typing.entryName))
  obtain rfl := Except.ok.inj (hmethods.symm.trans hmethods')
  have hspelt : ∀ p ∈ methods, Target.Identifier p.2 :=
    Lowering.nameMethods_identifiers (fun f hf => (hform f hf).name.spelt) hmethods
  have hkeys : (methods.map Prod.fst).Nodup := by
    rw [hids]
    exact (names_nodup ha).map fun _ _ => SymbolId.func.inj
  obtain ⟨given, hgiven, hfollows⟩ := exists_given hform ha hids hspelt
  refine ⟨given, hgiven, List.forall₂_iff_zip.mpr ⟨htyped.length_eq, fun {f m} hmem => ?_⟩⟩
  obtain ⟨hf, -⟩ := List.of_mem_zip hmem
  have hmethod := (List.forall₂_iff_zip.mp (mapM_eq_ok.mp hms)).2 hmem
  obtain ⟨names, hfinal, hcode⟩ := Lowering.method_follows (hform f hf)
    ((List.forall₂_iff_zip.mp htyped).2 hmem) (exists_method_name ha hids hf) hkeys hmethod
  exact hcode (hfollows f hf names hfinal) (hE given _ hgiven)

end Program

theorem check_code {source : Text} {a : Analysis} (h : check source = .ok a)
    {E : (SymbolId → Text) → Expr Note → Target.Expr → Prop}
    (hE : ∀ given Γ, (∀ id, Target.Identifier (given id)) → Lowering.Covers given Γ (E given)) :
    a.program.Formed Token.Spelt ∧ ∃ methods, a.program.lower = .ok methods ∧
      compile source = .ok (Target.renderFile methods) ∧
      ∃ given, (∀ id, Target.Identifier (given id)) ∧
        List.Forall₂ (Emitted.MethodCode given (E given)) a.program.functions methods := by
  obtain ⟨x, hx, ha⟩ := check_eq_ok.mp h
  have hspelt : x.Formed Token.Spelt := parse_formed hx (scan_spelt source)
  have hform : x.Formed Token.WellSpelled := parse_formed hx (scan_wellSpelled source)
  obtain ⟨methods, hl, -⟩ := Program.lower_emitted hform ha
  have hlocals : ∀ m ∈ methods, m.locals.Nodup := by
    have hform' := hform
    rw [← Program.analyze_erased ha, Program.formed_map] at hform'
    obtain ⟨-, hfree, -⟩ :=
      Program.lowerApart_names hform' (Program.analyze_defines ha) (Program.names_nodup ha)
        ((Program.lower_eq_lowerApart hform ha).symm.trans hl)
    intro m hm
    rw [← List.map_id m.locals]
    exact hfree.localsDistinct m hm
  refine ⟨?_, methods, hl, compile_of_check h (toCSharp_of_lower hl), ?_⟩
  · rw [← Program.formed_map (f := fun _ => ()), Program.analyze_erased ha]
    exact hspelt
  · exact Program.lower_code hspelt ha hl (Program.lower_typed hform ha hl hlocals) hE

end MiniSharp
