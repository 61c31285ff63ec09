import MiniSharp.Analysis.Lowering
import MiniSharp.Proofs.BlockScope
import MiniSharp.Proofs.CheckedForms
import MiniSharp.Proofs.FreshNames

/-!
Lowering a checked program gives code, and the names in it stand for the variables that the program
means. The induction goes along the run of the checker: at every place the symbols in scope have
names, and in the code each name stands for its symbol.
-/

namespace MiniSharp

open Emitted
open Typing (ExprChecked ArgsChecked StmtChecked ClauseChecked StmtsChecked ParamsChecked
  FuncChecked)

variable {P : Token → Prop}

def Scope.Sees (s : Scope) (x : Symbol) : Prop := ∃ symbols ∈ s.symbols :: s.outer, x ∈ symbols

namespace Scope

theorem sees_of_resolve? {s : Scope} {name : Text} {x : Symbol} (h : s.resolve? name = some x) :
    s.Sees x ∧ x.name = name := by
  obtain ⟨symbols, hs, hx⟩ := List.exists_of_findSome?_eq_some h
  exact ⟨⟨symbols, hs, List.mem_of_find?_eq_some hx⟩, by simpa using List.find?_some hx⟩

@[simp]
theorem sees_push {s : Scope} {x : Symbol} : s.push.Sees x ↔ s.Sees x := by
  simp [Sees, push]

end Scope

@[simp]
theorem Typing.Place.sees_extend {p : Place} {x y : Symbol} :
    (p.extend x).scope.Sees y ↔ p.scope.Sees y ∨ y = x := by
  simp only [Scope.Sees, extend, List.mem_cons, exists_eq_or_imp, List.mem_append,
    List.not_mem_nil, or_false]
  exact or_right_comm

namespace Lowering

structure Named (names : Names) (vars : Vars) (x : Symbol) : Prop where
  var : ∀ type, x.sort = .var type → type.Proper ∧
    ∃ given, names.given.lookup x.id = some given ∧ ∀ y, (given, y) ∈ vars ↔ y = x
  func : ∀ params result, x.sort = .func params result →
    (names.given.lookup x.id).isSome ∧ (x.name = Typing.entryName → params = [])

theorem givenName_eq_ok {names : Names} {note : Note} {name given : Text} {x : Symbol}
    (hr : note.refers = some x) (hg : names.given.lookup x.id = some given) :
    givenName names note name = .ok given := by
  simp only [givenName, hr, hg]

theorem Named.denotes {names : Names} {vars : Vars} {x : Symbol} {type : Ty}
    (h : Named names vars x) (hx : x.sort = .var type) (note : Note) (name : Text)
    (hr : note.refers = some x) :
    ∃ given, givenName names note name = .ok given ∧ Denotes vars given note := by
  obtain ⟨-, given, hg, hv⟩ := h.var type hx
  exact ⟨given, givenName_eq_ok hr hg, x, hr, hv⟩

theorem literal_constant {t : Token} {value : Literal} (h : value.type.Proper) :
    ∃ e, literal t value = .ok e ∧ IsConstant e := by
  cases value with
  | untyped => exact h.elim
  | int | float | char | bool | string => exact ⟨_, rfl, trivial⟩

theorem knownType_of_checked {scope : Scope} {e : Expr Unit} {type : Ty} {e' : Expr Note}
    (h : ExprChecked scope e type e') : knownType e' = .ok type := by
  cases h <;> rfl

theorem displayed_reads {vars : Vars} {e : Expr Note} {type : Ty} {t : Target.Expr}
    (hk : knownType e = .ok type) (ht : Reads vars e t) :
    ∃ t', displayed e t = .ok t' ∧ Reads vars e t' := by
  simp only [displayed, hk, ok_bind, pure_eq_ok]
  split
  · exact ⟨t, rfl, ht⟩
  · exact ⟨_, rfl, ht.display⟩

theorem binary_reads {names : Names} {vars : Vars} {note : Note} {t : Token} {op : TokenKind}
    {left right : Expr Note} {type leftType rightType : Ty} {l r : Target.Expr}
    (hl : expr names left = .ok l) (hr : expr names right = .ok r)
    (hk : knownType (.binary note t op left right) = .ok type)
    (hkl : knownType left = .ok leftType) (hkr : knownType right = .ok rightType)
    (hrl : Reads vars left l) (hrr : Reads vars right r) :
    ∃ e, expr names (.binary note t op left right) = .ok e ∧
      Reads vars (.binary note t op left right) e := by
  obtain ⟨l', hl', hrl'⟩ := displayed_reads hkl hrl
  obtain ⟨r', hr', hrr'⟩ := displayed_reads hkr hrr
  simp only [expr, hl, hr, hk, hl', hr', ok_bind]
  split
  · split
    · exact ⟨_, rfl, .binary hrl' hrr'⟩
    · exact ⟨_, rfl, .binary hrl hrr⟩
  · exact ⟨_, rfl, .binary hrl hrr⟩

mutual

-- Only the symbols that the expression refers to need names: the step of a loop is lowered where the
-- rest of its scope has none yet.
theorem expr_reads {scope : Scope} {e : Expr Unit} {type : Ty} {e' : Expr Note} {names : Names}
    {vars : Vars} : ExprChecked scope e type e' → e.Formed P →
      (∀ x, scope.Sees x → x.id ∈ exprRefs e' → Named names vars x) →
        ∃ t, expr names e' = .ok t ∧ Reads vars e' t
  | .literal, he, _ => by
    obtain ⟨e, hl, hc⟩ := literal_constant (Parser.literal?_proper he.2)
    exact ⟨e, hl, .literal hc⟩
  | @ExprChecked.ident _ t name x type hx hs, _, hn => by
    have hx' := hn x (Scope.sees_of_resolve? hx).1 (by simp [exprRefs, Note.ofUse])
    obtain ⟨given, hg, hd⟩ := hx'.denotes hs { Note.ofUse x with type } name rfl
    exact ⟨.name given, by rw [expr, hg]; rfl, .name hd⟩
  | @ExprChecked.call _ t name args args' x params result hx hs ha, he, hn => by
    obtain ⟨hsees, hname⟩ := Scope.sees_of_resolve? hx
    obtain ⟨hgiven, hentry⟩ := (hn x hsees (by simp [exprRefs, Note.ofUse])).func params result hs
    obtain ⟨ts, hts, hr⟩ := arguments_reads ha he.2 fun y hy hm => hn y hy (by simp [exprRefs, hm])
    by_cases hm : name = Typing.entryName
    · obtain rfl := hentry (hname.trans hm)
      cases ha
      exact ⟨.entry, by rw [expr, if_pos hm]; rfl, .entry⟩
    · obtain ⟨given, hg⟩ := Option.isSome_iff_exists.mp hgiven
      refine ⟨.call given ts, ?_, .call hr⟩
      rw [expr, if_neg hm, hts, ok_bind, givenName_eq_ok rfl hg]
      rfl
  | .unary ho _, he, hn => by
    obtain ⟨e, hl, hr⟩ := expr_reads ho he.2.2.2 hn
    exact ⟨.unary _ e, by rw [expr, hl]; rfl, .unary hr⟩
  | .binary hleft hright ht, he, hn => by
    obtain ⟨-, -, -, hel, her⟩ := he
    obtain ⟨l, hl, hrl⟩ := expr_reads hleft hel fun x hx hm => hn x hx (List.mem_append_left _ hm)
    obtain ⟨r, hr, hrr⟩ := expr_reads hright her fun x hx hm => hn x hx (List.mem_append_right _ hm)
    exact binary_reads hl hr (knownType_of_checked (.binary hleft hright ht))
      (knownType_of_checked hleft) (knownType_of_checked hright) hrl hrr

theorem arguments_reads {scope : Scope} {params : List Ty} {args : List (Expr Unit)}
    {args' : List (Expr Note)} {names : Names} {vars : Vars} :
    ArgsChecked scope params args args' → Expr.AllFormed P args →
      (∀ x, scope.Sees x → x.id ∈ exprsRefs args' → Named names vars x) →
        ∃ ts, exprs names args' = .ok ts ∧ ReadsAll vars args' ts
  | .nil, _, _ => ⟨[], rfl, .nil⟩
  | .cons ha _ hs, he, hn => by
    obtain ⟨t, ht, hr⟩ := expr_reads ha he.1 fun x hx hm => hn x hx (List.mem_append_left _ hm)
    obtain ⟨ts, hts, hrs⟩ :=
      arguments_reads hs he.2 fun x hx hm => hn x hx (List.mem_append_right _ hm)
    exact ⟨t :: ts, by rw [exprs, ht, ok_bind, hts]; rfl, .cons hr hrs⟩

end

structure Names.Extends (names names' : Names) : Prop where
  given : ∀ id given, names.given.lookup id = some given → names'.given.lookup id = some given
  used : ∀ x ∈ names.used, x ∈ names'.used

namespace Names.Extends

theorem refl (names : Names) : names.Extends names := ⟨fun _ _ h => h, fun _ h => h⟩

theorem trans {a b c : Names} (h : a.Extends b) (h' : b.Extends c) : a.Extends c :=
  ⟨fun id given hg => h'.given id given (h.given id given hg), fun x hx => h'.used x (h.used x hx)⟩

theorem give {names : Names} {x : Symbol} {given : Text}
    (h : names.given.lookup x.id = none) : names.Extends (names.give x given) := by
  refine ⟨fun id g hg => ?_, fun y hy => List.mem_cons_of_mem _ hy⟩
  have hne : id ≠ x.id := by
    rintro rfl
    rw [h] at hg
    cases hg
  rw [Names.give, List.lookup_cons, beq_false_of_ne hne]
  exact hg

end Names.Extends

namespace Named

theorem of_extends {names names' : Names} {vars : Vars} {x : Symbol} (h : Named names vars x)
    (he : names.Extends names') : Named names' vars x := by
  constructor
  · intro type hx
    obtain ⟨hp, given, hg, hv⟩ := h.var type hx
    exact ⟨hp, given, he.given _ _ hg, hv⟩
  · intro params result hx
    obtain ⟨hg, hm⟩ := h.func params result hx
    obtain ⟨given, hg⟩ := Option.isSome_iff_exists.mp hg
    exact ⟨by rw [he.given _ _ hg]; rfl, hm⟩

theorem cons {names : Names} {vars : Vars} {x y : Symbol} {given : Text}
    (h : Named names vars x) (hu : ∀ v ∈ vars, v.1 ≠ given) : Named names ((given, y) :: vars) x := by
  refine ⟨fun type hx => ?_, h.func⟩
  obtain ⟨hp, g, hg, hv⟩ := h.var type hx
  have hne : g ≠ given := hu (g, x) ((hv x).mpr rfl)
  refine ⟨hp, g, hg, fun z => ?_⟩
  rw [List.mem_cons, Prod.mk.injEq, hv z]
  simp [hne]

end Named

/-- The names agree with a place of the checker: what is in scope there has its name, the variables
that are still to be declared have none, and the names in the code are taken. -/
structure Agrees (p : Typing.Place) (names : Names) (vars : Vars) : Prop where
  named : ∀ x, p.scope.Sees x → Named names vars x
  unnamed : ∀ k, p.serial ≤ k → names.given.lookup (.var p.function k) = none
  used : ∀ v ∈ vars, v.1 ∈ names.used

namespace Agrees

variable {p inside : Typing.Place} {names names' : Names} {vars vars' : Vars}

theorem inner (h : Agrees p names vars) : Agrees p.inner names vars :=
  ⟨fun x hx => h.named x (Scope.sees_push.mp hx), h.unnamed, h.used⟩

theorem leave (h : Agrees p names vars) (he : names.Extends names')
    (hi : Agrees inside names' vars') (hf : inside.function = p.function) :
    Agrees (p.leave inside) names' vars :=
  ⟨fun x hx => (h.named x hx).of_extends he, fun k hk => hf ▸ hi.unnamed k hk,
    fun v hv => he.used _ (h.used v hv)⟩

theorem extends_give (h : Agrees p names vars) (t : Token) (name : Text) (type : Ty)
    (given : Text) : names.Extends (names.give (p.symbol t name type) given) :=
  .give (h.unnamed p.serial (Nat.le_refl _))

theorem extend (h : Agrees p names vars) {t : Token} {name : Text} {type : Ty} {given : Text}
    (hp : type.Proper) (hg : given ∉ names.used) :
    Agrees (p.extend (p.symbol t name type)) (names.give (p.symbol t name type) given)
      ((given, p.symbol t name type) :: vars) := by
  have hvars : ∀ v ∈ vars, v.1 ≠ given := fun v hv he => hg (he ▸ h.used v hv)
  refine ⟨fun y hy => ?_, fun k hk => ?_, List.forall_mem_cons.mpr ⟨List.mem_cons_self, ?_⟩⟩
  · rcases Typing.Place.sees_extend.mp hy with hy | rfl
    · exact ((h.named y hy).of_extends (h.extends_give t name type given)).cons hvars
    · refine ⟨fun _ hx => ⟨?_, given, by simp [Names.give], fun z => ?_⟩, fun _ _ hx => by cases hx⟩
      · cases hx
        exact hp
      · rw [List.mem_cons, Prod.mk.injEq]
        exact ⟨fun hz => hz.elim And.right fun hz => absurd rfl (hvars _ hz),
          fun hz => .inl ⟨rfl, hz⟩⟩
  · have hne : SymbolId.var p.function k ≠ .var p.function p.serial := by
      intro he
      cases he
      exact absurd hk (Nat.not_succ_le_self _)
    rw [Names.give, List.lookup_cons, beq_false_of_ne (by exact hne)]
    exact h.unnamed k (Nat.le_of_succ_le hk)
  · exact fun v hv => List.mem_cons_of_mem _ (h.used v hv)

theorem reads (h : Agrees p names vars) {e : Expr Unit} {type : Ty} {e' : Expr Note}
    (he : ExprChecked p.scope e type e') (hf : e.Formed P) :
    ∃ t, expr names e' = .ok t ∧ Reads vars e' t :=
  expr_reads he hf fun x hx _ => h.named x hx

theorem conditions_read (h : Agrees p names vars) {o : Option (Expr Unit)}
    {o' : Option (Expr Note)} (hc : Option.Rel (fun e => ExprChecked p.scope e .bool) o o')
    (ho : ∀ e ∈ o, e.Formed P) :
    ∃ t, o'.mapM (expr names) = .ok t ∧ Option.Rel (Reads vars) o' t := by
  cases hc with
  | none => exact ⟨none, mapM_none, .none⟩
  | @some e e' he =>
    obtain ⟨t, ht, hr⟩ := h.reads he (ho e rfl)
    exact ⟨some t, mapM_some_eq_ok.mpr ⟨t, ht, rfl⟩, .some hr⟩

end Agrees

theorem step_emitted {p p' : Typing.Place} {s : Stmt Unit} {s' : Stmt Note} {names : Names}
    {vars : Vars} (h : StmtChecked p s s' p') (hs : s.Formed P) (hi : s.isStep)
    (hn : ∀ x, p.scope.Sees x → x.id ∈ stmtRefs s' → Named names vars x) :
    p' = p ∧ ∃ t, simple names s' = .ok (t, names) ∧ SimpleEmitted vars s' t vars := by
  cases h with
  | @assign p t name x type value value' found hx hv hval =>
    have hx' := hn x (Scope.sees_of_resolve? hx).1 (by simp [stmtRefs, Note.ofUse])
    obtain ⟨given, hg, hd⟩ := hx'.denotes hv (.ofUse x) name rfl
    obtain ⟨e, he, hr⟩ := expr_reads hval hs.2 fun y hy hm => hn y hy (List.mem_append_right _ hm)
    exact ⟨rfl, .assign given e, by simp only [simple, hg, he, ok_bind]; rfl, .assign hd hr⟩
  | evaluate hval =>
    obtain ⟨e, he, hr⟩ := expr_reads hval hs.2 hn
    refine ⟨rfl, _, by simp only [simple, he, ok_bind]; rfl, ?_⟩
    split
    · exact .call hr
    · exact .discard hr
  | declare | declareWith | input | print | ret | ifThen | ifElse | whileDo | forDo | block => cases hi

structure After (p' : Typing.Place) (names names' : Names) (vars' : Vars) : Prop where
  agrees : Agrees p' names' vars'
  kept : names.Extends names'

theorem declare_emitted {p : Typing.Place} {type : Ty} {names : Names} {vars : Vars}
    (ha : Agrees p names vars) (hp : type.Proper) (t : Token) (name : Text) :
    ∃ given names', declare names (.ofDeclaration (p.symbol t name type)) name =
        .ok (given, names') ∧ (∀ v ∈ vars, v.1 ≠ given) ∧
      After (p.extend (p.symbol t name type)) names names'
        ((given, p.symbol t name type) :: vars) := by
  have hfree := Target.localName_not_mem name names.used
  refine ⟨_, _, rfl, fun v hv he => hfree (he ▸ ha.used v hv), ha.extend hp hfree, ?_⟩
  exact ha.extends_give t name type _

theorem simple_emitted {p p' : Typing.Place} {s : Stmt Unit} {s' : Stmt Note} {names : Names}
    {vars : Vars} (h : StmtChecked p s s' p') (hs : s.Formed P) (hi : s.isInit)
    (ha : Agrees p names vars) :
    ∃ t names' vars', simple names s' = .ok (t, names') ∧ SimpleEmitted vars s' t vars' ∧
      After p' names names' vars' := by
  by_cases hstep : s.isStep
  · obtain ⟨rfl, t, ht, hr⟩ := step_emitted h hs hstep fun x hx _ => ha.named x hx
    exact ⟨t, names, vars, ht, hr, ha, .refl names⟩
  cases h with
  | @declare p t name type =>
    obtain ⟨given, names', hd, -, hafter⟩ := declare_emitted ha hs.2.1 t name
    refine ⟨.declare type given (.default type), _, _, ?_, ?_, hafter⟩
    · rw [simple, pure_bind, hd]
      rfl
    · exact .declare rfl (fun _ => trivial) (by simp)
  | @declareWith p t name type value value' found hval =>
    obtain ⟨given, names', hd, hne, hafter⟩ := declare_emitted ha hs.2.1 t name
    have hform := hs.2.2 value rfl
    -- The value is read before the variable has its name, and means the same where it has.
    obtain ⟨e, he, hr⟩ := ha.reads hval hform
    obtain ⟨e', he', hr'⟩ := expr_reads hval hform fun y hy _ => (ha.named y hy).cons hne
    obtain rfl : e = e' := Except.ok.inj (he.symm.trans he')
    refine ⟨.declare type given e, _, _, ?_, ?_, hafter⟩
    · rw [simple, he, ok_bind, hd]
      rfl
    · exact .declare rfl (by simp) fun v hv => Option.mem_some.mp hv ▸ ⟨hr, hr'⟩
  | assign | evaluate => exact absurd rfl hstep
  | input | print | ret | ifThen | ifElse | whileDo | forDo | block => cases hi

theorem clause_emitted {p p' : Typing.Place} {o : Option (Stmt Unit)} {o' : Option (Stmt Note)}
    {names : Names} {vars : Vars} (h : ClauseChecked p o o' p') (ho : Stmt.OptFormed P o)
    (hi : ∀ s ∈ o, s.isInit) (ha : Agrees p names vars) :
    ∃ t names' vars', simple? names o' = .ok (t, names') ∧ ClauseEmitted vars o' t vars' ∧
      After p' names names' vars' := by
  cases h with
  | none => exact ⟨none, names, vars, rfl, .none, ha, .refl names⟩
  | @some p s s' p' hs =>
    obtain ⟨t, names', vars', ht, he, hafter⟩ := simple_emitted hs ho (hi s rfl) ha
    exact ⟨some t, names', vars', by rw [simple?, ht]; rfl, .some he, hafter⟩

theorem stepClause_emitted {p p' : Typing.Place} {o : Option (Stmt Unit)}
    {o' : Option (Stmt Note)} {names : Names} {vars : Vars} (h : ClauseChecked p o o' p')
    (ho : Stmt.OptFormed P o) (hi : ∀ s ∈ o, s.isStep)
    (hn : ∀ s ∈ o', ∀ x, p.scope.Sees x → x.id ∈ stmtRefs s → Named names vars x) :
    p' = p ∧ ∃ t, simple? names o' = .ok (t, names) ∧ ClauseEmitted vars o' t vars := by
  cases h with
  | none => exact ⟨rfl, none, rfl, .none⟩
  | @some p s s' p' hs =>
    obtain ⟨rfl, t, ht, he⟩ := step_emitted hs ho (hi s rfl) (hn s' rfl)
    exact ⟨rfl, some t, by rw [simple?, ht]; rfl, .some he⟩

theorem declared_cons {p q : Typing.Place} {s : Stmt Unit} {s' : Stmt Note}
    (h : StmtChecked p s s' q) :
    ∃ new, q.scope.symbols = p.scope.symbols ++ new ∧ ∀ rest ids, declared rest = .ok ids →
      declared (s' :: rest) = .ok (new.map Symbol.id ++ ids) := by
  cases h with
  | declare | declareWith =>
    refine ⟨[_], rfl, fun rest ids hi => ?_⟩
    simp only [declared, hi, ok_bind]
    rfl
  -- What a block declares is left with it.
  | assign | input | print | evaluate | ret | ifThen | ifElse | whileDo | forDo | block =>
    exact ⟨[], (List.append_nil _).symm, fun rest ids hi => hi⟩

theorem declared_eq {p p' : Typing.Place} {ss : List (Stmt Unit)} {ss' : List (Stmt Note)}
    (h : StmtsChecked p ss ss' p') :
    ∃ new, p'.scope.symbols = p.scope.symbols ++ new ∧ declared ss' = .ok (new.map Symbol.id) := by
  induction ss generalizing p ss' with
  | nil =>
    cases h
    exact ⟨[], (List.append_nil _).symm, rfl⟩
  | cons s rest ih =>
    cases h with
    | cons hs hr =>
      obtain ⟨new, hnew, hids⟩ := declared_cons hs
      obtain ⟨more, hmore, hrest⟩ := ih hr
      refine ⟨new ++ more, by rw [hmore, hnew, List.append_assoc], ?_⟩
      rw [hids _ _ hrest, List.map_append]

theorem stepUsesBody_eq_ok {p p' : Typing.Place} {body : List (Stmt Unit)}
    {body' : List (Stmt Note)} (h : StmtsChecked p body body' p')
    (step : Option (Stmt Note)) :
    ∃ used, stepUsesBody step body' = .ok used ∧ (used = false → ∀ s ∈ step, ∀ x,
      p'.scope.Sees x → x.id ∈ stmtRefs s → p.scope.Sees x) := by
  obtain ⟨new, hnew, hids⟩ := declared_eq h
  cases step with
  | none => exact ⟨false, rfl, by simp⟩
  | some s =>
    refine ⟨_, by rw [stepUsesBody, hids]; rfl, ?_⟩
    rintro hf s' ⟨rfl⟩ x ⟨symbols, hs, hx⟩ href
    rw [h.later.outer, hnew] at hs
    rcases List.mem_cons.mp hs with rfl | hs
    · rcases List.mem_append.mp hx with hx | hx
      · exact ⟨_, List.mem_cons_self, hx⟩
      -- A symbol of the body: the step does not refer to it.
      · simp only [List.any_eq_false, List.forall_mem_map, decide_eq_true_eq] at hf
        exact absurd href (hf x hx)
    · exact ⟨symbols, List.mem_cons_of_mem _ hs, hx⟩

def BodyEmitted (p p' : Typing.Place) (body : List (Stmt Note)) : Prop :=
  ∀ names vars, Agrees p names vars → ∃ b names' vars', stmts names body = .ok (b, names') ∧
    StmtsEmitted vars body b vars' ∧ After p' names names' vars'

theorem BodyEmitted.block {p inside : Typing.Place} {body : List (Stmt Note)} {names : Names}
    {vars : Vars} (h : BodyEmitted p.inner inside body) (hl : p.inner.Later inside)
    (ha : Agrees p names vars) :
    ∃ b names' inner, stmts names body = .ok (b, names') ∧ StmtsEmitted vars body b inner ∧
      After (p.leave inside) names names' vars := by
  obtain ⟨b, names', inner, hb, he, hafter⟩ := h names vars ha.inner
  exact ⟨b, names', inner, hb, he, ha.leave hafter.kept hafter.agrees hl.function, hafter.kept⟩

theorem forDo_emitted {p started looped stepped : Typing.Place} {t brace : Token}
    {init step : Option (Stmt Unit)} {cond : Option (Expr Unit)} {body : List (Stmt Unit)}
    {init' step' : Option (Stmt Note)} {cond' : Option (Expr Note)} {body' : List (Stmt Note)}
    {names : Names} {vars : Vars} (hi : ClauseChecked p.inner init init' started)
    (hc : Option.Rel (fun e => ExprChecked started.scope e .bool) cond cond')
    (hb : StmtsChecked started body body' looped) (hs : ClauseChecked looped step step' stepped)
    (hform : (Stmt.forDo t init cond step brace body).Formed P)
    (hbody : BodyEmitted started looped body') (ha : Agrees p names vars) :
    ∃ s names', stmt names (.forDo t init' cond' step' brace body') = .ok (s, names') ∧
      StmtEmitted vars (.forDo t init' cond' step' brace body') s vars ∧
      After (p.leave stepped) names names' vars := by
  obtain ⟨-, hinit, hiform, hcform, hstep, hsform, -, -⟩ := hform
  have hlater := hi.later.trans hb.later
  obtain ⟨i, names₁, header, hi', hei, hstarted⟩ := clause_emitted hi hiform hinit ha.inner
  obtain ⟨c, hc', hec⟩ := hstarted.agrees.conditions_read hc hcform
  obtain ⟨b, names₂, inner, hb', heb, hlooped⟩ := hbody names₁ header hstarted.agrees
  have hkept := hstarted.kept.trans hlooped.kept
  obtain ⟨used, hused, houter⟩ := stepUsesBody_eq_ok hb step'
  cases used with
  | true =>
    obtain ⟨rfl, s, hs', hes⟩ :=
      stepClause_emitted hs hsform hstep fun _ _ x hx _ => hlooped.agrees.named x hx
    refine ⟨_, names₂, ?_, .forAsWhile hei hec heb hes, ?_, hkept⟩
    · simp only [stmt, hused, hi', hc', hb', hs', ok_bind]
      rfl
    · exact ha.leave hkept hlooped.agrees hlater.function
  | false =>
    -- The step is checked at the end of the body but lowered before it: what it refers to has its
    -- name there already, since none of it is declared in the body.
    obtain ⟨rfl, s, hs', hes⟩ := stepClause_emitted hs hsform hstep
      fun u hu x hx hm => hstarted.agrees.named x (houter rfl u hu x hx hm)
    refine ⟨_, names₂, ?_, .forHeader hei hec hes heb, ?_, hkept⟩
    · simp only [stmt, hused, hi', hc', hb', hs', ok_bind]
      rfl
    · exact ha.leave hkept hlooped.agrees hlater.function

theorem stmt_of_isInit {names : Names} {s : Stmt Note} (h : s.isInit) :
    stmt names s = (simple names s >>= fun r => pure (.simple r.1, r.2)) := by
  cases s with
  | declare | assign | evaluate => simp only [stmt]
  | input | print | ret | ifThen | ifElse | whileDo | forDo | block | foreign => cases h

theorem simpleStmt_emitted {p p' : Typing.Place} {s : Stmt Unit} {s' : Stmt Note} {names : Names}
    {vars : Vars} (h : StmtChecked p s s' p') (hs : s.Formed P) (hi : s.isInit)
    (ha : Agrees p names vars) :
    ∃ t names' vars', stmt names s' = .ok (t, names') ∧ StmtEmitted vars s' t vars' ∧
      After p' names names' vars' := by
  obtain ⟨t, names', vars', ht, he, hafter⟩ := simple_emitted h hs hi ha
  have hi' : s'.isInit := by rwa [← Stmt.isInit_map (fun _ => ()), h.erased]
  exact ⟨.simple t, names', vars', by rw [stmt_of_isInit hi', ht]; rfl, .simple he, hafter⟩

mutual

theorem stmt_emitted {p p' : Typing.Place} {s : Stmt Unit} {s' : Stmt Note} {names : Names}
    {vars : Vars} : StmtChecked p s s' p' → s.Formed P → Agrees p names vars →
      ∃ t names' vars', stmt names s' = .ok (t, names') ∧ StmtEmitted vars s' t vars' ∧
        After p' names names' vars'
  | .declare hl, hs, ha => simpleStmt_emitted (.declare hl) hs rfl ha
  | .declareWith hv hv' hl, hs, ha => simpleStmt_emitted (.declareWith hv hv' hl) hs rfl ha
  | .assign hx hx' hv hv', hs, ha => simpleStmt_emitted (.assign hx hx' hv hv') hs rfl ha
  | .evaluate hv, hs, ha => simpleStmt_emitted (.evaluate hv) hs rfl ha
  | @StmtChecked.input p t name x type hx hv, _, ha => by
    have hx' := ha.named x (Scope.sees_of_resolve? hx).1
    obtain ⟨given, hg, hd⟩ := hx'.denotes hv { Note.ofUse x with input := type } name rfl
    refine ⟨.read given type, names, vars, ?_, .read hd, ha, .refl names⟩
    have hproper := (hx'.var type hv).1
    simp only [stmt, hg, ok_bind]
    cases type with
    | other => exact hproper.elim
    | int | float | char | bool | string => rfl
  | .print hv, hs, ha => by
    obtain ⟨e, he, hr⟩ := ha.reads hv hs.2
    exact ⟨_, names, vars, by rw [stmt, he]; rfl, .print hr.display, ha, .refl names⟩
  | .ret hv _, hs, ha => by
    obtain ⟨e, he, hr⟩ := ha.reads hv hs.2
    exact ⟨_, names, vars, by rw [stmt, he]; rfl, .ret hr, ha, .refl names⟩
  | .ifThen hc hb, hs, ha => by
    obtain ⟨-, hcf, -, hbf⟩ := hs
    obtain ⟨c, hc', hrc⟩ := ha.reads hc hcf
    obtain ⟨b, names', inner, hb', heb, hafter⟩ := (stmts_emitted hb hbf).block hb.later ha
    exact ⟨_, names', vars, by rw [stmt, hc', ok_bind, hb']; rfl, .ifThen hrc heb, hafter⟩
  | .ifElse hc hb he, hs, ha => by
    obtain ⟨-, hcf, -, hbf, -, hef⟩ := hs
    obtain ⟨c, hc', hrc⟩ := ha.reads hc hcf
    obtain ⟨b, names₁, inner, hb', heb, hafter⟩ := (stmts_emitted hb hbf).block hb.later ha
    obtain ⟨e, names₂, elseInner, he', hee, hlast⟩ :=
      (stmts_emitted he hef).block he.later hafter.agrees
    refine ⟨.ifElse c b e, names₂, vars, ?_, .ifElse hrc heb hee, hlast.agrees,
      hafter.kept.trans hlast.kept⟩
    simp only [stmt, hc', hb', he', ok_bind]
    rfl
  | .whileDo hc hb, hs, ha => by
    obtain ⟨-, hcf, -, hbf⟩ := hs
    obtain ⟨c, hc', hrc⟩ := ha.reads hc hcf
    obtain ⟨b, names', inner, hb', heb, hafter⟩ := (stmts_emitted hb hbf).block hb.later ha
    exact ⟨_, names', vars, by rw [stmt, hc', ok_bind, hb']; rfl, .whileDo hrc heb, hafter⟩
  | .forDo hi hc hb hst, hs, ha => by
    have hbody := stmts_emitted hb hs.2.2.2.2.2.2.2
    obtain ⟨u, names', hu, heu, hafter⟩ := forDo_emitted hi hc hb hst hs hbody ha
    exact ⟨u, names', vars, hu, heu, hafter⟩
  | .block hb, hs, ha => by
    obtain ⟨b, names', inner, hb', heb, hafter⟩ := (stmts_emitted hb hs.2).block hb.later ha
    exact ⟨_, names', vars, by rw [stmt, hb']; rfl, .block heb, hafter⟩

theorem stmts_emitted {p p' : Typing.Place} {ss : List (Stmt Unit)} {ss' : List (Stmt Note)} :
    StmtsChecked p ss ss' p' → Stmt.AllFormed P ss → BodyEmitted p p' ss'
  | .nil, _, names, vars, ha => ⟨[], names, vars, rfl, .nil, ha, .refl names⟩
  | .cons hs hr, hf, names, vars, ha => by
    obtain ⟨t, names₁, mid, ht, het, hmid⟩ := stmt_emitted hs hf.1 ha
    obtain ⟨ts, names₂, vars', hts, hets, hlast⟩ := stmts_emitted hr hf.2 names₁ mid hmid.agrees
    refine ⟨t :: ts, names₂, vars', ?_, .cons het hets, hlast.agrees, hmid.kept.trans hlast.kept⟩
    simp only [stmts, ht, hts, ok_bind]
    rfl

end

theorem params_emitted {p p' : Typing.Place} {xs : List (Param Unit)} {xs' : List (Param Note)}
    {names : Names} {vars : Vars} (h : ParamsChecked p xs xs' p') (hf : ∀ x ∈ xs, x.Formed P)
    (ha : Agrees p names vars) :
    ∃ ls names' vars', params names xs' = .ok (ls, names') ∧ ParamsEmitted vars xs' ls vars' ∧
      After p' names names' vars' := by
  induction h generalizing names vars with
  | nil => exact ⟨[], names, vars, rfl, .nil, ha, .refl names⟩
  | @cons p x rest rest' q _ _ ih =>
    obtain ⟨hx, hrest⟩ := List.forall_mem_cons.mp hf
    obtain ⟨given, names₁, hd, -, hafter⟩ := declare_emitted ha hx.type x.token x.name
    obtain ⟨ls, names₂, vars', hls, hels, hlast⟩ := ih hrest hafter.agrees
    refine ⟨_, names₂, vars', ?_, .cons rfl hels, hlast.agrees, hafter.kept.trans hlast.kept⟩
    simp only [params, hd, hls, ok_bind]
    rfl

structure MethodNames (fs : List (Func Unit)) (methods : List (SymbolId × Text)) : Prop where
  func : ∀ f ∈ fs, (methods.lookup (.func f.name)).isSome
  var : ∀ function k, methods.lookup (.var function k) = none

theorem MethodNames.agrees {fs : List (Func Unit)} {methods : List (SymbolId × Text)}
    (h : MethodNames fs methods)
    (hm : ∀ f ∈ fs, f.name = Typing.entryName → f.params = [] ∧ f.result = .int)
    (function : Text) (result : Ty) (used : List Text) :
    Agrees ⟨function, result, (Scope.mk (fs.map Typing.signature) []).push, 0⟩ ⟨methods, used⟩ [] := by
  refine ⟨fun x hx => ?_, fun k _ => h.var function k, by simp⟩
  obtain ⟨f, hf, rfl⟩ : ∃ f ∈ fs, Typing.signature f = x := by
    simpa [Scope.Sees] using Scope.sees_push.mp hx
  constructor
  · intro type hs
    cases hs
  · intro params result hs
    cases hs
    exact ⟨h.func f hf, fun hn => by rw [(hm f hf hn).1, List.map_nil]⟩

theorem method_emitted {fs : List (Func Unit)} {methods : List (SymbolId × Text)}
    (hn : MethodNames fs methods)
    (hm : ∀ f ∈ fs, f.name = Typing.entryName → f.params = [] ∧ f.result = .int)
    {f : Func Unit} {f' : Func Note} (hf : f ∈ fs) (hform : f.Formed P)
    (h : FuncChecked ⟨fs.map Typing.signature, []⟩ f f') (used : List Text) :
    ∃ m given, method used methods f' = .ok (m, given) ∧ MethodEmitted f' m ∧
      ∀ id name, methods.lookup id = some name → given.lookup id = some name := by
  cases h with
  | @mk xs body p q hp hb =>
    obtain ⟨ls, names, vars, hls, hels, hinside⟩ := params_emitted hp hform.params
      (hn.agrees hm f.name f.result used)
    obtain ⟨b, names', inner, hb', heb, hlast⟩ :=
      stmts_emitted hb hform.body names vars hinside.agrees
    refine ⟨_, _, by simp only [method, defined, Note.ofDeclaration, hls, hb', ok_bind]; rfl,
      ⟨?_, ?_⟩, (hinside.kept.trans hlast.kept).given⟩
    · intro he
      rw [(hm f hf (of_decide_eq_true he)).1] at hp
      cases hp
      rfl
    · refine ⟨vars, inner, b, hels, heb, ?_⟩
      dsimp only
      split
      · exact .inl rfl
      · exact .inr rfl

theorem nameMethods_eq_ok {fs : List (Func Note)} (hd : ∀ f ∈ fs, ∃ x, f.note.defines = some x ∧
    x.id = .func f.name) (used : List Text) :
    ∃ methods, nameMethods used fs = .ok methods ∧
      methods.map Prod.fst = (fs.map Func.name).map SymbolId.func := by
  induction fs generalizing used with
  | nil => exact ⟨[], rfl, rfl⟩
  | cons f rest ih =>
    obtain ⟨⟨x, hx, hid⟩, hrest⟩ := List.forall_mem_cons.mp hd
    obtain ⟨methods, hm, hids⟩ := ih hrest (methodName f.name used :: used)
    refine ⟨(x.id, methodName f.name used) :: methods, ?_, ?_⟩
    · simp only [nameMethods, defined, hx, hm, ok_bind]
      rfl
    · rw [List.map_cons, List.map_cons, List.map_cons, hids, hid]

theorem MethodNames.of_ids {fs : List (Func Unit)} {methods : List (SymbolId × Text)}
    (h : methods.map Prod.fst = (fs.map Func.name).map SymbolId.func) : MethodNames fs methods := by
  constructor
  · intro f hf
    have hmem : SymbolId.func f.name ∈ methods.map Prod.fst :=
      h ▸ List.mem_map_of_mem (List.mem_map_of_mem hf)
    obtain ⟨m, hm, he⟩ := List.mem_map.mp hmem
    exact List.lookup_isSome_iff.mpr ⟨m, hm, by rw [he, beq_self_eq_true]⟩
  · intro function k
    refine List.lookup_eq_none_iff.mpr fun m hm => ?_
    have hmem : m.1 ∈ (fs.map Func.name).map SymbolId.func := h ▸ List.mem_map_of_mem hm
    obtain ⟨name, -, he⟩ := List.mem_map.mp hmem
    rw [← he]
    rfl

end Lowering

end MiniSharp
