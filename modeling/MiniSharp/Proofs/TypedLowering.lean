import MiniSharp.Proofs.NameResolution
import MiniSharp.Proofs.TargetTyping

/-!
Emitted code is well typed. The induction goes along the run of the checker and reads the lowering
beside it. One list holds the symbols of a function, and a name is given to a symbol only where the
code declares it with the type of the symbol; the order in which names are given does not matter.
-/

namespace MiniSharp

open Emitted
open Rules (Fits BinaryTyped)
open Target (Env HasType ArgsFit Converts Operates)
open Typing (ExprChecked ArgsChecked StmtChecked ClauseChecked StmtsChecked ParamsChecked
  FuncChecked)

variable {P : Token → Prop} {L : List Symbol} {Γ : Env}

structure Symbol.Known (L : List Symbol) (Γ : Env) (x : Symbol) : Prop where
  listed : x ∈ L
  proper : x.sort.Proper
  entry : ∀ params result, x.sort = .func params result → x.name = Typing.entryName →
    params = [] ∧ result = .int ∧ ∃ m ∈ Γ.methods, m.entry = true

def Scope.Known (s : Scope) (L : List Symbol) (Γ : Env) : Prop := ∀ x, s.Sees x → x.Known L Γ

theorem Scope.Known.push {s : Scope} (h : s.Known L Γ) : s.push.Known L Γ :=
  fun x hx => h x (Scope.sees_push.mp hx)

theorem Scope.Known.extend {p : Typing.Place} {t : Token} {name : Text} {type : Ty}
    (h : p.scope.Known L Γ) (hx : p.symbol t name type ∈ L) (hp : type.Proper) :
    (p.extend (p.symbol t name type)).scope.Known L Γ := by
  intro y hy
  rcases Typing.Place.sees_extend.mp hy with hy | rfl
  · exact h y hy
  · refine ⟨hx, hp, fun _ _ hs => ?_⟩
    cases hs

namespace Typing

theorem StmtChecked.known {p p' : Place} {s : Stmt Unit} {s' : Stmt Note}
    (h : StmtChecked p s s' p') (hs : s.Formed P) (hd : s'.defines ⊆ L) (hw : p.scope.Known L Γ) :
    p'.scope.Known L Γ := by
  cases h with
  | declare | declareWith => exact hw.extend (hd (List.mem_singleton_self _)) hs.2.1
  | assign | input | print | evaluate | ret | ifThen | ifElse | whileDo | forDo | block => exact hw

theorem ClauseChecked.known {p p' : Place} {o : Option (Stmt Unit)} {o' : Option (Stmt Note)}
    (h : ClauseChecked p o o' p') (ho : Stmt.OptFormed P o) (hd : Stmt.defines? o' ⊆ L)
    (hw : p.scope.Known L Γ) : p'.scope.Known L Γ := by
  cases h with
  | none => exact hw
  | some hs => exact hs.known ho hd hw

theorem StmtsChecked.known {p p' : Place} {ss : List (Stmt Unit)} {ss' : List (Stmt Note)}
    (h : StmtsChecked p ss ss' p') (hs : Stmt.AllFormed P ss) (hd : Stmt.definesAll ss' ⊆ L)
    (hw : p.scope.Known L Γ) : p'.scope.Known L Γ := by
  induction ss generalizing p ss' with
  | nil =>
    cases h
    exact hw
  | cons s rest ih =>
    cases h with
    | cons hfirst hrest =>
      obtain ⟨hd, hdrest⟩ := List.append_subset.mp hd
      exact ih hrest hs.2 hdrest (hfirst.known hs.1 hd hw)

end Typing

theorem Target.Operates.of_checked {o : Operator} {σ τ ρ : Ty} (h : BinaryTyped o σ τ ρ)
    (hn : ¬(o = .plus ∧ ρ = .string)) : Operates o σ τ ρ := by
  cases h with
  | concatLeft | concatRight => exact absurd ⟨rfl, rfl⟩ hn
  | arithmetic ho hj => exact .arithmetic ho hj
  | equalNumbers ho hl hr => exact .equalNumbers ho hl hr
  | equalTypes ho => exact .equalTypes ho
  | ordering ho hl hr => exact .ordering ho hl hr
  | logic ho => exact .logic ho

namespace Lowering

structure Declares (Γ : Env) (x : Symbol) (given : Text) : Prop where
  var : ∀ type, x.sort = .var type → (given, type) ∈ Γ.vars
  func : ∀ params result, x.sort = .func params result → ∃ m ∈ Γ.methods, m.name = given ∧
    m.params.map Target.Local.type = params ∧ m.result = result ∧
    m.entry = decide (x.name = Typing.entryName)

def Names.Typed (names : Names) (L : List Symbol) (Γ : Env) : Prop :=
  ∀ x ∈ L, ∀ given, names.given.lookup x.id = some given → Declares Γ x given

theorem lookup_of_givenName {names : Names} {note : Note} {name given : Text} {x : Symbol}
    (hr : note.refers = some x) (h : givenName names note name = .ok given) :
    names.given.lookup x.id = some given := by
  simp only [givenName, hr] at h
  split at h
  · next hg =>
    cases h
    exact hg
  · cases h

theorem Names.Typed.give {names : Names} {x : Symbol} {type : Ty} {given : Text}
    (h : names.Typed L Γ) (hL : (L.map Symbol.id).Nodup) (hx : x ∈ L) (hs : x.sort = .var type)
    (hg : (given, type) ∈ Γ.vars) : (names.give x given).Typed L Γ := by
  intro y hy g hl
  rw [Names.give, List.lookup_cons] at hl
  by_cases he : y.id = x.id
  · obtain rfl := List.inj_on_of_nodup_map hL hy hx he
    rw [beq_self_eq_true] at hl
    cases hl
    constructor
    · intro type' ht
      rw [hs] at ht
      cases ht
      exact hg
    · intro params result hf
      rw [hs] at hf
      cases hf
  · rw [beq_false_of_ne he] at hl
    exact h y hy g hl

theorem variable_typed {scope : Scope} {x : Symbol} {type : Ty} {note : Note} {name given : Text}
    {names : Names} (hw : scope.Known L Γ) (hn : names.Typed L Γ)
    (hx : scope.resolve? name = some x) (hs : x.sort = .var type) (hr : note.refers = some x)
    (hg : givenName names note name = .ok given) : (given, type) ∈ Γ.vars ∧ type.Proper := by
  obtain ⟨hmem, hp, -⟩ := hw x (Scope.sees_of_resolve? hx).1
  rw [hs] at hp
  exact ⟨(hn x hmem given (lookup_of_givenName hr hg)).var type hs, hp⟩

theorem declare_typed {names names' : Names} {x : Symbol} {type : Ty} {name given : Text}
    (hn : names.Typed L Γ) (hL : (L.map Symbol.id).Nodup) (hx : x ∈ L) (hs : x.sort = .var type)
    (h : declare names (.ofDeclaration x) name = .ok (given, names'))
    (hg : (given, type) ∈ Γ.vars) : names'.Typed L Γ := by
  simp only [declare, defined, Note.ofDeclaration, ok_bind, pure_eq_ok, Prod.mk.injEq] at h
  obtain ⟨rfl, rfl⟩ := h
  exact hn.give hL hx hs hg

theorem literal_typed {t : Token} {value : Literal} {c : Target.Expr}
    (h : literal t value = .ok c) : HasType Γ c value.type ∧ value.type.Proper := by
  cases value with
  | untyped => cases h
  | int => cases h; exact ⟨.int, trivial⟩
  | float => cases h; exact ⟨.float, trivial⟩
  | char => cases h; exact ⟨.char, trivial⟩
  | bool => cases h; exact ⟨.bool, trivial⟩
  | string => cases h; exact ⟨.string, trivial⟩

theorem displayed_typed {e : Expr Note} {τ : Ty} {c c' : Target.Expr}
    (hk : knownType e = .ok τ) (hc : HasType Γ c τ) (hp : τ.Proper)
    (h : displayed e c = .ok c') : Operand c c' ∧ HasType Γ c' .string := by
  simp only [displayed, hk, ok_bind, pure_eq_ok] at h
  subst h
  split
  · next hs => exact ⟨.kept, hs ▸ hc⟩
  · exact ⟨.shown, .display hc hp⟩

theorem binary_eq_ok {names : Names} {note : Note} {t : Token} {op : TokenKind}
    {left right : Expr Note} {τ : Ty} {c : Target.Expr} (ht : note.type = some τ)
    (h : expr names (.binary note t op left right) = .ok c) :
    ∃ l r, expr names left = .ok l ∧ expr names right = .ok r ∧
      (op = .operator .plus ∧ τ = .string ∧ (∃ l' r', displayed left l = .ok l' ∧
        displayed right r = .ok r' ∧ c = .binary op l' r') ∨
      ¬(op = .operator .plus ∧ τ = .string) ∧ c = .binary op l r) := by
  have hk : knownType (.binary note t op left right) = .ok τ := by
    simp only [knownType, Expr.note?, Option.bind_some, ht]
  simp only [expr, hk, ok_bind, bind_eq_ok] at h
  obtain ⟨l, hl, r, hr, h⟩ := h
  refine ⟨l, r, hl, hr, ?_⟩
  by_cases hop : op = .operator .plus
  · by_cases hs : τ = .string
    · rw [if_pos hop, if_pos hs] at h
      simp only [bind_eq_ok, pure_eq_ok] at h
      obtain ⟨l', hl', r', hr', rfl⟩ := h
      exact .inl ⟨hop, hs, l', r', hl', hr', rfl⟩
    · rw [if_pos hop, if_neg hs] at h
      exact .inr ⟨fun hb => hs hb.2, (pure_eq_ok.mp h).symm⟩
  · rw [if_neg hop] at h
    exact .inr ⟨fun hb => hop hb.1, (pure_eq_ok.mp h).symm⟩

mutual

theorem expr_typed {scope : Scope} {e : Expr Unit} {type : Ty} {e' : Expr Note} {names : Names}
    {c : Target.Expr} (hL : (L.map Symbol.id).Nodup) (hw : scope.Known L Γ) (hn : names.Typed L Γ) :
    ExprChecked scope e type e' → expr names e' = .ok c →
      ExprTyped Γ e' c ∧ HasType Γ c type ∧ type.Proper
  | .literal, h => by
    rw [expr] at h
    obtain ⟨ht, hp⟩ := literal_typed h
    exact ⟨.literal h ⟨_, rfl, ht⟩, ht, hp⟩
  | @ExprChecked.ident _ t name x type hx hs, h => by
    simp only [expr, bind_eq_ok, pure_eq_ok] at h
    obtain ⟨given, hg, rfl⟩ := h
    obtain ⟨hvar, hp⟩ := variable_typed hw hn hx hs rfl hg
    have ht : HasType Γ (.name given) type := .name hvar
    exact ⟨.name ⟨type, rfl, ht⟩, ht, hp⟩
  | @ExprChecked.call _ t name args args' x params result hx hs ha, h => by
    obtain ⟨hsees, hname⟩ := Scope.sees_of_resolve? hx
    obtain ⟨hmem, hp, hentry⟩ := hw x hsees
    rw [hs] at hp
    by_cases hm : name = Typing.entryName
    · rw [expr, if_pos hm, pure_eq_ok] at h
      subst h hm
      obtain ⟨rfl, rfl, m, hm, he⟩ := hentry params result hs hname
      cases ha
      have ht : HasType Γ .entry .int := .entry hm he
      exact ⟨.entry ⟨.int, rfl, ht⟩, ht, hp⟩
    · rw [expr, if_neg hm] at h
      simp only [bind_eq_ok, pure_eq_ok] at h
      obtain ⟨cs, hcs, given, hg, rfl⟩ := h
      obtain ⟨m, hmethod, rfl, rfl, rfl, he⟩ :=
        (hn x hmem given (lookup_of_givenName rfl hg)).func params result hs
      obtain ⟨hargs, hfit⟩ := exprs_typed hL hw hn ha hcs
      have ht : HasType Γ (.call m.name cs) m.result :=
        .call hmethod (he.trans (decide_eq_false (hname ▸ hm))) hfit
      exact ⟨.call hargs ⟨m.result, rfl, ht⟩, ht, hp⟩
  | @ExprChecked.unary _ t op operand operand' found type ho hop, h => by
    simp only [expr, bind_eq_ok, pure_eq_ok] at h
    obtain ⟨c, hc, rfl⟩ := h
    obtain ⟨he, ht, -⟩ := expr_typed hL hw hn ho hc
    obtain ⟨o, rfl, hu⟩ := Typing.unaryType_eq_ok.mp hop
    have htype := HasType.unary ht hu
    exact ⟨.unary he ⟨type, rfl, htype⟩, htype, hu.proper⟩
  | @ExprChecked.binary _ t op left left' σ right right' τ ρ hl hr hop, h => by
    obtain ⟨l, r, hcl, hcr, hcode⟩ := binary_eq_ok rfl h
    obtain ⟨hel, htl, hpl⟩ := expr_typed hL hw hn hl hcl
    obtain ⟨her, htr, hpr⟩ := expr_typed hL hw hn hr hcr
    obtain ⟨o, rfl, hb⟩ := Typing.binaryType_sound hop
    rcases hcode with ⟨ho, rfl, l', r', hl', hr', rfl⟩ | ⟨ho, rfl⟩
    · obtain ⟨hshown, hs⟩ := displayed_typed (knownType_of_checked hl) htl hpl hl'
      obtain ⟨hshown', hs'⟩ := displayed_typed (knownType_of_checked hr) htr hpr hr'
      cases ho
      have ht := HasType.binary hs hs' .concat
      exact ⟨.concat hel her rfl hshown hshown' hs hs' ⟨.string, rfl, ht⟩, ht, trivial⟩
    · have hplain : ¬(o = .plus ∧ ρ = .string) := fun hb => ho ⟨congrArg _ hb.1, hb.2⟩
      have ht := HasType.binary htl htr (.of_checked hb hplain)
      exact ⟨.binary hel her ⟨ρ, rfl, ht⟩, ht, hb.proper⟩

theorem exprs_typed {scope : Scope} {params : List Ty} {args : List (Expr Unit)}
    {args' : List (Expr Note)} {names : Names} {cs : List Target.Expr}
    (hL : (L.map Symbol.id).Nodup) (hw : scope.Known L Γ) (hn : names.Typed L Γ) :
    ArgsChecked scope params args args' → exprs names args' = .ok cs →
      ArgsTyped Γ args' cs ∧ ArgsFit Γ params cs
  | .nil, h => by
    simp only [exprs, pure_eq_ok] at h
    subst h
    exact ⟨.nil, .nil⟩
  | .cons ha hf hr, h => by
    simp only [exprs, bind_eq_ok, pure_eq_ok] at h
    obtain ⟨c, hc, cs, hcs, rfl⟩ := h
    obtain ⟨he, ht, -⟩ := expr_typed hL hw hn ha hc
    obtain ⟨hes, hfit⟩ := exprs_typed hL hw hn hr hcs
    exact ⟨.cons he hes, .cons ht (Ty.accepts_iff.mp hf) hfit⟩

end

theorem converts_typed {scope : Scope} {e : Expr Unit} {found expected : Ty} {e' : Expr Note}
    {names : Names} {c : Target.Expr} (hL : (L.map Symbol.id).Nodup) (hw : scope.Known L Γ)
    (hn : names.Typed L Γ) (h : ExprChecked scope e found e') (hf : expected.accepts found = true)
    (hc : expr names e' = .ok c) : ExprTyped Γ e' c ∧ Converts Γ c expected := by
  obtain ⟨he, ht, -⟩ := expr_typed hL hw hn h hc
  exact ⟨he, found, ht, Ty.accepts_iff.mp hf⟩

theorem condition_typed {scope : Scope} {e : Expr Unit} {e' : Expr Note} {names : Names}
    {c : Target.Expr} (hL : (L.map Symbol.id).Nodup) (hw : scope.Known L Γ) (hn : names.Typed L Γ)
    (h : ExprChecked scope e .bool e') (hc : expr names e' = .ok c) : ConditionTyped Γ e' c := by
  obtain ⟨he, ht, -⟩ := expr_typed hL hw hn h hc
  exact ⟨he, ht⟩

theorem conditions_typed {scope : Scope} {o : Option (Expr Unit)} {o' : Option (Expr Note)}
    {names : Names} {c : Option Target.Expr} (hL : (L.map Symbol.id).Nodup) (hw : scope.Known L Γ)
    (hn : names.Typed L Γ) (h : Option.Rel (fun e => ExprChecked scope e .bool) o o')
    (hc : o'.mapM (expr names) = .ok c) : Option.Rel (ConditionTyped Γ) o' c := by
  cases h with
  | none =>
    cases hc
    exact .none
  | some he =>
    obtain ⟨c, he', rfl⟩ := mapM_some_eq_ok.mp hc
    exact .some (condition_typed hL hw hn he he')

theorem simple_typed {p p' : Typing.Place} {s : Stmt Unit} {s' : Stmt Note} {names names' : Names}
    {c : Target.Simple} (hL : (L.map Symbol.id).Nodup) (h : StmtChecked p s s' p') (hs : s.Formed P)
    (hd : s'.defines ⊆ L) (hw : p.scope.Known L Γ) (hn : names.Typed L Γ)
    (hc : simple names s' = .ok (c, names')) (hv : c.declarations ⊆ Γ.vars) :
    SimpleTyped Γ s' c ∧ names'.Typed L Γ := by
  cases h with
  | @declare p t name type =>
    simp only [simple, bind_eq_ok, pure_eq_ok, Prod.exists, Prod.mk.injEq] at hc
    obtain ⟨_, rfl, given, names', hgive, rfl, rfl⟩ := hc
    have hg : (given, type) ∈ Γ.vars := hv (List.mem_singleton_self _)
    refine ⟨.declare hg (.default hs.2.1), ?_⟩
    exact declare_typed hn hL (hd (List.mem_singleton_self _)) rfl hgive hg
  | @declareWith p t name type value value' found hval hf =>
    simp only [simple, bind_eq_ok, pure_eq_ok, Prod.exists, Prod.mk.injEq] at hc
    obtain ⟨e, he, given, names', hgive, rfl, rfl⟩ := hc
    have hg : (given, type) ∈ Γ.vars := hv (List.mem_singleton_self _)
    obtain ⟨hexpr, hconv⟩ := converts_typed hL hw hn hval hf he
    refine ⟨.declareWith hg hexpr hconv, ?_⟩
    exact declare_typed hn hL (hd (List.mem_singleton_self _)) rfl hgive hg
  | @assign p t name x type value value' found hx hsort hval hf =>
    simp only [simple, bind_eq_ok, pure_eq_ok, Prod.mk.injEq] at hc
    obtain ⟨given, hgiven, e, he, rfl, rfl⟩ := hc
    obtain ⟨hg, -⟩ := variable_typed hw hn hx hsort rfl hgiven
    obtain ⟨hexpr, hconv⟩ := converts_typed hL hw hn hval hf he
    exact ⟨.assign hg hexpr hconv, hn⟩
  | evaluate hval =>
    simp only [simple, bind_eq_ok, pure_eq_ok, Prod.mk.injEq] at hc
    obtain ⟨e, he, rfl, rfl⟩ := hc
    obtain ⟨hexpr, -, -⟩ := expr_typed hL hw hn hval he
    split
    · exact ⟨.call hexpr, hn⟩
    · exact ⟨.discard hexpr, hn⟩
  | input | print | ret | ifThen | ifElse | whileDo | forDo | block => cases hc

theorem clause_typed {p p' : Typing.Place} {o : Option (Stmt Unit)} {o' : Option (Stmt Note)}
    {names names' : Names} {c : Option Target.Simple} (hL : (L.map Symbol.id).Nodup)
    (h : ClauseChecked p o o' p') (ho : Stmt.OptFormed P o) (hd : Stmt.defines? o' ⊆ L)
    (hw : p.scope.Known L Γ) (hn : names.Typed L Γ) (hc : simple? names o' = .ok (c, names'))
    (hv : c.elim [] Target.Simple.declarations ⊆ Γ.vars) :
    Option.Rel (SimpleTyped Γ) o' c ∧ names'.Typed L Γ := by
  cases h with
  | none =>
    simp only [simple?, pure_eq_ok, Prod.mk.injEq] at hc
    obtain ⟨rfl, rfl⟩ := hc
    exact ⟨.none, hn⟩
  | some hs =>
    simp only [simple?, bind_eq_ok, pure_eq_ok, Prod.exists, Prod.mk.injEq] at hc
    obtain ⟨c, names', hc, rfl, rfl⟩ := hc
    obtain ⟨ht, hn'⟩ := simple_typed hL hs ho hd hw hn hc hv
    exact ⟨.some ht, hn'⟩

def BodyTyped (L : List Symbol) (Γ : Env) (result : Ty) (body : List (Stmt Note)) : Prop :=
  ∀ names names' b, names.Typed L Γ → stmts names body = .ok (b, names') →
    Target.Stmt.declarationsAll b ⊆ Γ.vars → StmtsTyped Γ result body b ∧ names'.Typed L Γ

theorem forDo_typed {p started looped stepped : Typing.Place} {t brace : Token}
    {init step : Option (Stmt Unit)} {cond : Option (Expr Unit)} {body : List (Stmt Unit)}
    {init' step' : Option (Stmt Note)} {cond' : Option (Expr Note)} {body' : List (Stmt Note)}
    {names names' : Names} {c : Target.Stmt} (hL : (L.map Symbol.id).Nodup)
    (hi : ClauseChecked p.inner init init' started)
    (hc : Option.Rel (fun e => ExprChecked started.scope e .bool) cond cond')
    (hb : StmtsChecked started body body' looped) (hs : ClauseChecked looped step step' stepped)
    (hform : (Stmt.forDo t init cond step brace body).Formed P)
    (hd : (Stmt.forDo t init' cond' step' brace body').defines ⊆ L)
    (hw : p.scope.Known L Γ) (hn : names.Typed L Γ)
    (hbody : BodyTyped L Γ p.result body')
    (h : stmt names (.forDo t init' cond' step' brace body') = .ok (c, names'))
    (hv : c.declarations ⊆ Γ.vars) :
    StmtTyped Γ p.result (.forDo t init' cond' step' brace body') c ∧ names'.Typed L Γ := by
  obtain ⟨-, -, hiform, -, -, hsform, -, hbform⟩ := hform
  obtain ⟨hd, hds⟩ := List.append_subset.mp hd
  obtain ⟨hdi, hdb⟩ := List.append_subset.mp hd
  have hstarted := hi.known hiform hdi hw.push
  have hlooped := hb.known hbform hdb hstarted
  simp only [stmt, bind_eq_ok] at h
  obtain ⟨used, -, h⟩ := h
  -- The step sees what the body declares, but may be lowered before it: only its scope is that of
  -- the body, and its names are those given so far.
  split at h
  · simp only [bind_eq_ok, pure_eq_ok, Prod.exists, Prod.mk.injEq] at h
    obtain ⟨i, names₁, hi', e, he, b, names₂, hb', s, names₃, hs', rfl, rfl⟩ := h
    rw [Target.Stmt.declarations, Target.Stmt.declarationsAll_append,
      Target.Stmt.declarationsAll_clause, Target.Stmt.declarationsAll, Target.Stmt.declarations,
      Target.Stmt.declarationsAll_append, Target.Stmt.declarationsAll_clause,
      Target.Stmt.declarationsAll, List.append_nil] at hv
    obtain ⟨hvi, hv⟩ := List.append_subset.mp hv
    obtain ⟨hvb, hvs⟩ := List.append_subset.mp hv
    obtain ⟨hit, hn₁⟩ := clause_typed hL hi hiform hdi hw.push hn hi' hvi
    obtain ⟨hbt, hn₂⟩ := hbody names₁ names₂ b hn₁ hb' hvb
    obtain ⟨hst, hn₃⟩ := clause_typed hL hs hsform hds hlooped hn₂ hs' hvs
    exact ⟨.forAsWhile hit (conditions_typed hL hstarted hn₁ hc he) hst hbt, hn₃⟩
  · simp only [bind_eq_ok, pure_eq_ok, Prod.exists, Prod.mk.injEq] at h
    obtain ⟨i, names₁, hi', e, he, s, names₂, hs', b, names₃, hb', rfl, rfl⟩ := h
    obtain ⟨hvi, hv⟩ := List.append_subset.mp hv
    obtain ⟨hvs, hvb⟩ := List.append_subset.mp hv
    obtain ⟨hit, hn₁⟩ := clause_typed hL hi hiform hdi hw.push hn hi' hvi
    obtain ⟨hst, hn₂⟩ := clause_typed hL hs hsform hds hlooped hn₁ hs' hvs
    obtain ⟨hbt, hn₃⟩ := hbody names₂ names₃ b hn₂ hb' hvb
    exact ⟨.forHeader hit (conditions_typed hL hstarted hn₁ hc he) hst hbt, hn₃⟩

theorem simpleStmt_typed {p p' : Typing.Place} {s : Stmt Unit} {s' : Stmt Note}
    {names names' : Names} {c : Target.Stmt} (hL : (L.map Symbol.id).Nodup)
    (h : StmtChecked p s s' p') (hs : s.Formed P) (hi : s'.isInit) (hd : s'.defines ⊆ L) (hw : p.scope.Known L Γ)
    (hn : names.Typed L Γ) (hc : stmt names s' = .ok (c, names'))
    (hv : c.declarations ⊆ Γ.vars) : StmtTyped Γ p.result s' c ∧ names'.Typed L Γ := by
  rw [stmt_of_isInit hi] at hc
  simp only [bind_eq_ok, pure_eq_ok, Prod.exists, Prod.mk.injEq] at hc
  obtain ⟨c, names', hc, rfl, rfl⟩ := hc
  obtain ⟨ht, hn'⟩ := simple_typed hL h hs hd hw hn hc hv
  exact ⟨.simple ht, hn'⟩

mutual

theorem stmt_typed {p p' : Typing.Place} {s : Stmt Unit} {s' : Stmt Note} {names names' : Names}
    {c : Target.Stmt} (hL : (L.map Symbol.id).Nodup) (hw : p.scope.Known L Γ) (hn : names.Typed L Γ)
    (hv : c.declarations ⊆ Γ.vars) : StmtChecked p s s' p' → s.Formed P → s'.defines ⊆ L →
      stmt names s' = .ok (c, names') → StmtTyped Γ p.result s' c ∧ names'.Typed L Γ
  | .declare hl, hs, hd, h => simpleStmt_typed hL (.declare hl) hs rfl hd hw hn h hv
  | .declareWith hval hf hl, hs, hd, h =>
    simpleStmt_typed hL (.declareWith hval hf hl) hs rfl hd hw hn h hv
  | .assign hx hsort hval hf, hs, hd, h =>
    simpleStmt_typed hL (.assign hx hsort hval hf) hs rfl hd hw hn h hv
  | .evaluate hval, hs, hd, h => simpleStmt_typed hL (.evaluate hval) hs rfl hd hw hn h hv
  | .input hx hsort, _, _, h => by
    simp only [stmt, bind_eq_ok] at h
    obtain ⟨given, hgiven, h⟩ := h
    obtain ⟨hg, hp⟩ := variable_typed hw hn hx hsort rfl hgiven
    split at h
    · cases h
    · cases h
    · next _ htype =>
      cases h
      cases htype
      exact ⟨.read hg rfl hp, hn⟩
  | .print hval, _, _, h => by
    simp only [stmt, bind_eq_ok, pure_eq_ok, Prod.mk.injEq] at h
    obtain ⟨e, he, rfl, rfl⟩ := h
    obtain ⟨hexpr, ht, hp⟩ := expr_typed hL hw hn hval he
    exact ⟨.print hexpr (.display ht hp), hn⟩
  | .ret hval hf, _, _, h => by
    simp only [stmt, bind_eq_ok, pure_eq_ok, Prod.mk.injEq] at h
    obtain ⟨e, he, rfl, rfl⟩ := h
    obtain ⟨hexpr, hconv⟩ := converts_typed hL hw hn hval hf he
    exact ⟨.ret hexpr hconv, hn⟩
  | .ifThen hcond hb, hs, hd, h => by
    simp only [stmt, bind_eq_ok, pure_eq_ok, Prod.exists, Prod.mk.injEq] at h
    obtain ⟨e, he, b, _, hb', rfl, rfl⟩ := h
    obtain ⟨hbt, hn'⟩ := stmts_typed hL hb hw.push hs.2.2.2 hd _ _ b hn hb' hv
    exact ⟨.ifThen (condition_typed hL hw hn hcond he) hbt, hn'⟩
  | .ifElse hcond hb helse, hs, hd, h => by
    simp only [stmt, bind_eq_ok, pure_eq_ok, Prod.exists, Prod.mk.injEq] at h
    obtain ⟨e, he, b, _, hb', b', _, helse', rfl, rfl⟩ := h
    obtain ⟨-, -, -, hbf, -, hef⟩ := hs
    obtain ⟨hdb, hde⟩ := List.append_subset.mp hd
    obtain ⟨hvb, hve⟩ := List.append_subset.mp hv
    obtain ⟨hbt, hn₁⟩ := stmts_typed hL hb hw.push hbf hdb _ _ b hn hb' hvb
    obtain ⟨het, hn₂⟩ := stmts_typed hL helse hw.push hef hde _ _ b' hn₁ helse' hve
    exact ⟨.ifElse (condition_typed hL hw hn hcond he) hbt het, hn₂⟩
  | .whileDo hcond hb, hs, hd, h => by
    simp only [stmt, bind_eq_ok, pure_eq_ok, Prod.exists, Prod.mk.injEq] at h
    obtain ⟨e, he, b, _, hb', rfl, rfl⟩ := h
    obtain ⟨hbt, hn'⟩ := stmts_typed hL hb hw.push hs.2.2.2 hd _ _ b hn hb' hv
    exact ⟨.whileDo (condition_typed hL hw hn hcond he) hbt, hn'⟩
  | .forDo hi hc hb hst, hs, hd, h => by
    have hdb := List.append_subset.mp (List.append_subset.mp hd).1
    have hstarted := hi.known hs.2.2.1 hdb.1 hw.push
    have hbody := stmts_typed hL hb hstarted hs.2.2.2.2.2.2.2 hdb.2
    rw [hi.later.result] at hbody
    exact forDo_typed hL hi hc hb hst hs hd hw hn hbody h hv
  | .block hb, hs, hd, h => by
    simp only [stmt, bind_eq_ok, pure_eq_ok, Prod.exists, Prod.mk.injEq] at h
    obtain ⟨b, _, hb', rfl, rfl⟩ := h
    obtain ⟨hbt, hn'⟩ := stmts_typed hL hb hw.push hs.2 hd _ _ b hn hb' hv
    exact ⟨.block hbt, hn'⟩

theorem stmts_typed {p p' : Typing.Place} {ss : List (Stmt Unit)} {ss' : List (Stmt Note)}
    (hL : (L.map Symbol.id).Nodup) : StmtsChecked p ss ss' p' → p.scope.Known L Γ →
      Stmt.AllFormed P ss → Stmt.definesAll ss' ⊆ L → BodyTyped L Γ p.result ss'
  | .nil, _, _, _, names, names', b, hn, h, _ => by
    simp only [stmts, pure_eq_ok, Prod.mk.injEq] at h
    obtain ⟨rfl, rfl⟩ := h
    exact ⟨.nil, hn⟩
  | .cons hs hr, hw, hf, hd, names, names', b, hn, h, hv => by
    simp only [stmts, bind_eq_ok, pure_eq_ok, Prod.exists, Prod.mk.injEq] at h
    obtain ⟨c, names₁, hc, cs, names₂, hcs, rfl, rfl⟩ := h
    obtain ⟨hds, hdr⟩ := List.append_subset.mp hd
    obtain ⟨hvs, hvr⟩ := List.append_subset.mp hv
    obtain ⟨ht, hn₁⟩ := stmt_typed hL hw hn hvs hs hf.1 hds hc
    have hrest := stmts_typed hL hr (hs.known hf.1 hds hw) hf.2 hdr
    rw [hs.later.result] at hrest
    obtain ⟨hts, hn₂⟩ := hrest names₁ names₂ cs hn₁ hcs hvr
    exact ⟨.cons ht hts, hn₂⟩

end

theorem params_types {names names' : Names} {xs : List (Param Note)} {ls : List Target.Local}
    (h : params names xs = .ok (ls, names')) :
    ls.map Target.Local.type = xs.map Param.type := by
  induction xs generalizing names ls with
  | nil =>
    simp only [params, pure_eq_ok, Prod.mk.injEq] at h
    obtain ⟨rfl, -⟩ := h
    rfl
  | cons x rest ih =>
    simp only [params, bind_eq_ok, pure_eq_ok, Prod.exists, Prod.mk.injEq] at h
    obtain ⟨given, _, -, ls, _, hls, rfl, rfl⟩ := h
    rw [List.map_cons, List.map_cons, ih hls]

theorem params_typed {p p' : Typing.Place} {xs : List (Param Unit)} {xs' : List (Param Note)}
    {names names' : Names} {ls : List Target.Local} (hL : (L.map Symbol.id).Nodup)
    (h : ParamsChecked p xs xs' p') (hf : ∀ x ∈ xs, x.Formed P)
    (hd : xs'.flatMap (fun x => x.note.defines.toList) ⊆ L) (hw : p.scope.Known L Γ)
    (hn : names.Typed L Γ) (hc : params names xs' = .ok (ls, names'))
    (hv : ls.map (fun x => (x.name, x.type)) ⊆ Γ.vars) :
    p'.scope.Known L Γ ∧ names'.Typed L Γ := by
  induction h generalizing names ls with
  | nil =>
    simp only [params, pure_eq_ok, Prod.mk.injEq] at hc
    obtain ⟨-, rfl⟩ := hc
    exact ⟨hw, hn⟩
  | @cons p x rest rest' q _ _ ih =>
    simp only [params, bind_eq_ok, pure_eq_ok, Prod.exists, Prod.mk.injEq] at hc
    obtain ⟨given, names₁, hgive, ls, names₂, hls, rfl, rfl⟩ := hc
    obtain ⟨hx, hrest⟩ := List.forall_mem_cons.mp hf
    obtain ⟨hdx, hdrest⟩ := List.append_subset.mp hd
    obtain ⟨hg, hvrest⟩ := List.cons_subset.mp hv
    have hmem := hdx (List.mem_singleton_self _)
    have hn' := declare_typed hn hL hmem rfl hgive hg
    exact ih hrest hdrest (hw.extend hmem hx.type) hn' hls hvrest

structure Heads (methods : List (SymbolId × Text)) (f : Func Unit) (m : Target.Method) : Prop where
  entry : m.entry = decide (f.name = Typing.entryName)
  name : m.name = (methods.lookup (.func f.name)).getD []
  params : m.params.map Target.Local.type = f.params.map Param.type
  result : m.result = f.result

theorem method_heads {methods : List (SymbolId × Text)} {scope : Scope} {f : Func Unit}
    {f' : Func Note} {m : Target.Method} (h : FuncChecked scope f f')
    (hm : methodApart methods f' = .ok m) : Heads methods f m := by
  obtain ⟨hd, hname⟩ := h.defines
  simp only [methodApart, method, defined, hd, ok_bind, bind_eq_ok, pure_eq_ok, Prod.exists] at hm
  obtain ⟨_, _, ⟨ls, names, hls, body, names', -, hm⟩, rfl⟩ := hm
  cases hm
  obtain rfl := h.erased
  refine ⟨rfl, rfl, ?_, rfl⟩
  rw [params_types hls, Func.map, List.map_map]
  rfl

theorem symbols_nodup {fs : List (Func Unit)} {scope : Scope} {f : Func Unit} {f' : Func Note}
    (hfs : (fs.map Func.name).Nodup) (h : FuncChecked scope f f') :
    ((fs.map Typing.signature ++ f'.defines).map Symbol.id).Nodup := by
  have hids : (fs.map Typing.signature).map Symbol.id = (fs.map Func.name).map SymbolId.func := by
    rw [List.map_map, List.map_map]
    rfl
  rw [List.map_append, hids, List.nodup_append]
  refine ⟨hfs.map fun _ _ => SymbolId.func.inj, h.defines_nodup, ?_⟩
  intro id hf id' hv he
  obtain ⟨name, -, rfl⟩ := List.mem_map.mp hf
  obtain ⟨serial, rfl⟩ := h.defines_ids id' hv
  cases he

theorem globals_known {fs : List (Func Unit)} {methods : List (SymbolId × Text)}
    (hform : ∀ f ∈ fs, f.Formed P)
    (hm : ∀ f ∈ fs, f.name = Typing.entryName → f.params = [] ∧ f.result = .int)
    (hms : ∀ f ∈ fs, ∃ m ∈ Γ.methods, Heads methods f m) (hL : fs.map Typing.signature ⊆ L) :
    Scope.Known ⟨fs.map Typing.signature, []⟩ L Γ := by
  intro x hx
  obtain ⟨f, hf, rfl⟩ : ∃ f ∈ fs, Typing.signature f = x := by simpa [Scope.Sees] using hx
  refine ⟨hL (List.mem_map_of_mem hf), (hform f hf).result, ?_⟩
  intro params result hs hname
  cases hs
  obtain ⟨hparams, hresult⟩ := hm f hf hname
  obtain ⟨m, hmem, hhead⟩ := hms f hf
  exact ⟨by rw [hparams, List.map_nil], hresult, m, hmem, hhead.entry.trans (decide_eq_true hname)⟩

theorem methods_typed {fs : List (Func Unit)} {methods : List (SymbolId × Text)} {scope : Scope}
    {f : Func Unit} {f' : Func Note} (used : List Text) (hnames : MethodNames fs methods)
    (hms : ∀ f ∈ fs, ∃ m ∈ Γ.methods, Heads methods f m) (h : FuncChecked scope f f') :
    (Names.mk methods used).Typed (fs.map Typing.signature ++ f'.defines) Γ := by
  intro x hx given hg
  rcases List.mem_append.mp hx with hx | hx
  · obtain ⟨g, hgmem, rfl⟩ := List.mem_map.mp hx
    constructor
    · intro type hs
      cases hs
    · intro params result hs
      cases hs
      obtain ⟨m, hmem, hentry, hname, hparams, hresult⟩ := hms g hgmem
      have hgiven : m.name = given := by
        rw [hname]
        exact congrArg (Option.getD · []) hg
      exact ⟨m, hmem, hgiven, hparams, hresult, hentry⟩
  -- The variables of the function have no names yet.
  · obtain ⟨serial, hid⟩ := h.defines_ids x.id (List.mem_map_of_mem hx)
    rw [hid, hnames.var] at hg
    cases hg

theorem method_code {methods : List (SymbolId × Text)} {f : Func Note} {m : Target.Method}
    (h : methodApart methods f = .ok m) :
    ∃ names code names', params ⟨methods, Target.reserved ++ methods.map Prod.snd⟩ f.params =
        .ok (m.params, names) ∧ stmts names f.body = .ok (code, names') ∧
      (m.body = code ∨ m.body = code ++ [.ret (.default f.result)]) := by
  simp only [methodApart, method, bind_eq_ok, pure_eq_ok, Prod.exists] at h
  obtain ⟨_, _, ⟨x, -, ls, names, hls, code, names', hcode, hm⟩, rfl⟩ := h
  cases hm
  refine ⟨names, code, names', hls, hcode, ?_⟩
  dsimp only
  split
  · exact .inl rfl
  · exact .inr rfl

theorem method_typed {fs : List (Func Unit)} {methods : List (SymbolId × Text)}
    {ms : List Target.Method} {f : Func Unit} {f' : Func Note} {m : Target.Method}
    (hfs : (fs.map Func.name).Nodup) (hform : ∀ f ∈ fs, f.Formed P)
    (hentry : ∀ f ∈ fs, f.name = Typing.entryName → f.params = [] ∧ f.result = .int)
    (hnames : MethodNames fs methods) (hms : ∀ f ∈ fs, ∃ m ∈ ms, Heads methods f m) (hf : f ∈ fs)
    (h : FuncChecked ⟨fs.map Typing.signature, []⟩ f f') (hm : methodApart methods f' = .ok m)
    (hlocals : m.locals.Nodup) : MethodTyped ms f' m := by
  have hhead := method_heads h hm
  obtain ⟨names, code, names', hparams, hcode, hbody⟩ := method_code hm
  have hvars : Target.Stmt.declarationsAll code ⊆ m.declarations := by
    apply List.Subset.trans ?_ (List.subset_append_right _ _)
    rcases hbody with hbody | hbody
    · rw [hbody]
      exact List.Subset.refl _
    · rw [hbody, Target.Stmt.declarationsAll_append]
      exact List.subset_append_left _ _
  have hL := symbols_nodup hfs h
  have hknown : Scope.Known _ (fs.map Typing.signature ++ f'.defines) ⟨ms, m.declarations⟩ :=
    globals_known hform hentry hms (List.subset_append_left _ _)
  have hgiven : Names.Typed _ _ ⟨ms, m.declarations⟩ :=
    methods_typed (Target.reserved ++ methods.map Prod.snd) hnames hms h
  have hdefines : f'.defines ⊆ fs.map Typing.signature ++ f'.defines :=
    List.subset_append_right _ _
  have hresult : f'.result = f.result := by rw [← h.erased, Func.map]
  have hproper : f'.result.Proper := hresult ▸ (hform f hf).result
  have htypes : f'.params.map Param.type = f.params.map Param.type := by
    rw [← params_types hparams, hhead.params]
  have hcoded : StmtsTyped ⟨ms, m.declarations⟩ f'.result f'.body code := by
    cases h with
    | @mk xs body p q hp hb =>
      obtain ⟨hdp, hdb⟩ := List.append_subset.mp hdefines
      obtain ⟨hknown', hgiven'⟩ := params_typed hL hp (hform f hf).params hdp hknown.push hgiven
        hparams (List.subset_append_left _ _)
      have hcoded := stmts_typed hL hb hknown' (hform f hf).body hdb
      rw [hp.result] at hcoded
      exact (hcoded names names' code hgiven' hcode hvars).1
  refine ⟨hhead.result.trans hresult.symm, hhead.params.trans htypes.symm, ?_, ?_, code, hcoded, ?_⟩
  · intro he
    obtain ⟨hnone, hint⟩ := hentry f hf (of_decide_eq_true (hhead.entry.symm.trans he))
    exact ⟨List.map_eq_nil_iff.mp (by rw [hhead.params, hnone, List.map_nil]),
      hhead.result.trans hint⟩
  · rw [Target.Method.declarations_names]
    exact hlocals
  · exact hbody.imp_right fun hb => ⟨hb, .default hproper⟩

end Lowering

theorem Program.lower_typed {x : Program Unit} {a : Analysis} {ms : List Target.Method}
    (hform : x.Formed P) (h : x.analyze = .ok a) (hl : a.program.lower = .ok ms)
    (hlocals : ∀ m ∈ ms, m.locals.Nodup) :
    List.Forall₂ (MethodTyped ms) a.program.functions ms := by
  obtain ⟨hnodup, hentry, hg, -, hfs⟩ := Program.analyze_eq_ok.mp h
  rw [hg] at hfs
  rw [Program.lower_eq_lowerApart hform h] at hl
  simp only [Program.lowerApart, bind_eq_ok] at hl
  obtain ⟨methods, hmethods, hms⟩ := hl
  obtain ⟨_, hmethods', hids⟩ := Lowering.nameMethods_eq_ok (Program.analyze_defines h)
    (Target.reserved ++ (a.program.functions.map Func.name).filter (· ≠ Typing.entryName))
  obtain rfl := Except.ok.inj (hmethods.symm.trans hmethods')
  rw [Program.analyze_names h] at hids
  have hmade := mapM_eq_ok.mp hms
  have hheads : ∀ f ∈ x.functions, ∃ m ∈ ms, Lowering.Heads methods f m := by
    intro f hf
    obtain ⟨f', hf', hc⟩ := exists_of_forall₂ hfs hf
    obtain ⟨m, hm, hmethod⟩ := exists_of_forall₂ hmade hf'
    exact ⟨m, hm, Lowering.method_heads hc hmethod⟩
  refine List.forall₂_iff_zip.mpr ⟨hmade.length_eq, ?_⟩
  intro f' m hmem
  obtain ⟨hf', hm⟩ := List.of_mem_zip hmem
  obtain ⟨f, hf, hc⟩ := exists_of_forall₂ hfs.flip hf'
  exact Lowering.method_typed hnodup hform hentry (.of_ids hids) hheads hf hc
    ((List.forall₂_iff_zip.mp hmade).2 hmem) (hlocals m hm)

/-- The methods that a checked program is compiled to are well typed with the types that the checker
noted: no value becomes a string by itself, and the only conversion is from int to float. -/
theorem emitted_code_well_typed {source : Text} {a : Analysis} (h : check source = .ok a) :
    parse source = .ok (a.program.map fun _ => ()) ∧
      ∃ methods, a.program.lower = .ok methods ∧
        compile source = .ok (Target.renderFile methods) ∧
        (methods.map Target.Method.name).Nodup ∧
        List.Forall₂ (MethodTyped methods) a.program.functions methods := by
  obtain ⟨x, hx, ha⟩ := check_eq_ok.mp h
  have hform : x.Formed Token.WellSpelled := parse_formed hx (scan_wellSpelled source)
  obtain ⟨methods, hl, -⟩ := Program.lower_emitted hform ha
  have hform' := hform
  rw [← Program.analyze_erased ha, Program.formed_map] at hform'
  have hd : (a.program.functions.map Func.name).Nodup := by
    rw [Program.analyze_names ha]
    exact (Program.analyze_eq_ok.mp ha).1
  obtain ⟨-, hfree, -⟩ := Program.lowerApart_names hform' (Program.analyze_defines ha) hd
    ((Program.lower_eq_lowerApart hform ha).symm.trans hl)
  have hlocals : ∀ m ∈ methods, m.locals.Nodup := by
    intro m hm
    rw [← List.map_id m.locals]
    exact hfree.localsDistinct m hm
  refine ⟨?_, methods, hl, compile_of_check h (toCSharp_of_lower hl), hfree.methodsDistinct, ?_⟩
  · rw [Program.analyze_erased ha]
    exact hx
  · exact Program.lower_typed hform ha hl hlocals

/-- A number in a concatenation, an int for a float in a call and beside one in a division, a call of
the entry, and a loop whose step names a variable of its body. -/
def conversions : Text := Text.ofString
  "func half(x: float): float \x7b return x / 2; \x7d
  func main(): int \x7b
    for (;; k = main()) \x7b var k: int = 1; print(\"y \" + half(k)); \x7d
    return 0;
  \x7d"

theorem emitted_code_well_typed_conversions :
    ∃ a, check conversions = .ok a ∧
      parse conversions = .ok (a.program.map fun _ => ()) ∧
      ∃ methods, a.program.lower = .ok methods ∧
        compile conversions = .ok (Target.renderFile methods) ∧
        (methods.map Target.Method.name).Nodup ∧
        List.Forall₂ (MethodTyped methods) a.program.functions methods := by
  have hok : (check conversions).isOk := by
    rw [conversions, Text.ofString_ofList]
    decide +kernel
  obtain ⟨a, ha⟩ := exists_of_isOk hok
  exact ⟨a, ha, emitted_code_well_typed ha⟩

end MiniSharp
