import MiniSharp.Proofs.CheckedPlaces
import MiniSharp.Proofs.ParsedForms
import MiniSharp.Proofs.TypeRules

namespace MiniSharp

open Rules

variable {P : Token → Prop}

def Scope.frameOf (symbols : List Symbol) : Frame := symbols.map fun x => (x.name, x.sort)

def Scope.context (s : Scope) : Context := (s.symbols :: s.outer).map frameOf

theorem Scope.lookup_frameOf (name : Text) (symbols : List Symbol) :
    (frameOf symbols).lookup name = (find? name symbols).map Symbol.sort := by
  induction symbols with
  | nil => rfl
  | cons x rest ih =>
    unfold frameOf find? at ih ⊢
    rw [List.map_cons, List.lookup_cons, List.find?_cons, ih]
    by_cases h : name = x.name
    · rw [h, beq_self_eq_true, Option.map_some]
    · rw [beq_eq_false_iff_ne.mpr h, beq_eq_false_iff_ne.mpr (Ne.symm h)]

theorem Scope.means_frames {name : Text} {k : SymbolSort} (frames : List (List Symbol)) :
    Means (frames.map frameOf) name k ↔
      ∃ x, frames.findSome? (find? name) = some x ∧ x.sort = k := by
  induction frames with
  | nil =>
    constructor
    · intro h
      cases h
    · rintro ⟨x, h, -⟩
      simp at h
  | cons symbols rest ih =>
    rw [List.map_cons, List.findSome?_cons]
    have hl := lookup_frameOf name symbols
    cases hf : find? name symbols with
    | none =>
      rw [hf, Option.map_none] at hl
      constructor
      · rintro (⟨h⟩ | ⟨-, h⟩)
        · rw [hl] at h
          cases h
        · exact ih.mp h
      · intro h
        exact .outside hl (ih.mpr h)
    | some x =>
      rw [hf, Option.map_some] at hl
      constructor
      · rintro (⟨h⟩ | ⟨h, -⟩)
        · rw [hl, Option.some.injEq] at h
          exact ⟨x, rfl, h⟩
        · rw [hl] at h
          cases h
      · rintro ⟨y, hy, rfl⟩
        cases hy
        exact .here hl

theorem Scope.means_context {s : Scope} {name : Text} {k : SymbolSort} :
    Means s.context name k ↔ ∃ x, s.resolve? name = some x ∧ x.sort = k :=
  means_frames (s.symbols :: s.outer)

theorem Ty.isNumeric_iff {τ : Ty} : τ.isNumeric = true ↔ Numeric τ := by
  constructor
  · intro h
    cases τ with
    | int => exact .int
    | float => exact .float
    | _ => cases h
  · rintro (_ | _) <;> rfl

theorem Ty.accepts_iff {source target : Ty} : target.accepts source = true ↔ Fits source target := by
  simp only [accepts, Bool.or_eq_true, beq_iff_eq, Bool.and_eq_true]
  constructor
  · rintro (rfl | ⟨rfl, rfl⟩)
    · exact .same
    · exact .widened
  · rintro (_ | _)
    · exact .inl rfl
    · exact .inr ⟨rfl, rfl⟩

theorem Ty.joins_arithmetic {σ τ : Ty} (hσ : Numeric σ) (hτ : Numeric τ) :
    Joins σ τ (σ.arithmetic τ) := by
  cases hσ with
  | int =>
    cases hτ with
    | int => exact .ints
    | float => exact .floatRight .int
  | float => exact .floatLeft hτ

theorem Rules.Joins.operands {σ τ ρ : Ty} (h : Joins σ τ ρ) :
    Numeric σ ∧ Numeric τ ∧ ρ = σ.arithmetic τ := by
  cases h with
  | ints => exact ⟨.int, .int, rfl⟩
  | floatLeft hτ => exact ⟨.float, hτ, rfl⟩
  | floatRight hσ => exact ⟨hσ, .float, by simp [Ty.arithmetic]⟩

namespace Typing

theorem unaryType_eq_ok {t : Token} {op : TokenKind} {τ ρ : Ty} :
    unaryType t op τ = .ok ρ ↔ ∃ o, op = .operator o ∧ UnaryTyped o τ ρ := by
  constructor
  · intro h
    unfold unaryType at h
    split at h
    · split at h
      · next hn =>
        cases h
        exact ⟨.minus, rfl, .minus (Ty.isNumeric_iff.mp hn)⟩
      · cases h
    · split at h
      · next hb =>
        cases h
        exact ⟨.not, rfl, hb ▸ .not⟩
      · cases h
    · cases h
  · rintro ⟨o, rfl, h⟩
    cases h with
    | minus hn => simp [unaryType, Ty.isNumeric_iff.mpr hn]
    | not => rfl

theorem binaryType_sound {t : Token} {op : TokenKind} {σ τ ρ : Ty}
    (h : binaryType t op σ τ = .ok ρ) : ∃ o, op = .operator o ∧ BinaryTyped o σ τ ρ := by
  have numeric {a b : Ty} (hn : (a.isNumeric && b.isNumeric) = true) : Numeric a ∧ Numeric b := by
    rw [Bool.and_eq_true] at hn
    exact ⟨Ty.isNumeric_iff.mp hn.1, Ty.isNumeric_iff.mp hn.2⟩
  cases op with
  | operator o =>
    refine ⟨o, rfl, ?_⟩
    cases o <;> simp only [binaryType, violation] at h
    case plus =>
      split at h
      · next hs =>
        cases h
        rcases hs with rfl | rfl
        · exact .concatLeft
        · exact .concatRight
      · split at h
        · next hn =>
          cases h
          exact .arithmetic (by simp) (Ty.joins_arithmetic (numeric hn).1 (numeric hn).2)
        · cases h
    case minus | times | divide | modulo =>
      split at h
      · next hn =>
        cases h
        exact .arithmetic (by simp) (Ty.joins_arithmetic (numeric hn).1 (numeric hn).2)
      · cases h
    case equal | notEqual =>
      split at h
      · next hc =>
        cases h
        simp only [Ty.comparable, Bool.or_eq_true, Bool.and_eq_true (_ == _), beq_iff_eq] at hc
        rcases hc with hn | ⟨rfl, -⟩
        · exact .equalNumbers (by simp) (numeric hn).1 (numeric hn).2
        · exact .equalTypes (by simp)
      · cases h
    case less | greater | lessEqual | greaterEqual =>
      split at h
      · next hn =>
        cases h
        exact .ordering (by simp) (numeric hn).1 (numeric hn).2
      · cases h
    case and | or =>
      split at h
      · next hb =>
        cases h
        obtain ⟨rfl, rfl⟩ := hb
        exact .logic (by simp)
      · cases h
    case not => cases h
  | _ => cases h

theorem binaryType_complete {o : Operator} {σ τ ρ : Ty} (t : Token) (h : BinaryTyped o σ τ ρ)
    (hσ : σ.Proper) : binaryType t (.operator o) σ τ = .ok ρ := by
  have numeric {a : Ty} (hn : Numeric a) : a.isNumeric = true := Ty.isNumeric_iff.mpr hn
  cases h with
  | concatLeft => simp [binaryType]
  | concatRight => simp [binaryType]
  | arithmetic hop hj =>
    obtain ⟨hl, hr, rfl⟩ := hj.operands
    have hs : ¬(σ = .string ∨ τ = .string) := by
      rintro (rfl | rfl)
      · cases hl
      · cases hr
    simp only [List.mem_cons, List.not_mem_nil, or_false] at hop
    rcases hop with rfl | rfl | rfl | rfl | rfl <;>
      simp only [binaryType, numeric hl, numeric hr, hs, Bool.and_self, ↓reduceIte]
  | equalNumbers hop hl hr =>
    simp only [List.mem_cons, List.not_mem_nil, or_false] at hop
    rcases hop with rfl | rfl <;> simp [binaryType, Ty.comparable, numeric hl, numeric hr]
  | equalTypes hop =>
    -- The checker compares no values without a type; the rules need not say so.
    have hne : σ ≠ .invalid := by
      rintro rfl
      exact hσ
    simp only [List.mem_cons, List.not_mem_nil, or_false] at hop
    rcases hop with rfl | rfl <;> simp [binaryType, Ty.comparable, hne]
  | ordering hop hl hr =>
    simp only [List.mem_cons, List.not_mem_nil, or_false] at hop
    rcases hop with rfl | rfl | rfl | rfl <;> simp [binaryType, numeric hl, numeric hr]
  | logic hop =>
    simp only [List.mem_cons, List.not_mem_nil, or_false] at hop
    rcases hop with rfl | rfl <;> simp [binaryType]

mutual

theorem ExprChecked.sound {scope : Scope} {e : Expr Unit} {τ : Ty} {e' : Expr Note} :
    ExprChecked scope e τ e' → HasType scope.context e τ
  | .literal => .literal
  | .ident hx hs => .ident (Scope.means_context.mpr ⟨_, hx, hs⟩)
  | .call hx hs ha => .call (Scope.means_context.mpr ⟨_, hx, hs⟩) ha.sound
  | .unary ho ht => by
    obtain ⟨o, rfl, hop⟩ := unaryType_eq_ok.mp ht
    exact .unary ho.sound hop
  | .binary hl hr ht => by
    obtain ⟨o, rfl, hop⟩ := binaryType_sound ht
    exact .binary hl.sound hr.sound hop

theorem ArgsChecked.sound {scope : Scope} {params : List Ty} {args : List (Expr Unit)}
    {args' : List (Expr Note)} :
    ArgsChecked scope params args args' → ArgsTyped scope.context args params
  | .nil => .nil
  | .cons he ha hs => .cons he.sound (Ty.accepts_iff.mp ha) hs.sound

end

theorem ExprChecked.fitsIn {scope : Scope} {e : Expr Unit} {found expected : Ty} {e' : Expr Note}
    (h : ExprChecked scope e found e') (ha : expected.accepts found = true) :
    FitsIn scope.context e expected :=
  ⟨found, h.sound, Ty.accepts_iff.mp ha⟩

theorem Place.context_extend (p : Place) (t : Token) (name : Text) (type : Ty) :
    (p.extend (p.symbol t name type)).scope.context =
      (Scope.frameOf p.scope.symbols ++ [(name, .var type)]) :: p.scope.outer.map Scope.frameOf := by
  simp [Place.extend, Scope.context, Scope.frameOf, Place.symbol]

theorem Place.lookup_frame {p : Place} {name : Text} :
    (Scope.frameOf p.scope.symbols).lookup name = none ↔ p.scope.lookup? name = none := by
  rw [Scope.lookup_frameOf, Option.map_eq_none_iff]
  rfl

theorem declare_sound {p : Place} {t : Token} {name : Text} {type : Ty} {value : Option (Expr Unit)}
    (hv : ∀ e ∈ value, FitsIn p.scope.context e type) (hl : p.scope.lookup? name = none) :
    StmtTyped p.result p.scope.context (.declare () t name type value)
      (p.extend (p.symbol t name type)).scope.context := by
  rw [Place.context_extend]
  exact .declare hv (Place.lookup_frame.mpr hl)

mutual

theorem StmtChecked.sound {p p' : Place} {s : Stmt Unit} {s' : Stmt Note} :
    StmtChecked p s s' p' → StmtTyped p.result p.scope.context s p'.scope.context
  | .declare hl => declare_sound (by simp) hl
  | .declareWith hv ha hl => declare_sound (by simpa using hv.fitsIn ha) hl
  | .assign hx hs hv ha => .assign (Scope.means_context.mpr ⟨_, hx, hs⟩) (hv.fitsIn ha)
  | .input hx hs => .input (Scope.means_context.mpr ⟨_, hx, hs⟩)
  | .print hv => .print hv.sound
  | .evaluate hv => .evaluate hv.sound
  | .ret hv ha => .ret (hv.fitsIn ha)
  | .ifThen hc hb => .ifThen hc.sound hb.sound
  | .ifElse hc hb he => .ifElse hc.sound hb.sound he.sound
  | .whileDo hc hb => .whileDo hc.sound hb.sound
  | @StmtChecked.forDo p t init init' started cond cond' body body' looped _ _ _ _ hi hc hb hs => by
    have hstarted : started.result = p.result := hi.later.result
    have hlooped : looped.result = p.result := hb.later.result.trans hstarted
    have hcond : ∀ e ∈ cond, HasType started.scope.context e .bool := by
      cases hc with
      | none => simp
      | some he => simpa using he.sound
    exact .forDo hi.sound hcond (hstarted ▸ hb.sound) (hlooped ▸ hs.sound)
  | .block hb => .block hb.sound

theorem ClauseChecked.sound {p p' : Place} {o : Option (Stmt Unit)} {o' : Option (Stmt Note)} :
    ClauseChecked p o o' p' → OptTyped p.result p.scope.context o p'.scope.context
  | .none => .none
  | .some hs => .some hs.sound

theorem StmtsChecked.sound {p p' : Place} {ss : List (Stmt Unit)} {ss' : List (Stmt Note)} :
    StmtsChecked p ss ss' p' → StmtsTyped p.result p.scope.context ss p'.scope.context
  | .nil => .nil
  | .cons hs hr => .cons hs.sound (hs.later.result ▸ hr.sound)

end

theorem ParamsChecked.result {p p' : Place} {xs : List (Param Unit)} {xs' : List (Param Note)}
    (h : ParamsChecked p xs xs' p') : p'.result = p.result := by
  induction h with
  | nil => rfl
  | cons _ _ ih => exact ih

theorem ParamsChecked.sound {p p' : Place} {xs : List (Param Unit)} {xs' : List (Param Note)}
    (h : ParamsChecked p xs xs' p') :
    (xs.map Param.name).Nodup ∧ (∀ x ∈ xs, p.scope.lookup? x.name = none) ∧
      p'.scope.context = (Scope.frameOf p.scope.symbols ++ paramFrame xs) ::
        p.scope.outer.map Scope.frameOf := by
  induction h with
  | nil => exact ⟨List.nodup_nil, by simp, by simp [paramFrame, Scope.context]⟩
  | @cons p x rest rest' q hl _ ih =>
    obtain ⟨hn, hfresh, hctx⟩ := ih
    simp only [Place.lookup?_extend] at hfresh
    refine ⟨List.nodup_cons.mpr ⟨?_, hn⟩, List.forall_mem_cons.mpr ⟨hl, fun z hz =>
      (hfresh z hz).1⟩, ?_⟩
    · intro hmem
      obtain ⟨z, hz, he⟩ := List.mem_map.mp hmem
      exact (hfresh z hz).2 he.symm
    · rw [hctx]
      simp [Place.extend, Place.symbol, Scope.frameOf, paramFrame]

theorem FuncChecked.sound {global : Scope} (hg : global.outer = []) {f : Func Unit}
    {f' : Func Note} (h : FuncChecked global f f') :
    FuncTyped (Scope.frameOf global.symbols) f := by
  cases h with
  | @mk params' body' p q hp hb =>
    obtain ⟨hn, -, hctx⟩ := hp.sound
    have hbody := hb.sound
    rw [hctx, hp.result] at hbody
    refine ⟨hn, q.scope.context, ?_⟩
    simpa [Scope.push, Scope.frameOf, hg] using hbody

end Typing

def SymbolSort.Proper : SymbolSort → Prop
  | var type => type.Proper
  | func _ result => result.Proper

namespace Rules

def ProperContext (Γ : Context) : Prop := ∀ frame ∈ Γ, ∀ p ∈ frame, p.2.Proper

theorem Means.proper {Γ : Context} {x : Text} {k : SymbolSort} (h : Means Γ x k)
    (hΓ : ProperContext Γ) : k.Proper := by
  induction h with
  | @here frame outer x k hl =>
    obtain ⟨before, after, rfl, -⟩ := List.lookup_eq_some_iff.mp hl
    exact hΓ _ List.mem_cons_self (x, k) (by simp)
  | outside _ _ ih => exact ih fun frame hf => hΓ frame (List.mem_cons_of_mem _ hf)

theorem Numeric.proper {τ : Ty} (h : Numeric τ) : τ.Proper := by
  cases h <;> trivial

theorem Joins.proper {σ τ ρ : Ty} (h : Joins σ τ ρ) : ρ.Proper := by
  cases h <;> trivial

theorem UnaryTyped.proper {o : Operator} {τ ρ : Ty} (h : UnaryTyped o τ ρ) : ρ.Proper := by
  cases h with
  | minus hn => exact hn.proper
  | not => trivial

theorem BinaryTyped.proper {o : Operator} {σ τ ρ : Ty} (h : BinaryTyped o σ τ ρ) : ρ.Proper := by
  cases h with
  | arithmetic _ hj => exact hj.proper
  | _ => trivial

end Rules

theorem Rules.HasType.proper {Γ : Context} {e : Expr Unit} {τ : Ty} (h : HasType Γ e τ)
    (hΓ : ProperContext Γ) (he : e.Formed P) : τ.Proper := by
  cases h with
  | literal => exact Parser.literal?_proper he.2
  | ident hx => exact hx.proper hΓ
  | call hf _ => exact hf.proper hΓ
  | unary _ hop => exact hop.proper
  | binary _ _ hop => exact hop.proper

namespace Rules

open Typing

mutual

theorem HasType.checked {scope : Scope} {Γ : Context} {e : Expr Unit} {τ : Ty}
    (hΓ : scope.context = Γ) (hp : ProperContext Γ) : HasType Γ e τ → e.Formed P →
      ∃ e', ExprChecked scope e τ e'
  | .literal, _ => ⟨_, .literal⟩
  | .ident hx, _ => by
    obtain ⟨x, hr, hv⟩ := Scope.means_context.mp (hΓ ▸ hx)
    exact ⟨_, .ident hr hv⟩
  | .call hf ha, he => by
    obtain ⟨x, hr, hv⟩ := Scope.means_context.mp (hΓ ▸ hf)
    obtain ⟨args', hargs⟩ := ha.checked hΓ hp he.2
    exact ⟨_, .call hr hv hargs⟩
  | .unary ho hop, he => by
    obtain ⟨operand', ho⟩ := ho.checked hΓ hp he.2.2.2
    exact ⟨_, .unary ho (unaryType_eq_ok.mpr ⟨_, rfl, hop⟩)⟩
  | .binary hl hr hop, he => by
    obtain ⟨-, -, -, hlf, hrf⟩ := he
    have hσ := hl.proper hp hlf
    obtain ⟨left', hl⟩ := hl.checked hΓ hp hlf
    obtain ⟨right', hr⟩ := hr.checked hΓ hp hrf
    exact ⟨_, .binary hl hr (binaryType_complete _ hop hσ)⟩

theorem ArgsTyped.checked {scope : Scope} {Γ : Context} {args : List (Expr Unit)}
    {params : List Ty} (hΓ : scope.context = Γ) (hp : ProperContext Γ) :
    ArgsTyped Γ args params → Expr.AllFormed P args → ∃ args', ArgsChecked scope params args args'
  | .nil, _ => ⟨[], .nil⟩
  | .cons he hfit hs, hf => by
    obtain ⟨arg', he⟩ := he.checked hΓ hp hf.1
    obtain ⟨args', hs⟩ := hs.checked hΓ hp hf.2
    exact ⟨_, .cons he (Ty.accepts_iff.mpr hfit) hs⟩

end

structure Stands (result : Ty) (Γ : Context) (p : Typing.Place) : Prop where
  result : p.result = result
  context : p.scope.context = Γ
  proper : ProperContext Γ

namespace Stands

variable {result : Ty} {Γ : Context} {p : Typing.Place}

theorem inner (h : Stands result Γ p) : Stands result ([] :: Γ) p.inner :=
  ⟨h.result, congrArg _ h.context, List.forall_mem_cons.mpr ⟨by simp, h.proper⟩⟩

theorem leave (h : Stands result Γ p) (inside : Typing.Place) : Stands result Γ (p.leave inside) :=
  ⟨h.result, h.context, h.proper⟩

theorem extend {frame : Frame} {outer : Context} (h : Stands result (frame :: outer) p) {type : Ty}
    (ht : type.Proper) (t : Token) (name : Text) :
    Stands result ((frame ++ [(name, .var type)]) :: outer) (p.extend (p.symbol t name type)) := by
  obtain ⟨hr, hΓ, hp⟩ := h
  obtain ⟨rfl, rfl⟩ := List.cons.inj hΓ
  obtain ⟨hf, ho⟩ := List.forall_mem_cons.mp hp
  refine ⟨hr, Typing.Place.context_extend p t name type, List.forall_mem_cons.mpr ⟨?_, ho⟩⟩
  exact List.forall_mem_append.mpr ⟨hf, List.forall_mem_singleton.mpr ht⟩

theorem unused {frame : Frame} {outer : Context} (h : Stands result (frame :: outer) p) {name : Text}
    (hl : frame.lookup name = none) : p.scope.lookup? name = none := by
  obtain ⟨rfl, -⟩ := List.cons.inj h.context
  exact Typing.Place.lookup_frame.mp hl

theorem checked (h : Stands result Γ p) {e : Expr Unit} {τ : Ty} (he : HasType Γ e τ)
    (hf : e.Formed P) : ∃ e', ExprChecked p.scope e τ e' :=
  he.checked h.context h.proper hf

theorem fitted (h : Stands result Γ p) {e : Expr Unit} {target : Ty} (he : FitsIn Γ e target)
    (hf : e.Formed P) :
    ∃ found e', ExprChecked p.scope e found e' ∧ target.accepts found = true := by
  obtain ⟨τ, hτ, hfit⟩ := he
  obtain ⟨e', he'⟩ := h.checked hτ hf
  exact ⟨τ, e', he', Ty.accepts_iff.mpr hfit⟩

theorem conditions (h : Stands result Γ p) {o : Option (Expr Unit)}
    (ho : ∀ e ∈ o, HasType Γ e .bool) (hf : ∀ e ∈ o, e.Formed P) :
    ∃ o', Option.Rel (fun e => ExprChecked p.scope e .bool) o o' := by
  cases o with
  | none => exact ⟨none, .none⟩
  | some e =>
    obtain ⟨e', he⟩ := h.checked (ho e rfl) (hf e rfl)
    exact ⟨some e', .some he⟩

end Stands

mutual

theorem StmtTyped.checked {result : Ty} {Γ Δ : Context} {s : Stmt Unit} {p : Typing.Place} :
    StmtTyped result Γ s Δ → s.Formed P → Stands result Γ p →
      ∃ s' q, StmtChecked p s s' q ∧ Stands result Δ q
  | @StmtTyped.declare _ frame outer u t x type none _ hl, hs, h =>
    ⟨_, _, .declare (h.unused hl), h.extend hs.2.1 t x⟩
  | @StmtTyped.declare _ frame outer u t x type (some value) hv hl, hs, h => by
    obtain ⟨found, value', hv', ha⟩ := h.fitted (hv value rfl) (hs.2.2 value rfl)
    exact ⟨_, _, .declareWith hv' ha (h.unused hl), h.extend hs.2.1 t x⟩
  | .assign hx hv, hs, h => by
    obtain ⟨x, hr, hvar⟩ := Scope.means_context.mp (h.context ▸ hx)
    obtain ⟨found, value', hv', ha⟩ := h.fitted hv hs.2
    exact ⟨_, _, .assign hr hvar hv' ha, h⟩
  | .input hx, _, h => by
    obtain ⟨x, hr, hvar⟩ := Scope.means_context.mp (h.context ▸ hx)
    exact ⟨_, _, .input hr hvar, h⟩
  | .print hv, hs, h => by
    obtain ⟨value', hv'⟩ := h.checked hv hs.2
    exact ⟨_, _, .print hv', h⟩
  | .evaluate hv, hs, h => by
    obtain ⟨value', hv'⟩ := h.checked hv hs.2
    exact ⟨_, _, .evaluate hv', h⟩
  | .ret hv, hs, h => by
    obtain ⟨found, value', hv', ha⟩ := h.fitted hv hs.2
    exact ⟨_, _, .ret hv' (h.result ▸ ha), h⟩
  | .ifThen hc hb, hs, h => by
    obtain ⟨-, hcf, -, hbf⟩ := hs
    obtain ⟨cond', hc'⟩ := h.checked hc hcf
    obtain ⟨body', inside, hb', -⟩ := hb.checked hbf h.inner
    exact ⟨_, _, .ifThen hc' hb', h.leave inside⟩
  | .ifElse hc hb he, hs, h => by
    obtain ⟨-, hcf, -, hbf, -, hef⟩ := hs
    obtain ⟨cond', hc'⟩ := h.checked hc hcf
    obtain ⟨body', inside, hb', -⟩ := hb.checked hbf h.inner
    obtain ⟨elseBody', elseInside, he', -⟩ := he.checked hef (h.leave inside).inner
    exact ⟨_, _, .ifElse hc' hb' he', h.leave elseInside⟩
  | .whileDo hc hb, hs, h => by
    obtain ⟨-, hcf, -, hbf⟩ := hs
    obtain ⟨cond', hc'⟩ := h.checked hc hcf
    obtain ⟨body', inside, hb', -⟩ := hb.checked hbf h.inner
    exact ⟨_, _, .whileDo hc' hb', h.leave inside⟩
  | .forDo hi hc hb hst, hs, h => by
    obtain ⟨-, -, hif, hcf, -, hsf, -, hbf⟩ := hs
    obtain ⟨init', started, hi', hstarted⟩ := hi.checked hif h.inner
    obtain ⟨cond', hc'⟩ := hstarted.conditions hc hcf
    obtain ⟨body', looped, hb', hlooped⟩ := hb.checked hbf hstarted
    obtain ⟨step', stepped, hst', -⟩ := hst.checked hsf hlooped
    exact ⟨_, _, .forDo hi' hc' hb' hst', h.leave stepped⟩
  | .block hb, hs, h => by
    obtain ⟨body', inside, hb', -⟩ := hb.checked hs.2 h.inner
    exact ⟨_, _, .block hb', h.leave inside⟩

theorem OptTyped.checked {result : Ty} {Γ Δ : Context} {o : Option (Stmt Unit)} {p : Typing.Place} :
    OptTyped result Γ o Δ → Stmt.OptFormed P o → Stands result Γ p →
      ∃ o' q, ClauseChecked p o o' q ∧ Stands result Δ q
  | .none, _, h => ⟨_, _, .none, h⟩
  | .some hs, hf, h => by
    obtain ⟨s', q, hs', hq⟩ := hs.checked hf h
    exact ⟨_, q, .some hs', hq⟩

theorem StmtsTyped.checked {result : Ty} {Γ Δ : Context} {ss : List (Stmt Unit)} {p : Typing.Place} :
    StmtsTyped result Γ ss Δ → Stmt.AllFormed P ss → Stands result Γ p →
      ∃ ss' q, StmtsChecked p ss ss' q ∧ Stands result Δ q
  | .nil, _, h => ⟨_, _, .nil, h⟩
  | .cons hs hr, hf, h => by
    obtain ⟨s', q, hs', hq⟩ := hs.checked hf.1 h
    obtain ⟨rest', r, hr', hr''⟩ := hr.checked hf.2 hq
    exact ⟨_, r, .cons hs' hr', hr''⟩

end

theorem params_checked_of_nodup {result : Ty} {frame : Frame} {outer : Context} {p : Typing.Place}
    {xs : List (Param Unit)} (h : Stands result (frame :: outer) p) (hf : ∀ x ∈ xs, x.Formed P)
    (hn : (xs.map Param.name).Nodup) (hfresh : ∀ x ∈ xs, p.scope.lookup? x.name = none) :
    ∃ xs' q, ParamsChecked p xs xs' q ∧ Stands result ((frame ++ paramFrame xs) :: outer) q := by
  induction xs generalizing p frame with
  | nil => exact ⟨[], p, .nil, by simpa [paramFrame] using h⟩
  | cons x rest ih =>
    obtain ⟨hx, hn⟩ := List.nodup_cons.mp hn
    obtain ⟨hl, hfresh⟩ := List.forall_mem_cons.mp hfresh
    obtain ⟨hxf, hf⟩ := List.forall_mem_cons.mp hf
    have hrest : ∀ y ∈ rest,
        (p.extend (p.symbol x.token x.name x.type)).scope.lookup? y.name = none := by
      intro y hy
      refine Typing.Place.lookup?_extend.mpr ⟨hfresh y hy, ?_⟩
      intro he
      exact hx (List.mem_map.mpr ⟨y, hy, he.symm⟩)
    obtain ⟨rest', q, hq, hstands⟩ := ih (h.extend hxf.type x.token x.name) hf hn hrest
    refine ⟨_, q, .cons hl hq, ?_⟩
    rwa [List.append_assoc] at hstands

theorem FuncTyped.checked {global : Scope} {globals : Frame} (hg : global.context = [globals])
    (hp : ProperContext [globals]) {f : Func Unit} (hf : f.Formed P) (h : FuncTyped globals f) :
    ∃ f', FuncChecked global f f' := by
  obtain ⟨hn, after, hbody⟩ := h
  have hstart : Stands f.result [[], globals] ⟨f.name, f.result, global.push, 0⟩ :=
    ⟨rfl, congrArg _ hg, List.forall_mem_cons.mpr ⟨by simp, hp⟩⟩
  obtain ⟨params', p, hparams, hstands⟩ :=
    params_checked_of_nodup hstart hf.params hn fun _ _ => rfl
  obtain ⟨body', q, hbody', -⟩ := hbody.checked hf.body hstands
  exact ⟨_, .mk hparams hbody'⟩

end Rules

theorem Typing.frameOf_signatures (x : Program Unit) :
    Scope.frameOf (x.functions.map signature) = signatures x := by
  simp [Scope.frameOf, signatures, signature]

theorem Program.signatures_proper {x : Program Unit} (hx : x.Formed P) :
    ProperContext [signatures x] := by
  refine List.forall_mem_singleton.mpr ?_
  intro y hy
  obtain ⟨f, hf, rfl⟩ := List.mem_map.mp hy
  exact (hx f hf).result

theorem Program.wellTyped_of_analyze {x : Program Unit} {a : Analysis} (h : x.analyze = .ok a) :
    WellTyped x := by
  obtain ⟨hn, hm, hg, -, hfs⟩ := analyze_eq_ok.mp h
  refine ⟨hn, hm, ?_⟩
  intro f hmem
  obtain ⟨f', -, hf⟩ := exists_of_forall₂ hfs hmem
  rw [← Typing.frameOf_signatures]
  rw [hg] at hf
  exact hf.sound rfl

theorem Program.analyze_of_wellTyped {x : Program Unit} (hx : x.Formed P) (h : WellTyped x) :
    ∃ a, x.analyze = .ok a := by
  obtain ⟨hn, hm, hfs⟩ := h
  let global : Scope := ⟨x.functions.map Typing.signature, []⟩
  have hglobal : global.context = [signatures x] :=
    congrArg (fun frame => [frame]) (Typing.frameOf_signatures x)
  have hall : ∀ f ∈ x.functions, ∃ f', Typing.function global f = .ok f' ∧
      Typing.FuncChecked global f f' := by
    intro f hf
    obtain ⟨f', hf'⟩ := (hfs f hf).checked hglobal (signatures_proper hx) (hx f hf)
    exact ⟨f', Typing.function_checked.mpr hf', hf'⟩
  obtain ⟨functions, -, hf⟩ := exists_mapM hall
  exact ⟨⟨global, x.token, functions⟩, analyze_eq_ok.mpr ⟨hn, hm, rfl, rfl, hf⟩⟩

/-- Checking a source that can be read succeeds exactly if the type rules admit its program. -/
theorem analyze_succeeds_iff_wellTyped {source : Text} {x : Program Unit}
    (h : parse source = .ok x) : (∃ a, x.analyze = .ok a) ↔ WellTyped x := by
  constructor
  · rintro ⟨a, ha⟩
    exact Program.wellTyped_of_analyze ha
  · exact Program.analyze_of_wellTyped (parse_formed h fun _ ht => ht)

def widened : Text := Text.ofString
  "func half(x: float): float \x7b return x / 2; \x7d
  func main(): int \x7b
    for (var y: float = 1; y < half(9); y = y + step) \x7b var step: int = 2; \x7d
    return 0;
  \x7d"

def selfInitialized : Text := Text.ofString
  "func main(): int \x7b var x: int = x; return 0; \x7d"

theorem analyze_succeeds_iff_wellTyped_samples :
    (∃ x, parse widened = .ok x ∧ WellTyped x) ∧
      ∃ x, parse selfInitialized = .ok x ∧ ¬ WellTyped x := by
  have hok : (check widened).isOk := by decide +kernel
  have hread : (parse selfInitialized).isOk := by decide +kernel
  have hbad : (check selfInitialized).isOk = false := by decide +kernel
  constructor
  · obtain ⟨a, ha⟩ := exists_of_isOk hok
    obtain ⟨x, hx, ha⟩ := check_eq_ok.mp ha
    exact ⟨x, hx, (analyze_succeeds_iff_wellTyped hx).mp ⟨a, ha⟩⟩
  · obtain ⟨x, hx⟩ := exists_of_isOk hread
    refine ⟨x, hx, fun hw => ?_⟩
    obtain ⟨a, ha⟩ := (analyze_succeeds_iff_wellTyped hx).mpr hw
    rw [check_eq_ok.mpr ⟨x, hx, ha⟩] at hbad
    cases hbad

end MiniSharp
