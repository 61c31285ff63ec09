import MiniSharp.Analysis.Damage
import MiniSharp.Proofs.GivenNames
import MiniSharp.Proofs.TwinLowering

/-!
Programs whose notes are damaged: parts of them are lost, and uses refer to symbols that nothing
defines. Such a program is lowered to the code of the intact one or not at all. What is lost is
either read later, and then lowering stops there, or of no influence. The form of a loop is chosen
by looking for uses without asking for them; a use that is not found there is missed when the step
is lowered.
-/

namespace MiniSharp

open Typing (ExprChecked ArgsChecked StmtChecked ClauseChecked StmtsChecked ParamsChecked
  FuncChecked)

/-- The second computation stops, or both give the same result, which has `Q`. -/
def Keeps {ε α : Type} (Q : α → Prop) (x y : Except ε α) : Prop := ∀ a, y = .ok a → x = .ok a ∧ Q a

namespace Keeps

variable {ε α β : Type} {Q : α → Prop} {S : β → Prop}

theorem ok {a : α} (h : Q a) : Keeps Q (.ok a : Except ε α) (.ok a) := by
  intro b hb
  cases hb
  exact ⟨rfl, h⟩

theorem error (x : Except ε α) (e : ε) : Keeps Q x (.error e) := by
  intro a ha
  cases ha

theorem same {x : Except ε α} (h : ∀ a, x = .ok a → Q a) : Keeps Q x x := fun a ha => ⟨ha, h a ha⟩

theorem refl (x : Except ε α) : Keeps (fun _ => True) x x := same fun _ _ => trivial

theorem bind {x y : Except ε α} {f g : α → Except ε β} (h : Keeps Q x y)
    (hf : ∀ a, Q a → Keeps S (f a) (g a)) : Keeps S (x >>= f) (y >>= g) := by
  intro b hb
  obtain ⟨a, ha, hb⟩ := bind_eq_ok.mp hb
  obtain ⟨hx, hq⟩ := h a ha
  obtain ⟨hb', hs⟩ := hf a hq b hb
  exact ⟨bind_eq_ok.mpr ⟨a, hx, hb'⟩, hs⟩

theorem ite {c : Prop} [Decidable c] {x x' y y' : Except ε α} (h : Keeps Q x y)
    (h' : Keeps Q x' y') : Keeps Q (if c then x else x') (if c then y else y') := by
  split
  · exact h
  · exact h'

end Keeps

variable {R : TokenPairing} {fresh : SymbolId → Prop}

/-- What is left of a note. Its parts are kept or lost; a use may refer to a fresh symbol instead,
and no declaration defines one. -/
structure Note.Damaged (fresh : SymbolId → Prop) (n n' : Note) : Prop where
  type : n'.type = n.type ∨ n'.type = .none
  defines : n'.defines = n.defines ∨ n'.defines = .none
  refers : n'.refers = n.refers ∨ n'.refers = .none ∨ ∃ x, n'.refers = some x ∧ fresh x.id
  input : n'.input = n.input ∨ n'.input = .none
  declared : ∀ x, n'.defines = some x → ¬fresh x.id

def Scope.Sorted (s : Scope) : Prop := ∀ x, s.Sees x → ∀ params result,
  x.sort = .func params result →
    (∀ f k, x.id ≠ .var f k) ∧ (x.name = Typing.entryName → params = [])

namespace Typing

variable {p q : Place}

theorem Place.sorted_extend (h : p.scope.Sorted) (t : Token) (name : Text) (type : Ty) :
    (p.extend (p.symbol t name type)).scope.Sorted := by
  intro x hx params result hs
  obtain hx | rfl := Place.sees_extend.mp hx
  · exact h x hx params result hs
  · cases hs

theorem Place.sorted_inner (h : p.scope.Sorted) : p.inner.scope.Sorted :=
  fun x hx => h x (Scope.sees_push.mp hx)

theorem StmtChecked.sorted {s : Stmt Unit} {s' : Stmt Note} (h : StmtChecked p s s' q)
    (hp : p.scope.Sorted) : q.scope.Sorted := by
  cases h with
  | declare => exact Place.sorted_extend hp _ _ _
  | declareWith => exact Place.sorted_extend hp _ _ _
  | _ => exact hp

theorem ClauseChecked.sorted {o : Option (Stmt Unit)} {o' : Option (Stmt Note)}
    (h : ClauseChecked p o o' q) (hp : p.scope.Sorted) : q.scope.Sorted := by
  cases h with
  | none => exact hp
  | some hs => exact hs.sorted hp

theorem StmtsChecked.sorted {ss : List (Stmt Unit)} {ss' : List (Stmt Note)}
    (h : StmtsChecked p ss ss' q) (hp : p.scope.Sorted) : q.scope.Sorted := by
  induction ss generalizing p ss' with
  | nil =>
    cases h
    exact hp
  | cons s rest ih =>
    cases h with
    | cons hs hr => exact ih hr (hs.sorted hp)

theorem ParamsChecked.sorted {xs : List (Param Unit)} {xs' : List (Param Note)}
    (h : ParamsChecked p xs xs' q) (hp : p.scope.Sorted) : q.scope.Sorted := by
  induction h with
  | nil => exact hp
  | cons _ _ ih => exact ih (Place.sorted_extend hp _ _ _)

end Typing

namespace Lowering

variable {names : Names} {n n' : Note}

def Clear (fresh : SymbolId → Prop) (given : List (SymbolId × Text)) : Prop :=
  ∀ id, fresh id → given.lookup id = none

theorem Clear.cons {given : List (SymbolId × Text)} (h : Clear fresh given) {x : Symbol}
    (hx : ¬fresh x.id) (name : Text) : Clear fresh ((x.id, name) :: given) := by
  intro id hid
  have hne : id ≠ x.id := fun he => hx (he ▸ hid)
  rw [List.lookup_cons, beq_false_of_ne hne]
  exact h id hid

theorem defined_keeps (h : n.Damaged fresh n') (name : Text) :
    Keeps (fun x => ¬fresh x.id) (defined n name) (defined n' name) := by
  intro x hx
  unfold defined at hx
  split at hx
  · next y hy =>
    cases hx
    have hdefines := h.defines.resolve_right (by rw [hy]; exact Option.some_ne_none _)
    exact ⟨by rw [defined, ← hdefines, hy], h.declared x hy⟩
  · cases hx

theorem refers_of_givenName {given : Text} (h : n.Damaged fresh n') (hc : Clear fresh names.given)
    {name : Text} (hg : givenName names n' name = .ok given) : n'.refers = n.refers := by
  obtain hr | hr | ⟨x, hr, hx⟩ := h.refers
  · exact hr
  · rw [givenName, hr] at hg
    cases hg
  · simp only [givenName, hr, hc x.id hx] at hg
    cases hg

theorem givenName_keeps (h : n.Damaged fresh n') (hc : Clear fresh names.given) (name : Text) :
    Keeps (fun _ => True) (givenName names n name) (givenName names n' name) := by
  intro given hg
  refine ⟨?_, trivial⟩
  rw [givenName, refers_of_givenName h hc hg] at hg
  exact hg

theorem knownType_keeps {e e' : Expr Note} (h : Expr.Twin R (Note.Damaged fresh) e e') :
    Keeps (fun _ => True) (knownType e) (knownType e') := by
  have hn := note?_twin h
  intro type ht
  refine ⟨?_, trivial⟩
  unfold knownType at ht ⊢
  generalize e.note? = n at hn
  generalize e'.note? = n' at hn ht
  cases hn with
  | none => cases ht
  | some hn =>
    rw [Option.bind_some] at ht ⊢
    obtain htype | htype := hn.type
    · rw [htype] at ht
      split at ht
      · exact ht
      · cases ht
    · rw [htype] at ht
      cases ht

theorem displayed_keeps {e e' : Expr Note} (h : Expr.Twin R (Note.Damaged fresh) e e')
    (lowered : Target.Expr) :
    Keeps (fun _ => True) (displayed e lowered) (displayed e' lowered) := by
  rw [displayed, displayed]
  apply (knownType_keeps h).bind
  intro type _
  exact .refl _

mutual

theorem expr_keeps (hc : Clear fresh names.given) {e e' : Expr Note} :
    Expr.Twin R (Note.Damaged fresh) e e' →
      Keeps (fun _ => True) (expr names e) (expr names e')
  | .literal _ ht => by
    rw [expr, expr, literal_twin ht]
    exact .refl _
  | .ident hn _ => by
    rw [expr, expr]
    apply (givenName_keeps hn hc _).bind
    intro given _
    exact .refl _
  | .call hn _ ha => by
    rw [expr, expr]
    apply Keeps.ite
    · exact .refl _
    · apply (exprs_keeps hc ha).bind
      intro args _
      apply (givenName_keeps hn hc _).bind
      intro given _
      exact .refl _
  | .unary _ _ ho => by
    rw [expr, expr]
    apply (expr_keeps hc ho).bind
    intro operand _
    exact .refl _
  | .binary hn ht hl hr => by
    rw [expr, expr]
    apply (expr_keeps hc hl).bind
    intro l _
    apply (expr_keeps hc hr).bind
    intro r _
    apply Keeps.ite
    · apply (knownType_keeps (.binary hn ht hl hr)).bind
      intro type _
      apply Keeps.ite
      · apply (displayed_keeps hl l).bind
        intro l' _
        apply (displayed_keeps hr r).bind
        intro r' _
        exact .refl _
      · exact .refl _
    · exact .refl _
  | .foreign _ => by
    rw [expr, expr]
    exact .error _ _

theorem exprs_keeps (hc : Clear fresh names.given) {es es' : List (Expr Note)} :
    Expr.Twins R (Note.Damaged fresh) es es' →
      Keeps (fun _ => True) (exprs names es) (exprs names es')
  | .nil => .refl _
  | .cons he hr => by
    rw [exprs, exprs]
    apply (expr_keeps hc he).bind
    intro e _
    apply (exprs_keeps hc hr).bind
    intro rest _
    exact .refl _

end

theorem declare_keeps (hc : Clear fresh names.given) (h : n.Damaged fresh n') (name : Text) :
    Keeps (fun r => Clear fresh r.2.given) (declare names n name) (declare names n' name) := by
  rw [declare, declare]
  apply (defined_keeps h name).bind
  intro x hx
  exact .ok (hc.cons hx _)

theorem simple_keeps (hc : Clear fresh names.given) {s s' : Stmt Note}
    (h : Stmt.Twin R (Note.Damaged fresh) s s') :
    Keeps (fun r => Clear fresh r.2.given) (simple names s) (simple names s') := by
  cases h with
  | declare hn _ hv =>
    cases hv with
    | none =>
      simp only [simple]
      apply (Keeps.refl _).bind
      intro value _
      apply (declare_keeps hc hn _).bind
      intro r hr
      exact .ok hr
    | some hv =>
      simp only [simple]
      apply (expr_keeps hc hv).bind
      intro value _
      apply (declare_keeps hc hn _).bind
      intro r hr
      exact .ok hr
  | assign hn _ hv =>
    simp only [simple]
    apply (givenName_keeps hn hc _).bind
    intro given _
    apply (expr_keeps hc hv).bind
    intro value _
    exact .ok hc
  | evaluate _ hv =>
    simp only [simple, isCall_twin hv]
    apply (expr_keeps hc hv).bind
    intro value _
    exact .ok hc
  | _ => exact .error _ _

theorem clause_keeps (hc : Clear fresh names.given) {o o' : Option (Stmt Note)}
    (h : Stmt.TwinClause R (Note.Damaged fresh) o o') :
    Keeps (fun r => Clear fresh r.2.given) (simple? names o) (simple? names o') := by
  cases h with
  | none => exact .ok hc
  | some hs =>
    rw [simple?, simple?]
    apply (simple_keeps hc hs).bind
    intro r hr
    exact .ok hr

theorem conditions_keep (hc : Clear fresh names.given) {o o' : Option (Expr Note)}
    (h : Option.Rel (Expr.Twin R (Note.Damaged fresh)) o o') :
    Keeps (fun _ => True) (o.mapM (expr names)) (o'.mapM (expr names)) := by
  cases h with
  | none => exact .refl _
  | some he =>
    intro c hr
    obtain ⟨e, he', rfl⟩ := mapM_some_eq_ok.mp hr
    exact ⟨mapM_some_eq_ok.mpr ⟨e, (expr_keeps hc he e he').1, rfl⟩, trivial⟩

theorem declared_keeps {ss ss' : List (Stmt Note)}
    (h : Stmt.Twins R (Note.Damaged fresh) ss ss') :
    Keeps (fun ids => ∀ id ∈ ids, ¬fresh id) (declared ss) (declared ss') := by
  induction ss generalizing ss' with
  | nil =>
    cases h
    exact .ok (List.forall_mem_nil _)
  | cons s ss ih =>
    cases h with
    | cons hs hr =>
      cases hs with
      | declare hn _ _ =>
        simp only [declared]
        apply (defined_keeps hn _).bind
        intro x hx
        apply (ih hr).bind
        intro ids hids
        exact .ok (List.forall_mem_cons.mpr ⟨hx, hids⟩)
      | _ =>
        have hrest := ih hr
        exact hrest

theorem declared_vars {p q : Typing.Place} {ss : List (Stmt Unit)} {ss' : List (Stmt Note)}
    {ids : List SymbolId} (h : StmtsChecked p ss ss' q) (hids : declared ss' = .ok ids) :
    ∀ id ∈ ids, ∃ f k, id = .var f k := by
  induction ss generalizing p ss' ids with
  | nil =>
    cases h
    cases hids
    exact List.forall_mem_nil _
  | cons s rest ih =>
    cases h with
    | cons hs hr =>
      cases hs with
      | declare | declareWith =>
        simp only [declared, bind_eq_ok, pure_eq_ok] at hids
        obtain ⟨x, hx, more, hmore, rfl⟩ := hids
        cases hx
        exact List.forall_mem_cons.mpr ⟨⟨_, _, rfl⟩, ih hr hmore⟩
      | _ => exact ih hr hids

theorem mem_refers {id : SymbolId} (hid : ¬fresh id) (h : n.Damaged fresh n')
    (hm : id ∈ n'.refers.toList.map Symbol.id) : id ∈ n.refers.toList.map Symbol.id := by
  obtain hr | hr | ⟨x, hr, hx⟩ := h.refers
  · rw [← hr]
    exact hm
  · rw [hr] at hm
    cases hm
  · rw [hr] at hm
    obtain rfl : id = x.id := by simpa using hm
    exact absurd hx hid

mutual

theorem mem_exprRefs {id : SymbolId} (hid : ¬fresh id) {e d : Expr Note} :
    Expr.Twin R (Note.Damaged fresh) e d → id ∈ exprRefs d → id ∈ exprRefs e
  | .literal _ _, h | .foreign _, h => h
  | .ident hn _, h => mem_refers hid hn h
  | .call hn _ ha, h => by
    rw [exprRefs, List.mem_append] at h ⊢
    exact h.imp (mem_refers hid hn) (mem_exprsRefs hid ha)
  | .unary _ _ ho, h => by
    rw [exprRefs] at h ⊢
    exact mem_exprRefs hid ho h
  | .binary _ _ hl hr, h => by
    rw [exprRefs, List.mem_append] at h ⊢
    exact h.imp (mem_exprRefs hid hl) (mem_exprRefs hid hr)

theorem mem_exprsRefs {id : SymbolId} (hid : ¬fresh id) {es ds : List (Expr Note)} :
    Expr.Twins R (Note.Damaged fresh) es ds → id ∈ exprsRefs ds → id ∈ exprsRefs es
  | .nil, h => h
  | .cons he hr, h => by
    rw [exprsRefs, List.mem_append] at h ⊢
    exact h.imp (mem_exprRefs hid he) (mem_exprsRefs hid hr)

end

mutual

theorem exprRefs_kept {scope : Scope} {f : Text} {k : Nat} {type : Ty} (hs : scope.Sorted)
    (hc : Clear fresh names.given) {e : Expr Unit} {e' d : Expr Note} {c : Target.Expr} :
    ExprChecked scope e type e' → Expr.Twin R (Note.Damaged fresh) e' d →
      expr names d = .ok c → .var f k ∈ exprRefs e' → .var f k ∈ exprRefs d
  | .literal, .literal _ _, _, hm => hm
  | .ident _ _, .ident hn _, h, hm => by
    rw [expr, bind_eq_ok] at h
    obtain ⟨given, hg, -⟩ := h
    rw [exprRefs, refers_of_givenName hn hc hg]
    exact hm
  | @ExprChecked.call _ _ name _ _ x params result hx hsort ha, .call hn _ hargs, h, hm => by
    obtain ⟨hsees, hname⟩ := Scope.sees_of_resolve? hx
    obtain ⟨hvar, hentry⟩ := hs x hsees params result hsort
    rw [exprRefs, List.mem_append] at hm ⊢
    by_cases hmain : name = Typing.entryName
    -- The name of the entry is not asked for, but there is nothing in such a call to lose.
    · cases hentry (hname.trans hmain)
      cases ha
      obtain hm | hm := hm
      · exact absurd (List.mem_singleton.mp hm).symm (hvar f k)
      · cases hm
    · rw [expr, if_neg hmain] at h
      simp only [bind_eq_ok] at h
      obtain ⟨args, hargs', given, hg, -⟩ := h
      rw [refers_of_givenName hn hc hg]
      exact hm.imp id (exprsRefs_kept hs hc ha hargs hargs')
  | .unary ho _, .unary _ _ hod, h, hm => by
    rw [expr, bind_eq_ok] at h
    obtain ⟨operand, ho', -⟩ := h
    rw [exprRefs] at hm ⊢
    exact exprRefs_kept hs hc ho hod ho' hm
  | .binary hl hr _, .binary _ _ hld hrd, h, hm => by
    rw [expr] at h
    simp only [bind_eq_ok] at h
    obtain ⟨left, hl', right, hr', -⟩ := h
    rw [exprRefs, List.mem_append] at hm ⊢
    exact hm.imp (exprRefs_kept hs hc hl hld hl') (exprRefs_kept hs hc hr hrd hr')

theorem exprsRefs_kept {scope : Scope} {f : Text} {k : Nat} {params : List Ty} (hs : scope.Sorted)
    (hc : Clear fresh names.given) {es : List (Expr Unit)} {es' ds : List (Expr Note)}
    {cs : List Target.Expr} :
    ArgsChecked scope params es es' → Expr.Twins R (Note.Damaged fresh) es' ds →
      exprs names ds = .ok cs → .var f k ∈ exprsRefs es' → .var f k ∈ exprsRefs ds
  | .nil, .nil, _, hm => hm
  | .cons he _ hr, .cons hed hrd, h, hm => by
    simp only [exprs, bind_eq_ok] at h
    obtain ⟨c, he', cs, hr', -⟩ := h
    rw [exprsRefs, List.mem_append] at hm ⊢
    exact hm.imp (exprRefs_kept hs hc he hed he') (exprsRefs_kept hs hc hr hrd hr')

end

theorem stepRefs_iff {p q : Typing.Place} {s : Stmt Unit} {s' d : Stmt Note} {f : Text} {k : Nat}
    {r : Target.Simple × Names} (hp : p.scope.Sorted) (hc : Clear fresh names.given)
    (h : StmtChecked p s s' q) (hd : Stmt.Twin R (Note.Damaged fresh) s' d)
    (hr : simple names d = .ok r) (hid : ¬fresh (.var f k)) :
    .var f k ∈ stmtRefs s' ↔ .var f k ∈ stmtRefs d := by
  cases h with
  | declare =>
    cases hd with
    | declare _ _ hv =>
      cases hv
      exact Iff.rfl
  | declareWith hv =>
    cases hd with
    | declare _ _ hvd =>
      cases hvd with
      | some hvd =>
        simp only [simple, bind_eq_ok] at hr
        obtain ⟨value, hvalue, -⟩ := hr
        exact ⟨exprRefs_kept hp hc hv hvd hvalue, mem_exprRefs hid hvd⟩
  | assign _ _ hv =>
    cases hd with
    | assign hn _ hvd =>
      simp only [simple, bind_eq_ok] at hr
      obtain ⟨given, hg, value, hvalue, -⟩ := hr
      rw [stmtRefs, stmtRefs, List.mem_append, List.mem_append, refers_of_givenName hn hc hg]
      exact or_congr_right ⟨exprRefs_kept hp hc hv hvd hvalue, mem_exprRefs hid hvd⟩
  | evaluate hv =>
    cases hd with
    | evaluate _ hvd =>
      simp only [simple, bind_eq_ok] at hr
      obtain ⟨value, hvalue, -⟩ := hr
      exact ⟨exprRefs_kept hp hc hv hvd hvalue, mem_exprRefs hid hvd⟩
  | _ =>
    cases hd
    cases hr

theorem stepUsesBody_keeps {p looped q : Typing.Place} {body : List (Stmt Unit)}
    {body' dbody : List (Stmt Note)} {step : Option (Stmt Unit)} {step' dstep : Option (Stmt Note)}
    {r : Option Target.Simple × Names} (hp : p.scope.Sorted) (hc : Clear fresh names.given)
    (hb : StmtsChecked p body body' looped) (hs : ClauseChecked looped step step' q)
    (hbd : Stmt.Twins R (Note.Damaged fresh) body' dbody)
    (hsd : Stmt.TwinClause R (Note.Damaged fresh) step' dstep)
    (hr : simple? names dstep = .ok r) :
    Keeps (fun _ => True) (stepUsesBody step' body') (stepUsesBody dstep dbody) := by
  cases hsd with
  | none => exact .refl _
  | some hsd =>
    cases hs with
    | some hs =>
      simp only [simple?, bind_eq_ok] at hr
      obtain ⟨c, hr, -⟩ := hr
      rw [stepUsesBody, stepUsesBody]
      intro used hu
      obtain ⟨ids, hids, hu⟩ := bind_eq_ok.mp hu
      obtain ⟨hids', hfresh⟩ := declared_keeps hbd ids hids
      refine ⟨bind_eq_ok.mpr ⟨ids, hids', ?_⟩, trivial⟩
      rw [← hu]
      refine congrArg pure (Bool.eq_iff_iff.mpr ?_)
      simp only [List.any_eq_true, decide_eq_true_eq]
      refine exists_congr fun id => and_congr_right fun hmem => ?_
      obtain ⟨f, k, rfl⟩ := declared_vars hb hids' id hmem
      exact stepRefs_iff (hb.sorted hp) hc hs hsd hr (hfresh _ hmem)

theorem step_lowered {t brace : Token} {init step : Option (Stmt Note)} {cond : Option (Expr Note)}
    {body : List (Stmt Note)} {r : Target.Stmt × Names}
    (hinit : ∀ r, simple? names init = .ok r → Clear fresh r.2.given)
    (hbody : ∀ names : Names, Clear fresh names.given → ∀ r, stmts names body = .ok r →
      Clear fresh r.2.given)
    (h : stmt names (.forDo t init cond step brace body) = .ok r) :
    ∃ names' : Names, Clear fresh names'.given ∧ ∃ r, simple? names' step = .ok r := by
  simp only [stmt, bind_eq_ok] at h
  obtain ⟨used, -, h⟩ := h
  split at h
  · simp only [bind_eq_ok] at h
    obtain ⟨i, hi, c, -, b, hb, st, hs, -⟩ := h
    exact ⟨b.2, hbody i.2 (hinit i hi) b hb, st, hs⟩
  · simp only [bind_eq_ok] at h
    obtain ⟨i, hi, c, -, st, hs, -⟩ := h
    exact ⟨i.2, hinit i hi, st, hs⟩

theorem forDo_keeps {p looped q : Typing.Place} {t t' brace brace' : Token}
    {body : List (Stmt Unit)} {body' dbody : List (Stmt Note)} {step : Option (Stmt Unit)}
    {init' dinit step' dstep : Option (Stmt Note)} {cond' dcond : Option (Expr Note)}
    (hp : p.scope.Sorted) (hc : Clear fresh names.given) (hb : StmtsChecked p body body' looped)
    (hs : ClauseChecked looped step step' q)
    (hid : Stmt.TwinClause R (Note.Damaged fresh) init' dinit)
    (hcd : Option.Rel (Expr.Twin R (Note.Damaged fresh)) cond' dcond)
    (hsd : Stmt.TwinClause R (Note.Damaged fresh) step' dstep)
    (hbd : Stmt.Twins R (Note.Damaged fresh) body' dbody)
    (hbody : ∀ names : Names, Clear fresh names.given →
      Keeps (fun r => Clear fresh r.2.given) (stmts names body') (stmts names dbody)) :
    Keeps (fun r => Clear fresh r.2.given) (stmt names (.forDo t init' cond' step' brace body'))
      (stmt names (.forDo t' dinit dcond dstep brace' dbody)) := by
  intro result hresult
  -- If the damaged loop is lowered at all, so is its step, and then the same form was chosen.
  obtain ⟨names', hc', r, hr⟩ := step_lowered (fun r hr => (clause_keeps hc hid r hr).2)
    (fun names hc r hr => (hbody names hc r hr).2) hresult
  have huses := stepUsesBody_keeps hp hc' hb hs hbd hsd hr
  revert result
  simp only [stmt]
  apply huses.bind
  intro used _
  apply Keeps.ite
  · apply (clause_keeps hc hid).bind
    intro init hc
    apply (conditions_keep hc hcd).bind
    intro cond _
    apply (hbody _ hc).bind
    intro body hc
    apply (clause_keeps hc hsd).bind
    intro step hc
    exact .ok hc
  · apply (clause_keeps hc hid).bind
    intro init hc
    apply (conditions_keep hc hcd).bind
    intro cond _
    apply (clause_keeps hc hsd).bind
    intro step hc
    apply (hbody _ hc).bind
    intro body hc
    exact .ok hc

theorem simpleStmt_keeps (hc : Clear fresh names.given) {s d : Stmt Note}
    (h : Stmt.Twin R (Note.Damaged fresh) s d) :
    Keeps (fun r => Clear fresh r.2.given)
      (simple names s >>= fun r => pure (Target.Stmt.simple r.1, r.2))
      (simple names d >>= fun r => pure (Target.Stmt.simple r.1, r.2)) := by
  apply (simple_keeps hc h).bind
  intro r hr
  exact .ok hr

mutual

theorem stmt_keeps {p q : Typing.Place} {s : Stmt Unit} {s' d : Stmt Note} {names : Names}
    (hp : p.scope.Sorted) (hc : Clear fresh names.given) :
    StmtChecked p s s' q → Stmt.Twin R (Note.Damaged fresh) s' d →
      Keeps (fun r => Clear fresh r.2.given) (stmt names s') (stmt names d)
  | .declare _, .declare hn ht hv => by
    simp only [stmt]
    exact simpleStmt_keeps hc (.declare hn ht hv)
  | .declareWith _ _ _, .declare hn ht hv => by
    simp only [stmt]
    exact simpleStmt_keeps hc (.declare hn ht hv)
  | .assign _ _ _ _, .assign hn ht hv => by
    simp only [stmt]
    exact simpleStmt_keeps hc (.assign hn ht hv)
  | .evaluate _, .evaluate ht hv => by
    simp only [stmt]
    exact simpleStmt_keeps hc (.evaluate ht hv)
  | .input _ _, .input hn _ => by
    simp only [stmt]
    apply (givenName_keeps hn hc _).bind
    intro given _
    obtain hi | hi := hn.input
    · rw [hi]
      refine .same fun r hr => ?_
      split at hr <;> cases hr
      exact hc
    · rw [hi]
      exact .error _ _
  | .print _, .print _ hv => by
    simp only [stmt]
    apply (expr_keeps hc hv).bind
    intro value _
    exact .ok hc
  | .ret _ _, .ret _ hv => by
    simp only [stmt]
    apply (expr_keeps hc hv).bind
    intro value _
    exact .ok hc
  | .ifThen _ hb, .ifThen _ hcd _ hbd => by
    simp only [stmt]
    apply (expr_keeps hc hcd).bind
    intro cond _
    apply (stmts_keeps (Typing.Place.sorted_inner hp) hc hb hbd).bind
    intro body hc
    exact .ok hc
  | .ifElse _ hb he, .ifElse _ hcd _ hbd _ hed => by
    simp only [stmt]
    apply (expr_keeps hc hcd).bind
    intro cond _
    apply (stmts_keeps (Typing.Place.sorted_inner hp) hc hb hbd).bind
    intro body hc
    apply (stmts_keeps (by exact Typing.Place.sorted_inner hp) hc he hed).bind
    intro elseBody hc
    exact .ok hc
  | .whileDo _ hb, .whileDo _ hcd _ hbd => by
    simp only [stmt]
    apply (expr_keeps hc hcd).bind
    intro cond _
    apply (stmts_keeps (Typing.Place.sorted_inner hp) hc hb hbd).bind
    intro body hc
    exact .ok hc
  | .forDo hi _ hb hs, .forDo _ hid hcd hsd _ hbd => by
    have hstarted := hi.sorted (Typing.Place.sorted_inner hp)
    exact forDo_keeps hstarted hc hb hs hid hcd hsd hbd
      fun names hc => stmts_keeps hstarted hc hb hbd
  | .block hb, .block _ hbd => by
    simp only [stmt]
    apply (stmts_keeps (Typing.Place.sorted_inner hp) hc hb hbd).bind
    intro body hc
    exact .ok hc

theorem stmts_keeps {p q : Typing.Place} {ss : List (Stmt Unit)} {ss' ds : List (Stmt Note)}
    {names : Names} (hp : p.scope.Sorted) (hc : Clear fresh names.given) :
    StmtsChecked p ss ss' q → Stmt.Twins R (Note.Damaged fresh) ss' ds →
      Keeps (fun r => Clear fresh r.2.given) (stmts names ss') (stmts names ds)
  | .nil, .nil => by
    rw [stmts]
    exact .ok hc
  | .cons hs hr, .cons hsd hrd => by
    rw [stmts, stmts]
    apply (stmt_keeps hp hc hs hsd).bind
    intro s hc
    apply (stmts_keeps (hs.sorted hp) hc hr hrd).bind
    intro rest hc
    exact .ok hc

end

theorem params_keeps {xs ds : List (Param Note)}
    (h : List.Forall₂ (Param.Twin R (Note.Damaged fresh)) xs ds) (hc : Clear fresh names.given) :
    Keeps (fun r => Clear fresh r.2.given) (params names xs) (params names ds) := by
  induction h generalizing names with
  | nil => exact .ok hc
  | cons hx _ ih =>
    rw [params, params, hx.name, hx.type]
    apply (declare_keeps hc hx.note _).bind
    intro given hc
    apply (ih hc).bind
    intro rest hc
    exact .ok hc

theorem method_keeps {scope : Scope} {used : List Text} {given : List (SymbolId × Text)}
    {f : Func Unit} {f' d : Func Note} (hscope : scope.Sorted) (hc : Clear fresh given)
    (h : FuncChecked scope f f') (hd : Func.Twin R (Note.Damaged fresh) f' d) :
    Keeps (fun r => Clear fresh r.2) (method used given f') (method used given d) := by
  cases h with
  | mk hparams hbody =>
    rw [method, method, ← hd.name, ← hd.result, ← returns_twin hd.body]
    apply (defined_keeps hd.note _).bind
    intro x _
    apply (params_keeps hd.params hc).bind
    intro params hc
    apply (stmts_keeps (hparams.sorted fun x hx => hscope x (Scope.sees_push.mp hx)) hc hbody
      hd.body).bind
    intro body hc
    exact .ok hc

theorem functions_keep {scope : Scope} {used : List Text} {given : List (SymbolId × Text)}
    {fs ds : List (Func Note)} (hscope : scope.Sorted) (hc : Clear fresh given)
    (h : ∀ f ∈ fs, ∃ g, FuncChecked scope g f)
    (hd : List.Forall₂ (Func.Twin R (Note.Damaged fresh)) fs ds) :
    Keeps (fun _ => True) (functions used given fs) (functions used given ds) := by
  induction hd generalizing given with
  | nil => exact .refl _
  | cons hf _ ih =>
    obtain ⟨⟨g, hg⟩, hrest⟩ := List.forall_mem_cons.mp h
    rw [functions, functions]
    apply (method_keeps hscope hc hg hf).bind
    rintro ⟨m, given⟩ hc
    apply (ih hc hrest).bind
    intro rest _
    exact .refl _

theorem nameMethods_keeps {fs ds : List (Func Note)} (used : List Text)
    (h : List.Forall₂ (Func.Twin R (Note.Damaged fresh)) fs ds) :
    Keeps (Clear fresh) (nameMethods used fs)
      (nameMethods used ds) := by
  induction h generalizing used with
  | nil => exact .ok fun _ _ => rfl
  | cons hf _ ih =>
    rw [nameMethods, nameMethods, hf.name]
    apply (defined_keeps hf.note _).bind
    intro x hx
    apply (ih _).bind
    intro methods hmethods
    exact .ok (hmethods.cons hx _)

end Lowering

theorem Program.sorted_global {x : Program Unit} {a : Analysis} (h : x.analyze = .ok a) :
    a.global.Sorted := by
  obtain ⟨-, hmain, hglobal, -, -⟩ := Program.analyze_eq_ok.mp h
  intro y hy params result hsort
  rw [hglobal] at hy
  obtain ⟨symbols, hsymbols, hy⟩ := hy
  rw [List.mem_singleton.mp hsymbols] at hy
  obtain ⟨f, hf, rfl⟩ := List.mem_map.mp hy
  constructor
  · intro g k hid
    cases hid
  · intro hname
    cases hsort
    rw [(hmain f hf hname).1]
    rfl

theorem Program.lower_keeps {x : Program Unit} {a : Analysis} {d : Program Note}
    (h : x.analyze = .ok a) (hd : Program.Twin R (Note.Damaged fresh) a.program d) :
    Keeps (fun _ => True) a.program.lower d.lower := by
  obtain ⟨-, -, -, -, hfs⟩ := Program.analyze_eq_ok.mp h
  have hnames : a.program.functions.map Func.name = d.functions.map Func.name :=
    map_eq_map_of_forall₂ (hd.functions.imp fun _ _ hf => hf.name)
  rw [lower, lower, hnames]
  apply (Lowering.nameMethods_keeps _ hd.functions).bind
  intro methods hc
  have hchecked : ∀ f ∈ a.program.functions, ∃ g, FuncChecked a.global g f := by
    intro f hf
    obtain ⟨g, -, hg⟩ := exists_of_forall₂ hfs.flip hf
    exact ⟨g, hg⟩
  exact Lowering.functions_keep (sorted_global h) hc hchecked hd.functions

/-- From damaged notes a program is lowered to the code of the intact ones, or not at all. -/
theorem damaged_notes_never_miscompile {source : Text} {a : Analysis} (h : check source = .ok a)
    (fresh : SymbolId → Prop) {d : Program Note}
    (hd : Program.Twin .same (Note.Damaged fresh) a.program d) :
    ∃ text, a.program.toCSharp = .ok text ∧
      (d.toCSharp = .ok text ∨ ∃ fault, d.toCSharp = .error fault) := by
  obtain ⟨x, hx, ha⟩ := check_eq_ok.mp h
  have hform : x.Formed fun _ => True := parse_formed hx fun _ _ => trivial
  obtain ⟨methods, hmethods, -⟩ := Program.lower_emitted hform ha
  refine ⟨_, toCSharp_of_lower hmethods, ?_⟩
  cases hlower : d.lower with
  | error fault =>
    refine .inr ⟨fault, ?_⟩
    rw [Program.toCSharp, hlower]
    rfl
  | ok methods' =>
    have hkept := (Program.lower_keeps ha hd methods' hlower).1
    rw [hmethods] at hkept
    cases hkept
    exact .inl (toCSharp_of_lower hlower)

section Map

variable {N : Note → Note → Prop} {f : Note → Note}

mutual

theorem Expr.twin_map (hN : ∀ n, N n (f n)) : (e : Expr Note) → Expr.Twin .same N e (e.map f)
  | .literal _ _ _ => .literal (hN _) rfl
  | .ident _ _ _ => .ident (hN _) rfl
  | .call _ _ _ args => .call (hN _) rfl (Expr.twins_map hN args)
  | .unary _ _ _ operand => .unary (hN _) rfl (operand.twin_map hN)
  | .binary _ _ _ left right => .binary (hN _) rfl (left.twin_map hN) (right.twin_map hN)
  | .foreign _ _ => .foreign rfl

theorem Expr.twins_map (hN : ∀ n, N n (f n)) :
    (es : List (Expr Note)) → Expr.Twins .same N es (Expr.mapAll f es)
  | [] => .nil
  | e :: rest => .cons (e.twin_map hN) (Expr.twins_map hN rest)

end

theorem Expr.twin_map_option (hN : ∀ n, N n (f n)) (o : Option (Expr Note)) :
    Option.Rel (Expr.Twin .same N) o (o.map (Expr.map f)) := by
  cases o with
  | none => exact .none
  | some e => exact .some (e.twin_map hN)

mutual

theorem Stmt.twin_map (hN : ∀ n, N n (f n)) : (s : Stmt Note) → Stmt.Twin .same N s (s.map f)
  | .declare _ _ _ _ value => .declare (hN _) rfl (Expr.twin_map_option hN value)
  | .assign _ _ _ value => .assign (hN _) rfl (value.twin_map hN)
  | .input _ _ _ => .input (hN _) rfl
  | .print _ value => .print rfl (value.twin_map hN)
  | .evaluate _ value => .evaluate rfl (value.twin_map hN)
  | .ret _ value => .ret rfl (value.twin_map hN)
  | .ifThen _ cond _ body => .ifThen rfl (cond.twin_map hN) rfl (Stmt.twins_map hN body)
  | .ifElse _ cond _ body _ elseBody =>
    .ifElse rfl (cond.twin_map hN) rfl (Stmt.twins_map hN body) rfl (Stmt.twins_map hN elseBody)
  | .whileDo _ cond _ body => .whileDo rfl (cond.twin_map hN) rfl (Stmt.twins_map hN body)
  | .forDo _ init cond step _ body =>
    .forDo rfl (Stmt.twin_map? hN init) (Expr.twin_map_option hN cond) (Stmt.twin_map? hN step) rfl
      (Stmt.twins_map hN body)
  | .block _ body => .block rfl (Stmt.twins_map hN body)
  | .foreign _ _ => .foreign rfl

theorem Stmt.twin_map? (hN : ∀ n, N n (f n)) :
    (o : Option (Stmt Note)) → Stmt.TwinClause .same N o (Stmt.map? f o)
  | none => .none
  | some s => .some (s.twin_map hN)

theorem Stmt.twins_map (hN : ∀ n, N n (f n)) :
    (ss : List (Stmt Note)) → Stmt.Twins .same N ss (Stmt.mapAll f ss)
  | [] => .nil
  | s :: rest => .cons (s.twin_map hN) (Stmt.twins_map hN rest)

end

theorem Func.twin_map (hN : ∀ n, N n (f n)) (g : Func Note) : Func.Twin .same N g (g.map f) where
  note := hN _
  token := rfl
  name := rfl
  params := List.forall₂_map_right_iff.mpr
    (List.forall₂_same.mpr fun _ _ => ⟨hN _, rfl, rfl, rfl⟩)
  result := rfl
  brace := rfl
  body := Stmt.twins_map hN g.body

theorem Program.twin_map (hN : ∀ n, N n (f n)) (x : Program Note) :
    Program.Twin .same N x (x.map f) :=
  ⟨rfl, List.forall₂_map_right_iff.mpr (List.forall₂_same.mpr fun g _ => g.twin_map hN)⟩

end Map

theorem Damage.uses_damaged (n : Note) : n.Damaged (fun _ => False) (Damage.uses.note n) :=
  ⟨.inl rfl, .inl rfl, .inr (.inl rfl), .inl rfl, fun _ _ => id⟩

theorem Damage.inputs_damaged (n : Note) : n.Damaged (fun _ => False) (Damage.inputs.note n) :=
  ⟨.inl rfl, .inl rfl, .inl rfl, .inr rfl, fun _ _ => id⟩

def Note.astray (n : Note) : Note :=
  { n with
    defines := n.defines.filter fun x => x.id != .loose 0
    refers := n.refers.map fun x => { x with id := .loose 0 } }

theorem Note.astray_damaged (n : Note) : n.Damaged (fun id => id = .loose 0) n.astray where
  type := .inl rfl
  defines := by
    obtain hnone | ⟨x, hx⟩ := Option.eq_none_or_eq_some n.astray.defines
    · exact .inr hnone
    · exact .inl (hx.trans (Option.filter_eq_some_iff.mp hx).1.symm)
  refers := by
    rw [astray]
    cases n.refers with
    | none => exact .inl rfl
    | some x => exact .inr (.inr ⟨_, rfl, rfl⟩)
  input := .inl rfl
  declared x hx := bne_iff_ne.mp (Option.filter_eq_some_iff.mp hx).2

def bodyStep : Text := Text.ofString
  "func main(): int \x7b for (var i: int; i < 9; i = n) \x7b var n: int = i + 2; \x7d
    return 0; \x7d"

theorem damaged_notes_never_miscompile_bodyStep : ∃ a text, check bodyStep = .ok a ∧
    a.program.toCSharp = .ok text ∧ (Damage.inputs.program a.program).toCSharp = .ok text ∧
    (∃ fault, (Damage.uses.program a.program).toCSharp = .error fault) ∧
    ∃ fault, (a.program.map Note.astray).toCSharp = .error fault := by
  have hrun : (check bodyStep).toOption.map (fun a =>
      ((Damage.inputs.program a.program).toCSharp.isOk,
        (Damage.uses.program a.program).toCSharp.isOk,
        (a.program.map Note.astray).toCSharp.isOk)) = some (true, false, false) := by
    rw [bodyStep, Text.ofString_ofList]
    decide +kernel
  cases ha : check bodyStep with
  | error stop =>
    rw [ha] at hrun
    cases hrun
  | ok a =>
    rw [ha] at hrun
    obtain ⟨hinputs, hrun⟩ := Prod.mk.inj (Option.some.inj hrun)
    obtain ⟨huses, hastray⟩ := Prod.mk.inj hrun
    obtain ⟨text, htext, hkept⟩ := damaged_notes_never_miscompile ha _
      (a.program.twin_map Damage.inputs_damaged)
    obtain ⟨_, _, hlost⟩ := damaged_notes_never_miscompile ha _
      (a.program.twin_map Damage.uses_damaged)
    obtain ⟨_, _, hled⟩ := damaged_notes_never_miscompile ha _
      (a.program.twin_map Note.astray_damaged)
    refine ⟨a, text, rfl, htext, hkept.resolve_right ?_, hlost.resolve_left ?_,
      hled.resolve_left ?_⟩
    · rintro ⟨fault, hfault⟩
      rw [Damage.program, hfault] at hinputs
      cases hinputs
    · intro htext
      rw [Damage.program, htext] at huses
      cases huses
    · intro htext
      rw [htext] at hastray
      cases hastray

end MiniSharp
