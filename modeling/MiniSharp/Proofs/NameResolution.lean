import MiniSharp.Proofs.Binding
import MiniSharp.Proofs.CheckingOrder

namespace MiniSharp

open MiniSharp.Tree (Path Part)

namespace Entry

def declares (e : Entry) : Bool := e.kind matches .func | .param | .varDecl

def refers (e : Entry) : Bool := e.kind matches .ident | .call | .assign | .input

structure Proper (e : Entry) : Prop where
  defines : e.note.defines.isSome = e.declares
  refers : e.note.refers.isSome = e.refers
  named : ∀ x, e.note.defines = some x → x.name = e.name

/-- Of the declarations before a node with its name and in a scope around it, `d` is the one in the
innermost scope. -/
structure Means (before : List Entry) (n d : Entry) : Prop where
  earlier : d ∈ before
  declares : d.declares
  name : d.name = n.name
  encloses : d.scope <:+ n.scope
  innermost : ∀ d' ∈ before, d'.declares → d'.name = n.name → d'.scope <:+ n.scope →
    d' = d ∨ (d'.scope <:+ d.scope ∧ d'.scope ≠ d.scope)

structure Right (before : List Entry) (n : Entry) : Prop where
  proper : n.Proper
  means : ∀ x, n.note.refers = some x → ∃ d, Means before n d ∧ d.note.defines = some x

end Entry

def AllRight (before : List Entry) : List Entry → Prop
  | [] => True
  | e :: rest => e.Right before ∧ AllRight (before ++ [e]) rest

theorem allRight_append {before es rest : List Entry} :
    AllRight before (es ++ rest) ↔ AllRight before es ∧ AllRight (before ++ es) rest := by
  induction es generalizing before with
  | nil => simp [AllRight]
  | cons e es ih => simp [AllRight, ih, and_assoc]

theorem AllRight.right {before es : List Entry} (h : AllRight before es) {pre post : List Entry}
    {n : Entry} (he : es = pre ++ n :: post) : n.Right (before ++ pre) := by
  subst he
  exact (allRight_append.mp h).2.1

def symbolsIn (scope : Path) (es : List Entry) : List Symbol :=
  es.filterMap fun e => if e.scope = scope then e.note.defines else none

theorem mem_symbolsIn {scope : Path} {es : List Entry} {x : Symbol} :
    x ∈ symbolsIn scope es ↔ ∃ e ∈ es, e.scope = scope ∧ e.note.defines = some x := by
  simp [symbolsIn, List.mem_filterMap]

theorem symbolsIn_append (scope : Path) (es rest : List Entry) :
    symbolsIn scope (es ++ rest) = symbolsIn scope es ++ symbolsIn scope rest :=
  List.filterMap_append

theorem symbolsIn_eq_nil {scope : Path} {es : List Entry} (h : ∀ e ∈ es, e.scope ≠ scope) :
    symbolsIn scope es = [] := by
  apply List.filterMap_eq_nil_iff.mpr
  intro e he
  rw [if_neg (h e he)]

theorem symbolsIn_append_of_ne {scope : Path} {es rest : List Entry}
    (h : ∀ e ∈ rest, e.scope ≠ scope) : symbolsIn scope (es ++ rest) = symbolsIn scope es := by
  rw [symbolsIn_append, symbolsIn_eq_nil h, List.append_nil]

theorem symbolsIn_singleton (e : Entry) : symbolsIn e.scope [e] = e.note.defines.toList := by
  unfold symbolsIn
  rw [List.filterMap_cons, if_pos rfl]
  cases e.note.defines <;> rfl

theorem Entry.Proper.declares_iff {e : Entry} (h : e.Proper) :
    e.declares ↔ ∃ x, e.note.defines = some x := by
  rw [← h.defines, Option.isSome_iff_exists]

theorem find?_symbolsIn_eq_none {scope : Path} {es : List Entry} {name : Text}
    (h : ∀ e ∈ es, e.Proper) : Scope.find? name (symbolsIn scope es) = none ↔
      ∀ d ∈ es, d.declares → d.scope = scope → d.name ≠ name := by
  simp only [Scope.find?, List.find?_eq_none, beq_iff_eq]
  constructor
  · intro hnone d hd hdec hs hname
    obtain ⟨x, hx⟩ := (h d hd).declares_iff.mp hdec
    exact hnone x (mem_symbolsIn.mpr ⟨d, hd, hs, hx⟩) (((h d hd).named x hx).trans hname)
  · intro hall x hx hname
    obtain ⟨d, hd, hs, hdx⟩ := mem_symbolsIn.mp hx
    exact hall d hd ((h d hd).declares_iff.mpr ⟨x, hdx⟩) hs
      (((h d hd).named x hdx).symm.trans hname)

structure Tracks (chain : List Path) (p : Path) (done : List Entry) (scope : Scope) : Prop where
  frames : scope.symbols :: scope.outer = chain.map (symbolsIn · done)
  nested : chain.Pairwise fun inner outer => outer <:+ inner ∧ outer ≠ inner
  around : ∀ s ∈ chain, s <:+ p
  complete : ∀ e ∈ done, e.scope <:+ p → e.scope ∈ chain
  proper : ∀ e ∈ done, e.Proper
  unique : ∀ d ∈ done, ∀ d' ∈ done, d.declares → d'.declares → d.scope = d'.scope →
    d.name = d'.name → d = d'

structure Advances (chain : List Path) (p : Path) (done es : List Entry) (scope : Scope) :
    Prop where
  right : AllRight done es
  tracks : Tracks chain p (done ++ es) scope

theorem Advances.append {chain : List Path} {p : Path} {done es rest : List Entry}
    {scope scope' : Scope} (h : Advances chain p done es scope)
    (h' : Advances chain p (done ++ es) rest scope') :
    Advances chain p done (es ++ rest) scope' :=
  ⟨allRight_append.mpr ⟨h.right, h'.right⟩, by simpa using h'.tracks⟩

theorem Advances.back {chain : List Path} {p : Path} {part : Part} {done es : List Entry}
    {scope : Scope} (h : Advances chain (part :: p) done es scope) (ha : ∀ t ∈ chain, t <:+ p) :
    Advances chain p done es scope :=
  ⟨h.right, h.tracks.frames, h.tracks.nested, ha,
    fun e he hs => h.tracks.complete e he (hs.trans (List.suffix_cons part p)),
    h.tracks.proper, h.tracks.unique⟩

structure Entry.Uses (scope : Scope) (s : Path) (n : Entry) : Prop where
  proper : n.Proper
  placed : n.scope = s
  silent : n.note.defines = none
  resolved : ∀ x, n.note.refers = some x → scope.resolve? n.name = some x

namespace Tracks

variable {chain : List Path} {p s : Path} {done es : List Entry} {scope : Scope}

theorem nil (h : Tracks chain p done scope) : Advances chain p done [] scope :=
  ⟨trivial, by rwa [List.append_nil]⟩

theorem means (h : Tracks (s :: chain) p done scope) {n : Entry} {x : Symbol}
    (hs : n.scope = s) (hx : scope.resolve? n.name = some x) :
    ∃ d, n.Means done d ∧ d.note.defines = some x := by
  rw [Scope.resolve?, h.frames, List.findSome?_map] at hx
  obtain ⟨inner, t, outer, hchain, hfound, hinner⟩ := List.findSome?_eq_some_iff.mp hx
  obtain ⟨d, hd, hdt, hdx⟩ := mem_symbolsIn.mp (List.mem_of_find?_eq_some hfound)
  have hproper := h.proper d hd
  have hdec : d.declares := hproper.declares_iff.mpr ⟨x, hdx⟩
  have hname : d.name = n.name := by
    rw [← hproper.named x hdx]
    simpa using List.find?_some hfound
  have hnested := h.nested
  have hhead : ∀ t ∈ s :: chain, t <:+ s := by
    intro t ht
    rcases List.mem_cons.mp ht with rfl | ht
    · exact List.suffix_refl _
    · exact ((List.pairwise_cons.mp hnested).1 t ht).1
  refine ⟨d, ⟨hd, hdec, hname, ?_, ?_⟩, hdx⟩
  · rw [hs, hdt]
    exact hhead t (hchain ▸ by simp)
  · intro d' hd' hdec' hname' hscope'
    rw [hs] at hscope'
    have hmem := h.complete d' hd' (hscope'.trans (h.around s List.mem_cons_self))
    rw [hchain] at hmem hnested
    rcases List.mem_append.mp hmem with hi | hmem
    · -- a scope further in than that of `d` has no such declaration
      exact absurd hname' ((find?_symbolsIn_eq_none h.proper).mp (hinner _ hi) d' hd' hdec' rfl)
    rcases List.mem_cons.mp hmem with ht | ho
    · exact .inl (h.unique d' hd' d hd hdec' hdec (ht.trans hdt.symm) (hname'.trans hname.symm))
    · right
      rw [hdt]
      exact (List.pairwise_cons.mp (List.pairwise_append.mp hnested).2.1).1 _ ho

theorem concat (h : Tracks (s :: chain) p done scope) {n : Entry} {scope' : Scope}
    (hn : n.Proper) (hs : n.scope = s)
    (hnew : n.declares → ∀ d ∈ done, d.declares → d.scope = s → d.name ≠ n.name)
    (hframes : scope'.symbols = scope.symbols ++ n.note.defines.toList)
    (houter : scope'.outer = scope.outer) :
    Tracks (s :: chain) p (done ++ [n]) scope' := by
  refine ⟨?_, h.nested, h.around, ?_, ?_, ?_⟩
  · have hf := h.frames
    rw [List.map_cons, List.cons.injEq] at hf ⊢
    obtain ⟨hsymbols, hothers⟩ := hf
    constructor
    · rw [hframes, hsymbols, symbolsIn_append, ← symbolsIn_singleton, hs]
    · rw [houter, hothers]
      apply List.map_congr_left
      intro t ht
      have hne := ((List.pairwise_cons.mp h.nested).1 t ht).2
      rw [symbolsIn_append_of_ne]
      simpa [hs] using hne.symm
  · intro e he
    rcases List.mem_append.mp he with he | he
    · exact h.complete e he
    · intro _
      rw [List.mem_singleton.mp he, hs]
      exact List.mem_cons_self
  · intro e he
    rcases List.mem_append.mp he with he | he
    · exact h.proper e he
    · rwa [List.mem_singleton.mp he]
  · intro d hd d' hd' hdec hdec' hscope hname
    rcases List.mem_append.mp hd with hd | hd <;> rcases List.mem_append.mp hd' with hd' | hd'
    · exact h.unique d hd d' hd' hdec hdec' hscope hname
    · rw [List.mem_singleton.mp hd'] at hdec' hscope hname
      exact absurd hname (hnew hdec' d hd hdec (hscope.trans hs))
    · rw [List.mem_singleton.mp hd] at hdec hscope hname
      exact absurd hname.symm (hnew hdec d' hd' hdec' (hscope.symm.trans hs))
    · rw [List.mem_singleton.mp hd, List.mem_singleton.mp hd']

theorem use (h : Tracks (s :: chain) p done scope) {n : Entry} (hn : n.Uses scope s) :
    Advances (s :: chain) p done [n] scope := by
  refine ⟨⟨⟨hn.proper, fun x hx => h.means hn.placed (hn.resolved x hx)⟩, trivial⟩, ?_⟩
  refine h.concat hn.proper hn.placed ?_ (by simp [hn.silent]) rfl
  intro hdec
  obtain ⟨x, hx⟩ := hn.proper.declares_iff.mp hdec
  rw [hn.silent] at hx
  cases hx

theorem uses (h : Tracks (s :: chain) p done scope) (hes : ∀ n ∈ es, n.Uses scope s) :
    Advances (s :: chain) p done es scope := by
  induction es generalizing done with
  | nil => exact h.nil
  | cons n es ih =>
    obtain ⟨hn, hes⟩ := List.forall_mem_cons.mp hes
    have hfirst := h.use hn
    exact hfirst.append (ih hfirst.tracks hes)

theorem declare (h : Tracks (s :: chain) p done scope) {n : Entry} {x : Symbol}
    (hs : n.scope = s) (hnote : n.note = .ofDeclaration x) (hdec : n.declares = true)
    (href : n.refers = false) (hx : x.name = n.name) (hlookup : scope.lookup? n.name = none) :
    Advances (s :: chain) p done [n] { scope with symbols := scope.symbols ++ [x] } := by
  have hproper : n.Proper := by
    refine ⟨?_, ?_, ?_⟩
    · rw [hnote, hdec]
      rfl
    · rw [hnote, href]
      rfl
    · intro y hy
      rw [hnote] at hy
      cases hy
      exact hx
  have hnew : ∀ d ∈ done, d.declares → d.scope = s → d.name ≠ n.name := by
    apply (find?_symbolsIn_eq_none h.proper).mp
    have hsymbols : scope.symbols = symbolsIn s done := (List.cons.inj h.frames).1
    rw [← hsymbols]
    exact hlookup
  refine ⟨⟨⟨hproper, ?_⟩, trivial⟩, h.concat hproper hs (fun _ => hnew) ?_ rfl⟩
  · intro y hy
    rw [hnote] at hy
    cases hy
  · rw [hnote]
    rfl

theorem fresh_append {part : Part} (h : Tracks (s :: chain) p done scope)
    (hf : Fresh (part :: p) done) (hes : ∀ n ∈ es, n.Uses scope s) :
    Fresh (part :: p) (done ++ es) :=
  hf.append (fresh_of_scope (h.around s List.mem_cons_self) fun n hn => (hes n hn).placed)

theorem step {part : Part} (h : Tracks chain p done scope) (hf : Fresh (part :: p) done) :
    Tracks chain (part :: p) done scope := by
  refine ⟨h.frames, h.nested, ?_, ?_, h.proper, h.unique⟩
  · intro t ht
    exact (h.around t ht).trans (List.suffix_cons part p)
  · intro e he hs
    rcases List.suffix_cons_iff.mp hs with heq | hs
    · exact absurd (heq ▸ List.suffix_refl _) (hf e he)
    · exact h.complete e he hs

theorem enter {part : Part} (h : Tracks chain p done scope) (hf : Fresh (part :: p) done) :
    Tracks ((part :: p) :: chain) (part :: p) done scope.push := by
  have hstep := h.step hf
  refine ⟨?_, ?_, ?_, ?_, h.proper, h.unique⟩
  · have hnil : symbolsIn (part :: p) done = [] :=
      symbolsIn_eq_nil fun e he hs => hf e he (hs ▸ List.suffix_refl _)
    rw [List.map_cons, hnil, ← h.frames]
    rfl
  · refine List.pairwise_cons.mpr ⟨fun t ht => ⟨hstep.around t ht, ?_⟩, h.nested⟩
    rintro rfl
    exact not_suffix_of_suffix (h.around _ ht) part (List.suffix_refl _)
  · exact List.forall_mem_cons.mpr ⟨List.suffix_refl _, hstep.around⟩
  · intro e he hs
    exact List.mem_cons_of_mem _ (hstep.complete e he hs)

theorem inside {part : Part} {inner : Scope} (h : Tracks chain p done scope)
    (hes : ∀ e ∈ es, part :: p <:+ e.scope)
    (hi : Advances ((part :: p) :: chain) (part :: p) done es inner) :
    Advances chain p done es scope := by
  refine ⟨hi.right, ?_, h.nested, h.around, ?_, hi.tracks.proper, hi.tracks.unique⟩
  · rw [h.frames]
    apply List.map_congr_left
    intro t ht
    rw [symbolsIn_append_of_ne]
    intro e he hs
    exact not_suffix_of_suffix (h.around t ht) part (hs ▸ hes e he)
  · intro e he hs
    rcases List.mem_append.mp he with he | he
    · exact h.complete e he hs
    · exact absurd (hes e he) (not_suffix_of_suffix hs part)

end Tracks

namespace Entry

variable {scope : Scope} {s p : Path} {kind : NodeKind} {name : Text}

theorem uses_of_type {type : Ty} (hd : declares ⟨p, s, kind, name, .ofType type⟩ = false)
    (hr : refers ⟨p, s, kind, name, .ofType type⟩ = false) :
    Uses scope s ⟨p, s, kind, name, .ofType type⟩ := by
  refine ⟨⟨hd.symm, hr.symm, ?_⟩, rfl, rfl, ?_⟩
  · intro x hx
    cases hx
  · intro x hx
    cases hx

theorem uses_of_name {note : Note} {x : Symbol} (hx : scope.resolve? name = some x)
    (hdefines : note.defines = none) (hrefers : note.refers = some x)
    (hd : declares ⟨p, s, kind, name, note⟩ = false)
    (hr : refers ⟨p, s, kind, name, note⟩ = true) : Uses scope s ⟨p, s, kind, name, note⟩ := by
  refine ⟨⟨?_, ?_, ?_⟩, rfl, hdefines, ?_⟩
  · rw [hd, hdefines]
    rfl
  · rw [hr, hrefers]
    rfl
  · intro y hy
    rw [hdefines] at hy
    cases hy
  · intro y hy
    rwa [← hrefers.symm.trans hy]

end Entry

namespace Typing

mutual

theorem ExprChecked.uses {scope : Scope} {e : Expr Unit} {type : Ty} {e' : Expr Note} (s p : Path) :
    ExprChecked scope e type e' → ∀ n ∈ e'.entries s p, n.Uses scope s
  | .literal => List.forall_mem_singleton.mpr (Entry.uses_of_type rfl rfl)
  | .ident hx _ => List.forall_mem_singleton.mpr (Entry.uses_of_name hx rfl rfl rfl rfl)
  | .call hx _ ha =>
    List.forall_mem_cons.mpr ⟨Entry.uses_of_name hx rfl rfl rfl rfl, ha.uses s p 0⟩
  | .unary ho _ => List.forall_mem_cons.mpr ⟨Entry.uses_of_type rfl rfl, ho.uses s (.left :: p)⟩
  | .binary hl hr _ => List.forall_mem_cons.mpr ⟨Entry.uses_of_type rfl rfl,
      List.forall_mem_append.mpr ⟨hl.uses s (.left :: p), hr.uses s (.right :: p)⟩⟩

theorem ArgsChecked.uses {scope : Scope} {params : List Ty} {args : List (Expr Unit)}
    {args' : List (Expr Note)} (s p : Path) (index : Nat) :
    ArgsChecked scope params args args' → ∀ n ∈ Expr.entriesAll s p index args', n.Uses scope s
  | .nil => List.forall_mem_nil _
  | .cons he _ hs => List.forall_mem_append.mpr
      ⟨he.uses s (.child index :: p), hs.uses s p (index + 1)⟩

end

theorem conditions_uses {scope : Scope} {o : Option (Expr Unit)} {o' : Option (Expr Note)}
    (s p : Path) (h : Option.Rel (fun e => ExprChecked scope e .bool) o o') :
    ∀ n ∈ o'.elim [] (Expr.entries s p), n.Uses scope s := by
  cases h with
  | none => exact List.forall_mem_nil _
  | some he => exact he.uses s p

mutual

theorem StmtChecked.advances {place place' : Place} {x : Stmt Unit} {x' : Stmt Note}
    {s : Path} {chain : List Path} {p : Path} {part : Part} {done : List Entry} :
    StmtChecked place x x' place' → Tracks (s :: chain) p done place.scope →
      Fresh (part :: p) done →
      Advances (s :: chain) p done (x'.entries s (part :: p)) place'.scope
  | .declare hl, ht, _ => ht.declare rfl rfl rfl rfl rfl hl
  | .declareWith hv _ hl, ht, _ => by
    have hvalue := ht.uses (hv.uses s (.value :: part :: p))
    exact hvalue.append (hvalue.tracks.declare rfl rfl rfl rfl rfl hl)
  | .assign hx _ hv _, ht, _ => ht.uses (List.forall_mem_cons.mpr
      ⟨Entry.uses_of_name hx rfl rfl rfl rfl, hv.uses s _⟩)
  | .input hx _, ht, _ => ht.use (Entry.uses_of_name hx rfl rfl rfl rfl)
  | .print hv, ht, _ => ht.uses (hv.uses s _)
  | .evaluate hv, ht, _ => ht.uses (hv.uses s _)
  | .ret hv _, ht, _ => ht.uses (hv.uses s _)
  | .ifThen hc hb, ht, hf | .whileDo hc hb, ht, hf => by
    have huses := hc.uses s (.cond :: part :: p)
    have hcond := ht.uses huses
    have hfresh := ht.fresh_append hf huses
    have hin := hcond.tracks.step hfresh
    have hbody := hb.advances 0 (hin.enter (hfresh.below .body))
      fun j _ => (hfresh.below .body).below (.child j)
    exact hcond.append ((hin.inside (Stmt.entriesAll_inside _ 0 _) hbody).back ht.around)
  | @StmtChecked.ifElse _ _ _ _ _ _ body' _ _ _ elseBody' _ hc hb he, ht, hf => by
    have huses := hc.uses s (.cond :: part :: p)
    have hcond := ht.uses huses
    have hfresh := ht.fresh_append hf huses
    have hin := hcond.tracks.step hfresh
    have hbody := hin.inside (Stmt.entriesAll_inside _ 0 body') (hb.advances 0
      (hin.enter (hfresh.below .body)) fun j _ => (hfresh.below .body).below (.child j))
    have hwithin : ∀ n ∈ Stmt.entriesAll (.body :: part :: p) (.body :: part :: p) 0 body',
        n.Within (part :: p) (.body :: part :: p) :=
      fun n hn => .inr (Stmt.entriesAll_inside _ 0 body' n hn)
    have hother : Fresh (.orElse :: part :: p) _ :=
      (hfresh.below .orElse).append (fresh_of_within (List.suffix_refl _) (by simp) hwithin)
    have helse := hbody.tracks.inside (Stmt.entriesAll_inside _ 0 elseBody') (he.advances 0
      (hbody.tracks.enter hother) fun j _ => hother.below (.child j))
    have h := hcond.append ((hbody.append helse).back ht.around)
    rwa [← List.append_assoc] at h
  | @StmtChecked.forDo _ t _ init' _ _ cond' _ body' _ _ step' _ brace hi hc hb hs, ht, hf => by
    have hin := ht.enter hf
    have hinit := hi.advances hin (hf.below .init)
    have huses := conditions_uses (part :: p) (.cond :: part :: p) hc
    have hcond := hinit.tracks.uses huses
    have hfresh (other : Part) (hne : .init ≠ other) : Fresh (other :: part :: p) _ :=
      hinit.tracks.fresh_append ((hf.below other).append (fresh_of_within (List.suffix_refl _) hne
        (Stmt.entries?_within _ (.init :: part :: p) init'))) huses
    have hbody := (hb.advances 0 (hcond.tracks.step (hfresh .body (by simp)))
      fun j _ => (hfresh .body (by simp)).below (.child j)).back hin.around
    have hstep := hs.advances hbody.tracks ((hfresh .step (by simp)).append
      (fresh_of_within (List.suffix_refl _) (by simp)
        (Stmt.entriesAll_within _ (.body :: part :: p) 0 body')))
    -- all the parts of a loop are in its own scope
    have hinside : ∀ n ∈ Stmt.entries s (part :: p) (.forDo t init' cond' step' brace body'),
        part :: p <:+ n.scope :=
      fun n hn => (Stmt.entries_within (part :: p) (part :: p)
        (.forDo t init' cond' step' brace body') n hn).inside
    rw [Stmt.entries, List.append_assoc, List.append_assoc] at hinside ⊢
    exact ht.inside hinside (hinit.append (hcond.append (hbody.append hstep)))
  | .block hb, ht, hf => ht.inside (Stmt.entriesAll_inside _ 0 _)
      (hb.advances 0 (ht.enter hf) fun j _ => hf.below (.child j))

theorem ClauseChecked.advances {place place' : Place} {o : Option (Stmt Unit)}
    {o' : Option (Stmt Note)} {s : Path} {chain : List Path} {p : Path} {part : Part}
    {done : List Entry} : ClauseChecked place o o' place' →
      Tracks (s :: chain) p done place.scope → Fresh (part :: p) done →
      Advances (s :: chain) p done (Stmt.entries? s (part :: p) o') place'.scope
  | .none, ht, _ => ht.nil
  | .some hx, ht, hf => hx.advances ht hf

theorem StmtsChecked.advances {place place' : Place} {xs : List (Stmt Unit)}
    {xs' : List (Stmt Note)} {s : Path} {chain : List Path} {p : Path} {done : List Entry}
    (index : Nat) : StmtsChecked place xs xs' place' →
      Tracks (s :: chain) p done place.scope →
      (∀ j, index ≤ j → Fresh (.child j :: p) done) →
      Advances (s :: chain) p done (Stmt.entriesAll s p index xs') place'.scope
  | .nil, ht, _ => ht.nil
  | .cons hx hr, ht, hf => by
    have hfirst := hx.advances ht (hf index (Nat.le_refl _))
    refine hfirst.append (hr.advances (index + 1) hfirst.tracks ?_)
    intro j hj
    refine (hf j (by omega)).append ?_
    refine fresh_of_within (ht.around s List.mem_cons_self) ?_ (Stmt.entries_within s _ _)
    rintro ⟨⟩
    omega

end

theorem ParamsChecked.advances {place place' : Place} {xs : List (Param Unit)}
    {xs' : List (Param Note)} {s : Path} {chain : List Path} {p : Path} {done : List Entry}
    (path : Nat → Path) (h : ParamsChecked place xs xs' place')
    (ht : Tracks (s :: chain) p done place.scope) :
    Advances (s :: chain) p done
      (xs'.mapIdx fun i x => ⟨path i, s, .param, x.name, x.note⟩) place'.scope := by
  induction h generalizing path done with
  | nil => exact ht.nil
  | @cons place x rest rest' last hl hrest ih =>
    have hfirst : Advances (s :: chain) p done
        [⟨path 0, s, .param, x.name, .ofDeclaration (place.symbol x.token x.name x.type)⟩]
        (place.extend (place.symbol x.token x.name x.type)).scope :=
      ht.declare rfl rfl rfl rfl rfl hl
    rw [List.mapIdx_cons]
    exact hfirst.append (ih (fun i => path (i + 1)) hfirst.tracks)

theorem FuncChecked.advances {scope : Scope} {f : Func Unit} {f' : Func Note} {chain : List Path}
    {p : Path} {part : Part} {done : List Entry} (h : FuncChecked scope f f')
    (ht : Tracks chain p done scope) (hf : Fresh (part :: p) done) :
    Advances chain p done (f'.entries (part :: p)) scope := by
  have hin := ht.enter hf
  have hinside := f'.entries_inside (part :: p)
  cases h with
  | @mk params body place place' hp hb =>
    have hparams : Advances _ _ done (Param.entries (part :: p) params) place.scope :=
      hp.advances (fun i => .param i :: part :: p) hin
    have hfresh : Fresh (.body :: part :: p) _ := (hf.below .body).append
      (fresh_of_scope (List.suffix_refl _) (Param.entries_scope (part :: p) params))
    have hbody := (hb.advances 0 (hparams.tracks.step hfresh)
      fun j _ => hfresh.below (.child j)).back hin.around
    exact ht.inside hinside (hparams.append hbody)

theorem functions_advance {scope : Scope} {fs : List (Func Unit)} {fs' : List (Func Note)}
    {chain : List Path} {p : Path} {done : List Entry} {part : Nat → Part}
    (h : List.Forall₂ (FuncChecked scope) fs fs') (hpart : part.Injective)
    (ht : Tracks chain p done scope) (hf : ∀ i, Fresh (part i :: p) done) :
    Advances chain p done (fs'.mapIdx fun i f => f.entries (part i :: p)).flatten scope := by
  induction h generalizing part done with
  | nil => exact ht.nil
  | @cons f f' fs fs' hfirst hrest ih =>
    have hadvance := hfirst.advances ht (hf 0)
    rw [List.mapIdx_cons, List.flatten_cons]
    refine hadvance.append (ih ?_ hadvance.tracks ?_)
    · intro i j hij
      exact Nat.succ.inj (hpart hij)
    · intro i
      refine (hf (i + 1)).append (fresh_of_within (List.suffix_refl p) ?_
        fun n hn => .inr (f'.entries_inside (part 0 :: p) n hn))
      intro heq
      exact absurd (hpart heq) (by omega)

theorem signatures_advance {checked scope global : Scope} {fs : List (Func Unit)}
    {fs' : List (Func Note)} {done : List Entry} (path : Nat → Path)
    (h : List.Forall₂ (FuncChecked checked) fs fs')
    (hfold : fs.foldlM addFunction scope = .ok global) (ht : Tracks [[]] [] done scope) :
    Advances [[]] [] done (fs'.mapIdx fun i f => f.entry (path i)) global := by
  induction h generalizing path done scope with
  | nil =>
    cases hfold
    exact ht.nil
  | @cons f f' fs fs' hfirst hrest ih =>
    rw [List.foldlM_cons, bind_eq_ok] at hfold
    obtain ⟨next, hnext, hfold⟩ := hfold
    obtain ⟨hl, -, rfl⟩ := addFunction_eq_ok.mp hnext
    have hdeclared : Advances [[]] [] done [f'.entry (path 0)]
        { scope with symbols := scope.symbols ++ [signature f] } := by
      cases hfirst
      exact ht.declare rfl rfl rfl rfl rfl hl
    rw [List.mapIdx_cons]
    exact hdeclared.append (ih (fun i => path (i + 1)) hfold hdeclared.tracks)

theorem defines_of_uses {scope : Scope} {s : Path} {es : List Entry}
    (h : ∀ n ∈ es, n.Uses scope s) : es.filterMap (fun n => n.note.defines) = [] :=
  List.filterMap_eq_nil_iff.mpr fun n hn => (h n hn).silent

mutual

theorem StmtChecked.entries_defines {place place' : Place} {x : Stmt Unit} {x' : Stmt Note}
    (s p : Path) : StmtChecked place x x' place' →
      (x'.entries s p).filterMap (fun n => n.note.defines) = x'.defines
  | .declare _ => rfl
  | .declareWith hv _ _ => by
    rw [Stmt.entries, List.filterMap_append, Option.elim_some, defines_of_uses (hv.uses s _)]
    rfl
  | .assign hx _ hv _ => defines_of_uses (List.forall_mem_cons.mpr
      ⟨Entry.uses_of_name hx rfl rfl rfl rfl, hv.uses s _⟩)
  | .input _ _ => rfl
  | .print hv | .evaluate hv | .ret hv _ => defines_of_uses (hv.uses s _)
  | .ifThen hc hb | .whileDo hc hb => by
    rw [Stmt.entries, List.filterMap_append, defines_of_uses (hc.uses s _), hb.entries_defines]
    rfl
  | .ifElse hc hb he => by
    rw [Stmt.entries, List.filterMap_append, List.filterMap_append, defines_of_uses (hc.uses s _),
      hb.entries_defines, he.entries_defines]
    rfl
  | .forDo hi hc hb hs => by
    simp only [Stmt.entries, List.filterMap_append, hi.entries_defines, hb.entries_defines,
      hs.entries_defines, defines_of_uses (conditions_uses _ _ hc), List.append_nil, Stmt.defines]
  | .block hb => hb.entries_defines p p 0

theorem ClauseChecked.entries_defines {place place' : Place} {o : Option (Stmt Unit)}
    {o' : Option (Stmt Note)} (s p : Path) : ClauseChecked place o o' place' →
      (Stmt.entries? s p o').filterMap (fun n => n.note.defines) = Stmt.defines? o'
  | .none => rfl
  | .some hx => hx.entries_defines s p

theorem StmtsChecked.entries_defines {place place' : Place} {xs : List (Stmt Unit)}
    {xs' : List (Stmt Note)} (s p : Path) (index : Nat) : StmtsChecked place xs xs' place' →
      (Stmt.entriesAll s p index xs').filterMap (fun n => n.note.defines) = Stmt.definesAll xs'
  | .nil => rfl
  | .cons hx hr => by
    rw [Stmt.entriesAll, List.filterMap_append, hx.entries_defines, hr.entries_defines]
    rfl

end

theorem params_entries_defines (p : Path) (xs : List (Param Note)) :
    (Param.entries p xs).filterMap (fun n => n.note.defines) =
      xs.flatMap fun x => x.note.defines.toList := by
  rw [Param.entries, List.mapIdx_eq_zipIdx_map, List.filterMap_eq_flatMap_toList,
    List.flatMap_map]
  conv_rhs => rw [← List.zipIdx_map_fst 0 xs, List.flatMap_map]

theorem FuncChecked.entries_defines {scope : Scope} {f : Func Unit} {f' : Func Note} (p : Path)
    (h : FuncChecked scope f f') :
    (f'.entries p).filterMap (fun n => n.note.defines) = f'.defines := by
  cases h with
  | mk hp hb =>
    rw [Func.entries, List.filterMap_append, hb.entries_defines, params_entries_defines,
      Func.defines]

theorem FuncChecked.defines_ids {scope : Scope} {f : Func Unit} {f' : Func Note}
    (h : FuncChecked scope f f') :
    ∀ id ∈ f'.defines.map Symbol.id, ∃ serial, id = .var f'.name serial := by
  cases h with
  | mk hp hb =>
    rw [Func.defines, (hp.counts.append hb.counts).ids]
    intro id hid
    obtain ⟨serial, -, rfl⟩ := List.mem_map.mp hid
    exact ⟨serial, rfl⟩

theorem signatures_defines {scope : Scope} {fs : List (Func Unit)} {fs' : List (Func Note)}
    (path : Nat → Path) (h : List.Forall₂ (FuncChecked scope) fs fs') :
    (fs'.mapIdx fun i f => f.entry (path i)).filterMap (fun n => n.note.defines) =
      fs.map signature := by
  induction h generalizing path with
  | nil => rfl
  | @cons f f' fs fs' hf _ ih =>
    have hfirst : (f'.entry (path 0)).note.defines = some (signature f) := hf.defines.1
    rw [List.mapIdx_cons, List.filterMap_cons, hfirst, ih fun i => path (i + 1), List.map_cons]

theorem functions_defines {scope : Scope} {fs : List (Func Unit)} {fs' : List (Func Note)}
    (path : Nat → Path) (h : List.Forall₂ (FuncChecked scope) fs fs') :
    (fs'.mapIdx fun i f => f.entries (path i)).flatten.filterMap (fun n => n.note.defines) =
      fs'.flatMap Func.defines := by
  induction h generalizing path with
  | nil => rfl
  | cons hf _ ih =>
    rw [List.mapIdx_cons, List.flatten_cons, List.filterMap_append, hf.entries_defines,
      ih fun i => path (i + 1), List.flatMap_cons]

end Typing

theorem Program.defines_nodup {x : Program Unit} {a : Analysis} (h : x.analyze = .ok a) :
    ((a.program.entries.filterMap fun n => n.note.defines).map Symbol.id).Nodup := by
  have hnames := Program.analyze_names h
  obtain ⟨hnodup, -, -, -, hfs⟩ := Program.analyze_eq_ok.mp h
  have hchecked : ∀ f' ∈ a.program.functions, ∃ f, Typing.FuncChecked a.global f f' := by
    intro f' hf'
    obtain ⟨f, -, hf⟩ := exists_of_forall₂ hfs.flip hf'
    exact ⟨f, hf⟩
  rw [Program.entries, List.filterMap_append, Typing.signatures_defines _ hfs,
    Typing.functions_defines _ hfs, List.map_append, List.map_flatMap, List.map_map]
  refine List.nodup_append'.mpr ⟨?_, ?_, ?_⟩
  · have hids : x.functions.map (Symbol.id ∘ Typing.signature) =
        (x.functions.map Func.name).map SymbolId.func := by
      rw [List.map_map]
      rfl
    rw [hids]
    exact hnodup.map fun _ _ => SymbolId.func.inj
  · refine List.nodup_flatMap.mpr ⟨?_, ?_⟩
    · intro f' hf'
      obtain ⟨f, hf⟩ := hchecked f' hf'
      exact hf.defines_nodup
    · rw [← hnames] at hnodup
      refine (List.pairwise_map.mp hnodup).imp_of_mem ?_
      intro f' g' hf' hg' hne id hf hg
      obtain ⟨f, hfc⟩ := hchecked f' hf'
      obtain ⟨g, hgc⟩ := hchecked g' hg'
      obtain ⟨i, rfl⟩ := hfc.defines_ids id hf
      obtain ⟨j, hj⟩ := hgc.defines_ids _ hg
      exact hne (SymbolId.var.inj hj).1
  · intro id hid hid'
    obtain ⟨f, -, rfl⟩ := List.mem_map.mp hid
    obtain ⟨f', hf', hmem⟩ := List.mem_flatMap.mp hid'
    obtain ⟨g, hg⟩ := hchecked f' hf'
    obtain ⟨i, hi⟩ := hg.defines_ids _ hmem
    cases hi

theorem Program.entries_advance {x : Program Unit} {a : Analysis} (h : x.analyze = .ok a) :
    Advances [[]] [] [] a.program.entries a.global := by
  obtain ⟨hnodup, hmain, hglobal, -, hfs⟩ := Program.analyze_eq_ok.mp h
  have hfold : x.functions.foldlM Typing.addFunction Scope.global = .ok a.global :=
    Typing.foldlM_addFunction.mpr ⟨fun _ _ => rfl, hnodup, hmain, hglobal⟩
  have hstart : Tracks [[]] [] [] Scope.global := by
    refine ⟨rfl, List.pairwise_singleton _ _, by simp, ?_, ?_, ?_⟩ <;> simp
  have hdeclared := Typing.signatures_advance (fun i => [.child i]) hfs hfold hstart
  refine hdeclared.append (Typing.functions_advance hfs (fun i j => Part.child.inj)
    hdeclared.tracks ?_)
  intro i
  refine fresh_of_scope (List.suffix_refl []) ?_
  intro n hn
  obtain ⟨j, hj, rfl⟩ := List.mem_mapIdx.mp hn
  rfl

/-- In every source that checks, the declarations define different symbols, and each name refers to
the symbol of the declaration of that name that is checked before it in the innermost scope. -/
theorem names_resolve_lexically {source : Text} {a : Analysis} (h : check source = .ok a) :
    parse source = .ok (a.program.map fun _ => ()) ∧
      (a.program.entries.map Entry.noted).Perm a.program.notes ∧
      (∀ n ∈ a.program.entries, n.Proper) ∧
      ((a.program.entries.filterMap fun n => n.note.defines).map Symbol.id).Nodup ∧
      ∀ before n after, a.program.entries = before ++ n :: after → n.refers = true →
        ∃ d x, n.Means before d ∧ d.note.defines = some x ∧ n.note.refers = some x := by
  obtain ⟨x, hx, ha⟩ := check_eq_ok.mp h
  have hadvance := Program.entries_advance ha
  refine ⟨by rw [hx, Program.analyze_erased ha], a.program.entries_noted, ?_,
    Program.defines_nodup ha, ?_⟩
  · simpa using hadvance.tracks.proper
  · intro before n after hsplit hrefers
    have hright := hadvance.right.right hsplit
    rw [← hright.proper.refers, Option.isSome_iff_exists] at hrefers
    obtain ⟨x, hx⟩ := hrefers
    obtain ⟨d, hd, hdx⟩ := hright.means x hx
    exact ⟨d, x, by simpa using hd, hdx, hx⟩

theorem names_resolve_lexically_nestedLoops : ∃ a, check nestedLoops = .ok a ∧
    parse nestedLoops = .ok (a.program.map fun _ => ()) ∧
      (a.program.entries.map Entry.noted).Perm a.program.notes ∧
      (∀ n ∈ a.program.entries, n.Proper) ∧
      ((a.program.entries.filterMap fun n => n.note.defines).map Symbol.id).Nodup ∧
      ∀ before n after, a.program.entries = before ++ n :: after → n.refers = true →
        ∃ d x, n.Means before d ∧ d.note.defines = some x ∧ n.note.refers = some x := by
  have hok : (check nestedLoops).isOk := by decide +kernel
  obtain ⟨a, ha⟩ := exists_of_isOk hok
  exact ⟨a, ha, names_resolve_lexically ha⟩

end MiniSharp
