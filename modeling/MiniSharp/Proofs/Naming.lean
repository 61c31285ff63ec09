import MiniSharp.Proofs.GivenNames

namespace MiniSharp

namespace Target

def Simple.locals : Simple → List Text
  | .declare _ name _ => [name]
  | .assign .. | .call _ | .discard _ => []

mutual

def Stmt.locals : Stmt → List Text
  | .simple stmt => stmt.locals
  | .ifThen _ body | .whileDo _ body | .block body => Stmt.localsAll body
  | .ifElse _ body elseBody => Stmt.localsAll body ++ Stmt.localsAll elseBody
  | .forDo init _ step body =>
    init.elim [] Simple.locals ++ (step.elim [] Simple.locals ++ Stmt.localsAll body)
  | .print _ | .read .. | .ret _ => []

def Stmt.localsAll : List Stmt → List Text
  | [] => []
  | s :: rest => s.locals ++ Stmt.localsAll rest

end

def Method.locals (m : Method) : List Text := m.params.map Local.name ++ Stmt.localsAll m.body

/-- No name is taken twice where both are visible, nor is one that the code uses for itself; names
are compared by what `view` keeps of them. -/
structure CaptureFree (view : Text → Text) (methods : List Method) : Prop where
  methodsDistinct : (methods.map fun m => view m.name).Nodup
  methodsUnreserved : ∀ m ∈ methods, view m.name ∈ reserved → m.name = ("Main" : Text)
  localsDistinct : ∀ m ∈ methods, (m.locals.map view).Nodup
  localsNoMethods : ∀ m ∈ methods, ∀ x ∈ m.locals, ∀ n ∈ methods, view x ≠ view n.name
  localsUnreserved : ∀ m ∈ methods, ∀ x ∈ m.locals, view x ∉ reserved

theorem Stmt.localsAll_append (ss ts : List Stmt) :
    Stmt.localsAll (ss ++ ts) = Stmt.localsAll ss ++ Stmt.localsAll ts := by
  induction ss with
  | nil => rfl
  | cons s ss ih => rw [List.cons_append, Stmt.localsAll, ih, Stmt.localsAll, List.append_assoc]

theorem Stmt.localsAll_clause (o : Option Simple) :
    Stmt.localsAll (o.map Stmt.simple).toList = o.elim [] Simple.locals := by
  cases o with
  | none => rfl
  | some s => exact List.append_nil _

end Target

theorem Token.Names.isName {t : Token} {name : Text} (h : t.Names Token.WellSpelled name) :
    IsName name :=
  h.text ▸ h.holds.name h.kind

namespace Lowering

structure Takes (used used' new : List Text) : Prop where
  taken : used' = new.reverse ++ used
  nodup : new.Nodup
  fresh : ∀ x ∈ new, x ∉ used ∧ Target.Legal x

namespace Takes

theorem nil (used : List Text) : Takes used used [] := ⟨rfl, List.nodup_nil, by simp⟩

theorem localName {name : Text} (h : IsName name) (used : List Text) :
    Takes used (Target.localName name used :: used) [Target.localName name used] := by
  refine ⟨rfl, List.nodup_singleton _, fun x hx => ?_⟩
  rw [List.mem_singleton.mp hx]
  exact ⟨Target.localName_not_mem name used, Target.localName_legal h used⟩

theorem append {used₁ used₂ used₃ xs ys : List Text} (h : Takes used₁ used₂ xs)
    (h' : Takes used₂ used₃ ys) : Takes used₁ used₃ (xs ++ ys) := by
  have hys : ∀ y ∈ ys, y ∉ xs ∧ y ∉ used₁ := by
    intro y hy
    have hfresh := (h'.fresh y hy).1
    rw [h.taken, List.mem_append, List.mem_reverse] at hfresh
    exact not_or.mp hfresh
  refine ⟨by rw [h'.taken, h.taken, List.reverse_append, List.append_assoc], ?_, ?_⟩
  · apply h.nodup.append h'.nodup
    intro x hx hy
    exact (hys x hy).1 hx
  · intro x hx
    rcases List.mem_append.mp hx with hx | hx
    · exact h.fresh x hx
    · exact ⟨(hys x hx).2, (h'.fresh x hx).2⟩

end Takes

theorem declare_takes {names names' : Names} {note : Note} {name given : Text} (hn : IsName name)
    (h : declare names note name = .ok (given, names')) :
    Takes names.used names'.used [given] := by
  simp only [declare, bind_eq_ok, pure_eq_ok, Prod.mk.injEq] at h
  obtain ⟨x, -, rfl, rfl⟩ := h
  exact .localName hn names.used

theorem simple_takes {names names' : Names} {s : Stmt Note} {t : Target.Simple}
    (hs : s.Formed Token.WellSpelled) (h : simple names s = .ok (t, names')) :
    Takes names.used names'.used t.locals := by
  cases s with
  | declare note token name type value =>
    simp only [simple] at h
    split at h
    all_goals
      simp only [bind_eq_ok, pure_eq_ok, Prod.exists, Prod.mk.injEq] at h
      obtain ⟨e, -, given, _, hd, rfl, rfl⟩ := h
      exact declare_takes hs.1.isName hd
  | assign =>
    simp only [simple, bind_eq_ok, pure_eq_ok, Prod.mk.injEq] at h
    obtain ⟨given, -, e, -, rfl, rfl⟩ := h
    exact .nil names.used
  | evaluate =>
    simp only [simple, bind_eq_ok, pure_eq_ok, Prod.mk.injEq] at h
    obtain ⟨e, -, rfl, rfl⟩ := h
    split <;> exact .nil names.used
  | input | print | ret | ifThen | ifElse | whileDo | forDo | block | foreign => cases h

theorem clause_takes {names names' : Names} {o : Option (Stmt Note)} {t : Option Target.Simple}
    (ho : Stmt.OptFormed Token.WellSpelled o) (h : simple? names o = .ok (t, names')) :
    Takes names.used names'.used (t.elim [] Target.Simple.locals) := by
  cases o with
  | none =>
    simp only [simple?, pure_eq_ok, Prod.mk.injEq] at h
    obtain ⟨rfl, rfl⟩ := h
    exact .nil names.used
  | some s =>
    simp only [simple?, bind_eq_ok, pure_eq_ok, Prod.exists, Prod.mk.injEq] at h
    obtain ⟨t, _, hs, rfl, rfl⟩ := h
    exact simple_takes ho hs

mutual

theorem stmt_takes {names names' : Names} {t : Target.Stmt} :
    (s : Stmt Note) → s.Formed Token.WellSpelled → stmt names s = .ok (t, names') →
      Takes names.used names'.used t.locals
  | .declare .., hs, h | .assign .., hs, h | .evaluate .., hs, h => by
    rw [stmt_of_isInit rfl] at h
    simp only [bind_eq_ok, pure_eq_ok, Prod.exists, Prod.mk.injEq] at h
    obtain ⟨t, _, hs', rfl, rfl⟩ := h
    exact simple_takes hs hs'
  | .input note t name, hs, h => by
    simp only [stmt, bind_eq_ok] at h
    obtain ⟨given, -, h⟩ := h
    split at h <;> cases h
    exact .nil names.used
  | .print t value, hs, h => by
    simp only [stmt, bind_eq_ok, pure_eq_ok, Prod.mk.injEq] at h
    obtain ⟨e, -, rfl, rfl⟩ := h
    exact .nil names.used
  | .ret t value, hs, h => by
    simp only [stmt, bind_eq_ok, pure_eq_ok, Prod.mk.injEq] at h
    obtain ⟨e, -, rfl, rfl⟩ := h
    exact .nil names.used
  | .ifThen t cond brace body, hs, h => by
    simp only [stmt, bind_eq_ok, pure_eq_ok, Prod.exists, Prod.mk.injEq] at h
    obtain ⟨c, -, b, _, hb, rfl, rfl⟩ := h
    exact stmts_takes body hs.2.2.2 hb
  | .ifElse t cond brace body elseBrace elseBody, hs, h => by
    simp only [stmt, bind_eq_ok, pure_eq_ok, Prod.exists, Prod.mk.injEq] at h
    obtain ⟨c, -, b, _, hb, e, _, he, rfl, rfl⟩ := h
    obtain ⟨-, -, -, hbody, -, helse⟩ := hs
    exact (stmts_takes body hbody hb).append (stmts_takes elseBody helse he)
  | .whileDo t cond brace body, hs, h => by
    simp only [stmt, bind_eq_ok, pure_eq_ok, Prod.exists, Prod.mk.injEq] at h
    obtain ⟨c, -, b, _, hb, rfl, rfl⟩ := h
    exact stmts_takes body hs.2.2.2 hb
  | .forDo t init cond step brace body, hs, h => by
    simp only [stmt, bind_eq_ok] at h
    obtain ⟨used, -, h⟩ := h
    obtain ⟨-, -, hinit, -, -, hstep, -, hbody⟩ := hs
    split at h
    · simp only [bind_eq_ok, pure_eq_ok, Prod.exists, Prod.mk.injEq] at h
      obtain ⟨i, _, hi, c, -, b, _, hb, s, _, hst, rfl, rfl⟩ := h
      rw [Target.Stmt.locals, Target.Stmt.localsAll_append, Target.Stmt.localsAll_clause,
        Target.Stmt.localsAll, Target.Stmt.locals, Target.Stmt.localsAll_append,
        Target.Stmt.localsAll_clause, Target.Stmt.localsAll, List.append_nil]
      exact (clause_takes hinit hi).append
        ((stmts_takes body hbody hb).append (clause_takes hstep hst))
    · simp only [bind_eq_ok, pure_eq_ok, Prod.exists, Prod.mk.injEq] at h
      obtain ⟨i, _, hi, c, -, s, _, hst, b, _, hb, rfl, rfl⟩ := h
      exact (clause_takes hinit hi).append
        ((clause_takes hstep hst).append (stmts_takes body hbody hb))
  | .block brace body, hs, h => by
    simp only [stmt, bind_eq_ok, pure_eq_ok, Prod.exists, Prod.mk.injEq] at h
    obtain ⟨b, _, hb, rfl, rfl⟩ := h
    exact stmts_takes body hs.2 hb
  | .foreign .., hs, _ => hs.elim

theorem stmts_takes {names names' : Names} {ts : List Target.Stmt} :
    (ss : List (Stmt Note)) → Stmt.AllFormed Token.WellSpelled ss →
      stmts names ss = .ok (ts, names') →
      Takes names.used names'.used (Target.Stmt.localsAll ts)
  | [], _, h => by
    simp only [stmts, pure_eq_ok, Prod.mk.injEq] at h
    obtain ⟨rfl, rfl⟩ := h
    exact .nil names.used
  | s :: rest, hs, h => by
    simp only [stmts, bind_eq_ok, pure_eq_ok, Prod.exists, Prod.mk.injEq] at h
    obtain ⟨t, _, ht, ts, _, hts, rfl, rfl⟩ := h
    exact (stmt_takes s hs.1 ht).append (stmts_takes rest hs.2 hts)

end

theorem params_takes {names names' : Names} {xs : List (Param Note)} {ls : List Target.Local}
    (hx : ∀ x ∈ xs, x.Formed Token.WellSpelled) (h : params names xs = .ok (ls, names')) :
    Takes names.used names'.used (ls.map Target.Local.name) := by
  induction xs generalizing names ls with
  | nil =>
    simp only [params, pure_eq_ok, Prod.mk.injEq] at h
    obtain ⟨rfl, rfl⟩ := h
    exact .nil names.used
  | cons x rest ih =>
    simp only [params, bind_eq_ok, pure_eq_ok, Prod.exists, Prod.mk.injEq] at h
    obtain ⟨given, _, hd, ls, _, hls, rfl, rfl⟩ := h
    obtain ⟨hx, hrest⟩ := List.forall_mem_cons.mp hx
    exact (declare_takes hx.name.isName hd).append (ih hrest hls)

inductive Origin (used : List Text) (fs : List (Func Note)) : Text → Prop
  | entry {f : Func Note} : f ∈ fs → f.name = Typing.entryName → Origin used fs ("Main" : Text)
  | fresh {n : Text} : n ∉ used → Target.Legal n → Origin used fs n
  | kept {f : Func Note} : f ∈ fs → f.name ≠ Typing.entryName → f.name ∉ Target.reserved →
    IsName f.name → Origin used fs (Target.escapeName f.name)

theorem main_reserved : ("Main" : Text) ∈ Target.reserved := by decide +kernel

theorem Origin.legal {used : List Text} {fs : List (Func Note)} {n : Text}
    (h : Origin used fs n) : Target.Legal n := by
  cases h with
  | entry => exact .of_reserved main_reserved
  | fresh _ hl => exact hl
  | kept _ _ _ hn => exact Target.escapeName_legal hn

theorem Origin.eq_main {used : List Text} {fs : List (Func Note)} {n : Text}
    (h : Origin used fs n) (hres : ∀ r ∈ Target.reserved, r ∈ used) (hn : n ∈ Target.reserved) :
    n = ("Main" : Text) := by
  cases h with
  | entry => rfl
  | fresh hu _ => exact absurd (hres n hn) hu
  | @kept f _ _ hr hname =>
    have hb := Target.bare_escapeName hname
    rw [Target.bare_of_head (Target.reserved_plain hn).2] at hb
    exact absurd (hb ▸ hn) hr

theorem Origin.cons {used : List Text} {fs : List (Func Note)} {given n : Text} (f : Func Note)
    (h : Origin (given :: used) fs n) : Origin used (f :: fs) n := by
  cases h with
  | entry hf hm => exact .entry (List.mem_cons_of_mem f hf) hm
  | fresh hu hl => exact .fresh (fun hn => hu (List.mem_cons_of_mem given hn)) hl
  | kept hf hm hr hn => exact .kept (List.mem_cons_of_mem f hf) hm hr hn

theorem methodName_origin {f : Func Note} {fs : List (Func Note)} (hf : f ∈ fs)
    (hn : IsName f.name) (used : List Text) : Origin used fs (methodName f.name used) := by
  unfold methodName
  split
  · exact .entry hf ‹_›
  · split
    · exact .fresh (Target.freshName_not_mem _ _) (Target.freshName_legal hn used)
    · exact .kept hf ‹_› ‹_› hn

theorem methodName_eq_main {name : Text} {used : List Text} (hn : IsName name)
    (hres : ∀ r ∈ Target.reserved, r ∈ used) :
    methodName name used = ("Main" : Text) ↔ name = Typing.entryName := by
  unfold methodName
  split
  · next hm => exact iff_of_true rfl hm
  · next hm =>
    refine iff_of_false ?_ hm
    split
    · intro h
      exact Target.freshName_not_mem name used (h ▸ hres _ main_reserved)
    · next hr =>
      intro h
      have hb := Target.bare_escapeName hn
      rw [h, Target.bare_of_head (Target.reserved_plain main_reserved).2] at hb
      exact hr (hb ▸ main_reserved)

theorem methodName_ne {f : Func Note} {rest : List (Func Note)} {used : List Text} {n : Text}
    (hf : IsName f.name) (hres : ∀ r ∈ Target.reserved, r ∈ used)
    (hused : ∀ g ∈ rest, g.name ≠ Typing.entryName → g.name ∈ used)
    (hnew : ∀ g ∈ rest, g.name ≠ f.name)
    (hn : Origin (methodName f.name used :: used) rest n) : methodName f.name used ≠ n := by
  cases hn with
  | fresh hu _ => exact fun he => hu (he ▸ List.mem_cons_self)
  | entry hg hm => exact fun he => hnew _ hg (hm.trans ((methodName_eq_main hf hres).mp he).symm)
  -- A kept name is in use from the start, so no number leads to it.
  | @kept g hg hm hr hname =>
    intro he
    have hb : Target.bare (methodName f.name used) = g.name := by
      rw [he, Target.bare_escapeName hname]
    unfold methodName at hb
    split at hb
    · rw [Target.bare_of_head (Target.reserved_plain main_reserved).2] at hb
      exact hr (hb ▸ main_reserved)
    · split at hb
      · rw [Target.bare_of_head (Target.freshName_head hf used)] at hb
        exact Target.freshName_not_mem f.name used (hb ▸ hused g hg hm)
      · rw [Target.bare_escapeName hf] at hb
        exact hnew g hg hb.symm

theorem nameMethods_names {fs : List (Func Note)} {used : List Text}
    {methods : List (SymbolId × Text)} (h : nameMethods used fs = .ok methods)
    (hn : ∀ f ∈ fs, IsName f.name) (hd : (fs.map Func.name).Nodup)
    (hres : ∀ r ∈ Target.reserved, r ∈ used)
    (hused : ∀ f ∈ fs, f.name ≠ Typing.entryName → f.name ∈ used) :
    (methods.map Prod.snd).Nodup ∧ (∀ n ∈ methods.map Prod.snd, Origin used fs n) ∧
      List.Forall₂ (fun f n => n = ("Main" : Text) ↔ f.name = Typing.entryName) fs
        (methods.map Prod.snd) := by
  induction fs generalizing used methods with
  | nil =>
    simp only [nameMethods, pure_eq_ok] at h
    subst h
    exact ⟨List.nodup_nil, by simp, .nil⟩
  | cons f rest ih =>
    simp only [nameMethods, bind_eq_ok, pure_eq_ok] at h
    obtain ⟨x, -, more, hmore, rfl⟩ := h
    obtain ⟨hf, hrest⟩ := List.forall_mem_cons.mp hn
    obtain ⟨hnew, hd⟩ := List.nodup_cons.mp hd
    have hlater : ∀ g ∈ rest, g.name ≠ Typing.entryName → g.name ∈ used :=
      fun g hg => hused g (List.mem_cons_of_mem f hg)
    obtain ⟨hnodup, horigin, hmain⟩ := ih hmore hrest hd
      (fun r hr => List.mem_cons_of_mem _ (hres r hr))
      (fun g hg hm => List.mem_cons_of_mem _ (hlater g hg hm))
    have hne : ∀ g ∈ rest, g.name ≠ f.name :=
      fun g hg he => hnew (he ▸ List.mem_map_of_mem hg)
    refine ⟨List.nodup_cons.mpr ⟨fun hmem => ?_, hnodup⟩, ?_, .cons ?_ hmain⟩
    · exact methodName_ne hf hres hlater hne (horigin _ hmem) rfl
    · exact List.forall_mem_cons.mpr
        ⟨methodName_origin List.mem_cons_self hf used, fun n hn => (horigin n hn).cons f⟩
    · exact methodName_eq_main hf hres

theorem lookup_of_mem {methods : List (SymbolId × Text)} (hd : (methods.map Prod.fst).Nodup)
    {m : SymbolId × Text} (hm : m ∈ methods) : methods.lookup m.1 = some m.2 := by
  induction methods with
  | nil => cases hm
  | cons n rest ih =>
    obtain ⟨hn, hd⟩ := List.nodup_cons.mp hd
    rcases List.mem_cons.mp hm with rfl | hm
    · exact List.lookup_cons_self
    · have hne : m.1 ≠ n.1 := fun he => hn (he ▸ List.mem_map_of_mem hm)
      rw [List.lookup_cons, beq_false_of_ne hne]
      exact ih hd hm

theorem method_takes {methods : List (SymbolId × Text)} {f : Func Note} {m : Target.Method}
    (hf : f.Formed Token.WellSpelled) (h : methodApart methods f = .ok m) :
    m.entry = decide (f.name = Typing.entryName) ∧
      (∀ x, f.note.defines = some x → m.name = (methods.lookup x.id).getD []) ∧
      ∃ used, Takes (Target.reserved ++ methods.map Prod.snd) used m.locals := by
  simp only [methodApart, method, bind_eq_ok, pure_eq_ok, Prod.exists] at h
  obtain ⟨_, _, ⟨x, hx, ls, names, hls, body, names', hb, hm⟩, rfl⟩ := h
  cases hm
  refine ⟨rfl, fun y hy => ?_, names'.used, ?_⟩
  · rw [defined, hy, Except.ok.injEq] at hx
    rw [hx]
  · have htakes := (params_takes hf.params hls).append (stmts_takes f.body hf.body hb)
    unfold Target.Method.locals
    dsimp only
    split
    · exact htakes
    · rw [Target.Stmt.localsAll_append]
      exact (List.append_nil _).symm ▸ htakes

end Lowering

theorem Target.CaptureFree.bare {methods : List Target.Method}
    (h : Target.CaptureFree id methods)
    (hl : ∀ m ∈ methods, ∀ x ∈ m.name :: m.locals, Target.Legal x) :
    Target.CaptureFree Target.bare methods := by
  have hname : ∀ m ∈ methods, Target.Legal m.name := fun m hm => hl m hm _ List.mem_cons_self
  have hlocal : ∀ m ∈ methods, ∀ x ∈ m.locals, Target.Legal x :=
    fun m hm x hx => hl m hm x (List.mem_cons_of_mem _ hx)
  have hreserved {x : Text} (hx : Target.Legal x) (hr : Target.bare x ∈ Target.reserved) :
      x ∈ Target.reserved := by
    have hb := Target.bare_of_head (Target.reserved_plain hr).2
    rwa [hx.bare_injective (.of_reserved hr) hb.symm]
  constructor
  · have hlegal : ∀ n ∈ methods.map Target.Method.name, Target.Legal n :=
      List.forall_mem_map.mpr hname
    have hnodup := List.Nodup.map_on (fun x hx y hy =>
      (hlegal x hx).bare_injective (hlegal y hy)) h.methodsDistinct
    rwa [List.map_map] at hnodup
  · exact fun m hm hr => h.methodsUnreserved m hm (hreserved (hname m hm) hr)
  · intro m hm
    have hnodup : m.locals.Nodup := by simpa using h.localsDistinct m hm
    exact hnodup.map_on fun x hx y hy => (hlocal m hm x hx).bare_injective (hlocal m hm y hy)
  · intro m hm x hx n hn he
    exact h.localsNoMethods m hm x hx n hn ((hlocal m hm x hx).bare_injective (hname n hn) he)
  · exact fun m hm x hx hr => h.localsUnreserved m hm x hx (hreserved (hlocal m hm x hx) hr)

theorem Lowering.map_name {fs : List (Func Note)} {methods : List (SymbolId × Text)}
    {ms : List Target.Method} (hd : (fs.map Func.name).Nodup)
    (hids : methods.map Prod.fst = (fs.map Func.name).map SymbolId.func)
    (h : List.Forall₂ (fun f m => (methods.lookup (.func (Func.name f))).getD [] =
      Target.Method.name m) fs ms) :
    ms.map Target.Method.name = methods.map Prod.snd := by
  have hkeys : (methods.map Prod.fst).Nodup := by
    rw [hids]
    exact hd.map fun _ _ => SymbolId.func.inj
  calc ms.map Target.Method.name
      = fs.map fun f => (methods.lookup (.func f.name)).getD [] :=
        (map_eq_map_of_forall₂ h).symm
    _ = (methods.map Prod.fst).map fun id => (methods.lookup id).getD [] := by
        rw [hids, List.map_map, List.map_map]
        rfl
    _ = methods.map Prod.snd := by
        rw [List.map_map]
        refine List.map_congr_left fun m hm => ?_
        rw [Function.comp_apply, lookup_of_mem hkeys hm, Option.getD_some]

theorem Program.lowerApart_names {y : Program Note} {ms : List Target.Method}
    (hform : y.Formed Token.WellSpelled)
    (hdef : ∀ f ∈ y.functions, ∃ x, f.note.defines = some x ∧ x.id = .func f.name)
    (hd : (y.functions.map Func.name).Nodup) (h : y.lowerApart = .ok ms) :
    List.Forall₂ (fun f m => m.entry = decide (f.name = Typing.entryName) ∧
        (m.name = ("Main" : Text) ↔ f.name = Typing.entryName)) y.functions ms ∧
      Target.CaptureFree id ms ∧ ∀ m ∈ ms, ∀ x ∈ m.name :: m.locals, Target.Legal x := by
  simp only [Program.lowerApart, bind_eq_ok] at h
  obtain ⟨methods, hmethods, hms⟩ := h
  obtain ⟨_, hmethods', hids⟩ := Lowering.nameMethods_eq_ok hdef
    (Target.reserved ++ (y.functions.map Func.name).filter (· ≠ Typing.entryName))
  obtain rfl := Except.ok.inj (hmethods.symm.trans hmethods')
  have hres : ∀ r ∈ Target.reserved, r ∈ Target.reserved ++
      (y.functions.map Func.name).filter (· ≠ Typing.entryName) :=
    fun r hr => List.mem_append_left _ hr
  obtain ⟨hnodup, horigin, hmain⟩ := Lowering.nameMethods_names hmethods
    (fun f hf => (hform f hf).name.isName) hd hres
    fun f hf hm => List.mem_append_right _
      (List.mem_filter.mpr ⟨List.mem_map_of_mem hf, decide_eq_true hm⟩)
  have hmade : List.Forall₂ (fun f m => m.entry = decide (f.name = Typing.entryName) ∧
      (methods.lookup (.func f.name)).getD [] = m.name ∧
      ∃ used, Lowering.Takes (Target.reserved ++ methods.map Prod.snd) used m.locals)
      y.functions ms := by
    have hall : ∀ f ∈ y.functions, f.Formed Token.WellSpelled ∧
        ∃ x, f.note.defines = some x ∧ x.id = .func f.name :=
      fun f hf => ⟨hform f hf, hdef f hf⟩
    refine ((List.forall₂_and_left _ _).mpr ⟨hall, mapM_eq_ok.mp hms⟩).imp ?_
    rintro f m ⟨⟨hf, x, hx, hid⟩, hm⟩
    obtain ⟨hentry, hname, htakes⟩ := Lowering.method_takes hf hm
    exact ⟨hentry, by rw [hname x hx, hid], htakes⟩
  have hnames := Lowering.map_name hd hids (hmade.imp fun _ _ h => h.2.1)
  rw [← hnames] at hnodup horigin hmain hmade
  have horigin' := List.forall_mem_map.mp horigin
  have hlocals : ∀ m ∈ ms, ∃ used,
      Lowering.Takes (Target.reserved ++ ms.map Target.Method.name) used m.locals := by
    intro m hm
    obtain ⟨f, -, -, -, htakes⟩ := exists_of_forall₂ hmade.flip hm
    exact htakes
  refine ⟨?_, ⟨hnodup, ?_, ?_, ?_, ?_⟩, ?_⟩
  · exact hmade.mp (fun f m h hmain => ⟨h.1, hmain⟩) (List.forall₂_map_right_iff.mp hmain)
  · exact fun m hm hr => (horigin' m hm).eq_main hres hr
  · intro m hm
    obtain ⟨used, htakes⟩ := hlocals m hm
    rw [List.map_id]
    exact htakes.nodup
  · intro m hm x hx n hn he
    obtain ⟨used, htakes⟩ := hlocals m hm
    refine (htakes.fresh x hx).1 (List.mem_append_right _ ?_)
    exact List.mem_map.mpr ⟨n, hn, he.symm⟩
  · intro m hm x hx hr
    obtain ⟨used, htakes⟩ := hlocals m hm
    exact (htakes.fresh x hx).1 (List.mem_append_left _ hr)
  · intro m hm
    obtain ⟨used, htakes⟩ := hlocals m hm
    exact List.forall_mem_cons.mpr ⟨(horigin' m hm).legal, fun x hx => (htakes.fresh x hx).2⟩

/-- Every source that checks is compiled to methods whose names capture nothing, also when at signs
do not count; no name is a keyword, and the entry alone is called Main. -/
theorem names_capture_free {source : Text} {a : Analysis} (h : check source = .ok a) :
    ∃ methods, a.program.lower = .ok methods ∧
      List.Forall₂ (fun f m => m.entry = decide (f.name = Typing.entryName) ∧
        (m.name = ("Main" : Text) ↔ f.name = Typing.entryName)) a.program.functions methods ∧
      Target.CaptureFree id methods ∧ Target.CaptureFree Target.bare methods ∧
      ∀ m ∈ methods, ∀ x ∈ m.name :: m.locals, x ∉ Target.keywords := by
  obtain ⟨x, hx, ha⟩ := check_eq_ok.mp h
  have hform : x.Formed Token.WellSpelled := parse_formed hx (scan_wellSpelled source)
  obtain ⟨methods, hl, -⟩ := Program.lower_emitted hform ha
  have hform' := hform
  rw [← Program.analyze_erased ha, Program.formed_map] at hform'
  have hd : (a.program.functions.map Func.name).Nodup := by
    rw [Program.analyze_names ha]
    exact (Program.analyze_eq_ok.mp ha).1
  obtain ⟨hmain, hfree, hlegal⟩ :=
    Program.lowerApart_names hform' (Program.analyze_defines ha) hd
      ((Program.lower_eq_lowerApart hform ha).symm.trans hl)
  refine ⟨methods, hl, hmain, hfree, hfree.bare hlegal, ?_⟩
  exact fun m hm x hx => (hlegal m hm x hx).not_keyword

def lookalikes : Text := Text.ofString
  "func Main(lock: int): int \x7b if (true) \x7b var lock: int = 1; \x7d return lock; \x7d
  func main(): int \x7b var Main_1: int = Main(1); return 0; \x7d"

theorem names_capture_free_lookalikes :
    ∃ a, check lookalikes = .ok a ∧
      ∃ methods, a.program.lower = .ok methods ∧
        List.Forall₂ (fun f m => m.entry = decide (f.name = Typing.entryName) ∧
          (m.name = ("Main" : Text) ↔ f.name = Typing.entryName)) a.program.functions methods ∧
        Target.CaptureFree id methods ∧ Target.CaptureFree Target.bare methods ∧
        ∀ m ∈ methods, ∀ x ∈ m.name :: m.locals, x ∉ Target.keywords := by
  have hok : (check lookalikes).isOk := by decide +kernel
  obtain ⟨a, ha⟩ := exists_of_isOk hok
  exact ⟨a, ha, names_capture_free ha⟩

end MiniSharp
