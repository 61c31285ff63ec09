import MiniSharp.Proofs.FunctionOrder
import MiniSharp.Proofs.Naming
import MiniSharp.Proofs.PrintedLines
import MiniSharp.Proofs.TwinLowering
import MiniSharp.Proofs.TypeRules

namespace MiniSharp

theorem Text.underscore_not_mem_decimal (n : Nat) : byte '_' ∉ decimal n := by
  have hdigit {d : Nat} (hd : d < 10) : byte '_' ≠ (48 + d).toUInt8 := by
    intro h
    have := congrArg UInt8.toNat h
    rw [Nat.toUInt8_eq, UInt8.toNat_ofNat'] at this
    have hb : (byte '_').toNat = 95 := rfl
    omega
  induction n using Nat.strongRecOn with
  | _ n ih =>
    rw [decimal]
    split
    · exact fun h => hdigit ‹_› (List.mem_singleton.mp h)
    · rw [List.mem_append, List.mem_singleton, not_or]
      exact ⟨ih (n / 10) (by omega), hdigit (Nat.mod_lt n (by omega))⟩

namespace Target

theorem base_of_numbered {x y : Text} {i j : Nat} (h : numbered x i = numbered y j) : x = y := by
  -- The last underscore is the one before the number.
  have hpart {d e a : Text} (hd : Text.byte '_' ∉ d)
      (he : Text.byte '_' :: d = a ++ Text.byte '_' :: e) : a = [] := by
    cases a with
    | nil => rfl
    | cons b a =>
      rw [List.cons_append, List.cons.injEq] at he
      exact absurd (he.2 ▸ List.mem_append_right a List.mem_cons_self) hd
  rcases List.append_eq_append_iff.mp h with ⟨a, rfl, he⟩ | ⟨a, rfl, he⟩
  · rw [hpart (Text.underscore_not_mem_decimal i) he, List.append_nil]
  · rw [hpart (Text.underscore_not_mem_decimal j) he, List.append_nil]

theorem numbered_head {base : Text} (h : base.head? ≠ some (Text.byte '@')) (k : Nat) :
    (numbered base k).head? ≠ some (Text.byte '@') := by
  cases base with
  | nil => exact fun he => absurd (Option.some.inj he) (by decide)
  | cons b rest => exact h

end Target

namespace Lowering

open Target (reserved numbered)

theorem methodName_congr {name : Text} {used used' : List Text}
    (h : name ∈ reserved → ∀ k, numbered name k ∈ used ↔ numbered name k ∈ used') :
    methodName name used = methodName name used' := by
  unfold methodName
  split
  · rfl
  · split
    · next hr => exact Target.freshName_congr (h hr)
    · rfl

theorem numbered_mem_cons {base name : Text} {used : List Text} (hb : base ∈ reserved)
    (hne : name ≠ base) (hres : ∀ r ∈ reserved, r ∈ used)
    (hused : name ≠ Typing.entryName → name ∈ used) (k : Nat) :
    numbered base k ∈ methodName name used :: used ↔ numbered base k ∈ used := by
  rw [List.mem_cons]
  refine or_iff_right_of_imp fun he => ?_
  unfold methodName at he
  split at he
  · rw [he]
    exact hres _ main_reserved
  · next hm =>
    split at he
    · exact absurd (Target.base_of_numbered he).symm hne
    · unfold Target.escapeName at he
      split at he
      · exact absurd (congrArg List.head? he)
          (Target.numbered_head (Target.reserved_plain hb).2 k)
      · rw [he]
        exact hused hm

def methodNames (names : List Text) : List (SymbolId × Text) :=
  names.map fun name =>
    (.func name, methodName name (reserved ++ names.filter (· ≠ Typing.entryName)))

theorem nameMethods_eq_map {fs : List (Func Note)} {used start : List Text}
    (hdef : ∀ f ∈ fs, ∃ x, f.note.defines = some x ∧ x.id = .func f.name)
    (hd : (fs.map Func.name).Nodup) (hres : ∀ r ∈ reserved, r ∈ used)
    (hused : ∀ f ∈ fs, f.name ≠ Typing.entryName → f.name ∈ used)
    (hstart : ∀ f ∈ fs, f.name ∈ reserved → ∀ k,
      numbered f.name k ∈ used ↔ numbered f.name k ∈ start) :
    nameMethods used fs =
      .ok ((fs.map Func.name).map fun name => (.func name, methodName name start)) := by
  induction fs generalizing used with
  | nil => rfl
  | cons f rest ih =>
    obtain ⟨⟨x, hx, hid⟩, hdef⟩ := List.forall_mem_cons.mp hdef
    obtain ⟨hnew, hd⟩ := List.nodup_cons.mp hd
    obtain ⟨hf, hused⟩ := List.forall_mem_cons.mp hused
    obtain ⟨hfstart, hstart⟩ := List.forall_mem_cons.mp hstart
    have hfree : ∀ g ∈ rest, g.name ∈ reserved → ∀ k,
        numbered g.name k ∈ methodName f.name used :: used ↔ numbered g.name k ∈ start := by
      intro g hg hr k
      have hne : f.name ≠ g.name := fun he => hnew (he ▸ List.mem_map_of_mem hg)
      rw [numbered_mem_cons hr hne hres hf]
      exact hstart g hg hr k
    have hrest := ih hdef hd (fun r hr => List.mem_cons_of_mem _ (hres r hr))
      (fun g hg hm => List.mem_cons_of_mem _ (hused g hg hm)) hfree
    simp only [nameMethods, defined, hx, ok_bind, hrest, hid]
    rw [methodName_congr hfstart]
    rfl

theorem nameMethods_eq {fs : List (Func Note)}
    (hdef : ∀ f ∈ fs, ∃ x, f.note.defines = some x ∧ x.id = .func f.name)
    (hd : (fs.map Func.name).Nodup) :
    nameMethods (reserved ++ (fs.map Func.name).filter (· ≠ Typing.entryName)) fs =
      .ok (methodNames (fs.map Func.name)) := by
  refine nameMethods_eq_map hdef hd (fun r hr => List.mem_append_left _ hr) ?_
    fun f hf hr k => Iff.rfl
  exact fun f hf hm => List.mem_append_right _
    (List.mem_filter.mpr ⟨List.mem_map_of_mem hf, decide_eq_true hm⟩)

theorem methodName_eq_of_mem {names names' : List Text} (h : ∀ n, n ∈ names ↔ n ∈ names')
    (name : Text) :
    methodName name (reserved ++ names.filter (· ≠ Typing.entryName)) =
      methodName name (reserved ++ names'.filter (· ≠ Typing.entryName)) := by
  refine methodName_congr fun _ k => ?_
  simp only [List.mem_append, List.mem_filter, h]

theorem lookup_func (v : Text → Text) (names : List Text) (n : Text) :
    (names.map fun name => (SymbolId.func name, v name)).lookup (.func n) =
      if n ∈ names then some (v n) else none := by
  induction names with
  | nil => rfl
  | cons name names ih =>
    by_cases hn : n = name
    · simp [hn]
    · have hne : (SymbolId.func n == SymbolId.func name) = false := by simpa using hn
      simp [List.lookup_cons, hne, ih, hn]

theorem lookup_not_func (v : Text → Text) (names : List Text) {id : SymbolId}
    (h : ∀ n, id ≠ .func n) :
    (names.map fun name => (SymbolId.func name, v name)).lookup id = none := by
  simp [List.lookup_eq_none_iff, h]

theorem methodNames_same {names names' : List Text} (h : ∀ n, n ∈ names ↔ n ∈ names') :
    (∀ id, (methodNames names).lookup id = (methodNames names').lookup id) ∧
      ∀ n, n ∈ (methodNames names).map Prod.snd ↔ n ∈ (methodNames names').map Prod.snd := by
  unfold methodNames
  simp only [methodName_eq_of_mem h]
  constructor
  · intro id
    by_cases hid : ∃ n, id = .func n
    · obtain ⟨n, rfl⟩ := hid
      simp only [lookup_func, h]
    · have hne : ∀ n, id ≠ .func n := fun n he => hid ⟨n, he⟩
      rw [lookup_not_func _ _ hne, lookup_not_func _ _ hne]
  · intro n
    simp only [List.map_map, List.mem_map, h]

theorem methodApart_twin {R : TokenPairing} {methods methods' : List (SymbolId × Text)}
    (hg : ∀ id, methods.lookup id = methods'.lookup id)
    (hu : ∀ name, name ∈ methods.map Prod.snd ↔ name ∈ methods'.map Prod.snd) {f f' : Func Note}
    (hf : Func.Twin R (Note.Twin R) f f') : methodApart methods f = methodApart methods' f' := by
  have hnames : Names.Same ⟨methods, Target.reserved ++ methods.map Prod.snd⟩
      ⟨methods', Target.reserved ++ methods'.map Prod.snd⟩ := by
    refine ⟨hg, fun name => ?_⟩
    rw [List.mem_append, List.mem_append, hu]
  have hmethod := method_twin (.same R) hnames hf fun _ _ => hg _
  exact (hmethod.bind fun r r' hr => .of_eq (congrArg pure hr.1)).eq

end Lowering

namespace Target

def fileStart : List Line :=
  [⟨0, "using System;"⟩, ⟨0, "using System.Globalization;"⟩, ⟨0, "using System.IO;"⟩, Line.blank,
    ⟨0, "namespace MACSLangRuntime"⟩, ⟨0, "\x7b"⟩, ⟨1, "public static class Program"⟩, ⟨1, "\x7b"⟩]

def fileEnd : List Line :=
  ⟨1, "\x7d"⟩ :: Line.blank.indent :: runtime.map Line.indent ++ [⟨0, "\x7d"⟩]

def Method.text (m : Method) : Text := m.lines.flatMap fun l => l.indent.indent.render

def fileText (methods : List Text) : Text :=
  fileStart.flatMap Line.render ++ Text.join [Text.newline] methods ++ fileEnd.flatMap Line.render

theorem fileLines_eq (methods : List Method) :
    fileLines methods =
      fileStart ++ (methodLines methods).map (fun l => l.indent.indent) ++ fileEnd := by
  simp only [fileLines, Line.braced, List.map_append, List.map_cons, List.map_map,
    List.append_assoc, List.cons_append, List.nil_append]
  rfl

theorem flatMap_intercalate {α β : Type} (f : α → List β) (sep : List α) (xs : List (List α)) :
    (sep.intercalate xs).flatMap f = (sep.flatMap f).intercalate (xs.map (List.flatMap f)) := by
  induction xs with
  | nil => rfl
  | cons x xs ih =>
    cases xs with
    | nil => simp [List.intercalate]
    | cons y ys =>
      rw [List.map_cons, List.map_cons, List.intercalate_cons_cons, List.intercalate_cons_cons,
        List.flatMap_append, List.flatMap_append, ih, List.map_cons]

theorem renderFile_eq (methods : List Method) :
    renderFile methods = fileText (methods.map Method.text) := by
  rw [renderFile_eq_lines, fileLines_eq, List.flatMap_append, List.flatMap_append, List.flatMap_map,
    methodLines, flatMap_intercalate, List.map_map]
  rfl

end Target

namespace Program

def SameSignatures (x y : Program Unit) : Prop :=
  ∀ s, s ∈ Rules.signatures x ↔ s ∈ Rules.signatures y

theorem SameSignatures.of_perm {x y : Program Unit} (h : x.functions.Perm y.functions) :
    x.SameSignatures y := fun _ => (h.map _).mem_iff

theorem SameSignatures.exists_twin {x y : Program Unit} (h : x.SameSignatures y) :
    ∀ s ∈ x.functions.map Typing.signature, ∃ s' ∈ y.functions.map Typing.signature,
      Symbol.Twin .content s s' := by
  intro s hs
  obtain ⟨f, hf, rfl⟩ := List.mem_map.mp hs
  obtain ⟨g, hg, he⟩ := List.mem_map.mp ((h _).mp (List.mem_map_of_mem hf))
  obtain ⟨hname, hsort⟩ := Prod.mk.inj he
  refine ⟨Typing.signature g, List.mem_map_of_mem hg, ?_⟩
  exact ⟨congrArg SymbolId.func hname.symm, hname.symm, hsort.symm,
    TokenPairing.content_places _ _⟩

theorem SameSignatures.names {x y : Program Unit} (h : x.SameSignatures y) (n : Text) :
    n ∈ x.functions.map Func.name ↔ n ∈ y.functions.map Func.name := by
  have hnames (z : Program Unit) :
      z.functions.map Func.name = (Rules.signatures z).map Prod.fst := by
    rw [Rules.signatures, List.map_map]
    rfl
  simp only [hnames, List.mem_map, h _]

theorem SameSignatures.globals {x y : Program Unit} (h : x.SameSignatures y)
    (hx : (x.functions.map Func.name).Nodup) (hy : (y.functions.map Func.name).Nodup) :
    Scope.Twin .content ⟨x.functions.map Typing.signature, []⟩
      ⟨y.functions.map Typing.signature, []⟩ := by
  refine ⟨Scope.sameFrame_of_mem ?_ ?_ h.exists_twin ?_, .nil⟩
  · rwa [Typing.signatures_names]
  · rwa [Typing.signatures_names]
  · intro s hs
    have hback : y.SameSignatures x := fun s => (h s).symm
    obtain ⟨s', hs', htwin⟩ := hback.exists_twin s hs
    exact ⟨s', hs', htwin.id.symm, htwin.name.symm, htwin.sort.symm,
      TokenPairing.content_places _ _⟩

def methodOf (x : Program Unit) (f : Func Unit) : Option Target.Method :=
  (Typing.function ⟨x.functions.map Typing.signature, []⟩ f).toOption.bind fun g =>
    (Lowering.methodApart (Lowering.methodNames (x.functions.map Func.name)) g).toOption

theorem methodOf_congr {x y : Program Unit} (h : x.SameSignatures y)
    (hx : (x.functions.map Func.name).Nodup) (hy : (y.functions.map Func.name).Nodup)
    {f g : Func Unit} (hf : Func.Twin .content Eq f g) : x.methodOf f = y.methodOf g := by
  obtain ⟨hgiven, hused⟩ := Lowering.methodNames_same h.names
  unfold methodOf
  obtain ⟨f', g', hf', hg', htwin⟩ | ⟨e, e', he, he', -⟩ :=
    (Typing.function_twin (h.globals hx hy) hf).ends
  · have hm := Lowering.methodApart_twin hgiven hused htwin
    simp only [hf', hg', Except.toOption, Option.bind_some, hm]
  · simp only [he, he', Except.toOption, Option.bind_none]

theorem forall₂_trans {α β γ : Type} {r : α → β → Prop} {s : β → γ → Prop} {t : α → γ → Prop}
    (hrst : ∀ a b c, r a b → s b c → t a c) {as : List α} {bs : List β} {cs : List γ}
    (hr : List.Forall₂ r as bs) (hs : List.Forall₂ s bs cs) : List.Forall₂ t as cs := by
  induction hr generalizing cs with
  | nil =>
    cases hs
    exact .nil
  | cons hab _ ih =>
    cases hs with
    | cons hbc hs => exact .cons (hrst _ _ _ hab hbc) (ih hs)

theorem lower_methodOf {y : Program Unit} {P : Token → Prop} (hform : y.Formed P) {b : Analysis}
    (hb : y.analyze = .ok b)
    {ms : List Target.Method} (h : b.program.lower = .ok ms) :
    List.Forall₂ (fun f m => y.methodOf f = some m) y.functions ms := by
  obtain ⟨hd, -, hg, -, hfs⟩ := Program.analyze_eq_ok.mp hb
  rw [← Program.analyze_names hb] at hd
  rw [lower_eq_lowerApart hform hb, lowerApart, Lowering.nameMethods_eq (Program.analyze_defines hb) hd, ok_bind,
    Program.analyze_names hb] at h
  refine forall₂_trans (fun f g m hf hm => ?_) hfs (mapM_eq_ok.mp h)
  rw [hg] at hf
  rw [methodOf, Typing.function_checked.mpr hf]
  change Except.toOption (Lowering.methodApart _ g) = some m
  rw [hm]
  rfl

def methodText (x : Program Unit) (f : Func Unit) : Text :=
  ((x.methodOf f).map Target.Method.text).getD []

theorem toCSharp_eq {x y : Program Unit} {P : Token → Prop} (hform : y.Formed P) {b : Analysis}
    (hb : y.analyze = .ok b) (h : x.SameSignatures y) (hx : (x.functions.map Func.name).Nodup) :
    b.program.toCSharp = .ok (Target.fileText (y.functions.map x.methodText)) := by
  obtain ⟨ms, hms, -⟩ := Program.lower_emitted hform hb
  obtain ⟨hy, -⟩ := Program.analyze_eq_ok.mp hb
  have htexts : y.functions.map x.methodText = ms.map Target.Method.text := by
    refine map_eq_map_of_forall₂ ((lower_methodOf hform hb hms).imp fun f m hm => ?_)
    have hself : Func.Twin .content Eq f f :=
      Func.Twin.refl TokenPairing.content_refl (fun _ => rfl) f
    rw [methodText, methodOf_congr h hx hy hself, hm]
    rfl
  rw [toCSharp_of_lower hms, Target.renderFile_eq, htexts]

end Program

/-- For the signatures of a program that is accepted, every tree of a function has one text, which
does not depend on where its tokens stand. Each accepted program with these signatures is compiled
to a file of the texts of its functions in their order, and so is the program with its functions in
any other order. -/
theorem functions_compile_separately {source : Text} {x : Program Unit} {a : Analysis}
    (hx : parse source = .ok x) (ha : x.analyze = .ok a) :
    ∃ text : Func Unit → Text,
      (∀ f g, Func.Twin .content Eq f g → text f = text g) ∧
      compile source = .ok (Target.fileText (x.functions.map text)) ∧
      (∀ other y b, parse other = .ok y → y.analyze = .ok b → x.SameSignatures y →
        compile other = .ok (Target.fileText (y.functions.map text))) ∧
      ∀ y : Program Unit, x.functions.Perm y.functions → ∃ b, y.analyze = .ok b ∧
        b.program.toCSharp = .ok (Target.fileText (y.functions.map text)) := by
  have hform := parse_formed hx (scan_wellSpelled source)
  obtain ⟨hd, -⟩ := Program.analyze_eq_ok.mp ha
  refine ⟨x.methodText, ?_, ?_, ?_, ?_⟩
  · intro f g hfg
    rw [Program.methodText, Program.methodText,
      Program.methodOf_congr (fun _ => Iff.rfl) hd hd hfg]
  · exact compile_of_check (check_eq_ok.mpr ⟨x, hx, ha⟩)
      (Program.toCSharp_eq hform ha (fun _ => Iff.rfl) hd)
  · intro other y b hy hb hsame
    exact compile_of_check (check_eq_ok.mpr ⟨y, hy, hb⟩)
      (Program.toCSharp_eq (parse_formed hy (scan_wellSpelled other)) hb hsame hd)
  · intro y hperm
    obtain ⟨b, hb⟩ := Program.analyze_isOk_of_perm hperm ⟨a, ha⟩
    have hyform : y.Formed Token.WellSpelled := fun f hf => hform f (hperm.mem_iff.mpr hf)
    exact ⟨b, hb, Program.toCSharp_eq hyform hb (.of_perm hperm) hd⟩

def parity : Text := Text.ofString
  "func odd(n: int): bool \x7b return n % 2 != 0; \x7d
  func even(n: int): bool \x7b return n == 0 || odd(n - 1); \x7d"

theorem functions_compile_separately_parity : ∃ x y text,
    parse evenOdd = .ok x ∧ parse parity = .ok y ∧ x.SameSignatures y ∧
      (∀ f g, Func.Twin .content Eq f g → text f = text g) ∧
      compile evenOdd = .ok (Target.fileText (x.functions.map text)) ∧
      compile parity = .ok (Target.fileText (y.functions.map text)) := by
  have hok : (check evenOdd).isOk := by
    rw [evenOdd, Text.ofString_ofList]
    decide +kernel
  have hok' : (check parity).isOk := by
    rw [parity, Text.ofString_ofList]
    decide +kernel
  obtain ⟨a, ha⟩ := exists_of_isOk hok
  obtain ⟨b, hb⟩ := exists_of_isOk hok'
  obtain ⟨x, hx, ha⟩ := check_eq_ok.mp ha
  obtain ⟨y, hy, hb⟩ := check_eq_ok.mp hb
  have hreverse : (parse parity).toOption.map Rules.signatures =
      (parse evenOdd).toOption.map fun x => (Rules.signatures x).reverse := by
    rw [parity, evenOdd, Text.ofString_ofList, Text.ofString_ofList]
    decide +kernel
  have hsame : x.SameSignatures y := by
    intro s
    rw [hx, hy] at hreverse
    simp only [Except.toOption, Option.map_some, Option.some.injEq] at hreverse
    rw [hreverse, List.mem_reverse]
  obtain ⟨text, htwin, hcompile, hother, -⟩ := functions_compile_separately hx ha
  exact ⟨x, y, text, hx, hy, hsame, htwin, hcompile, hother parity y b hy hb hsame⟩

end MiniSharp
