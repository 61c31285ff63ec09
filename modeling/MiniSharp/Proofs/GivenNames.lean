import MiniSharp.Proofs.LoweredScopes
import MiniSharp.Proofs.TwinLowering

/-!
One table of names serves all functions of a program. What one function leaves in it is never read
by the next, so lowering each function with a new table gives the same methods.
-/

namespace MiniSharp

open Emitted (MethodEmitted)

variable {P : Token → Prop}

/-- Where the first computation gives a result, so does the second. -/
def Reaches {ε α β : Type} (Q : α → β → Prop) (x : Except ε α) (y : Except ε β) : Prop :=
  ∀ a, x = .ok a → ∃ b, y = .ok b ∧ Q a b

namespace Reaches

variable {ε α β γ δ : Type} {Q : α → β → Prop} {S : γ → δ → Prop}

theorem ok {a : α} {b : β} (h : Q a b) : Reaches Q (.ok a : Except ε α) (.ok b) := by
  intro a' ha
  cases ha
  exact ⟨b, rfl, h⟩

theorem error (e : ε) (y : Except ε β) : Reaches Q (.error e) y := by
  intro a ha
  cases ha

theorem bind {x : Except ε α} {y : Except ε β} {f : α → Except ε γ} {g : β → Except ε δ}
    (h : Reaches Q x y) (hf : ∀ a b, Q a b → Reaches S (f a) (g b)) :
    Reaches S (x >>= f) (y >>= g) := by
  intro c hc
  obtain ⟨a, ha, hc⟩ := bind_eq_ok.mp hc
  obtain ⟨b, hb, hq⟩ := h a ha
  obtain ⟨d, hd, hs⟩ := hf a b hq c hc
  exact ⟨d, bind_eq_ok.mpr ⟨b, hb, hd⟩, hs⟩

end Reaches

namespace Lowering

structure Names.Below (names names' : Names) : Prop where
  given : ∀ id given, names.given.lookup id = some given → names'.given.lookup id = some given
  used : names.used = names'.used

variable {names names' : Names}

theorem Names.Below.give (h : names.Below names') (x : Symbol) (given : Text) :
    (names.give x given).Below (names'.give x given) := by
  refine ⟨fun id g hg => ?_, congrArg (given :: ·) h.used⟩
  rw [Names.give, List.lookup_cons] at hg ⊢
  split at hg
  · exact hg
  · exact h.given id g hg

theorem givenName_reaches (h : names.Below names') (note : Note) (name : Text) :
    Reaches Eq (givenName names note name) (givenName names' note name) := by
  unfold givenName
  split
  · exact .error _ _
  · split
    · next given hg =>
      rw [h.given _ given hg]
      exact .ok rfl
    · exact .error _ _

/-- A run goes through as well where more names are given. -/
def Simulation.below : Simulation .same where
  names := Names.Below
  ends := Reaches
  ok := .ok
  error e := .error e _
  bind := Reaches.bind
  give h hx given := hx.eq ▸ h.give _ given
  used h _ := h.used ▸ Iff.rfl
  givenName h hn name := hn.eq ▸ givenName_reaches h _ name

theorem method_reaches {given given' : List (SymbolId × Text)}
    (h : ∀ id name, given.lookup id = some name → given'.lookup id = some name) {f : Func Note}
    (hname : ∀ x ∈ f.note.defines, (given.lookup x.id).isSome) (used : List Text) :
    Reaches (fun r r' => r.1 = r'.1 ∧
        ∀ id name, r.2.lookup id = some name → r'.2.lookup id = some name)
      (method used given f) (method used given' f) := by
  have hbelow : Names.Below ⟨given, used⟩ ⟨given', used⟩ := ⟨h, rfl⟩
  have htwin : Func.Twin .same (Note.Twin .same) f f :=
    .refl (fun _ => rfl) (.refl fun _ => rfl) f
  have hsame : ∀ x ∈ f.note.defines, given.lookup x.id = given'.lookup x.id := by
    intro x hx
    obtain ⟨name, hn⟩ := Option.isSome_iff_exists.mp (hname x hx)
    rw [hn, h _ _ hn]
  intro r hr
  obtain ⟨r', hr', hm, _, _, hafter⟩ := method_twin .below hbelow htwin hsame r hr
  exact ⟨r', hr', hm, hafter.given⟩

def methodApart (methods : List (SymbolId × Text)) (f : Func Note) : Except Fault Target.Method := do
  let (m, _) ← method (Target.reserved ++ methods.map Prod.snd) methods f
  return m

structure Apart (methods : List (SymbolId × Text)) (f : Func Note) : Prop where
  named : ∀ x ∈ f.note.defines, (methods.lookup x.id).isSome
  lowered : ∃ m given,
    method (Target.reserved ++ methods.map Prod.snd) methods f = .ok (m, given) ∧
      MethodEmitted f m ∧ ∀ id name, methods.lookup id = some name → given.lookup id = some name

theorem functions_eq_mapM {methods : List (SymbolId × Text)} {fs : List (Func Note)}
    (hfs : ∀ f ∈ fs, Apart methods f) {given : List (SymbolId × Text)}
    (h : ∀ id name, methods.lookup id = some name → given.lookup id = some name) :
    functions (Target.reserved ++ methods.map Prod.snd) given fs =
      fs.mapM (methodApart methods) := by
  induction fs generalizing given with
  | nil => rfl
  | cons f rest ih =>
    obtain ⟨hf, hrest⟩ := List.forall_mem_cons.mp hfs
    obtain ⟨m, after, hm, -, hkept⟩ := hf.lowered
    obtain ⟨⟨m', after'⟩, hm', hsame, hafter⟩ := method_reaches h hf.named _ _ hm
    have hnext := ih hrest fun id name hid => hafter id name (hkept id name hid)
    rw [functions, hm', ok_bind, List.mapM_cons, methodApart, hm, ← hnext]
    cases hsame
    rfl

end Lowering

namespace Program

variable {x : Program Unit} {a : Analysis}

theorem exists_apart (hform : x.Formed P) (h : x.analyze = .ok a) :
    ∃ methods, Lowering.nameMethods (Target.reserved ++
        (a.program.functions.map Func.name).filter (· ≠ Typing.entryName)) a.program.functions =
      .ok methods ∧ ∀ f ∈ a.program.functions, Lowering.Apart methods f := by
  obtain ⟨-, hm, hg, -, hfs⟩ := Program.analyze_eq_ok.mp h
  rw [hg] at hfs
  have hdef := Program.analyze_defines h
  obtain ⟨methods, hmethods, hids⟩ := Lowering.nameMethods_eq_ok hdef
    (Target.reserved ++ (a.program.functions.map Func.name).filter (· ≠ Typing.entryName))
  rw [Program.analyze_names h] at hids
  have hnames := Lowering.MethodNames.of_ids hids
  refine ⟨methods, hmethods, fun f' hf' => ?_⟩
  obtain ⟨f, hf, hc⟩ := exists_of_forall₂ hfs.flip hf'
  refine ⟨fun y hy => ?_, Lowering.method_emitted hnames hm hf (hform f hf) hc _⟩
  obtain ⟨hd, -⟩ := hc.defines
  obtain rfl := Option.some.inj (hd.symm.trans hy)
  exact hnames.func f hf

def lowerApart (x : Program Note) : Except Fault (List Target.Method) := do
  let names := (x.functions.map Func.name).filter (· ≠ Typing.entryName)
  let methods ← Lowering.nameMethods (Target.reserved ++ names) x.functions
  x.functions.mapM (Lowering.methodApart methods)

theorem lower_eq_lowerApart (hform : x.Formed P) (h : x.analyze = .ok a) :
    a.program.lower = a.program.lowerApart := by
  obtain ⟨methods, hmethods, hall⟩ := exists_apart hform h
  rw [lower, lowerApart, hmethods, ok_bind, ok_bind]
  exact Lowering.functions_eq_mapM hall fun _ _ hid => hid

theorem lower_emitted (hform : x.Formed P) (h : x.analyze = .ok a) :
    ∃ methods, a.program.lower = .ok methods ∧
      List.Forall₂ MethodEmitted a.program.functions methods := by
  obtain ⟨methods, hmethods, hall⟩ := exists_apart hform h
  have hmethod : ∀ f ∈ a.program.functions,
      ∃ m, Lowering.methodApart methods f = .ok m ∧ MethodEmitted f m := by
    intro f hf
    obtain ⟨m, given, hm, hemitted, -⟩ := (hall f hf).lowered
    exact ⟨m, by rw [Lowering.methodApart, hm]; rfl, hemitted⟩
  obtain ⟨ms, hms, hemitted⟩ := exists_mapM hmethod
  exact ⟨ms, by rw [lower_eq_lowerApart hform h, lowerApart, hmethods, ok_bind, hms], hemitted⟩

end Program

end MiniSharp
