import MiniSharp.Proofs.CheckedPlaces
import MiniSharp.Proofs.TwinChecking

namespace MiniSharp

open MiniSharp.Tree (Path Part)

variable {ν : Type} {R : TokenPairing}

namespace Scope

theorem find?_eq_some_of_mem {xs : List Symbol} (hd : (xs.map Symbol.name).Nodup) {x : Symbol}
    (hx : x ∈ xs) : find? x.name xs = some x := by
  induction xs with
  | nil => cases hx
  | cons y ys ih =>
    obtain ⟨hnew, hd⟩ := List.nodup_cons.mp hd
    rcases List.mem_cons.mp hx with rfl | hx
    · simp [find?]
    · have hne : y.name ≠ x.name := fun he => hnew (he ▸ List.mem_map_of_mem hx)
      simpa [find?, hne] using ih hd hx

theorem find?_eq_none {xs : List Symbol} {name : Text} :
    find? name xs = none ↔ ∀ x ∈ xs, x.name ≠ name := by
  simp [find?]

theorem sameFrame_of_mem {xs ys : List Symbol} (hx : (xs.map Symbol.name).Nodup)
    (hy : (ys.map Symbol.name).Nodup) (hxy : ∀ x ∈ xs, ∃ y ∈ ys, Symbol.Twin R x y)
    (hyx : ∀ y ∈ ys, ∃ x ∈ xs, Symbol.Twin R x y) : SameFrame R xs ys := by
  intro name
  by_cases hn : ∃ x ∈ xs, x.name = name
  · obtain ⟨x, hmem, rfl⟩ := hn
    obtain ⟨y, hmem', htwin⟩ := hxy x hmem
    rw [find?_eq_some_of_mem hx hmem, htwin.name, find?_eq_some_of_mem hy hmem']
    exact .some htwin
  · have hnx : find? name xs = none := find?_eq_none.mpr fun x hmem he => hn ⟨x, hmem, he⟩
    have hny : find? name ys = none := by
      refine find?_eq_none.mpr fun y hmem he => ?_
      obtain ⟨x, hmem', htwin⟩ := hyx y hmem
      exact hn ⟨x, hmem', htwin.name.trans he⟩
    rw [hnx, hny]
    exact .none

end Scope

namespace Typing

theorem signatures_names (fs : List (Func Unit)) :
    (fs.map signature).map Symbol.name = fs.map Func.name := by
  rw [List.map_map]
  rfl

theorem globals_perm {fs gs : List (Func Unit)} (h : fs.Perm gs) (hd : (fs.map Func.name).Nodup) :
    Scope.Twin .same ⟨fs.map signature, []⟩ ⟨gs.map signature, []⟩ := by
  have hrefl := Symbol.Twin.refl (R := .same) fun _ => rfl
  have hmap := h.map signature
  refine ⟨Scope.sameFrame_of_mem ?_ ?_ ?_ ?_, .nil⟩
  · rwa [signatures_names]
  · rw [signatures_names]
    exact (h.map Func.name).nodup_iff.mp hd
  · exact fun x hx => ⟨x, hmap.mem_iff.mp hx, hrefl x⟩
  · exact fun y hy => ⟨y, hmap.mem_iff.mpr hy, hrefl y⟩

theorem FuncChecked.congr {s s' : Scope} (h : Scope.Twin .same s s') {f : Func Unit}
    {g : Func Note} (hf : FuncChecked s f g) : FuncChecked s' f g := by
  have htwin := function_twin h (Func.Twin.refl (fun _ => rfl) (fun _ => rfl) f)
  rw [function_checked.mpr hf] at htwin
  cases hg : function s' f with
  | error e =>
    rw [hg] at htwin
    cases htwin
  | ok g' =>
    rw [hg] at htwin
    cases htwin with
    | ok heq =>
      -- Twins over tokens that go with themselves only are equal.
      cases heq.eq fun _ _ hn => hn.eq
      exact function_checked.mp hg

end Typing

theorem Program.analyze_isOk_iff {x : Program Unit} :
    (∃ a, x.analyze = .ok a) ↔ (x.functions.map Func.name).Nodup ∧
      (∀ f ∈ x.functions, f.name = Typing.entryName → f.params = [] ∧ f.result = .int) ∧
      ∀ f ∈ x.functions, ∃ g, Typing.FuncChecked ⟨x.functions.map Typing.signature, []⟩ f g := by
  simp only [Program.analyze_eq_ok]
  constructor
  · rintro ⟨a, hd, hm, hg, -, hfs⟩
    refine ⟨hd, hm, fun f hf => ?_⟩
    obtain ⟨g, -, hc⟩ := exists_of_forall₂ hfs hf
    exact ⟨g, hg ▸ hc⟩
  · rintro ⟨hd, hm, hfs⟩
    obtain ⟨gs, -, hgs⟩ := exists_mapM fun f hf =>
      (hfs f hf).imp fun g hg => ⟨Typing.function_checked.mpr hg, hg⟩
    exact ⟨⟨_, ⟨x.token, gs⟩⟩, hd, hm, rfl, rfl, hgs⟩

theorem Program.analyze_isOk_of_perm {x y : Program Unit} (h : x.functions.Perm y.functions)
    (hx : ∃ a, x.analyze = .ok a) : ∃ b, y.analyze = .ok b := by
  obtain ⟨hd, hm, hfs⟩ := Program.analyze_isOk_iff.mp hx
  refine Program.analyze_isOk_iff.mpr ⟨(h.map Func.name).nodup_iff.mp hd, ?_, ?_⟩
  · exact fun f hf => hm f (h.mem_iff.mpr hf)
  · intro f hf
    obtain ⟨g, hg⟩ := hfs f (h.mem_iff.mpr hf)
    exact ⟨g, hg.congr (Typing.globals_perm h hd)⟩

namespace Expr

mutual

theorem notes_append (q : Path) (p : Path) :
    (e : Expr ν) → e.notes (p ++ q) = (e.notes p).map (Prod.map (· ++ q) id)
  | .literal .. | .ident .. => rfl
  | .call _ _ _ args => congrArg (List.cons _) (notesAll_append q p 0 args)
  | .unary _ _ _ operand => congrArg (List.cons _) (notes_append q (.left :: p) operand)
  | .binary _ _ _ left right => by
    have hl := notes_append q (.left :: p) left
    have hr := notes_append q (.right :: p) right
    rw [List.cons_append] at hl hr
    rw [notes, notes, hl, hr, List.map_append, List.map_cons]
    rfl
  | .foreign .. => rfl

theorem notesAll_append (q : Path) (p : Path) (index : Nat) :
    (es : List (Expr ν)) →
      notesAll (p ++ q) index es = (notesAll p index es).map (Prod.map (· ++ q) id)
  | [] => rfl
  | e :: rest => by
    have he := notes_append q (.child index :: p) e
    rw [List.cons_append] at he
    rw [notesAll, notesAll, he, notesAll_append q p (index + 1) rest, List.map_append]

end

theorem notes?_append (q p : Path) (o : Option (Expr ν)) :
    o.elim [] (Expr.notes (p ++ q)) = (o.elim [] (Expr.notes p)).map (Prod.map (· ++ q) id) := by
  cases o with
  | none => rfl
  | some e => exact notes_append q p e

end Expr

namespace Stmt

mutual

theorem notes_append (q : Path) (p : Path) :
    (s : Stmt ν) → s.notes (p ++ q) = (s.notes p).map (Prod.map (· ++ q) id)
  | .declare _ _ _ _ value => congrArg (List.cons _) (Expr.notes?_append q (.value :: p) value)
  | .assign _ _ _ value => congrArg (List.cons _) (Expr.notes_append q (.value :: p) value)
  | .input .. | .foreign .. => rfl
  | .print _ value | .evaluate _ value | .ret _ value => Expr.notes_append q (.value :: p) value
  | .ifThen _ cond _ body | .whileDo _ cond _ body => by
    have hc := Expr.notes_append q (.cond :: p) cond
    have hb := notesAll_append q (.body :: p) 0 body
    rw [List.cons_append] at hc hb
    rw [notes, notes, hc, hb, List.map_append]
  | .ifElse _ cond _ body _ elseBody => by
    have hc := Expr.notes_append q (.cond :: p) cond
    have hb := notesAll_append q (.body :: p) 0 body
    have he := notesAll_append q (.orElse :: p) 0 elseBody
    rw [List.cons_append] at hc hb he
    rw [notes, notes, hc, hb, he, List.map_append, List.map_append]
  | .forDo _ init cond step _ body => by
    have hi := notes?_append q (.init :: p) init
    have hc := Expr.notes?_append q (.cond :: p) cond
    have hs := notes?_append q (.step :: p) step
    have hb := notesAll_append q (.body :: p) 0 body
    rw [List.cons_append] at hi hc hs hb
    rw [notes, notes, hi, hc, hs, hb, List.map_append, List.map_append, List.map_append]
  | .block _ body => notesAll_append q p 0 body

theorem notes?_append (q : Path) (p : Path) :
    (o : Option (Stmt ν)) → notes? (p ++ q) o = (notes? p o).map (Prod.map (· ++ q) id)
  | none => rfl
  | some s => notes_append q p s

theorem notesAll_append (q : Path) (p : Path) (index : Nat) :
    (ss : List (Stmt ν)) →
      notesAll (p ++ q) index ss = (notesAll p index ss).map (Prod.map (· ++ q) id)
  | [] => rfl
  | s :: rest => by
    have hs := notes_append q (.child index :: p) s
    rw [List.cons_append] at hs
    rw [notesAll, notesAll, hs, notesAll_append q p (index + 1) rest, List.map_append]

end

end Stmt

theorem Func.notes_append (q : Path) (f : Func ν) :
    f.notes q = (f.notes []).map (Prod.map (· ++ q) id) := by
  have hb := Stmt.notesAll_append q [.body] 0 f.body
  rw [List.singleton_append] at hb
  rw [Func.notes, Func.notes, hb, List.map_append, List.map_cons, List.mapIdx_eq_zipIdx_map,
    List.mapIdx_eq_zipIdx_map, List.map_map]
  rfl

theorem Program.mem_notes {x : Program ν} {p : Path} {note : ν} :
    (p, note) ∈ x.notes ↔ ∃ i f q, x.functions[i]? = some f ∧ p = q ++ [.child i] ∧
      (q, note) ∈ f.notes [] := by
  simp only [Program.notes, List.mem_flatten, List.mem_mapIdx]
  constructor
  · rintro ⟨_, ⟨i, hi, rfl⟩, hmem⟩
    rw [Func.notes_append] at hmem
    obtain ⟨⟨q, n⟩, hq, he⟩ := List.mem_map.mp hmem
    cases he
    exact ⟨i, _, q, List.getElem?_eq_getElem hi, rfl, hq⟩
  · rintro ⟨i, f, q, hf, rfl, hq⟩
    obtain ⟨hi, rfl⟩ := List.getElem?_eq_some_iff.mp hf
    refine ⟨_, ⟨i, hi, rfl⟩, ?_⟩
    rw [Func.notes_append]
    exact List.mem_map.mpr ⟨(q, note), hq, rfl⟩

def Program.SameNode (x y : Program ν) (p p' : Path) : Prop :=
  ∃ i j f q, x.functions[i]? = some f ∧ y.functions[j]? = some f ∧ p = q ++ [.child i] ∧
    p' = q ++ [.child j]

def Program.Binds (x : Program Note) (declaration use : Path) : Prop :=
  ∃ d u symbol, (declaration, d) ∈ x.notes ∧ (use, u) ∈ x.notes ∧ d.defines = some symbol ∧
    u.refers = some symbol

theorem getElem?_of_forall₂ {α β : Type} {r : α → β → Prop} {xs : List α} {ys : List β}
    (h : List.Forall₂ r xs ys) {i : Nat} {x : α} (hi : xs[i]? = some x) :
    ∃ y, ys[i]? = some y ∧ r x y := by
  obtain ⟨hlt, rfl⟩ := List.getElem?_eq_some_iff.mp hi
  have hlt' : i < ys.length := h.length_eq ▸ hlt
  exact ⟨ys[i], List.getElem?_eq_getElem hlt', h.get hlt hlt'⟩

theorem Program.functions_of_perm {x y : Program Unit} {a b : Analysis}
    (h : x.functions.Perm y.functions) (ha : x.analyze = .ok a) (hb : y.analyze = .ok b)
    {i j : Nat} {f : Func Unit} (hi : x.functions[i]? = some f) (hj : y.functions[j]? = some f) :
    ∃ g, a.program.functions[i]? = some g ∧ b.program.functions[j]? = some g := by
  obtain ⟨hd, -, hga, -, hfa⟩ := Program.analyze_eq_ok.mp ha
  obtain ⟨-, -, hgb, -, hfb⟩ := Program.analyze_eq_ok.mp hb
  obtain ⟨g, hg, hc⟩ := getElem?_of_forall₂ hfa hi
  obtain ⟨g', hg', hc'⟩ := getElem?_of_forall₂ hfb hj
  rw [hga] at hc
  rw [hgb] at hc'
  have heq := Typing.function_checked.mpr (hc.congr (Typing.globals_perm h hd))
  rw [Typing.function_checked.mpr hc', Except.ok.injEq] at heq
  exact ⟨g, hg, heq ▸ hg'⟩

theorem Program.notes_of_perm {x y : Program Unit} {a b : Analysis}
    (h : x.functions.Perm y.functions) (ha : x.analyze = .ok a) (hb : y.analyze = .ok b)
    {p p' : Path} (hp : x.SameNode y p p') (note : Note) :
    (p, note) ∈ a.program.notes ↔ (p', note) ∈ b.program.notes := by
  obtain ⟨i, j, f, q, hi, hj, rfl, rfl⟩ := hp
  obtain ⟨g, hg, hg'⟩ := Program.functions_of_perm h ha hb hi hj
  simp only [Program.mem_notes, List.append_singleton_inj, Part.child.injEq]
  constructor
  · rintro ⟨_, g₁, _, hg₁, ⟨rfl, rfl⟩, hq⟩
    rw [hg, Option.some.injEq] at hg₁
    exact ⟨j, g, q, hg', ⟨rfl, rfl⟩, hg₁ ▸ hq⟩
  · rintro ⟨_, g₁, _, hg₁, ⟨rfl, rfl⟩, hq⟩
    rw [hg', Option.some.injEq] at hg₁
    exact ⟨i, g, q, hg, ⟨rfl, rfl⟩, hg₁ ▸ hq⟩

theorem Program.exists_sameNode {x y : Program Unit} {a : Analysis}
    (h : x.functions.Perm y.functions) (ha : x.analyze = .ok a) {p : Path} {note : Note}
    (hp : (p, note) ∈ a.program.notes) : ∃ p', x.SameNode y p p' := by
  obtain ⟨-, -, -, -, hfa⟩ := Program.analyze_eq_ok.mp ha
  obtain ⟨i, g, q, hg, rfl, -⟩ := Program.mem_notes.mp hp
  obtain ⟨f, hf, -⟩ := getElem?_of_forall₂ hfa.flip hg
  obtain ⟨j, hj⟩ := List.mem_iff_getElem?.mp (h.mem_iff.mp (List.mem_of_getElem? hf))
  exact ⟨q ++ [.child j], i, j, f, q, hf, hj, rfl, rfl⟩

/-- Programs with the same functions in another order are both accepted or both refused. If they are
accepted, the same is noted at the same nodes, types, types to read and symbols, and names are bound
to the same declarations. -/
theorem analysis_ignores_function_order {x y : Program Unit}
    (h : x.functions.Perm y.functions) :
    ((∃ a, x.analyze = .ok a) ↔ ∃ b, y.analyze = .ok b) ∧
      ∀ a b, x.analyze = .ok a → y.analyze = .ok b →
        (∀ p note, (p, note) ∈ a.program.notes → ∃ p', x.SameNode y p p') ∧
        (∀ p p', x.SameNode y p p' → ∀ note,
          (p, note) ∈ a.program.notes ↔ (p', note) ∈ b.program.notes) ∧
        ∀ d d' u u', x.SameNode y d d' → x.SameNode y u u' →
          (a.program.Binds d u ↔ b.program.Binds d' u') := by
  refine ⟨⟨Program.analyze_isOk_of_perm h, Program.analyze_isOk_of_perm h.symm⟩, ?_⟩
  intro a b ha hb
  refine ⟨fun p note => Program.exists_sameNode h ha,
    fun p p' hp => Program.notes_of_perm h ha hb hp, fun d d' u u' hd hu => ?_⟩
  simp only [Program.Binds, Program.notes_of_perm h ha hb hd, Program.notes_of_perm h ha hb hu]

def evenOdd : Text := Text.ofString
  "func even(n: int): bool \x7b return n == 0 || odd(n - 1); \x7d
  func odd(n: int): bool \x7b return !even(n); \x7d"

theorem analysis_ignores_function_order_evenOdd :
    ∃ x a b, parse evenOdd = .ok x ∧ x.functions.Perm x.functions.reverse ∧ x.analyze = .ok a ∧
      Program.analyze ⟨x.token, x.functions.reverse⟩ = .ok b ∧
      (∀ p p', x.SameNode ⟨x.token, x.functions.reverse⟩ p p' → ∀ note,
        (p, note) ∈ a.program.notes ↔ (p', note) ∈ b.program.notes) := by
  have hok : (check evenOdd).isOk := by
    rw [evenOdd, Text.ofString_ofList]
    decide +kernel
  obtain ⟨a, ha⟩ := exists_of_isOk hok
  obtain ⟨x, hx, ha⟩ := check_eq_ok.mp ha
  have hperm : x.functions.Perm x.functions.reverse := (List.reverse_perm _).symm
  have horder := @analysis_ignores_function_order x ⟨x.token, x.functions.reverse⟩ hperm
  obtain ⟨b, hb⟩ := horder.1.mp ⟨a, ha⟩
  exact ⟨x, a, b, hx, hperm, ha, hb, (horder.2 a b ha hb).2.1⟩

end MiniSharp
