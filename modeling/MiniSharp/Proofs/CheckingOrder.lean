import Mathlib.Data.List.Perm.Basic
import MiniSharp.Analysis.Note

namespace MiniSharp

open MiniSharp.Tree (Path Part)

/-- A node with its note. A scope is known by the way to the node that opens it: the root for the
functions, a function for its parameters and its body, a loop for its header and its body, and
otherwise a block. -/
structure Entry where
  path : Path
  scope : Path
  kind : NodeKind
  name : Text
  note : Note

mutual

def Expr.entries (scope p : Path) : Expr Note → List Entry
  | .literal note .. => [⟨p, scope, .literal, [], note⟩]
  | .ident note _ name => [⟨p, scope, .ident, name, note⟩]
  | .call note _ name args => ⟨p, scope, .call, name, note⟩ :: Expr.entriesAll scope p 0 args
  | .unary note _ _ operand => ⟨p, scope, .unary, [], note⟩ :: operand.entries scope (.left :: p)
  | .binary note _ _ left right =>
    ⟨p, scope, .binary, [], note⟩ :: left.entries scope (.left :: p) ++
      right.entries scope (.right :: p)
  | .foreign .. => []

def Expr.entriesAll (scope p : Path) (index : Nat) : List (Expr Note) → List Entry
  | [] => []
  | e :: rest => e.entries scope (.child index :: p) ++ Expr.entriesAll scope p (index + 1) rest

end

mutual

/-- The nodes of a statement in the order of checking: a value before the variable it belongs to,
the step of a loop after its body. -/
def Stmt.entries (scope p : Path) : Stmt Note → List Entry
  | .declare note _ name _ value =>
    value.elim [] (Expr.entries scope (.value :: p)) ++ [⟨p, scope, .varDecl, name, note⟩]
  | .assign note _ name value =>
    ⟨p, scope, .assign, name, note⟩ :: value.entries scope (.value :: p)
  | .input note _ name => [⟨p, scope, .input, name, note⟩]
  | .print _ value | .evaluate _ value | .ret _ value => value.entries scope (.value :: p)
  | .ifThen _ cond _ body | .whileDo _ cond _ body =>
    cond.entries scope (.cond :: p) ++ Stmt.entriesAll (.body :: p) (.body :: p) 0 body
  | .ifElse _ cond _ body _ elseBody =>
    cond.entries scope (.cond :: p) ++ Stmt.entriesAll (.body :: p) (.body :: p) 0 body ++
      Stmt.entriesAll (.orElse :: p) (.orElse :: p) 0 elseBody
  | .forDo _ init cond step _ body =>
    Stmt.entries? p (.init :: p) init ++ cond.elim [] (Expr.entries p (.cond :: p)) ++
      Stmt.entriesAll p (.body :: p) 0 body ++ Stmt.entries? p (.step :: p) step
  | .block _ body => Stmt.entriesAll p p 0 body
  | .foreign .. => []

def Stmt.entries? (scope p : Path) : Option (Stmt Note) → List Entry
  | none => []
  | some s => s.entries scope p

def Stmt.entriesAll (scope p : Path) (index : Nat) : List (Stmt Note) → List Entry
  | [] => []
  | s :: rest => s.entries scope (.child index :: p) ++ Stmt.entriesAll scope p (index + 1) rest

end

def Param.entries (p : Path) (xs : List (Param Note)) : List Entry :=
  xs.mapIdx fun i x => ⟨.param i :: p, p, .param, x.name, x.note⟩

def Func.entry (p : Path) (f : Func Note) : Entry := ⟨p, [], .func, f.name, f.note⟩

def Func.entries (p : Path) (f : Func Note) : List Entry :=
  Param.entries p f.params ++ Stmt.entriesAll p (.body :: p) 0 f.body

def Program.entries (x : Program Note) : List Entry :=
  x.functions.mapIdx (fun i f => f.entry [.child i]) ++
    (x.functions.mapIdx fun i f => f.entries [.child i]).flatten

def Entry.noted (e : Entry) : Path × Note := (e.path, e.note)

mutual

theorem Expr.entries_noted (s p : Path) :
    (e : Expr Note) → (e.entries s p).map Entry.noted = e.notes p
  | .literal .. | .ident .. | .foreign .. => rfl
  | .call _ _ _ args => congrArg (List.cons _) (Expr.entriesAll_noted s p 0 args)
  | .unary _ _ _ operand => congrArg (List.cons _) (operand.entries_noted s (.left :: p))
  | .binary _ _ _ left right => by
    simp only [Expr.entries, Expr.notes, List.map_cons, List.map_append,
      left.entries_noted s (.left :: p), right.entries_noted s (.right :: p), List.cons_append,
      Entry.noted]

theorem Expr.entriesAll_noted (s p : Path) (index : Nat) :
    (es : List (Expr Note)) → (Expr.entriesAll s p index es).map Entry.noted = notesAll p index es
  | [] => rfl
  | e :: rest => by
    rw [Expr.entriesAll, Expr.notesAll, List.map_append, e.entries_noted,
      Expr.entriesAll_noted s p (index + 1) rest]

end

theorem Expr.entries?_noted (s p : Path) (o : Option (Expr Note)) :
    (o.elim [] (Expr.entries s p)).map Entry.noted = o.elim [] (Expr.notes p) := by
  cases o with
  | none => rfl
  | some e => exact e.entries_noted s p

namespace Stmt

mutual

theorem entries_noted (s p : Path) :
    (x : Stmt Note) → ((x.entries s p).map Entry.noted).Perm (x.notes p)
  | .declare _ _ _ _ value => by
    rw [entries, notes, List.map_append, Expr.entries?_noted]
    exact List.perm_append_singleton _ _
  | .assign _ _ _ value => .cons _ (.of_eq (value.entries_noted s _))
  | .input .. => .refl _
  | .print _ value | .evaluate _ value | .ret _ value => .of_eq (value.entries_noted s _)
  | .ifThen _ cond _ body | .whileDo _ cond _ body => by
    rw [entries, notes, List.map_append, cond.entries_noted]
    exact .append_left _ (entriesAll_noted _ _ 0 body)
  | .ifElse _ cond _ body _ elseBody => by
    rw [entries, notes, List.map_append, List.map_append, cond.entries_noted]
    exact .append (.append_left _ (entriesAll_noted _ _ 0 body)) (entriesAll_noted _ _ 0 elseBody)
  | .forDo _ init cond step _ body => by
    have hstep :=
      (entriesAll_noted p (.body :: p) 0 body).append (entries?_noted p (.step :: p) step)
    simp only [entries, notes, List.map_append, Expr.entries?_noted, List.append_assoc]
    exact .append (entries?_noted p _ init) (.append_left _ (hstep.trans List.perm_append_comm))
  | .block _ body => entriesAll_noted p p 0 body
  | .foreign .. => .refl _

theorem entries?_noted (s p : Path) :
    (o : Option (Stmt Note)) → ((entries? s p o).map Entry.noted).Perm (notes? p o)
  | none => .refl _
  | some x => entries_noted s p x

theorem entriesAll_noted (s p : Path) (index : Nat) :
    (xs : List (Stmt Note)) → ((entriesAll s p index xs).map Entry.noted).Perm (notesAll p index xs)
  | [] => .refl _
  | x :: rest => by
    rw [entriesAll, List.map_append]
    exact .append (entries_noted s _ x) (entriesAll_noted s p (index + 1) rest)

end

end Stmt

theorem Func.entries_noted (p : Path) (f : Func Note) :
    ((f.entry p).noted :: (f.entries p).map Entry.noted).Perm (f.notes p) := by
  simp only [Func.entries, Param.entries, Func.notes, List.mapIdx_eq_zipIdx_map, List.map_append,
    List.map_map]
  exact .cons _ (.append_left _ (Stmt.entriesAll_noted p (.body :: p) 0 f.body))

theorem Program.entries_noted (x : Program Note) :
    (x.entries.map Entry.noted).Perm x.notes := by
  simp only [Program.entries, Program.notes, List.mapIdx_eq_zipIdx_map, ← List.flatMap_def,
    List.map_append, List.map_map, List.map_flatMap]
  refine (List.map_append_flatMap_perm _ _ _).trans (.flatMap_left _ ?_)
  intro f _
  exact f.1.entries_noted [.child f.2]

mutual

theorem Expr.entries_scope (s p : Path) : (e : Expr Note) → ∀ n ∈ e.entries s p, n.scope = s
  | .literal .. | .ident .. => List.forall_mem_singleton.mpr rfl
  | .call _ _ _ args => List.forall_mem_cons.mpr ⟨rfl, Expr.entriesAll_scope s p 0 args⟩
  | .unary _ _ _ operand =>
    List.forall_mem_cons.mpr ⟨rfl, Expr.entries_scope s (.left :: p) operand⟩
  | .binary _ _ _ left right => List.forall_mem_cons.mpr ⟨rfl, List.forall_mem_append.mpr
      ⟨Expr.entries_scope s (.left :: p) left, Expr.entries_scope s (.right :: p) right⟩⟩
  | .foreign .. => List.forall_mem_nil _

theorem Expr.entriesAll_scope (s p : Path) (index : Nat) :
    (es : List (Expr Note)) → ∀ n ∈ Expr.entriesAll s p index es, n.scope = s
  | [] => List.forall_mem_nil _
  | e :: rest => List.forall_mem_append.mpr
      ⟨Expr.entries_scope s (.child index :: p) e, Expr.entriesAll_scope s p (index + 1) rest⟩

end

theorem Expr.entries?_scope (s p : Path) (o : Option (Expr Note)) :
    ∀ n ∈ o.elim [] (Expr.entries s p), n.scope = s := by
  cases o with
  | none => exact List.forall_mem_nil _
  | some e => exact e.entries_scope s p

def Entry.Within (s p : Path) (e : Entry) : Prop := e.scope = s ∨ p <:+ e.scope

namespace Entry.Within

variable {s p : Path} {n : Entry}

theorem below {part : Part} : n.Within s (part :: p) → n.Within s p :=
  Or.imp_right (List.suffix_cons part p).trans

theorem inside (h : n.Within p p) : p <:+ n.scope :=
  h.elim (fun hs => hs ▸ List.suffix_refl _) id

theorem outer {t : Path} (h : n.Within p p) : n.Within t p := .inr h.inside

theorem outer_block {t : Path} {part : Part} (h : n.Within (part :: p) (part :: p)) :
    n.Within t p :=
  h.outer.below

end Entry.Within

namespace Stmt

mutual

theorem entries_within (s p : Path) : (x : Stmt Note) → ∀ n ∈ x.entries s p, n.Within s p
  | .declare _ _ _ _ value => List.forall_mem_append.mpr
      ⟨fun n hn => .inl (Expr.entries?_scope s _ value n hn),
        List.forall_mem_singleton.mpr (.inl rfl)⟩
  | .assign _ _ _ value =>
    List.forall_mem_cons.mpr ⟨.inl rfl, fun n hn => .inl (value.entries_scope s _ n hn)⟩
  | .input .. => List.forall_mem_singleton.mpr (.inl rfl)
  | .print _ value | .evaluate _ value | .ret _ value =>
    fun n hn => .inl (value.entries_scope s _ n hn)
  | .ifThen _ cond _ body | .whileDo _ cond _ body => List.forall_mem_append.mpr
      ⟨fun n hn => .inl (cond.entries_scope s _ n hn),
        fun n hn => (entriesAll_within _ _ 0 body n hn).outer_block⟩
  | .ifElse _ cond _ body _ elseBody => List.forall_mem_append.mpr
      ⟨List.forall_mem_append.mpr ⟨fun n hn => .inl (cond.entries_scope s _ n hn),
        fun n hn => (entriesAll_within _ _ 0 body n hn).outer_block⟩,
        fun n hn => (entriesAll_within _ _ 0 elseBody n hn).outer_block⟩
  | .forDo _ init cond step _ body => by
    simp only [entries, List.forall_mem_append]
    refine ⟨⟨⟨?_, ?_⟩, ?_⟩, ?_⟩
    · exact fun n hn => (entries?_within p (.init :: p) init n hn).below.outer
    · exact fun n hn => .outer (.inl (Expr.entries?_scope p (.cond :: p) cond n hn))
    · exact fun n hn => (entriesAll_within p (.body :: p) 0 body n hn).below.outer
    · exact fun n hn => (entries?_within p (.step :: p) step n hn).below.outer
  | .block _ body => fun n hn => (entriesAll_within p p 0 body n hn).outer
  | .foreign .. => List.forall_mem_nil _

theorem entries?_within (s p : Path) :
    (o : Option (Stmt Note)) → ∀ n ∈ Stmt.entries? s p o, n.Within s p
  | none => List.forall_mem_nil _
  | some x => entries_within s p x

theorem entriesAll_within (s p : Path) (index : Nat) :
    (xs : List (Stmt Note)) → ∀ n ∈ Stmt.entriesAll s p index xs, n.Within s p
  | [] => List.forall_mem_nil _
  | x :: rest => List.forall_mem_append.mpr
      ⟨fun n hn => (entries_within s (.child index :: p) x n hn).below,
        entriesAll_within s p (index + 1) rest⟩

end

theorem entriesAll_inside (p : Path) (index : Nat) (xs : List (Stmt Note)) :
    ∀ n ∈ entriesAll p p index xs, p <:+ n.scope :=
  fun n hn => (entriesAll_within p p index xs n hn).inside

end Stmt

theorem Param.entries_scope (p : Path) (xs : List (Param Note)) :
    ∀ n ∈ Param.entries p xs, n.scope = p := by
  intro n hn
  obtain ⟨i, hi, rfl⟩ := List.mem_mapIdx.mp hn
  rfl

theorem Func.entries_inside (p : Path) (f : Func Note) : ∀ n ∈ f.entries p, p <:+ n.scope := by
  refine List.forall_mem_append.mpr ⟨?_, ?_⟩
  · intro n hn
    exact (Param.entries_scope p f.params n hn).symm ▸ List.suffix_refl p
  · intro n hn
    exact (Stmt.entriesAll_within p (.body :: p) 0 f.body n hn).below.inside

def Fresh (p : Path) (es : List Entry) : Prop := ∀ e ∈ es, ¬ p <:+ e.scope

theorem Fresh.below {p : Path} {es : List Entry} (h : Fresh p es) (part : Part) :
    Fresh (part :: p) es :=
  fun e he hs => h e he ((List.suffix_cons part p).trans hs)

theorem Fresh.append {p : Path} {es rest : List Entry} (h : Fresh p es) (h' : Fresh p rest) :
    Fresh p (es ++ rest) := by
  intro e he
  rcases List.mem_append.mp he with he | he
  · exact h e he
  · exact h' e he

theorem not_suffix_of_suffix {p s : Path} (h : s <:+ p) (part : Part) : ¬ part :: p <:+ s := by
  intro hs
  have hlen := (hs.trans h).length_le
  rw [List.length_cons] at hlen
  omega

theorem fresh_of_scope {s p : Path} {part : Part} {es : List Entry} (hs : s <:+ p)
    (h : ∀ e ∈ es, e.scope = s) : Fresh (part :: p) es := by
  intro e he hsuffix
  rw [h e he] at hsuffix
  exact not_suffix_of_suffix hs part hsuffix

theorem fresh_of_within {s p : Path} {part other : Part} {es : List Entry} (hs : s <:+ p)
    (hne : part ≠ other) (h : ∀ e ∈ es, e.Within s (part :: p)) :
    Fresh (other :: p) es := by
  intro e he hsuffix
  rcases h e he with hscope | hpart
  · exact not_suffix_of_suffix hs other (hscope ▸ hsuffix)
  · have heq := List.suffix_of_suffix_length_le hpart hsuffix (Nat.le_refl _)
    exact hne (List.cons.inj (heq.eq_of_length rfl)).1

end MiniSharp
