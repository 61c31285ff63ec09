import MiniSharp.Proofs.GivenNames

namespace MiniSharp

mutual

def Stmt.defines : Stmt Note → List Symbol
  | .declare note .. => note.defines.toList
  | .ifThen _ _ _ body | .whileDo _ _ _ body | .block _ body => Stmt.definesAll body
  | .ifElse _ _ _ body _ elseBody => Stmt.definesAll body ++ Stmt.definesAll elseBody
  | .forDo _ init _ step _ body =>
    Stmt.defines? init ++ Stmt.definesAll body ++ Stmt.defines? step
  | .assign .. | .input .. | .print .. | .evaluate .. | .ret .. | .foreign .. => []

def Stmt.defines? : Option (Stmt Note) → List Symbol
  | none => []
  | some s => s.defines

def Stmt.definesAll : List (Stmt Note) → List Symbol
  | [] => []
  | s :: rest => s.defines ++ Stmt.definesAll rest

end

def Func.defines (f : Func Note) : List Symbol :=
  f.params.flatMap (fun x => x.note.defines.toList) ++ Stmt.definesAll f.body

namespace Typing

structure Place.Counts (p p' : Place) (xs : List Symbol) : Prop where
  function : p'.function = p.function
  serial : p'.serial = p.serial + xs.length
  ids : xs.map Symbol.id = (List.range' p.serial xs.length).map (SymbolId.var p.function)

namespace Place.Counts

theorem nil (p : Place) : p.Counts p [] := ⟨rfl, rfl, rfl⟩

theorem extend (p : Place) (t : Token) (name : Text) (type : Ty) :
    p.Counts (p.extend (p.symbol t name type)) [p.symbol t name type] := ⟨rfl, rfl, rfl⟩

theorem append {p q r : Place} {xs ys : List Symbol} (h : p.Counts q xs) (h' : q.Counts r ys) :
    p.Counts r (xs ++ ys) := by
  refine ⟨h'.function.trans h.function, ?_, ?_⟩
  · rw [h'.serial, h.serial, List.length_append, Nat.add_assoc]
  · rw [List.map_append, h.ids, h'.ids, h.serial, h.function, ← List.map_append,
      List.range'_append_1, List.length_append]

theorem leave {p inside : Place} {xs : List Symbol} (h : p.inner.Counts inside xs) :
    p.Counts (p.leave inside) xs :=
  ⟨rfl, h.serial, h.ids⟩

end Place.Counts

mutual

theorem StmtChecked.counts {p p' : Place} {s : Stmt Unit} {s' : Stmt Note} :
    StmtChecked p s s' p' → p.Counts p' s'.defines
  | @StmtChecked.declare p t name type _ => .extend p t name type
  | @StmtChecked.declareWith p t name type _ _ _ _ _ _ => .extend p t name type
  | .assign _ _ _ _ => .nil _
  | .input _ _ => .nil _
  | .print _ => .nil _
  | .evaluate _ => .nil _
  | .ret _ _ => .nil _
  | .ifThen _ hb => hb.counts.leave
  | .ifElse _ hb he => hb.counts.leave.append he.counts.leave
  | .whileDo _ hb => hb.counts.leave
  | .forDo hi _ hb hs => ((hi.counts.append hb.counts).append hs.counts).leave
  | .block hb => hb.counts.leave

theorem ClauseChecked.counts {p p' : Place} {o : Option (Stmt Unit)} {o' : Option (Stmt Note)} :
    ClauseChecked p o o' p' → p.Counts p' (Stmt.defines? o')
  | .none => .nil _
  | .some hs => hs.counts

theorem StmtsChecked.counts {p p' : Place} {ss : List (Stmt Unit)} {ss' : List (Stmt Note)} :
    StmtsChecked p ss ss' p' → p.Counts p' (Stmt.definesAll ss')
  | .nil => .nil _
  | .cons hs hr => hs.counts.append hr.counts

end

theorem ParamsChecked.counts {p p' : Place} {xs : List (Param Unit)} {xs' : List (Param Note)}
    (h : ParamsChecked p xs xs' p') :
    p.Counts p' (xs'.flatMap fun x => x.note.defines.toList) := by
  induction h with
  | nil => exact .nil _
  | @cons p x _ _ _ _ _ ih => exact (Place.Counts.extend p x.token x.name x.type).append ih

theorem FuncChecked.defines_nodup {scope : Scope} {f : Func Unit} {f' : Func Note}
    (h : FuncChecked scope f f') : (f'.defines.map Symbol.id).Nodup := by
  cases h with
  | mk hp hb =>
    rw [Func.defines, (hp.counts.append hb.counts).ids]
    refine List.Nodup.map ?_ List.nodup_range'
    intro i j hij
    cases hij
    rfl

end Typing

/-- Every source that checks is compiled to methods in which each name of a variable is in scope and
stands for the declaration that is meant. -/
theorem names_denote_declarations {source : Text} {a : Analysis} (h : check source = .ok a) :
    parse source = .ok (a.program.map fun _ => ()) ∧
      ∃ methods, a.program.lower = .ok methods ∧
        compile source = .ok (Target.renderFile methods) ∧
        List.Forall₂ (fun f m => (f.defines.map Symbol.id).Nodup ∧ Emitted.MethodEmitted f m)
          a.program.functions methods := by
  obtain ⟨x, hx, ha⟩ := check_eq_ok.mp h
  refine ⟨by rw [hx, Program.analyze_erased ha], ?_⟩
  obtain ⟨methods, hl, hemitted⟩ :=
    Program.lower_emitted (parse_formed hx (scan_wellSpelled source)) ha
  refine ⟨methods, hl, compile_of_check h (toCSharp_of_lower hl), ?_⟩
  obtain ⟨-, -, -, -, hfs⟩ := Program.analyze_eq_ok.mp ha
  have hnodup : ∀ f' ∈ a.program.functions, (f'.defines.map Symbol.id).Nodup := by
    intro f' hf'
    obtain ⟨f, -, hf⟩ := exists_of_forall₂ hfs.flip hf'
    exact hf.defines_nodup
  exact (List.forall₂_and_left _ _).mpr ⟨hnodup, hemitted⟩

def nestedLoops : Text := Text.ofString
  "func main(): int \x7b
    for (var i: int = 0; i < 2; i = i + 1) \x7b
      var i_1: int = i;
      for (var i: int = i_1; i < 2; i = i + k) \x7b var k: int = i; input(k); \x7d
    \x7d
    return 0;
  \x7d"

theorem names_denote_declarations_nestedLoops :
    ∃ a, check nestedLoops = .ok a ∧
      parse nestedLoops = .ok (a.program.map fun _ => ()) ∧
      ∃ methods, a.program.lower = .ok methods ∧
        compile nestedLoops = .ok (Target.renderFile methods) ∧
        List.Forall₂ (fun f m => (f.defines.map Symbol.id).Nodup ∧ Emitted.MethodEmitted f m)
          a.program.functions methods := by
  have hok : (check nestedLoops).isOk := by decide +kernel
  obtain ⟨a, ha⟩ := exists_of_isOk hok
  exact ⟨a, ha, names_denote_declarations ha⟩

end MiniSharp
