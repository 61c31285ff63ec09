import MiniSharp.Program.Map
import MiniSharp.Proofs.CheckedPlaces
import MiniSharp.Proofs.ParsedForms

namespace MiniSharp

variable {ν μ : Type} {P : Token → Prop}

namespace Expr

mutual

@[simp]
theorem formed_map {f : ν → μ} : (e : Expr ν) → ((e.map f).Formed P ↔ e.Formed P)
  | .literal .. => Iff.rfl
  | .ident .. => Iff.rfl
  | .call _ _ _ args => by simp only [map, Formed, allFormed_map args]
  | .unary _ _ _ operand => by simp only [map, Formed, formed_map operand]
  | .binary _ _ _ left right => by simp only [map, Formed, formed_map left, formed_map right]
  | .foreign .. => Iff.rfl

@[simp]
theorem allFormed_map {f : ν → μ} :
    (es : List (Expr ν)) → (AllFormed P (mapAll f es) ↔ AllFormed P es)
  | [] => Iff.rfl
  | e :: rest => by simp only [mapAll, AllFormed, formed_map e, allFormed_map rest]

end

@[simp]
theorem optFormed_map {f : ν → μ} (o : Option (Expr ν)) :
    (∀ e ∈ o.map (map f), e.Formed P) ↔ ∀ e ∈ o, e.Formed P := by
  cases o <;> simp

end Expr

namespace Stmt

@[simp]
theorem isInit_map (f : ν → μ) (s : Stmt ν) : (s.map f).isInit = s.isInit := by
  cases s <;> rfl

@[simp]
theorem isStep_map (f : ν → μ) (s : Stmt ν) : (s.map f).isStep = s.isStep := by
  cases s <;> rfl

theorem forall_mem_map? {f : ν → μ} {Q : Stmt μ → Prop} (o : Option (Stmt ν)) :
    (∀ s ∈ map? f o, Q s) ↔ ∀ s ∈ o, Q (s.map f) := by
  cases o <;> simp [map?]

mutual

@[simp]
theorem formed_map {f : ν → μ} : (s : Stmt ν) → ((s.map f).Formed P ↔ s.Formed P)
  | .declare _ _ _ _ value => by simp only [map, Formed, Expr.optFormed_map]
  | .assign _ _ _ value | .print _ value | .evaluate _ value | .ret _ value => by
    simp only [map, Formed, Expr.formed_map]
  | .input .. => Iff.rfl
  | .ifThen _ cond _ body | .whileDo _ cond _ body => by
    simp only [map, Formed, Expr.formed_map, allFormed_map body]
  | .ifElse _ cond _ body _ elseBody => by
    simp only [map, Formed, Expr.formed_map, allFormed_map body, allFormed_map elseBody]
  | .forDo _ init cond step _ body => by
    simp only [map, Formed, Expr.optFormed_map, forall_mem_map?, isInit_map, isStep_map,
      optFormed_map init, optFormed_map step, allFormed_map body]
  | .block _ body => by simp only [map, Formed, allFormed_map body]
  | .foreign .. => Iff.rfl

@[simp]
theorem optFormed_map {f : ν → μ} :
    (o : Option (Stmt ν)) → (OptFormed P (map? f o) ↔ OptFormed P o)
  | none => Iff.rfl
  | some s => by simp only [map?, OptFormed, formed_map s]

@[simp]
theorem allFormed_map {f : ν → μ} :
    (ss : List (Stmt ν)) → (AllFormed P (mapAll f ss) ↔ AllFormed P ss)
  | [] => Iff.rfl
  | s :: rest => by simp only [mapAll, AllFormed, formed_map s, allFormed_map rest]

end

end Stmt

theorem Func.formed_map {f : ν → μ} {g : Func ν} : (g.map f).Formed P ↔ g.Formed P := by
  have hparams : (∀ x ∈ g.params.map (Param.map f), x.Formed P) ↔ ∀ x ∈ g.params, x.Formed P := by
    simp only [List.forall_mem_map]
    exact forall₂_congr fun x _ => ⟨fun h => ⟨h.name, h.type⟩, fun h => ⟨h.name, h.type⟩⟩
  constructor
  · rintro ⟨hn, hp, hr, hb, hs⟩
    exact ⟨hn, hparams.mp hp, hr, hb, (Stmt.allFormed_map _).mp hs⟩
  · rintro ⟨hn, hp, hr, hb, hs⟩
    exact ⟨hn, hparams.mpr hp, hr, hb, (Stmt.allFormed_map _).mpr hs⟩

theorem Program.formed_map {f : ν → μ} {x : Program ν} : (x.map f).Formed P ↔ x.Formed P := by
  simp only [Program.Formed, Program.map, List.forall_mem_map, Func.formed_map]

namespace Typing

mutual

theorem ExprChecked.erased {scope : Scope} {type : Ty} {e : Expr Unit} {e' : Expr Note} :
    ExprChecked scope e type e' → e'.map (fun _ => ()) = e
  | .literal => rfl
  | .ident _ _ => rfl
  | .call _ _ ha => congrArg (Expr.call () _ _) ha.erased
  | .unary ho _ => congrArg (Expr.unary () _ _) ho.erased
  | .binary hl hr _ => congrArg₂ (Expr.binary () _ _) hl.erased hr.erased

theorem ArgsChecked.erased {scope : Scope} {params : List Ty} {args : List (Expr Unit)}
    {args' : List (Expr Note)} :
    ArgsChecked scope params args args' → Expr.mapAll (fun _ => ()) args' = args
  | .nil => rfl
  | .cons he _ hs => congrArg₂ List.cons he.erased hs.erased

end

theorem conditions_erased {scope : Scope} {o : Option (Expr Unit)} {o' : Option (Expr Note)}
    (h : Option.Rel (fun e => ExprChecked scope e .bool) o o') :
    o'.map (Expr.map fun _ => ()) = o := by
  cases h with
  | none => rfl
  | some he => exact congrArg some he.erased

mutual

theorem StmtChecked.erased {p p' : Place} {s : Stmt Unit} {s' : Stmt Note} :
    StmtChecked p s s' p' → s'.map (fun _ => ()) = s
  | .declare _ => rfl
  | .declareWith hv _ _ => congrArg (Stmt.declare () _ _ _ <| some ·) hv.erased
  | .assign _ _ hv _ => congrArg (Stmt.assign () _ _) hv.erased
  | .input _ _ => rfl
  | .print hv => congrArg (Stmt.print _) hv.erased
  | .evaluate hv => congrArg (Stmt.evaluate _) hv.erased
  | .ret hv _ => congrArg (Stmt.ret _) hv.erased
  | .ifThen hc hb => congrArg₂ (Stmt.ifThen _ · _ ·) hc.erased hb.erased
  | .ifElse hc hb he => by rw [Stmt.map, hc.erased, hb.erased, he.erased]
  | .whileDo hc hb => congrArg₂ (Stmt.whileDo _ · _ ·) hc.erased hb.erased
  | .forDo hi hc hb hs => by
    rw [Stmt.map, hi.erased, conditions_erased hc, hb.erased, hs.erased]
  | .block hb => congrArg (Stmt.block _) hb.erased

theorem ClauseChecked.erased {p p' : Place} {o : Option (Stmt Unit)} {o' : Option (Stmt Note)} :
    ClauseChecked p o o' p' → Stmt.map? (fun _ => ()) o' = o
  | .none => rfl
  | .some hs => congrArg some hs.erased

theorem StmtsChecked.erased {p p' : Place} {ss : List (Stmt Unit)} {ss' : List (Stmt Note)} :
    StmtsChecked p ss ss' p' → Stmt.mapAll (fun _ => ()) ss' = ss
  | .nil => rfl
  | .cons hs hr => congrArg₂ List.cons hs.erased hr.erased

end

theorem ParamsChecked.erased {p p' : Place} {xs : List (Param Unit)} {xs' : List (Param Note)}
    (h : ParamsChecked p xs xs' p') : xs'.map (Param.map fun _ => ()) = xs := by
  induction h with
  | nil => rfl
  | cons _ _ ih => exact congrArg (List.cons _) ih

theorem FuncChecked.erased {scope : Scope} {f : Func Unit} {f' : Func Note} :
    FuncChecked scope f f' → f'.map (fun _ => ()) = f
  | .mk hp hb => by rw [Func.map, hp.erased, hb.erased]

theorem FuncChecked.defines {scope : Scope} {f : Func Unit} {f' : Func Note} :
    FuncChecked scope f f' → f'.note.defines = some (signature f) ∧ f'.name = f.name
  | .mk _ _ => ⟨rfl, rfl⟩

end Typing

theorem Program.analyze_erased {x : Program Unit} {a : Analysis} (h : x.analyze = .ok a) :
    a.program.map (fun _ => ()) = x := by
  obtain ⟨-, -, -, ht, hf⟩ := Program.analyze_eq_ok.mp h
  have hfunctions : x.functions = a.program.functions.map (Func.map fun _ => ()) := by
    rw [← List.map_id x.functions]
    exact map_eq_map_of_forall₂ (hf.imp fun _ _ hg => hg.erased.symm)
  rw [Program.map, ht, ← hfunctions]

theorem Program.analyze_names {x : Program Unit} {a : Analysis} (h : x.analyze = .ok a) :
    a.program.functions.map Func.name = x.functions.map Func.name := by
  rw [← Program.analyze_erased h, Program.map, List.map_map]
  rfl

theorem Program.analyze_defines {x : Program Unit} {a : Analysis} (h : x.analyze = .ok a) :
    ∀ f ∈ a.program.functions, ∃ y, f.note.defines = some y ∧ y.id = .func f.name := by
  intro f' hf'
  obtain ⟨-, -, -, -, hfs⟩ := Program.analyze_eq_ok.mp h
  obtain ⟨f, -, hf⟩ := exists_of_forall₂ hfs.flip hf'
  obtain ⟨hd, hname⟩ := hf.defines
  exact ⟨_, hd, by rw [hname]; rfl⟩

end MiniSharp
