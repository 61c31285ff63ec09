import MiniSharp.Proofs.DatumText
import MiniSharp.Proofs.TreeData
import MiniSharp.Proofs.TreeForms

namespace MiniSharp

variable {ν : Type}

def NodeKind.symbol : NodeKind → Text
  | program => "program"
  | func => "func"
  | param => "param"
  | block => "block"
  | varDecl => "var"
  | assign => "assign"
  | print => "print"
  | input => "input"
  | ret => "return"
  | ifStmt => "if"
  | whileStmt => "while"
  | forStmt => "for"
  | exprStmt => "expr"
  | binary => "binary"
  | unary => "unary"
  | ident => "ident"
  | call => "call"
  | literal | other _ => []

def NodeKind.heads : NodeKind → Bool
  | literal | other _ => false
  | _ => true

def NodeKind.headed (kind : NodeKind) (items : List Datum) : Datum :=
  .list (.symbol kind.symbol :: items)

section Depict

-- The bytes that show a character.
variable (spell : UInt8 → Text)

def Literal.depict : Literal → Datum
  | int value => .integer (Text.ofInt value)
  | float value => .list [.symbol "float", .string value.render]
  | char value => .list [.symbol "char", .string (spell value)]
  | bool value => .list [.symbol "bool", .symbol (if value then "true" else "false")]
  | string value => .string value
  | untyped => .symbol "?"

mutual

def Expr.depict : Expr ν → Datum
  | .literal _ _ value => value.depict spell
  | .ident _ _ name => NodeKind.ident.headed [.string name]
  | .call _ _ name args => NodeKind.call.headed (.string name :: Expr.depictAll args)
  | .unary _ _ op operand => NodeKind.unary.headed [.string op.operatorSpelling, operand.depict]
  | .binary _ _ op left right =>
    NodeKind.binary.headed [.string op.operatorSpelling, left.depict, right.depict]
  | .foreign _ kind => kind.elim (.symbol "nil") fun kind => kind.headed []

def Expr.depictAll : List (Expr ν) → List Datum
  | [] => []
  | e :: rest => e.depict :: Expr.depictAll rest

end

mutual

def Stmt.depict : Stmt ν → Datum
  | .declare _ _ name type value =>
    NodeKind.varDecl.headed
      (.string name :: .symbol type.name :: (value.map (Expr.depict spell)).toList)
  | .assign _ _ name value => NodeKind.assign.headed [.string name, value.depict spell]
  | .input _ _ name => NodeKind.input.headed [.string name]
  | .print _ value => NodeKind.print.headed [value.depict spell]
  | .evaluate _ value => NodeKind.exprStmt.headed [value.depict spell]
  | .ret _ value => NodeKind.ret.headed [value.depict spell]
  | .ifThen _ cond _ body =>
    NodeKind.ifStmt.headed [cond.depict spell, NodeKind.block.headed (Stmt.depictAll body)]
  | .ifElse _ cond _ body _ elseBody =>
    NodeKind.ifStmt.headed [cond.depict spell, NodeKind.block.headed (Stmt.depictAll body),
      NodeKind.block.headed (Stmt.depictAll elseBody)]
  | .whileDo _ cond _ body =>
    NodeKind.whileStmt.headed [cond.depict spell, NodeKind.block.headed (Stmt.depictAll body)]
  | .forDo _ init cond step _ body =>
    NodeKind.forStmt.headed [Stmt.depict? init, (cond.map (Expr.depict spell)).getD (.symbol "nil"),
      Stmt.depict? step, NodeKind.block.headed (Stmt.depictAll body)]
  | .block _ body => NodeKind.block.headed (Stmt.depictAll body)
  | .foreign _ kind => kind.elim (.symbol "nil") fun kind => kind.headed []

def Stmt.depict? : Option (Stmt ν) → Datum
  | none => .symbol "nil"
  | some s => s.depict

def Stmt.depictAll : List (Stmt ν) → List Datum
  | [] => []
  | s :: rest => s.depict :: Stmt.depictAll rest

end

def Param.depict (x : Param ν) : Datum :=
  NodeKind.param.headed [.string x.name, .symbol x.type.name]

def Func.depict (f : Func ν) : Datum :=
  NodeKind.func.headed [.string f.name, .list (.symbol "params" :: f.params.map Param.depict),
    .symbol f.result.name, NodeKind.block.headed (Stmt.depictAll spell f.body)]

def Program.depict (x : Program ν) : Datum :=
  NodeKind.program.headed (x.functions.map (Func.depict spell))

end Depict

def Text.asCharacter (b : UInt8) : Text := encode b.toNat

def Text.asByte (b : UInt8) : Text := [b]

variable {P : Token → Prop}

namespace Expr

mutual

theorem datum_toTree : (e : Expr Unit) → e.Formed P →
    e.toTree.datum = .ok (e.depict Text.asCharacter)
  | .literal _ _ value, _ => by
    cases value <;> rfl
  | .ident .., _ => rfl
  | .call _ _ _ args, h => by
    simp only [toTree, Tree.list, Tree.datum, data_toTrees args h.2]
    rfl
  | .unary _ _ _ operand, h => by
    simp only [toTree, Tree.datum, datum_toTree operand h.2.2.2]
    rfl
  | .binary _ _ _ left right, h => by
    simp only [toTree, Tree.datum, datum_toTree left h.2.2.2.1, datum_toTree right h.2.2.2.2]
    rfl
  | .foreign .., h => h.elim

theorem data_toTrees : (es : List (Expr Unit)) → AllFormed P es →
    Tree.data (toTrees es) = .ok (depictAll Text.asCharacter es)
  | [], _ => rfl
  | e :: rest, h => by
    simp only [toTrees, Tree.data, datum_toTree e h.1, data_toTrees rest h.2]
    rfl

end

end Expr

namespace Stmt

theorem isAbsent_toTree {e : Expr Unit} (h : e.Formed P) : e.toTree.isAbsent = false := by
  cases e with
  | foreign => exact h.elim
  | _ => rfl

theorem datum_blockTree {brace : Token} {body : List Tree} {ds : List Datum}
    (h : Tree.data body = .ok ds) :
    (blockTree brace body).datum = .ok (NodeKind.block.headed ds) := by
  simp only [blockTree, Tree.list, Tree.datum, h]
  rfl

theorem isAbsent_blockTree (brace : Token) (body : List Tree) :
    (blockTree brace body).isAbsent = false := rfl

theorem datum_condition (cond : Option (Expr Unit)) (h : ∀ e ∈ cond, e.Formed P) :
    (cond.elim .absent Expr.toTree).datum =
      .ok ((cond.map (Expr.depict Text.asCharacter)).getD (.symbol "nil")) := by
  cases cond with
  | none => rfl
  | some e => exact Expr.datum_toTree e (h e rfl)

mutual

theorem datum_toTree : (s : Stmt Unit) → s.Formed P →
    s.toTree.datum = .ok (s.depict Text.asCharacter)
  | .declare _ _ _ _ none, _ => rfl
  | .declare _ _ _ _ (some value), h => by
    simp only [toTree, valueTree, Tree.datum, isAbsent_toTree (h.2.2 value rfl),
      Expr.datum_toTree value (h.2.2 value rfl)]
    rfl
  | .assign _ _ _ value, h | .print _ value, h | .evaluate _ value, h | .ret _ value, h => by
    simp only [toTree, valueTree, Tree.datum, Expr.datum_toTree value h.2]
    rfl
  | .input .., _ => rfl
  | .ifThen _ cond _ body, h | .whileDo _ cond _ body, h => by
    simp only [toTree, Tree.datum, Expr.datum_toTree cond h.2.1,
      datum_blockTree (data_toTrees body h.2.2.2)]
    rfl
  | .ifElse _ cond _ body _ elseBody, h => by
    simp only [toTree, Tree.datum, isAbsent_blockTree, Expr.datum_toTree cond h.2.1,
      datum_blockTree (data_toTrees body h.2.2.2.1),
      datum_blockTree (data_toTrees elseBody h.2.2.2.2.2)]
    rfl
  | .forDo _ init cond step _ body, ⟨_, _, hi, hc, _, hs, _, hb⟩ => by
    simp only [toTree, Tree.datum, datum_toTree? init hi, datum_condition cond hc,
      datum_toTree? step hs, datum_blockTree (data_toTrees body hb)]
    rfl
  | .block _ body, h => by
    rw [toTree, datum_blockTree (data_toTrees body h.2), depict]
  | .foreign .., h => h.elim

theorem datum_toTree? : (o : Option (Stmt Unit)) → OptFormed P o →
    (toTree? o).datum = .ok (depict? Text.asCharacter o)
  | none, _ => rfl
  | some s, h => by rw [toTree?, datum_toTree s h, depict?]

theorem data_toTrees : (ss : List (Stmt Unit)) → AllFormed P ss →
    Tree.data (toTrees ss) = .ok (depictAll Text.asCharacter ss)
  | [], _ => rfl
  | s :: rest, h => by
    simp only [toTrees, Tree.data, datum_toTree s h.1, data_toTrees rest h.2]
    rfl

end

end Stmt

theorem Tree.data_map {α : Type} {toTree : α → Tree} {depict : α → Datum} {xs : List α}
    (h : ∀ x ∈ xs, (toTree x).datum = .ok (depict x)) :
    Tree.data (xs.map toTree) = .ok (xs.map depict) := by
  induction xs with
  | nil => rfl
  | cons x rest ih =>
    have hrest := ih fun y hy => h y (List.mem_cons_of_mem x hy)
    simp only [List.map_cons, Tree.data, h x List.mem_cons_self, hrest]
    rfl

theorem Func.datum_toTree {f : Func Unit} (h : f.Formed P) :
    f.toTree.datum = .ok (f.depict Text.asCharacter) := by
  have hparams : Tree.data (f.params.map Param.toTree) = .ok (f.params.map Param.depict) :=
    Tree.data_map fun _ _ => rfl
  simp only [Func.toTree, Tree.datum, hparams, Stmt.datum_blockTree (Stmt.data_toTrees f.body h.body)]
  rfl

theorem Program.datum_toTree {x : Program Unit} (h : x.Formed P) :
    x.toTree.datum = .ok (x.depict Text.asCharacter) := by
  have hfunctions : Tree.data (x.functions.map Func.toTree) =
      .ok (x.functions.map (Func.depict Text.asCharacter)) :=
    Tree.data_map fun f hf => Func.datum_toTree (h f hf)
  simp only [Program.toTree, Tree.list, Tree.datum, hfunctions]
  rfl

section WellFormed

open Datum (IsSymbol WellFormed AllWellFormed)

theorem NodeKind.isSymbol_symbol {k : NodeKind} (h : k.heads) : IsSymbol k.symbol := by
  cases k with
  | literal | other => cases h
  | _ => decide +kernel

theorem NodeKind.headed_wellFormed {k : NodeKind} (hk : k.heads) {items : List Datum}
    (h : AllWellFormed items) : (k.headed items).WellFormed :=
  ⟨isSymbol_symbol hk, h⟩

theorem Ty.isSymbol_name (type : Ty) : IsSymbol type.name := by
  have hinvalid : IsSymbol (Text.ofString "invalid") := by decide +kernel
  cases type with
  | other => exact hinvalid
  | _ => decide +kernel

theorem nil_wellFormed : (Datum.symbol "nil").WellFormed := by
  rw [WellFormed]
  decide +kernel

variable (spell : UInt8 → Text)

theorem Literal.depict_wellFormed {value : Literal} (h : value ≠ .untyped) :
    (value.depict spell).WellFormed := by
  have hwords : ∀ w ∈ [Text.ofString "float", "char", "bool", "true", "false"], IsSymbol w := by
    decide +kernel
  cases value with
  | int i => exact Datum.isInteger_ofInt i
  | float => exact ⟨hwords _ (by simp), trivial, trivial⟩
  | char => exact ⟨hwords _ (by simp), trivial, trivial⟩
  | bool b => exact ⟨hwords _ (by simp), hwords _ (by cases b <;> simp), trivial⟩
  | string => trivial
  | untyped => exact absurd rfl h

namespace Expr

mutual

theorem depict_wellFormed : (e : Expr Unit) → e.Formed P → (e.depict spell).WellFormed
  | .literal _ _ value, h => by
    refine Literal.depict_wellFormed spell ?_
    have hproper := Parser.literal?_proper h.2
    rintro rfl
    exact hproper
  | .ident .., _ => NodeKind.headed_wellFormed rfl ⟨trivial, trivial⟩
  | .call _ _ _ args, h =>
    NodeKind.headed_wellFormed rfl ⟨trivial, depictAll_wellFormed args h.2⟩
  | .unary _ _ _ operand, h =>
    NodeKind.headed_wellFormed rfl ⟨trivial, depict_wellFormed operand h.2.2.2, trivial⟩
  | .binary _ _ _ left right, h =>
    NodeKind.headed_wellFormed rfl ⟨trivial, depict_wellFormed left h.2.2.2.1,
      depict_wellFormed right h.2.2.2.2, trivial⟩
  | .foreign .., h => h.elim

theorem depictAll_wellFormed : (es : List (Expr Unit)) → AllFormed P es →
    AllWellFormed (depictAll spell es)
  | [], _ => trivial
  | e :: rest, h => ⟨depict_wellFormed e h.1, depictAll_wellFormed rest h.2⟩

end

end Expr

namespace Stmt

mutual

theorem depict_wellFormed : (s : Stmt Unit) → s.Formed P → (s.depict spell).WellFormed
  | .declare _ _ _ type none, _ =>
    NodeKind.headed_wellFormed rfl ⟨trivial, type.isSymbol_name, trivial⟩
  | .declare _ _ _ type (some value), h =>
    NodeKind.headed_wellFormed rfl ⟨trivial, type.isSymbol_name,
      value.depict_wellFormed spell (h.2.2 value rfl), trivial⟩
  | .assign _ _ _ value, h =>
    NodeKind.headed_wellFormed rfl ⟨trivial, value.depict_wellFormed spell h.2, trivial⟩
  | .input .., _ => NodeKind.headed_wellFormed rfl ⟨trivial, trivial⟩
  | .print _ value, h | .evaluate _ value, h | .ret _ value, h =>
    NodeKind.headed_wellFormed rfl ⟨value.depict_wellFormed spell h.2, trivial⟩
  | .ifThen _ cond _ body, h | .whileDo _ cond _ body, h =>
    NodeKind.headed_wellFormed rfl ⟨cond.depict_wellFormed spell h.2.1,
      NodeKind.headed_wellFormed rfl (depictAll_wellFormed body h.2.2.2), trivial⟩
  | .ifElse _ cond _ body _ elseBody, h =>
    NodeKind.headed_wellFormed rfl ⟨cond.depict_wellFormed spell h.2.1,
      NodeKind.headed_wellFormed rfl (depictAll_wellFormed body h.2.2.2.1),
      NodeKind.headed_wellFormed rfl (depictAll_wellFormed elseBody h.2.2.2.2.2), trivial⟩
  | .forDo _ init cond step _ body, ⟨_, _, hi, hc, _, hs, _, hb⟩ => by
    refine NodeKind.headed_wellFormed rfl ⟨depict?_wellFormed init hi, ?_,
      depict?_wellFormed step hs, NodeKind.headed_wellFormed rfl (depictAll_wellFormed body hb),
      trivial⟩
    cases cond with
    | none => exact nil_wellFormed
    | some e => exact e.depict_wellFormed spell (hc e rfl)
  | .block _ body, h => NodeKind.headed_wellFormed rfl (depictAll_wellFormed body h.2)
  | .foreign .., h => h.elim

theorem depict?_wellFormed : (o : Option (Stmt Unit)) → OptFormed P o →
    (depict? spell o).WellFormed
  | none, _ => nil_wellFormed
  | some s, h => depict_wellFormed s h

theorem depictAll_wellFormed : (ss : List (Stmt Unit)) → AllFormed P ss →
    AllWellFormed (depictAll spell ss)
  | [], _ => trivial
  | s :: rest, h => ⟨depict_wellFormed s h.1, depictAll_wellFormed rest h.2⟩

end

end Stmt

theorem Func.depict_wellFormed {f : Func Unit} (h : f.Formed P) :
    (f.depict spell).WellFormed := by
  have hword : IsSymbol (Text.ofString "params") := by decide +kernel
  have hparams : AllWellFormed (f.params.map Param.depict) := by
    rw [Datum.allWellFormed_iff, List.forall_mem_map]
    intro x _
    exact NodeKind.headed_wellFormed rfl ⟨trivial, x.type.isSymbol_name, trivial⟩
  exact NodeKind.headed_wellFormed rfl ⟨trivial, ⟨hword, hparams⟩, f.result.isSymbol_name,
    NodeKind.headed_wellFormed rfl (Stmt.depictAll_wellFormed spell f.body h.body), trivial⟩

theorem Program.depict_wellFormed {x : Program Unit} (h : x.Formed P) :
    (x.depict spell).WellFormed := by
  refine NodeKind.headed_wellFormed rfl ?_
  rw [Datum.allWellFormed_iff, List.forall_mem_map]
  exact fun f hf => Func.depict_wellFormed spell (h f hf)

end WellFormed

structure Tree.ReadsAs (t : Tree) (d : Datum) : Prop where
  text : t.render = .ok d.render
  datum : Datum.parse d.render = .ok d

theorem Tree.ReadsAs.iff_eq {t : Tree} {d e : Datum} (hd : t.ReadsAs d) :
    t.ReadsAs e ↔ d = e := by
  constructor
  · intro he
    have htext : d.render = e.render := Except.ok.inj (hd.text.symm.trans he.text)
    have hdatum := hd.datum
    rw [htext, he.datum] at hdatum
    exact (Except.ok.inj hdatum).symm
  · rintro rfl
    exact hd

theorem Tree.readsAs_of_datum {t : Tree} {d : Datum} (ht : t.datum = .ok d) (hd : d.WellFormed) :
    t.ReadsAs d := by
  refine ⟨?_, Datum.parse_render hd⟩
  rw [Tree.render_eq, ht]
  rfl

def Literal.isAscii : Literal → Bool
  | char value => value.toNat < 0x80
  | _ => true

namespace Tree

def Ascii (p : Path) (t : Tree) : Prop := ∀ n ∈ t.walk p, n.2.literal.isAscii

instance (p : Path) (t : Tree) : Decidable (t.Ascii p) :=
  inferInstanceAs (Decidable (∀ n ∈ t.walk p, n.2.literal.isAscii))

def AllAscii (p : Path) (part : Nat → Part) (index : Nat) (ts : List Tree) : Prop :=
  ∀ n ∈ walkAll p part index ts, n.2.literal.isAscii

theorem ascii_absent (p : Path) : absent.Ascii p :=
  each_absent (fun l => l.literal.isAscii) p

theorem ascii_node (p : Path) (label : Label) (params children : List Tree)
    (init cond step value left right body orElse : Tree) :
    (node label params children init cond step value left right body orElse).Ascii p ↔
      label.literal.isAscii ∧ AllAscii p .param 0 params ∧ init.Ascii (.init :: p) ∧
        cond.Ascii (.cond :: p) ∧ step.Ascii (.step :: p) ∧ value.Ascii (.value :: p) ∧
        left.Ascii (.left :: p) ∧ right.Ascii (.right :: p) ∧ body.Ascii (.body :: p) ∧
        orElse.Ascii (.orElse :: p) ∧ AllAscii p .child 0 children :=
  each_node (fun l => l.literal.isAscii) p label params children init cond step value left right
    body orElse

theorem allAscii_nil (p : Path) (part : Nat → Part) (index : Nat) :
    AllAscii p part index [] :=
  eachOf_nil (fun l => l.literal.isAscii) p part index

theorem allAscii_cons (p : Path) (part : Nat → Part) (index : Nat) (t : Tree) (rest : List Tree) :
    AllAscii p part index (t :: rest) ↔
      t.Ascii (part index :: p) ∧ AllAscii p part (index + 1) rest :=
  eachOf_cons (fun l => l.literal.isAscii) p part index t rest

theorem ascii_list {label : Label} (h : label.literal = .untyped) (p : Path)
    (children : List Tree) : (list label children).Ascii p ↔ AllAscii p .child 0 children := by
  simp only [list, ascii_node, h, Literal.isAscii, ascii_absent, allAscii_nil, true_and]

end Tree

theorem Text.asCharacter_eq_asByte (b : UInt8) : asCharacter b = asByte b ↔ b.toNat < 0x80 := by
  rw [asCharacter, asByte]
  by_cases hb : b.toNat < 0x80
  · simp [encode_ascii hb, hb]
  · have hlt := b.toNat_lt
    have hb' : b.toNat < 0x800 := by omega
    simp [encode, hb, hb']

theorem NodeKind.headed_inj (k : NodeKind) (xs ys : List Datum) :
    k.headed xs = k.headed ys ↔ xs = ys := by
  simp only [headed, Datum.list.injEq, List.cons.injEq, true_and]

-- The iffs below go down the trees; a node that is no literal holds no character itself.
section Ascii

open MiniSharp.Tree (ascii_absent ascii_node ascii_list allAscii_nil allAscii_cons)
open NodeKind (headed_inj)
open Literal (isAscii)

namespace Expr

mutual

theorem depict_eq_iff (p : Tree.Path) : (e : Expr Unit) →
    (e.depict Text.asCharacter = e.depict Text.asByte ↔ e.toTree.Ascii p)
  | .literal _ _ value => by
    rw [depict, depict, toTree, Tree.leaf, Tree.list, ascii_node]
    simp only [ascii_absent, allAscii_nil, and_true]
    cases value <;> simp [Literal.depict, isAscii, Text.asCharacter_eq_asByte]
  | .ident .. => by
    simp only [depict, toTree, Tree.leaf, ascii_list, allAscii_nil]
  | .call _ _ _ args => by
    simp only [depict, toTree, headed_inj, List.cons.injEq, true_and, ascii_list,
      depictAll_eq_iff p 0 args]
  | .unary _ _ _ operand => by
    simp only [depict, toTree, headed_inj, List.cons.injEq, true_and, and_true, ascii_node,
      isAscii, ascii_absent, allAscii_nil, depict_eq_iff (.left :: p) operand]
  | .binary _ _ _ left right => by
    simp only [depict, toTree, headed_inj, List.cons.injEq, true_and, and_true, ascii_node,
      isAscii, ascii_absent, allAscii_nil, depict_eq_iff (.left :: p) left,
      depict_eq_iff (.right :: p) right]
  | .foreign _ none => by simp only [depict, toTree, Option.elim_none, ascii_absent]
  | .foreign _ (some _) => by
    simp only [depict, toTree, Option.elim_some, Tree.leaf, ascii_list, allAscii_nil]

theorem depictAll_eq_iff (p : Tree.Path) (i : Nat) : (es : List (Expr Unit)) →
    (depictAll Text.asCharacter es = depictAll Text.asByte es ↔
      Tree.AllAscii p .child i (toTrees es))
  | [] => by simp only [depictAll, toTrees, allAscii_nil]
  | e :: rest => by
    simp only [depictAll, toTrees, List.cons.injEq, allAscii_cons,
      depict_eq_iff (.child i :: p) e, depictAll_eq_iff p (i + 1) rest]

end

end Expr

namespace Stmt

theorem condition_eq_iff (p : Tree.Path) (cond : Option (Expr Unit)) :
    (cond.map (Expr.depict Text.asCharacter)).getD (.symbol "nil") =
        (cond.map (Expr.depict Text.asByte)).getD (.symbol "nil") ↔
      (cond.elim .absent Expr.toTree).Ascii p := by
  cases cond with
  | none => simp only [Option.map_none, Option.getD_none, Option.elim_none, ascii_absent]
  | some e => exact Expr.depict_eq_iff p e

mutual

theorem depict_eq_iff (p : Tree.Path) : (s : Stmt Unit) →
    (s.depict Text.asCharacter = s.depict Text.asByte ↔ s.toTree.Ascii p)
  | .declare _ _ _ _ none | .input .. => by
    simp only [depict, toTree, Option.map_none, Tree.leaf, ascii_list, allAscii_nil]
  | .foreign _ none => by simp only [depict, toTree, Option.elim_none, ascii_absent]
  | .foreign _ (some _) => by
    simp only [depict, toTree, Option.elim_some, Tree.leaf, ascii_list, allAscii_nil]
  | .declare _ _ _ _ (some value) | .assign _ _ _ value | .print _ value | .evaluate _ value
  | .ret _ value => by
    simp only [depict, toTree, Option.map_some, Option.toList_some, headed_inj, List.cons.injEq,
      true_and, and_true, valueTree, ascii_node, isAscii, ascii_absent, allAscii_nil,
      Expr.depict_eq_iff (.value :: p) value]
  | .ifThen _ cond _ body | .whileDo _ cond _ body => by
    simp only [depict, toTree, headed_inj, List.cons.injEq, true_and, and_true, ascii_node,
      blockTree, ascii_list, isAscii, ascii_absent, allAscii_nil,
      Expr.depict_eq_iff (.cond :: p) cond, depictAll_eq_iff (.body :: p) 0 body]
  | .ifElse _ cond _ body _ elseBody => by
    simp only [depict, toTree, headed_inj, List.cons.injEq, true_and, and_true, ascii_node,
      blockTree, ascii_list, isAscii, ascii_absent, allAscii_nil,
      Expr.depict_eq_iff (.cond :: p) cond, depictAll_eq_iff (.body :: p) 0 body,
      depictAll_eq_iff (.orElse :: p) 0 elseBody]
  | .forDo _ init cond step _ body => by
    simp only [depict, toTree, headed_inj, List.cons.injEq, true_and, and_true, ascii_node,
      blockTree, ascii_list, isAscii, ascii_absent, allAscii_nil,
      depict?_eq_iff (.init :: p) init, condition_eq_iff (.cond :: p) cond,
      depict?_eq_iff (.step :: p) step, depictAll_eq_iff (.body :: p) 0 body]
  | .block _ body => by
    simp only [depict, toTree, headed_inj, blockTree, ascii_list, depictAll_eq_iff p 0 body]

theorem depict?_eq_iff (p : Tree.Path) : (o : Option (Stmt Unit)) →
    (depict? Text.asCharacter o = depict? Text.asByte o ↔ (toTree? o).Ascii p)
  | none => by simp only [depict?, toTree?, ascii_absent]
  | some s => depict_eq_iff p s

theorem depictAll_eq_iff (p : Tree.Path) (i : Nat) : (ss : List (Stmt Unit)) →
    (depictAll Text.asCharacter ss = depictAll Text.asByte ss ↔
      Tree.AllAscii p .child i (toTrees ss))
  | [] => by simp only [depictAll, toTrees, allAscii_nil]
  | s :: rest => by
    simp only [depictAll, toTrees, List.cons.injEq, allAscii_cons,
      depict_eq_iff (.child i :: p) s, depictAll_eq_iff p (i + 1) rest]

end

end Stmt

theorem Tree.allAscii_params (p : Tree.Path) (i : Nat) (xs : List (Param Unit)) :
    AllAscii p .param i (xs.map Param.toTree) := by
  induction xs generalizing i with
  | nil => exact allAscii_nil p .param i
  | cons x rest ih =>
    rw [List.map_cons, allAscii_cons]
    refine ⟨?_, ih (i + 1)⟩
    simp only [Param.toTree, Tree.leaf, ascii_list, allAscii_nil]

theorem Func.depict_eq_iff (p : Tree.Path) (f : Func Unit) :
    f.depict Text.asCharacter = f.depict Text.asByte ↔ f.toTree.Ascii p := by
  simp only [depict, toTree, headed_inj, List.cons.injEq, true_and, and_true, ascii_node,
    Stmt.blockTree, ascii_list, isAscii, ascii_absent, allAscii_nil,
    Tree.allAscii_params, Stmt.depictAll_eq_iff (.body :: p) 0 f.body]

theorem Program.depict_eq_iff (x : Program Unit) :
    x.depict Text.asCharacter = x.depict Text.asByte ↔ x.toTree.Ascii [] := by
  rw [depict, depict, toTree, headed_inj, ascii_list rfl]
  generalize 0 = i
  induction x.functions generalizing i with
  | nil => simp only [List.map_nil, allAscii_nil]
  | cons f rest ih =>
    simp only [List.map_cons, List.cons.injEq, allAscii_cons, Func.depict_eq_iff (.child i :: []),
      ih (i + 1)]

end Ascii

theorem Program.readsAs {x : Program Unit} (h : x.Formed P) :
    x.toTree.ReadsAs (x.depict Text.asCharacter) ∧
      (x.toTree.ReadsAs (x.depict Text.asByte) ↔ x.toTree.Ascii []) := by
  have hread := Tree.readsAs_of_datum (datum_toTree h) (depict_wellFormed Text.asCharacter h)
  exact ⟨hread, hread.iff_eq.trans x.depict_eq_iff⟩

theorem Expr.readsAs {e : Expr Unit} (h : e.Formed P) :
    e.toTree.ReadsAs (e.depict Text.asCharacter) ∧
      (e.toTree.ReadsAs (e.depict Text.asByte) ↔ e.toTree.Ascii []) := by
  have hread :=
    Tree.readsAs_of_datum (datum_toTree e h) (depict_wellFormed Text.asCharacter e h)
  exact ⟨hread, hread.iff_eq.trans (depict_eq_iff [] e)⟩

/-- The text of a tree is read as the datum that shows the tree. The datum holds every character as
the byte that it is exactly if all of them are ASCII characters. -/
theorem tree_texts_read_back (source : Text) :
    (∀ x, parse source = .ok x → x.toTree.ReadsAs (x.depict Text.asCharacter) ∧
      (x.toTree.ReadsAs (x.depict Text.asByte) ↔ x.toTree.Ascii [])) ∧
    (∀ e, parseExpression source = .ok e → e.toTree.ReadsAs (e.depict Text.asCharacter) ∧
      (e.toTree.ReadsAs (e.depict Text.asByte) ↔ e.toTree.Ascii [])) := by
  constructor
  · intro x hx
    exact Program.readsAs (parse_formed hx (scan_wellSpelled source))
  · intro e he
    exact Expr.readsAs (parseExpression_formed he (scan_wellSpelled source))

def sampler : Text := Text.ofString
  "func tag(n: int): string \x7b var c: char = '\\'; var r: float = 1.50; for (;;) \x7b
    if (-n == 0 && true) \x7b print(\"a\\b;(\"); \x7d else \x7b input(n); \x7d \x7d
    return tag(n - 1); \x7d"

def accented : Text := [Text.singleQuote, 0xC3, Text.singleQuote]

theorem tree_texts_read_back_sampler :
    (∃ x, parse sampler = .ok x ∧ x.toTree.ReadsAs (x.depict Text.asByte)) ∧
      ∃ e, parseExpression accented = .ok e ∧ e.toTree.ReadsAs (e.depict Text.asCharacter) := by
  have hascii : ((parse sampler).toOption.map fun x => decide (x.toTree.Ascii [])) = some true := by
    rw [sampler, Text.ofString_ofList]
    decide +kernel
  have he : (parseExpression accented).isOk := by decide +kernel
  constructor
  · cases hx : parse sampler with
    | error =>
      rw [hx] at hascii
      cases hascii
    | ok x =>
      rw [hx] at hascii
      have hx' : x.toTree.Ascii [] := of_decide_eq_true (Option.some.inj hascii)
      exact ⟨x, rfl, ((tree_texts_read_back sampler).1 x hx).2.mpr hx'⟩
  · obtain ⟨e, he⟩ := exists_of_isOk he
    exact ⟨e, he, ((tree_texts_read_back accented).2 e he).1⟩

def Expr.value? : Expr ν → Option Literal
  | .literal _ _ value => some value
  | _ => none

/-- The character with the number of the byte is written, in two bytes. -/
theorem accented_character_not_its_byte : ∃ e, parseExpression accented = .ok e ∧
    e.depict Text.asByte = .list [.symbol "char", .string [0xC3]] ∧
    ¬ e.toTree.ReadsAs (e.depict Text.asByte) := by
  have hvalue : ((parseExpression accented).toOption.bind Expr.value?) = some (.char 0xC3) := by
    decide +kernel
  cases he : parseExpression accented with
  | error =>
    rw [he] at hvalue
    cases hvalue
  | ok e =>
    rw [he] at hvalue
    cases e with
    | literal note t value =>
      cases hvalue
      refine ⟨_, rfl, rfl, ?_⟩
      rw [(Expr.readsAs (parseExpression_formed he (scan_wellSpelled accented))).2, Expr.toTree,
        Tree.leaf, Tree.list, Tree.ascii_node]
      rintro ⟨hchar, -⟩
      cases hchar
    | ident | call | unary | binary | foreign => cases hvalue

end MiniSharp
