import MiniSharp.Datum.Basic
import MiniSharp.Program.Tree

namespace MiniSharp

def Literal.datum : Literal → Datum
  | int value => .integer (Text.ofInt value)
  | float value => .list [.symbol "float", .string value.render]
  | char value => .list [.symbol "char", .string (Text.encode value.toNat)]
  | bool value => .list [.symbol "bool", .symbol (if value then "true" else "false")]
  | string value => .string value
  | untyped => .symbol "?"

namespace Tree

def form (head : Text) (items : List Datum) : Datum := .list (.symbol head :: items)

mutual

def datum : Tree → Except Fault Datum
  | absent => .ok (.symbol "nil")
  | node label params children init cond step value left right body orElse =>
    let name := Datum.string label.name
    let type := Datum.symbol label.type.name
    let op := Datum.string label.op.operatorSpelling
    match label.kind with
    | .program => return form "program" (← data children)
    | .func => return form "func" [name, form "params" (← data params), type, ← datum body]
    | .param => return form "param" [name, type]
    | .block => return form "block" (← data children)
    | .varDecl =>
      if value.isAbsent then return form "var" [name, type]
      else return form "var" [name, type, ← datum value]
    | .assign => return form "assign" [name, ← datum value]
    | .print => return form "print" [← datum value]
    | .input => return form "input" [name]
    | .ret => return form "return" [← datum value]
    | .ifStmt =>
      if orElse.isAbsent then return form "if" [← datum cond, ← datum body]
      else return form "if" [← datum cond, ← datum body, ← datum orElse]
    | .whileStmt => return form "while" [← datum cond, ← datum body]
    | .forStmt => return form "for" [← datum init, ← datum cond, ← datum step, ← datum body]
    | .exprStmt => return form "expr" [← datum value]
    | .binary => return form "binary" [op, ← datum left, ← datum right]
    | .unary => return form "unary" [op, ← datum left]
    | .literal => return label.literal.datum
    | .ident => return form "ident" [name]
    | .call => return form "call" (name :: (← data children))
    | .other kind => throw (.unknownNode kind)

def data : List Tree → Except Fault (List Datum)
  | [] => .ok []
  | t :: rest => return (← datum t) :: (← data rest)

end

end Tree

theorem Text.listQuoted_eq (t : Text) : t.listQuoted = Datum.quote t := by
  have hbyte (b : UInt8) :
      (if b = backslash then Text.ofString "\\\\" else [b]).flatMap
        (fun b => if b = doubleQuote then Text.ofString "\\\x22" else [b]) = Datum.quote.body b := by
    by_cases hb : b = backslash
    · subst hb
      decide
    · rw [if_neg hb, List.flatMap_singleton, Datum.quote.body]
      by_cases hd : b = doubleQuote
      · subst hd
        decide
      · rw [if_neg hd, if_neg (by simp [hb, hd])]
  rw [listQuoted, Datum.quote, replaceByte, replaceByte, List.flatMap_assoc]
  simp only [hbyte]

theorem Datum.renderItems_cons (d : Datum) (ds : List Datum) :
    renderItems (d :: ds) = Text.join " " (d.render :: ds.map render) := by
  induction ds generalizing d with
  | nil => simp [renderItems, Text.join]
  | cons e ds ih =>
    rw [renderItems, ih]
    simp [Text.join, List.intercalate]
    rfl

theorem Tree.listed_eq (head : Text) (ds : List Datum) :
    Text.listed head (ds.map Datum.render) = (form head ds).render := by
  rw [form, Datum.render, Datum.renderItems_cons, Datum.render]
  cases ds with
  | nil => simp [Text.listed, Text.join]; rfl
  | cons d ds => simp [Text.listed, Text.join, List.intercalate]; rfl

theorem Literal.render_eq (value : Literal) : value.render = value.datum.render := by
  cases value with
  | int value => rfl
  | float value =>
    rw [render, Text.listQuoted_eq]
    exact Tree.listed_eq "float" [.string value.render]
  | char value =>
    rw [render, Text.listQuoted_eq]
    exact Tree.listed_eq "char" [.string (Text.encode value.toNat)]
  | bool value => exact Tree.listed_eq "bool" [.symbol (if value then "true" else "false")]
  | string value => exact Text.listQuoted_eq value
  | untyped => rfl

namespace Tree

theorem map_bind_map {α β : Type} {x : Except Fault α} {written : α → β} {f : β → Except Fault Text}
    {g : α → Except Fault Datum} (h : ∀ a, f (written a) = (g a).map Datum.render) :
    (x.map written >>= f) = (x >>= g).map Datum.render := by
  cases x with
  | error e => rfl
  | ok a => exact h a

mutual

theorem render_eq : (t : Tree) → t.render = t.datum.map Datum.render
  | absent => rfl
  | node label params children init cond step value left right body orElse => by
    have hform (head : Text) (ds : List Datum) : (.ok (Text.listed head (ds.map Datum.render)) :
        Except Fault Text) = (Except.ok (form head ds)).map Datum.render :=
      congrArg Except.ok (listed_eq head ds)
    rw [render, datum]
    simp only [renderAll_eq params, renderAll_eq children, render_eq init, render_eq cond,
      render_eq step, render_eq value, render_eq left, render_eq right, render_eq body,
      render_eq orElse, Text.listQuoted_eq, Literal.render_eq]
    cases label.kind with
    | program => exact map_bind_map (hform "program")
    | func =>
      refine map_bind_map fun ds => ?_
      rw [listed_eq]
      exact map_bind_map fun d =>
        hform "func" [.string label.name, form "params" ds, .symbol label.type.name, d]
    | param => exact hform "param" [.string label.name, .symbol label.type.name]
    | block => exact map_bind_map (hform "block")
    | varDecl =>
      dsimp only
      split
      · exact hform "var" [.string label.name, .symbol label.type.name]
      · exact map_bind_map fun d => hform "var" [.string label.name, .symbol label.type.name, d]
    | assign => exact map_bind_map (fun d => hform "assign" [.string label.name, d])
    | print => exact map_bind_map (fun d => hform "print" [d])
    | input => exact hform "input" [.string label.name]
    | ret => exact map_bind_map (fun d => hform "return" [d])
    | ifStmt =>
      dsimp only
      split
      · exact map_bind_map fun c => map_bind_map fun b => hform "if" [c, b]
      · exact map_bind_map fun c => map_bind_map fun b => map_bind_map fun e => hform "if" [c, b, e]
    | whileStmt => exact map_bind_map (fun c => map_bind_map fun b => hform "while" [c, b])
    | forStmt =>
      refine map_bind_map fun i => map_bind_map fun c => map_bind_map fun s => ?_
      exact map_bind_map (fun b => hform "for" [i, c, s, b])
    | exprStmt => exact map_bind_map (fun d => hform "expr" [d])
    | binary =>
      refine map_bind_map fun l => ?_
      exact map_bind_map (fun r => hform "binary" [.string label.op.operatorSpelling, l, r])
    | unary => exact map_bind_map (fun d => hform "unary" [.string label.op.operatorSpelling, d])
    | literal => rfl
    | ident => exact hform "ident" [.string label.name]
    | call => exact map_bind_map (fun ds => hform "call" (.string label.name :: ds))
    | other kind => rfl

theorem renderAll_eq : (ts : List Tree) → renderAll ts = (data ts).map (List.map Datum.render)
  | [] => rfl
  | t :: rest => by
    rw [renderAll, data, render_eq t, renderAll_eq rest]
    cases datum t with
    | error e => rfl
    | ok d => cases data rest <;> rfl

end

end Tree

end MiniSharp
