import MiniSharp.Analysis.Note
import MiniSharp.Target.Basic

/-!
What the names of variables in emitted code refer to. The rules go through a checked program and the
code emitted for it side by side and keep the variables that are in scope in the code, each with the
symbol of the declaration that it was emitted for. A local is in scope up to the end of the block it
stands in, one declared in a for header in the rest of the header and in the body.
-/

namespace MiniSharp.Emitted

abbrev Vars := List (Text × Symbol)

def Denotes (vars : Vars) (name : Text) (note : Note) : Prop :=
  ∃ x, note.refers = some x ∧ ∀ y, (name, y) ∈ vars ↔ y = x

def IsConstant : Target.Expr → Prop
  | .int _ | .float _ | .bool _ | .char _ | .string _ | .default _ => True
  | _ => False

mutual

inductive Reads (vars : Vars) : Expr Note → Target.Expr → Prop
  | literal {note : Note} {t : Token} {value : Literal} {e : Target.Expr} :
    IsConstant e → Reads vars (.literal note t value) e
  | name {note : Note} {t : Token} {name given : Text} :
    Denotes vars given note → Reads vars (.ident note t name) (.name given)
  | call {note : Note} {t : Token} {name method : Text} {args : List (Expr Note)}
      {args' : List Target.Expr} :
    ReadsAll vars args args' → Reads vars (.call note t name args) (.call method args')
  | entry {note : Note} {t : Token} {name : Text} : Reads vars (.call note t name []) .entry
  | unary {note : Note} {t : Token} {op : TokenKind} {operand : Expr Note} {e : Target.Expr} :
    Reads vars operand e → Reads vars (.unary note t op operand) (.unary op e)
  | binary {note : Note} {t : Token} {op : TokenKind} {left right : Expr Note}
      {l r : Target.Expr} :
    Reads vars left l → Reads vars right r →
      Reads vars (.binary note t op left right) (.binary op l r)
  | display {e : Expr Note} {e' : Target.Expr} : Reads vars e e' → Reads vars e (.display e')

inductive ReadsAll (vars : Vars) : List (Expr Note) → List Target.Expr → Prop
  | nil : ReadsAll vars [] []
  | cons {e : Expr Note} {e' : Target.Expr} {rest : List (Expr Note)}
      {rest' : List Target.Expr} :
    Reads vars e e' → ReadsAll vars rest rest' → ReadsAll vars (e :: rest) (e' :: rest')

end

/-- The variables before and after a statement that may stand in a for header. The value of a
declaration reads the same variables whether or not the new one is in scope for it. -/
inductive SimpleEmitted : Vars → Stmt Note → Target.Simple → Vars → Prop
  | declare {vars : Vars} {note : Note} {t : Token} {name given : Text} {type : Ty}
      {value : Option (Expr Note)} {e : Target.Expr} {x : Symbol} :
    note.defines = some x → (value = none → IsConstant e) →
      (∀ v ∈ value, Reads vars v e ∧ Reads ((given, x) :: vars) v e) →
      SimpleEmitted vars (.declare note t name type value) (.declare type given e)
        ((given, x) :: vars)
  | assign {vars : Vars} {note : Note} {t : Token} {name given : Text} {value : Expr Note}
      {e : Target.Expr} :
    Denotes vars given note → Reads vars value e →
      SimpleEmitted vars (.assign note t name value) (.assign given e) vars
  | call {vars : Vars} {t : Token} {value : Expr Note} {e : Target.Expr} :
    Reads vars value e → SimpleEmitted vars (.evaluate t value) (.call e) vars
  | discard {vars : Vars} {t : Token} {value : Expr Note} {e : Target.Expr} :
    Reads vars value e → SimpleEmitted vars (.evaluate t value) (.discard e) vars

inductive ClauseEmitted : Vars → Option (Stmt Note) → Option Target.Simple → Vars → Prop
  | none {vars : Vars} : ClauseEmitted vars none none vars
  | some {vars vars' : Vars} {s : Stmt Note} {t : Target.Simple} :
    SimpleEmitted vars s t vars' → ClauseEmitted vars (some s) (some t) vars'

mutual

inductive StmtEmitted : Vars → Stmt Note → Target.Stmt → Vars → Prop
  | simple {vars vars' : Vars} {s : Stmt Note} {t : Target.Simple} :
    SimpleEmitted vars s t vars' → StmtEmitted vars s (.simple t) vars'
  | print {vars : Vars} {t : Token} {value : Expr Note} {e : Target.Expr} :
    Reads vars value e → StmtEmitted vars (.print t value) (.print e) vars
  | read {vars : Vars} {note : Note} {t : Token} {name given : Text} {type : Ty} :
    Denotes vars given note → StmtEmitted vars (.input note t name) (.read given type) vars
  | ret {vars : Vars} {t : Token} {value : Expr Note} {e : Target.Expr} :
    Reads vars value e → StmtEmitted vars (.ret t value) (.ret e) vars
  | ifThen {vars inner : Vars} {t brace : Token} {cond : Expr Note} {body : List (Stmt Note)}
      {c : Target.Expr} {b : List Target.Stmt} :
    Reads vars cond c → StmtsEmitted vars body b inner →
      StmtEmitted vars (.ifThen t cond brace body) (.ifThen c b) vars
  | ifElse {vars inner elseInner : Vars} {t brace elseBrace : Token} {cond : Expr Note}
      {body elseBody : List (Stmt Note)} {c : Target.Expr} {b e : List Target.Stmt} :
    Reads vars cond c → StmtsEmitted vars body b inner → StmtsEmitted vars elseBody e elseInner →
      StmtEmitted vars (.ifElse t cond brace body elseBrace elseBody) (.ifElse c b e) vars
  | whileDo {vars inner : Vars} {t brace : Token} {cond : Expr Note} {body : List (Stmt Note)}
      {c : Target.Expr} {b : List Target.Stmt} :
    Reads vars cond c → StmtsEmitted vars body b inner →
      StmtEmitted vars (.whileDo t cond brace body) (.whileDo c b) vars
  | forHeader {vars header inner : Vars} {t brace : Token} {init step : Option (Stmt Note)}
      {cond : Option (Expr Note)} {body : List (Stmt Note)} {i s : Option Target.Simple}
      {c : Option Target.Expr} {b : List Target.Stmt} :
    ClauseEmitted vars init i header → Option.Rel (Reads header) cond c →
      ClauseEmitted header step s header → StmtsEmitted header body b inner →
      StmtEmitted vars (.forDo t init cond step brace body) (.forDo i c s b) vars
  | forAsWhile {vars header inner stepped : Vars} {t brace : Token} {init step : Option (Stmt Note)}
      {cond : Option (Expr Note)} {body : List (Stmt Note)} {i s : Option Target.Simple}
      {c : Option Target.Expr} {b : List Target.Stmt} :
    ClauseEmitted vars init i header → Option.Rel (Reads header) cond c →
      StmtsEmitted header body b inner → ClauseEmitted inner step s stepped →
      StmtEmitted vars (.forDo t init cond step brace body)
        (.block ((i.map .simple).toList ++
          [.whileDo (c.getD (.bool true)) (b ++ (s.map .simple).toList)])) vars
  | block {vars inner : Vars} {brace : Token} {body : List (Stmt Note)} {b : List Target.Stmt} :
    StmtsEmitted vars body b inner → StmtEmitted vars (.block brace body) (.block b) vars

inductive StmtsEmitted : Vars → List (Stmt Note) → List Target.Stmt → Vars → Prop
  | nil {vars : Vars} : StmtsEmitted vars [] [] vars
  | cons {vars mid vars' : Vars} {s : Stmt Note} {t : Target.Stmt} {rest : List (Stmt Note)}
      {rest' : List Target.Stmt} :
    StmtEmitted vars s t mid → StmtsEmitted mid rest rest' vars' →
      StmtsEmitted vars (s :: rest) (t :: rest') vars'

end

inductive ParamsEmitted : Vars → List (Param Note) → List Target.Local → Vars → Prop
  | nil {vars : Vars} : ParamsEmitted vars [] [] vars
  | cons {vars vars' : Vars} {p : Param Note} {given : Text} {x : Symbol}
      {rest : List (Param Note)} {rest' : List Target.Local} :
    p.note.defines = some x → ParamsEmitted ((given, x) :: vars) rest rest' vars' →
      ParamsEmitted vars (p :: rest) (⟨p.type, given⟩ :: rest') vars'

/-- A method's parameters are in scope in its whole body, which may return a default at its end. The
head of the entry method has no place for parameters of the function. -/
structure MethodEmitted (f : Func Note) (m : Target.Method) : Prop where
  entry : m.entry = true → f.params = []
  code : ∃ vars inner body, ParamsEmitted [] f.params m.params vars ∧
    StmtsEmitted vars f.body body inner ∧
    (m.body = body ∨ m.body = body ++ [.ret (.default f.result)])

end MiniSharp.Emitted
