import MiniSharp.Proofs.Naming
import MiniSharp.Proofs.TypeChecking

namespace MiniSharp.Target

open Rules (Fits Joins Numeric UnaryTyped)

structure Env where
  methods : List Method
  vars : List (Text × Ty)

inductive Operates : Operator → Ty → Ty → Ty → Prop
  | concat : Operates .plus .string .string .string
  | arithmetic {op σ τ ρ} : op ∈ [.plus, .minus, .times, .divide, .modulo] → Joins σ τ ρ →
    Operates op σ τ ρ
  | ordering {op σ τ} : op ∈ [.less, .greater, .lessEqual, .greaterEqual] → Numeric σ → Numeric τ →
    Operates op σ τ .bool
  | equalNumbers {op σ τ} : op ∈ [.equal, .notEqual] → Numeric σ → Numeric τ →
    Operates op σ τ .bool
  | equalTypes {op τ} : op ∈ [.equal, .notEqual] → Operates op τ τ .bool
  | logic {op} : op ∈ [.and, .or] → Operates op .bool .bool .bool

mutual

inductive HasType (Γ : Env) : Expr → Ty → Prop
  | int {value} : HasType Γ (.int value) .int
  | float {digits} : HasType Γ (.float digits) .float
  | bool {value} : HasType Γ (.bool value) .bool
  | char {value} : HasType Γ (.char value) .char
  | string {value} : HasType Γ (.string value) .string
  | default {τ} : τ.Proper → HasType Γ (.default τ) τ
  | name {x τ} : (x, τ) ∈ Γ.vars → HasType Γ (.name x) τ
  | call {m args} : m ∈ Γ.methods → m.entry = false → ArgsFit Γ (m.params.map Local.type) args →
    HasType Γ (.call m.name args) m.result
  | entry {m} : m ∈ Γ.methods → m.entry = true → HasType Γ .entry .int
  | display {e τ} : HasType Γ e τ → τ.Proper → HasType Γ (.display e) .string
  | unary {op e τ ρ} : HasType Γ e τ → UnaryTyped op τ ρ → HasType Γ (.unary (.operator op) e) ρ
  | binary {op l r σ τ ρ} : HasType Γ l σ → HasType Γ r τ → Operates op σ τ ρ →
    HasType Γ (.binary (.operator op) l r) ρ

inductive ArgsFit (Γ : Env) : List Ty → List Expr → Prop
  | nil : ArgsFit Γ [] []
  | cons {e σ τ params args} : HasType Γ e σ → Fits σ τ → ArgsFit Γ params args →
    ArgsFit Γ (τ :: params) (e :: args)

end

def Converts (Γ : Env) (e : Expr) (τ : Ty) : Prop := ∃ σ, HasType Γ e σ ∧ Fits σ τ

def Simple.declarations : Simple → List (Text × Ty)
  | .declare type name _ => [(name, type)]
  | .assign .. | .call _ | .discard _ => []

mutual

def Stmt.declarations : Stmt → List (Text × Ty)
  | .simple stmt => stmt.declarations
  | .ifThen _ body | .whileDo _ body | .block body => Stmt.declarationsAll body
  | .ifElse _ body elseBody => Stmt.declarationsAll body ++ Stmt.declarationsAll elseBody
  | .forDo init _ step body =>
    init.elim [] Simple.declarations ++
      (step.elim [] Simple.declarations ++ Stmt.declarationsAll body)
  | .print _ | .read .. | .ret _ => []

def Stmt.declarationsAll : List Stmt → List (Text × Ty)
  | [] => []
  | s :: rest => s.declarations ++ Stmt.declarationsAll rest

end

def Method.declarations (m : Method) : List (Text × Ty) :=
  m.params.map (fun x => (x.name, x.type)) ++ Stmt.declarationsAll m.body

theorem Stmt.declarationsAll_append (ss ts : List Stmt) :
    Stmt.declarationsAll (ss ++ ts) = Stmt.declarationsAll ss ++ Stmt.declarationsAll ts := by
  induction ss with
  | nil => rfl
  | cons s ss ih =>
    rw [List.cons_append, Stmt.declarationsAll, ih, Stmt.declarationsAll, List.append_assoc]

theorem Stmt.declarationsAll_clause (o : Option Simple) :
    Stmt.declarationsAll (o.map Stmt.simple).toList = o.elim [] Simple.declarations := by
  cases o with
  | none => rfl
  | some s => exact List.append_nil _

theorem Simple.declarations_names (s : Simple) : s.declarations.map Prod.fst = s.locals := by
  cases s <;> rfl

theorem Simple.declarations_names_clause (o : Option Simple) :
    (o.elim [] Simple.declarations).map Prod.fst = o.elim [] Simple.locals := by
  cases o with
  | none => rfl
  | some s => exact s.declarations_names

mutual

theorem Stmt.declarations_names : (s : Stmt) → s.declarations.map Prod.fst = s.locals
  | .simple s => s.declarations_names
  | .ifThen _ body | .whileDo _ body | .block body => Stmt.declarationsAll_names body
  | .ifElse _ body elseBody => by
    rw [declarations, List.map_append, Stmt.declarationsAll_names body,
      Stmt.declarationsAll_names elseBody, locals]
  | .forDo init _ step body => by
    rw [declarations, List.map_append, List.map_append, Simple.declarations_names_clause init,
      Simple.declarations_names_clause step, Stmt.declarationsAll_names body, locals]
  | .print _ | .read .. | .ret _ => rfl

theorem Stmt.declarationsAll_names :
    (ss : List Stmt) → (Stmt.declarationsAll ss).map Prod.fst = Stmt.localsAll ss
  | [] => rfl
  | s :: rest => by
    rw [declarationsAll, List.map_append, Stmt.declarations_names s,
      Stmt.declarationsAll_names rest, localsAll]

end

theorem Method.declarations_names (m : Method) : m.declarations.map Prod.fst = m.locals := by
  rw [declarations, List.map_append, List.map_map, Stmt.declarationsAll_names, locals]
  rfl

end MiniSharp.Target

namespace MiniSharp.Emitted

open Target (Env HasType Converts)

def Noted (Γ : Env) (note : Note) (c : Target.Expr) : Prop :=
  ∃ τ, note.type = some τ ∧ HasType Γ c τ

inductive Operand : Target.Expr → Target.Expr → Prop
  | kept {c} : Operand c c
  | shown {c} : Operand c (.display c)

mutual

inductive ExprTyped (Γ : Env) : Expr Note → Target.Expr → Prop
  | literal {note t value c} : Lowering.literal t value = .ok c → Noted Γ note c →
    ExprTyped Γ (.literal note t value) c
  | name {note t name given} : Noted Γ note (.name given) →
    ExprTyped Γ (.ident note t name) (.name given)
  | call {note t name given args cs} : ArgsTyped Γ args cs → Noted Γ note (.call given cs) →
    ExprTyped Γ (.call note t name args) (.call given cs)
  | entry {note t} : Noted Γ note .entry → ExprTyped Γ (.call note t Typing.entryName []) .entry
  | unary {note t op operand c} : ExprTyped Γ operand c → Noted Γ note (.unary op c) →
    ExprTyped Γ (.unary note t op operand) (.unary op c)
  | binary {note t op left right l r} : ExprTyped Γ left l → ExprTyped Γ right r →
    Noted Γ note (.binary op l r) → ExprTyped Γ (.binary note t op left right) (.binary op l r)
  | concat {note t op left right l r l' r'} : ExprTyped Γ left l → ExprTyped Γ right r →
    op = .operator .plus → Operand l l' → Operand r r' → HasType Γ l' .string →
    HasType Γ r' .string → Noted Γ note (.binary op l' r') →
    ExprTyped Γ (.binary note t op left right) (.binary op l' r')

inductive ArgsTyped (Γ : Env) : List (Expr Note) → List Target.Expr → Prop
  | nil : ArgsTyped Γ [] []
  | cons {e c rest cs} : ExprTyped Γ e c → ArgsTyped Γ rest cs → ArgsTyped Γ (e :: rest) (c :: cs)

end

inductive SimpleTyped (Γ : Env) : Stmt Note → Target.Simple → Prop
  | declare {note t name type given} : (given, type) ∈ Γ.vars → HasType Γ (.default type) type →
    SimpleTyped Γ (.declare note t name type none) (.declare type given (.default type))
  | declareWith {note t name type value given c} : (given, type) ∈ Γ.vars → ExprTyped Γ value c →
    Converts Γ c type →
    SimpleTyped Γ (.declare note t name type (some value)) (.declare type given c)
  | assign {note t name type value given c} : (given, type) ∈ Γ.vars → ExprTyped Γ value c →
    Converts Γ c type → SimpleTyped Γ (.assign note t name value) (.assign given c)
  | call {t value c} : ExprTyped Γ value c → SimpleTyped Γ (.evaluate t value) (.call c)
  | discard {t value c} : ExprTyped Γ value c → SimpleTyped Γ (.evaluate t value) (.discard c)

def ConditionTyped (Γ : Env) (e : Expr Note) (c : Target.Expr) : Prop :=
  ExprTyped Γ e c ∧ HasType Γ c .bool

mutual

inductive StmtTyped (Γ : Env) (result : Ty) : Stmt Note → Target.Stmt → Prop
  | simple {s c} : SimpleTyped Γ s c → StmtTyped Γ result s (.simple c)
  | print {t value c} : ExprTyped Γ value c → HasType Γ (.display c) .string →
    StmtTyped Γ result (.print t value) (.print (.display c))
  | read {note t name type given} : (given, type) ∈ Γ.vars → note.input = some type →
    type.Proper → StmtTyped Γ result (.input note t name) (.read given type)
  | ret {t value c} : ExprTyped Γ value c → Converts Γ c result →
    StmtTyped Γ result (.ret t value) (.ret c)
  | ifThen {t cond brace body c b} : ConditionTyped Γ cond c → StmtsTyped Γ result body b →
    StmtTyped Γ result (.ifThen t cond brace body) (.ifThen c b)
  | ifElse {t cond brace body elseBrace elseBody c b e} : ConditionTyped Γ cond c →
    StmtsTyped Γ result body b → StmtsTyped Γ result elseBody e →
    StmtTyped Γ result (.ifElse t cond brace body elseBrace elseBody) (.ifElse c b e)
  | whileDo {t cond brace body c b} : ConditionTyped Γ cond c → StmtsTyped Γ result body b →
    StmtTyped Γ result (.whileDo t cond brace body) (.whileDo c b)
  | forHeader {t init cond step brace body i c s b} : Option.Rel (SimpleTyped Γ) init i →
    Option.Rel (ConditionTyped Γ) cond c → Option.Rel (SimpleTyped Γ) step s →
    StmtsTyped Γ result body b →
    StmtTyped Γ result (.forDo t init cond step brace body) (.forDo i c s b)
  | forAsWhile {t init cond step brace body i c s b} : Option.Rel (SimpleTyped Γ) init i →
    Option.Rel (ConditionTyped Γ) cond c → Option.Rel (SimpleTyped Γ) step s →
    StmtsTyped Γ result body b →
    StmtTyped Γ result (.forDo t init cond step brace body)
      (.block ((i.map .simple).toList ++
        [.whileDo (c.getD (.bool true)) (b ++ (s.map .simple).toList)]))
  | block {brace body b} : StmtsTyped Γ result body b →
    StmtTyped Γ result (.block brace body) (.block b)

inductive StmtsTyped (Γ : Env) (result : Ty) : List (Stmt Note) → List Target.Stmt → Prop
  | nil : StmtsTyped Γ result [] []
  | cons {s c rest cs} : StmtTyped Γ result s c → StmtsTyped Γ result rest cs →
    StmtsTyped Γ result (s :: rest) (c :: cs)

end

structure MethodTyped (methods : List Target.Method) (f : Func Note) (m : Target.Method) :
    Prop where
  result : m.result = f.result
  params : m.params.map Target.Local.type = f.params.map Param.type
  entry : m.entry = true → m.params = [] ∧ m.result = .int
  distinct : (m.declarations.map Prod.fst).Nodup
  body : ∃ code, StmtsTyped ⟨methods, m.declarations⟩ f.result f.body code ∧ (m.body = code ∨
    m.body = code ++ [.ret (.default f.result)] ∧
      HasType ⟨methods, m.declarations⟩ (.default f.result) f.result)

end MiniSharp.Emitted
