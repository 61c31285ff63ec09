import MiniSharp.Scope.Basic

/-!
The type system as rules. A context holds the scopes around a place, and a statement leads from the
context before it to the one after it.
-/

namespace MiniSharp.Rules

abbrev Frame := List (Text × SymbolSort)

abbrev Context := List Frame

inductive Means : Context → Text → SymbolSort → Prop
  | here {frame outer x k} : frame.lookup x = some k → Means (frame :: outer) x k
  | outside {frame outer x k} : frame.lookup x = none → Means outer x k → Means (frame :: outer) x k

inductive Numeric : Ty → Prop
  | int : Numeric .int
  | float : Numeric .float

inductive Fits : Ty → Ty → Prop
  | same {τ} : Fits τ τ
  | widened : Fits .int .float

inductive Joins : Ty → Ty → Ty → Prop
  | ints : Joins .int .int .int
  | floatLeft {τ} : Numeric τ → Joins .float τ .float
  | floatRight {τ} : Numeric τ → Joins τ .float .float

inductive UnaryTyped : Operator → Ty → Ty → Prop
  | minus {τ} : Numeric τ → UnaryTyped .minus τ τ
  | not : UnaryTyped .not .bool .bool

inductive BinaryTyped : Operator → Ty → Ty → Ty → Prop
  | concatLeft {τ} : BinaryTyped .plus .string τ .string
  | concatRight {τ} : BinaryTyped .plus τ .string .string
  | arithmetic {op σ τ ρ} : op ∈ [.plus, .minus, .times, .divide, .modulo] → Joins σ τ ρ →
      BinaryTyped op σ τ ρ
  | equalNumbers {op σ τ} : op ∈ [.equal, .notEqual] → Numeric σ → Numeric τ →
      BinaryTyped op σ τ .bool
  | equalTypes {op τ} : op ∈ [.equal, .notEqual] → BinaryTyped op τ τ .bool
  | ordering {op σ τ} : op ∈ [.less, .greater, .lessEqual, .greaterEqual] → Numeric σ →
      Numeric τ → BinaryTyped op σ τ .bool
  | logic {op} : op ∈ [.and, .or] → BinaryTyped op .bool .bool .bool

mutual

inductive HasType : Context → Expr Unit → Ty → Prop
  | literal {Γ u t value} : HasType Γ (.literal u t value) value.type
  | ident {Γ u t x τ} : Means Γ x (.var τ) → HasType Γ (.ident u t x) τ
  | call {Γ u t f args params result} : Means Γ f (.func params result) →
      ArgsTyped Γ args params → HasType Γ (.call u t f args) result
  | unary {Γ u t op e τ ρ} : HasType Γ e τ → UnaryTyped op τ ρ →
      HasType Γ (.unary u t (.operator op) e) ρ
  | binary {Γ u t op left right σ τ ρ} : HasType Γ left σ → HasType Γ right τ →
      BinaryTyped op σ τ ρ → HasType Γ (.binary u t (.operator op) left right) ρ

inductive ArgsTyped : Context → List (Expr Unit) → List Ty → Prop
  | nil {Γ} : ArgsTyped Γ [] []
  | cons {Γ e args τ param params} : HasType Γ e τ → Fits τ param → ArgsTyped Γ args params →
      ArgsTyped Γ (e :: args) (param :: params)

end

def FitsIn (Γ : Context) (e : Expr Unit) (target : Ty) : Prop := ∃ τ, HasType Γ e τ ∧ Fits τ target

mutual

inductive StmtTyped (result : Ty) : Context → Stmt Unit → Context → Prop
  | declare {frame outer u t x type value} :
      (∀ e ∈ value, FitsIn (frame :: outer) e type) → frame.lookup x = none →
      StmtTyped result (frame :: outer) (.declare u t x type value)
        ((frame ++ [(x, .var type)]) :: outer)
  | assign {Γ u t x type value} : Means Γ x (.var type) → FitsIn Γ value type →
      StmtTyped result Γ (.assign u t x value) Γ
  | input {Γ u t x type} : Means Γ x (.var type) → StmtTyped result Γ (.input u t x) Γ
  | print {Γ t value τ} : HasType Γ value τ → StmtTyped result Γ (.print t value) Γ
  | evaluate {Γ t value τ} : HasType Γ value τ → StmtTyped result Γ (.evaluate t value) Γ
  | ret {Γ t value} : FitsIn Γ value result → StmtTyped result Γ (.ret t value) Γ
  | ifThen {Γ t cond brace body inner} : HasType Γ cond .bool →
      StmtsTyped result ([] :: Γ) body inner → StmtTyped result Γ (.ifThen t cond brace body) Γ
  | ifElse {Γ t cond brace body inner elseBrace elseBody elseInner} : HasType Γ cond .bool →
      StmtsTyped result ([] :: Γ) body inner → StmtsTyped result ([] :: Γ) elseBody elseInner →
      StmtTyped result Γ (.ifElse t cond brace body elseBrace elseBody) Γ
  | whileDo {Γ t cond brace body inner} : HasType Γ cond .bool →
      StmtsTyped result ([] :: Γ) body inner → StmtTyped result Γ (.whileDo t cond brace body) Γ
  | forDo {Γ t init cond step brace body started looped stepped} :
      OptTyped result ([] :: Γ) init started → (∀ e ∈ cond, HasType started e .bool) →
      StmtsTyped result started body looped → OptTyped result looped step stepped →
      StmtTyped result Γ (.forDo t init cond step brace body) Γ
  | block {Γ brace body inner} : StmtsTyped result ([] :: Γ) body inner →
      StmtTyped result Γ (.block brace body) Γ

inductive OptTyped (result : Ty) : Context → Option (Stmt Unit) → Context → Prop
  | none {Γ} : OptTyped result Γ none Γ
  | some {Γ s Δ} : StmtTyped result Γ s Δ → OptTyped result Γ (some s) Δ

inductive StmtsTyped (result : Ty) : Context → List (Stmt Unit) → Context → Prop
  | nil {Γ} : StmtsTyped result Γ [] Γ
  | cons {Γ s Δ rest Θ} : StmtTyped result Γ s Δ → StmtsTyped result Δ rest Θ →
      StmtsTyped result Γ (s :: rest) Θ

end

def paramFrame (params : List (Param Unit)) : Frame := params.map fun x => (x.name, .var x.type)

structure FuncTyped (globals : Frame) (f : Func Unit) : Prop where
  distinct : (f.params.map Param.name).Nodup
  body : ∃ after, StmtsTyped f.result [paramFrame f.params, globals] f.body after

def signatures (x : Program Unit) : Frame :=
  x.functions.map fun f => (f.name, .func (f.params.map Param.type) f.result)

structure WellTyped (x : Program Unit) : Prop where
  distinct : (x.functions.map Func.name).Nodup
  entry : ∀ f ∈ x.functions, f.name = ("main" : Text) → f.params = [] ∧ f.result = .int
  functions : ∀ f ∈ x.functions, FuncTyped (signatures x) f

end MiniSharp.Rules
