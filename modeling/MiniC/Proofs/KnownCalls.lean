import MiniC.Proofs.Safety

/-!
# A run asks only for functions that the program knows

A checked program calls functions of its own and no others. So two ways to answer calls give the same
run of a function if they agree on the functions of the program, and it makes no difference to these
whether further functions are written behind them: those are never asked for.

The induction on the depth of calls carries the agreement from one level to the next. It starts at
depth zero, where no call is answered at all.
-/

namespace MiniC

/-- Calls of the functions that `arity` knows are answered in the same way. -/
def Calls.Agree (calls calls' : Calls) (arity : String → Option Nat) : Prop :=
  ∀ ⦃callee⦄, (arity callee).isSome → calls' callee = calls callee

namespace Node

section Agree

variable {calls calls' : Calls} {arity : String → Option Nat} (name : String)

mutual
/-- The value of a checked expression depends on calls of known functions only. -/
theorem evaluate_agree (agree : calls.Agree calls' arity) (env : Environment) : (node : Node) →
    ∀ ⦃names : List (List String)⦄, node.ValueNamed arity names →
    node.evaluate calls' name env = node.evaluate calls name env
  | identifier .. | integer .. | real .. => by
    intro names _
    funext last
    simp only [evaluate]
  | unary _ op operand => by
    intro names named
    funext last
    rw [evaluate, evaluate, evaluate_agree agree env operand named]
  | binary _ op lhs rhs => by
    intro names named
    funext last
    rw [evaluate, evaluate, evaluate_agree agree env lhs named.1, evaluate_agree agree env rhs named.2]
  | call _ callee arguments => by
    intro names named
    funext last
    cases callee with
    | identifier _ callee =>
      have known : (arity callee).isSome := by
        rw [named.1]
        rfl
      rw [evaluate, evaluate, evaluateAll_agree agree env arguments named.2, agree known]
    | _ => exact named.elim
  | empty .. | program .. | function .. | parameter .. | returnValue .. | block .. | declaration ..
  | assignment .. | ifThen .. | ifElse .. => fun _ named => named.elim
theorem evaluateAll_agree (agree : calls.Agree calls' arity) (env : Environment) :
    (nodes : List Node) → ∀ ⦃names : List (List String)⦄, ValuesNamed arity names nodes →
    evaluateAll calls' name env nodes = evaluateAll calls name env nodes
  | [] => by
    intro names _
    funext last
    rw [evaluateAll, evaluateAll]
  | node :: nodes => by
    intro names named
    funext last
    rw [evaluateAll, evaluateAll, evaluate_agree agree env node named.1,
      evaluateAll_agree agree env nodes named.2]
end

mutual
/-- What a checked statement does depends on calls of known functions only. -/
theorem execute_agree (agree : calls.Agree calls' arity) : (node : Node) →
    ∀ ⦃names : List (List String)⦄, node.StatementNamed arity names →
    node.execute calls' name = node.execute calls name
  | empty .. => by
    intro names _
    funext env last
    rw [execute, execute]
  | block _ declarations statements => by
    intro names named
    funext env last
    rw [execute, execute, executeAll_agree agree statements named]
  | returnValue _ value => by
    intro names named
    funext env last
    rw [execute, execute, evaluate_agree name agree env value named]
  | assignment _ target value => by
    intro names named
    funext env last
    rw [execute, execute, evaluate_agree name agree env value named.2]
  | ifThen _ condition consequent => by
    intro names named
    funext env last
    rw [execute, execute, evaluate_agree name agree env condition named.1,
      execute_agree agree consequent named.2]
  | ifElse _ condition consequent alternative => by
    intro names named
    funext env last
    rw [execute, execute, evaluate_agree name agree env condition named.1,
      execute_agree agree consequent named.2.1, execute_agree agree alternative named.2.2]
  | program .. | function .. | parameter .. | declaration .. | identifier .. | integer .. | real ..
  | unary .. | binary .. | call .. => fun _ named => named.elim
theorem executeAll_agree (agree : calls.Agree calls' arity) : (nodes : List Node) →
    ∀ ⦃names : List (List String)⦄, StatementsNamed arity names nodes →
    executeAll calls' name nodes = executeAll calls name nodes
  | [] => by
    intro names _
    funext env last
    rw [executeAll, executeAll]
  | node :: nodes => by
    intro names named
    funext env last
    rw [executeAll, executeAll, execute_agree agree node named.1]
    simp only [executeAll_agree agree nodes named.2]
end

end Agree

/-! ## Further functions -/

section Further

variable {functions : List Node} {name : String}

/-- Functions that are there already are found first. -/
theorem findSome?_definition?_append {definition : List Node × Node}
    (found : functions.findSome? (definition? name) = some definition) (others : List Node) :
    (functions ++ others).findSome? (definition? name) = some definition := by
  rw [List.findSome?_append, found, Option.some_or]

theorem arity?_append {count : Nat} (known : arity? functions name = some count)
    (others : List Node) : arity? (functions ++ others) name = some count := by
  obtain ⟨definition, found, isCount⟩ := Option.map_eq_some_iff.1 known
  rw [arity?, findSome?_definition?_append found, Option.map_some, isCount]

/-- Functions behind those of a checked program do not change what its own calls give. -/
theorem callWithin_append (info info' : Info)
    (named : ∀ node ∈ functions, node.FunctionNamed (arity? functions)) (others : List Node)
    (depth : Nat) :
    Calls.Agree ((program info functions).callWithin depth)
      ((program info' (functions ++ others)).callWithin depth) (arity? functions) := by
  induction depth with
  | zero => exact fun _ _ => rfl
  | succ depth ih =>
    intro callee known
    obtain ⟨count, isCount⟩ := Option.isSome_iff_exists.1 known
    obtain ⟨⟨parameters, body⟩, found, _⟩ := Option.map_eq_some_iff.1 isCount
    obtain ⟨i, returnType, member⟩ := mem_of_definition? found
    funext arguments
    rw [callWithin, callWithin, function?, function?, findSome?_definition?_append found, found]
    dsimp only
    rw [execute_agree callee ih body (named _ member)]

end Further

end Node
end MiniC
