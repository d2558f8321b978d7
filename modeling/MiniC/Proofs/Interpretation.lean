import MiniC.Proofs.Blocks
import MiniC.Proofs.Walks
import MiniC.Quad.Evaluation
import MiniC.Tree.Folding

/-!
# The meaning of a program

A program is run as it is written, on its tree. The variables in sight are kept block by block: a
call binds the parameters to the arguments, a block adds its variables with the value zero and drops
them at its end, and a name means its innermost declaration. Operands and arguments are evaluated
from left to right. A function is left at its first return; one that runs off its end has the value
of the call that completed last in the same activation, and zero if there was none.

Attached scopes and tokens have no part in this.
-/

namespace MiniC

/-- The variables in sight and their values, block by block. -/
abbrev Environment : Type := Blocks Int32

/-- How a statement ends, if nothing goes wrong. -/
inductive Completion where
  | returned (value : Int32)
  /-- Go on with these variables; `last` is the value of the call that completed last. -/
  | finished (env : Environment) (last : Int32)

/-- What a call of a function gives. -/
abbrev Calls : Type := String → List Int32 → Except Error Int32

namespace Node

/-- The name that a parameter or a declaration introduces. -/
def declaredName? : Node → Option String
  | parameter _ _ name => some name
  | declaration _ _ name => some name
  | _ => none

def declaredNames (nodes : List Node) : List String :=
  nodes.filterMap declaredName?

mutual
/-- The value of an expression in the function `name`, and the value of the call that completed last
after it. -/
def evaluate (calls : Calls) (name : String) (env : Environment) :
    Node → (last : Int32) → Except Error (Int32 × Int32)
  | identifier _ x, last =>
      match env.find? x with
      | some value => .ok (value, last)
      | none => .error (.evaluation (.unknownName x))
  | integer _ value, last => .ok (value, last)
  | unary _ op operand, last => do
      let (value, last) ← operand.evaluate calls name env last
      return (op.apply value, last)
  | binary _ op lhs rhs, last => do
      let (a, last) ← lhs.evaluate calls name env last
      let (b, last) ← rhs.evaluate calls name env last
      match op.compute? a b with
      | some value => return (value, last)
      | none => .error (.evaluation (.divisionFault a b name))
  | call _ (identifier _ callee) arguments, last => do
      let (values, _) ← evaluateAll calls name env arguments last
      let value ← calls callee values
      return (value, value)
  | call _ _ _, _ => .error (.internal .calleeNotIdentifier)
  | node, _ => .error (.internal (.noType node.kind))
/-- The values of expressions from left to right. -/
def evaluateAll (calls : Calls) (name : String) (env : Environment) :
    List Node → (last : Int32) → Except Error (List Int32 × Int32)
  | [], last => .ok ([], last)
  | node :: nodes, last => do
      let (value, last) ← node.evaluate calls name env last
      let (values, last) ← evaluateAll calls name env nodes last
      return (value :: values, last)
end

mutual
/-- Run a statement of the function `name`. -/
def execute (calls : Calls) (name : String) :
    Node → Environment → (last : Int32) → Except Error Completion
  | empty _, env, last => .ok (.finished env last)
  | block _ declarations statements, env, last => do
      let declared := (declaredNames declarations).map fun x => (x, (0 : Int32))
      match ← executeAll calls name statements (declared :: env) last with
      | .returned value => return .returned value
      | .finished env last => return .finished env.tail last
  | returnValue _ value, env, last => do
      let (value, _) ← value.evaluate calls name env last
      return .returned value
  | assignment _ target value, env, last => do
      let (value, last) ← value.evaluate calls name env last
      return .finished (env.set target value) last
  | ifThen _ condition consequent, env, last => do
      let (value, last) ← condition.evaluate calls name env last
      if value = 0 then return .finished env last
      else consequent.execute calls name env last
  | ifElse _ condition consequent alternative, env, last => do
      let (value, last) ← condition.evaluate calls name env last
      if value = 0 then alternative.execute calls name env last
      else consequent.execute calls name env last
  | node, env, last => do
      let (_, last) ← node.evaluate calls name env last
      return .finished env last
/-- Run statements one after the other, up to the first return. -/
def executeAll (calls : Calls) (name : String) :
    List Node → Environment → (last : Int32) → Except Error Completion
  | [], env, last => .ok (.finished env last)
  | node :: nodes, env, last => do
      match ← node.execute calls name env last with
      | .returned value => return .returned value
      | .finished env last => executeAll calls name nodes env last
end

/-- The parameters and the body of a function of that name. -/
def definition? (name : String) : Node → Option (List Node × Node)
  | function _ _ other parameters body => if other = name then some (parameters, body) else none
  | _ => none

/-- The parameters and the body of the first function of that name. -/
def function? (name : String) : Node → Option (List Node × Node)
  | program _ functions => functions.findSome? (definition? name)
  | _ => none

/-- Call a function of a program, with calls nesting at most `depth` deep. -/
def callWithin (tree : Node) : (depth : Nat) → Calls
  | 0, name, _ => .error (.evaluation (.depthExceeded maxCallDepth name))
  | depth + 1, name, arguments =>
      match tree.function? name with
      | none => .error (.evaluation (.noCode name))
      | some (parameters, body) => do
          if parameters.length ≠ arguments.length then
            .error (.evaluation (.argumentCount name parameters.length arguments.length))
          let inputs := (declaredNames parameters).zip arguments
          match ← body.execute (tree.callWithin depth) name [inputs] 0 with
          | .returned value => return value
          | .finished _ last => return last

/-- Call a function of a program. -/
def interpret (tree : Node) : Calls :=
  tree.callWithin maxCallDepth

/-! ## What a call depends on -/

/-- All that a call of a function depends on: how many parameters it has, how they are called, and
what its body does. -/
def behaviour (definition : List Node × Node) :
    Nat × List String × (Calls → String → Environment → Int32 → Except Error Completion) :=
  (definition.1.length, declaredNames definition.1, definition.2.execute)

/-- Programs whose functions behave in the same way give the same calls. -/
theorem callWithin_congr {tree other : Node}
    (same : ∀ name, (tree.function? name).map behaviour = (other.function? name).map behaviour)
    (depth : Nat) : tree.callWithin depth = other.callWithin depth := by
  induction depth with
  | zero => rfl
  | succ depth ih =>
    funext name arguments
    have sameName := same name
    unfold callWithin
    rw [ih]
    cases found : tree.function? name with
    | none =>
      rw [found] at sameName
      rw [Option.map_eq_none_iff.1 sameName.symm]
    | some definition =>
      rw [found] at sameName
      obtain ⟨definition', found', behaves⟩ := Option.map_eq_some_iff.1 sameName.symm
      obtain ⟨parameters, body⟩ := definition
      obtain ⟨parameters', body'⟩ := definition'
      simp only [behaviour, Prod.mk.injEq] at behaves
      obtain ⟨sameLength, sameNames, sameBody⟩ := behaves
      have sameRun := congrFun (congrFun sameBody (other.callWithin depth)) name
      simp only [found', sameLength, sameNames, sameRun]

/-! ## Scopes have no part in it -/

end Node

namespace Walked

variable {α β γ : Type}

theorem andThen_fst (first : Walked α) (second : Table → Walked β) (unvisited : β) :
    (first.andThen second unvisited).1.1 = first.1 := by
  obtain ⟨a, result⟩ := first
  cases result <;> rfl

/-- What walking leaves alone is the same whether the second part was reached or not. -/
theorem andThen_snd (f : β → γ) (first : Walked α) (second : Table → Walked β) (unvisited : β)
    (kept : ∀ table, f (second table).1 = f unvisited) :
    f (first.andThen second unvisited).1.2 = f unvisited := by
  obtain ⟨a, result⟩ := first
  cases result with
  | error error => rfl
  | ok table => exact kept table

end Walked

namespace Node

variable (calls : Calls) (name : String)

/-- A walk does not change what is called. -/
theorem evaluate_call_walk (env : Environment) (i j : Info) (ctx : Context) (table : Table)
    (callee : Node) {walked arguments : List Node}
    (same : evaluateAll calls name env walked = evaluateAll calls name env arguments) :
    (call i (callee.walk ctx table).1 walked).evaluate calls name env =
      (call j callee arguments).evaluate calls name env := by
  funext last
  cases callee with
  | identifier info callee => simp only [walk, evaluate, same]
  | function info returnType callee parameters body =>
    unfold walk
    split <;> simp only [Walked.map, evaluate]
  | _ => simp only [walk, Walked.map, evaluate]

mutual
/-- A walk does not change the values of expressions. -/
theorem evaluate_walk (env : Environment) (ctx : Context) (table : Table) : (node : Node) →
    (node.walk ctx table).1.evaluate calls name env = node.evaluate calls name env
  | empty _ | program .. | parameter .. | returnValue .. | block .. | declaration ..
  | assignment .. | ifThen .. | ifElse .. => by
    funext last
    simp only [walk, Walked.map, evaluate, kind]
  | function info returnType f parameters body => by
    funext last
    unfold walk
    split <;> simp only [Walked.map, evaluate, kind]
  | identifier _ _ | integer _ _ | real _ _ => by
    funext last
    simp only [walk, evaluate, kind]
  | unary _ _ operand => by
    funext last
    simp only [walk, Walked.map, evaluate, evaluate_walk env ctx table operand]
  | binary _ _ lhs rhs => by
    funext last
    simp only [walk, Walked.map, evaluate]
    rw [Walked.andThen_fst, evaluate_walk env ctx table lhs]
    rw [Walked.andThen_snd (evaluate calls name env) _ _ _ fun t => evaluate_walk env ctx t rhs]
  | call info callee arguments => by
    simp only [walk, Walked.map]
    rw [Walked.andThen_fst]
    exact evaluate_call_walk calls name env _ _ ctx table callee
      (Walked.andThen_snd _ _ _ _ fun t => evaluateAll_walkAll env ctx t arguments)
theorem evaluateAll_walkAll (env : Environment) (ctx : Context) (table : Table) :
    (nodes : List Node) →
    evaluateAll calls name env (walkAll ctx table nodes).1 = evaluateAll calls name env nodes
  | [] => rfl
  | node :: nodes => by
    funext last
    simp only [walkAll, Walked.map, evaluateAll]
    rw [Walked.andThen_fst, evaluate_walk env ctx table node]
    rw [Walked.andThen_snd (evaluateAll calls name env) _ _ _ fun t =>
      evaluateAll_walkAll env ctx t nodes]
end

theorem declaredName?_walk (ctx : Context) (table : Table) (node : Node) :
    (node.walk ctx table).1.declaredName? = node.declaredName? := by
  cases node with
  | function info returnType f parameters body =>
    unfold walk
    split <;> rfl
  | _ => simp only [walk, Walked.map, declaredName?]

theorem declaredNames_walkAll (ctx : Context) (table : Table) (nodes : List Node) :
    declaredNames (walkAll ctx table nodes).1 = declaredNames nodes := by
  induction nodes generalizing table with
  | nil => rfl
  | cons node nodes ih =>
    simp only [walkAll, Walked.map, declaredNames, List.filterMap_cons]
    rw [Walked.andThen_fst, declaredName?_walk]
    have rest := Walked.andThen_snd declaredNames (node.walk ctx table) (walkAll ctx · nodes) nodes ih
    unfold declaredNames at rest
    rw [rest]

mutual
/-- A walk does not change what statements do. -/
theorem execute_walk (ctx : Context) (table : Table) : (node : Node) →
    (node.walk ctx table).1.execute calls name = node.execute calls name
  | empty _ => by
    funext env last
    simp only [walk, execute]
  | returnValue _ value | assignment _ _ value => by
    funext env last
    simp only [walk, Walked.map, execute, evaluate_walk]
  | block _ declarations statements => by
    funext env last
    simp only [walk, Walked.map, execute]
    rw [Walked.andThen_fst, declaredNames_walkAll]
    rw [Walked.andThen_snd (executeAll calls name) _ _ _ fun t => executeAll_walkAll _ t statements]
  | ifThen _ condition consequent => by
    funext env last
    simp only [walk, Walked.map, execute]
    rw [Walked.andThen_fst, evaluate_walk]
    rw [Walked.andThen_snd (execute calls name) _ _ _ fun t => execute_walk ctx t consequent]
  | ifElse _ condition consequent alternative => by
    funext env last
    rw [walk]
    let first := (condition.walk ctx table).andThen (walk ctx · consequent) consequent
    let both := first.andThen (walk ctx · alternative) alternative
    change (ifElse _ both.1.1.1 both.1.1.2 both.1.2).execute calls name env last = _
    have parts : both.1.1 = first.1 := Walked.andThen_fst ..
    have isCondition : first.1.1 = (condition.walk ctx table).1 := Walked.andThen_fst ..
    have isConsequent : first.1.2.execute calls name = consequent.execute calls name :=
      Walked.andThen_snd _ _ _ _ fun t => execute_walk ctx t consequent
    have isAlternative : both.1.2.execute calls name = alternative.execute calls name :=
      Walked.andThen_snd _ _ _ _ fun t => execute_walk ctx t alternative
    simp only [execute, parts, isCondition, isConsequent, isAlternative, evaluate_walk]
  | function i t f parameters body => by
    funext env last
    unfold walk
    split <;> simp only [Walked.map, execute, evaluate, kind]
  | program .. | parameter .. | declaration .. | identifier .. | integer .. | real .. => by
    funext env last
    simp only [walk, Walked.map, execute, evaluate, kind]
  | unary i op operand => by
    funext env last
    exact congrArg (· >>= _)
      (congrFun (evaluate_walk calls name env ctx table (unary i op operand)) last)
  | binary i op lhs rhs => by
    funext env last
    exact congrArg (· >>= _)
      (congrFun (evaluate_walk calls name env ctx table (binary i op lhs rhs)) last)
  | call i callee arguments => by
    funext env last
    exact congrArg (· >>= _)
      (congrFun (evaluate_walk calls name env ctx table (call i callee arguments)) last)
theorem executeAll_walkAll (ctx : Context) (table : Table) : (nodes : List Node) →
    executeAll calls name (walkAll ctx table nodes).1 = executeAll calls name nodes
  | [] => rfl
  | node :: nodes => by
    funext env last
    simp only [walkAll, Walked.map, executeAll]
    rw [Walked.andThen_fst, execute_walk ctx table node]
    rw [Walked.andThen_snd (executeAll calls name) _ _ _ fun t => executeAll_walkAll ctx t nodes]
end

theorem length_walkAll (ctx : Context) (table : Table) (nodes : List Node) :
    (walkAll ctx table nodes).1.length = nodes.length := by
  induction nodes generalizing table with
  | nil => rfl
  | cons node nodes ih =>
    simp only [walkAll, Walked.map, List.length_cons]
    rw [Walked.andThen_snd List.length _ _ _ ih]

theorem definition?_walk (ctx : Context) (table : Table) (name : String) (node : Node) :
    ((node.walk ctx table).1.definition? name).map behaviour =
      (node.definition? name).map behaviour := by
  cases node with
  | function info returnType other parameters body =>
    unfold walk
    split
    · rfl
    · next inside table' _ =>
      simp only [Walked.map, definition?]
      split
      · simp only [Option.map_some, behaviour]
        rw [Walked.andThen_fst, length_walkAll, declaredNames_walkAll]
        have sameBody (calls : Calls) (name : String) :=
          Walked.andThen_snd (execute calls name) (walkAll inside table' parameters)
            (walk inside · body) body fun t => execute_walk calls name inside t body
        simp only [sameBody]
      · rfl
  | _ => simp only [walk, Walked.map, definition?]

theorem findSome?_definition?_walkAll (ctx : Context) (table : Table) (name : String)
    (nodes : List Node) :
    ((walkAll ctx table nodes).1.findSome? (definition? name)).map behaviour =
      (nodes.findSome? (definition? name)).map behaviour := by
  induction nodes generalizing table with
  | nil => rfl
  | cons node nodes ih =>
    have first := definition?_walk ctx table name node
    have rest := Walked.andThen_snd (fun nodes => (nodes.findSome? (definition? name)).map behaviour)
      (node.walk ctx table) (walkAll ctx · nodes) nodes ih
    simp only [walkAll, Walked.map, List.findSome?_cons]
    rw [Walked.andThen_fst]
    cases found : node.definition? name with
    | none =>
      rw [found] at first
      rw [Option.map_eq_none_iff.1 first]
      exact rest
    | some definition =>
      rw [found] at first
      obtain ⟨definition', found', behaves⟩ := Option.map_eq_some_iff.1 first
      rw [found']
      exact congrArg some behaves

/-- Attaching scopes does not change what the functions of a program do. -/
theorem function?_walk (info : Info) (functions : List Node) (ctx : Context) (table : Table)
    (name : String) : (((program info functions).walk ctx table).1.function? name).map behaviour =
      ((program info functions).function? name).map behaviour := by
  simp only [walk, Walked.map, function?]
  exact findSome?_definition?_walkAll ctx table name functions

end Node
end MiniC
