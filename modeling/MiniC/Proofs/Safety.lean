import MiniC.Proofs.Preservation

/-!
# Accepted programs do not get stuck

A call of an accepted program gives a value or traps: a division faults, or calls nest too deep. No
other failure can occur, as every name that is used is in sight and every call is one of a function
of the program with as many arguments as it has parameters.

By the main result on compiled programs it is enough to show this for the interpreter.
-/

namespace MiniC

/-- The two ways in which a run of an accepted program can fail. -/
inductive Error.IsTrap : Error → Prop where
  | division (lhs rhs : Int32) (function : String) :
      IsTrap (.evaluation (.divisionFault lhs rhs function))
  | depth (function : String) : IsTrap (.evaluation (.depthExceeded maxCallDepth function))

/-- A result that is good, or else a trap. -/
def TrapsOr {α : Type} (good : α → Prop) : Except Error α → Prop
  | .ok a => good a
  | .error error => error.IsTrap

theorem TrapsOr.bind {α β : Type} {good : α → Prop} {fine : β → Prop} {first : Except Error α}
    {next : α → Except Error β} (isFirst : TrapsOr good first)
    (isNext : ∀ a, good a → TrapsOr fine (next a)) : TrapsOr fine (first >>= next) := by
  cases first with
  | ok a => exact isNext a isFirst
  | error error => exact isFirst

/-- Calls with the right number of arguments give a value or trap. -/
def Calls.Safe (calls : Calls) (arity : String → Option Nat) : Prop :=
  ∀ ⦃callee arguments⦄, arity callee = some arguments.length →
    TrapsOr (fun _ => True) (calls callee arguments)

/-- A statement that goes on leaves the blocks of variables as they are. -/
def Completion.Keeps (names : List (List String)) : Completion → Prop
  | .returned _ => True
  | .finished env _ => Blocks.names env = names

namespace Node

variable {calls : Calls} {arity : String → Option Nat} (name : String)

mutual
theorem evaluate_safe (safe : calls.Safe arity) : (node : Node) → ∀ ⦃env : Environment⦄,
    node.ValueNamed arity (Blocks.names env) → node.ValueIntegral → ∀ last,
    TrapsOr (fun _ => True) (node.evaluate calls name env last)
  | identifier _ x => by
    intro env named _ last
    obtain ⟨value, found⟩ := Option.isSome_iff_exists.1 ((Blocks.isSome_find? x env).2 named)
    rw [evaluate, found]
    trivial
  | integer .. => by
    intro env _ _ last
    rw [evaluate]
    trivial
  | unary _ op operand => by
    intro env named integral last
    rw [evaluate]
    exact (evaluate_safe safe operand named integral last).bind fun _ _ => trivial
  | binary _ op lhs rhs => by
    intro env named integral last
    rw [evaluate]
    refine (evaluate_safe safe lhs named.1 integral.1 last).bind fun left _ => ?_
    refine (evaluate_safe safe rhs named.2 integral.2 left.2).bind fun right _ => ?_
    dsimp only
    split
    · trivial
    · exact Error.IsTrap.division left.1 right.1 name
  | call _ callee arguments => by
    intro env named integral last
    cases callee with
    | identifier _ callee =>
      rw [evaluate]
      refine (evaluateAll_safe safe arguments named.2 integral last).bind fun values length => ?_
      exact (safe (named.1.trans (congrArg some length.symm))).bind fun _ _ => trivial
    | _ => exact named.elim
  | real .. => fun _ _ integral => integral.elim
  | empty .. | program .. | function .. | parameter .. | returnValue .. | block .. | declaration ..
  | assignment .. | ifThen .. | ifElse .. => fun _ named => named.elim
/-- There is a value for each of the expressions. -/
theorem evaluateAll_safe (safe : calls.Safe arity) : (nodes : List Node) → ∀ ⦃env : Environment⦄,
    ValuesNamed arity (Blocks.names env) nodes → ValuesIntegral nodes → ∀ last,
    TrapsOr (fun found => found.1.length = nodes.length) (evaluateAll calls name env nodes last)
  | [] => by
    intro env _ _ last
    rw [evaluateAll]
    exact rfl
  | node :: nodes => by
    intro env named integral last
    rw [evaluateAll]
    refine (evaluate_safe safe node named.1 integral.1 last).bind fun first _ => ?_
    refine (evaluateAll_safe safe nodes named.2 integral.2 first.2).bind fun later length => ?_
    exact congrArg Nat.succ length
end

mutual
theorem execute_safe (safe : calls.Safe arity) : (node : Node) → ∀ ⦃env : Environment⦄,
    node.StatementNamed arity (Blocks.names env) → node.StatementIntegral → ∀ last,
    TrapsOr (Completion.Keeps (Blocks.names env)) (node.execute calls name env last)
  | empty _ => by
    intro env _ _ last
    rw [execute]
    exact rfl
  | block _ declarations statements => by
    intro env named integral last
    rw [execute]
    let declared := (declaredNames declarations).map fun x => (x, (0 : Int32))
    have names : Blocks.names (declared :: env) = declaredNames declarations :: Blocks.names env := by
      simp [declared, Blocks.names, Function.comp_def]
    rw [StatementNamed, ← names] at named
    refine (executeAll_safe safe statements named integral.2 last).bind fun completion kept => ?_
    cases completion with
    | returned value => trivial
    | finished env' last' =>
      -- The block of the declared variables, which is dropped, is the first one.
      show Blocks.names env'.tail = (Blocks.names (declared :: env)).tail
      unfold Blocks.names
      rw [List.map_tail]
      exact congrArg List.tail kept
  | returnValue _ value => by
    intro env named integral last
    rw [execute]
    exact (evaluate_safe name safe value named integral last).bind fun _ _ => trivial
  | assignment _ target value => by
    intro env named integral last
    rw [execute]
    refine (evaluate_safe name safe value named.2 integral last).bind fun found _ => ?_
    exact Blocks.names_set target found.1 env
  | ifThen _ condition consequent => by
    intro env named integral last
    rw [execute]
    refine (evaluate_safe name safe condition named.1 integral.1 last).bind fun found _ => ?_
    by_cases zero : found.1 = 0
    · simp only [zero, if_true]
      exact rfl
    · simp only [zero, if_false]
      exact execute_safe safe consequent named.2 integral.2 found.2
  | ifElse _ condition consequent alternative => by
    intro env named integral last
    rw [execute]
    refine (evaluate_safe name safe condition named.1 integral.1 last).bind fun found _ => ?_
    by_cases zero : found.1 = 0
    · simp only [zero, if_true]
      exact execute_safe safe alternative named.2.2 integral.2.2 found.2
    · simp only [zero, if_false]
      exact execute_safe safe consequent named.2.1 integral.2.1 found.2
  | program .. | function .. | parameter .. | declaration .. | identifier .. | integer .. | real ..
  | unary .. | binary .. | call .. => fun _ named => named.elim
theorem executeAll_safe (safe : calls.Safe arity) : (nodes : List Node) → ∀ ⦃env : Environment⦄,
    StatementsNamed arity (Blocks.names env) nodes → StatementsIntegral nodes → ∀ last,
    TrapsOr (Completion.Keeps (Blocks.names env)) (executeAll calls name nodes env last)
  | [] => by
    intro env _ _ last
    rw [executeAll]
    exact rfl
  | node :: nodes => by
    intro env named integral last
    rw [executeAll]
    refine (execute_safe safe node named.1 integral.1 last).bind fun completion kept => ?_
    cases completion with
    | returned value => trivial
    | finished env' last' =>
      have names : Blocks.names env' = Blocks.names env := kept
      rw [← names]
      exact executeAll_safe safe nodes (names ▸ named.2) integral.2 last'
end

/-- A function that is found is one of the program. -/
theorem mem_of_definition? {functions : List Node} {name : String} {parameters : List Node}
    {body : Node} (found : functions.findSome? (definition? name) = some (parameters, body)) :
    ∃ info returnType, function info returnType name parameters body ∈ functions := by
  obtain ⟨node, member, isDefinition⟩ := List.exists_of_findSome?_eq_some found
  cases node with
  | function info returnType other parameters' body' =>
    rw [definition?] at isDefinition
    split at isDefinition
    · next same =>
      cases isDefinition
      exact ⟨info, returnType, same ▸ member⟩
    · cases isDefinition
  | _ => cases isDefinition

/-- Calls of a checked program are safe at every depth: the body of the function that is called runs
on the parameters, and its own calls are one level below. -/
theorem callWithin_safe (info : Info) {functions : List Node}
    (named : ∀ node ∈ functions, node.FunctionNamed (arity? functions))
    (integral : ∀ node ∈ functions, node.FunctionIntegral) (depth : Nat) :
    Calls.Safe ((program info functions).callWithin depth) (arity? functions) := by
  induction depth with
  | zero => exact fun callee _ _ => Error.IsTrap.depth callee
  | succ depth ih =>
    intro callee arguments known
    obtain ⟨⟨parameters, body⟩, found, arity⟩ := Option.map_eq_some_iff.1 known
    obtain ⟨i, returnType, member⟩ := mem_of_definition? found
    have sameLength : parameters.length = arguments.length := arity
    let inputs := (declaredNames parameters).zip arguments
    have names : Blocks.names [inputs] = [declaredNames parameters] := by
      have short : (declaredNames parameters).length ≤ arguments.length :=
        sameLength ▸ List.length_filterMap_le declaredName? parameters
      exact congrArg (fun block => [block]) (List.map_fst_zip short)
    have bodyNamed : body.StatementNamed (arity? functions) (Blocks.names [inputs]) := by
      rw [names]
      exact named _ member
    have bodyIntegral : body.StatementIntegral := (integral _ member).2.2
    rw [callWithin]
    simp only [function?, found, sameLength, ne_eq, not_true_eq_false, if_false]
    refine (execute_safe callee ih body bodyNamed bodyIntegral 0).bind fun completion _ => ?_
    cases completion <;> trivial

end Node

/-- How many parameters a function has that a source text defines. -/
def sourceArity? (source function : String) : Option Nat :=
  match Node.parse source with
  | .ok tree => (tree.function? function).map (·.1.length)
  | .error _ => none

/-- Attaching scopes changes no function, so every function has as many parameters after it. -/
theorem sourceArity?_eq {source : String} {tree : Node} {info : Info} {functions : List Node}
    (parsed : Node.parse source = .ok tree)
    (same : ∀ name, ((Node.program info functions).function? name).map Node.behaviour =
      (tree.function? name).map Node.behaviour) (function : String) :
    sourceArity? source function = Node.arity? functions function := by
  have arities := congrArg (Option.map (·.1)) (same function)
  rw [Option.map_map, Option.map_map] at arities
  unfold sourceArity?
  rw [parsed]
  exact arities.symm

/-- A run of a function with as many arguments as it has parameters gives a value or traps. -/
theorem result_run_safe {source : String} {options : Options} {compilation : Compilation}
    (compiled : (compile source options).result = .ok compilation) {function : String}
    {arguments : List Int32} (defined : sourceArity? source function = some arguments.length) :
    TrapsOr (fun _ => True) (compilation.run function arguments).result := by
  obtain ⟨tree, parsed, means⟩ := result_run_eq_interpret compiled
  unfold compile at compiled
  rw [Traced.result_bind] at compiled
  obtain ⟨analysis, analyzed, lowered⟩ := bind_eq_ok.1 compiled
  obtain ⟨tree', info, functions, parsed', isTree, inTable, named, same⟩ := analyze_eq_ok analyzed
  cases parsed.symm.trans parsed'
  obtain ⟨integral, _⟩ := lower_eq_ok isTree inTable named lowered
  rw [sourceArity?_eq parsed same] at defined
  rw [means, Node.interpret, ← Node.callWithin_congr same]
  exact Node.callWithin_safe info named integral maxCallDepth defined

/-- Accepted programs never get stuck: whatever function is called with as many arguments as it has
parameters, the run gives a value, or a division faults, or calls nest too deep. -/
theorem accepted_never_stuck {source : String} {options : Options} {compilation : Compilation}
    (compiled : (compile source options).result = .ok compilation) {function : String}
    {arguments : List Int32} (defined : sourceArity? source function = some arguments.length) :
    (∃ value, (compilation.run function arguments).result = .ok value) ∨
      (∃ lhs rhs inside, (compilation.run function arguments).result =
        .error (.evaluation (.divisionFault lhs rhs inside))) ∨
      ∃ inside, (compilation.run function arguments).result =
        .error (.evaluation (.depthExceeded maxCallDepth inside)) := by
  have safe := result_run_safe compiled defined
  cases result : (compilation.run function arguments).result with
  | ok value => exact .inl ⟨value, rfl⟩
  | error error =>
    rw [result] at safe
    cases safe with
    | division lhs rhs inside => exact .inr (.inl ⟨lhs, rhs, inside, rfl⟩)
    | depth inside => exact .inr (.inr ⟨inside, rfl⟩)

/-- A division that is reached through calls of one function by another. -/
def quotientSource : String :=
  "int quotient(int a, int b) { return a / b; }
int main(int n) { if (n) return main(n - 1); return quotient(6, n); }"

theorem quotient_never_stuck :
    ∃ compilation, (compile quotientSource { level := 1 }).result = .ok compilation ∧
      sourceArity? quotientSource "main" = some [(3 : Int32)].length ∧
      ((∃ value, (compilation.run "main" [3]).result = .ok value) ∨
        (∃ lhs rhs inside, (compilation.run "main" [3]).result =
          .error (.evaluation (.divisionFault lhs rhs inside))) ∨
        ∃ inside, (compilation.run "main" [3]).result =
          .error (.evaluation (.depthExceeded maxCallDepth inside))) := by
  have accepted : (compile quotientSource { level := 1 }).result.isOk := by decide +kernel
  have defined : sourceArity? quotientSource "main" = some [(3 : Int32)].length := by decide +kernel
  cases compiled : (compile quotientSource { level := 1 }).result with
  | ok compilation => exact ⟨compilation, rfl, defined, accepted_never_stuck compiled defined⟩
  | error error =>
    rw [compiled] at accepted
    cases accepted

end MiniC
