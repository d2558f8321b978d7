import MiniC.Proofs.Accepting
import MiniC.Proofs.Viability

/-!
# What the analysis of a source text fails on

Every failure of the analysis is a mistake in the source. Parsing fails lexically or syntactically.
Resolving and the checks fail semantically, as a tree that was parsed has nothing in it that they do
not expect.
-/

namespace MiniC

/-- A computation that fails only on semantic mistakes. -/
def Diagnosed {α : Type} (result : Except Error α) : Prop :=
  ∀ error, result = .error error → error.category = .semantic

namespace Diagnosed

variable {α β : Type}

theorem ok (a : α) : Diagnosed (.ok a) := by
  intro error failed
  cases failed

theorem error {pos : Position} {cause : SemanticCause} :
    Diagnosed (.error (.semantic pos cause) : Except Error α) := by
  intro error failed
  cases failed
  rfl

theorem bind {first : Except Error α} {next : α → Except Error β} (diagnosed : Diagnosed first)
    (diagnosed' : ∀ a, first = .ok a → Diagnosed (next a)) : Diagnosed (first >>= next) := by
  cases first with
  | error error =>
    intro error' failed
    cases failed
    exact diagnosed error rfl
  | ok a => exact diagnosed' a rfl

/-- Where an expression is required, there is one. -/
theorem bind_required {first : Except Error (Option Ty)} {node : Node} {next : Ty → Except Error β}
    (diagnosed : Diagnosed first) (isTyped : first ≠ .ok none)
    (diagnosed' : ∀ ty, Diagnosed (next ty)) :
    Diagnosed (first >>= fun ty => Node.required node ty >>= next) := by
  refine diagnosed.bind fun ty found => ?_
  cases ty with
  | none => exact absurd found isTyped
  | some ty => exact diagnosed' ty

end Diagnosed

namespace Node

open Table

theorem diagnosed_symbolAt (table : Table) (node : Node) {scope : ScopeId}
    (attached : node.scope = some scope) (name : String) :
    Diagnosed (node.symbolAt table name) := by
  unfold symbolAt scopeOf
  rw [attached, ok_bind]
  split
  · exact .ok _
  · exact .error

theorem diagnosed_storedType (node : Node) (name : String) (symbol : Symbol) :
    Diagnosed (node.storedType name symbol) := by
  unfold storedType
  split
  · exact .ok _
  · exact .error

/-! ## Expressions -/

section Values

variable (table : Table) {scope : ScopeId}

theorem diagnosed_checkCallee (current : Option Nat) {node : Node} (inScope : node.CalleeIn scope) :
    Diagnosed (checkCallee table current node) := by
  cases node with
  | identifier info name =>
    refine (diagnosed_symbolAt table (identifier info name) inScope.1 name).bind fun symbol _ => ?_
    split
    · split
      · exact .error
      · exact .ok _
    · exact .ok _
  | _ => exact inScope.elim

theorem diagnosed_signature (pos : Position) {node : Node} (inScope : node.CalleeIn scope) :
    Diagnosed (signature table pos node) := by
  cases node with
  | identifier info name =>
    refine (diagnosed_symbolAt table (identifier info name) inScope.1 name).bind fun symbol _ => ?_
    split
    · exact .ok _
    · exact .error
  | _ => exact inScope.elim

mutual
theorem diagnosed_checkNames (current : Option Nat) : (node : Node) → node.ValueIn scope →
    Diagnosed (node.checkNames table current)
  | integer .. | real .. => fun _ => .ok _
  | identifier info name => fun inScope =>
    (diagnosed_symbolAt table (identifier info name) inScope.1 name).bind fun _ _ => .ok _
  | unary info op operand => fun inScope => diagnosed_checkNames current operand inScope.2
  | binary info op lhs rhs => fun inScope =>
    (diagnosed_checkNames current lhs inScope.2.1).bind fun current' _ =>
      diagnosed_checkNames current' rhs inScope.2.2
  | call info callee arguments => fun inScope => by
    obtain ⟨_, isCallee, areValues⟩ := inScope
    refine (diagnosed_checkCallee table current isCallee).bind fun _ _ => ?_
    -- The name that is called is looked up once more, like any other name.
    cases callee with
    | identifier info' name =>
      have isNamed := diagnosed_symbolAt table (identifier info' name) isCallee.1 name
      exact (isNamed.bind fun _ _ => .ok _).bind fun current' _ =>
        diagnosed_checkNamesAll current' arguments areValues
    | _ => exact isCallee.elim
  | empty .. | program .. | function .. | parameter .. | returnValue .. | block .. | declaration ..
  | assignment .. | ifThen .. | ifElse .. => fun inScope => inScope.elim
theorem diagnosed_checkNamesAll (current : Option Nat) : (nodes : List Node) →
    ValuesIn scope nodes → Diagnosed (checkNamesAll table current nodes)
  | [] => fun _ => .ok _
  | node :: nodes => fun inScope =>
    (diagnosed_checkNames current node inScope.1).bind fun current' _ =>
      diagnosed_checkNamesAll current' nodes inScope.2
end

theorem typeOf_value (result : Option Ty) {node : Node} (inScope : node.ValueIn scope) :
    node.typeOf table result ≠ .ok none := by
  intro typed
  cases node with
  | integer info value => cases typed
  | real info value => cases typed
  | identifier info name =>
    obtain ⟨_, _, typed⟩ := bind_eq_ok.1 typed
    obtain ⟨_, _, typed⟩ := bind_eq_ok.1 typed
    cases typed
  | unary info op operand =>
    obtain ⟨_, _, typed⟩ := bind_required_iff.1 typed
    cases typed
  | binary info op lhs rhs =>
    obtain ⟨_, _, typed⟩ := bind_required_iff.1 typed
    obtain ⟨_, _, typed⟩ := bind_required_iff.1 typed
    split at typed <;> cases typed
  | call info callee arguments =>
    obtain ⟨_, _, typed⟩ := bind_eq_ok.1 typed
    dsimp only at typed
    split at typed
    · cases typed
    · obtain ⟨_, _, typed⟩ := bind_eq_ok.1 typed
      cases typed
  | _ => exact inScope.elim

mutual
theorem diagnosed_typeOf (result : Option Ty) : (node : Node) → node.ValueIn scope →
    Diagnosed (node.typeOf table result)
  | integer .. | real .. => fun _ => .ok _
  | identifier info name => fun inScope =>
    (diagnosed_symbolAt table (identifier info name) inScope.1 name).bind fun symbol _ =>
      (diagnosed_storedType (identifier info name) name symbol).bind fun _ _ => .ok _
  | unary info op operand => fun inScope =>
    (diagnosed_typeOf result operand inScope.2).bind_required
      (typeOf_value table result inScope.2) fun _ => .ok _
  | binary info op lhs rhs => fun inScope => by
    refine (diagnosed_typeOf result lhs inScope.2.1).bind_required
      (typeOf_value table result inScope.2.1) fun left => ?_
    refine (diagnosed_typeOf result rhs inScope.2.2).bind_required
      (typeOf_value table result inScope.2.2) fun right => ?_
    split
    · exact .error
    · exact .ok _
  | call info callee arguments => fun inScope => by
    obtain ⟨_, isCallee, areValues⟩ := inScope
    refine (diagnosed_signature table info.pos isCallee).bind fun found _ => ?_
    obtain ⟨name, returnType, inputs⟩ := found
    dsimp only
    split
    · exact .error
    · exact (diagnosed_checkArguments result name 1 inputs arguments areValues).bind
        fun _ _ => .ok _
  | empty .. | program .. | function .. | parameter .. | returnValue .. | block .. | declaration ..
  | assignment .. | ifThen .. | ifElse .. => fun inScope => inScope.elim
theorem diagnosed_checkArguments (result : Option Ty) (name : String) (position : Nat)
    (inputs : List SymbolId) : (nodes : List Node) → ValuesIn scope nodes →
    Diagnosed (checkArguments table result name position inputs nodes)
  | [] => fun _ => by
    cases inputs <;> exact .ok _
  | node :: nodes => fun inScope => by
    cases inputs with
    | nil => exact .ok _
    | cons input inputs =>
      refine (diagnosed_typeOf result node inScope.1).bind_required
        (typeOf_value table result inScope.1) fun actual => ?_
      dsimp only
      split
      · exact .error
      · exact diagnosed_checkArguments result name (position + 1) inputs nodes inScope.2
end

end Values

/-! ## Statements -/

section Statements

variable (table : Table) {top : ScopeId}

theorem checks_declared {nodes : List Node}
    (declared : ∀ node ∈ nodes, node.IsDeclaration ∨ node.IsParameter) (current : Option Nat)
    (result : Option Ty) : checkNamesAll table current nodes = .ok current ∧
      checkTypesAll table result nodes = .ok () := by
  induction nodes with
  | nil => exact ⟨rfl, rfl⟩
  | cons node nodes ih =>
    obtain ⟨isDeclared, areDeclared⟩ := List.forall_mem_cons.1 declared
    cases node with
    | declaration | parameter => exact ih areDeclared
    | _ => exact (isDeclared.elim id id).elim

mutual
/-- The checks of a statement in a function that returns `result` fail only semantically. -/
theorem diagnosed_statement (result : Ty) : (node : Node) → ∀ {scope : ScopeId} {layout : Layout}
    {count : Nat}, node.ScopedIn table top scope layout count →
    (∀ current, Diagnosed (node.checkNames table current)) ∧
      Diagnosed (node.typeOf table (some result))
  | empty info => fun _ => ⟨fun _ => .ok _, .ok _⟩
  | returnValue info value => by
    rintro ⟨_, inScope⟩
    refine ⟨fun current => diagnosed_checkNames table current value inScope,
      (diagnosed_typeOf table _ value inScope).bind_required (typeOf_value table _ inScope)
        fun actual => ?_⟩
    dsimp only
    split
    · exact .error
    · exact .ok _
  | assignment info target value => by
    rintro ⟨attached, _, inScope⟩
    have symbol := diagnosed_symbolAt table (assignment info target value) attached target
    refine ⟨fun current => symbol.bind fun _ _ => diagnosed_checkNames table current value inScope,
      symbol.bind fun found _ => (diagnosed_storedType _ target found).bind fun expected _ =>
        (diagnosed_typeOf table _ value inScope).bind_required (typeOf_value table _ inScope)
          fun actual => ?_⟩
    split
    · exact .error
    · exact .ok _
  | ifThen info condition consequent => by
    rintro ⟨_, inScope, placed⟩
    obtain ⟨named, typed⟩ := diagnosed_statement result consequent placed
    exact ⟨fun current => (diagnosed_checkNames table current condition inScope).bind
        fun current' _ => named current',
      (diagnosed_typeOf table _ condition inScope).bind_required (typeOf_value table _ inScope)
        fun _ => typed.bind fun _ _ => .ok _⟩
  | ifElse info condition consequent alternative => by
    rintro ⟨_, inScope, placed, placed'⟩
    obtain ⟨named, typed⟩ := diagnosed_statement result consequent placed
    obtain ⟨named', typed'⟩ := diagnosed_statement result alternative placed'
    exact ⟨fun current => (diagnosed_checkNames table current condition inScope).bind
        fun current' _ => (named current').bind fun current'' _ => named' current'',
      (diagnosed_typeOf table _ condition inScope).bind_required (typeOf_value table _ inScope)
        fun _ => typed.bind fun _ _ => typed'.bind fun _ _ => .ok _⟩
  | block info declarations statements => by
    rintro ⟨inner, _, declared, _, _, placed⟩
    obtain ⟨named, typed⟩ := diagnosed_statements result statements placed
    have checks (current : Option Nat) := checks_declared table
      (fun node member => .inl (declared node member)) current (some result)
    constructor
    · intro current
      rw [checkNames, (checks current).1]
      exact named current
    · rw [typeOf, (checks none).2]
      exact typed.bind fun _ _ => .ok _
  | program .. | function .. | parameter .. | call .. | declaration .. | binary .. | unary ..
  | identifier .. | integer .. | real .. => fun placed => placed.elim
theorem diagnosed_statements (result : Ty) : (nodes : List Node) → ∀ {scope : ScopeId}
    {layout : Layout} {count : Nat}, ScopedAll table top scope layout count nodes →
    (∀ current, Diagnosed (checkNamesAll table current nodes)) ∧
      Diagnosed (checkTypesAll table (some result) nodes)
  | [] => fun _ => ⟨fun _ => .ok _, .ok _⟩
  | node :: nodes => by
    rintro ⟨placed, placed'⟩
    obtain ⟨named, typed⟩ := diagnosed_statement result node placed
    obtain ⟨named', typed'⟩ := diagnosed_statements result nodes placed'
    exact ⟨fun current => (named current).bind fun current' _ => named' current',
      typed.bind fun _ _ => typed'⟩
end

end Statements

/-! ## Programs -/

theorem diagnosed_function {table : Table} {node : Node} (placed : node.FunctionIn table)
    (current : Option Nat) (result : Option Ty) :
    Diagnosed (node.checkNames table current) ∧ Diagnosed (node.typeOf table result) := by
  cases node with
  | function info returnType name parameters body =>
    obtain ⟨symbol, top, _, areParameters, ⟨isGlobal, r, ps, ls, k, present, _⟩, _, _, placed⟩ :=
      placed
    obtain ⟨named, typed⟩ := diagnosed_statement table returnType body placed
    have checks (current : Option Nat) := checks_declared table
      (fun node member => .inr (areParameters node member)) current (some returnType)
    have enters : enterOrdinal table name current = .ok (some k) := by
      unfold enterOrdinal findGlobal?
      rw [isGlobal, Option.bind_some, present]
    constructor
    · rw [checkNames, enters, ok_bind, (checks (some k)).1]
      exact (named (some k)).bind fun _ _ => .ok _
    · rw [typeOf, (checks none).2]
      exact typed.bind fun _ _ => .ok _
  | _ => exact placed.elim

theorem diagnosed_functions {table : Table} {nodes : List Node}
    (placed : ∀ node ∈ nodes, node.FunctionIn table) (current : Option Nat) (result : Option Ty) :
    Diagnosed (checkNamesAll table current nodes) ∧
      Diagnosed (checkTypesAll table result nodes) := by
  induction nodes generalizing current with
  | nil => exact ⟨.ok _, .ok _⟩
  | cons node nodes ih =>
    obtain ⟨isPlaced, arePlaced⟩ := List.forall_mem_cons.1 placed
    obtain ⟨named, typed⟩ := diagnosed_function isPlaced current result
    exact ⟨named.bind fun current' _ => (ih arePlaced current').1,
      typed.bind fun _ _ => (ih arePlaced current).2⟩

/-- The checks of a resolved program fail only semantically. -/
theorem diagnosed_analyze {table : Table} {info : Info} {functions : List Node}
    (placed : ∀ node ∈ functions, node.FunctionIn table) :
    Diagnosed ((program info functions).analyze table) := by
  obtain ⟨named, typed⟩ := diagnosed_functions placed none none
  unfold analyze checkDeclarations checkTypes
  refine Diagnosed.bind ?_ fun _ _ => (typed.bind fun _ _ => .ok _).bind fun _ _ => .ok _
  dsimp only
  split
  · exact named.bind fun _ _ => .ok _
  · exact .error

/-- Resolving a program fails only on a name that is defined twice. -/
theorem diagnosed_resolve {source : String} {tree : Node} (parsed : Node.parse source = .ok tree) :
    Diagnosed tree.resolve.2 := by
  have isProgram := parse_isProgram parsed
  have notTypes := @parse_function_names source tree parsed
  cases tree with
  | program info functions =>
    rw [resolve_eq_walk]
    rw [walk]
    rcases decides_functions isProgram (notTypes rfl) knows_initial with
      ⟨⟨_, _, _, failed⟩, _⟩ | ⟨_, _, found, _⟩
    · rw [failed]
      exact .error
    · rw [found]
      exact .ok _
  | _ => exact isProgram.elim

end Node

/-- Parsing fails on a token or on a character of the source. -/
theorem Node.parse_error_category {source : String} {error : Error}
    (failed : Node.parse source = .error error) :
    error.category = .syntactic ∨ error.category = .lexical := by
  have ended : (lex source).Ended := lexFrom_ended .start source.toList
  rcases Lexing.parse_eq_error failed with ⟨pos, cause, rfl, _⟩ | ⟨rfl, exhausted⟩
  · exact .inl rfl
  · generalize lex source = lexing at ended exhausted
    cases ended with
    | whole _ isStop => exact absurd exhausted (run_program_ne_exhausted isStop)
    | failed => exact .inr rfl

/-- The analysis fails on mistakes in the source only. -/
theorem analyze_error_category {source : String} {error : Error}
    (failed : (analyze source).result = .error error) :
    error.category = .syntactic ∨ error.category = .lexical ∨ error.category = .semantic := by
  rw [result_analyze] at failed
  cases parsed : Node.parse source with
  | error error' =>
    rw [parsed] at failed
    cases failed
    exact (Node.parse_error_category parsed).imp id .inl
  | ok tree =>
    rw [parsed, ok_bind] at failed
    refine .inr (.inr ?_)
    refine Diagnosed.bind (Node.diagnosed_resolve parsed) (fun table resolved => ?_) error failed
    have found : tree.resolve = (tree.resolve.1, .ok table) := Prod.ext rfl resolved
    obtain ⟨info, functions, isTree, inTable⟩ :=
      Node.resolve_isProgram (Node.parse_isProgram parsed) found
    refine Diagnosed.bind ?_ fun _ _ => .ok _
    rw [isTree]
    exact Node.diagnosed_analyze inTable.placed

end MiniC
