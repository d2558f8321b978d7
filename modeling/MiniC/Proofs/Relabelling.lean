import MiniC.Compilation
import MiniC.Proofs.Walks

/-!
# Places and names do not matter

A relabelling gives every place another place and every name another name. Two names never become
one, and the names that the compiler itself brings along, those of types and temporaries, stay.

All stages behind the parser commute with it: what they make of a relabelled tree is what they make
of the tree, relabelled. No stage looks at a place except to report it, and of a name it only asks
whether it is another one.
-/

namespace MiniC

structure Relabelling where
  place : Position → Position
  name : String → String
  injective : ∀ {a b : String}, name a = name b → a = b
  types : ∀ ty : Ty, name ty.name = ty.name
  temporaries : ∀ n : Nat, name (Lower.temporaryName n) = Lower.temporaryName n

namespace Relabelling

variable (r : Relabelling)

/-! ## What is relabelled -/

/-- A token at another place. Its text stays, as no stage behind the parser reads it. -/
def token (token : Token) : Token := { token with pos := r.place token.pos }

def info (info : Info) : Info := { info with token := r.token info.token }

mutual
def node : Node → Node
  | .empty info => .empty (r.info info)
  | .program info functions => .program (r.info info) (nodes functions)
  | .function info returnType name parameters body =>
      .function (r.info info) returnType (r.name name) (nodes parameters) (node body)
  | .parameter info ty name => .parameter (r.info info) ty (r.name name)
  | .call info callee arguments => .call (r.info info) (node callee) (nodes arguments)
  | .returnValue info value => .returnValue (r.info info) (node value)
  | .block info declarations statements =>
      .block (r.info info) (nodes declarations) (nodes statements)
  | .declaration info ty name => .declaration (r.info info) ty (r.name name)
  | .assignment info target value => .assignment (r.info info) (r.name target) (node value)
  | .ifThen info condition consequent => .ifThen (r.info info) (node condition) (node consequent)
  | .ifElse info condition consequent alternative =>
      .ifElse (r.info info) (node condition) (node consequent) (node alternative)
  | .binary info op lhs rhs => .binary (r.info info) op (node lhs) (node rhs)
  | .unary info op operand => .unary (r.info info) op (node operand)
  | .identifier info name => .identifier (r.info info) (r.name name)
  | .integer info value => .integer (r.info info) value
  | .real info value => .real (r.info info) value
def nodes : List Node → List Node
  | [] => []
  | first :: others => node first :: nodes others
end

def symbol : Symbol → Symbol
  | .builtinType ty => .builtinType ty
  | .function name returnType parameters locals ordinal =>
      .function (r.name name) returnType parameters locals ordinal
  | .parameter name ty index => .parameter (r.name name) ty index
  | .localVariable name ty index => .localVariable (r.name name) ty index

def scope (scope : Scope) : Scope :=
  { scope with names := scope.names.map fun entry => (r.name entry.1, entry.2) }

def table (table : Table) : Table :=
  ⟨table.scopes.map r.scope, table.symbols.map r.symbol⟩

def operand : Operand → Operand
  | .name text => .name (r.name text)
  | .constant value => .constant value
  | .label target => .label target
  | .count arguments => .count arguments

def quad (quad : Quad) : Quad :=
  { quad with
    operand1 := quad.operand1.map r.operand
    operand2 := quad.operand2.map r.operand
    result := quad.result.map r.operand }

def functionCode (function : FunctionCode) : FunctionCode :=
  ⟨r.name function.name, function.body.map r.quad⟩

def code (code : Code) : Code := ⟨code.functions.map r.functionCode⟩

def syntacticCause : SyntacticCause → SyntacticCause
  | .expected kind found => .expected kind (r.token found)
  | .expectedExpression found => .expectedExpression (r.token found)
  | .unknownType word => .unknownType word

def semanticCause : SemanticCause → SemanticCause
  | .redefinition name => .redefinition (r.name name)
  | .missingMain => .missingMain
  | .undeclared name => .undeclared (r.name name)
  | .calledBeforeDefinition name => .calledBeforeDefinition (r.name name)
  | .notAVariable name => .notAVariable (r.name name)
  | .notAFunction name => .notAFunction (r.name name)
  | .returnMismatch actual expected => .returnMismatch actual expected
  | .assignmentMismatch target actual expected =>
      .assignmentMismatch (r.name target) actual expected
  | .operandMismatch op left right => .operandMismatch op left right
  | .argumentCount name expected actual => .argumentCount (r.name name) expected actual
  | .argumentMismatch name position actual expected =>
      .argumentMismatch (r.name name) position actual expected

def unsupportedCause : UnsupportedCause → UnsupportedCause
  | .returnType function ty => .returnType (r.name function) ty
  | .parameterType parameter ty => .parameterType (r.name parameter) ty
  | .variableType name ty => .variableType (r.name name) ty
  | .realConstant value pos => .realConstant value (r.place pos)

def internalCause : InternalCause → InternalCause
  | .alreadyDefined name scope => .alreadyDefined (r.name name) scope
  | .notAFunction name => .notAFunction (r.name name)
  | .declaredOutsideFunction token => .declaredOutsideFunction (r.token token)
  | .noScope kind pos => .noScope kind (r.place pos)
  | .functionNotGlobal name => .functionNotGlobal (r.name name)
  | .notAStatement kind pos => .notAStatement kind (r.place pos)
  | .notAnExpression kind pos => .notAnExpression kind (r.place pos)
  | .calleeWithoutName pos => .calleeWithoutName (r.place pos)
  | .malformedQuad quad wanted field => .malformedQuad (r.quad quad) wanted field
  | .noFunctionSymbol name => .noFunctionSymbol (r.name name)
  | .notInScope name => .notInScope (r.name name)
  | .noStackSlot kind name => .noStackSlot kind (r.name name)
  | .callOfNonFunction callee => .callOfNonFunction (r.name callee)
  | other => other

/-- Functions keep their names in faults: runs are compared where they have the same ones. -/
def evaluationCause : EvaluationCause → EvaluationCause
  | .unknownName name => .unknownName (r.name name)
  | .notStorage name kind => .notStorage (r.name name) kind
  | .noSlot name => .noSlot (r.name name)
  | other => other

def error : Error → Error
  | .lexical pos cause => .lexical (r.place pos) cause
  | .syntactic pos cause => .syntactic (r.place pos) (r.syntacticCause cause)
  | .semantic pos cause => .semantic (r.place pos) (r.semanticCause cause)
  | .unsupported cause => .unsupported (r.unsupportedCause cause)
  | .evaluation cause => .evaluation (r.evaluationCause cause)
  | .internal cause => .internal (r.internalCause cause)

/-- A failure is relabelled, and a value is taken to another value. -/
def result {α β : Type} (f : α → β) : Except Error α → Except Error β
  | .ok a => .ok (f a)
  | .error error => .error (r.error error)

@[simp] theorem result_ok {α β : Type} (f : α → β) (a : α) : r.result f (.ok a) = .ok (f a) := rfl

@[simp] theorem result_error {α β : Type} (f : α → β) (error : Error) :
    r.result f (.error error) = .error (r.error error) := rfl

/-- A chain of steps is relabelled step by step. -/
theorem result_bind {α β α' β' : Type} {f : α → α'} {g : β → β'} {first : Except Error α}
    {next : α → Except Error β} {next' : α' → Except Error β'}
    (same : ∀ a, next' (f a) = r.result g (next a)) :
    r.result f first >>= next' = r.result g (first >>= next) := by
  cases first with
  | ok a => exact same a
  | error error => rfl

@[simp] theorem kind_node (node : Node) : (r.node node).kind = node.kind := by
  cases node <;> rfl

@[simp] theorem info_node (node : Node) : (r.node node).info = r.info node.info := by
  cases node <;> rfl

theorem nodes_eq_map (nodes : List Node) : r.nodes nodes = nodes.map r.node := by
  induction nodes with
  | nil => rfl
  | cons node nodes ih => rw [Relabelling.nodes, ih, List.map_cons]

theorem scopeOf_node (node : Node) : (r.node node).scopeOf = r.result id node.scopeOf := by
  unfold Node.scopeOf Node.scope Node.pos
  rw [info_node, kind_node]
  cases attached : node.info.scope with
  | none => simp [info, attached, error, internalCause, token]
  | some scope => simp [info, attached]

/-! ## Symbol tables -/

@[simp] theorem name_symbol (symbol : Symbol) : (r.symbol symbol).name = r.name symbol.name := by
  cases symbol with
  | builtinType ty => exact (r.types ty).symm
  | _ => rfl

@[simp] theorem valueType?_symbol (symbol : Symbol) :
    (r.symbol symbol).valueType? = symbol.valueType? := by
  cases symbol <;> rfl

@[simp] theorem slot?_symbol (symbol : Symbol) : (r.symbol symbol).slot? = symbol.slot? := by
  cases symbol <;> rfl

@[simp] theorem kind_symbol (symbol : Symbol) : (r.symbol symbol).kind = symbol.kind := by
  cases symbol <;> rfl

@[simp] theorem isFunction_symbol (symbol : Symbol) :
    Table.isFunction (r.symbol symbol) = Table.isFunction symbol := by
  cases symbol <;> rfl

theorem find?_scope (scope : Scope) (name : String) :
    (r.scope scope).find? (r.name name) = scope.find? name := by
  -- No other name has become this one, so the search stops at the same entry.
  have same (entry : String × SymbolId) :
      decide (r.name entry.1 = r.name name) = decide (entry.1 = name) :=
    decide_eq_decide.2 ⟨r.injective, congrArg r.name⟩
  unfold Scope.find? Relabelling.scope
  rw [Array.find?_map, Option.map_map]
  simp only [Function.comp_def, same]

variable (table : Table)

@[simp] theorem scopes_table (scope : ScopeId) :
    (r.table table).scopes[scope]? = (table.scopes[scope]?).map r.scope :=
  Array.getElem?_map

@[simp] theorem symbols_table (id : SymbolId) :
    (r.table table).symbols[id]? = (table.symbols[id]?).map r.symbol :=
  Array.getElem?_map

@[simp] theorem size_scopes_table : (r.table table).scopes.size = table.scopes.size :=
  Array.size_map

@[simp] theorem size_symbols_table : (r.table table).symbols.size = table.symbols.size :=
  Array.size_map

@[simp] theorem lookupLocal_table (scope : ScopeId) (name : String) :
    (r.table table).lookupLocal scope (r.name name) = table.lookupLocal scope name := by
  unfold Table.lookupLocal
  rw [scopes_table]
  cases table.scopes[scope]? with
  | none => rfl
  | some scope => exact r.find?_scope scope name

theorem lookupWithin_table (name : String) (steps : Nat) (scope : ScopeId) :
    (r.table table).lookupWithin (r.name name) steps scope = table.lookupWithin name steps scope := by
  induction steps generalizing scope with
  | zero => exact r.lookupLocal_table table scope name
  | succ steps ih =>
    have outer : ((r.table table).scopes[scope]?).bind (·.outer) =
        (table.scopes[scope]?).bind (·.outer) := by
      rw [scopes_table]
      cases table.scopes[scope]? <;> rfl
    rw [Table.lookupWithin, Table.lookupWithin, lookupLocal_table, outer]
    simp only [ih]

theorem find?_table (scope : ScopeId) (name : String) :
    (r.table table).find? scope (r.name name) = (table.find? scope name).map r.symbol := by
  unfold Table.find? Table.lookup
  rw [lookupWithin_table]
  cases table.lookupWithin name scope scope with
  | none => rfl
  | some id => exact r.symbols_table table id

theorem findGlobal?_table (name : String) :
    (r.table table).findGlobal? (r.name name) = (table.findGlobal? name).map r.symbol := by
  unfold Table.findGlobal?
  rw [lookupLocal_table]
  cases table.lookupLocal Table.global name with
  | none => rfl
  | some id => exact r.symbols_table table id

theorem table_initial : r.table .initial = .initial := by
  have int : r.name "int" = "int" := r.types .int
  have double : r.name "double" = "double" := r.types .double
  simp [Relabelling.table, Table.initial, Relabelling.scope, Relabelling.symbol, int, double]

/-- Changing one entry of an array commutes with relabelling all of them. -/
theorem map_modify {α β : Type} {f : α → β} {g : α → α} {h : β → β} (array : Array α) (index : Nat)
    (same : ∀ a, f (g a) = h (f a)) :
    (array.modify index g).map f = (array.map f).modify index h := by
  apply Array.ext (by simp)
  intro i less less'
  simp only [Array.getElem_map, Array.getElem_modify]
  split
  · exact same _
  · rfl

theorem openScope_table (outer : ScopeId) :
    (r.table table).openScope outer = r.table (table.openScope outer) := by
  have level : (((r.table table).scopes[outer]?).map (·.level)).getD 0 =
      ((table.scopes[outer]?).map (·.level)).getD 0 := by
    rw [scopes_table]
    cases table.scopes[outer]? <;> rfl
  unfold Table.openScope
  rw [level, size_scopes_table]
  simp only [Relabelling.table, Array.map_push]
  rw [map_modify (f := r.scope) (h := (·.addInner table.scopes.size)) _ _ fun _ => rfl]
  simp [Relabelling.scope, Scope.openedIn]

/-- A symbol that was defined, and the table with it. -/
def defined (found : SymbolId × Table) : SymbolId × Table := (found.1, r.table found.2)

theorem define_table (scope : ScopeId) (symbol : Symbol) :
    (r.table table).define scope (r.symbol symbol) =
      r.result r.defined (table.define scope symbol) := by
  rw [Table.define_eq, Table.define_eq, name_symbol, lookupLocal_table, size_symbols_table]
  split
  · rfl
  · simp only [Relabelling.table, Table.enter, Table.store, result_ok, defined, Array.map_push]
    rw [map_modify (f := r.scope) (h := (·.add (r.name symbol.name) table.symbols.size))]
    intro found
    simp [Relabelling.scope, Scope.add]

theorem defineFunction_table (scope : ScopeId) (name : String) (returnType : Ty) :
    (r.table table).defineFunction scope (r.name name) returnType =
      r.result r.defined (table.defineFunction scope name returnType) := by
  have count : (r.table table).symbols.countP Table.isFunction =
      table.symbols.countP Table.isFunction := by
    simp [Relabelling.table, Array.countP_map, Function.comp_def]
  rw [Table.defineFunction_eq, Table.defineFunction_eq, count]
  exact r.define_table table scope (.function name returnType #[] #[] _)

theorem parameters_table (function : SymbolId) :
    (r.table table).parameters function = r.result id (table.parameters function) := by
  unfold Table.parameters
  rw [symbols_table]
  cases table.symbols[function]? with
  | none => rfl
  | some symbol =>
    cases symbol with
    | builtinType ty => simp [Relabelling.symbol, error, internalCause, Symbol.name, r.types]
    | _ => rfl

theorem locals_table (function : SymbolId) :
    (r.table table).locals function = r.result id (table.locals function) := by
  unfold Table.locals
  rw [symbols_table]
  cases table.symbols[function]? with
  | none => rfl
  | some symbol =>
    cases symbol with
    | builtinType ty => simp [Relabelling.symbol, error, internalCause, Symbol.name, r.types]
    | _ => rfl

theorem defineParameter_table (scope : ScopeId) (function : SymbolId) (name : String) (ty : Ty) :
    (r.table table).defineParameter scope function (r.name name) ty =
      r.result r.defined (table.defineParameter scope function name ty) := by
  rw [Table.defineParameter_eq, Table.defineParameter_eq, parameters_table]
  refine r.result_bind fun earlier => ?_
  refine Eq.trans (congrArg (· >>= _) (r.define_table table scope (.parameter name ty _))) ?_
  refine r.result_bind fun found => ?_
  simp only [defined, Relabelling.table, Table.register]
  rw [← map_modify]
  · rfl
  · intro symbol
    cases symbol <;> rfl

theorem defineVariable_table (scope : ScopeId) (function : SymbolId) (name : String) (ty : Ty) :
    (r.table table).defineVariable scope function (r.name name) ty =
      r.result r.defined (table.defineVariable scope function name ty) := by
  rw [Table.defineVariable_eq, Table.defineVariable_eq, locals_table]
  refine r.result_bind fun earlier => ?_
  refine Eq.trans (congrArg (· >>= _) (r.define_table table scope (.localVariable name ty _))) ?_
  refine r.result_bind fun found => ?_
  simp only [defined, Relabelling.table, Table.register]
  rw [← map_modify]
  · rfl
  · intro symbol
    cases symbol <;> rfl

/-! ## Resolution -/

section Resolution

open Resolution

/-- A part that was walked through, and the table or the failure. -/
def walked {α β : Type} (f : α → β) (walked : Walked α) : Walked β :=
  (f walked.1, r.result r.table walked.2)

theorem map_walked {α β α' β' : Type} {f : α → α'} {g : β → β'} {build : α → β} {build' : α' → β'}
    (same : ∀ a, build' (f a) = g (build a)) (walked : Walked α) :
    (r.walked f walked).map build' = r.walked g (walked.map build) :=
  Prod.ext (same walked.1) rfl

theorem andThen_walked {α β α' β' : Type} {f : α → α'} {g : β → β'} {second : Table → Walked β}
    {second' : Table → Walked β'}
    (same : ∀ table, second' (r.table table) = r.walked g (second table))
    (first : Walked α) (unvisited : β) :
    (r.walked f first).andThen second' (g unvisited) =
      r.walked (Prod.map f g) (first.andThen second unvisited) := by
  obtain ⟨a, found⟩ := first
  cases found with
  | error error => rfl
  | ok table =>
    simp only [Walked.andThen, walked, result_ok, same]
    rfl

theorem ensureNew_table (scope : ScopeId) (name : String) (token : Token) :
    ensureNew (r.table table) scope (r.name name) (r.token token) =
      r.result id (ensureNew table scope name token) := by
  unfold ensureNew
  rw [lookupLocal_table]
  split <;> rfl

theorem enclosingFunction_token (ctx : Context) (token : Token) :
    enclosingFunction ctx (r.token token) = r.result id (enclosingFunction ctx token) := by
  unfold enclosingFunction
  cases ctx.function <;> rfl

theorem declareParameter_table (ctx : Context) (token : Token) (name : String) (ty : Ty) :
    declareParameter ctx (r.token token) (r.name name) ty (r.table table) =
      r.result r.table (declareParameter ctx token name ty table) := by
  unfold declareParameter
  rw [ensureNew_table, enclosingFunction_token]
  refine r.result_bind fun _ => r.result_bind fun function => ?_
  rw [id, defineParameter_table]
  exact r.result_bind fun _ => rfl

theorem declareVariable_table (ctx : Context) (token : Token) (name : String) (ty : Ty) :
    declareVariable ctx (r.token token) (r.name name) ty (r.table table) =
      r.result r.table (declareVariable ctx token name ty table) := by
  unfold declareVariable
  rw [ensureNew_table, enclosingFunction_token]
  refine r.result_bind fun _ => r.result_bind fun function => ?_
  rw [id, defineVariable_table]
  exact r.result_bind fun _ => rfl

theorem enterFunction_table (ctx : Context) (token : Token) (name : String) (returnType : Ty) :
    enterFunction ctx (r.token token) (r.name name) returnType (r.table table) =
      r.result (Prod.map id r.table) (enterFunction ctx token name returnType table) := by
  unfold enterFunction
  rw [ensureNew_table, defineFunction_table]
  refine r.result_bind fun _ => r.result_bind fun found => ?_
  simp only [defined, size_scopes_table, openScope_table]
  rfl

mutual
/-- Walking through a relabelled tree. -/
theorem walk_node (ctx : Context) (table : Table) : (node : Node) →
    (r.node node).walk ctx (r.table table) = r.walked r.node (node.walk ctx table)
  | .empty _ | .identifier .. | .integer .. | .real .. => rfl
  | .program _ functions => by
    rw [Relabelling.node, Node.walk, Node.walk, walk_nodes]
    exact r.map_walked (fun _ => rfl) _
  | .function info returnType name parameters body => by
    rw [Relabelling.node, Node.walk, Node.walk]
    rw [show (r.info info).token = r.token info.token from rfl, enterFunction_table]
    cases enterFunction ctx info.token name returnType table with
    | error error => rfl
    | ok entered =>
      obtain ⟨inside, table⟩ := entered
      simp only [result_ok, Prod.map, id]
      rw [walk_nodes, r.andThen_walked fun table => walk_node inside table body]
      exact r.map_walked (fun _ => rfl) _
  | .parameter info ty name => by
    rw [Relabelling.node, Node.walk, Node.walk]
    exact Prod.ext rfl (r.declareParameter_table table ctx info.token name ty)
  | .declaration info ty name => by
    rw [Relabelling.node, Node.walk, Node.walk]
    exact Prod.ext rfl (r.declareVariable_table table ctx info.token name ty)
  | .call _ callee arguments => by
    rw [Relabelling.node, Node.walk, Node.walk, walk_node _ _ callee,
      r.andThen_walked fun table => walk_nodes ctx table arguments]
    exact r.map_walked (fun _ => rfl) _
  | .returnValue _ value => by
    rw [Relabelling.node, Node.walk, Node.walk, walk_node _ _ value]
    exact r.map_walked (fun _ => rfl) _
  | .block _ declarations statements => by
    rw [Relabelling.node, Node.walk, Node.walk]
    simp only [openScope_table, size_scopes_table]
    rw [walk_nodes _ _ declarations, r.andThen_walked fun table => walk_nodes _ table statements]
    exact r.map_walked (fun _ => rfl) _
  | .assignment _ _ value => by
    rw [Relabelling.node, Node.walk, Node.walk, walk_node _ _ value]
    exact r.map_walked (fun _ => rfl) _
  | .ifThen _ condition consequent => by
    rw [Relabelling.node, Node.walk, Node.walk, walk_node _ _ condition,
      r.andThen_walked fun table => walk_node ctx table consequent]
    exact r.map_walked (fun _ => rfl) _
  | .ifElse _ condition consequent alternative => by
    rw [Relabelling.node, Node.walk, Node.walk, walk_node _ _ condition,
      r.andThen_walked fun table => walk_node ctx table consequent,
      r.andThen_walked fun table => walk_node ctx table alternative]
    exact r.map_walked (fun _ => rfl) _
  | .binary _ _ lhs rhs => by
    rw [Relabelling.node, Node.walk, Node.walk, walk_node _ _ lhs,
      r.andThen_walked fun table => walk_node ctx table rhs]
    exact r.map_walked (fun _ => rfl) _
  | .unary _ _ operand => by
    rw [Relabelling.node, Node.walk, Node.walk, walk_node _ _ operand]
    exact r.map_walked (fun _ => rfl) _
theorem walk_nodes (ctx : Context) (table : Table) : (nodes : List Node) →
    Node.walkAll ctx (r.table table) (r.nodes nodes) =
      r.walked r.nodes (Node.walkAll ctx table nodes)
  | [] => rfl
  | node :: nodes => by
    rw [Relabelling.nodes, Node.walkAll, Node.walkAll, walk_node _ _ node,
      r.andThen_walked fun table => walk_nodes ctx table nodes]
    exact r.map_walked (fun _ => rfl) _
end

theorem resolve_node (node : Node) : (r.node node).resolve = r.walked r.node node.resolve := by
  have found := r.walk_node ⟨Table.global, none⟩ .initial node
  rwa [table_initial, ← Node.resolve_eq_walk, ← Node.resolve_eq_walk] at found

end Resolution

/-! ## Checks -/

theorem symbolAt_node (node : Node) (name : String) :
    (r.node node).symbolAt (r.table table) (r.name name) =
      r.result r.symbol (node.symbolAt table name) := by
  unfold Node.symbolAt Node.pos
  rw [scopeOf_node]
  refine r.result_bind fun scope => ?_
  rw [id, find?_table]
  cases table.find? scope name with
  | none =>
    rw [info_node]
    rfl
  | some symbol => rfl

theorem checkCallee_node (current : Option Nat) (node : Node) :
    Node.checkCallee (r.table table) current (r.node node) =
      r.result id (Node.checkCallee table current node) := by
  cases node with
  | identifier info name =>
    have found := r.symbolAt_node table (.identifier info name) name
    rw [Relabelling.node] at found ⊢
    rw [Node.checkCallee, Node.checkCallee, found]
    refine r.result_bind fun symbol => ?_
    cases symbol with
    | function _ _ _ _ ordinal =>
      cases current with
      | none => rfl
      | some current =>
        simp only [Relabelling.symbol]
        split <;> rfl
    | _ => rfl
  | _ => rfl

theorem enterOrdinal_table (name : String) (current : Option Nat) :
    Node.enterOrdinal (r.table table) (r.name name) current =
      r.result id (Node.enterOrdinal table name current) := by
  unfold Node.enterOrdinal
  rw [findGlobal?_table]
  cases table.findGlobal? name with
  | none => rfl
  | some symbol => cases symbol <;> rfl

mutual
/-- The check of names on a relabelled tree. -/
theorem checkNames_node (current : Option Nat) : (node : Node) →
    (r.node node).checkNames (r.table table) current = r.result id (node.checkNames table current)
  | .empty _ | .parameter .. | .declaration .. | .integer .. | .real .. => rfl
  | .program _ functions => checkNames_nodes current functions
  | .function _ _ name parameters body => by
    rw [Relabelling.node, Node.checkNames, Node.checkNames, enterOrdinal_table]
    refine r.result_bind fun inside => ?_
    rw [checkNames_nodes _ parameters]
    refine r.result_bind fun inside => ?_
    rw [checkNames_node _ body]
    exact r.result_bind fun _ => rfl
  | .call _ callee arguments => by
    rw [Relabelling.node, Node.checkNames, Node.checkNames, checkCallee_node]
    refine r.result_bind fun _ => ?_
    rw [checkNames_node _ callee]
    exact r.result_bind fun current => checkNames_nodes current arguments
  | .returnValue _ value => checkNames_node current value
  | .block _ declarations statements => by
    rw [Relabelling.node, Node.checkNames, Node.checkNames, checkNames_nodes _ declarations]
    exact r.result_bind fun current => checkNames_nodes current statements
  | .assignment info target value => by
    have found := r.symbolAt_node table (.assignment info target value) target
    rw [Relabelling.node] at found ⊢
    rw [Node.checkNames, Node.checkNames, found]
    exact r.result_bind fun _ => checkNames_node current value
  | .ifThen _ condition consequent => by
    rw [Relabelling.node, Node.checkNames, Node.checkNames, checkNames_node _ condition]
    exact r.result_bind fun current => checkNames_node current consequent
  | .ifElse _ condition consequent alternative => by
    rw [Relabelling.node, Node.checkNames, Node.checkNames, checkNames_node _ condition]
    refine r.result_bind fun current => ?_
    rw [checkNames_node _ consequent]
    exact r.result_bind fun current => checkNames_node current alternative
  | .binary _ _ lhs rhs => by
    rw [Relabelling.node, Node.checkNames, Node.checkNames, checkNames_node _ lhs]
    exact r.result_bind fun current => checkNames_node current rhs
  | .unary _ _ operand => checkNames_node current operand
  | .identifier info name => by
    have found := r.symbolAt_node table (.identifier info name) name
    rw [Relabelling.node] at found ⊢
    rw [Node.checkNames, Node.checkNames, found]
    exact r.result_bind fun _ => rfl
theorem checkNames_nodes (current : Option Nat) : (nodes : List Node) →
    Node.checkNamesAll (r.table table) current (r.nodes nodes) =
      r.result id (Node.checkNamesAll table current nodes)
  | [] => rfl
  | node :: nodes => by
    rw [Relabelling.nodes, Node.checkNamesAll, Node.checkNamesAll, checkNames_node _ node]
    exact r.result_bind fun current => checkNames_nodes current nodes
end

theorem storedType_node (node : Node) (name : String) (symbol : Symbol) :
    (r.node node).storedType (r.name name) (r.symbol symbol) =
      r.result id (node.storedType name symbol) := by
  unfold Node.storedType Node.pos
  rw [valueType?_symbol, info_node]
  cases symbol.valueType? <;> rfl

/-- The signature of a function that has another name. -/
def signature (found : String × Ty × List SymbolId) : String × Ty × List SymbolId :=
  (r.name found.1, found.2)

theorem signature_node (pos : Position) (node : Node) :
    Node.signature (r.table table) (r.place pos) (r.node node) =
      r.result r.signature (Node.signature table pos node) := by
  cases node with
  | identifier info name =>
    have found := r.symbolAt_node table (.identifier info name) name
    rw [Relabelling.node] at found ⊢
    rw [Node.signature, Node.signature, found]
    refine r.result_bind fun symbol => ?_
    cases symbol <;> rfl
  | _ => rfl

theorem required_node (node : Node) (ty : Option Ty) :
    Node.required (r.node node) ty = r.result id (Node.required node ty) := by
  cases ty with
  | some ty => rfl
  | none =>
    rw [Node.required, Node.required, kind_node]
    rfl

/-- The type of an expression that must have one. -/
theorem bind_required {β : Type} {node : Node} {found : Except Error (Option Ty)}
    {next : Ty → Except Error β} {next' : Ty → Except Error β}
    (same : ∀ ty, next' ty = r.result id (next ty)) :
    (r.result id found >>= fun ty => Node.required (r.node node) ty >>= next') =
      r.result id (found >>= fun ty => Node.required node ty >>= next) := by
  refine r.result_bind fun ty => ?_
  rw [required_node]
  exact r.result_bind same

mutual
/-- The check of types on a relabelled tree. -/
theorem typeOf_node (result : Option Ty) : (node : Node) →
    (r.node node).typeOf (r.table table) result = r.result id (node.typeOf table result)
  | .empty _ | .parameter .. | .declaration .. | .integer .. | .real .. => rfl
  | .program _ functions => by
    rw [Relabelling.node, Node.typeOf, Node.typeOf, checkTypes_nodes]
    exact r.result_bind fun _ => rfl
  | .function _ returnType _ parameters body => by
    rw [Relabelling.node, Node.typeOf, Node.typeOf, checkTypes_nodes]
    refine r.result_bind fun _ => ?_
    rw [typeOf_node _ body]
    exact r.result_bind fun _ => rfl
  | .call info callee arguments => by
    rw [Relabelling.node, Node.typeOf, Node.typeOf]
    rw [show (r.info info).pos = r.place info.pos from rfl, signature_node]
    refine r.result_bind fun found => ?_
    obtain ⟨name, returnType, parameters⟩ := found
    have length : (r.nodes arguments).length = arguments.length := by
      rw [nodes_eq_map, List.length_map]
    simp only [signature, length]
    split
    · rfl
    · rw [checkArguments_nodes _ _ _ _ arguments]
      exact r.result_bind fun _ => rfl
  | .returnValue info value => by
    rw [Relabelling.node, Node.typeOf, Node.typeOf, typeOf_node _ value]
    refine r.bind_required fun actual => ?_
    cases result with
    | none => rfl
    | some expected =>
      dsimp only
      split <;> rfl
  | .block _ declarations statements => by
    rw [Relabelling.node, Node.typeOf, Node.typeOf, checkTypes_nodes _ declarations]
    refine r.result_bind fun _ => ?_
    rw [checkTypes_nodes _ statements]
    exact r.result_bind fun _ => rfl
  | .assignment info target value => by
    have found := r.symbolAt_node table (.assignment info target value) target
    have stored := r.storedType_node (.assignment info target value) target
    rw [Relabelling.node] at found stored ⊢
    rw [Node.typeOf, Node.typeOf, found]
    refine r.result_bind fun symbol => ?_
    rw [stored]
    refine r.result_bind fun expected => ?_
    rw [typeOf_node _ value]
    refine r.bind_required fun actual => ?_
    dsimp only [id]
    split <;> rfl
  | .ifThen _ condition consequent => by
    rw [Relabelling.node, Node.typeOf, Node.typeOf, typeOf_node _ condition]
    refine r.bind_required fun _ => ?_
    rw [typeOf_node _ consequent]
    exact r.result_bind fun _ => rfl
  | .ifElse _ condition consequent alternative => by
    rw [Relabelling.node, Node.typeOf, Node.typeOf, typeOf_node _ condition]
    refine r.bind_required fun _ => ?_
    rw [typeOf_node _ consequent]
    refine r.result_bind fun _ => ?_
    rw [typeOf_node _ alternative]
    exact r.result_bind fun _ => rfl
  | .binary info op lhs rhs => by
    rw [Relabelling.node, Node.typeOf, Node.typeOf, typeOf_node _ lhs]
    refine r.bind_required fun left => ?_
    rw [typeOf_node _ rhs]
    refine r.bind_required fun right => ?_
    dsimp only
    split <;> rfl
  | .unary _ _ operand => by
    rw [Relabelling.node, Node.typeOf, Node.typeOf, typeOf_node _ operand]
    exact r.bind_required fun _ => rfl
  | .identifier info name => by
    have found := r.symbolAt_node table (.identifier info name) name
    have stored := r.storedType_node (.identifier info name) name
    rw [Relabelling.node] at found stored ⊢
    rw [Node.typeOf, Node.typeOf, found]
    refine r.result_bind fun symbol => ?_
    rw [stored]
    exact r.result_bind fun _ => rfl
theorem checkTypes_nodes (result : Option Ty) : (nodes : List Node) →
    Node.checkTypesAll (r.table table) result (r.nodes nodes) =
      r.result id (Node.checkTypesAll table result nodes)
  | [] => rfl
  | node :: nodes => by
    rw [Relabelling.nodes, Node.checkTypesAll, Node.checkTypesAll, typeOf_node _ node]
    exact r.result_bind fun _ => checkTypes_nodes result nodes
theorem checkArguments_nodes (result : Option Ty) (name : String) (position : Nat)
    (inputs : List SymbolId) : (nodes : List Node) →
    Node.checkArguments (r.table table) result (r.name name) position inputs (r.nodes nodes) =
      r.result id (Node.checkArguments table result name position inputs nodes)
  | [] => by cases inputs <;> rfl
  | node :: nodes => by
    cases inputs with
    | nil => rfl
    | cons input inputs =>
      have expected : ((r.table table).symbols[input]?).bind (·.valueType?) =
          (table.symbols[input]?).bind (·.valueType?) := by
        rw [symbols_table]
        cases table.symbols[input]? <;> simp
      rw [Relabelling.nodes, Node.checkArguments, Node.checkArguments, typeOf_node _ node]
      refine r.bind_required fun actual => ?_
      simp only [expected, Node.pos, info_node]
      split
      · rfl
      · exact checkArguments_nodes result name _ inputs nodes
end

/-! ## Folding -/

theorem foldBinary?_node (info : Info) (op : BinaryOp) (lhs rhs : Node) :
    Node.foldBinary? (r.info info) op (r.node lhs) (r.node rhs) =
      (Node.foldBinary? info op lhs rhs).map r.node := by
  cases lhs <;> cases rhs <;> try rfl
  simp only [Relabelling.node, Node.foldBinary?, Option.map_map]
  rfl

theorem foldUnary?_node (info : Info) (op : UnaryOp) (operand : Node) :
    Node.foldUnary? (r.info info) op (r.node operand) =
      (Node.foldUnary? info op operand).map r.node := by
  cases operand <;> rfl

mutual
/-- Folding a relabelled tree. -/
theorem fold_node : (node : Node) → (r.node node).fold = r.node node.fold
  | .empty _ | .parameter .. | .declaration .. | .identifier .. | .integer .. | .real .. => rfl
  | .program _ functions => by simp [Relabelling.node, Node.fold, fold_nodes functions]
  | .function _ _ _ _ body => by simp [Relabelling.node, Node.fold, fold_node body]
  | .call _ _ arguments => by simp [Relabelling.node, Node.fold, fold_nodes arguments]
  | .returnValue _ value => by simp [Relabelling.node, Node.fold, fold_node value]
  | .block _ _ statements => by simp [Relabelling.node, Node.fold, fold_nodes statements]
  | .assignment _ _ value => by simp [Relabelling.node, Node.fold, fold_node value]
  | .ifThen _ condition consequent => by
    simp [Relabelling.node, Node.fold, fold_node condition, fold_node consequent]
  | .ifElse _ condition consequent alternative => by
    simp [Relabelling.node, Node.fold, fold_node condition, fold_node consequent,
      fold_node alternative]
  | .binary info op lhs rhs => by
    simp only [Relabelling.node, Node.fold, fold_node lhs, fold_node rhs, foldBinary?_node]
    cases Node.foldBinary? info op lhs.fold rhs.fold <;> rfl
  | .unary info op operand => by
    simp only [Relabelling.node, Node.fold, fold_node operand, foldUnary?_node]
    cases Node.foldUnary? info op operand.fold <;> rfl
theorem fold_nodes : (nodes : List Node) → Node.foldAll (r.nodes nodes) = r.nodes (Node.foldAll nodes)
  | [] => rfl
  | node :: nodes => by simp [Relabelling.nodes, Node.foldAll, fold_node node, fold_nodes nodes]
end

end Relabelling
end MiniC
