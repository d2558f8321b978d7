import MiniC.Proofs.Accepting
import MiniC.Proofs.Relabelling

/-!
# The code of a relabelled program

Lowering commutes with a relabelling, and so do the stages behind it. Assembly names nothing but
functions: variables have become places of the frame. So where all functions keep their names, the
listing stays the same, and a run gives the same value.
-/

namespace MiniC

namespace Relabelling

variable (r : Relabelling) (table : Table)

/-! ## Lowering -/

section Lowering

open Lower

def lowering (state : Lowering) : Lowering := { state with table := r.table state.table }

/-- What a step of lowering gives and leaves behind. -/
def lowered {α β : Type} (f : α → β) :
    EStateM.Result Error Lowering α → EStateM.Result Error Lowering β
  | .ok a state => .ok (f a) (r.lowering state)
  | .error error state => .error (r.error error) (r.lowering state)

/-- The two steps do the same, up to the relabelling. -/
def Lowers {α β : Type} (f : α → β) (step : Lower α) (step' : Lower β) : Prop :=
  ∀ state, step' (r.lowering state) = r.lowered f (step state)

variable {r} in
theorem Lowers.bind {α β α' β' : Type} {f : α → α'} {g : β → β'} {first : Lower α}
    {first' : Lower α'} {next : α → Lower β} {next' : α' → Lower β'} (same : r.Lowers f first first')
    (later : ∀ a, r.Lowers g (next a) (next' (f a))) :
    r.Lowers g (first >>= next) (first' >>= next') := by
  intro state
  show EStateM.bind first' next' (r.lowering state) = r.lowered g (EStateM.bind first next state)
  unfold EStateM.bind
  rw [same state]
  cases first state with
  | ok a middle => exact later a middle
  | error error middle => rfl

theorem lowers_pure {α β : Type} {f : α → β} {a : α} {b : β} (same : b = f a) :
    r.Lowers f (pure a) (pure b) := by
  subst same
  exact fun state => rfl

theorem lowers_throw {α β : Type} {f : α → β} {error error' : Error}
    (same : error' = r.error error) : r.Lowers f (throw error) (throw error') := by
  subst same
  exact fun state => rfl

theorem lowers_require {α β : Type} {f : α → β} {found : Except Error α} {found' : Except Error β}
    (same : found' = r.result f found) : r.Lowers f (require found) (require found') := by
  subst same
  intro state
  cases found <;> rfl

theorem lowers_freshLabel : r.Lowers id freshLabel freshLabel := fun _ => rfl

theorem lowers_freshTemporary (frame : Frame) :
    r.Lowers r.name (freshTemporary frame) (freshTemporary frame) := by
  intro state
  have found := r.defineVariable_table state.table frame.scope frame.symbol
    (temporaryName state.temporaries) .int
  rw [r.temporaries] at found
  rw [freshTemporary_eq, freshTemporary_eq]
  rw [show (r.lowering state).temporaries = state.temporaries from rfl,
    show (r.lowering state).table = r.table state.table from rfl, found]
  cases state.table.defineVariable frame.scope frame.symbol (temporaryName state.temporaries) .int with
  | error error => rfl
  | ok defined =>
    simp only [result_ok, lowered, r.temporaries]
    rfl

/-- Code, and the name or names that hold what it computes. -/
def value (found : List Quad × String) : List Quad × String :=
  (found.1.map r.quad, r.name found.2)

def values (found : List Quad × List String) : List Quad × List String :=
  (found.1.map r.quad, found.2.map r.name)

@[simp] theorem quad_load (value : Int32) (result : String) (scope : ScopeId) :
    r.quad (.load value result scope) = .load value (r.name result) scope := rfl

@[simp] theorem quad_assign (source target : String) (scope : ScopeId) :
    r.quad (.assign source target scope) = .assign (r.name source) (r.name target) scope := rfl

@[simp] theorem quad_param (value : String) (scope : ScopeId) :
    r.quad (.param value scope) = .param (r.name value) scope := rfl

@[simp] theorem quad_call (callee : String) (arguments : Nat) (result : String) (scope : ScopeId) :
    r.quad (.call callee arguments result scope) =
      .call (r.name callee) arguments (r.name result) scope := rfl

@[simp] theorem quad_ret (exit : Label) (value : String) (scope : ScopeId) :
    r.quad (.ret exit value scope) = .ret exit (r.name value) scope := rfl

@[simp] theorem quad_mark (label : Label) (scope : ScopeId) :
    r.quad (.mark label scope) = .mark label scope := rfl

@[simp] theorem quad_jump (label : Label) (scope : ScopeId) :
    r.quad (.jump label scope) = .jump label scope := rfl

@[simp] theorem quad_jumpIfNot (condition : String) (label : Label) (scope : ScopeId) :
    r.quad (.jumpIfNot condition label scope) = .jumpIfNot (r.name condition) label scope := rfl

@[simp] theorem quad_binary (op : BinaryOp) (lhs rhs result : String) (scope : ScopeId) :
    r.quad (.binary op lhs rhs result scope) =
      .binary op (r.name lhs) (r.name rhs) (r.name result) scope := by
  cases op <;> rfl

@[simp] theorem quad_unary (op : UnaryOp) (operand result : String) (scope : ScopeId) :
    r.quad (.unary op operand result scope) = .unary op (r.name operand) (r.name result) scope := by
  cases op <;> rfl

mutual
/-- Lowering a relabelled expression. -/
theorem lowers_value (frame : Frame) : (node : Node) →
    r.Lowers r.value (node.lowerValue frame) ((r.node node).lowerValue frame)
  | .identifier info name => by
    have scope := r.scopeOf_node (.identifier info name)
    rw [Relabelling.node] at scope ⊢
    rw [Node.lowerValue, Node.lowerValue]
    exact (r.lowers_require scope).bind fun _ => r.lowers_pure rfl
  | .integer info value => by
    have scope := r.scopeOf_node (.integer info value)
    rw [Relabelling.node] at scope ⊢
    rw [Node.lowerValue, Node.lowerValue]
    refine (r.lowers_require scope).bind fun _ => (r.lowers_freshTemporary frame).bind fun result =>
      r.lowers_pure ?_
    simp [Relabelling.value]
  | .real info value => by
    have scope := r.scopeOf_node (.real info value)
    rw [Relabelling.node] at scope ⊢
    rw [Node.lowerValue, Node.lowerValue]
    exact (r.lowers_require scope).bind fun _ => r.lowers_throw rfl
  | .binary info op lhs rhs => by
    have scope := r.scopeOf_node (.binary info op lhs rhs)
    rw [Relabelling.node] at scope ⊢
    rw [Node.lowerValue, Node.lowerValue]
    refine (r.lowers_require scope).bind fun _ => (lowers_value frame lhs).bind fun first =>
      (lowers_value frame rhs).bind fun second => (r.lowers_freshTemporary frame).bind fun result =>
        r.lowers_pure ?_
    simp [value]
  | .unary info op operand => by
    have scope := r.scopeOf_node (.unary info op operand)
    rw [Relabelling.node] at scope ⊢
    rw [Node.lowerValue, Node.lowerValue]
    refine (r.lowers_require scope).bind fun _ => (lowers_value frame operand).bind fun first =>
      (r.lowers_freshTemporary frame).bind fun result => r.lowers_pure ?_
    simp [value]
  | .call info callee arguments => by
    have scope := r.scopeOf_node (.call info callee arguments)
    rw [Relabelling.node] at scope ⊢
    rw [Node.lowerValue, Node.lowerValue]
    refine (r.lowers_require scope).bind fun scope => ?_
    cases callee with
    | identifier info' name =>
      refine (lowers_values frame arguments).bind fun found =>
        (r.lowers_freshTemporary frame).bind fun result => r.lowers_pure ?_
      simp [value, Function.comp_def]
    | _ => exact r.lowers_throw rfl
  | .empty info | .program info _ | .function info _ _ _ _ | .parameter info _ _
  | .returnValue info _ | .block info _ _ | .declaration info _ _ | .assignment info _ _
  | .ifThen info _ _ | .ifElse info _ _ _ =>
    (r.lowers_require (r.scopeOf_node _)).bind fun _ => r.lowers_throw rfl
theorem lowers_values (frame : Frame) : (nodes : List Node) →
    r.Lowers r.values (Node.lowerValues frame nodes) (Node.lowerValues frame (r.nodes nodes))
  | [] => fun _ => rfl
  | node :: nodes => by
    rw [Relabelling.nodes, Node.lowerValues, Node.lowerValues]
    refine (lowers_value frame node).bind fun first => (lowers_values frame nodes).bind fun second =>
      r.lowers_pure ?_
    simp [values]
end

theorem requireIntVariables_nodes (nodes : List Node) :
    Node.requireIntVariables (r.nodes nodes) = r.result id (Node.requireIntVariables nodes) := by
  induction nodes with
  | nil => rfl
  | cons node nodes ih =>
    cases node with
    | declaration info ty name =>
      simp only [Relabelling.nodes, Relabelling.node, Node.requireIntVariables, ih]
      split <;> rfl
    | _ => exact ih

theorem requireIntParameters_nodes (nodes : List Node) :
    Node.requireIntParameters (r.nodes nodes) = r.result id (Node.requireIntParameters nodes) := by
  induction nodes with
  | nil => rfl
  | cons node nodes ih =>
    cases node with
    | parameter info ty name =>
      simp only [Relabelling.nodes, Relabelling.node, Node.requireIntParameters, ih]
      split <;> rfl
    | _ => exact ih

mutual
/-- Lowering a relabelled statement. -/
theorem lowers_statement (frame : Frame) : (node : Node) →
    r.Lowers (List.map r.quad) (node.lowerStatement frame) ((r.node node).lowerStatement frame)
  | .empty info => (r.lowers_require (r.scopeOf_node (.empty info))).bind fun _ => r.lowers_pure rfl
  | .block info declarations statements => by
    have scope := r.scopeOf_node (.block info declarations statements)
    rw [Relabelling.node] at scope ⊢
    rw [Node.lowerStatement, Node.lowerStatement]
    exact (r.lowers_require scope).bind fun _ =>
      (r.lowers_require (r.requireIntVariables_nodes declarations)).bind fun _ =>
        lowers_statements frame statements
  | .returnValue info value => by
    have scope := r.scopeOf_node (.returnValue info value)
    rw [Relabelling.node] at scope ⊢
    rw [Node.lowerStatement, Node.lowerStatement]
    refine (r.lowers_require scope).bind fun _ => (r.lowers_value frame value).bind fun found =>
      r.lowers_pure ?_
    simp
  | .assignment info target value => by
    have scope := r.scopeOf_node (.assignment info target value)
    rw [Relabelling.node] at scope ⊢
    rw [Node.lowerStatement, Node.lowerStatement]
    refine (r.lowers_require scope).bind fun _ => (r.lowers_value frame value).bind fun found =>
      r.lowers_pure ?_
    simp
  | .ifThen info condition consequent => by
    have scope := r.scopeOf_node (.ifThen info condition consequent)
    rw [Relabelling.node] at scope ⊢
    rw [Node.lowerStatement, Node.lowerStatement]
    refine (r.lowers_require scope).bind fun _ => (r.lowers_value frame condition).bind fun test =>
      r.lowers_freshLabel.bind fun _ => (lowers_statement frame consequent).bind fun positive =>
        r.lowers_pure ?_
    simp
  | .ifElse info condition consequent alternative => by
    have scope := r.scopeOf_node (.ifElse info condition consequent alternative)
    rw [Relabelling.node] at scope ⊢
    rw [Node.lowerStatement, Node.lowerStatement]
    refine (r.lowers_require scope).bind fun _ => (r.lowers_value frame condition).bind fun test =>
      r.lowers_freshLabel.bind fun _ => (lowers_statement frame consequent).bind fun positive =>
        r.lowers_freshLabel.bind fun _ => (lowers_statement frame alternative).bind fun negative =>
          r.lowers_pure ?_
    simp
  | .program .. | .function .. | .parameter .. | .call .. | .declaration .. | .binary ..
  | .unary .. | .identifier .. | .integer .. | .real .. =>
    (r.lowers_require (r.scopeOf_node _)).bind fun _ => r.lowers_throw rfl
theorem lowers_statements (frame : Frame) : (nodes : List Node) →
    r.Lowers (List.map r.quad) (Node.lowerStatements frame nodes)
      (Node.lowerStatements frame (r.nodes nodes))
  | [] => fun _ => rfl
  | node :: nodes => by
    rw [Relabelling.nodes, Node.lowerStatements, Node.lowerStatements]
    refine (lowers_statement frame node).bind fun first =>
      (lowers_statements frame nodes).bind fun second => r.lowers_pure ?_
    simp
end

theorem functionSymbol_table (name : String) :
    Node.functionSymbol (r.table table) (r.name name) =
      r.result id (Node.functionSymbol table name) := by
  unfold Node.functionSymbol
  rw [lookupLocal_table]
  cases table.lookupLocal Table.global name <;> rfl

/-- Lowering a relabelled function. -/
theorem lowers_function (node : Node) :
    r.Lowers r.functionCode node.lowerFunction (r.node node).lowerFunction := by
  cases node with
  | function info returnType name parameters body =>
    have scope := r.scopeOf_node (.function info returnType name parameters body)
    rw [Relabelling.node] at scope ⊢
    rw [Node.lowerFunction, Node.lowerFunction]
    cases returnType with
    | double =>
      -- The failure comes first, whatever would have followed it.
      exact fun _ => rfl
    | int =>
      have state : r.Lowers r.lowering get get := fun _ => rfl
      refine state.bind fun state =>
        (r.lowers_require (r.functionSymbol_table state.table name)).bind fun symbol =>
        (r.lowers_require scope).bind fun scope => r.lowers_freshLabel.bind fun exit =>
        (r.lowers_require (r.requireIntParameters_nodes parameters)).bind fun _ =>
        (r.lowers_statement _ body).bind fun code => r.lowers_pure ?_
      simp [functionCode]
  | _ => exact r.lowers_throw rfl

/-- Lowering relabelled functions one after the other. -/
theorem lowerFunctions_nodes (nodes : List Node) (state : Lowering) :
    (Node.lowerFunctions (r.nodes nodes) (r.lowering state)).1 =
        r.lowering (Node.lowerFunctions nodes state).1 ∧
      (Node.lowerFunctions (r.nodes nodes) (r.lowering state)).2.result =
        r.result (List.map r.functionCode) (Node.lowerFunctions nodes state).2.result := by
  induction nodes generalizing state with
  | nil => exact ⟨rfl, rfl⟩
  | cons node nodes ih =>
    rw [Relabelling.nodes, Node.lowerFunctions, Node.lowerFunctions, r.lowers_function node state]
    cases node.lowerFunction state with
    | error error state => exact ⟨rfl, rfl⟩
    | ok code state =>
      obtain ⟨left, found⟩ := ih state
      refine ⟨left, ?_⟩
      simp only [lowered, Traced.result_bind, Traced.result_report, ok_bind, found]
      exact r.result_bind fun _ => rfl

/-- Lowering a relabelled program. -/
theorem lower_node (node : Node) :
    ((r.node node).lower (r.table table)).1 = r.table (node.lower table).1 ∧
      ((r.node node).lower (r.table table)).2.result =
        r.result r.code (node.lower table).2.result := by
  cases node with
  | program info functions =>
    obtain ⟨left, found⟩ := r.lowerFunctions_nodes functions ⟨table, 0, 0⟩
    refine ⟨congrArg Lowering.table left, ?_⟩
    rw [Relabelling.node, Node.lower, Node.lower]
    simp only [Traced.result_bind]
    refine Eq.trans (congrArg (· >>= _) found) ?_
    exact r.result_bind fun _ => rfl
  | _ => exact ⟨rfl, rfl⟩

end Lowering

/-! ## Fields of quadruples -/

section Fields

variable (quad : Quad) (field : Field)

@[simp] theorem op_quad : (r.quad quad).op = quad.op := rfl

@[simp] theorem scope_quad : (r.quad quad).scope = quad.scope := rfl

@[simp] theorem field?_quad : (r.quad quad).field? field = (quad.field? field).map r.operand := by
  cases field <;> rfl

theorem name_quad : (r.quad quad).name field = r.result r.name (quad.name field) := by
  unfold Quad.name
  rw [field?_quad]
  cases quad.field? field with
  | none => rfl
  | some operand => cases operand <;> rfl

theorem label_quad : (r.quad quad).label field = r.result id (quad.label field) := by
  unfold Quad.label
  rw [field?_quad]
  cases quad.field? field with
  | none => rfl
  | some operand => cases operand <;> rfl

theorem constant_quad : (r.quad quad).constant field = r.result id (quad.constant field) := by
  unfold Quad.constant
  rw [field?_quad]
  cases quad.field? field with
  | none => rfl
  | some operand => cases operand <;> rfl

theorem count_quad : (r.quad quad).count field = r.result id (quad.count field) := by
  unfold Quad.count
  rw [field?_quad]
  cases quad.field? field with
  | none => rfl
  | some operand => cases operand <;> rfl

/-- What the quadruple calls, if it is a call, keeps its name. -/
def KeepsCallee : Prop :=
  ∀ callee, quad.op = .call → quad.name .operand1 = .ok callee → r.name callee = callee

/-- The functions of the code keep their names, and so does all that they call. -/
structure Keeps (code : Code) : Prop where
  names : ∀ function ∈ code.functions, r.name function.name = function.name
  callees : ∀ function ∈ code.functions, ∀ quad ∈ function.body.toList, r.KeepsCallee quad

end Fields

/-! ## Assembly -/

section Assembly

open Assembly

variable (quad : Quad) (field : Field)

theorem address_quad :
    address (r.table table) (r.quad quad) field = r.result id (address table quad field) := by
  unfold address
  rw [name_quad]
  refine r.result_bind fun name => ?_
  rw [scope_quad, find?_table]
  cases table.find? quad.scope name with
  | none => rfl
  | some symbol =>
    simp only [Option.map_some, slot?_symbol, kind_symbol]
    cases symbol.slot? <;> rfl

theorem isGlobalFunction_table (name : String) :
    isGlobalFunction (r.table table) (r.name name) = isGlobalFunction table name := by
  unfold isGlobalFunction
  rw [findGlobal?_table]
  cases table.findGlobal? name with
  | none => rfl
  | some symbol => cases symbol <;> rfl

theorem through_quad (middle : List Instruction) :
    through (r.table table) (r.quad quad) middle = r.result id (through table quad middle) := by
  unfold through
  rw [address_quad, address_quad]
  exact r.result_bind fun _ => r.result_bind fun _ => rfl

theorem operation_quad (compute : Instruction) :
    operation (r.table table) (r.quad quad) compute = r.result id (operation table quad compute) := by
  unfold operation
  rw [address_quad, address_quad, address_quad]
  exact r.result_bind fun _ => r.result_bind fun _ => r.result_bind fun _ => rfl

variable {quad} in
/-- The lines of a relabelled quadruple. Places of the frame have no names, so only a call names
anything. -/
theorem ofQuad_quad (keeps : r.KeepsCallee quad) :
    ofQuad (r.table table) (r.quad quad) = r.result id (ofQuad table quad) := by
  unfold ofQuad
  rw [op_quad]
  cases isOp : quad.op with
  | load =>
    dsimp only
    rw [constant_quad, address_quad]
    exact r.result_bind fun _ => r.result_bind fun _ => rfl
  | assign | uplus | uminus => exact r.through_quad table quad _
  | plus | minus | mult => exact r.operation_quad table quad _
  | div =>
    dsimp only
    rw [address_quad, address_quad, address_quad]
    exact r.result_bind fun _ => r.result_bind fun _ => r.result_bind fun _ => rfl
  | param =>
    dsimp only
    rw [address_quad]
    exact r.result_bind fun _ => rfl
  | call =>
    dsimp only
    rw [name_quad, count_quad, address_quad]
    cases isCallee : quad.name .operand1 with
    | error error => rfl
    | ok callee =>
      have kept := keeps callee isOp isCallee
      rw [result_ok, ok_bind, ok_bind]
      refine r.result_bind fun count => r.result_bind fun result => ?_
      rw [isGlobalFunction_table]
      split
      · rfl
      · rw [kept]
        rfl
  | ret =>
    dsimp only
    rw [label_quad, address_quad]
    exact r.result_bind fun _ => r.result_bind fun _ => rfl
  | label | jump =>
    dsimp only
    rw [label_quad]
    exact r.result_bind fun _ => rfl
  | jumpIfNot =>
    dsimp only
    rw [address_quad, label_quad]
    exact r.result_bind fun _ => r.result_bind fun _ => rfl

theorem ofQuads_quads (quads : List Quad) (keeps : ∀ quad ∈ quads, r.KeepsCallee quad) :
    ofQuads (r.table table) (quads.map r.quad) = r.result id (ofQuads table quads) := by
  induction quads with
  | nil => rfl
  | cons quad quads ih =>
    obtain ⟨first, later⟩ := List.forall_mem_cons.1 keeps
    rw [List.map_cons, ofQuads, ofQuads, r.ofQuad_quad table first, ih later]
    exact r.result_bind fun _ => r.result_bind fun _ => rfl

theorem variableCount_table (name : String) :
    variableCount (r.table table) (r.name name) = r.result id (variableCount table name) := by
  unfold variableCount
  rw [lookupLocal_table]
  cases table.lookupLocal Table.global name with
  | none => rfl
  | some id =>
    dsimp only
    rw [locals_table]
    exact r.result_bind fun _ => rfl

theorem ofFunction_function {function : FunctionCode} (kept : r.name function.name = function.name)
    (keeps : ∀ quad ∈ function.body.toList, r.KeepsCallee quad) :
    (ofFunction (r.table table) (r.functionCode function)).result =
      r.result id (ofFunction table function).result := by
  have count := r.variableCount_table table function.name
  have body := r.ofQuads_quads table function.body.toList keeps
  rw [kept] at count
  unfold ofFunction
  simp only [Traced.result_bind, Traced.result_ofExcept, Traced.result_report, ok_bind,
    Traced.result_pure, functionCode, kept, count, Array.toList_map, body]
  exact r.result_bind fun _ => r.result_bind fun _ => rfl

theorem ofFunctions_functions (functions : List FunctionCode)
    (names : ∀ function ∈ functions, r.name function.name = function.name)
    (keeps : ∀ function ∈ functions, ∀ quad ∈ function.body.toList, r.KeepsCallee quad) :
    (ofFunctions (r.table table) (functions.map r.functionCode)).result =
      r.result id (ofFunctions table functions).result := by
  induction functions with
  | nil => rfl
  | cons function functions ih =>
    obtain ⟨kept, names⟩ := List.forall_mem_cons.1 names
    obtain ⟨first, later⟩ := List.forall_mem_cons.1 keeps
    rw [List.map_cons, ofFunctions, ofFunctions]
    simp only [Traced.result_bind, Traced.result_pure, r.ofFunction_function table kept first,
      ih names later]
    exact r.result_bind fun _ => r.result_bind fun _ => rfl

/-- The listing of relabelled code. -/
theorem assemble_code {code : Code} (keeps : r.Keeps code) (fileName : String) :
    ((r.code code).assemble (r.table table) fileName).result =
      r.result id (code.assemble table fileName).result := by
  unfold Code.assemble
  simp only [Traced.result_bind, Traced.result_pure, Relabelling.code,
    r.ofFunctions_functions table code.functions keeps.names keeps.callees]
  exact r.result_bind fun _ => rfl

end Assembly

/-! ## Runs -/

section Runs

variable (quad : Quad) (field : Field)

theorem locate_quad (name : String) :
    (r.quad quad).locate (r.table table) (r.name name) = r.result id (quad.locate table name) := by
  unfold Quad.locate
  rw [scope_quad, find?_table]
  cases table.find? quad.scope name with
  | none => rfl
  | some symbol =>
    simp only [Option.map_some, slot?_symbol, kind_symbol]
    cases symbol.slot? <;> rfl

theorem fetch_quad (frame : Activation) :
    (r.quad quad).fetch (r.table table) frame field = r.result id (quad.fetch table frame field) := by
  unfold Quad.fetch
  rw [name_quad]
  refine r.result_bind fun name => ?_
  rw [locate_quad]
  refine r.result_bind fun slot => ?_
  dsimp only [id]
  cases frame.read? slot <;> rfl

theorem store_quad (frame : Activation) (value : Int32) :
    (r.quad quad).store (r.table table) frame field value =
      r.result id (quad.store table frame field value) := by
  unfold Quad.store
  rw [name_quad]
  refine r.result_bind fun name => ?_
  rw [locate_quad]
  refine r.result_bind fun slot => ?_
  dsimp only [id]
  cases frame.write? value slot <;> rfl

def routine (routine : Routine) : Routine := { routine with body := routine.body.map r.quad }

variable (routine : Routine) (progress : Progress)

theorem target_routine :
    (r.routine routine).target (r.quad quad) field = r.result id (routine.target quad field) := by
  unfold Routine.target
  rw [label_quad]
  refine r.result_bind fun label => ?_
  dsimp only [id, Relabelling.routine]
  cases lastTarget? label routine.targets <;> rfl

theorem unary_quad (f : Int32 → Int32) :
    Routine.unary (r.table table) progress (r.quad quad) f =
      r.result id (Routine.unary table progress quad f) := by
  unfold Routine.unary
  rw [fetch_quad]
  refine r.result_bind fun value => ?_
  rw [store_quad]
  exact r.result_bind fun _ => rfl

theorem binary_routine (f : Int32 → Int32 → Option Int32) :
    (r.routine routine).binary (r.table table) progress (r.quad quad) f =
      r.result id (routine.binary table progress quad f) := by
  unfold Routine.binary
  rw [fetch_quad, fetch_quad]
  refine r.result_bind fun lhs => r.result_bind fun rhs => ?_
  dsimp only [id]
  cases f lhs rhs with
  | none => rfl
  | some value =>
    dsimp only
    rw [store_quad]
    exact r.result_bind fun _ => rfl

theorem receive_quad (value : Int32) :
    Routine.receive (r.table table) progress (r.quad quad) value =
      r.result id (Routine.receive table progress quad value) := by
  unfold Routine.receive
  rw [store_quad]
  exact r.result_bind fun _ => rfl

variable {quad}

/-- One step of a relabelled routine. -/
theorem step_routine (keeps : r.KeepsCallee quad) :
    (r.routine routine).step (r.table table) progress (r.quad quad) =
      r.result id (routine.step table progress quad) := by
  unfold Routine.step
  rw [op_quad]
  cases isOp : quad.op with
  | load =>
    dsimp only
    rw [constant_quad]
    refine r.result_bind fun value => ?_
    rw [store_quad]
    exact r.result_bind fun _ => rfl
  | assign | uplus | uminus => exact r.unary_quad table quad progress _
  | plus | minus | mult | div => exact r.binary_routine table quad routine progress _
  | param =>
    dsimp only
    rw [fetch_quad]
    exact r.result_bind fun _ => rfl
  | call =>
    dsimp only
    rw [name_quad, count_quad]
    cases isCallee : quad.name .operand1 with
    | error error => rfl
    | ok callee =>
      rw [result_ok, ok_bind, ok_bind, keeps callee isOp isCallee]
      refine r.result_bind fun count => ?_
      dsimp only [id]
      split <;> rfl
  | ret =>
    dsimp only
    rw [fetch_quad, target_routine]
    exact r.result_bind fun _ => r.result_bind fun _ => rfl
  | jump =>
    dsimp only
    rw [target_routine]
    exact r.result_bind fun _ => rfl
  | jumpIfNot =>
    dsimp only
    rw [fetch_quad, target_routine]
    refine r.result_bind fun value => ?_
    dsimp only [id]
    split
    · exact r.result_bind fun _ => rfl
    · rfl
  | label => rfl

/-- A step that asks for a call takes a quadruple that calls. -/
theorem name_of_step_call {routine : Routine} {table : Table} {progress progress' : Progress}
    {callee : String} {arguments : List Int32}
    (stepped : routine.step table progress quad = .ok (.call callee arguments progress')) :
    quad.op = .call ∧ quad.name .operand1 = .ok callee := by
  have pure_eq (action : Action) : (pure action : Except Error Action) = .ok action := rfl
  unfold Routine.step at stepped
  cases isOp : quad.op with
  | call =>
    simp only [isOp] at stepped
    obtain ⟨name, isName, stepped⟩ := bind_eq_ok.1 stepped
    obtain ⟨count, _, stepped⟩ := bind_eq_ok.1 stepped
    split at stepped
    · cases stepped
    · cases stepped
      exact ⟨rfl, isName⟩
  | _ =>
    simp only [isOp, Routine.unary, Routine.binary, bind_eq_ok, pure_eq] at stepped
    grind [bind_eq_ok]

/-- The rest of a run of a relabelled routine. The functions that it calls keep their names. -/
theorem run_routine (limit : Nat) {calls calls' : String → List Int32 → Traced Int32}
    {routine : Routine} (keeps : ∀ quad ∈ routine.body.toList, r.KeepsCallee quad)
    (same : ∀ callee arguments, r.name callee = callee →
      (calls' callee arguments).result = r.result id (calls callee arguments).result)
    (steps : Nat) (progress : Progress) :
    ((r.routine routine).run (r.table table) limit calls' steps progress).result =
      r.result id (routine.run table limit calls steps progress).result := by
  induction steps generalizing progress with
  | zero => rfl
  | succ steps ih =>
    have next : (r.routine routine).body[progress.pc]? = (routine.body[progress.pc]?).map r.quad :=
      Array.getElem?_map
    rw [Routine.run, Routine.run, next]
    cases found : routine.body[progress.pc]? with
    | none => rfl
    | some quad =>
      have kept : r.KeepsCallee quad :=
        keeps quad (Array.mem_toList_iff.2 (Array.mem_of_getElem? found))
      dsimp only [Option.map_some]
      rw [r.step_routine table routine _ kept]
      cases stepped : routine.step table { progress with pc := progress.pc + 1 } quad with
      | error error => rfl
      | ok action =>
        cases action with
        | proceed progress => exact ih progress
        | call callee arguments progress =>
          -- What is called has kept its name, so the call that is asked for is the same one.
          obtain ⟨isCall, isName⟩ := name_of_step_call stepped
          simp only [result_ok, id, Traced.result_bind, Traced.result_report, ok_bind,
            Traced.result_ofExcept, same callee arguments (kept callee isCall isName)]
          refine r.result_bind fun value => ?_
          rw [receive_quad]
          exact r.result_bind fun progress => ih progress

theorem labelTargets_quads (index : Nat) (quads : List Quad) :
    labelTargets index (quads.map r.quad) = r.result id (labelTargets index quads) := by
  induction quads generalizing index with
  | nil => rfl
  | cons quad quads ih =>
    rw [List.map_cons, labelTargets, labelTargets, op_quad, label_quad, ih]
    cases quad.op with
    | label => exact r.result_bind fun _ => r.result_bind fun _ => rfl
    | _ => rfl

theorem body?_code (code : Code) (name : String) :
    (r.code code).body? (r.name name) = (code.body? name).map (·.map r.quad) := by
  have same : (fun function => decide ((r.functionCode function).name = r.name name)) =
      fun function : FunctionCode => decide (function.name = name) :=
    funext fun _ => decide_eq_decide.2 ⟨r.injective, congrArg r.name⟩
  unfold Code.body? Relabelling.code
  rw [List.find?_map, Option.map_map, Option.map_map]
  exact congrArg (fun test => (code.functions.find? test).map _) same

theorem enter_code (code : Code) {name : String} (kept : r.name name = name)
    (arguments : List Int32) :
    (r.code code).enter (r.table table) name arguments =
      r.result (Prod.map r.routine id) (code.enter table name arguments) := by
  have body := r.body?_code code name
  have found := r.lookupLocal_table table Table.global name
  rw [kept] at body found
  unfold Code.enter
  rw [body, found]
  cases code.body? name with
  | none => rfl
  | some body =>
    cases table.lookupLocal Table.global name with
    | none => rfl
    | some symbol =>
      simp only [Option.map_some, parameters_table, locals_table, Array.toList_map,
        labelTargets_quads]
      refine r.result_bind fun parameters => ?_
      dsimp only [id]
      split
      · rfl
      · exact r.result_bind fun _ => r.result_bind fun _ => rfl

/-- What is entered is a function of the code. -/
theorem body_of_enter {code : Code} {table : Table} {name : String} {arguments : List Int32}
    {routine : Routine} {progress : Progress}
    (entered : code.enter table name arguments = .ok (routine, progress)) :
    ∃ function ∈ code.functions, routine.body = function.body := by
  unfold Code.enter at entered
  split at entered
  · cases entered
  · next body isBody =>
    obtain ⟨function, found, rfl⟩ := Option.map_eq_some_iff.1 isBody
    refine ⟨function, List.mem_of_find?_eq_some found, ?_⟩
    split at entered
    · cases entered
    · obtain ⟨parameters, _, entered⟩ := bind_eq_ok.1 entered
      split at entered
      · cases entered
      · obtain ⟨locals, _, entered⟩ := bind_eq_ok.1 entered
        obtain ⟨targets, _, entered⟩ := bind_eq_ok.1 entered
        cases entered
        rfl

/-- Calls of functions that keep their names give the same. -/
theorem callWithin_code {code : Code} (keeps : r.Keeps code) (steps depth : Nat) (name : String)
    (arguments : List Int32) (kept : r.name name = name) :
    ((r.code code).callWithin (r.table table) steps depth name arguments).result =
      r.result id (code.callWithin table steps depth name arguments).result := by
  induction depth generalizing name arguments with
  | zero => rfl
  | succ depth ih =>
    rw [Code.callWithin, Code.callWithin]
    simp only [Traced.result_bind, Traced.result_ofExcept, r.enter_code table code kept]
    cases entered : code.enter table name arguments with
    | error error => rfl
    | ok found =>
      obtain ⟨routine, progress⟩ := found
      obtain ⟨function, member, isBody⟩ := body_of_enter entered
      refine r.run_routine table steps ?_ (fun callee arguments => ih callee arguments) steps progress
      rw [isBody]
      exact keeps.callees function member

theorem size_code (code : Code) : (r.code code).size = code.size := by
  unfold Code.size Relabelling.code
  simp only [List.foldr_map, functionCode, Array.size_map]

/-- A run from a function that keeps its name. -/
theorem run_code {code : Code} (keeps : r.Keeps code) {name : String} (kept : r.name name = name)
    (arguments : List Int32) : ((r.code code).run (r.table table) name arguments).result =
      r.result id (code.run table name arguments).result := by
  unfold Code.run
  rw [size_code]
  exact r.callWithin_code table keeps _ _ name arguments kept

end Runs

end Relabelling

/-! ## Whole programs -/

namespace Node

/-- Attach scopes to a tree, and check its names and types. -/
def analysis (tree : Node) : Except Error Analysis := do
  let table ← tree.resolve.2
  tree.resolve.1.analyze table
  return ⟨tree.resolve.1, table⟩

/-- All stages behind the parser. -/
def compile (tree : Node) (options : Options) : Except Error Compilation := do
  let analysis ← tree.analysis
  (analysis.lower options).result

/-- The names of the functions of a program. -/
def definedFunctions : Node → List String
  | program _ functions => functionNames functions
  | _ => []

theorem functionName?_walk (ctx : Context) (table : Table) (node : Node) :
    (node.walk ctx table).1.functionName? = node.functionName? := by
  cases node with
  | function info returnType name parameters body =>
    rw [walk]
    split <;> rfl
  | _ => rfl

theorem functionNames_walkAll (ctx : Context) (table : Table) (nodes : List Node) :
    functionNames (walkAll ctx table nodes).1 = functionNames nodes := by
  induction nodes generalizing table with
  | nil => rfl
  | cons node nodes ih =>
    have first := functionName?_walk ctx table node
    rw [walkAll]
    unfold functionNames at ih ⊢
    cases walked : node.walk ctx table with
    | mk front found =>
      rw [walked] at first
      cases found with
      | error error => simp only [Walked.andThen, Walked.map, List.filterMap_cons, first]
      | ok table => simp only [Walked.andThen, Walked.map, List.filterMap_cons, first, ih]

theorem definedFunctions_resolve (tree : Node) :
    tree.resolve.1.definedFunctions = tree.definedFunctions := by
  rw [resolve_eq_walk]
  cases tree with
  | program info functions => exact functionNames_walkAll _ _ functions
  | function info returnType name parameters body =>
    rw [walk]
    split <;> rfl
  | _ => rfl

end Node

/-- The code of an analyzed tree, before it is assembled. -/
def Analysis.code (analysis : Analysis) (options : Options) : Except Error Code := do
  let tree ← (optimize options analysis.tree).result
  (tree.lower analysis.table).2.result

/-- A compilation, stage by stage. -/
theorem result_compile (source : String) (options : Options) :
    (compile source options).result = Node.parse source >>= (·.compile options) := by
  unfold compile
  rw [Traced.result_bind, result_analyze]
  cases Node.parse source with
  | error error => rfl
  | ok tree => rfl

namespace Relabelling

variable (r : Relabelling) (table : Table)

theorem functionNames_nodes (functions : List Node) :
    Node.functionNames (r.nodes functions) = (Node.functionNames functions).map r.name := by
  have same : Node.functionName? ∘ r.node = fun node => node.functionName?.map r.name := by
    funext node
    cases node <;> rfl
  unfold Node.functionNames
  rw [nodes_eq_map, List.filterMap_map, List.map_filterMap, same]

theorem any_isMain_nodes {functions : List Node}
    (kept : ∀ name ∈ Node.functionNames functions, r.name name = name) :
    (r.nodes functions).any Node.isMain = functions.any Node.isMain := by
  rw [Bool.eq_iff_iff, Node.any_isMain_iff, Node.any_isMain_iff, functionNames_nodes,
    List.map_congr_left kept, List.map_id']

theorem analyze_node {node : Node} (kept : ∀ name ∈ node.definedFunctions, r.name name = name) :
    (r.node node).analyze (r.table table) = r.result id (node.analyze table) := by
  have named : (r.node node).checkDeclarations (r.table table) =
      r.result id (node.checkDeclarations table) := by
    cases node with
    | program info functions =>
      have found := r.checkNames_node table none (.program info functions)
      rw [Relabelling.node] at found ⊢
      unfold Node.checkDeclarations
      dsimp only
      rw [r.any_isMain_nodes kept]
      split
      · rw [found]
        exact r.result_bind fun _ => rfl
      · rfl
    | _ => rfl
  unfold Node.analyze Node.checkTypes
  rw [named, typeOf_node]
  exact r.result_bind fun _ => r.result_bind fun _ => rfl

def analysis (analysis : Analysis) : Analysis := ⟨r.node analysis.tree, r.table analysis.table⟩

theorem analysis_node {tree : Node} (kept : ∀ name ∈ tree.definedFunctions, r.name name = name) :
    (r.node tree).analysis = r.result r.analysis tree.analysis := by
  unfold Node.analysis
  rw [resolve_node]
  refine r.result_bind fun table => ?_
  dsimp only [Relabelling.walked]
  rw [r.analyze_node table (by rwa [Node.definedFunctions_resolve])]
  exact r.result_bind fun _ => rfl

/-- The listing stays as it is. -/
def compilation (compilation : Compilation) : Compilation :=
  { compilation with
    tree := r.node compilation.tree
    table := r.table compilation.table
    code := r.code compilation.code }

theorem result_optimize_node (options : Options) (tree : Node) :
    (optimize options (r.node tree)).result = r.result r.node (optimize options tree).result := by
  unfold optimize
  split
  · rfl
  · exact congrArg Except.ok (r.fold_node tree)

/-- An analyzed tree that is relabelled gives relabelled code and the same listing. -/
theorem lower_analysis {analysis : Analysis} {options : Options}
    (keeps : ∀ code, analysis.code options = .ok code → r.Keeps code) :
    ((r.analysis analysis).lower options).result =
      r.result r.compilation (analysis.lower options).result := by
  unfold Analysis.code at keeps
  unfold Analysis.lower Relabelling.analysis
  simp only [Traced.result_bind, Traced.result_report, Traced.result_pure, ok_bind,
    result_optimize_node]
  cases optimized : (optimize options analysis.tree).result with
  | error error => rfl
  | ok tree =>
    obtain ⟨isTable, isCode⟩ := r.lower_node analysis.table tree
    rw [optimized] at keeps
    simp only [result_ok, ok_bind, isTable, isCode]
    cases generated : (tree.lower analysis.table).2.result with
    | error error => rfl
    | ok code =>
      simp only [result_ok, ok_bind, r.assemble_code _ (keeps code generated)]
      exact r.result_bind fun _ => rfl

/-- A relabelled tree is compiled to relabelled code and the same listing. -/
theorem compile_node {tree : Node} {options : Options}
    (kept : ∀ name ∈ tree.definedFunctions, r.name name = name)
    (keeps : ∀ analysis, tree.analysis = .ok analysis →
      ∀ code, analysis.code options = .ok code → r.Keeps code) :
    (r.node tree).compile options = r.result r.compilation (tree.compile options) := by
  unfold Node.compile
  rw [r.analysis_node kept]
  cases analyzed : tree.analysis with
  | error error => rfl
  | ok analysis => exact r.lower_analysis (keeps analysis analyzed)

end Relabelling
end MiniC
