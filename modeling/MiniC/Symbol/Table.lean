import MiniC.Error

/-!
# Symbol tables

A tree of lexical scopes, and the symbols defined in them.

Scopes and symbols are kept in the order of their creation and named by their number. A scope knows
the scope around it, whose number is smaller, so that a lookup outward ends. Definitions only ever
add, and a scope never holds two symbols of one name.

The names of a scope are a map, which gives out what it holds in no order that could be relied on
(`Iteration`). A list of its symbols is sorted for that reason.
-/

namespace MiniC

structure Scope where
  /-- The entries of a map: the names defined here. -/
  names : Array (String × SymbolId)
  outer : Option ScopeId
  /-- The scopes opened directly inside, in the order of opening. -/
  inner : Array ScopeId
  /-- Nesting depth. -/
  level : Nat
deriving DecidableEq, Repr, Inhabited

/-- The order in which maps give out what they hold. It may be any order, and another one for every
map. -/
structure Iteration where
  values : Array (String × SymbolId) → List SymbolId
  perm : ∀ names, (values names).Perm (names.toList.map (·.2))

/-- The order in which the entries are stored. -/
def Iteration.stored : Iteration where
  values names := names.toList.map (·.2)
  perm _ := .refl _

namespace Scope

/-- A scope directly inside `outer`. -/
def openedIn (outer : ScopeId) (level : Nat) : Scope :=
  ⟨#[], some outer, #[], level⟩

def find? (scope : Scope) (name : String) : Option SymbolId :=
  (scope.names.find? (·.1 = name)).map (·.2)

/-- Enter a name that is not there yet. -/
def add (scope : Scope) (name : String) (id : SymbolId) : Scope :=
  { scope with names := scope.names.push (name, id) }

def addInner (scope : Scope) (id : ScopeId) : Scope :=
  { scope with inner := scope.inner.push id }

/-- The symbols defined here, sorted by number: the map gives them out in any order. -/
def symbols (scope : Scope) (iteration : Iteration := .stored) : List SymbolId :=
  (iteration.values scope.names).mergeSort

end Scope

structure Table where
  scopes : Array Scope
  symbols : Array Symbol
deriving DecidableEq, Repr, Inhabited

namespace Table

/-- The scope that has no outer scope. -/
def global : ScopeId := 0

/-- The global scope with the types in it. -/
def initial : Table where
  scopes := #[⟨#[("int", 0), ("double", 1)], none, #[], 0⟩]
  symbols := #[.builtinType .int, .builtinType .double]

/-- Open a scope inside `outer`; its number is the number of scopes before. -/
def openScope (table : Table) (outer : ScopeId) : Table :=
  let level := ((table.scopes[outer]?).map (·.level)).getD 0
  { table with
    scopes := (table.scopes.modify outer (·.addInner table.scopes.size)).push
      (.openedIn outer (level + 1)) }

/-- The symbol of that name in `scope` itself. -/
def lookupLocal (table : Table) (scope : ScopeId) (name : String) : Option SymbolId :=
  (table.scopes[scope]?).bind (·.find? name)

/-- The symbol of that name in `scope` or the nearest scope around it, going outward at most
`steps` times. -/
def lookupWithin (table : Table) (name : String) : (steps : Nat) → ScopeId → Option SymbolId
  | 0, scope => table.lookupLocal scope name
  | steps + 1, scope =>
      match table.lookupLocal scope name with
      | some id => some id
      | none =>
          match (table.scopes[scope]?).bind (·.outer) with
          | some outer => table.lookupWithin name steps outer
          | none => none

/-- The symbol of that name in `scope` or the nearest scope around it. As an outer scope has a
smaller number, there are at most `scope` of them. -/
def lookup (table : Table) (scope : ScopeId) (name : String) : Option SymbolId :=
  table.lookupWithin name scope scope

/-- What the name means when it is used in `scope`. -/
def find? (table : Table) (scope : ScopeId) (name : String) : Option Symbol :=
  (table.lookup scope name).bind (table.symbols[·]?)

/-- What the name means in the global scope alone. -/
def findGlobal? (table : Table) (name : String) : Option Symbol :=
  (table.lookupLocal global name).bind (table.symbols[·]?)

def isFunction : Symbol → Bool
  | .function .. => true
  | _ => false

/-- The parameters of a function, in order. -/
def parameters (table : Table) (function : SymbolId) : Except Error (Array SymbolId) :=
  match table.symbols[function]? with
  | some (.function _ _ parameters _ _) => .ok parameters
  | some other => .error (.internal (.notAFunction other.name))
  | none => .error (.internal (.noSymbol function))

/-- The variables of a function, in order, whichever of its blocks declares them. -/
def locals (table : Table) (function : SymbolId) : Except Error (Array SymbolId) :=
  match table.symbols[function]? with
  | some (.function _ _ _ locals _) => .ok locals
  | some other => .error (.internal (.notAFunction other.name))
  | none => .error (.internal (.noSymbol function))

def registerParameter (id : SymbolId) : Symbol → Symbol
  | .function name returnType parameters locals ordinal =>
      .function name returnType (parameters.push id) locals ordinal
  | other => other

def registerVariable (id : SymbolId) : Symbol → Symbol
  | .function name returnType parameters locals ordinal =>
      .function name returnType parameters (locals.push id) ordinal
  | other => other

/-- Enter a name into a scope. -/
def enter (table : Table) (scope : ScopeId) (name : String) (id : SymbolId) : Table :=
  { table with scopes := table.scopes.modify scope (·.add name id) }

/-- Store a symbol, which gets the next number. -/
def store (table : Table) (symbol : Symbol) : Table :=
  { table with symbols := table.symbols.push symbol }

/-- Change what a function lists. -/
def register (table : Table) (function : SymbolId) (change : Symbol → Symbol) : Table :=
  { table with symbols := table.symbols.modify function change }

/-! ## Definitions -/

/-- A call on a table. What it has changed stays when it fails. -/
abbrev Update (α : Type) : Type := EStateM Error Table α

namespace Update

/-- Add a symbol to a scope that has none of its name. -/
def define (scope : ScopeId) (symbol : Symbol) : Update SymbolId := do
  let table ← get
  if (table.lookupLocal scope symbol.name).isSome then
    throw (.internal (.alreadyDefined symbol.name scope))
  let id := table.symbols.size
  modify (·.enter scope symbol.name id)
  modify (·.store symbol)
  return id

/-- Define a function; its ordinal is the number of functions defined so far. -/
def defineFunction (scope : ScopeId) (name : String) (returnType : Ty) : Update SymbolId := do
  let ordinal := (← get).symbols.countP isFunction
  define scope (.function name returnType #[] #[] ordinal)

/-- Define the next symbol of a list that `function` keeps. -/
def defineListed (scope : ScopeId) (function : SymbolId)
    (listed : Table → Except Error (Array SymbolId)) (symbol : (index : Nat) → Symbol)
    (list : SymbolId → Symbol → Symbol) : Update SymbolId := do
  let earlier ← ofExcept (listed (← get))
  let id ← define scope (symbol earlier.size)
  modify (·.register function (list id))
  return id

/-- Define a parameter of `function` in the next parameter slot. -/
def defineParameter (scope : ScopeId) (function : SymbolId) (name : String) (ty : Ty) :
    Update SymbolId :=
  defineListed scope function (·.parameters function) (.parameter name ty) registerParameter

/-- Define a variable of `function` in the next variable slot. -/
def defineVariable (scope : ScopeId) (function : SymbolId) (name : String) (ty : Ty) :
    Update SymbolId :=
  defineListed scope function (·.locals function) (.localVariable name ty) registerVariable

theorem run_define (scope : ScopeId) (symbol : Symbol) (table : Table) :
    (define scope symbol).run table =
      if (table.lookupLocal scope symbol.name).isSome then
        .error (.internal (.alreadyDefined symbol.name scope)) table
      else
        .ok table.symbols.size
          ((table.enter scope symbol.name table.symbols.size).store symbol) := by
  unfold define
  rw [EStateM.run_bind, EStateM.run_get]
  dsimp only
  split
  · rfl
  · rfl

theorem run_defineFunction (scope : ScopeId) (name : String) (returnType : Ty) (table : Table) :
    (defineFunction scope name returnType).run table =
      (define scope (.function name returnType #[] #[] (table.symbols.countP isFunction))).run
        table := by
  unfold defineFunction
  rw [EStateM.run_bind, EStateM.run_get]

theorem run_defineListed (scope : ScopeId) (function : SymbolId)
    (listed : Table → Except Error (Array SymbolId)) (symbol : (index : Nat) → Symbol)
    (list : SymbolId → Symbol → Symbol) (table : Table) :
    (defineListed scope function listed symbol list).run table =
      match listed table with
      | .error error => .error error table
      | .ok earlier =>
          match (define scope (symbol earlier.size)).run table with
          | .error error after => .error error after
          | .ok id after => .ok id (after.register function (list id)) := by
  unfold defineListed
  rw [EStateM.run_bind, EStateM.run_get]
  dsimp only
  cases listed table with
  | error error => rfl
  | ok earlier =>
    rw [EStateM.run_bind]
    dsimp only [ofExcept, EStateM.run_pure]
    rw [EStateM.run_bind]
    cases (define scope (symbol earlier.size)).run table <;> rfl

/-- What a call gives to someone who goes no further when it fails. -/
def completed {α : Type} (call : Update α) (table : Table) : Except Error (α × Table) :=
  match call.run table with
  | .ok a after => .ok (a, after)
  | .error error _ => .error error

end Update

/-! The same calls for someone who goes no further when they fail. -/

def define (table : Table) (scope : ScopeId) (symbol : Symbol) :
    Except Error (SymbolId × Table) :=
  (Update.define scope symbol).completed table

def defineFunction (table : Table) (scope : ScopeId) (name : String) (returnType : Ty) :
    Except Error (SymbolId × Table) :=
  (Update.defineFunction scope name returnType).completed table

def defineParameter (table : Table) (scope : ScopeId) (function : SymbolId) (name : String)
    (ty : Ty) : Except Error (SymbolId × Table) :=
  (Update.defineParameter scope function name ty).completed table

def defineVariable (table : Table) (scope : ScopeId) (function : SymbolId) (name : String)
    (ty : Ty) : Except Error (SymbolId × Table) :=
  (Update.defineVariable scope function name ty).completed table

theorem define_eq (table : Table) (scope : ScopeId) (symbol : Symbol) :
    table.define scope symbol =
      if (table.lookupLocal scope symbol.name).isSome then
        .error (.internal (.alreadyDefined symbol.name scope))
      else
        .ok (table.symbols.size,
          (table.enter scope symbol.name table.symbols.size).store symbol) := by
  unfold define Update.completed
  rw [Update.run_define]
  cases (table.lookupLocal scope symbol.name).isSome <;> rfl

theorem defineFunction_eq (table : Table) (scope : ScopeId) (name : String) (returnType : Ty) :
    table.defineFunction scope name returnType =
      table.define scope (.function name returnType #[] #[] (table.symbols.countP isFunction)) := by
  unfold defineFunction define Update.completed
  rw [Update.run_defineFunction]

theorem completed_defineListed (table : Table) (scope : ScopeId) (function : SymbolId)
    (listed : Table → Except Error (Array SymbolId)) (symbol : (index : Nat) → Symbol)
    (list : SymbolId → Symbol → Symbol) :
    (Update.defineListed scope function listed symbol list).completed table = do
      let earlier ← listed table
      let (id, after) ← table.define scope (symbol earlier.size)
      return (id, after.register function (list id)) := by
  unfold define Update.completed
  rw [Update.run_defineListed]
  cases listed table with
  | error error => rfl
  | ok earlier =>
    dsimp only [bind, Except.bind]
    cases (Update.define scope (symbol earlier.size)).run table <;> rfl

theorem defineParameter_eq (table : Table) (scope : ScopeId) (function : SymbolId) (name : String)
    (ty : Ty) : table.defineParameter scope function name ty = do
      let earlier ← table.parameters function
      let (id, after) ← table.define scope (.parameter name ty earlier.size)
      return (id, after.register function (registerParameter id)) :=
  table.completed_defineListed ..

theorem defineVariable_eq (table : Table) (scope : ScopeId) (function : SymbolId) (name : String)
    (ty : Ty) : table.defineVariable scope function name ty = do
      let earlier ← table.locals function
      let (id, after) ← table.define scope (.localVariable name ty earlier.size)
      return (id, after.register function (registerVariable id)) :=
  table.completed_defineListed ..

/-! ## Text -/

/-- The scopes directly inside a scope, in the order of opening. -/
def innerOf (table : Table) (scope : ScopeId) : List ScopeId :=
  ((table.scopes[scope]?).map (·.inner.toList)).getD []

/-- The texts of the symbols of a scope. -/
def symbolTexts (table : Table) (scope : Scope) (iteration : Iteration := .stored) : List String :=
  (scope.symbols iteration).map fun id => ((table.symbols[id]?).map (·.text)).getD ""

/-- One line for a scope, indented by its level. -/
def scopeText (table : Table) (id : ScopeId) (iteration : Iteration := .stored) : String :=
  match table.scopes[id]? with
  | some scope =>
      Text.spaces (2 * scope.level) ++ "L" ++ toString scope.level ++ ": "
        ++ ", ".intercalate (table.symbolTexts scope iteration) ++ "\n"
  | none => ""

/-- The lines of a scope and of all scopes inside, at most `depth` levels deep. -/
def linesWithin (table : Table) (iteration : Iteration) : (depth : Nat) → ScopeId → List String
  | 0, scope => [table.scopeText scope iteration]
  | depth + 1, scope =>
      table.scopeText scope iteration ::
        (table.innerOf scope).flatMap (table.linesWithin iteration depth)

/-- All scopes, one line each. Scopes nest less deep than there are scopes. -/
def text (table : Table) (iteration : Iteration := .stored) : String :=
  String.join (table.linesWithin iteration table.scopes.size global)

end Table
end MiniC
