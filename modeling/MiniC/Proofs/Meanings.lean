import MiniC.Proofs.Checks
import MiniC.Proofs.Typing

/-!
# What names mean while a table grows

Resolving a program only adds to its table. What a name means in a scope is settled once the
declarations of that scope have been walked through, and so is a function once its parameters have.
-/

namespace MiniC

/-- What a call goes by: the type of the result, the parameters, and the ordinal of the function. -/
structure Callable where
  result : Ty
  parameters : List SymbolId
  ordinal : Nat

def Symbol.callable? : Symbol → Option Callable
  | function _ returnType parameters _ ordinal => some ⟨returnType, parameters.toList, ordinal⟩
  | _ => none

namespace Blocks

theorem findIn_append {α : Type} (name : String) (first second : List (String × α)) :
    findIn name (first ++ second) = (findIn name first).or (findIn name second) := by
  induction first with
  | nil => rfl
  | cons entry first ih =>
    rw [List.cons_append, findIn_cons, findIn_cons, ih]
    split <;> rfl

end Blocks

namespace Table

/-- The type of the value stored under a symbol. -/
def typeOf (table : Table) (id : SymbolId) : Option Ty :=
  (table.symbols[id]?).bind (·.valueType?)

/-- How a symbol is called. -/
def callableOf (table : Table) (id : SymbolId) : Option Callable :=
  (table.symbols[id]?).bind (·.callable?)

def ordinalOf (table : Table) (id : SymbolId) : Option Nat :=
  (table.callableOf id).map (·.ordinal)

/-- How many functions are defined so far. The next one gets this ordinal. -/
def functionCount (table : Table) : Nat :=
  table.symbols.countP isFunction

/-! ## Adding to a table -/

/-- `after` is `before` with more in it. The names in the scopes below `top` and the symbols below
`next` mean what they meant, and a new global function comes behind those that there were. -/
structure Enlarges (top : ScopeId) (next : SymbolId) (before after : Table) : Prop where
  sound : after.Sound
  scopes : before.scopes.size ≤ after.scopes.size
  symbols : before.symbols.size ≤ after.symbols.size
  functions : before.functionCount ≤ after.functionCount
  outer : ∀ s < top, after.outer? s = before.outer? s
  lookupLocal : ∀ s < top, s ≠ Table.global → ∀ name,
    after.lookupLocal s name = before.lookupLocal s name
  typeOf : ∀ id < next, after.typeOf id = before.typeOf id
  callableOf : ∀ id < next, after.callableOf id = before.callableOf id
  ordinalOf : ∀ id < before.symbols.size, after.ordinalOf id = before.ordinalOf id
  globals : ∀ {name id}, before.lookupLocal Table.global name = some id →
    after.lookupLocal Table.global name = some id
  newer : ∀ {name id ordinal}, before.lookupLocal Table.global name = none →
    after.lookupLocal Table.global name = some id → after.ordinalOf id = some ordinal →
    before.functionCount ≤ ordinal

/-- Everything in `before` means the same in `after`. -/
abbrev Continues (before after : Table) : Prop :=
  before.Enlarges before.scopes.size before.symbols.size after

namespace Enlarges

variable {top : ScopeId} {next : SymbolId} {first second third : Table}

theorem refl (sound : first.Sound) : first.Enlarges top next first where
  sound := sound
  scopes := Nat.le_refl _
  symbols := Nat.le_refl _
  functions := Nat.le_refl _
  outer _ _ := rfl
  lookupLocal _ _ _ _ := rfl
  typeOf _ _ := rfl
  callableOf _ _ := rfl
  ordinalOf _ _ := rfl
  globals := id
  newer absent found := by
    rw [absent] at found
    cases found

theorem weaken {top' : ScopeId} {next' : SymbolId} (enlarges : first.Enlarges top next second)
    (le : top' ≤ top) (le' : next' ≤ next) : first.Enlarges top' next' second :=
  { enlarges with
    outer := fun s lt => enlarges.outer s (Nat.lt_of_lt_of_le lt le)
    lookupLocal := fun s lt => enlarges.lookupLocal s (Nat.lt_of_lt_of_le lt le)
    typeOf := fun id lt => enlarges.typeOf id (Nat.lt_of_lt_of_le lt le')
    callableOf := fun id lt => enlarges.callableOf id (Nat.lt_of_lt_of_le lt le') }

theorem trans (enlarges : first.Enlarges top next second)
    (enlarges' : second.Enlarges top next third) : first.Enlarges top next third where
  sound := enlarges'.sound
  scopes := Nat.le_trans enlarges.scopes enlarges'.scopes
  symbols := Nat.le_trans enlarges.symbols enlarges'.symbols
  functions := Nat.le_trans enlarges.functions enlarges'.functions
  outer s lt := (enlarges'.outer s lt).trans (enlarges.outer s lt)
  lookupLocal s lt inner name :=
    (enlarges'.lookupLocal s lt inner name).trans (enlarges.lookupLocal s lt inner name)
  typeOf id lt := (enlarges'.typeOf id lt).trans (enlarges.typeOf id lt)
  callableOf id lt := (enlarges'.callableOf id lt).trans (enlarges.callableOf id lt)
  ordinalOf id lt := (enlarges'.ordinalOf id (Nat.lt_of_lt_of_le lt enlarges.symbols)).trans
    (enlarges.ordinalOf id lt)
  globals found := enlarges'.globals (enlarges.globals found)
  newer := by
    intro name id ordinal absent found called
    cases known : second.lookupLocal Table.global name with
    | none => exact Nat.le_trans enlarges.functions (enlarges'.newer known found called)
    | some id' =>
      obtain rfl : id' = id := Option.some.inj ((enlarges'.globals known).symm.trans found)
      rw [enlarges'.ordinalOf id' (enlarges.sound.lookupLocal_lt known)] at called
      exact enlarges.newer absent known called

end Enlarges

/-- Going on keeps the meaning of all that went before. -/
theorem Continues.trans {first second third : Table} (continues : first.Continues second)
    (continues' : second.Continues third) : first.Continues third :=
  Enlarges.trans continues (continues'.weaken continues.scopes continues.symbols)

theorem Sound.continues_openScope {table : Table} {outer : ScopeId} (sound : table.Sound)
    (inside : outer < table.scopes.size) : table.Continues (table.openScope outer) where
  sound := sound.openScope inside
  scopes := by simp
  symbols := Nat.le_refl _
  functions := Nat.le_refl _
  outer s lt := by rw [outer?_openScope, if_neg (Nat.ne_of_lt lt)]
  lookupLocal s _ _ name := table.lookupLocal_openScope outer s name
  typeOf _ _ := rfl
  callableOf _ _ := rfl
  ordinalOf _ _ := rfl
  globals found := (table.lookupLocal_openScope outer _ _).trans found
  newer absent found := by
    rw [lookupLocal_openScope, absent] at found
    cases found

/-! ## Defining a name -/

theorem countP_modify {symbols : Array Symbol} {id : SymbolId} {f : Symbol → Symbol}
    {p : Symbol → Bool} (kept : ∀ symbol, p (f symbol) = p symbol) :
    (symbols.modify id f).countP p = symbols.countP p := by
  rw [← Array.countP_toList, ← Array.countP_toList, Array.toList_modify]
  induction symbols.toList generalizing id with
  | nil => cases id <;> rfl
  | cons symbol symbols ih => cases id <;> simp [List.countP_cons, kept, ih]

theorem functionCount_eq {before after : Table} {symbol : Symbol} {f : SymbolId}
    {register : Symbol → Symbol} (kept : ∀ symbol, isFunction (register symbol) = isFunction symbol)
    (symbols : after.symbols = (before.symbols.push symbol).modify f register)
    (isValue : isFunction symbol = false) : after.functionCount = before.functionCount := by
  unfold functionCount
  rw [symbols, countP_modify kept, Array.countP_push, isValue]
  rfl

/-- `after` is `before` with a value of type `ty` called `name` in `scope`. -/
structure Adds (scope : ScopeId) (name : String) (ty : Ty) (before after : Table) : Prop where
  sound : after.Sound
  size : after.scopes.size = before.scopes.size
  outer : ∀ s, after.outer? s = before.outer? s
  lookupLocal : ∀ s n, after.lookupLocal s n =
    if s = scope ∧ n = name then some before.symbols.size else before.lookupLocal s n
  symbols : after.symbols.size = before.symbols.size + 1
  new : after.typeOf before.symbols.size = some ty
  typeOf : ∀ id < before.symbols.size, after.typeOf id = before.typeOf id
  ordinalOf : ∀ id < before.symbols.size, after.ordinalOf id = before.ordinalOf id
  functions : after.functionCount = before.functionCount

theorem Adds.enlarges {scope top : ScopeId} {next : SymbolId} {name : String} {ty : Ty}
    {before after : Table} (adds : Adds scope name ty before after)
    (notGlobal : scope ≠ Table.global) (le : top ≤ scope) (le' : next ≤ before.symbols.size)
    (callableOf : ∀ id < next, after.callableOf id = before.callableOf id) :
    before.Enlarges top next after where
  sound := adds.sound
  scopes := Nat.le_of_eq adds.size.symm
  symbols := by
    rw [adds.symbols]
    exact Nat.le_succ _
  functions := Nat.le_of_eq adds.functions.symm
  outer s _ := adds.outer s
  lookupLocal s lt _ name' := by
    rw [adds.lookupLocal, if_neg]
    rintro ⟨rfl, _⟩
    exact absurd le (Nat.not_le_of_lt lt)
  typeOf id lt := adds.typeOf id (Nat.lt_of_lt_of_le lt le')
  callableOf := callableOf
  ordinalOf := adds.ordinalOf
  globals found := by
    rw [adds.lookupLocal, if_neg fun same => notGlobal same.1.symm]
    exact found
  newer absent found := by
    rw [adds.lookupLocal, if_neg fun same => notGlobal same.1.symm, absent] at found
    cases found

/-- What the definition of a value in a scope of the function `f` adds, where `register` enters it
there. -/
theorem adds_of_define {before middle after : Table} {scope : ScopeId} {symbol : Symbol} {ty : Ty}
    {id f : SymbolId} {register : Symbol → Symbol} (sound : before.Sound)
    (inside : scope < before.scopes.size) (notGlobal : scope ≠ Table.global)
    (isValue : symbol.valueType? = some ty)
    (defined : before.define scope symbol = .ok (id, middle))
    (after_eq : after = { middle with symbols := middle.symbols.modify f register })
    (slots : ∀ symbol, (register symbol).slot? = symbol.slot?)
    (types : ∀ symbol, (register symbol).valueType? = symbol.valueType?)
    (functions : ∀ symbol, isFunction (register symbol) = isFunction symbol)
    (ordinals : ∀ symbol, (register symbol).callable?.map (·.ordinal) =
      symbol.callable?.map (·.ordinal)) (lt : f < before.symbols.size) :
    Adds scope symbol.name ty before after ∧
      after.symbols[f]? = (before.symbols[f]?).map register ∧
      ∀ id < before.symbols.size, id ≠ f → after.callableOf id = before.callableOf id := by
  obtain ⟨defines, _, registered, others⟩ := register_spec inside defined after_eq slots lt
  obtain ⟨_, pushed, _⟩ := define_eq_ok defined
  have symbols : after.symbols = (before.symbols.push symbol).modify f register := by
    rw [after_eq, pushed]
  -- What `register` does not change of a symbol is the same of all symbols that there were.
  have kept {γ : Type} (view : Symbol → Option γ) (same : ∀ s, view (register s) = view s)
      (id : SymbolId) (lt' : id < before.symbols.size) :
      (after.symbols[id]?).bind view = (before.symbols[id]?).bind view := by
    by_cases isF : id = f
    · rw [isF, registered]
      cases before.symbols[f]? with
      | none => rfl
      | some symbol => exact same symbol
    · rw [others id lt' isF]
  have new : after.symbols[before.symbols.size]? = some symbol := by
    rw [symbols, Array.getElem?_modify, if_neg (Nat.ne_of_lt lt), Array.getElem?_push_size]
  have stored : symbol.slot? ≠ none := by
    have isSome := symbol.isSome_slot?
    rw [isValue] at isSome
    exact Option.ne_none_iff_isSome.2 isSome
  have notFunction : isFunction symbol = false := by
    cases symbol <;> first | rfl | cases isValue
  refine ⟨⟨defines.sound sound (iff_of_false stored notGlobal), defines.size, defines.outer,
    defines.lookupLocal, defines.symbols, ?_, kept _ types, ?_,
    functionCount_eq functions symbols notFunction⟩, registered, ?_⟩
  · unfold typeOf
    rw [new]
    exact isValue
  · intro id lt'
    have same := kept (fun symbol => symbol.callable?.map (·.ordinal)) ordinals id lt'
    unfold ordinalOf callableOf
    rwa [Option.map_bind, Option.map_bind]
  · intro id lt' differs
    unfold callableOf
    rw [others id lt' differs]

theorem exists_define {table : Table} {scope : ScopeId} {symbol : Symbol}
    (absent : table.lookupLocal scope symbol.name = none) :
    ∃ after, table.define scope symbol = .ok (table.symbols.size, after) := by
  rw [define_eq, if_neg (by simp [absent])]
  exact ⟨_, rfl⟩

theorem isFunction_of_callable {symbol : Symbol} {callable : Callable}
    (called : symbol.callable? = some callable) :
    ∃ n ps ls, symbol = .function n callable.result ps ls callable.ordinal ∧
      ps.toList = callable.parameters := by
  cases symbol with
  | function n r ps ls k =>
    cases called
    exact ⟨n, ps, ls, rfl, rfl⟩
  | _ => cases called

theorem callableOf_eq_some {table : Table} {id : SymbolId} {callable : Callable}
    (called : table.callableOf id = some callable) :
    ∃ n ps ls, table.symbols[id]? = some (.function n callable.result ps ls callable.ordinal) ∧
      ps.toList = callable.parameters := by
  obtain ⟨symbol, present, called⟩ := Option.bind_eq_some_iff.1 called
  obtain ⟨n, ps, ls, rfl, same⟩ := isFunction_of_callable called
  exact ⟨n, ps, ls, present, same⟩

theorem callableOf_lt {table : Table} {id : SymbolId} {callable : Callable}
    (called : table.callableOf id = some callable) : id < table.symbols.size := by
  obtain ⟨_, _, _, present, _⟩ := callableOf_eq_some called
  exact (Array.getElem?_eq_some_iff.1 present).1

end Table

namespace Resolution

variable {ctx : Context} {table : Table} {f : SymbolId} {callable : Callable} {name : String}

/-- A name that the scope has already is not declared again. -/
theorem ensureNew_eq_error {scope : ScopeId} {token : Token}
    (found : (table.lookupLocal scope name).isSome) :
    ensureNew table scope name token = .error (.semantic token.pos (.redefinition name)) :=
  if_pos found

theorem ensureNew_eq_ok {scope : ScopeId} {token : Token}
    (absent : table.lookupLocal scope name = none) : ensureNew table scope name token = .ok () :=
  if_neg (by simp [absent])

theorem declareVariable_of_new (token : Token) (ty : Ty) (sound : table.Sound)
    (inside : ctx.scope < table.scopes.size) (notGlobal : ctx.scope ≠ Table.global)
    (inFunction : ctx.function = some f)
    (called : table.callableOf f = some callable)
    (absent : table.lookupLocal ctx.scope name = none) :
    ∃ after, declareVariable ctx token name ty table = .ok after ∧
      Table.Adds ctx.scope name ty table after ∧
      ∀ id < table.symbols.size, after.callableOf id = table.callableOf id := by
  obtain ⟨n, ps, ls, present, same⟩ := Table.callableOf_eq_some called
  obtain ⟨middle, defined⟩ : ∃ middle, table.define ctx.scope (.localVariable name ty ls.size) =
      .ok (table.symbols.size, middle) := Table.exists_define absent
  obtain ⟨adds, registered, others⟩ := Table.adds_of_define sound inside notGlobal rfl defined rfl
    (Table.slot?_registerVariable table.symbols.size) (by rintro (_ | _) <;> rfl)
    (by rintro (_ | _) <;> rfl) (by rintro (_ | _) <;> rfl) (Array.getElem?_eq_some_iff.1 present).1
  refine ⟨_, ?_, adds, fun id lt => ?_⟩
  · unfold declareVariable enclosingFunction
    rw [ensureNew_eq_ok absent, ok_bind, inFunction, ok_bind, Table.defineVariable_eq,
      Table.locals_of_function present, ok_bind, defined]
    rfl
  · by_cases isF : id = f
    · unfold Table.callableOf
      rw [isF, registered, present]
      rfl
    · exact others id lt isF

theorem declareParameter_of_new (token : Token) (ty : Ty) (sound : table.Sound)
    (inside : ctx.scope < table.scopes.size) (notGlobal : ctx.scope ≠ Table.global)
    (inFunction : ctx.function = some f)
    (called : table.callableOf f = some callable)
    (absent : table.lookupLocal ctx.scope name = none) :
    ∃ after, declareParameter ctx token name ty table = .ok after ∧
      Table.Adds ctx.scope name ty table after ∧
      after.callableOf f =
        some { callable with parameters := callable.parameters ++ [table.symbols.size] } ∧
      ∀ id < table.symbols.size, id ≠ f → after.callableOf id = table.callableOf id := by
  obtain ⟨n, ps, ls, present, same⟩ := Table.callableOf_eq_some called
  obtain ⟨middle, defined⟩ : ∃ middle, table.define ctx.scope (.parameter name ty ps.size) =
      .ok (table.symbols.size, middle) := Table.exists_define absent
  obtain ⟨adds, registered, others⟩ := Table.adds_of_define sound inside notGlobal rfl defined rfl
    (Table.slot?_registerParameter table.symbols.size) (by rintro (_ | _) <;> rfl)
    (by rintro (_ | _) <;> rfl) (by rintro (_ | _) <;> rfl) (Array.getElem?_eq_some_iff.1 present).1
  refine ⟨_, ?_, adds, ?_, others⟩
  · unfold declareParameter enclosingFunction
    rw [ensureNew_eq_ok absent, ok_bind, inFunction, ok_bind, Table.defineParameter_eq,
      Table.parameters_of_function present, ok_bind, defined]
    rfl
  · unfold Table.callableOf
    rw [registered, present, ← same]
    simp [Table.registerParameter, Symbol.callable?]

end Resolution

namespace Table

/-! ## What is in sight -/

/-- The scope defines exactly the names of the block, with their types. -/
def Binds (table : Table) (scope : ScopeId) (block : List (String × Ty)) : Prop :=
  ∀ name, (table.lookupLocal scope name).map table.typeOf = (Blocks.findIn name block).map some

theorem Binds.isSome_iff {table : Table} {scope : ScopeId} {block : List (String × Ty)}
    (binds : table.Binds scope block) (name : String) :
    (table.lookupLocal scope name).isSome ↔ name ∈ block.map (·.1) := by
  have same := congrArg Option.isSome (binds name)
  rw [Option.isSome_map, Option.isSome_map] at same
  rw [same, Blocks.isSome_findIn]

/-- A scope that was just opened defines nothing. -/
theorem binds_opened (table : Table) (outer : ScopeId) :
    (table.openScope outer).Binds table.scopes.size [] := by
  intro name
  rw [lookupLocal_openScope, lookupLocal_of_le (Nat.le_refl _)]
  rfl

theorem Adds.binds {scope : ScopeId} {name : String} {ty : Ty} {before after : Table}
    {block : List (String × Ty)} (adds : Adds scope name ty before after) (sound : before.Sound)
    (absent : before.lookupLocal scope name = none) (binds : before.Binds scope block) :
    after.Binds scope (block ++ [(name, ty)]) := by
  intro other
  have bound := binds other
  rw [adds.lookupLocal, Blocks.findIn_append, Blocks.findIn_cons]
  by_cases same : other = name
  · subst same
    rw [absent] at bound
    have nowhere : Blocks.findIn other block = none := by simpa using bound.symm
    rw [if_pos ⟨rfl, rfl⟩, nowhere, if_pos rfl]
    exact congrArg some adds.new
  · rw [if_neg fun both => same both.2, if_neg fun eq => same eq.symm]
    have nothing : Blocks.findIn other ([] : List (String × Ty)) = none := rfl
    rw [nothing, Option.or_none, ← bound]
    cases found : before.lookupLocal scope other with
    | none => rfl
    | some id => exact congrArg some (adds.typeOf id (sound.lookupLocal_lt found))

/-- Outward from the scope, the table defines the names of the blocks, and then the global ones. -/
inductive Sees (table : Table) : ScopeId → Blocks Ty → Prop
  | global : Sees table Table.global []
  | inside {scope outer : ScopeId} {block : List (String × Ty)} {env : Blocks Ty} :
      scope ≠ Table.global → table.outer? scope = some outer → table.Binds scope block →
      Sees table outer env → Sees table scope (block :: env)

theorem Sees.enlarges {top : ScopeId} {next : SymbolId} {before after : Table} {scope : ScopeId}
    {env : Blocks Ty} (sound : before.Sound) (enlarges : before.Enlarges top next after)
    (inside : scope < top) (le : before.symbols.size ≤ next) (sees : before.Sees scope env) :
    after.Sees scope env := by
  induction sees with
  | global => exact .global
  | @inside scope outer block env notGlobal around binds _ ih =>
    refine .inside notGlobal ((enlarges.outer scope inside).trans around) (fun name => ?_)
      (ih (Nat.lt_trans (sound.outer_lt around) inside))
    rw [enlarges.lookupLocal scope inside notGlobal, ← binds name]
    cases found : before.lookupLocal scope name with
    | none => rfl
    | some id =>
      exact congrArg some (enlarges.typeOf id (Nat.lt_of_lt_of_le (sound.lookupLocal_lt found) le))

/-- The innermost block that has the name gives its type. Otherwise the name means what it means
globally. -/
theorem Sees.find?_eq {table : Table} {scope : ScopeId} {env : Blocks Ty} (sound : table.Sound)
    (sees : table.Sees scope env) (name : String) :
    (∃ symbol, table.find? scope name = some symbol ∧ symbol.valueType? = env.find? name ∧
      (env.find? name).isSome) ∨
    env.find? name = none ∧ table.find? scope name = table.findGlobal? name := by
  induction sees with
  | global => exact .inr ⟨rfl, rfl⟩
  | @inside scope outer block env notGlobal around binds _ ih =>
    have bound := binds name
    unfold find?
    rw [sound.lookup_eq, around, Blocks.find?_cons]
    cases found : table.lookupLocal scope name with
    | some id =>
      rw [found] at bound
      cases present : Blocks.findIn name block with
      | none =>
        rw [present] at bound
        cases bound
      | some ty =>
        rw [present] at bound
        have typed : table.typeOf id = some ty := Option.some.inj bound
        obtain ⟨symbol, isSymbol, isTy⟩ := Option.bind_eq_some_iff.1 typed
        exact .inl ⟨symbol, isSymbol, isTy, rfl⟩
    | none =>
      rw [found] at bound
      cases present : Blocks.findIn name block with
      | none => exact ih
      | some ty =>
        rw [present] at bound
        cases bound

/-- Nothing global stores a value. -/
theorem Sound.valueType?_findGlobal? {table : Table} (sound : table.Sound) {name : String}
    {symbol : Symbol} (found : table.findGlobal? name = some symbol) :
    symbol.valueType? = none := by
  obtain ⟨id, known, present⟩ := Option.bind_eq_some_iff.1 found
  obtain ⟨symbol', present', place⟩ := sound.known known
  rw [present] at present'
  cases present'
  have isSome := symbol.isSome_slot?
  rw [place.2 rfl] at isSome
  exact Option.not_isSome_iff_eq_none.1 (by simp [← isSome])

/-- A name stores a value of a type exactly if the innermost block that has it says so. -/
theorem Sees.valueType?_iff {table : Table} {scope : ScopeId} {env : Blocks Ty} {name : String}
    {ty : Ty} (sound : table.Sound) (sees : table.Sees scope env) :
    (∃ symbol, table.find? scope name = some symbol ∧ symbol.valueType? = some ty) ↔
      env.find? name = some ty := by
  rcases sees.find?_eq sound name with ⟨symbol, found, typed, _⟩ | ⟨absent, found⟩
  · rw [← typed, found]
    simp
  · rw [absent, found]
    constructor
    · rintro ⟨symbol, isGlobal, typed⟩
      rw [sound.valueType?_findGlobal? isGlobal] at typed
      cases typed
    · intro impossible
      cases impossible

/-! ## What may be called -/

/-- There is a global function of that name and signature, with an ordinal below `limit`. -/
abbrev Provides (table : Table) (limit : Nat) (name : String) (signature : Signature) : Prop :=
  ∃ id callable, table.lookupLocal Table.global name = some id ∧
    table.callableOf id = some callable ∧ callable.result = signature.result ∧
    callable.parameters.map table.typeOf = signature.inputs.map some ∧ callable.ordinal < limit

/-- The global functions with ordinals below `limit` are these, with their signatures. -/
structure Offers (table : Table) (limit : Nat) (functions : Signatures) : Prop where
  known : ∀ {name signature}, Blocks.findIn name functions = some signature →
    table.Provides limit name signature
  others : ∀ {name id ordinal}, Blocks.findIn name functions = none →
    table.lookupLocal Table.global name = some id → table.ordinalOf id = some ordinal →
    limit ≤ ordinal

theorem typeOf_lt {table : Table} {id : SymbolId} {ty : Ty} (typed : table.typeOf id = some ty) :
    id < table.symbols.size := by
  obtain ⟨symbol, present, _⟩ := Option.bind_eq_some_iff.1 typed
  exact (Array.getElem?_eq_some_iff.1 present).1

/-- Symbols that store values go on to store values of the same types. -/
theorem Continues.map_typeOf {before after : Table} (continues : before.Continues after)
    {ids : List SymbolId} {types : List Ty} (ofType : ids.map before.typeOf = types.map some) :
    ids.map after.typeOf = types.map some := by
  rw [← ofType]
  refine List.map_congr_left fun id member => continues.typeOf id ?_
  have typed : before.typeOf id ∈ types.map some := ofType ▸ List.mem_map_of_mem member
  obtain ⟨ty, _, isTy⟩ := List.mem_map.1 typed
  exact typeOf_lt isTy.symm

theorem Offers.continues {limit : Nat} {functions : Signatures} {before after : Table}
    (offers : before.Offers limit functions) (sound : before.Sound)
    (continues : before.Continues after) (le : limit ≤ before.functionCount) :
    after.Offers limit functions where
  known := by
    intro name signature found
    obtain ⟨id, callable, isGlobal, called, result, inputs, below⟩ := offers.known found
    have lt := sound.lookupLocal_lt isGlobal
    exact ⟨id, callable, continues.globals isGlobal, (continues.callableOf id lt).trans called,
      result, continues.map_typeOf inputs, below⟩
  others := by
    intro name id ordinal absent isGlobal isOrdinal
    cases earlier : before.lookupLocal Table.global name with
    | none => exact Nat.le_trans le (continues.newer earlier isGlobal isOrdinal)
    | some id' =>
      obtain rfl : id' = id := Option.some.inj ((continues.globals earlier).symm.trans isGlobal)
      rw [continues.ordinalOf id' (sound.lookupLocal_lt earlier)] at isOrdinal
      exact offers.others absent earlier isOrdinal

end Table
end MiniC
