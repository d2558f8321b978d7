import MiniC.Proofs.Entering
import MiniC.Proofs.Ownership
import MiniC.Proofs.Retention

/-!
# Resolving mirrors the nesting of a tree

The scopes of a resolved tree are those that its functions and blocks open, numbered in pre-order
and nested as the nodes are. Every node is attached the scope that is open where it stands, and
every parameter and declaration has one symbol there, which the function around it lists.

The walk keeps track of scope and function by itself, so this is a fact about its bookkeeping and
not only about what it defines. Where it stands is compared with the nodes above (`Stands`): its
scope is that of the nearest node that opens one, and its function is the symbol of the nearest
function. Entering a node gives the table what belongs to that node, and what a table has of some
nodes and then of others it has of all of them (`Mirrors`).
-/

namespace MiniC

/-! ## Places in a tree -/

namespace Rose

variable {α : Type}

mutual
/-- All labels in pre-order, each with those above it, the nearest first. -/
def places (above : List α) : Rose α → List (α × List α)
  | node label children => (label, above) :: placesAmong (label :: above) children
def placesAmong (above : List α) : List (Rose α) → List (α × List α)
  | [] => []
  | tree :: trees => tree.places above ++ placesAmong above trees
end

mutual
theorem map_fst_places (above : List α) : (tree : Rose α) →
    (tree.places above).map Prod.fst = tree.preorder
  | node label children => by
    rw [places, List.map_cons, map_fst_placesAmong (label :: above) children, preorder]
theorem map_fst_placesAmong (above : List α) : (trees : List (Rose α)) →
    (placesAmong above trees).map Prod.fst = preorders trees
  | [] => rfl
  | tree :: trees => by
    rw [placesAmong, List.map_append, map_fst_places above tree, map_fst_placesAmong above trees,
      preorders]
end

end Rose

namespace Node

/-- The scope of the nearest node that opens one, or the global scope. -/
def around : (above : List Node) → Option ScopeId
  | [] => some Table.global
  | node :: above => if node.opens then node.scope else around above

/-- The nearest function, with the nodes above it. -/
def enclosing? : (above : List Node) → Option (Node × List Node)
  | [] => none
  | node :: above => if node.kind = .function then some (node, above) else enclosing? above

/-- The nodes of a tree in pre-order, each with the nodes above it, the nearest first. -/
def places (node : Node) : List (Node × List Node) :=
  node.shape.places []

/-- The nodes of trees that stand below others. -/
def placesAmong (above : List Node) (nodes : List Node) : List (Node × List Node) :=
  Rose.placesAmong above (nodes.map shape)

theorem placesAmong_cons (above : List Node) (node : Node) (nodes : List Node) :
    placesAmong above (node :: nodes) =
      [(node, above)] ++ placesAmong (node :: above) node.children ++ placesAmong above nodes := by
  rw [placesAmong, List.map_cons, Rose.placesAmong, shape_eq, Rose.places]
  rfl

theorem places_eq (node : Node) : node.places = placesAmong [] [node] :=
  (List.append_nil _).symm

theorem map_fst_places (node : Node) : node.places.map Prod.fst = node.descendants :=
  Rose.map_fst_places [] node.shape

end Node

open Resolution Node

/-! ## Symbols of nodes -/

/-- The symbol `id` is that of a node, where `above` are the nodes around it: it has the name and
the type of the node. A function is defined in the scope around it, a parameter or a declaration in
the scope that it is attached, and the nearest function lists it in its slot. -/
inductive Table.Registers (table : Table) : Node → (above : List Node) → (id : SymbolId) → Prop
  | function {info : Info} {returnType : Ty} {name : String} {parameters : List Node} {body : Node}
      {above : List Node} {scope : ScopeId} {id : SymbolId} {ps ls : Array SymbolId} {ordinal : Nat}
      (isAround : around above = some scope) (found : table.lookupLocal scope name = some id)
      (symbol : table.symbols[id]? = some (.function name returnType ps ls ordinal)) :
      Registers table (.function info returnType name parameters body) above id
  | parameter {info : Info} {ty : Ty} {name : String} {above : List Node} {scope : ScopeId}
      {id index : Nat} {owner : Node} {beyond : List Node} {function : SymbolId}
      {ids : Array SymbolId}
      (attached : info.scope = some scope) (found : table.lookupLocal scope name = some id)
      (symbol : table.symbols[id]? = some (.parameter name ty index))
      (enclosing : enclosing? above = some (owner, beyond))
      (isOwner : Registers table owner beyond function)
      (listed : table.parameters function = .ok ids) (isSlot : ids[index]? = some id) :
      Registers table (.parameter info ty name) above id
  | declaration {info : Info} {ty : Ty} {name : String} {above : List Node} {scope : ScopeId}
      {id index : Nat} {owner : Node} {beyond : List Node} {function : SymbolId}
      {ids : Array SymbolId}
      (attached : info.scope = some scope) (found : table.lookupLocal scope name = some id)
      (symbol : table.symbols[id]? = some (.localVariable name ty index))
      (enclosing : enclosing? above = some (owner, beyond))
      (isOwner : Registers table owner beyond function)
      (listed : table.locals function = .ok ids) (isSlot : ids[index]? = some id) :
      Registers table (.declaration info ty name) above id

theorem Table.Registers.mono {before after : Table} {node : Node} {above : List Node}
    {id : SymbolId} (registers : before.Registers node above id) (retains : before.Retains after) :
    after.Registers node above id := by
  induction registers with
  | function isAround found symbol =>
    obtain ⟨grown, symbol', grows⟩ := retains.symbols symbol
    cases grows <;> exact .function isAround (retains.names found) symbol'
  | parameter attached found symbol enclosing _ listed isSlot isOwner =>
    obtain ⟨grown, symbol', grows⟩ := retains.symbols symbol
    obtain ⟨ids, listed', isSlot'⟩ := retains.parameters listed isSlot
    cases grows
    exact .parameter attached (retains.names found) symbol' enclosing isOwner listed' isSlot'
  | declaration attached found symbol enclosing _ listed isSlot isOwner =>
    obtain ⟨grown, symbol', grows⟩ := retains.symbols symbol
    obtain ⟨ids, listed', isSlot'⟩ := retains.locals listed isSlot
    cases grows
    exact .declaration attached (retains.names found) symbol' enclosing isOwner listed' isSlot'

/-! ## What a table has of some of the nodes -/

/-- From `before` to `after` the table was given what belongs to these nodes, and nothing else. The
functions and blocks have opened one scope each, in this order, inside the scopes around them. All
other nodes are attached the scope around them. And everything that defines a symbol has one, in
this order too. -/
structure Mirrors (places : List (Node × List Node)) (before after : Table) : Prop where
  follows : before.Follows after
  scopes : after.scopes.size = before.scopes.size + (places.filter (·.1.opens)).length
  opened : ∀ {k : Nat} {node : Node} {above : List Node},
    (places.filter (·.1.opens))[k]? = some (node, above) →
    node.scope = some (before.scopes.size + k) ∧
      after.outer? (before.scopes.size + k) = around above
  attached : ∀ {node : Node} {above : List Node}, (node, above) ∈ places → node.opens = false →
    node.scope = around above
  symbols : after.symbols.size = before.symbols.size + (places.filter (·.1.declares)).length
  registered : ∀ {k : Nat} {node : Node} {above : List Node},
    (places.filter (·.1.declares))[k]? = some (node, above) →
    after.Registers node above (before.symbols.size + k)

namespace Mirrors

variable {before middle after : Table} {places places' : List (Node × List Node)} {node : Node}
  {above : List Node}

theorem nil (table : Table) : Mirrors [] table table where
  follows := .refl table
  scopes := rfl
  opened found := by cases found
  attached member := by cases member
  symbols := rfl
  registered found := by cases found

theorem length_filter_singleton {α : Type} (p : α → Bool) (item : α) :
    ([item].filter p).length = (p item).toNat := by
  rw [List.filter_singleton]
  cases p item <;> rfl

theorem getElem?_filter_singleton {α : Type} {p : α → Bool} {item found : α} {k : Nat}
    (isAt : ([item].filter p)[k]? = some found) : p item = true ∧ k = 0 ∧ found = item := by
  rw [List.filter_singleton] at isAt
  cases holds : p item with
  | false =>
    rw [holds] at isAt
    cases isAt
  | true =>
    rw [holds, cond_true, List.getElem?_singleton] at isAt
    split at isAt
    · next first =>
      cases isAt
      exact ⟨rfl, first, rfl⟩
    · cases isAt

theorem single (follows : before.Follows after)
    (scopes : after.scopes.size = before.scopes.size + node.opens.toNat)
    (opened : node.opens = true →
      node.scope = some before.scopes.size ∧ after.outer? before.scopes.size = around above)
    (attached : node.opens = false → node.scope = around above)
    (symbols : after.symbols.size = before.symbols.size + node.declares.toNat)
    (registered : node.declares = true → after.Registers node above before.symbols.size) :
    Mirrors [(node, above)] before after where
  follows := follows
  scopes := by rw [scopes, length_filter_singleton]
  opened found := by
    obtain ⟨isOpening, rfl, same⟩ := getElem?_filter_singleton found
    cases same
    exact opened isOpening
  attached member := by
    cases List.mem_singleton.1 member
    exact attached
  symbols := by rw [symbols, length_filter_singleton]
  registered found := by
    obtain ⟨isDeclaring, rfl, same⟩ := getElem?_filter_singleton found
    cases same
    exact registered isDeclaring

theorem getElem?_append_cases {α : Type} {items more : List α} {k : Nat} {item : α}
    (found : (items ++ more)[k]? = some item) :
    k < items.length ∧ items[k]? = some item ∨
      ∃ j, k = items.length + j ∧ more[j]? = some item := by
  rw [List.getElem?_append] at found
  split at found
  · next lt => exact .inl ⟨lt, found⟩
  · next le => exact .inr ⟨k - items.length, by omega, found⟩

theorem append (first : Mirrors places before middle) (second : Mirrors places' middle after) :
    Mirrors (places ++ places') before after where
  follows := first.follows.trans second.follows
  scopes := by
    rw [second.scopes, first.scopes, List.filter_append, List.length_append, Nat.add_assoc]
  opened found := by
    rw [List.filter_append] at found
    rcases getElem?_append_cases found with ⟨lt, isFirst⟩ | ⟨j, rfl, isSecond⟩
    · obtain ⟨isScope, isOuter⟩ := first.opened isFirst
      refine ⟨isScope, ?_⟩
      rw [second.follows.retains.outer, isOuter]
      rw [first.scopes]
      exact Nat.add_lt_add_left lt _
    · rw [← Nat.add_assoc, ← first.scopes]
      exact second.opened isSecond
  attached member := (List.mem_append.1 member).elim first.attached second.attached
  symbols := by
    rw [second.symbols, first.symbols, List.filter_append, List.length_append, Nat.add_assoc]
  registered found := by
    rw [List.filter_append] at found
    rcases getElem?_append_cases found with ⟨lt, isFirst⟩ | ⟨j, rfl, isSecond⟩
    · exact (first.registered isFirst).mono second.follows.retains
    · rw [← Nat.add_assoc, ← first.symbols]
      exact second.registered isSecond

end Mirrors

/-! ## Entering a node -/

/-- Scope and function are those of the nearest nodes that have them. -/
structure Stands (ctx : Context) (above : List Node) (table : Table) : Prop where
  scope : around above = some ctx.scope
  inside : ctx.scope < table.scopes.size
  function : ∀ {f : SymbolId}, ctx.function = some f →
    ∃ owner beyond, enclosing? above = some (owner, beyond) ∧ table.Registers owner beyond f

namespace Stands

variable {ctx : Context} {above : List Node} {before after : Table} {node : Node}

theorem mono (stands : Stands ctx above before) (retains : before.Retains after) :
    Stands ctx above after where
  scope := stands.scope
  inside := Nat.lt_of_lt_of_le stands.inside retains.scopes
  function inFunction := by
    obtain ⟨owner, beyond, enclosing, registers⟩ := stands.function inFunction
    exact ⟨owner, beyond, enclosing, registers.mono retains⟩

/-- A node that opens no scope changes nothing. -/
theorem below (stands : Stands ctx above before) (opensNone : node.opens = false) :
    Stands ctx (node :: above) before where
  scope := by rw [around, opensNone, if_neg Bool.false_ne_true, stands.scope]
  inside := stands.inside
  function inFunction := by
    have noFunction : node.kind ≠ .function := by
      rintro isFunction
      cases node <;> cases isFunction
      cases opensNone
    rw [enclosing?, if_neg noFunction]
    exact stands.function inFunction

end Stands

section Entering

variable {ctx inside : Context} {table start : Table} {above : List Node} {name : String} {ty : Ty}

open Table in
theorem Node.Entering.mirrors_function {info : Info} {parameters : List Node} {body : Node}
    (enters : enterFunction ctx info.token name ty table = .ok (inside, start))
    (attached : info.scope = some inside.scope) (stands : Stands ctx above table) :
    let tree := Node.function info ty name parameters body
    Mirrors [(tree, above)] table start ∧ Stands inside (tree :: above) start := by
  obtain ⟨id, middle, defined, rfl, rfl⟩ := defines_of_enterFunction enters
  obtain ⟨defines, rfl, ordinal, symbols⟩ := defineFunction_eq_ok stands.inside defined
  have performed : table.perform (.defineFunction ctx.scope name ty) =
      (.ok table.symbols.size, middle) := perform_eq_ok.2 defined
  have valid : Operation.IsValid middle (.openScope ctx.scope) := by
    change ctx.scope < middle.scopes.size
    rw [defines.size]
    exact stands.inside
  have registers : (middle.openScope ctx.scope).Registers (.function info ty name parameters body)
      above table.symbols.size := by
    have found : middle.lookupLocal ctx.scope name = some table.symbols.size := by
      rw [defines.lookupLocal, if_pos ⟨rfl, rfl⟩]
    have symbol : middle.symbols[table.symbols.size]? =
        some (.function name ty #[] #[] ordinal) := by
      rw [symbols, Array.getElem?_push_size]
    exact .function stands.scope ((lookupLocal_openScope ..).trans found) symbol
  have follows : table.Follows (middle.openScope ctx.scope) :=
    (Follows.single performed stands.inside).trans (.single rfl valid)
  refine ⟨.single follows ?_ ?_ ?_ ?_ ?_, ?_, ?_, ?_⟩
  -- The name was defined before the scope was opened, and that does not number scopes.
  · rw [size_openScope, defines.size]
    rfl
  · intro _
    rw [outer?_openScope, defines.size, if_pos rfl, ← defines.size]
    exact ⟨attached, stands.scope.symm⟩
  · intro impossible
    cases impossible
  · rw [symbols_openScope, defines.symbols]
    rfl
  · exact fun _ => registers
  · exact attached
  · rw [size_openScope]
    exact Nat.lt_succ_self _
  · intro f inFunction
    cases inFunction
    exact ⟨_, above, rfl, registers⟩

/-- A node that defines one symbol and opens no scope. -/
theorem Node.Entering.mirrors_declared {tree : Node} (opensNone : tree.opens = false)
    (declares : tree.declares = true) (attached : tree.scope = some ctx.scope)
    (stands : Stands ctx above table) (follows : table.Follows start)
    (scopes : start.scopes.size = table.scopes.size)
    (symbols : start.symbols.size = table.symbols.size + 1)
    (registers : start.Registers tree above table.symbols.size) :
    Mirrors [(tree, above)] table start ∧ Stands ctx (tree :: above) start := by
  refine ⟨.single follows ?_ ?_ ?_ ?_ ?_, (stands.mono follows.retains).below opensNone⟩
  · rw [scopes, opensNone]
    rfl
  · rw [opensNone]
    exact fun impossible => absurd impossible Bool.false_ne_true
  · exact fun _ => attached.trans stands.scope.symm
  · rw [symbols, declares]
    rfl
  · exact fun _ => registers

open Table in
/-- Entering a node gives the table what belongs to the node. -/
theorem Node.Entering.mirrors {tree : Node} (entering : Entering ctx table tree inside start)
    (attached : tree.scope = some inside.scope) (stands : Stands ctx above table) :
    Mirrors [(tree, above)] table start ∧ Stands inside (tree :: above) start := by
  cases entering with
  | function enters => exact mirrors_function enters attached stands
  | @parameter _ ty name _ declares =>
    obtain ⟨f, id, inFunction, defined⟩ := defines_of_declareParameter declares
    obtain ⟨owner, beyond, enclosing, isOwner⟩ := stands.function inFunction
    obtain ⟨n, r, ps, ls, k, _, present, _⟩ := exists_define_of_parameter defined
    obtain ⟨defines, present', _⟩ := defineParameter_eq_ok stands.inside present defined
    have performed : table.perform (.defineParameter ctx.scope f name ty) = (.ok id, start) :=
      perform_eq_ok.2 defined
    have follows : table.Follows start :=
      .single performed ⟨stands.inside, (Array.getElem?_eq_some_iff.1 present).1⟩
    refine mirrors_declared rfl rfl attached stands follows defines.size defines.symbols ?_
    refine .parameter attached ?_ (symbol_of_defineParameter present defined) enclosing
      (isOwner.mono follows.retains) (parameters_of_function present') Array.getElem?_push_size
    rw [defines.lookupLocal, if_pos ⟨rfl, rfl⟩]
  | @declaration _ ty name _ declares =>
    obtain ⟨f, id, inFunction, defined⟩ := defines_of_declareVariable declares
    obtain ⟨owner, beyond, enclosing, isOwner⟩ := stands.function inFunction
    obtain ⟨n, r, ps, ls, k, _, present, _⟩ := exists_define_of_variable defined
    obtain ⟨defines, present', _⟩ := defineVariable_eq_ok stands.inside present defined
    have performed : table.perform (.defineVariable ctx.scope f name ty) = (.ok id, start) :=
      perform_eq_ok.2 defined
    have follows : table.Follows start :=
      .single performed ⟨stands.inside, (Array.getElem?_eq_some_iff.1 present).1⟩
    refine mirrors_declared rfl rfl attached stands follows defines.size defines.symbols ?_
    refine .declaration attached ?_ (symbol_of_defineVariable present defined) enclosing
      (isOwner.mono follows.retains) (locals_of_function present') Array.getElem?_push_size
    rw [defines.lookupLocal, if_pos ⟨rfl, rfl⟩]
  | block =>
    have follows : table.Follows (table.openScope ctx.scope) :=
      .single rfl (show Operation.IsValid table (.openScope ctx.scope) from stands.inside)
    refine ⟨.single follows ?_ ?_ ?_ rfl ?_, attached, ?_, ?_⟩
    · exact size_openScope ..
    · intro _
      rw [outer?_openScope, if_pos rfl]
      exact ⟨attached, stands.scope.symm⟩
    · intro impossible
      cases impossible
    · intro impossible
      cases impossible
    · rw [size_openScope]
      exact Nat.lt_succ_self _
    · exact (stands.mono follows.retains).function
  | other opensNone declaresNone =>
    refine ⟨.single (.refl table) ?_ ?_ ?_ ?_ ?_, stands.below opensNone⟩
    · rw [opensNone]
      rfl
    · rw [opensNone]
      exact fun impossible => absurd impossible Bool.false_ne_true
    · exact fun _ => attached.trans stands.scope.symm
    · rw [declaresNone]
      rfl
    · rw [declaresNone]
      exact fun impossible => absurd impossible Bool.false_ne_true

end Entering

theorem Node.Resolved.mirrors {ctx : Context} {table after : Table} {trees above : List Node}
    (resolved : Resolved ctx table trees after) (stands : Stands ctx above table) :
    Mirrors (placesAmong above trees) table after := by
  induction resolved generalizing above with
  | nothing => exact .nil _
  | next entering attached _ _ below later =>
    -- The children stand where the node was entered, and the trees behind where the node stands.
    obtain ⟨entered, inside⟩ := entering.mirrors attached stands
    have first := entered.append (below inside)
    rw [placesAmong_cons]
    exact first.append (later (stands.mono first.follows.retains))

/-! ## Whole trees -/

namespace Node

/-- The scopes and symbols of a table are those of the nodes of a tree. -/
structure MirroredBy (tree : Node) (table : Table) : Prop where
  /-- There are the global scope and one for every function and block. -/
  scopes : table.scopes.size = 1 + (tree.descendants.filter opens).length
  /-- Functions and blocks open scopes in pre-order, and each is attached its own. -/
  opened : ∀ {k : Nat} {node : Node}, (tree.descendants.filter opens)[k]? = some node →
    node.scope = some (k + 1)
  /-- A scope lies in that of the nearest node around which opens one. -/
  outer : ∀ {node : Node} {above : List Node} {scope : ScopeId}, (node, above) ∈ tree.places →
    node.opens = true → node.scope = some scope → table.outer? scope = around above
  /-- Every other node is attached the scope around it. -/
  attached : ∀ {node : Node} {above : List Node}, (node, above) ∈ tree.places →
    node.opens = false → node.scope = around above
  /-- There are the two types, and one symbol for everything that defines one. -/
  symbols : table.symbols.size = 2 + (tree.descendants.filter declares).length
  registered : ∀ {k : Nat} {node : Node} {above : List Node},
    (tree.places.filter (·.1.declares))[k]? = some (node, above) →
    table.Registers node above (k + 2)
  single : table.Single

theorem filter_descendants (tree : Node) (p : Node → Bool) :
    tree.descendants.filter p = (tree.places.filter (p ·.1)).map Prod.fst := by
  rw [← map_fst_places, List.filter_map]
  rfl

theorem mirroredBy_of_mirrors {tree : Node} {table : Table}
    (mirrors : Mirrors tree.places .initial table) : tree.MirroredBy table where
  scopes := by
    rw [mirrors.scopes, filter_descendants, List.length_map]
    rfl
  opened found := by
    rw [filter_descendants, List.getElem?_map] at found
    obtain ⟨⟨_, above⟩, isPlace, rfl⟩ := Option.map_eq_some_iff.1 found
    rw [(mirrors.opened isPlace).1, Nat.add_comm]
    rfl
  outer member isOpening isScope := by
    have isPlace := List.mem_filter (p := (·.1.opens)).2 ⟨member, isOpening⟩
    obtain ⟨k, found⟩ := List.getElem?_of_mem isPlace
    obtain ⟨isScope', isOuter⟩ := mirrors.opened found
    rw [isScope'] at isScope
    cases isScope
    exact isOuter
  attached := mirrors.attached
  symbols := by
    rw [mirrors.symbols, filter_descendants, List.length_map]
    rfl
  registered found := by
    rw [Nat.add_comm]
    exact mirrors.registered found
  single := by
    obtain ⟨_, built⟩ := mirrors.follows.wellBuilt Table.wellBuilt_initial
    exact built.single

theorem stands_initial : Stands ⟨Table.global, none⟩ [] .initial where
  scope := rfl
  inside := by decide
  function inFunction := by cases inFunction

/-- A tree that is resolved is the tree that it was with other scopes, and those are the scopes that
its nesting gives. Resolving it once more changes nothing, so it does not matter which scopes were
attached before. -/
theorem resolve_mirrors {node tree : Node} {table : Table}
    (resolves : node.resolve = (tree, .ok table)) :
    tree.unscoped = node.unscoped ∧ tree.MirroredBy table ∧ tree.resolve = (tree, .ok table) := by
  rw [resolve_eq_walk] at resolves
  have resolved := resolved_of_walkAll [node] (walkAll_singleton_eq_ok.2 resolves)
  have kept := unscoped_walk ⟨Table.global, none⟩ .initial node
  refine ⟨?_, mirroredBy_of_mirrors ?_, ?_⟩
  · rw [← kept, resolves]
  · rw [places_eq]
    exact resolved.mirrors stands_initial
  · rw [resolve_eq_walk]
    exact walkAll_singleton_eq_ok.1 resolved.walkAll_eq

/-- A function in a block of another function, with a block, a parameter and a variable in each. The
scopes that the nodes carry before are of another table. -/
def nestedFunctions : Node :=
  let info : Info := ⟨default, some 7⟩
  let inner := function info .int "g" [parameter info .int "a"]
    (block info [declaration info .double "b"] [returnValue info (identifier info "a")])
  program info [function info .int "f" [parameter info .int "a"]
    (block info [declaration info .int "b"] [inner, block info [] [empty info]])]

theorem nestedFunctions_mirrored :
    ∃ tree table, nestedFunctions.resolve = (tree, .ok table) ∧ tree.MirroredBy table ∧
      table.scopes.size = 6 ∧ table.symbols.size = 8 ∧ table.outer? 5 = some 2 :=
  have resolved := (resolve_eq_walk nestedFunctions).trans rfl
  ⟨_, _, resolved, (resolve_mirrors resolved).2.1, by decide, by decide, by decide⟩

end Node
end MiniC
