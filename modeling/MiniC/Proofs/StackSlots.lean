import Mathlib.Order.Bounds.Basic
import MiniC.Proofs.Counters

/-!
# Stack slots never alias

The slots of a function are found by name, in scopes that are nested in each other and in one that
all functions share, and temporaries are added to them while the code is made. Still, a name in the
code of a function always leads to a parameter or variable of that function. These are numbered
without gaps, so that each has four bytes of the frame to itself, the variables below the frame
pointer and the parameters above the return address.

Two facts meet here. Scopes belong to functions, also after lowering has added the temporaries
(`OwnedBy`). And every quadruple is looked up in a scope inside that of its function, because its
tree is.
-/

namespace MiniC

open Assembly (slotOffset frameSize prologue)

/-! ## Functions of the code and their scopes -/

/-- A function whose code ends in a scope that belongs to the symbol of the function. -/
def FunctionCode.OwnedIn (owner : ScopeId → Option SymbolId) (table : Table)
    (function : FunctionCode) : Prop :=
  ∃ top symbol code exit, function.body.toList = code ++ [.mark exit top] ∧
    top < table.scopes.size ∧
    table.lookupLocal Table.global function.name = some symbol ∧ owner top = some symbol

theorem FunctionCode.OwnedIn.keeps {owner owner' : ScopeId → Option SymbolId}
    {before after : Table} {function : FunctionCode} (ownedIn : function.OwnedIn owner before)
    (keeps : Table.Keeps owner owner' before after) : function.OwnedIn owner' after := by
  obtain ⟨top, symbol, code, exit, isBody, inside, known, isOwner⟩ := ownedIn
  exact ⟨top, symbol, code, exit, isBody, Nat.lt_of_lt_of_le inside keeps.size, keeps.globals known,
    (keeps.owners top inside).trans isOwner⟩

namespace Node

/-- Lowering keeps scopes with their functions, and adds integer variables only. -/
theorem LowersAll.owned {nodes : List Node} {before after : Lowering} {codes : List FunctionCode}
    (lowered : LowersAll nodes before codes after) {owner : ScopeId → Option SymbolId}
    (owned : before.table.OwnedBy owner) (ownedIn : ∀ node ∈ nodes, node.OwnedIn owner before.table) :
    ∃ owner', Table.Keeps owner owner' before.table after.table ∧
      (∀ code ∈ codes, code.OwnedIn owner' after.table) ∧
      (before.table.IntTemporaries before.temporaries →
        after.table.IntTemporaries after.temporaries) := by
  induction lowered generalizing owner with
  | nil => exact ⟨owner, .refl owned, fun _ member => absurd member List.not_mem_nil, id⟩
  | cons first _ ih =>
    obtain ⟨isOwnedIn, areOwnedIn⟩ := List.forall_mem_cons.1 ownedIn
    obtain ⟨info, returnType, parameters, body, symbol, top, inner, rfl, attached, known, isBody,
      emitted⟩ := lowerFunction_eq_ok first
    obtain ⟨top', symbol', attached', inside, known', isOwner⟩ := isOwnedIn
    rw [attached] at attached'
    cases attached'
    rw [known] at known'
    cases known'
    obtain ⟨owner₁, keeps⟩ := emitted.draws.declares.keeps owned inside isOwner
    obtain ⟨owner₂, keeps', later, typed⟩ := ih keeps.owned fun node member =>
      (areOwnedIn node member).keeps keeps
    have isOwned : FunctionCode.OwnedIn owner₁ _ _ :=
      ⟨top, symbol, inner, _, isBody, Nat.lt_of_lt_of_le inside keeps.size, keeps.globals known,
        (keeps.owners top inside).trans isOwner⟩
    exact ⟨owner₂, keeps.trans keeps', List.forall_mem_cons.2 ⟨isOwned.keeps keeps', later⟩,
      fun start => typed (emitted.draws.intTemporaries owned inside isOwner start)⟩

end Node

section Compilations

variable {source : String} {options : Options}

/-- In a program that was analyzed every scope belongs to the function that it is in. -/
theorem owned_of_analyze {analysis : Analysis} {info : Info} {functions : List Node}
    (analyzed : (analyze source).result = .ok analysis)
    (isTree : analysis.tree = .program info functions) :
    ∃ owner, analysis.table.OwnedBy owner ∧
      ∀ node ∈ functions, node.OwnedIn owner analysis.table := by
  unfold analyze at analyzed
  simp only [Traced.result_bind, Traced.result_ofExcept, Traced.result_report, ok_bind,
    Traced.result_pure] at analyzed
  obtain ⟨tree, parsed, analyzed⟩ := bind_eq_ok.1 analyzed
  obtain ⟨walked, result, found⟩ : ∃ walked result, tree.resolve = (walked, result) := ⟨_, _, rfl⟩
  rw [found] at analyzed
  obtain ⟨table, resolved, analyzed⟩ := bind_eq_ok.1 analyzed
  obtain ⟨_, _, last⟩ := bind_eq_ok.1 analyzed
  cases last
  dsimp only at resolved isTree
  subst resolved isTree
  have isProgram := Node.parse_isProgram parsed
  cases tree with
  | program info' functions' =>
    obtain ⟨_, _, owner, same, owned, ownedIn⟩ := Node.resolve_owned isProgram found
    cases same
    exact ⟨owner, owned, ownedIn⟩
  | _ => exact isProgram.elim

theorem ownedIn_folded {functions : List Node} {owner : ScopeId → Option SymbolId} {table : Table}
    (options : Options) (ownedIn : ∀ node ∈ functions, node.OwnedIn owner table) :
    ∀ node ∈ options.folded functions, node.OwnedIn owner table := by
  unfold Options.folded
  split
  · exact ownedIn
  · intro node member
    rw [Node.foldAll_eq_map] at member
    obtain ⟨original, inFunctions, rfl⟩ := List.mem_map.1 member
    have isOwned := ownedIn original inFunctions
    cases original with
    | function info returnType name parameters body => exact isOwned
    | _ => exact isOwned.elim

/-- An analyzed program is lowered function by function, folded if the options say so. -/
theorem Analysis.lowersAll {analysis : Analysis} {compilation : Compilation} {info : Info}
    {functions : List Node} (isTree : analysis.tree = .program info functions)
    (lowered : (analysis.lower options).result = .ok compilation) :
    compilation.tree = .program info (options.folded functions) ∧ ∃ after,
      Node.LowersAll (options.folded functions) ⟨analysis.table, 0, 0⟩
        compilation.code.functions after ∧ compilation.table = after.table := by
  unfold Analysis.lower at lowered
  rw [isTree] at lowered
  simp only [Traced.result_bind, result_optimize, ok_bind, Traced.result_report,
    Traced.result_pure] at lowered
  obtain ⟨code, generated, lowered⟩ := bind_eq_ok.1 lowered
  obtain ⟨listing, _, last⟩ := bind_eq_ok.1 lowered
  cases last
  obtain ⟨_, _, after, same, all, isAfter⟩ := Node.lowersAll_of_lower generated
  cases same
  exact ⟨rfl, after, all, isAfter⟩

/-- A compiled program was lowered from functions that scopes belong to. -/
theorem lowersAll_of_compile {compilation : Compilation}
    (compiled : (compile source options).result = .ok compilation) :
    ∃ info functions start after owner, compilation.tree = .program info functions ∧
      Node.ProgramIn start functions ∧ start.OwnedBy owner ∧
      (∀ node ∈ functions, node.OwnedIn owner start) ∧
      Node.LowersAll functions ⟨start, 0, 0⟩ compilation.code.functions after ∧
      compilation.table = after.table ∧ ∃ state,
        Node.LoweredTo functions state compilation.code ∧ compilation.table = state.table ∧
        (compilation.code.assemble compilation.table options.fileName).result =
          .ok compilation.listing := by
  unfold compile at compiled
  rw [Traced.result_bind] at compiled
  obtain ⟨analysis, analyzed, lowered⟩ := bind_eq_ok.1 compiled
  obtain ⟨_, info, functions, _, isTree, inTable, named, _⟩ := analyze_eq_ok analyzed
  obtain ⟨owner, owned, ownedIn⟩ := owned_of_analyze analyzed isTree
  obtain ⟨_, state, loweredTo, isTable, assembled⟩ := lower_eq_ok isTree inTable named lowered
  obtain ⟨isLowered, after, all, isAfter⟩ := analysis.lowersAll isTree lowered
  exact ⟨info, options.folded functions, analysis.table, after, owner, isLowered,
    programIn_folded options inTable, owned, ownedIn_folded options ownedIn, all, isAfter, state,
    loweredTo, isTable, assembled⟩

end Compilations

/-! ## Scopes of quadruples -/

namespace Node

mutual
/-- An expression is looked up in one scope. -/
theorem scope_of_valueCode (scope : ScopeId) : (node : Node) → ∀ next : Nat,
    ∀ quad ∈ node.valueCode scope next, quad.scope = scope
  | integer .. => by
    intro next quad member
    obtain rfl := List.mem_singleton.1 member
    rfl
  | unary info op operand => by
    intro next quad member
    rw [valueCode] at member
    rcases List.mem_append.1 member with inner | last
    · exact scope_of_valueCode scope operand _ quad inner
    · obtain rfl := List.mem_singleton.1 last
      rfl
  | binary info op lhs rhs => by
    intro next quad member
    rw [valueCode] at member
    rcases List.mem_append.1 member with inner | rest
    · exact scope_of_valueCode scope lhs _ quad inner
    rcases List.mem_append.1 rest with inner | last
    · exact scope_of_valueCode scope rhs _ quad inner
    · obtain rfl := List.mem_singleton.1 last
      rfl
  | call info callee arguments => by
    intro next quad member
    rw [valueCode] at member
    rcases List.mem_append.1 member with inner | rest
    · exact scope_of_valueCodes scope arguments _ quad inner
    rcases List.mem_append.1 rest with push | last
    · obtain ⟨value, _, rfl⟩ := List.mem_map.1 push
      rfl
    · obtain rfl := List.mem_singleton.1 last
      rfl
  | empty .. | program .. | function .. | parameter .. | returnValue .. | block .. | declaration ..
  | assignment .. | ifThen .. | ifElse .. | identifier .. | real .. =>
    fun _ _ member => absurd member List.not_mem_nil
theorem scope_of_valueCodes (scope : ScopeId) : (nodes : List Node) → ∀ next : Nat,
    ∀ quad ∈ valueCodes scope next nodes, quad.scope = scope
  | [] => fun _ _ member => absurd member List.not_mem_nil
  | node :: nodes => by
    intro next quad member
    rw [valueCodes] at member
    rcases List.mem_append.1 member with inner | inner
    · exact scope_of_valueCode scope node _ quad inner
    · exact scope_of_valueCodes scope nodes _ quad inner
end

mutual
/-- All of a statement is looked up in scopes inside that of its function. -/
theorem reaches_of_statementCode {table : Table} {top : ScopeId} (exit : Label) : (node : Node) →
    ∀ ⦃scope : ScopeId⦄ ⦃layout : Layout⦄ ⦃count next label : Nat⦄,
    node.ScopedIn table top scope layout count → table.Reaches scope top →
    ∀ quad ∈ node.statementCode exit scope next label, table.Reaches quad.scope top
  | empty .. => fun _ _ _ _ _ _ _ _ member => absurd member List.not_mem_nil
  | block info declarations statements => by
    rintro scope layout count next label ⟨inner, attached, _, reaches, _, placed⟩ _ quad member
    rw [statementCode, attached] at member
    exact reaches_of_statementsCode exit statements placed reaches quad member
  | returnValue info value | assignment info target value => by
    intro scope layout count next label _ reaches quad member
    rw [statementCode] at member
    rcases List.mem_append.1 member with inner | last
    · rw [scope_of_valueCode scope value next quad inner]
      exact reaches
    · obtain rfl := List.mem_singleton.1 last
      exact reaches
  | ifThen info condition consequent => by
    rintro scope layout count next label ⟨_, _, placed⟩ reaches quad member
    rw [statementCode] at member
    simp only [List.mem_append, List.mem_cons, List.not_mem_nil, or_false] at member
    rcases member with inner | rfl | inner | rfl
    · rw [scope_of_valueCode scope condition next quad inner]
      exact reaches
    · exact reaches
    · exact reaches_of_statementCode exit consequent placed reaches quad inner
    · exact reaches
  | ifElse info condition consequent alternative => by
    rintro scope layout count next label ⟨_, _, placed, placed'⟩ reaches quad member
    rw [statementCode] at member
    simp only [List.mem_append, List.mem_cons, List.not_mem_nil, or_false] at member
    rcases member with inner | rfl | inner | rfl | rfl | inner | rfl
    · rw [scope_of_valueCode scope condition next quad inner]
      exact reaches
    · exact reaches
    · exact reaches_of_statementCode exit consequent placed reaches quad inner
    · exact reaches
    · exact reaches
    · exact reaches_of_statementCode exit alternative placed' reaches quad inner
    · exact reaches
  | program .. | function .. | parameter .. | call .. | declaration .. | binary .. | unary ..
  | identifier .. | integer .. | real .. => fun _ _ _ _ _ placed => placed.elim
theorem reaches_of_statementsCode {table : Table} {top : ScopeId} (exit : Label) :
    (nodes : List Node) → ∀ ⦃scope : ScopeId⦄ ⦃layout : Layout⦄ ⦃count next label : Nat⦄,
    ScopedAll table top scope layout count nodes → table.Reaches scope top →
    ∀ quad ∈ statementsCode exit scope next label nodes, table.Reaches quad.scope top
  | [] => fun _ _ _ _ _ _ _ _ member => absurd member List.not_mem_nil
  | node :: nodes => by
    rintro scope layout count next label ⟨placed, placed'⟩ reaches quad member
    rw [statementsCode] at member
    rcases List.mem_append.1 member with inner | inner
    · exact reaches_of_statementCode exit node placed reaches quad inner
    · exact reaches_of_statementsCode exit nodes placed' reaches quad inner
end

end Node

/-- All of a function is looked up in scopes inside its own. -/
theorem Lowering.Has.reaches {state : Lowering} {name : String} {parameters : List Node}
    {body : Node} {top : ScopeId} {next label : Nat}
    (has : state.Has name parameters body top next label) :
    ∀ quad ∈ body.functionCode top next label, state.table.Reaches quad.scope top := by
  intro quad member
  rcases List.mem_append.1 member with inner | last
  · exact Node.reaches_of_statementCode ⟨label⟩ body has.placed (.refl top) quad inner
  · obtain rfl := List.mem_singleton.1 last
    exact .refl top

/-! ## Values in the fields of a quadruple -/

/-- The name of a value or a result in a field. The callee of a call is not one. -/
def Quad.stored? (quad : Quad) (field : Field) : Option String :=
  if quad.op = .call ∧ field = .operand1 then none else (quad.field? field).bind Operand.name?

theorem Quad.field?_of_stored? {quad : Quad} {field : Field} {name : String}
    (isStored : quad.stored? field = some name) : quad.field? field = some (.name name) := by
  unfold stored? at isStored
  split at isStored
  · cases isStored
  · obtain ⟨operand, found, named⟩ := Option.bind_eq_some_iff.1 isStored
    rw [found, Operand.name?_eq_some named]

/-- All values and results of a resolved quadruple have places. -/
theorem Quad.Resolved.stores {table : Table} {arity slots : Nat} {functions : String → Option Nat}
    {exit : Label} {quad : Quad} (resolved : quad.Resolved table arity slots functions exit)
    {field : Field} {name : String} (isStored : quad.stored? field = some name) :
    ∃ slot, table.Stores arity slots quad.scope name slot := by
  have named := Quad.field?_of_stored? isStored
  cases resolved with
  | load value stored =>
    cases field <;> cases named
    exact ⟨_, stored⟩
  | assign stored stored' =>
    cases field <;> cases named
    · exact ⟨_, stored⟩
    · exact ⟨_, stored'⟩
  | unary op stored stored' =>
    cases field <;> cases named
    · exact ⟨_, stored⟩
    · exact ⟨_, stored'⟩
  | binary op stored stored' stored'' =>
    cases field <;> cases named
    · exact ⟨_, stored⟩
    · exact ⟨_, stored'⟩
    · exact ⟨_, stored''⟩
  | param stored =>
    cases field <;> cases named
    exact ⟨_, stored⟩
  | call known stored =>
    cases field with
    | operand1 => cases isStored
    | operand2 => cases named
    | result =>
      cases named
      exact ⟨_, stored⟩
  | ret stored =>
    cases field <;> cases named
    exact ⟨_, stored⟩
  | mark | jump => cases field <;> cases named
  | jumpIfNot label stored =>
    cases field <;> cases named
    exact ⟨_, stored⟩

/-! ## Places in the frame -/

namespace Table

/-- The distance of a parameter or variable from the frame pointer. -/
def offset? (table : Table) (id : SymbolId) : Option Int :=
  (table.slotOf id).map slotOffset

/-- The words of two parameters or variables do not overlap. -/
def Apart (table : Table) (id id' : SymbolId) : Prop :=
  ∃ offset offset', table.offset? id = some offset ∧ table.offset? id' = some offset' ∧
    (offset + 4 ≤ offset' ∨ offset' + 4 ≤ offset)

/-- The frame of a function: the words of its parameters and variables, none of which overlap. -/
structure LaysOut (table : Table) (parameters locals : Array SymbolId) : Prop where
  apart : (parameters.toList ++ locals.toList).Pairwise table.Apart
  parameters : ∀ id ∈ parameters, ∃ offset, table.offset? id = some offset ∧
    16 ≤ offset ∧ offset + 4 ≤ 16 + 8 * parameters.size
  locals : ∀ id ∈ locals, ∃ offset, table.offset? id = some offset ∧
    -(frameSize locals.size : Int) ≤ offset ∧ offset + 4 ≤ 0

end Table

/-- The frame is the smallest that has room for all variables and a size that eight divides. -/
theorem isLeast_frameSize (count : Nat) :
    IsLeast {size | 8 ∣ size ∧ 4 * count ≤ size} (frameSize count) := by
  refine ⟨⟨?_, le_frameSize count⟩, ?_⟩
  · unfold frameSize
    exact Nat.dvd_mul_left _ _
  · rintro size ⟨⟨eighths, rfl⟩, room⟩
    simp only [frameSize, Ty.size]
    omega

theorem Table.Numbered.laysOut {table : Table} (numbered : table.Numbered) {function : SymbolId}
    {parameters locals : Array SymbolId} (areParameters : table.parameters function = .ok parameters)
    (areLocals : table.locals function = .ok locals) : table.LaysOut parameters locals := by
  have parameter {index : Nat} {id : SymbolId} (found : parameters[index]? = some id) :
      table.offset? id = some ((8 * index + 16 : Nat) : Int) := by
    have slot := numbered.parameters.entry function parameters index id
      (by rw [areParameters]; rfl) found
    unfold offset?
    rw [slot]
    exact congrArg some (by simp only [slotOffset, Assembly.argumentSize, Assembly.linkageSize]; omega)
  have localVariable {index : Nat} {id : SymbolId} (found : locals[index]? = some id) :
      table.offset? id = some (-((4 * (index + 1) : Nat) : Int)) := by
    have slot := numbered.locals.entry function locals index id (by rw [areLocals]; rfl) found
    unfold offset?
    rw [slot]
    exact congrArg some (by simp only [slotOffset, Ty.size]; omega)
  have le := le_frameSize locals.size
  constructor
  case apart =>
    refine List.pairwise_append.2 ⟨List.pairwise_iff_getElem.2 ?_, List.pairwise_iff_getElem.2 ?_, ?_⟩
    · intro i j lt lt' less
      refine ⟨_, _, parameter (by rw [← Array.getElem?_toList, List.getElem?_eq_getElem lt]),
        parameter (by rw [← Array.getElem?_toList, List.getElem?_eq_getElem lt']), ?_⟩
      omega
    · intro i j lt lt' less
      refine ⟨_, _, localVariable (by rw [← Array.getElem?_toList, List.getElem?_eq_getElem lt]),
        localVariable (by rw [← Array.getElem?_toList, List.getElem?_eq_getElem lt']), ?_⟩
      omega
    · intro id member id' member'
      obtain ⟨i, found⟩ := Array.getElem?_of_mem (Array.mem_toList_iff.1 member)
      obtain ⟨j, found'⟩ := Array.getElem?_of_mem (Array.mem_toList_iff.1 member')
      refine ⟨_, _, parameter found, localVariable found', ?_⟩
      omega
  case parameters =>
    intro id member
    obtain ⟨index, found⟩ := Array.getElem?_of_mem member
    have lt := (Array.getElem?_eq_some_iff.1 found).1
    refine ⟨_, parameter found, ?_, ?_⟩
    · omega
    · omega
  case locals =>
    intro id member
    obtain ⟨index, found⟩ := Array.getElem?_of_mem member
    have lt := (Array.getElem?_eq_some_iff.1 found).1
    refine ⟨_, localVariable found, ?_, ?_⟩
    · omega
    · omega

/-- The table has the parameters and variables of the function, and every value and every result in
its code is found there as one of them. -/
structure Table.Houses (table : Table) (function : FunctionCode) (symbol : SymbolId)
    (parameters locals : Array SymbolId) : Prop where
  known : table.lookupLocal Table.global function.name = some symbol
  areParameters : table.parameters symbol = .ok parameters
  areLocals : table.locals symbol = .ok locals
  stored : ∀ quad ∈ function.body, ∀ field name, quad.stored? field = some name →
    ∃ id s slot, table.lookup quad.scope name = some id ∧ table.lookupLocal s name = some id ∧
      table.slotAt quad.scope name = some slot ∧ table.slotOf id = some slot ∧
      (id ∈ parameters ∨ id ∈ locals)

/-- The table of a compiled program has all functions of the code. -/
theorem houses_of_compile {source : String} {options : Options} {compilation : Compilation}
    (compiled : (compile source options).result = .ok compilation) :
    ∃ info functions start after state owner, compilation.tree = .program info functions ∧
      Node.LowersAll functions ⟨start, 0, 0⟩ compilation.code.functions after ∧
      compilation.table.IntTemporaries after.temporaries ∧
      compilation.table = state.table ∧ Node.LoweredTo functions state compilation.code ∧
      compilation.table.OwnedBy owner ∧
      (compilation.code.assemble compilation.table options.fileName).result =
        .ok compilation.listing ∧
      ∀ function ∈ compilation.code.functions, ∃ symbol parameters locals,
        compilation.table.Houses function symbol parameters locals := by
  obtain ⟨info, functions, start, after, owner, isTree, inTable, owned, ownedIn, all, isAfter, state,
    loweredTo, isTable, assembled⟩ := lowersAll_of_compile compiled
  obtain ⟨owner', keeps, areOwned, typed⟩ := all.owned owned ownedIn
  have final := keeps.owned
  have noTemporaries : start.IntTemporaries 0 := fun _ _ _ found temporary =>
    absurd temporary (inTable.words found).not_isTemporary
  have ints := typed noTemporaries
  rw [← isAfter] at final areOwned ints
  refine ⟨info, functions, start, after, state, owner', isTree, all, ints, isTable, loweredTo, final,
    assembled, ?_⟩
  intro function member
  obtain ⟨top, symbol, code, exit, isBody, _, known, isOwner⟩ := areOwned function member
  obtain ⟨parameters, body, top', next, label, isBody', has, named⟩ := loweredTo.exists_has member
  obtain ⟨symbol', known', r, ps, ls, k, present, _, _⟩ := has.holds
  rw [← isTable] at known' present
  rw [known] at known'
  cases known'
  have sameTop : top = top' := by
    rw [isBody'] at isBody
    have last := (List.append_inj' isBody rfl).2
    cases last
    rfl
  subst sameTop
  refine ⟨symbol, ps, ls, known, Table.parameters_of_function present,
    Table.locals_of_function present, fun quad inBody field name isStored => ?_⟩
  have inCode : quad ∈ body.functionCode top next label := by
    rw [← isBody']
    exact Array.mem_toList_iff.2 inBody
  obtain ⟨slot, stored, _⟩ := (has.resolved named quad inCode).stores isStored
  have reaches := has.reaches quad inCode
  rw [← isTable] at stored reaches
  have topNotGlobal := has.notGlobal
  have owns := (final.owner_of_reaches reaches topNotGlobal).trans isOwner
  obtain ⟨id, s, found, inScope, isSlot, _, _, _, _, _, present', listed⟩ :=
    final.lists_of_slotAt owns stored
  rw [present] at present'
  cases present'
  exact ⟨id, s, slot, found, inScope, stored, isSlot, listed⟩

/-- In every function of a compiled program, each value and each result of a quadruple is that of a
parameter or variable of the function itself, found from the scope of the quadruple, and its place in
the assembly is the one that this has in the frame. No two parameters or variables of the function,
temporaries among them, share a byte. The frame has just the room that the variables need. -/
theorem slots_never_alias {source : String} {options : Options} {compilation : Compilation}
    (compiled : (compile source options).result = .ok compilation) :
    ∀ function ∈ compilation.code.functions, ∃ symbol parameters locals,
      compilation.table.lookupLocal Table.global function.name = some symbol ∧
      compilation.table.parameters symbol = .ok parameters ∧
      compilation.table.locals symbol = .ok locals ∧
      (∀ quad ∈ function.body, ∀ field name, quad.stored? field = some name →
        ∃ id offset, compilation.table.lookup quad.scope name = some id ∧
          (id ∈ parameters ∨ id ∈ locals) ∧ compilation.table.offset? id = some offset ∧
          Assembly.address compilation.table quad field = .ok (.frame offset)) ∧
      compilation.table.LaysOut parameters locals ∧
      (∃ start, OccursAt compilation.listing start
        (.entry function.name :: prologue (frameSize locals.size))) ∧
      IsLeast {size | 8 ∣ size ∧ 4 * locals.size ≤ size} (frameSize locals.size) := by
  obtain ⟨_, _, _, _, _, _, _, _, _, _, _, owned, assembled, houses⟩ := houses_of_compile compiled
  intro function member
  obtain ⟨symbol, ps, ls, housed⟩ := houses function member
  refine ⟨symbol, ps, ls, housed.known, housed.areParameters, housed.areLocals, ?_,
    owned.numbered.laysOut housed.areParameters housed.areLocals, ?_, isLeast_frameSize _⟩
  · intro quad inBody field name isStored
    obtain ⟨id, _, slot, found, _, stored, isSlot, listed⟩ := housed.stored quad inBody field name
      isStored
    refine ⟨id, slotOffset slot, found, listed, ?_,
      Assembly.address_eq (Quad.field?_of_stored? isStored) stored⟩
    unfold Table.offset?
    rw [isSlot]
    rfl
  · obtain ⟨start, occurs⟩ := exists_activeLines assembled member
    have count : Assembly.slotCount compilation.table function.name = ls.size := by
      unfold Assembly.slotCount Assembly.variableCount
      rw [housed.known]
      dsimp only
      rw [housed.areLocals]
      rfl
    unfold Assembly.activeLines at occurs
    rw [count] at occurs
    exact ⟨start, occurs.left⟩

/-- A name that stands for a parameter, for variables of two blocks, and for one of another
function. -/
def crowdedSource : String :=
  "int f(int a, int b) { { int a; a = b; } { int a; int c; a = b + 1; c = a; return f(a, c); } }
int main() { int a; a = 2; return f(a, 3); }"

theorem crowded_slots_never_alias :
    ∃ compilation, (compile crowdedSource {}).result = .ok compilation ∧
      ∃ symbol parameters locals, compilation.table.lookupLocal Table.global "f" = some symbol ∧
        compilation.table.locals symbol = .ok locals ∧ locals.size = 6 ∧
        compilation.table.LaysOut parameters locals := by
  have facts : (compile crowdedSource {}).result.toOption.any fun compilation =>
      compilation.code.functions.any (·.name = "f") &&
        ((compilation.table.lookupLocal Table.global "f").bind fun symbol =>
          (compilation.table.locals symbol).toOption.map (·.size)) == some 6 := by decide +kernel
  obtain ⟨compilation, compiled, facts⟩ := exists_ok_of_any facts
  obtain ⟨present, size⟩ := Bool.and_eq_true_iff.1 facts
  obtain ⟨function, member, isName⟩ := List.any_eq_true.1 present
  obtain ⟨symbol, parameters, locals, known, _, areLocals, _, laysOut, _⟩ :=
    slots_never_alias compiled function member
  rw [of_decide_eq_true isName] at known
  rw [known, Option.bind_some, areLocals] at size
  have isSize : locals.size = 6 := by simpa [Except.toOption] using size
  exact ⟨compilation, compiled, symbol, parameters, locals, known, areLocals, isSize, laysOut⟩

end MiniC
