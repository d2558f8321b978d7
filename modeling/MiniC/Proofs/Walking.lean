import MiniC.Proofs.Passing

/-!
# What walking through a function leaves to check

The rules for a function are kept by two stages. The walk finds out whether a name is defined twice
in one block. All else is left to the checks, which run after the whole program was walked through,
on a table that has grown since. So every part of a function is dealt with in the same way: either the
walk stops in it, and then it breaks the rules, or the checks on any later table pass it exactly if
it keeps them.
-/

namespace MiniC

namespace Walked

variable {α β : Type}

/-- A walk that stops at a name that is defined twice. -/
def Redefines (walked : Walked α) : Prop :=
  ∃ a pos name, walked = (a, .error (.semantic pos (.redefinition name)))

theorem Redefines.map {walked : Walked α} (redefines : walked.Redefines) (f : α → β) :
    (walked.map f).Redefines := by
  obtain ⟨a, pos, name, rfl⟩ := redefines
  exact ⟨f a, pos, name, rfl⟩

theorem Redefines.andThen {first : Walked α} (redefines : first.Redefines)
    (second : Table → Walked β) (unvisited : β) : (first.andThen second unvisited).Redefines := by
  obtain ⟨a, pos, name, rfl⟩ := redefines
  exact ⟨(a, unvisited), pos, name, rfl⟩

theorem Redefines.andThen_second {first : Walked α} {a : α} {table : Table}
    {second : Table → Walked β} (found : first = (a, .ok table))
    (redefines : (second table).Redefines) (unvisited : β) :
    (first.andThen second unvisited).Redefines := by
  obtain ⟨b, pos, name, same⟩ := redefines
  subst found
  refine ⟨(a, b), pos, name, ?_⟩
  change (((a, (second table).1), (second table).2) : Walked (α × β)) = _
  rw [same]

end Walked

namespace Node

open Resolution Table

/-! ## Declarations and parameters -/

/-- The type that a parameter adds to the signature of its function. -/
def parameterType? : Node → Option Ty
  | parameter _ ty _ => some ty
  | _ => none

def parameterTypes (nodes : List Node) : List Ty :=
  nodes.filterMap parameterType?

theorem parameterTypes_of_declarations {nodes : List Node}
    (declared : ∀ node ∈ nodes, node.IsDeclaration) : parameterTypes nodes = [] := by
  unfold parameterTypes
  rw [List.filterMap_eq_nil_iff]
  intro node member
  cases node with
  | declaration => rfl
  | _ => exact (declared _ member).elim

theorem parameterTypes_of_parameters {nodes : List Node}
    (declared : ∀ node ∈ nodes, node.IsParameter) :
    parameterTypes nodes = (declaredTypes nodes).map (·.2) := by
  induction nodes with
  | nil => rfl
  | cons node nodes ih =>
    obtain ⟨isParameter, areParameters⟩ := List.forall_mem_cons.1 declared
    cases node with
    | parameter info ty name => exact congrArg (List.cons ty) (ih areParameters)
    | _ => exact isParameter.elim

theorem map_fst_declaredTypes (nodes : List Node) :
    (declaredTypes nodes).map (·.1) = declaredNames nodes := by
  induction nodes with
  | nil => rfl
  | cons node nodes ih =>
    cases node with
    | parameter info ty name => exact congrArg (List.cons name) ih
    | declaration info ty name => exact congrArg (List.cons name) ih
    | _ => exact ih

section Declared

variable {ctx : Context} {f : SymbolId}

/-- What a declaration or a parameter that can be walked through leaves behind. -/
structure Introduced (f : SymbolId) (scope : ScopeId) (callable : Callable) (name : String) (ty : Ty)
    (node : Node) (before : Table) (walked : Node) (after : Table) : Prop where
  adds : Table.Adds scope name ty before after
  inputs : ∃ ids, after.callableOf f =
      some { callable with parameters := callable.parameters ++ ids } ∧
    ids.map after.typeOf = (parameterTypes [node]).map some
  kept : ∀ id < before.symbols.size, id ≠ f → after.callableOf id = before.callableOf id
  named : ∀ T current, walked.checkNames T current = .ok current
  typed : ∀ T result, walked.typeOf T result = .ok none

/-- Walking through a declaration or a parameter adds it to its scope, unless its name is there. -/
theorem walk_declared {node : Node} {table : Table} {callable : Callable} {name : String} {ty : Ty}
    (introduces : node.declaredType? = some (name, ty)) (sound : table.Sound)
    (inside : ctx.scope < table.scopes.size) (notGlobal : ctx.scope ≠ Table.global)
    (inFunction : ctx.function = some f) (called : table.callableOf f = some callable) :
    ((table.lookupLocal ctx.scope name).isSome → (node.walk ctx table).Redefines) ∧
    (table.lookupLocal ctx.scope name = none →
      ∃ walked after, node.walk ctx table = (walked, .ok after) ∧
        Introduced f ctx.scope callable name ty node table walked after) := by
  cases node with
  | declaration info ty' name' =>
    cases introduces
    refine ⟨fun found => ⟨declaration (attach info ctx.scope) ty name, info.token.pos, name, ?_⟩,
      fun absent => ?_⟩
    · rw [walk, declareVariable, ensureNew_eq_error found]
      rfl
    · obtain ⟨after, declares, adds, kept⟩ := declareVariable_of_new info.token ty sound inside
        notGlobal inFunction called absent
      refine ⟨declaration (attach info ctx.scope) ty name, after, by rw [walk, declares], adds,
        ⟨[], ?_, rfl⟩, fun id lt _ => kept id lt, fun _ _ => rfl, fun _ _ => rfl⟩
      rw [kept f (callableOf_lt called), called, List.append_nil]
  | parameter info ty' name' =>
    cases introduces
    refine ⟨fun found => ⟨parameter (attach info ctx.scope) ty name, info.token.pos, name, ?_⟩,
      fun absent => ?_⟩
    · rw [walk, declareParameter, ensureNew_eq_error found]
      rfl
    · obtain ⟨after, declares, adds, called', kept⟩ := declareParameter_of_new info.token ty sound
        inside notGlobal inFunction called absent
      refine ⟨parameter (attach info ctx.scope) ty name, after, by rw [walk, declares], adds,
        ⟨_, called', ?_⟩, kept, fun _ _ => rfl, fun _ _ => rfl⟩
      simp [adds.new, parameterTypes, parameterType?]
  | _ => cases introduces

/-- A function that has its parameters already is not changed by what is introduced. -/
theorem Introduced.enlarges {callable : Callable} {name : String} {ty : Ty} {node walked : Node}
    {table after : Table} {scope : ScopeId}
    (introduced : Introduced f scope callable name ty node table walked after)
    (notGlobal : scope ≠ Table.global) (called : table.callableOf f = some callable)
    {next : SymbolId} (le : next ≤ table.symbols.size)
    (settled : f < next → parameterTypes [node] = []) : table.Enlarges scope next after := by
  refine introduced.adds.enlarges notGlobal (Nat.le_refl _) le fun id lt => ?_
  by_cases isF : id = f
  · subst isF
    obtain ⟨ids, called', ofType⟩ := introduced.inputs
    rw [settled lt] at ofType
    obtain rfl := List.map_eq_nil_iff.1 ofType
    rw [called', called, List.append_nil]
  · exact introduced.kept id (Nat.lt_of_lt_of_le lt le) isF

/-- What declarations or parameters that can be walked through leave behind. -/
structure Declared (f : SymbolId) (scope : ScopeId) (callable : Callable)
    (block : List (String × Ty)) (nodes : List Node) (before : Table) (walked : List Node)
    (after : Table) : Prop where
  distinct : (block.map (·.1) ++ declaredNames nodes).Nodup
  size : after.scopes.size = before.scopes.size
  outer : ∀ s, after.outer? s = before.outer? s
  binds : after.Binds scope (block ++ declaredTypes nodes)
  typeOf : ∀ id < before.symbols.size, after.typeOf id = before.typeOf id
  inputs : ∃ ids, after.callableOf f =
      some { callable with parameters := callable.parameters ++ ids } ∧
    ids.map after.typeOf = (parameterTypes nodes).map some
  enlarges : ∀ {next}, next ≤ before.symbols.size → (f < next → parameterTypes nodes = []) →
    before.Enlarges scope next after
  named : ∀ T current, checkNamesAll T current walked = .ok current
  typed : ∀ T result, checkTypesAll T result walked = .ok ()

theorem Declared.nil {scope : ScopeId} {callable : Callable} {block : List (String × Ty)}
    {table : Table} (sound : table.Sound) (called : table.callableOf f = some callable)
    (binds : table.Binds scope block) (distinct : (block.map (·.1)).Nodup) :
    Declared f scope callable block [] table [] table where
  distinct := by simpa [declaredNames] using distinct
  size := rfl
  outer _ := rfl
  binds := by simpa [declaredTypes] using binds
  typeOf _ _ := rfl
  inputs := ⟨[], by rw [called, List.append_nil], rfl⟩
  enlarges _ _ := .refl sound
  named _ _ := rfl
  typed _ _ := rfl

theorem declaredTypes_cons {node : Node} {name : String} {ty : Ty}
    (introduces : node.declaredType? = some (name, ty)) (nodes : List Node) :
    declaredTypes (node :: nodes) = (name, ty) :: declaredTypes nodes := by
  unfold declaredTypes
  rw [List.filterMap_cons, introduces]

theorem declaredNames_cons {node : Node} {name : String} {ty : Ty}
    (introduces : node.declaredType? = some (name, ty)) (nodes : List Node) :
    declaredNames (node :: nodes) = name :: declaredNames nodes := by
  rw [← map_fst_declaredTypes, ← map_fst_declaredTypes, declaredTypes_cons introduces,
    List.map_cons]

theorem parameterTypes_cons (node : Node) (nodes : List Node) :
    parameterTypes (node :: nodes) = parameterTypes [node] ++ parameterTypes nodes := by
  unfold parameterTypes
  rw [← List.filterMap_append]
  rfl

/-- One declaration or parameter, and then others. -/
theorem Introduced.cons {scope : ScopeId} {callable : Callable} {block : List (String × Ty)}
    {name : String} {ty : Ty} {node first : Node} {nodes rest : List Node}
    {table middle after : Table} {ids : List SymbolId}
    (introduces : node.declaredType? = some (name, ty)) (notGlobal : scope ≠ Table.global)
    (called : table.callableOf f = some callable)
    (introduced : Introduced f scope callable name ty node table first middle)
    (ofType : ids.map middle.typeOf = (parameterTypes [node]).map some)
    (declared : Declared f scope { callable with parameters := callable.parameters ++ ids }
      (block ++ [(name, ty)]) nodes middle rest after) :
    Declared f scope callable block (node :: nodes) table (first :: rest) after where
  distinct := by
    have distinct := declared.distinct
    rwa [List.map_append, List.map_singleton, List.append_assoc, List.singleton_append,
      ← declaredNames_cons introduces] at distinct
  size := declared.size.trans introduced.adds.size
  outer s := (declared.outer s).trans (introduced.adds.outer s)
  binds := by
    have binds := declared.binds
    rwa [declaredTypes_cons introduces, List.append_cons]
  typeOf := by
    intro id lt
    rw [declared.typeOf id (introduced.adds.symbols ▸ Nat.lt_succ_of_lt lt),
      introduced.adds.typeOf id lt]
  inputs := by
    obtain ⟨ids', called', ofType'⟩ := declared.inputs
    refine ⟨ids ++ ids', by rw [called', List.append_assoc], ?_⟩
    rw [List.map_append, ofType', parameterTypes_cons, List.map_append, ← ofType]
    congr 1
    refine List.map_congr_left fun id member => declared.typeOf id ?_
    obtain ⟨ty', _, typed'⟩ := List.mem_map.1 (ofType ▸ List.mem_map_of_mem member)
    exact typeOf_lt typed'.symm
  enlarges := by
    intro next le settled
    rw [parameterTypes_cons] at settled
    refine (introduced.enlarges notGlobal called le fun lt =>
      (List.append_eq_nil_iff.1 (settled lt)).1).trans
        (declared.enlarges ?_ fun lt => (List.append_eq_nil_iff.1 (settled lt)).2)
    rw [introduced.adds.symbols]
    exact Nat.le_succ_of_le le
  named := by
    intro T current
    rw [checkNamesAll, introduced.named, ok_bind]
    exact declared.named T current
  typed := by
    intro T result
    rw [checkTypesAll, introduced.typed, ok_bind]
    exact declared.typed T result

/-- The scope has the names declared so far, so it has the next one exactly if that is repeated. -/
theorem walkAll_declared {nodes : List Node}
    (declared : ∀ node ∈ nodes, node.IsDeclaration ∨ node.IsParameter) {table : Table}
    {callable : Callable} {block : List (String × Ty)} (sound : table.Sound)
    (inside : ctx.scope < table.scopes.size) (notGlobal : ctx.scope ≠ Table.global)
    (inFunction : ctx.function = some f) (called : table.callableOf f = some callable)
    (binds : table.Binds ctx.scope block) (distinct : (block.map (·.1)).Nodup) :
    ((walkAll ctx table nodes).Redefines ∧
      ¬ (block.map (·.1) ++ declaredNames nodes).Nodup) ∨
    ∃ walked after, walkAll ctx table nodes = (walked, .ok after) ∧
      Declared f ctx.scope callable block nodes table walked after := by
  induction nodes generalizing table callable block with
  | nil => exact .inr ⟨[], table, rfl, .nil sound called binds distinct⟩
  | cons node nodes ih =>
    obtain ⟨isDeclared, areDeclared⟩ := List.forall_mem_cons.1 declared
    obtain ⟨name, ty, introduces⟩ : ∃ name ty, node.declaredType? = some (name, ty) := by
      cases node <;> first | exact ⟨_, _, rfl⟩ | exact (isDeclared.elim id id).elim
    have names := declaredNames_cons introduces nodes
    obtain ⟨known, new⟩ := walk_declared introduces sound inside notGlobal inFunction called
    rw [walkAll]
    cases found : table.lookupLocal ctx.scope name with
    | some id =>
      refine .inl ⟨((known (by rw [found]; rfl)).andThen _ _).map _, fun distinct' => ?_⟩
      have member : name ∈ block.map (·.1) := (binds.isSome_iff name).1 (by rw [found]; rfl)
      rw [names] at distinct'
      exact (List.nodup_append.1 distinct').2.2 name member name List.mem_cons_self rfl
    | none =>
      obtain ⟨first, middle, walkedFirst, introduced⟩ := new found
      obtain ⟨ids, called', ofType⟩ := introduced.inputs
      have adds := introduced.adds
      have absent : name ∉ block.map (·.1) := by
        rw [← binds.isSome_iff, found]
        exact Bool.false_ne_true
      have distinct' : ((block ++ [(name, ty)]).map (·.1)).Nodup := by
        rw [List.map_append, List.nodup_append]
        refine ⟨distinct, by simp, ?_⟩
        rintro other member _ (_ | ⟨_, ⟨⟩⟩) rfl
        exact absent member
      rcases ih areDeclared adds.sound (adds.size ▸ inside) called' (adds.binds sound found binds)
        distinct' with ⟨redefines, repeated⟩ | ⟨rest, after, walkedRest, declared'⟩
      · refine .inl ⟨(Walked.Redefines.andThen_second walkedFirst redefines _).map _, ?_⟩
        rwa [List.map_append, List.append_assoc, List.map_singleton, List.singleton_append,
          ← names] at repeated
      · refine .inr ⟨first :: rest, after, ?_,
          introduced.cons introduces notGlobal called ofType declared'⟩
        rw [Walked.andThen_eq_ok.2 ⟨middle, walkedFirst, walkedRest⟩]
        rfl

end Declared

/-! ## Expressions -/

mutual
/-- The types of an expression do not depend on the scopes attached to it. -/
theorem hasType_walk (ctx : Context) (table : Table) (functions : Signatures) (env : Blocks Ty) :
    (node : Node) → node.IsValue → ∀ ty,
    HasType functions env (node.walk ctx table).1 ty ↔ HasType functions env node ty
  | integer info value => fun _ ty => hasType_integer.trans hasType_integer.symm
  | real info value => fun _ ty => hasType_real.trans hasType_real.symm
  | identifier info name => fun _ ty => hasType_identifier.trans hasType_identifier.symm
  | unary info op operand => fun isValue ty => hasType_unary.trans
    ((hasType_walk ctx table functions env operand isValue ty).trans hasType_unary.symm)
  | binary info op lhs rhs => by
    rintro ⟨isLhs, isRhs⟩ ty
    have left := hasType_walk ctx table functions env lhs isLhs ty
    have right := hasType_walk ctx table functions env rhs isRhs ty
    obtain ⟨l, found, _⟩ := walk_value ctx table lhs isLhs
    obtain ⟨r, found', _⟩ := walk_value ctx table rhs isRhs
    rw [found] at left
    rw [found'] at right
    rw [walk, Walked.andThen_eq_ok.2 ⟨table, found, found'⟩]
    exact hasType_binary.trans ((and_congr left right).trans hasType_binary.symm)
  | call info callee arguments => by
    rintro ⟨isCallee, areValues⟩ ty
    have typed := haveTypes_walkAll ctx table functions env arguments areValues
    obtain ⟨xs, found, _⟩ := walkAll_values ctx table arguments areValues
    rw [found] at typed
    cases callee with
    | identifier info' name =>
      rw [walk, walk, Walked.andThen_eq_ok.2 ⟨table, rfl, found⟩]
      refine hasType_call.trans (Iff.trans ?_ hasType_call.symm)
      simp only [typed]
    | _ => exact isCallee.elim
  | empty .. | program .. | function .. | parameter .. | returnValue .. | block .. | declaration ..
  | assignment .. | ifThen .. | ifElse .. => fun isValue => isValue.elim
theorem haveTypes_walkAll (ctx : Context) (table : Table) (functions : Signatures)
    (env : Blocks Ty) : (nodes : List Node) → AreValues nodes → ∀ types,
    HaveTypes functions env (walkAll ctx table nodes).1 types ↔ HaveTypes functions env nodes types
  | [] => fun _ _ => Iff.rfl
  | node :: nodes => by
    rintro ⟨isValue, areValues⟩ types
    have first := hasType_walk ctx table functions env node isValue
    have others := haveTypes_walkAll ctx table functions env nodes areValues
    obtain ⟨x, found, _⟩ := walk_value ctx table node isValue
    obtain ⟨xs, found', _⟩ := walkAll_values ctx table nodes areValues
    rw [found] at first
    rw [found'] at others
    rw [walkAll, Walked.andThen_eq_ok.2 ⟨table, found, found'⟩]
    cases types with
    | nil => exact iff_of_false nofun nofun
    | cons ty types =>
      exact haveTypes_cons.trans ((and_congr (first ty) (others types)).trans haveTypes_cons.symm)
end

/-! ## Parts of a function -/

/-- What the two checks ask of a part of a function, and which rules they stand for. -/
structure Standard (α : Type) where
  named : α → Table → Option Nat → Except Error (Option Nat)
  typed : α → Table → Ty → Prop
  rules : Signatures → Ty → Prop

/-- The walk through a part of a function either finds a name twice in one block, against the rules,
or leaves it to the checks to find out whether the rules are kept, whatever else is walked through
after it. -/
def Standard.Decides {α : Type} (standard : Standard α) (table : Table) (walked : Walked α) :
    Prop :=
  (walked.Redefines ∧ ∀ functions result, ¬ standard.rules functions result) ∨
  ∃ a after, walked = (a, .ok after) ∧ table.Continues after ∧
    ∀ T k functions result, after.Continues T → T.Offers (k + 1) functions →
      (∀ current, standard.named a T (some k) = .ok current → current = some k) ∧
      (standard.named a T (some k) = .ok (some k) ∧ standard.typed a T result ↔
        standard.rules functions result)

namespace Standard

variable {α β : Type}

/-- One part after the other. -/
def both (first : Standard α) (second : Standard β) : Standard (α × β) where
  named pair T current := first.named pair.1 T current >>= second.named pair.2 T
  typed pair T result := first.typed pair.1 T result ∧ second.typed pair.2 T result
  rules functions result := first.rules functions result ∧ second.rules functions result

theorem Decides.andThen {first : Standard α} {second : Standard β} {table : Table}
    {walked : Walked α} {next : Table → Walked β} {unvisited : β}
    (decides : first.Decides table walked)
    (decides' : ∀ a middle, walked = (a, .ok middle) → table.Continues middle →
      second.Decides middle (next middle)) :
    (first.both second).Decides table (walked.andThen next unvisited) := by
  rcases decides with ⟨redefines, broken⟩ | ⟨a, middle, found, continues, decided⟩
  · exact .inl ⟨redefines.andThen next unvisited, fun functions result kept =>
      broken functions result kept.1⟩
  rcases decides' a middle found continues with
    ⟨redefines, broken⟩ | ⟨b, after, found', continues', decided'⟩
  · exact .inl ⟨.andThen_second found redefines unvisited, fun functions result kept =>
      broken functions result kept.2⟩
  refine .inr ⟨(a, b), after, Walked.andThen_eq_ok.2 ⟨middle, found, found'⟩,
    continues.trans continues', fun T k functions result later offers => ?_⟩
  obtain ⟨handsOn, kept⟩ := decided T k functions result (continues'.trans later) offers
  obtain ⟨handsOn', kept'⟩ := decided' T k functions result later offers
  constructor
  · intro current named
    obtain ⟨current', named, named'⟩ := bind_eq_ok.1 named
    obtain rfl := handsOn current' named
    exact handsOn' current named'
  · change ((first.named a T (some k) >>= second.named b T) = .ok (some k) ∧ _ ∧ _ ↔ _ ∧ _)
    rw [bind_current_iff handsOn, ← kept, ← kept']
    exact and_and_and_comm

theorem Decides.map {standard : Standard α} {standard' : Standard β} {table : Table}
    {walked : Walked α} {f : α → β} (decides : standard.Decides table walked)
    (named : ∀ a T current, standard'.named (f a) T current = standard.named a T current)
    (typed : ∀ a T result, standard'.typed (f a) T result ↔ standard.typed a T result)
    (rules : ∀ functions result, standard'.rules functions result ↔
      standard.rules functions result) :
    standard'.Decides table (walked.map f) := by
  rcases decides with ⟨redefines, broken⟩ | ⟨a, after, rfl, continues, decided⟩
  · exact .inl ⟨redefines.map f, fun functions result kept =>
      broken functions result ((rules functions result).1 kept)⟩
  refine .inr ⟨f a, after, rfl, continues, fun T k functions result later offers => ?_⟩
  obtain ⟨handsOn, kept⟩ := decided T k functions result later offers
  rw [named, typed, rules]
  exact ⟨handsOn, kept⟩

end Standard

/-- A place inside a function, with the blocks around it. -/
structure Inside (ctx : Context) (table : Table) (env : Blocks Ty) : Prop where
  sound : table.Sound
  inside : ctx.scope < table.scopes.size
  function : ∃ f callable, ctx.function = some f ∧ table.callableOf f = some callable
  sees : table.Sees ctx.scope env

theorem Inside.continues {ctx : Context} {table after : Table} {env : Blocks Ty}
    (place : Inside ctx table env) (continues : table.Continues after) : Inside ctx after env where
  sound := continues.sound
  inside := Nat.lt_of_lt_of_le place.inside continues.scopes
  function := by
    obtain ⟨f, callable, inFunction, called⟩ := place.function
    exact ⟨f, callable, inFunction, (continues.callableOf f (callableOf_lt called)).trans called⟩
  sees := place.sees.enlarges place.sound continues place.inside (Nat.le_refl _)

/-- An expression one of whose types is `expected` where `result` is returned. -/
def valueStandard (env : Blocks Ty) (expected : Ty → Ty → Prop) (node : Node) : Standard Node where
  named walked T current := walked.checkNames T current
  typed walked T result :=
    ∃ ty, expected result ty ∧ walked.typeOf T (some result) = .ok (some ty)
  rules functions result := ∃ ty, expected result ty ∧ HasType functions env node ty

theorem decides_value {ctx : Context} {table : Table} {env : Blocks Ty} {node : Node}
    (expected : Ty → Ty → Prop) (isValue : node.IsValue) (place : Inside ctx table env) :
    (valueStandard env expected node).Decides table (node.walk ctx table) := by
  obtain ⟨walked, found, inScope⟩ := walk_value ctx table node isValue
  refine .inr ⟨walked, table, found, .refl place.sound, fun T k functions result later offers => ?_⟩
  have place' := place.continues later
  have passes := passes_iff_hasType place'.sound place'.sees offers (some result) walked inScope
  have same := hasType_walk ctx table functions env node isValue
  rw [found] at same
  refine ⟨checkNames_value T (some k) walked inScope, ?_⟩
  change (walked.checkNames T (some k) = .ok (some k) ∧ (∃ ty, _ ∧ _) ↔ ∃ ty, _ ∧ _)
  simp only [← same, ← passes]
  unfold Passes
  constructor
  · rintro ⟨named, ty, isExpected, typed⟩
    exact ⟨ty, isExpected, named, typed⟩
  · rintro ⟨ty, isExpected, named, typed⟩
    exact ⟨named, ty, isExpected, typed⟩

/-- The declarations of a block. -/
def declarationsStandard (nodes : List Node) : Standard (List Node) where
  named walked T current := checkNamesAll T current walked
  typed walked T result := checkTypesAll T (some result) walked = .ok ()
  rules _ _ := (declaredNames nodes).Nodup

def statementStandard (env : Blocks Ty) (node : Node) : Standard Node where
  named walked T current := walked.checkNames T current
  typed walked T result := ∃ ty, walked.typeOf T (some result) = .ok ty
  rules functions result := WellTyped functions result env node

def statementsStandard (env : Blocks Ty) (nodes : List Node) : Standard (List Node) where
  named walked T current := checkNamesAll T current walked
  typed walked T result := checkTypesAll T (some result) walked = .ok ()
  rules functions result := AllWellTyped functions result env nodes

/-- The declarations at the beginning of a block, in the scope that the block opens. -/
theorem decides_declarations {ctx : Context} {table : Table} {env : Blocks Ty} {nodes : List Node}
    (declared : ∀ node ∈ nodes, node.IsDeclaration) (place : Inside ctx table env) :
    (declarationsStandard nodes).Decides table
        (walkAll { ctx with scope := table.scopes.size } (table.openScope ctx.scope) nodes) ∧
      ∀ walked after, walkAll { ctx with scope := table.scopes.size } (table.openScope ctx.scope)
        nodes = (walked, .ok after) →
        Inside { ctx with scope := table.scopes.size } after (declaredTypes nodes :: env) := by
  obtain ⟨f, callable, inFunction, called⟩ := place.function
  have opens := place.sound.continues_openScope place.inside
  have inner : table.scopes.size < (table.openScope ctx.scope).scopes.size := by simp
  have notGlobal : table.scopes.size ≠ Table.global := Nat.ne_of_gt place.sound.global_lt
  have outcome := @walkAll_declared { ctx with scope := table.scopes.size } f nodes
    (fun node member => .inl (declared node member)) (table.openScope ctx.scope) callable []
    opens.sound inner notGlobal inFunction called (table.binds_opened ctx.scope) List.nodup_nil
  rcases outcome with ⟨redefines, repeated⟩ | ⟨walked, after, found, declared'⟩
  · refine ⟨.inl ⟨redefines, fun _ _ => repeated⟩, fun walked after found => ?_⟩
    obtain ⟨_, _, _, failed⟩ := redefines
    rw [found] at failed
    cases failed
  · have continues : table.Continues after :=
      Enlarges.trans opens (declared'.enlarges (Nat.le_refl _) fun _ =>
        parameterTypes_of_declarations declared)
    constructor
    · refine .inr ⟨walked, after, found, continues, fun T k functions result _ _ => ⟨?_, ?_⟩⟩
      · intro current named
        exact Except.ok.inj (named.symm.trans (declared'.named T (some k)))
      · exact iff_of_true ⟨declared'.named T _, declared'.typed T _⟩ declared'.distinct
    · intro walked' after' found'
      rw [found] at found'
      cases found'
      refine ⟨continues.sound, declared'.size ▸ inner, ?_, ?_⟩
      · exact (place.continues continues).function
      · refine .inside notGlobal ?_ declared'.binds (place.continues continues).sees
        rw [declared'.outer, outer?_openScope, if_pos rfl]

section TypeOf

variable {T : Table} {result : Ty} {info : Info}

/-- What the check of types asks of a return of an expression. -/
theorem typeOf_returnValue_iff {value : Node} :
    (∃ ty, typeOf T (some result) (returnValue info value) = .ok ty) ↔
      value.typeOf T (some result) = .ok (some result) := by
  rw [typeOf]
  constructor
  · rintro ⟨_, typed⟩
    obtain ⟨ty, isTyped, typed⟩ := bind_required_iff.1 typed
    dsimp only at typed
    split at typed
    · cases typed
    · next same => exact Decidable.not_not.1 same ▸ isTyped
  · intro isTyped
    refine ⟨none, bind_required_iff.2 ⟨result, isTyped, ?_⟩⟩
    dsimp only
    rw [if_neg (not_not_intro rfl)]
    rfl

theorem typeOf_assignment_iff {target : String} {value : Node} :
    (∃ ty, typeOf T (some result) (assignment info target value) = .ok ty) ↔
      ∃ s ty, (assignment info target value).symbolAt T target = .ok s ∧ s.valueType? = some ty ∧
        value.typeOf T (some result) = .ok (some ty) := by
  rw [typeOf]
  constructor
  · rintro ⟨_, typed⟩
    obtain ⟨s, isSymbol, typed⟩ := bind_eq_ok.1 typed
    obtain ⟨ty, isStored, typed⟩ := bind_eq_ok.1 typed
    obtain ⟨ty', isTyped, typed⟩ := bind_required_iff.1 typed
    split at typed
    · cases typed
    · next same =>
      obtain rfl := Decidable.not_not.1 same
      exact ⟨s, ty', isSymbol, storedType_iff.1 isStored, isTyped⟩
  · rintro ⟨s, ty, isSymbol, isStored, isTyped⟩
    refine ⟨none, bind_eq_ok.2 ⟨s, isSymbol, bind_eq_ok.2 ⟨ty, storedType_iff.2 isStored,
      bind_required_iff.2 ⟨ty, isTyped, ?_⟩⟩⟩⟩
    rw [if_neg (not_not_intro rfl)]
    rfl

theorem typeOf_ifThen_iff {condition consequent : Node} :
    (∃ ty, typeOf T (some result) (ifThen info condition consequent) = .ok ty) ↔
      (∃ ty, condition.typeOf T (some result) = .ok (some ty)) ∧
        ∃ ty, consequent.typeOf T (some result) = .ok ty := by
  rw [typeOf]
  constructor
  · rintro ⟨_, typed⟩
    obtain ⟨ty, isTyped, typed⟩ := bind_required_iff.1 typed
    obtain ⟨ty', isTyped', _⟩ := bind_eq_ok.1 typed
    exact ⟨⟨ty, isTyped⟩, ty', isTyped'⟩
  · rintro ⟨⟨ty, isTyped⟩, ty', isTyped'⟩
    exact ⟨none, bind_required_iff.2 ⟨ty, isTyped, bind_eq_ok.2 ⟨ty', isTyped', rfl⟩⟩⟩

theorem typeOf_ifElse_iff {condition consequent alternative : Node} :
    (∃ ty, typeOf T (some result) (ifElse info condition consequent alternative) = .ok ty) ↔
      ((∃ ty, condition.typeOf T (some result) = .ok (some ty)) ∧
        ∃ ty, consequent.typeOf T (some result) = .ok ty) ∧
        ∃ ty, alternative.typeOf T (some result) = .ok ty := by
  rw [typeOf]
  constructor
  · rintro ⟨_, typed⟩
    obtain ⟨ty, isTyped, typed⟩ := bind_required_iff.1 typed
    obtain ⟨ty', isTyped', typed⟩ := bind_eq_ok.1 typed
    obtain ⟨ty'', isTyped'', _⟩ := bind_eq_ok.1 typed
    exact ⟨⟨⟨ty, isTyped⟩, ty', isTyped'⟩, ty'', isTyped''⟩
  · rintro ⟨⟨⟨ty, isTyped⟩, ty', isTyped'⟩, ty'', isTyped''⟩
    exact ⟨none, bind_required_iff.2 ⟨ty, isTyped, bind_eq_ok.2 ⟨ty', isTyped',
      bind_eq_ok.2 ⟨ty'', isTyped'', rfl⟩⟩⟩⟩

theorem typeOf_block_iff {declarations statements : List Node} :
    (∃ ty, typeOf T (some result) (block info declarations statements) = .ok ty) ↔
      checkTypesAll T (some result) declarations = .ok () ∧
        checkTypesAll T (some result) statements = .ok () := by
  rw [typeOf]
  constructor
  · rintro ⟨_, typed⟩
    obtain ⟨_, isTyped, typed⟩ := bind_eq_ok.1 typed
    obtain ⟨_, isTyped', _⟩ := bind_eq_ok.1 typed
    exact ⟨isTyped, isTyped'⟩
  · rintro ⟨isTyped, isTyped'⟩
    exact ⟨none, bind_eq_ok.2 ⟨(), isTyped, bind_eq_ok.2 ⟨(), isTyped', rfl⟩⟩⟩

theorem checkTypesAll_cons_iff {node : Node} {nodes : List Node} :
    checkTypesAll T (some result) (node :: nodes) = .ok () ↔
      (∃ ty, node.typeOf T (some result) = .ok ty) ∧ checkTypesAll T (some result) nodes = .ok () := by
  rw [checkTypesAll, bind_eq_ok]
  exact exists_and_right

end TypeOf

/-- The target of an assignment is looked up by both checks, and only the second one asks for its
type. -/
theorem decides_assignment {ctx : Context} {table : Table} {env : Blocks Ty} {info : Info}
    {target : String} {value : Node} (isValue : value.IsValue) (place : Inside ctx table env) :
    (statementStandard env (assignment info target value)).Decides table
      ((assignment info target value).walk ctx table) := by
  have decides := decides_value (fun _ ty => env.find? target = some ty) isValue place
  obtain ⟨walked, found, inScope⟩ := walk_value ctx table value isValue
  rw [found] at decides
  rcases decides with ⟨⟨_, _, _, failed⟩, _⟩ | ⟨_, _, same, _, decided⟩
  · cases failed
  cases same
  rw [walk, found]
  refine .inr ⟨_, table, rfl, .refl place.sound, fun T k functions result later offers => ?_⟩
  obtain ⟨handsOn, kept⟩ := decided T k functions result later offers
  have place' := place.continues later
  have symbol (s : Symbol) :
      (assignment (attach info ctx.scope) target walked).symbolAt T target = .ok s ↔
        T.find? ctx.scope target = some s := symbolAt_iff rfl
  have stored (ty : Ty) : (∃ s, T.find? ctx.scope target = some s ∧ s.valueType? = some ty) ↔
      env.find? target = some ty := place'.sees.valueType?_iff place'.sound
  constructor
  · intro current named
    obtain ⟨_, _, named⟩ := bind_eq_ok.1 named
    exact handsOn current named
  refine Iff.trans ?_ (kept.trans wellTyped_assignment.symm)
  refine Iff.trans (and_congr_right' typeOf_assignment_iff) ?_
  change (checkNames T (some k) (assignment _ target walked) = .ok (some k) ∧ _ ↔ _)
  rw [checkNames]
  constructor
  · rintro ⟨named, s, ty, isSymbol, isStored, isTyped⟩
    obtain ⟨_, _, named⟩ := bind_eq_ok.1 named
    exact ⟨named, ty, (stored ty).1 ⟨s, (symbol s).1 isSymbol, isStored⟩, isTyped⟩
  · rintro ⟨named, ty, isTarget, isTyped⟩
    obtain ⟨s, isSymbol, isStored⟩ := (stored ty).2 isTarget
    exact ⟨bind_eq_ok.2 ⟨s, (symbol s).2 isSymbol, named⟩, s, ty, (symbol s).2 isSymbol, isStored,
      isTyped⟩

/-- A condition has some type. -/
theorem Standard.condition_typed (env : Blocks Ty) (node walked : Node) (T : Table) (result : Ty) :
    (valueStandard env (fun _ _ => True) node).typed walked T result ↔
      ∃ ty, walked.typeOf T (some result) = .ok (some ty) := by
  simp only [valueStandard, true_and]

theorem Standard.condition_rules (env : Blocks Ty) (node : Node) (functions : Signatures)
    (result : Ty) : (valueStandard env (fun _ _ => True) node).rules functions result ↔
      ∃ ty, HasType functions env node ty := by
  simp only [valueStandard, true_and]

mutual
/-- The walk through a statement and the checks of it decide whether it is well typed. -/
theorem decides_statement : (node : Node) → node.IsStatement → ∀ {ctx : Context} {table : Table}
    {env : Blocks Ty}, Inside ctx table env →
    (statementStandard env node).Decides table (node.walk ctx table)
  | empty info => by
    intro _ ctx table env place
    refine .inr ⟨_, table, rfl, .refl place.sound, fun T k functions result _ _ => ⟨?_, ?_⟩⟩
    · exact fun current named => (Except.ok.inj named).symm
    · exact iff_of_true ⟨rfl, none, rfl⟩ .empty
  | returnValue info value => by
    intro isValue ctx table env place
    refine (decides_value (fun result ty => ty = result) isValue place).map (fun _ _ _ => rfl)
      (fun walked T result => ?_) fun functions result => ?_
    · exact typeOf_returnValue_iff.trans
        ⟨fun isTyped => ⟨result, rfl, isTyped⟩, fun ⟨_, isResult, isTyped⟩ => isResult ▸ isTyped⟩
    · exact wellTyped_returnValue.trans
        ⟨fun isTyped => ⟨result, rfl, isTyped⟩, fun ⟨_, isResult, isTyped⟩ => isResult ▸ isTyped⟩
  | assignment info target value => fun isStatement _ _ _ place =>
    decides_assignment isStatement.2 place
  | ifThen info condition consequent => by
    rintro ⟨isValue, isStatement⟩ ctx table env place
    rw [walk]
    refine ((decides_value (fun _ _ => True) isValue place).andThen fun _ middle _ continues =>
      decides_statement consequent isStatement (place.continues continues)).map
        (fun _ _ _ => rfl) (fun walked T result => ?_) fun functions result => ?_
    · exact typeOf_ifThen_iff.trans (and_congr_left'
        (Standard.condition_typed env condition walked.1 T result).symm)
    · exact wellTyped_ifThen.trans (and_congr_left'
        (Standard.condition_rules env condition functions result).symm)
  | ifElse info condition consequent alternative => by
    rintro ⟨isValue, isStatement, isStatement'⟩ ctx table env place
    rw [walk]
    refine (((decides_value (fun _ _ => True) isValue place).andThen fun _ middle _ continues =>
      decides_statement consequent isStatement (place.continues continues)).andThen
        fun _ middle _ continues =>
          decides_statement alternative isStatement' (place.continues continues)).map
            (fun _ _ _ => (bind_assoc _ _ _).symm) (fun walked T result => ?_)
              fun functions result => ?_
    · exact typeOf_ifElse_iff.trans (and_congr_left' (and_congr_left'
        (Standard.condition_typed env condition walked.1.1 T result).symm))
    · exact wellTyped_ifElse.trans (and_congr_left' (and_congr_left'
        (Standard.condition_rules env condition functions result).symm))
  | block info declarations statements => by
    rintro ⟨declared, areStatements⟩ ctx table env place
    obtain ⟨decides, inner⟩ := decides_declarations declared place
    rw [walk]
    exact (decides.andThen fun walked middle found _ =>
      decides_statements statements areStatements (inner walked middle found)).map
        (fun _ _ _ => rfl) (fun _ _ _ => typeOf_block_iff) fun _ _ => wellTyped_block
  | program .. | function .. | parameter .. | call .. | declaration .. | binary .. | unary ..
  | identifier .. | integer .. | real .. => fun isStatement => isStatement.elim
theorem decides_statements : (nodes : List Node) → AreStatements nodes → ∀ {ctx : Context}
    {table : Table} {env : Blocks Ty}, Inside ctx table env →
    (statementsStandard env nodes).Decides table (walkAll ctx table nodes)
  | [] => by
    intro _ ctx table env place
    refine .inr ⟨_, table, rfl, .refl place.sound, fun T k functions result _ _ => ⟨?_, ?_⟩⟩
    · exact fun current named => (Except.ok.inj named).symm
    · exact iff_of_true ⟨rfl, rfl⟩ .nil
  | node :: nodes => by
    rintro ⟨isStatement, areStatements⟩ ctx table env place
    rw [walkAll]
    exact ((decides_statement node isStatement place).andThen fun _ middle _ continues =>
      decides_statements nodes areStatements (place.continues continues)).map
        (fun _ _ _ => rfl) (fun _ _ _ => checkTypesAll_cons_iff) fun _ _ => allWellTyped_cons
end

end Node
end MiniC
