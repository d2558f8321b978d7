import MiniC.Compilation
import MiniC.Proofs.Completeness
import MiniC.Proofs.Walking

/-!
# Exactly the well-formed programs are accepted

Functions are walked through in the order of the source. Before each of them the table knows the
signatures of the functions above it, and nothing else is global but the types. A function sees those
of the final table whose ordinals are not above its own, which are the ones above it and itself.
-/

namespace MiniC

namespace Table

/-! ## Entering a function -/

/-- A new function is the last one so far. -/
theorem continues_of_defineFunction {table middle : Table} {name : String} {returnType : Ty}
    {id : SymbolId} (sound : table.Sound)
    (defined : table.defineFunction Table.global name returnType = .ok (id, middle)) :
    table.Continues middle ∧ middle.functionCount = table.functionCount + 1 ∧
      middle.scopes.size = table.scopes.size ∧
      middle.lookupLocal Table.global name = some table.symbols.size ∧
      middle.callableOf table.symbols.size = some ⟨returnType, [], table.functionCount⟩ := by
  obtain ⟨defines, _, _⟩ := defineFunction_eq_ok sound.global_lt defined
  rw [defineFunction_eq] at defined
  obtain ⟨_, symbols, _⟩ := define_eq_ok defined
  have same {id : SymbolId} (lt : id < table.symbols.size) :
      middle.symbols[id]? = table.symbols[id]? := by
    rw [symbols, Array.getElem?_push_lt lt, Array.getElem?_eq_getElem lt]
  have called : middle.callableOf table.symbols.size =
      some ⟨returnType, [], table.functionCount⟩ := by
    unfold callableOf
    rw [symbols, Array.getElem?_push_size]
    rfl
  have callables {id : SymbolId} (lt : id < table.symbols.size) :
      middle.callableOf id = table.callableOf id := by
    unfold callableOf
    rw [same lt]
  have count : middle.functionCount = table.functionCount + 1 := by
    unfold functionCount
    rw [symbols, Array.countP_push]
    rfl
  refine ⟨?_, count, defines.size, (defines.lookupLocal _ _).trans (if_pos ⟨rfl, rfl⟩), called⟩
  constructor
  · exact defines.sound sound (by simp)
  · exact Nat.le_of_eq defines.size.symm
  · exact Nat.le_trans (Nat.le_succ _) (Nat.le_of_eq defines.symbols.symm)
  · exact Nat.le_trans (Nat.le_succ _) (Nat.le_of_eq count.symm)
  · exact fun s _ => defines.outer s
  · intro s _ notGlobal other
    rw [defines.lookupLocal, if_neg fun both => notGlobal both.1]
  · intro id lt
    unfold typeOf
    rw [same lt]
  · exact fun id lt => callables lt
  · intro id lt
    unfold ordinalOf
    rw [callables lt]
  · intro other id found
    rw [defines.lookupLocal, if_neg]
    · exact found
    · rintro ⟨_, rfl⟩
      rw [defines.fresh] at found
      cases found
  · intro other id ordinal absent found isOrdinal
    rw [defines.lookupLocal] at found
    split at found
    · cases found
      unfold ordinalOf at isOrdinal
      rw [called] at isOrdinal
      cases isOrdinal
      exact Nat.le_refl _
    · rw [absent] at found
      cases found

end Table

namespace Resolution

theorem enterFunction_of_known {table : Table} {token : Token} {name : String} {returnType : Ty}
    (found : (table.lookupLocal Table.global name).isSome) :
    enterFunction ⟨Table.global, none⟩ token name returnType table =
      .error (.semantic token.pos (.redefinition name)) := by
  unfold enterFunction
  rw [ensureNew_eq_error found]
  rfl

theorem enterFunction_of_new {table : Table} {token : Token} {name : String} (returnType : Ty)
    (absent : table.lookupLocal Table.global name = none) :
    ∃ middle, table.defineFunction Table.global name returnType = .ok (table.symbols.size, middle) ∧
      enterFunction ⟨Table.global, none⟩ token name returnType table =
        .ok (⟨middle.scopes.size, some table.symbols.size⟩, middle.openScope Table.global) := by
  obtain ⟨middle, defined⟩ : ∃ middle, table.defineFunction Table.global name returnType =
      .ok (table.symbols.size, middle) := by
    rw [Table.defineFunction_eq]
    exact Table.exists_define absent
  refine ⟨middle, defined, ?_⟩
  unfold enterFunction
  rw [ensureNew_eq_ok absent, ok_bind, defined]
  rfl

end Resolution

namespace Table

/-! ## The functions so far -/

/-- The global names are the types and these functions, whose ordinals are below `limit`. -/
structure Knows (table : Table) (limit : Nat) (known : Signatures) : Prop where
  sound : table.Sound
  bound : limit ≤ table.functionCount
  functions : ∀ {name signature}, Blocks.findIn name known = some signature →
    table.Provides limit name signature
  types : ∀ {name id}, Blocks.findIn name known = none →
    table.lookupLocal Table.global name = some id →
    ∃ ty : Ty, name = ty.name ∧ table.symbols[id]? = some (.builtinType ty)

theorem Knows.offers {table : Table} {limit : Nat} {known : Signatures}
    (knows : table.Knows limit known) : table.Offers limit known where
  known := knows.functions
  others := by
    intro name id ordinal absent found isOrdinal
    obtain ⟨ty, _, present⟩ := knows.types absent found
    unfold ordinalOf callableOf at isOrdinal
    rw [present] at isOrdinal
    cases isOrdinal

/-- A name that is not a type is defined exactly if a function has it. -/
theorem Knows.isSome_iff {table : Table} {limit : Nat} {known : Signatures}
    (knows : table.Knows limit known) {name : String} (notType : ∀ ty : Ty, name ≠ ty.name) :
    (table.lookupLocal Table.global name).isSome ↔ name ∈ known.map (·.1) := by
  rw [← Blocks.isSome_findIn]
  cases found : Blocks.findIn name known with
  | some signature =>
    obtain ⟨id, _, isGlobal, _⟩ := knows.functions found
    rw [isGlobal]
    rfl
  | none =>
    cases isGlobal : table.lookupLocal Table.global name with
    | none => rfl
    | some id =>
      obtain ⟨ty, isType, _⟩ := knows.types found isGlobal
      exact absurd isType (notType ty)

theorem knows_initial : initial.Knows 0 [] where
  sound := sound_initial
  bound := Nat.zero_le _
  functions found := by cases found
  types := by
    intro name id _ found
    obtain ⟨entry, member, rfl⟩ := Option.map_eq_some_iff.1 found
    have isName : entry.1 = name := by simpa using Array.find?_some member
    have cases_of : entry = ("int", 0) ∨ entry = ("double", 1) := by
      simpa [initial] using Array.mem_of_find?_eq_some member
    subst isName
    rcases cases_of with rfl | rfl
    · exact ⟨.int, rfl, rfl⟩
    · exact ⟨.double, rfl, rfl⟩

end Table

namespace Node

open Resolution Table

/-! ## Functions -/

section Function

variable {table : Table} {limit : Nat} {known : Signatures} {info : Info} {returnType : Ty}
  {name : String} {parameters : List Node} {body : Node}

theorem functionsTyped_cons {later : List Node} :
    FunctionsTyped known (function info returnType name parameters body :: later) ↔
      name ∉ known.map (·.1) ∧ (declaredNames parameters).Nodup ∧
        WellTyped ((name, signatureWith parameters returnType) :: known) returnType
          [declaredTypes parameters] body ∧
        FunctionsTyped ((name, signatureWith parameters returnType) :: known) later := by
  constructor
  · intro typed
    cases typed with
    | cons isNew distinct isTyped areTyped => exact ⟨isNew, distinct, isTyped, areTyped⟩
  · rintro ⟨isNew, distinct, isTyped, areTyped⟩
    exact .cons isNew distinct isTyped areTyped

/-- What walking through the parameters of a new function leaves behind. -/
structure Entered (table : Table) (name : String) (returnType : Ty) (parameters : List Node)
    (scope : ScopeId) (walked : List Node) (after : Table) : Prop where
  defined : after.lookupLocal Table.global name = some table.symbols.size
  distinct : (declaredNames parameters).Nodup
  continues : table.Continues after
  place : Inside ⟨scope, some table.symbols.size⟩ after [declaredTypes parameters]
  signature : ∃ inputs,
    after.callableOf table.symbols.size = some ⟨returnType, inputs, table.functionCount⟩ ∧
    inputs.map after.typeOf = (signatureWith parameters returnType).inputs.map some
  functions : table.functionCount < after.functionCount
  named : ∀ T current, checkNamesAll T current walked = .ok current
  typed : ∀ T result, checkTypesAll T result walked = .ok ()

theorem walkAll_entered {middle : Table} (sound : table.Sound)
    (areParameters : ∀ node ∈ parameters, node.IsParameter)
    (defined : table.defineFunction Table.global name returnType =
      .ok (table.symbols.size, middle)) :
    ((walkAll ⟨middle.scopes.size, some table.symbols.size⟩ (middle.openScope Table.global)
        parameters).Redefines ∧ ¬ (declaredNames parameters).Nodup) ∨
    ∃ walked after,
      walkAll ⟨middle.scopes.size, some table.symbols.size⟩ (middle.openScope Table.global)
        parameters = (walked, .ok after) ∧
      Entered table name returnType parameters middle.scopes.size walked after := by
  obtain ⟨defines, count, sameSize, isGlobal, called⟩ := continues_of_defineFunction sound defined
  have opens := defines.sound.continues_openScope defines.sound.global_lt
  have inner : middle.scopes.size < (middle.openScope Table.global).scopes.size := by simp
  have notGlobal : middle.scopes.size ≠ Table.global := Nat.ne_of_gt defines.sound.global_lt
  have outcome := @walkAll_declared ⟨middle.scopes.size, some table.symbols.size⟩
    table.symbols.size parameters (fun node member => .inr (areParameters node member))
    (middle.openScope Table.global) _ [] opens.sound inner notGlobal rfl called
    (middle.binds_opened Table.global) List.nodup_nil
  rcases outcome with ⟨redefines, repeated⟩ | ⟨walked, after, found, declared⟩
  · exact .inl ⟨redefines, repeated⟩
  have enlarges : (middle.openScope Table.global).Enlarges table.scopes.size table.symbols.size
      after := by
    rw [← sameSize]
    exact declared.enlarges (defines.trans opens).symbols fun lt => absurd lt (Nat.lt_irrefl _)
  have continues : table.Continues after := Enlarges.trans (defines.trans opens) enlarges
  obtain ⟨inputs, called', ofType⟩ := declared.inputs
  refine .inr ⟨walked, after, found, enlarges.globals (opens.globals isGlobal), declared.distinct,
    continues, ?_, ?_, ?_, declared.named, declared.typed⟩
  · refine ⟨continues.sound, declared.size ▸ inner, ⟨_, _, rfl, called'⟩, ?_⟩
    refine .inside notGlobal ?_ declared.binds .global
    rw [declared.outer, outer?_openScope, if_pos rfl]
  · refine ⟨inputs, called', ?_⟩
    rw [ofType, parameterTypes_of_parameters areParameters]
    rfl
  · exact Nat.lt_of_lt_of_le (count ▸ Nat.lt_succ_self _) enlarges.functions

/-- A function that was walked through is one more that is known. -/
theorem knows_of_walk {walked : Node} {inputs : List SymbolId} {after : Table}
    (knows : table.Knows limit known)
    (isFunction : (function info returnType name parameters body).IsFunction)
    (found : (function info returnType name parameters body).walk ⟨Table.global, none⟩ table =
      (walked, .ok after))
    (continues : table.Continues after) (grown : table.functionCount < after.functionCount)
    (called : after.callableOf table.symbols.size =
      some ⟨returnType, inputs, table.functionCount⟩)
    (ofType : inputs.map after.typeOf = (signatureWith parameters returnType).inputs.map some) :
    after.Knows (table.functionCount + 1)
      ((name, signatureWith parameters returnType) :: known) := by
  obtain ⟨isName, areParameters, isStatement⟩ := isFunction
  obtain ⟨sound', _, _, kept, _, globals, _⟩ :=
    walk_function knows.sound areParameters isStatement isName found
  have offers := knows.offers.continues knows.sound continues knows.bound
  refine ⟨sound', grown, ?_, ?_⟩
  · intro other signature isKnown
    rw [Blocks.findIn_cons] at isKnown
    split at isKnown
    · next same =>
      cases isKnown
      exact ⟨_, _, (globals other).trans (if_pos same.symm), called, rfl, ofType,
        Nat.lt_succ_self _⟩
    · obtain ⟨id, callable, isGlobal, called', result, types, below⟩ := offers.known isKnown
      exact ⟨id, callable, isGlobal, called', result, types,
        Nat.lt_succ_of_lt (Nat.lt_of_lt_of_le below knows.bound)⟩
  · intro other id absent isGlobal
    rw [Blocks.findIn_cons] at absent
    split at absent
    · cases absent
    · next differs =>
      rw [globals, if_neg fun same => differs same.symm] at isGlobal
      obtain ⟨ty, isType, present⟩ := knows.types absent isGlobal
      exact ⟨ty, isType, (kept id (knows.sound.lookupLocal_lt isGlobal)).trans present⟩

/-- The checks of a function ask for the checks of its body, with the ordinal of the function. -/
theorem checks_function {T : Table} {f : SymbolId} {callable : Callable} {ps : List Node} {b : Node}
    (isGlobal : T.lookupLocal Table.global name = some f)
    (called : T.callableOf f = some callable)
    (named : ∀ current, checkNamesAll T current ps = .ok current)
    (typed : ∀ result, checkTypesAll T result ps = .ok ())
    (handsOn : ∀ current, b.checkNames T (some callable.ordinal) = .ok current →
      current = some callable.ordinal) :
    (∀ current, (function info returnType name ps b).checkNames T none = .ok current →
      current = none) ∧
    ((function info returnType name ps b).checkNames T none = .ok none ∧
      (∃ ty, (function info returnType name ps b).typeOf T none = .ok ty) ↔
        b.checkNames T (some callable.ordinal) = .ok (some callable.ordinal) ∧
        ∃ ty, b.typeOf T (some returnType) = .ok ty) := by
  obtain ⟨n, params, ls, present, _⟩ := callableOf_eq_some called
  have enters : enterOrdinal T name none = .ok (some callable.ordinal) := by
    unfold enterOrdinal findGlobal?
    rw [isGlobal, Option.bind_some, present]
  rw [checkNames, typeOf, enters, ok_bind, named, ok_bind, typed, ok_bind]
  simp only [bind_eq_ok]
  refine ⟨?_, ?_, ?_⟩
  · rintro current ⟨_, _, last⟩
    exact (Except.ok.inj last).symm
  · rintro ⟨⟨current, isNamed, _⟩, _, ty, isTyped, _⟩
    obtain rfl := handsOn current isNamed
    exact ⟨isNamed, ty, isTyped⟩
  · rintro ⟨isNamed, ty, isTyped⟩
    exact ⟨⟨_, isNamed, rfl⟩, none, ty, isTyped, rfl⟩

/-- The walk through a function and the checks of it decide whether it follows the rules behind the
functions that are known. -/
theorem decides_function (knows : table.Knows limit known)
    (isFunction : (function info returnType name parameters body).IsFunction)
    (notType : ∀ ty : Ty, name ≠ ty.name) :
    (((function info returnType name parameters body).walk ⟨Table.global, none⟩ table).Redefines ∧
      ∀ later, ¬ FunctionsTyped known (function info returnType name parameters body :: later)) ∨
    ∃ walked after,
      (function info returnType name parameters body).walk ⟨Table.global, none⟩ table =
        (walked, .ok after) ∧ walked.functionName? = some name ∧ table.Continues after ∧
      after.Knows (table.functionCount + 1) ((name, signatureWith parameters returnType) :: known) ∧
      ∀ T later, after.Continues T →
        (∀ current, walked.checkNames T none = .ok current → current = none) ∧
        ((walked.checkNames T none = .ok none ∧ ∃ ty, walked.typeOf T none = .ok ty) ∧
          FunctionsTyped ((name, signatureWith parameters returnType) :: known) later ↔
          FunctionsTyped known (function info returnType name parameters body :: later)) := by
  have ⟨_, areParameters, isStatement⟩ := isFunction
  cases isNew : table.lookupLocal Table.global name with
  | some id =>
    have isKnown : name ∈ known.map (·.1) := (knows.isSome_iff notType).1 (by rw [isNew]; rfl)
    refine .inl ⟨⟨function (attach info Table.global) returnType name parameters body,
      info.token.pos, name, ?_⟩, fun later typed => (functionsTyped_cons.1 typed).1 isKnown⟩
    rw [walk, enterFunction_of_known (by rw [isNew]; rfl)]
  | none =>
    obtain ⟨middle, defined, enters⟩ := enterFunction_of_new returnType isNew
    have unfolded :
        (function info returnType name parameters body).walk ⟨Table.global, none⟩ table =
        ((walkAll ⟨middle.scopes.size, some table.symbols.size⟩ (middle.openScope Table.global)
          parameters).andThen (walk ⟨middle.scopes.size, some table.symbols.size⟩ · body) body).map
          fun pair => function (attach info middle.scopes.size) returnType name pair.1 pair.2 := by
      rw [walk, enters]
    rcases walkAll_entered knows.sound areParameters defined with
      ⟨redefines, repeated⟩ | ⟨ps, before, foundFirst, entered⟩
    · rw [unfolded]
      exact .inl ⟨(redefines.andThen _ _).map _, fun later typed =>
        repeated (functionsTyped_cons.1 typed).2.1⟩
    rcases decides_statement body isStatement entered.place with
      ⟨redefines, broken⟩ | ⟨b, after, foundBody, continues, decided⟩
    · rw [unfolded]
      exact .inl ⟨(Walked.Redefines.andThen_second foundFirst redefines _).map _,
        fun later typed => broken _ _ (functionsTyped_cons.1 typed).2.2.1⟩
    obtain ⟨inputs, called, ofType⟩ := entered.signature
    have called' := (continues.callableOf _ (callableOf_lt called)).trans called
    have found : (function info returnType name parameters body).walk ⟨Table.global, none⟩ table =
        (function (attach info middle.scopes.size) returnType name ps b, .ok after) := by
      rw [unfolded, Walked.andThen_eq_ok.2 ⟨before, foundFirst, foundBody⟩]
      rfl
    have knows' := knows_of_walk knows isFunction found (entered.continues.trans continues)
      (Nat.lt_of_lt_of_le entered.functions continues.functions) called'
      (continues.map_typeOf ofType)
    refine .inr ⟨_, after, found, rfl, entered.continues.trans continues, knows',
      fun T later continues' => ?_⟩
    -- The body is checked with the ordinal of its function, and up to that one the later table
    -- offers just what is known here.
    have offers := knows'.offers.continues knows'.sound continues' knows'.bound
    obtain ⟨handsOn, kept⟩ := decided T _ _ returnType continues' offers
    have isGlobal := continues'.globals (continues.globals entered.defined)
    have called'' := (continues'.callableOf _ (callableOf_lt called')).trans called'
    obtain ⟨handsOn', passes⟩ := checks_function isGlobal called'' (entered.named T)
      (entered.typed T) handsOn
    have isAbsent : name ∉ known.map (·.1) := by
      rw [← knows.isSome_iff notType, isNew]
      exact Bool.false_ne_true
    refine ⟨handsOn', ?_⟩
    rw [passes, functionsTyped_cons]
    constructor
    · rintro ⟨checked, areTyped⟩
      exact ⟨isAbsent, entered.distinct, kept.1 checked, areTyped⟩
    · rintro ⟨_, _, isTyped, areTyped⟩
      exact ⟨kept.2 isTyped, areTyped⟩

end Function

/-! ## Programs -/

theorem decides_functions {nodes : List Node} (areFunctions : ∀ node ∈ nodes, node.IsFunction)
    (notTypes : ∀ name ∈ functionNames nodes, ∀ ty : Ty, name ≠ ty.name) {table : Table}
    {limit : Nat} {known : Signatures} (knows : table.Knows limit known) :
    ((walkAll ⟨Table.global, none⟩ table nodes).Redefines ∧ ¬ FunctionsTyped known nodes) ∨
    ∃ walked after, walkAll ⟨Table.global, none⟩ table nodes = (walked, .ok after) ∧
      functionNames walked = functionNames nodes ∧ after.Sound ∧ table.Continues after ∧
      ∀ T, after.Continues T →
        ((∃ current, checkNamesAll T none walked = .ok current) ∧
          checkTypesAll T none walked = .ok () ↔ FunctionsTyped known nodes) := by
  induction nodes generalizing table limit known with
  | nil =>
    refine .inr ⟨[], table, rfl, rfl, knows.sound, .refl knows.sound, fun T _ => ?_⟩
    exact iff_of_true ⟨⟨none, rfl⟩, rfl⟩ .nil
  | cons node nodes ih =>
    obtain ⟨isFunction, areLater⟩ := List.forall_mem_cons.1 areFunctions
    cases node with
    | function info returnType name parameters body =>
      obtain ⟨notType, notLater⟩ := List.forall_mem_cons.1 notTypes
      rw [walkAll]
      rcases decides_function knows isFunction notType with
        ⟨redefines, broken⟩ | ⟨first, middle, foundFirst, isNamed, continues, knows', decided⟩
      · exact .inl ⟨(redefines.andThen _ _).map _, broken nodes⟩
      rcases ih areLater notLater knows' with
        ⟨redefines, broken⟩ | ⟨rest, after, foundRest, sameNames, sound', continues', decided'⟩
      · exact .inl ⟨(Walked.Redefines.andThen_second foundFirst redefines _).map _,
          fun typed => broken (functionsTyped_cons.1 typed).2.2.2⟩
      refine .inr ⟨first :: rest, after, ?_, ?_, sound', continues.trans continues',
        fun T later => ?_⟩
      · rw [Walked.andThen_eq_ok.2 ⟨middle, foundFirst, foundRest⟩]
        rfl
      · unfold functionNames at *
        rw [List.filterMap_cons, isNamed, List.filterMap_cons, sameNames]
        rfl
      -- Every function is checked from no ordinal on, as the one before it hands on none.
      obtain ⟨handsOn, passes⟩ := decided T nodes (continues'.trans later)
      rw [← passes, ← decided' T later, checkNamesAll, checkTypesAll]
      simp only [bind_eq_ok]
      constructor
      · rintro ⟨⟨current, current', isFirst, areNamed⟩, ty, isTyped, areTyped⟩
        obtain rfl := handsOn current' isFirst
        exact ⟨⟨isFirst, ty, isTyped⟩, ⟨current, areNamed⟩, areTyped⟩
      · rintro ⟨⟨isFirst, ty, isTyped⟩, ⟨current, areNamed⟩, areTyped⟩
        exact ⟨⟨current, none, isFirst, areNamed⟩, ty, isTyped, areTyped⟩
    | _ => exact isFunction.elim

theorem any_isMain_iff (nodes : List Node) :
    nodes.any isMain ↔ "main" ∈ functionNames nodes := by
  unfold functionNames
  rw [List.any_eq_true, List.mem_filterMap]
  refine exists_congr fun node => and_congr_right fun _ => ?_
  cases node with
  | function info returnType name parameters body =>
    exact decide_eq_true_iff.trans (Option.some_inj (a := name)).symm
  | _ => simp [isMain, functionName?]

/-- A program passes both checks if `main` is one of its functions and all of them pass. -/
theorem analyze_program_iff {info : Info} {functions : List Node} {table : Table} :
    (program info functions).analyze table = .ok () ↔ "main" ∈ functionNames functions ∧
      (∃ current, checkNamesAll table none functions = .ok current) ∧
        checkTypesAll table none functions = .ok () := by
  rw [← any_isMain_iff]
  unfold analyze checkDeclarations checkTypes
  dsimp only
  split
  · next isMain =>
    rw [checkNames, typeOf]
    simp only [bind_eq_ok, isMain, true_and]
    constructor
    · rintro ⟨_, ⟨current, areNamed, _⟩, _, ⟨_, areTyped, _⟩, _⟩
      exact ⟨⟨current, areNamed⟩, areTyped⟩
    · rintro ⟨⟨current, areNamed⟩, areTyped⟩
      exact ⟨(), ⟨current, areNamed, rfl⟩, none, ⟨(), areTyped, rfl⟩, rfl⟩
  · next notMain => simp [notMain]

/-- Resolving a program and checking it decide whether it is well formed. -/
theorem resolve_analyze_iff {tree : Node} (isProgram : tree.IsProgram)
    (notTypes : ∀ {info functions}, tree = program info functions →
      ∀ name ∈ functionNames functions, ∀ ty : Ty, name ≠ ty.name) :
    (∃ walked table, tree.resolve = (walked, .ok table) ∧ walked.analyze table = .ok ()) ↔
      tree.WellFormed := by
  cases tree with
  | program info functions =>
    have rules : (program info functions).WellFormed ↔
        "main" ∈ functionNames functions ∧ FunctionsTyped [] functions := by
      constructor
      · intro wellFormed
        cases wellFormed with
        | program areTyped hasMain => exact ⟨hasMain, areTyped⟩
      · rintro ⟨hasMain, areTyped⟩
        exact .program areTyped hasMain
    rw [resolve_eq_walk]
    rw [rules, walk]
    rcases decides_functions isProgram (notTypes rfl) knows_initial with
      ⟨⟨_, _, _, failed⟩, broken⟩ | ⟨walked, after, found, sameNames, sound, _, decided⟩
    · refine iff_of_false ?_ fun wellFormed => broken wellFormed.2
      rintro ⟨_, _, found, _⟩
      rw [failed] at found
      cases found
    · rw [found, ← decided after (.refl sound), ← sameNames, ← analyze_program_iff]
      constructor
      · rintro ⟨_, _, same, passed⟩
        cases same
        exact passed
      · intro passed
        exact ⟨_, _, rfl, passed⟩
  | _ => exact isProgram.elim

end Node

/-! ## Source texts -/

theorem Grammar.Many.function_names {word : List Token} {functions : List Node}
    (areFunctions : Grammar.Many Grammar.Function word functions) :
    ∀ name ∈ Node.functionNames functions, ∃ token ∈ word, token.kind = .identifier ∧
      token.text = name := by
  induction areFunctions with
  | nil => exact fun _ member => absurd member List.not_mem_nil
  | @cons first rest node nodes isFunction _ ih =>
    obtain ⟨_, isName, _⟩ := isFunction
    refine List.forall_mem_cons.2 ⟨⟨_, by simp, isName, rfl⟩, fun name member => ?_⟩
    obtain ⟨token, inRest, named⟩ := ih name member
    exact ⟨token, List.mem_append_right _ inRest, named⟩

/-- No function has the name of a type. -/
theorem Node.parse_function_names {source : String} {tree : Node}
    (parsed : Node.parse source = .ok tree) {info : Info} {functions : List Node}
    (isTree : tree = .program info functions) :
    ∀ name ∈ Node.functionNames functions, ∀ ty : Ty, name ≠ ty.name := by
  subst isTree
  intro name member ty
  obtain ⟨tokens, read, ⟨areFunctions, _, _⟩, _⟩ := Node.derives_of_parse parsed
  obtain ⟨token, inWord, isName, rfl⟩ := areFunctions.function_names name member
  refine @ne_typeName_of_mem_lex source token ?_ isName ty
  rw [(Lexing.toExcept_eq_ok.1 read).2]
  exact List.mem_append_left _ inWord

/-- The analysis of a source text, stage by stage. -/
theorem result_analyze (source : String) : (analyze source).result =
    Node.parse source >>= fun tree => tree.resolve.2 >>= fun table =>
      tree.resolve.1.analyze table >>= fun _ => .ok ⟨tree.resolve.1, table⟩ := by
  unfold analyze
  simp only [Traced.result_bind, Traced.result_ofExcept, Traced.result_report, ok_bind,
    Traced.result_pure]

/-- A source text passes the analysis exactly if it parses and its program is well formed. -/
theorem analyze_accepts_wellFormed (source : String) :
    (∃ analysis, (analyze source).result = .ok analysis) ↔
      ∃ tree, Node.parse source = .ok tree ∧ tree.WellFormed := by
  rw [result_analyze]
  simp only [bind_eq_ok]
  constructor
  · rintro ⟨_, tree, parsed, table, resolved, _, passed, _⟩
    exact ⟨tree, parsed, (Node.resolve_analyze_iff (Node.parse_isProgram parsed)
      (Node.parse_function_names parsed)).1 ⟨_, table, Prod.ext rfl resolved, passed⟩⟩
  · rintro ⟨tree, parsed, wellFormed⟩
    obtain ⟨walked, table, resolved, passed⟩ := (Node.resolve_analyze_iff
      (Node.parse_isProgram parsed) (Node.parse_function_names parsed)).2 wellFormed
    refine ⟨⟨walked, table⟩, tree, parsed, table, ?_⟩
    rw [resolved]
    exact ⟨rfl, (), passed, rfl⟩

end MiniC
