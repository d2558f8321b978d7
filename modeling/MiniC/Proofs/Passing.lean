import MiniC.Checks.Types
import MiniC.Proofs.Meanings

/-!
# The checks pass what is well typed

At a place of a resolved program where the table has the names of some blocks in sight and offers
some functions, an expression passes both checks exactly if it has a type there.
-/

namespace MiniC

namespace Node

open Table

/-! ## Both checks of a node -/

/-- A node passes the check of names in a function of ordinal `k`, and the check of types with the
type `ty`, if it is an expression. -/
def Passes (table : Table) (k : Nat) (result : Option Ty) (node : Node) (ty : Option Ty) : Prop :=
  node.checkNames table (some k) = .ok (some k) ∧ node.typeOf table result = .ok ty

theorem symbolAt_iff {table : Table} {node : Node} {name : String} {scope : ScopeId}
    {symbol : Symbol} (attached : node.scope = some scope) :
    node.symbolAt table name = .ok symbol ↔ table.find? scope name = some symbol := by
  unfold symbolAt scopeOf
  rw [attached, ok_bind]
  cases table.find? scope name <;> simp [pure, Except.pure]

theorem storedType_iff {node : Node} {name : String} {symbol : Symbol} {ty : Ty} :
    node.storedType name symbol = .ok ty ↔ symbol.valueType? = some ty := by
  unfold storedType
  cases symbol.valueType? <;> simp

theorem required_iff {node : Node} {ty : Option Ty} {ty' : Ty} :
    required node ty = .ok ty' ↔ ty = some ty' := by
  cases ty <;> simp [required]

theorem bind_required_iff {β : Type} {first : Except Error (Option Ty)} {node : Node}
    {next : Ty → Except Error β} {b : β} :
    (first >>= fun ty => required node ty >>= next) = .ok b ↔
      ∃ ty, first = .ok (some ty) ∧ next ty = .ok b := by
  rw [bind_eq_ok]
  constructor
  · rintro ⟨ty, found, rest⟩
    obtain ⟨ty', isTy, rest⟩ := bind_eq_ok.1 rest
    exact ⟨ty', by rw [found, required_iff.1 isTy], rest⟩
  · rintro ⟨ty, found, rest⟩
    exact ⟨some ty, found, bind_eq_ok.2 ⟨ty, rfl, rest⟩⟩

/-- A check that hands on what it was given passes exactly if both of its parts do. -/
theorem bind_current_iff {first : Except Error (Option Nat)}
    {next : Option Nat → Except Error (Option Nat)} {current : Option Nat}
    (same : ∀ a, first = .ok a → a = current) :
    (first >>= next) = .ok current ↔ first = .ok current ∧ next current = .ok current := by
  rw [bind_eq_ok]
  constructor
  · rintro ⟨a, found, rest⟩
    obtain rfl := same a found
    exact ⟨found, rest⟩
  · rintro ⟨found, rest⟩
    exact ⟨current, found, rest⟩

mutual
/-- The check of an expression hands on the current ordinal. -/
theorem checkNames_value (table : Table) (current : Option Nat) {scope : ScopeId} :
    (node : Node) → node.ValueIn scope → ∀ a, node.checkNames table current = .ok a → a = current
  | integer .. | real .. => fun _ a checked => (Except.ok.inj checked).symm
  | identifier info name => fun _ a checked => by
    obtain ⟨_, _, rest⟩ := bind_eq_ok.1 checked
    exact (Except.ok.inj rest).symm
  | unary info op operand => fun inScope => checkNames_value table current operand inScope.2
  | binary info op lhs rhs => by
    rintro ⟨_, isLhs, isRhs⟩ a checked
    rw [checkNames] at checked
    obtain ⟨b, first, second⟩ := bind_eq_ok.1 checked
    obtain rfl := checkNames_value table current lhs isLhs b first
    exact checkNames_value table b rhs isRhs a second
  | call info callee arguments => by
    rintro ⟨_, isCallee, areValues⟩ a checked
    cases callee with
    | identifier info' name =>
      rw [checkNames] at checked
      obtain ⟨_, _, checked⟩ := bind_eq_ok.1 checked
      obtain ⟨b, first, second⟩ := bind_eq_ok.1 checked
      obtain rfl := checkNames_value table current (identifier info' name) isCallee b first
      exact checkNamesAll_values table b arguments areValues a second
    | _ => exact isCallee.elim
  | empty .. | program .. | function .. | parameter .. | returnValue .. | block .. | declaration ..
  | assignment .. | ifThen .. | ifElse .. => fun inScope => inScope.elim
theorem checkNamesAll_values (table : Table) (current : Option Nat) {scope : ScopeId} :
    (nodes : List Node) → ValuesIn scope nodes →
    ∀ a, checkNamesAll table current nodes = .ok a → a = current
  | [] => fun _ a checked => (Except.ok.inj checked).symm
  | node :: nodes => by
    rintro ⟨isValue, areValues⟩ a checked
    rw [checkNamesAll] at checked
    obtain ⟨b, first, second⟩ := bind_eq_ok.1 checked
    obtain rfl := checkNames_value table current node isValue b first
    exact checkNamesAll_values table b nodes areValues a second
end

section Values

variable {table : Table} {k : Nat} {functions : Signatures} {scope : ScopeId} {env : Blocks Ty}

theorem passes_identifier (sound : table.Sound) (sees : table.Sees scope env) (result : Option Ty)
    {info : Info} (name : String) (attached : info.scope = some scope) (ty : Ty) :
    (identifier info name).Passes table k result (some ty) ↔ env.find? name = some ty := by
  rw [← sees.valueType?_iff sound]
  unfold Passes
  rw [checkNames, typeOf, bind_eq_ok, bind_eq_ok]
  simp only [bind_eq_ok, storedType_iff,
    symbolAt_iff (show (identifier info name).scope = _ from attached)]
  constructor
  · rintro ⟨_, symbol, found, ty', typed, last⟩
    cases last
    exact ⟨symbol, found, typed⟩
  · rintro ⟨symbol, found, typed⟩
    exact ⟨⟨symbol, found, rfl⟩, symbol, found, ty, typed, rfl⟩

/-- A callee that passes is a known function that no block hides. -/
theorem signature_of_passes (sound : table.Sound) (sees : table.Sees scope env)
    (offers : table.Offers (k + 1) functions) {info : Info} {name name' : String} {pos : Position}
    {returnType : Ty} {inputs : List SymbolId} (attached : info.scope = some scope)
    (checked : checkCallee table (some k) (identifier info name) = .ok ())
    (signed : signature table pos (identifier info name) = .ok (name', returnType, inputs)) :
    ∃ known, env.find? name = none ∧ Blocks.findIn name functions = some known ∧
      known.result = returnType ∧ inputs.map table.typeOf = known.inputs.map some := by
  have attached' : (identifier info name).scope = some scope := attached
  rw [signature] at signed
  obtain ⟨symbol, found, signed⟩ := bind_eq_ok.1 signed
  rw [checkCallee, found, ok_bind] at checked
  rw [symbolAt_iff attached'] at found
  cases symbol with
  | function n r ps ls ordinal =>
    cases signed
    -- A block that has the name would make it a value.
    rcases sees.find?_eq sound name with ⟨other, found', typed, isSome⟩ | ⟨absent, isGlobal⟩
    · rw [found] at found'
      cases found'
      rw [← typed] at isSome
      cases isSome
    · rw [found] at isGlobal
      obtain ⟨id, looked, present⟩ := Option.bind_eq_some_iff.1 isGlobal.symm
      have called : table.callableOf id = some ⟨returnType, ps.toList, ordinal⟩ := by
        unfold callableOf
        rw [present]
        rfl
      have early : ¬ k < ordinal := by
        intro late
        simp only [if_pos late] at checked
        cases checked
      cases known : Blocks.findIn name functions with
      | none =>
        have late := offers.others known looked (by unfold ordinalOf; rw [called]; rfl)
        exact absurd late early
      | some signature =>
        obtain ⟨id', callable, looked', called', result, inputs, _⟩ := offers.known known
        rw [looked] at looked'
        cases looked'
        rw [called] at called'
        cases called'
        exact ⟨signature, absent, rfl, result.symm, inputs⟩
  | _ => cases signed

/-- A known function that no block hides passes as a callee. -/
theorem passes_of_signature (sound : table.Sound) (sees : table.Sees scope env)
    (offers : table.Offers (k + 1) functions) {info : Info} {name : String} {known : Signature}
    (attached : info.scope = some scope) (absent : env.find? name = none)
    (found : Blocks.findIn name functions = some known) (pos : Position) :
    checkCallee table (some k) (identifier info name) = .ok () ∧
      (identifier info name).checkNames table (some k) = .ok (some k) ∧
      ∃ inputs, signature table pos (identifier info name) = .ok (name, known.result, inputs) ∧
        inputs.map table.typeOf = known.inputs.map some := by
  obtain ⟨id, callable, looked, called, result, inputs, below⟩ := offers.known found
  obtain ⟨n, ps, ls, present, isParameters⟩ := callableOf_eq_some called
  have isGlobal : table.find? scope name = table.findGlobal? name := by
    rcases sees.find?_eq sound name with ⟨_, _, _, isSome⟩ | ⟨_, isGlobal⟩
    · rw [absent] at isSome
      cases isSome
    · exact isGlobal
  have symbol : (identifier info name).symbolAt table name =
      .ok (.function n callable.result ps ls callable.ordinal) := by
    rw [symbolAt_iff (show (identifier info name).scope = some scope from attached), isGlobal]
    exact Option.bind_eq_some_iff.2 ⟨id, looked, present⟩
  refine ⟨?_, ?_, ps.toList, ?_, ?_⟩
  · rw [checkCallee, symbol, ok_bind]
    exact if_neg (by omega)
  · rw [checkNames, symbol]
    rfl
  · rw [signature, symbol, ← result]
    rfl
  · rw [isParameters]
    exact inputs

theorem passes_unary (result : Option Ty) {info : Info} {op : UnaryOp} {operand : Node} {ty : Ty} :
    (unary info op operand).Passes table k result (some ty) ↔
      operand.Passes table k result (some ty) := by
  unfold Passes
  rw [checkNames, typeOf, bind_required_iff]
  simp [pure, Except.pure]

/-- Both operands pass with the type of the whole. -/
theorem passes_binary (result : Option Ty) {info : Info} {op : BinaryOp} {lhs rhs : Node} {ty : Ty}
    (inScope : lhs.ValueIn scope) : (binary info op lhs rhs).Passes table k result (some ty) ↔
      lhs.Passes table k result (some ty) ∧ rhs.Passes table k result (some ty) := by
  unfold Passes
  rw [checkNames, typeOf, bind_current_iff (checkNames_value table _ lhs inScope),
    bind_required_iff]
  constructor
  · rintro ⟨⟨named, named'⟩, left, typed, rest⟩
    obtain ⟨right, typed', rest⟩ := bind_required_iff.1 rest
    split at rest
    · cases rest
    · next same =>
      cases rest
      obtain rfl := Decidable.not_not.1 same
      exact ⟨⟨named, typed⟩, named', typed'⟩
  · rintro ⟨⟨named, typed⟩, named', typed'⟩
    refine ⟨⟨named, named'⟩, ty, typed, bind_required_iff.2 ⟨ty, typed', ?_⟩⟩
    simp [pure, Except.pure]

/-- What the checks ask of arguments for the parameters `ids`, the first of them being argument
number `position`. -/
def ArgumentsPass (table : Table) (k : Nat) (result : Option Ty) (name : String) (position : Nat)
    (ids : List SymbolId) (nodes : List Node) : Prop :=
  checkNamesAll table (some k) nodes = .ok (some k) ∧ nodes.length = ids.length ∧
    checkArguments table result name position ids nodes = .ok ()

theorem argumentsPass_nil (result : Option Ty) (name : String) (position : Nat)
    {ids : List SymbolId} : ArgumentsPass table k result name position ids [] ↔ ids = [] := by
  constructor
  · rintro ⟨_, sameLength, _⟩
    exact List.length_eq_zero_iff.1 sameLength.symm
  · rintro rfl
    exact ⟨rfl, rfl, rfl⟩

theorem argumentsPass_cons (result : Option Ty) (name : String) (position : Nat) {id : SymbolId}
    {ids : List SymbolId} {node : Node} {nodes : List Node} {ty : Ty}
    (sameType : table.typeOf id = some ty) (inScope : node.ValueIn scope) :
    ArgumentsPass table k result name position (id :: ids) (node :: nodes) ↔
      node.Passes table k result (some ty) ∧
        ArgumentsPass table k result name (position + 1) ids nodes := by
  unfold ArgumentsPass Passes
  rw [checkNamesAll, checkArguments, bind_current_iff (checkNames_value table _ node inScope),
    bind_required_iff]
  constructor
  · rintro ⟨⟨named, namedAll⟩, sameLength, actual, typed, rest⟩
    dsimp only at rest
    split at rest
    · cases rest
    · next same =>
      have isTy : some actual = some ty := (Decidable.not_not.1 same).trans sameType
      cases isTy
      exact ⟨⟨named, typed⟩, namedAll, Nat.succ.inj sameLength, rest⟩
  · rintro ⟨⟨named, typed⟩, namedAll, sameLength, passed⟩
    refine ⟨⟨named, namedAll⟩, congrArg Nat.succ sameLength, ty, typed, ?_⟩
    have same : ¬ some ty ≠ (table.symbols[id]?).bind (·.valueType?) :=
      not_not_intro sameType.symm
    dsimp only
    rw [if_neg same]
    exact passed

/-- A call passes exactly if its callee is a known function that no block hides, and its arguments
have the types of the parameters. -/
theorem passes_call (sound : table.Sound) (sees : table.Sees scope env)
    (offers : table.Offers (k + 1) functions) (result : Option Ty) {info info' : Info}
    {name : String} {arguments : List Node} {ty : Ty}
    (isCallee : (identifier info' name).CalleeIn scope)
    (iff_types : ∀ (ids : List SymbolId) {types : List Ty} (name : String) (position : Nat),
      ids.map table.typeOf = types.map some →
      (ArgumentsPass table k result name position ids arguments ↔
        HaveTypes functions env arguments types)) :
    (call info (identifier info' name) arguments).Passes table k result (some ty) ↔
      HasType functions env (call info (identifier info' name) arguments) ty := by
  unfold Passes
  rw [checkNames, typeOf]
  constructor
  · rintro ⟨named, typed⟩
    obtain ⟨_, checked, named⟩ := bind_eq_ok.1 named
    obtain ⟨⟨name', returnType, inputs⟩, signed, rest⟩ := bind_eq_ok.1 typed
    obtain ⟨known, absent, found, isResult, sameTypes⟩ :=
      signature_of_passes sound sees offers isCallee.1 checked signed
    rw [bind_current_iff (checkNames_value table _ (identifier info' name) isCallee)] at named
    dsimp only at rest
    split at rest
    · cases rest
    · next sameLength =>
      obtain ⟨_, passed, last⟩ := bind_eq_ok.1 rest
      cases last
      rw [← isResult]
      exact .call absent found ((iff_types inputs name' 1 sameTypes).1
        ⟨named.2, Decidable.not_not.1 sameLength, passed⟩)
  · intro typed
    obtain ⟨absent, known, found, areTyped, rfl⟩ := hasType_call.1 typed
    obtain ⟨checked, named, inputs, signed, sameTypes⟩ :=
      passes_of_signature sound sees offers isCallee.1 absent found info.pos
    obtain ⟨namedAll, sameLength, passed⟩ := (iff_types inputs name 1 sameTypes).2 areTyped
    refine ⟨bind_eq_ok.2 ⟨(), checked, bind_eq_ok.2 ⟨_, named, namedAll⟩⟩,
      bind_eq_ok.2 ⟨_, signed, ?_⟩⟩
    dsimp only
    rw [if_neg (not_not_intro sameLength)]
    exact bind_eq_ok.2 ⟨(), passed, rfl⟩

mutual
/-- An expression passes with a type exactly if it has that type. -/
theorem passes_iff_hasType (sound : table.Sound) (sees : table.Sees scope env)
    (offers : table.Offers (k + 1) functions) (result : Option Ty) :
    (node : Node) → node.ValueIn scope → ∀ ty,
    node.Passes table k result (some ty) ↔ HasType functions env node ty
  | integer info value => fun _ ty => by
    rw [hasType_integer]
    unfold Passes
    simp [checkNames, typeOf, eq_comm]
  | real info value => fun _ ty => by
    rw [hasType_real]
    unfold Passes
    simp [checkNames, typeOf, eq_comm]
  | identifier info name => fun inScope ty => by
    rw [passes_identifier sound sees result name inScope.1, hasType_identifier]
  | unary info op operand => fun inScope ty => by
    rw [hasType_unary, passes_unary,
      passes_iff_hasType sound sees offers result operand inScope.2 ty]
  | binary info op lhs rhs => fun ⟨_, isLhs, isRhs⟩ ty => by
    rw [hasType_binary, passes_binary result isLhs,
      passes_iff_hasType sound sees offers result lhs isLhs,
      passes_iff_hasType sound sees offers result rhs isRhs]
  | call info callee arguments => by
    rintro ⟨_, isCallee, areValues⟩ ty
    cases callee with
    | identifier info' name =>
      exact passes_call sound sees offers result isCallee
        (passesAll_iff_haveTypes sound sees offers result arguments areValues)
    | _ => exact isCallee.elim
  | empty .. | program .. | function .. | parameter .. | returnValue .. | block .. | declaration ..
  | assignment .. | ifThen .. | ifElse .. => fun inScope => inScope.elim
/-- Arguments pass exactly if they have the types of the parameters. -/
theorem passesAll_iff_haveTypes (sound : table.Sound) (sees : table.Sees scope env)
    (offers : table.Offers (k + 1) functions) (result : Option Ty) :
    (nodes : List Node) → ValuesIn scope nodes → ∀ (ids : List SymbolId) {types : List Ty}
    (name : String) (position : Nat), ids.map table.typeOf = types.map some →
    (ArgumentsPass table k result name position ids nodes ↔ HaveTypes functions env nodes types)
  | [] => by
    intro _ ids types name position sameTypes
    rw [argumentsPass_nil]
    constructor
    · rintro rfl
      obtain rfl := List.map_eq_nil_iff.1 sameTypes.symm
      exact .nil
    · intro typed
      cases typed
      exact List.map_eq_nil_iff.1 sameTypes
  | node :: nodes => by
    rintro ⟨isValue, areValues⟩ ids types name position sameTypes
    cases ids with
    | nil =>
      obtain rfl := List.map_eq_nil_iff.1 sameTypes.symm
      constructor
      · rintro ⟨_, sameLength, _⟩
        cases sameLength
      · intro typed
        cases typed
    | cons id ids =>
      cases types with
      | nil => cases sameTypes
      | cons ty types =>
        obtain ⟨sameType, sameTypes⟩ := List.cons.inj sameTypes
        rw [argumentsPass_cons result name position sameType isValue, haveTypes_cons,
          passes_iff_hasType sound sees offers result node isValue,
          passesAll_iff_haveTypes sound sees offers result nodes areValues ids name
            (position + 1) sameTypes]
end

end Values
end Node
end MiniC
