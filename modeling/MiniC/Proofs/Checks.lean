import MiniC.Checks.Types
import MiniC.Proofs.Folding
import MiniC.Proofs.Resolution

/-!
# Checked programs use names that mean something

In a program that passes the check of types, every name that is used stands for a parameter or a
variable in sight, and every call is one of a function of the program with as many arguments as it
has parameters. Folding keeps this, as it only ever drops parts of expressions.
-/

namespace MiniC

/-- One of the blocks has that name. -/
def InSight (name : String) (names : List (List String)) : Prop :=
  ∃ block ∈ names, name ∈ block

namespace Blocks

variable {α β : Type}

/-- The names of all blocks. -/
def names (blocks : Blocks α) : List (List String) :=
  List.map (List.map (·.1)) blocks

theorem isSome_findIn (name : String) (block : List (String × α)) :
    (findIn name block).isSome ↔ name ∈ block.map (·.1) := by
  induction block with
  | nil => simp [findIn]
  | cons entry block ih =>
    rw [findIn_cons, List.map_cons, List.mem_cons]
    by_cases same : entry.1 = name
    · simp [same]
    · rw [if_neg same, ih]
      exact ⟨.inr, fun member => member.resolve_left fun eq => same eq.symm⟩

theorem isSome_find? (name : String) (blocks : Blocks α) :
    (blocks.find? name).isSome ↔ InSight name blocks.names := by
  induction blocks with
  | nil => simp [find?, names, InSight]
  | cons block blocks ih =>
    rw [find?_cons, Option.isSome_or, Bool.or_eq_true, isSome_findIn, ih]
    simp [InSight, names]

theorem names_setIn (name : String) (value : α) (block : List (String × α)) :
    (setIn name value block).map (·.1) = block.map (·.1) := by
  induction block with
  | nil => rfl
  | cons entry block ih =>
    unfold setIn
    split
    · rfl
    · exact congrArg (List.cons entry.1) ih

theorem names_set (name : String) (value : α) (blocks : Blocks α) :
    (blocks.set name value).names = blocks.names := by
  induction blocks with
  | nil => rfl
  | cons block blocks ih =>
    unfold set
    split
    · exact congrArg (· :: names blocks) (names_setIn name value block)
    · exact congrArg (block.map (·.1) :: ·) ih

end Blocks

namespace Node

/-- How many parameters a function takes. -/
def arity? (functions : List Node) (name : String) : Option Nat :=
  (functions.findSome? (definition? name)).map (·.1.length)

mutual
/-- An expression that uses only `names`, and calls functions with as many arguments as `arity`
says. -/
def ValueNamed (arity : String → Option Nat) (names : List (List String)) : Node → Prop
  | identifier _ name => InSight name names
  | integer .. => True
  | real .. => True
  | unary _ _ operand => operand.ValueNamed arity names
  | binary _ _ lhs rhs => lhs.ValueNamed arity names ∧ rhs.ValueNamed arity names
  | call _ (identifier _ callee) arguments =>
      arity callee = some arguments.length ∧ ValuesNamed arity names arguments
  | _ => False
def ValuesNamed (arity : String → Option Nat) (names : List (List String)) : List Node → Prop
  | [] => True
  | node :: nodes => node.ValueNamed arity names ∧ ValuesNamed arity names nodes
end

mutual
/-- A statement that uses only `names` and those that it declares itself. -/
def StatementNamed (arity : String → Option Nat) : List (List String) → Node → Prop
  | _, empty _ => True
  | names, block _ declarations statements =>
      StatementsNamed arity (declaredNames declarations :: names) statements
  | names, returnValue _ value => value.ValueNamed arity names
  | names, assignment _ target value => InSight target names ∧ value.ValueNamed arity names
  | names, ifThen _ condition consequent =>
      condition.ValueNamed arity names ∧ consequent.StatementNamed arity names
  | names, ifElse _ condition consequent alternative =>
      condition.ValueNamed arity names ∧ consequent.StatementNamed arity names ∧
        alternative.StatementNamed arity names
  | _, _ => False
def StatementsNamed (arity : String → Option Nat) : List (List String) → List Node → Prop
  | _, [] => True
  | names, node :: nodes => node.StatementNamed arity names ∧ StatementsNamed arity names nodes
end

/-- A function that uses only its parameters and variables. -/
def FunctionNamed (arity : String → Option Nat) : Node → Prop
  | function _ _ _ parameters body => body.StatementNamed arity [declaredNames parameters]
  | _ => False

end Node

/-! ## What names mean in checked programs -/

/-- A name that is not stored anywhere is global. -/
theorem Table.Sound.lookupLocal_global {table : Table} (sound : table.Sound) {name : String}
    {id : SymbolId} {symbol : Symbol} (present : table.symbols[id]? = some symbol)
    (unstored : symbol.slot? = none) (scope : Nat) (found : table.lookup scope name = some id) :
    table.lookupLocal Table.global name = some id := by
  induction scope using Nat.strongRecOn with
  | ind scope ih =>
    rw [sound.lookup_eq] at found
    cases here : table.lookupLocal scope name with
    | some id' =>
      rw [here, Option.some_or, Option.some.injEq] at found
      subst found
      obtain ⟨symbol', present', place⟩ := sound.known here
      rw [present] at present'
      cases present'
      exact place.1 unstored ▸ here
    | none =>
      rw [here, Option.none_or] at found
      obtain ⟨outer, around, found⟩ := Option.bind_eq_some_iff.1 found
      exact ih outer (sound.outer_lt around) found

namespace Node

theorem definition?_eq_some {node : Node} {name : String} {parameters : List Node} {body : Node} :
    node.definition? name = some (parameters, body) ↔
      ∃ info returnType, node = function info returnType name parameters body := by
  cases node with
  | function info returnType other ps b =>
    simp only [definition?]
    split
    · next same =>
      subst same
      simp
    · next differs =>
      simp only [reduceCtorEq, function.injEq, false_iff]
      rintro ⟨_, _, _, _, same, _⟩
      exact differs same
  | _ => simp [definition?]

theorem mem_functionNames {functions : List Node} {name : String}
    (member : name ∈ functionNames functions) :
    ∃ definition, functions.findSome? (definition? name) = some definition := by
  obtain ⟨node, inFunctions, named⟩ := List.mem_filterMap.1 member
  cases node with
  | function info returnType other parameters body =>
    cases named
    apply Option.isSome_iff_exists.1
    rw [List.findSome?_isSome_iff]
    exact ⟨_, inFunctions, by simp [definition?]⟩
  | _ => cases named

variable {table : Table} {functions : List Node}

/-- A function that is found in any scope is one of the program. -/
theorem ProgramIn.arity?_of_find? (program : ProgramIn table functions) {scope : ScopeId}
    {name n : String} {r : Ty} {ps ls : Array SymbolId} {k : Nat}
    (found : table.find? scope name = some (.function n r ps ls k)) :
    arity? functions name = some ps.size := by
  obtain ⟨id, looked, present⟩ := Option.bind_eq_some_iff.1 found
  have known := program.sound.lookupLocal_global present rfl scope looked
  rcases program.globals known with ⟨ty, builtin⟩ | member
  · rw [present] at builtin
    cases builtin
  · obtain ⟨⟨parameters, body⟩, defined⟩ := mem_functionNames member
    obtain ⟨node, inFunctions, isDefinition⟩ := List.exists_of_findSome?_eq_some defined
    obtain ⟨info, returnType, rfl⟩ := definition?_eq_some.1 isDefinition
    obtain ⟨symbol, top, _, _, ⟨known', r', ps', ls', k', present', size, _⟩, _⟩ :=
      program.placed _ inFunctions
    rw [known] at known'
    cases known'
    rw [present] at present'
    cases present'
    unfold arity?
    rw [defined, Option.map_some, size]

theorem symbolAt_eq_ok {node : Node} {name : String} {symbol : Symbol}
    (found : node.symbolAt table name = .ok symbol) :
    ∃ scope, node.scope = some scope ∧ table.find? scope name = some symbol := by
  unfold symbolAt scopeOf at found
  obtain ⟨scope, attached, found⟩ := bind_eq_ok.1 found
  split at attached
  · next attached' =>
    cases attached
    split at found
    · next found' =>
      cases found
      exact ⟨_, attached', found'⟩
    · cases found
  · cases attached

theorem storedType_eq_ok {node : Node} {name : String} {symbol : Symbol} {ty : Ty}
    (stored : node.storedType name symbol = .ok ty) : symbol.slot?.isSome := by
  unfold storedType at stored
  rw [symbol.isSome_slot?]
  split at stored
  · next found =>
    rw [found]
    rfl
  · cases stored

/-- A name that is checked to be stored is in sight. -/
theorem inSight_of_stored {node : Node} {name : String} {symbol : Symbol} {ty : Ty}
    {scope : ScopeId} {layout : Layout} (lays : table.Lays scope layout)
    (attached : node.scope = some scope) (isName : IsIdentifier name)
    (found : node.symbolAt table name = .ok symbol) (stored : node.storedType name symbol = .ok ty) :
    InSight name layout.names := by
  obtain ⟨scope', attached', found'⟩ := symbolAt_eq_ok found
  rw [attached] at attached'
  cases attached'
  rw [← Blocks.isSome_find?, ← lays.slotAt name isName]
  unfold Table.slotAt
  rw [found']
  exact storedType_eq_ok stored

mutual
/-- Expressions that have a type use only names in sight. -/
theorem value_named (inTable : ProgramIn table functions) (result : Option Ty) {scope : ScopeId}
    {layout : Layout} (lays : table.Lays scope layout) : (node : Node) → ∀ ⦃ty : Option Ty⦄,
    node.ValueIn scope → node.typeOf table result = .ok ty →
    node.ValueNamed (arity? functions) layout.names
  | integer .. | real .. => fun _ _ _ => trivial
  | identifier info name => by
    rintro ty ⟨attached, isName⟩ typed
    rw [typeOf] at typed
    obtain ⟨symbol, found, typed⟩ := bind_eq_ok.1 typed
    obtain ⟨ty', stored, _⟩ := bind_eq_ok.1 typed
    exact inSight_of_stored lays (show (identifier info name).scope = some scope from attached) isName
      found stored
  | unary info op operand => by
    rintro ty ⟨_, inScope⟩ typed
    rw [typeOf] at typed
    obtain ⟨ty', typed', _⟩ := bind_eq_ok.1 typed
    exact value_named inTable result lays operand inScope typed'
  | binary info op lhs rhs => by
    rintro ty ⟨_, inScope, inScope'⟩ typed
    rw [typeOf] at typed
    obtain ⟨tl, typedL, typed⟩ := bind_eq_ok.1 typed
    obtain ⟨_, _, typed⟩ := bind_eq_ok.1 typed
    obtain ⟨tr, typedR, _⟩ := bind_eq_ok.1 typed
    exact ⟨value_named inTable result lays lhs inScope typedL,
      value_named inTable result lays rhs inScope' typedR⟩
  | call info callee arguments => by
    rintro ty ⟨_, calleeIn, inScope⟩ typed
    rw [typeOf] at typed
    obtain ⟨⟨name, returnType, parameters⟩, signed, typed⟩ := bind_eq_ok.1 typed
    cases callee with
    | identifier calleeInfo calleeName =>
      rw [signature] at signed
      obtain ⟨symbol, found, signed⟩ := bind_eq_ok.1 signed
      split at signed
      · next n r ps ls k =>
        cases signed
        obtain ⟨scope', _, found'⟩ := symbolAt_eq_ok found
        have known := inTable.arity?_of_find? found'
        dsimp only at typed
        split at typed
        · cases typed
        · next sameLength =>
          obtain ⟨_, checked, _⟩ := bind_eq_ok.1 typed
          have sameLength' := Decidable.not_not.1 sameLength
          refine ⟨?_, arguments_named inTable result lays arguments _ _ _ inScope sameLength' checked⟩
          rw [known, sameLength', Array.length_toList]
      · cases signed
    | _ => exact calleeIn.elim
  | empty .. | program .. | function .. | parameter .. | returnValue .. | block .. | declaration ..
  | assignment .. | ifThen .. | ifElse .. => fun _ inScope => inScope.elim
theorem arguments_named (inTable : ProgramIn table functions) (result : Option Ty) {scope : ScopeId}
    {layout : Layout} (lays : table.Lays scope layout) : (nodes : List Node) →
    ∀ (name : String) (position : Nat) (inputs : List SymbolId), ValuesIn scope nodes →
    nodes.length = inputs.length → checkArguments table result name position inputs nodes = .ok () →
    ValuesNamed (arity? functions) layout.names nodes
  | [] => fun _ _ _ _ _ _ => trivial
  | node :: nodes => by
    rintro name position inputs ⟨inScope, inScope'⟩ sameLength checked
    cases inputs with
    | nil => cases sameLength
    | cons input inputs =>
      rw [checkArguments] at checked
      obtain ⟨ty, typed, checked⟩ := bind_eq_ok.1 checked
      obtain ⟨_, _, checked⟩ := bind_eq_ok.1 checked
      dsimp only at checked
      split at checked
      · cases checked
      · exact ⟨value_named inTable result lays node inScope typed,
          arguments_named inTable result lays nodes _ _ _ inScope' (Nat.succ.inj sameLength) checked⟩
end

theorem names_slotBlock (make : Nat → Slot) (names : List String) (index : Nat) (layout : Layout) :
    Blocks.names (slotBlock make names index :: layout) = names :: layout.names :=
  congrArg (· :: layout.names) (map_fst_slotBlock make names index)

mutual
/-- Statements that are well typed use only names in sight. -/
theorem statement_named (inTable : ProgramIn table functions) (result : Option Ty) {top : ScopeId} :
    (node : Node) → ∀ ⦃scope : ScopeId⦄ ⦃layout : Layout⦄ ⦃count : Nat⦄ ⦃ty : Option Ty⦄,
    table.Lays scope layout → node.ScopedIn table top scope layout count →
    node.typeOf table result = .ok ty → node.StatementNamed (arity? functions) layout.names
  | empty _ => fun _ _ _ _ _ _ _ => trivial
  | block info declarations statements => by
    rintro scope layout count ty lays ⟨inner, _, _, _, lays', placed⟩ typed
    rw [typeOf] at typed
    obtain ⟨_, _, typed⟩ := bind_eq_ok.1 typed
    obtain ⟨_, typed', _⟩ := bind_eq_ok.1 typed
    rw [StatementNamed, ← names_slotBlock .localVariable _ count]
    exact statements_named inTable result statements lays' placed typed'
  | returnValue info value => by
    rintro scope layout count ty lays ⟨_, inScope⟩ typed
    rw [typeOf] at typed
    obtain ⟨ty', typed', _⟩ := bind_eq_ok.1 typed
    exact value_named inTable result lays value inScope typed'
  | assignment info target value => by
    rintro scope layout count ty lays ⟨attached, isName, inScope⟩ typed
    rw [typeOf] at typed
    obtain ⟨symbol, found, typed⟩ := bind_eq_ok.1 typed
    obtain ⟨expected, stored, typed⟩ := bind_eq_ok.1 typed
    obtain ⟨ty', typed', _⟩ := bind_eq_ok.1 typed
    refine ⟨inSight_of_stored lays ?_ isName found stored,
      value_named inTable result lays value inScope typed'⟩
    exact attached
  | ifThen info condition consequent => by
    rintro scope layout count ty lays ⟨_, inScope, placed⟩ typed
    rw [typeOf] at typed
    obtain ⟨ty₁, typed₁, typed⟩ := bind_eq_ok.1 typed
    obtain ⟨_, _, typed⟩ := bind_eq_ok.1 typed
    obtain ⟨ty₂, typed₂, _⟩ := bind_eq_ok.1 typed
    exact ⟨value_named inTable result lays condition inScope typed₁,
      statement_named inTable result consequent lays placed typed₂⟩
  | ifElse info condition consequent alternative => by
    rintro scope layout count ty lays ⟨_, inScope, placed, placed'⟩ typed
    rw [typeOf] at typed
    obtain ⟨ty₁, typed₁, typed⟩ := bind_eq_ok.1 typed
    obtain ⟨_, _, typed⟩ := bind_eq_ok.1 typed
    obtain ⟨ty₂, typed₂, typed⟩ := bind_eq_ok.1 typed
    obtain ⟨ty₃, typed₃, _⟩ := bind_eq_ok.1 typed
    exact ⟨value_named inTable result lays condition inScope typed₁,
      statement_named inTable result consequent lays placed typed₂,
      statement_named inTable result alternative lays placed' typed₃⟩
  | program .. | function .. | parameter .. | call .. | declaration .. | binary .. | unary ..
  | identifier .. | integer .. | real .. => fun _ _ _ _ _ placed => placed.elim
theorem statements_named (inTable : ProgramIn table functions) (result : Option Ty)
    {top : ScopeId} : (nodes : List Node) → ∀ ⦃scope : ScopeId⦄ ⦃layout : Layout⦄ ⦃count : Nat⦄,
    table.Lays scope layout → ScopedAll table top scope layout count nodes →
    checkTypesAll table result nodes = .ok () →
    StatementsNamed (arity? functions) layout.names nodes
  | [] => fun _ _ _ _ _ _ => trivial
  | node :: nodes => by
    rintro scope layout count lays ⟨placed, placed'⟩ typed
    rw [checkTypesAll] at typed
    obtain ⟨ty, typed', typed''⟩ := bind_eq_ok.1 typed
    exact ⟨statement_named inTable result node lays placed typed',
      statements_named inTable result nodes lays placed' typed''⟩
end

theorem functions_named (inTable : ProgramIn table functions) {nodes : List Node}
    (placed : ∀ node ∈ nodes, node.FunctionIn table) {result : Option Ty}
    (typed : checkTypesAll table result nodes = .ok ()) :
    ∀ node ∈ nodes, node.FunctionNamed (arity? functions) := by
  induction nodes with
  | nil => exact fun _ member => absurd member List.not_mem_nil
  | cons node nodes ih =>
    obtain ⟨isPlaced, arePlaced⟩ := List.forall_mem_cons.1 placed
    rw [checkTypesAll] at typed
    obtain ⟨ty, typed', typed''⟩ := bind_eq_ok.1 typed
    refine List.forall_mem_cons.2 ⟨?_, ih arePlaced typed''⟩
    cases node with
    | function info returnType name parameters body =>
      obtain ⟨symbol, top, _, _, _, _, lays, placed⟩ := isPlaced
      rw [typeOf] at typed'
      obtain ⟨_, _, typed'⟩ := bind_eq_ok.1 typed'
      obtain ⟨ty', typedBody, _⟩ := bind_eq_ok.1 typed'
      have named := statement_named inTable _ body lays placed typedBody
      unfold parameterLayout at named
      rw [names_slotBlock] at named
      exact named
    | _ => exact isPlaced.elim

/-- Every function of a program that passes the checks uses only its own names. -/
theorem analyze_named {info : Info} (inTable : ProgramIn table functions)
    (analyzed : (program info functions).analyze table = .ok ()) :
    ∀ node ∈ functions, node.FunctionNamed (arity? functions) := by
  unfold analyze at analyzed
  obtain ⟨_, _, checked⟩ := bind_eq_ok.1 analyzed
  unfold checkTypes at checked
  obtain ⟨ty, typed, _⟩ := bind_eq_ok.1 checked
  rw [typeOf] at typed
  obtain ⟨_, typed', _⟩ := bind_eq_ok.1 typed
  exact functions_named inTable inTable.placed typed'

end Node
end MiniC
