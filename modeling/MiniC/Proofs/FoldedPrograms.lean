import MiniC.Proofs.Checks
import MiniC.Proofs.Lowering

/-!
# Folded programs

A folded program is still resolved and checked: what is folded away is a part of an expression, and
the constant in its place has the scope of the whole. A real is left where there was one before, so
that a program is one of integers exactly if the folded program is.
-/

namespace MiniC.Node

/-! ## Scopes -/

mutual
theorem valueIn_fold (scope : ScopeId) : (node : Node) → node.ValueIn scope →
    node.fold.ValueIn scope
  | identifier .. | integer .. | real .. => id
  | unary info op operand => by
    rintro ⟨attached, inScope⟩
    have inScope' := valueIn_fold scope operand inScope
    rcases fold_unary info op operand with same | ⟨value, same⟩ | ⟨value, same⟩ <;> rw [same]
    · exact ⟨attached, inScope'⟩
    · exact attached
    · exact attached
  | binary info op lhs rhs => by
    rintro ⟨attached, inScopeL, inScopeR⟩
    have inScopeL' := valueIn_fold scope lhs inScopeL
    have inScopeR' := valueIn_fold scope rhs inScopeR
    rcases fold_binary info op lhs rhs with same | ⟨value, same⟩ | ⟨value, same⟩ <;> rw [same]
    · exact ⟨attached, inScopeL', inScopeR'⟩
    · exact attached
    · exact attached
  | call info callee arguments => by
    rintro ⟨attached, calleeIn, inScope⟩
    rw [fold]
    exact ⟨attached, calleeIn, valuesIn_foldAll scope arguments inScope⟩
  | empty .. | program .. | function .. | parameter .. | returnValue .. | block .. | declaration ..
  | assignment .. | ifThen .. | ifElse .. => fun inScope => inScope.elim
theorem valuesIn_foldAll (scope : ScopeId) : (nodes : List Node) → ValuesIn scope nodes →
    ValuesIn scope (foldAll nodes)
  | [] => id
  | node :: nodes => by
    rintro ⟨inScope, inScope'⟩
    exact ⟨valueIn_fold scope node inScope, valuesIn_foldAll scope nodes inScope'⟩
end

mutual
theorem scopedIn_fold (table : Table) (top : ScopeId) : (node : Node) →
    ∀ ⦃scope : ScopeId⦄ ⦃layout : Layout⦄ ⦃count : Nat⦄, node.ScopedIn table top scope layout count →
    node.fold.ScopedIn table top scope layout count ∧ node.fold.localCount = node.localCount
  | empty .. => fun _ _ _ placed => ⟨placed, rfl⟩
  | block info declarations statements => by
    rintro scope layout count ⟨inner, attached, declared, reaches, lays, placed⟩
    obtain ⟨placed', same⟩ := scopedAll_foldAll table top statements placed
    rw [fold, localCount, localCount, same]
    exact ⟨⟨inner, attached, declared, reaches, lays, placed'⟩, rfl⟩
  | returnValue info value => by
    rintro scope layout count ⟨attached, inScope⟩
    exact ⟨⟨attached, valueIn_fold scope value inScope⟩, rfl⟩
  | assignment info target value => by
    rintro scope layout count ⟨attached, isName, inScope⟩
    exact ⟨⟨attached, isName, valueIn_fold scope value inScope⟩, rfl⟩
  | ifThen info condition consequent => by
    rintro scope layout count ⟨attached, inScope, placed⟩
    obtain ⟨placed', same⟩ := scopedIn_fold table top consequent placed
    rw [fold, localCount, localCount, same]
    exact ⟨⟨attached, valueIn_fold scope condition inScope, placed'⟩, rfl⟩
  | ifElse info condition consequent alternative => by
    rintro scope layout count ⟨attached, inScope, placed₁, placed₂⟩
    obtain ⟨placed₁', same₁⟩ := scopedIn_fold table top consequent placed₁
    obtain ⟨placed₂', same₂⟩ := scopedIn_fold table top alternative placed₂
    rw [fold, localCount, localCount, same₁, same₂]
    refine ⟨⟨attached, valueIn_fold scope condition inScope, placed₁', ?_⟩, rfl⟩
    rw [same₁]
    exact placed₂'
  | program .. | function .. | parameter .. | call .. | declaration .. | binary .. | unary ..
  | identifier .. | integer .. | real .. => fun _ _ _ placed => placed.elim
theorem scopedAll_foldAll (table : Table) (top : ScopeId) : (nodes : List Node) →
    ∀ ⦃scope : ScopeId⦄ ⦃layout : Layout⦄ ⦃count : Nat⦄, ScopedAll table top scope layout count nodes →
    ScopedAll table top scope layout count (foldAll nodes) ∧
      localCounts (foldAll nodes) = localCounts nodes
  | [] => fun _ _ _ _ => ⟨trivial, rfl⟩
  | node :: nodes => by
    rintro scope layout count ⟨placed, placed'⟩
    obtain ⟨isPlaced, same⟩ := scopedIn_fold table top node placed
    obtain ⟨arePlaced, same'⟩ := scopedAll_foldAll table top nodes placed'
    rw [foldAll, localCounts, localCounts, same, same']
    refine ⟨⟨isPlaced, ?_⟩, rfl⟩
    rw [same]
    exact arePlaced
end

theorem functionIn_fold {table : Table} {node : Node} (placed : node.FunctionIn table) :
    node.fold.FunctionIn table := by
  cases node with
  | function info returnType name parameters body =>
    obtain ⟨symbol, top, attached, areParameters, holds, notGlobal, lays, placed⟩ := placed
    obtain ⟨placed', same⟩ := scopedIn_fold table top body placed
    rw [fold]
    refine ⟨symbol, top, attached, areParameters, ?_, notGlobal, lays, placed'⟩
    rw [same]
    exact holds
  | _ => exact placed.elim

/-! ## Names -/

theorem functionName?_fold (node : Node) : node.fold.functionName? = node.functionName? := by
  cases node with
  | unary info op operand =>
    rcases fold_unary info op operand with same | ⟨value, same⟩ | ⟨value, same⟩ <;> rw [same] <;> rfl
  | binary info op lhs rhs =>
    rcases fold_binary info op lhs rhs with same | ⟨value, same⟩ | ⟨value, same⟩ <;> rw [same] <;> rfl
  | _ => rfl

theorem functionNames_foldAll (nodes : List Node) :
    functionNames (foldAll nodes) = functionNames nodes := by
  unfold functionNames
  rw [foldAll_eq_map, List.filterMap_map]
  exact List.filterMap_congr fun node _ => functionName?_fold node

theorem arity?_foldAll (functions : List Node) : arity? (foldAll functions) = arity? functions := by
  funext name
  have behaves := congrArg (Option.map (·.1)) (findSome?_definition?_foldAll name functions)
  rw [Option.map_map, Option.map_map] at behaves
  exact behaves

/-- A folded program is in its place. -/
theorem ProgramIn.foldAll {table : Table} {functions : List Node}
    (inTable : ProgramIn table functions) : ProgramIn table (foldAll functions) where
  sound := inTable.sound
  words := inTable.words
  distinct := by
    rw [functionNames_foldAll]
    exact inTable.distinct
  globals := by
    rw [functionNames_foldAll]
    exact inTable.globals
  placed := by
    intro node member
    rw [foldAll_eq_map] at member
    obtain ⟨original, inFunctions, rfl⟩ := List.mem_map.1 member
    exact functionIn_fold (inTable.placed original inFunctions)

mutual
theorem valueNamed_fold (arity : String → Option Nat) (names : List (List String)) : (node : Node) →
    node.ValueNamed arity names → node.fold.ValueNamed arity names
  | identifier .. | integer .. | real .. => id
  | unary info op operand => by
    intro named
    have named' := valueNamed_fold arity names operand named
    rcases fold_unary info op operand with same | ⟨value, same⟩ | ⟨value, same⟩ <;> rw [same]
    · exact named'
    · trivial
    · trivial
  | binary info op lhs rhs => by
    rintro ⟨namedL, namedR⟩
    have namedL' := valueNamed_fold arity names lhs namedL
    have namedR' := valueNamed_fold arity names rhs namedR
    rcases fold_binary info op lhs rhs with same | ⟨value, same⟩ | ⟨value, same⟩ <;> rw [same]
    · exact ⟨namedL', namedR'⟩
    · trivial
    · trivial
  | call info callee arguments => by
    intro named
    cases callee with
    | identifier calleeInfo name =>
      obtain ⟨known, named⟩ := named
      have sameLength : (foldAll arguments).length = arguments.length := by
        rw [foldAll_eq_map, List.length_map]
      rw [fold, ValueNamed, sameLength]
      exact ⟨known, valuesNamed_foldAll arity names arguments named⟩
    | _ => exact named.elim
  | empty .. | program .. | function .. | parameter .. | returnValue .. | block .. | declaration ..
  | assignment .. | ifThen .. | ifElse .. => fun named => named.elim
theorem valuesNamed_foldAll (arity : String → Option Nat) (names : List (List String)) :
    (nodes : List Node) → ValuesNamed arity names nodes → ValuesNamed arity names (foldAll nodes)
  | [] => id
  | node :: nodes => by
    rintro ⟨named, named'⟩
    exact ⟨valueNamed_fold arity names node named, valuesNamed_foldAll arity names nodes named'⟩
end

mutual
theorem statementNamed_fold (arity : String → Option Nat) : (node : Node) →
    ∀ ⦃names : List (List String)⦄, node.StatementNamed arity names →
    node.fold.StatementNamed arity names
  | empty .. => fun _ named => named
  | block info declarations statements => fun _ named =>
    statementsNamed_foldAll arity statements named
  | returnValue info value => fun names named => valueNamed_fold arity names value named
  | assignment info target value => by
    rintro names ⟨inSight, named⟩
    exact ⟨inSight, valueNamed_fold arity names value named⟩
  | ifThen info condition consequent => by
    rintro names ⟨named, named'⟩
    exact ⟨valueNamed_fold arity names condition named, statementNamed_fold arity consequent named'⟩
  | ifElse info condition consequent alternative => by
    rintro names ⟨named, named₁, named₂⟩
    exact ⟨valueNamed_fold arity names condition named, statementNamed_fold arity consequent named₁,
      statementNamed_fold arity alternative named₂⟩
  | program .. | function .. | parameter .. | call .. | declaration .. | binary .. | unary ..
  | identifier .. | integer .. | real .. => fun _ named => named.elim
theorem statementsNamed_foldAll (arity : String → Option Nat) : (nodes : List Node) →
    ∀ ⦃names : List (List String)⦄, StatementsNamed arity names nodes →
    StatementsNamed arity names (foldAll nodes)
  | [] => fun _ _ => trivial
  | node :: nodes => by
    rintro names ⟨named, named'⟩
    exact ⟨statementNamed_fold arity node named, statementsNamed_foldAll arity nodes named'⟩
end

theorem functionNamed_fold {arity : String → Option Nat} {node : Node}
    (named : node.FunctionNamed arity) : node.fold.FunctionNamed arity := by
  cases node with
  | function info returnType name parameters body => exact statementNamed_fold arity body named
  | _ => exact named.elim

/-! ## Integers -/

theorem integral_foldUnary? {info : Info} {op : UnaryOp} {operand folded : Node}
    (found : foldUnary? info op operand = some folded) :
    folded.ValueIntegral ↔ operand.ValueIntegral := by
  unfold foldUnary? at found
  split at found
  · cases found
    exact Iff.rfl
  · cases found
    exact Iff.rfl
  · cases found

theorem integral_foldBinary? {info : Info} {op : BinaryOp} {lhs rhs folded : Node}
    (found : foldBinary? info op lhs rhs = some folded) :
    folded.ValueIntegral ↔ lhs.ValueIntegral ∧ rhs.ValueIntegral := by
  unfold foldBinary? at found
  split at found
  · obtain ⟨value, _, rfl⟩ := Option.map_eq_some_iff.1 found
    exact ⟨fun _ => ⟨trivial, trivial⟩, fun _ => trivial⟩
  · cases found
    exact ⟨False.elim, fun both => both.1⟩
  · cases found

mutual
theorem valueIntegral_fold : (node : Node) → (node.fold.ValueIntegral ↔ node.ValueIntegral)
  | unary info op operand => by
    have same := valueIntegral_fold operand
    rw [fold_unary_eq]
    cases found : foldUnary? info op operand.fold with
    | none => exact same
    | some folded => exact (integral_foldUnary? found).trans same
  | binary info op lhs rhs => by
    have same := and_congr (valueIntegral_fold lhs) (valueIntegral_fold rhs)
    rw [fold_binary_eq]
    cases found : foldBinary? info op lhs.fold rhs.fold with
    | none => exact same
    | some folded => exact (integral_foldBinary? found).trans same
  | call info callee arguments => valuesIntegral_foldAll arguments
  | empty .. | program .. | function .. | parameter .. | returnValue .. | block .. | declaration ..
  | assignment .. | ifThen .. | ifElse .. | identifier .. | integer .. | real .. => Iff.rfl
theorem valuesIntegral_foldAll : (nodes : List Node) →
    (ValuesIntegral (foldAll nodes) ↔ ValuesIntegral nodes)
  | [] => Iff.rfl
  | node :: nodes => and_congr (valueIntegral_fold node) (valuesIntegral_foldAll nodes)
end

/-- An expression counts as a statement without reals, whatever it holds. -/
theorem statementIntegral_of_isPlain {node : Node} (plain : node.IsPlain) : node.StatementIntegral := by
  cases node with
  | unary | binary | call | identifier | integer | real => exact trivial
  | _ => exact plain.elim

mutual
theorem statementIntegral_fold : (node : Node) →
    (node.fold.StatementIntegral ↔ node.StatementIntegral)
  | block _ _ statements =>
    and_congr Iff.rfl (statementsIntegral_foldAll statements)
  | returnValue _ value => valueIntegral_fold value
  | assignment _ _ value => valueIntegral_fold value
  | ifThen _ condition consequent =>
    and_congr (valueIntegral_fold condition) (statementIntegral_fold consequent)
  | ifElse _ condition consequent alternative =>
    and_congr (valueIntegral_fold condition)
      (and_congr (statementIntegral_fold consequent) (statementIntegral_fold alternative))
  | unary .. | binary .. =>
    iff_of_true (statementIntegral_of_isPlain (isPlain_fold trivial)) trivial
  | empty .. | program .. | function .. | parameter .. | call .. | declaration .. | identifier ..
  | integer .. | real .. => Iff.rfl
theorem statementsIntegral_foldAll : (nodes : List Node) →
    (StatementsIntegral (foldAll nodes) ↔ StatementsIntegral nodes)
  | [] => Iff.rfl
  | node :: nodes => and_congr (statementIntegral_fold node) (statementsIntegral_foldAll nodes)
end

theorem functionIntegral_fold (node : Node) : node.fold.FunctionIntegral ↔ node.FunctionIntegral := by
  cases node with
  | function info returnType name parameters body =>
    exact and_congr Iff.rfl (and_congr Iff.rfl (statementIntegral_fold body))
  | unary info op operand =>
    rcases fold_unary info op operand with same | ⟨value, same⟩ | ⟨value, same⟩ <;> rw [same] <;>
      exact Iff.rfl
  | binary info op lhs rhs =>
    rcases fold_binary info op lhs rhs with same | ⟨value, same⟩ | ⟨value, same⟩ <;> rw [same] <;>
      exact Iff.rfl
  | _ => exact Iff.rfl

end MiniC.Node
