import MiniC.Proofs.Completeness
import MiniC.Proofs.Lowering

/-!
# Programs with reals

A program deals with integers only exactly if there is no real constant among its tokens and no
word for the type of reals. Neither resolving a program nor folding its constants changes that.
-/

namespace MiniC

/-! ## Reals in the source -/

/-- A real constant, or the word for the type of reals. -/
def Token.IsReal (token : Token) : Prop :=
  token.kind = .doubleConstant ∨ token.kind = .typeSpecifier ∧ token.text = "double"
deriving Decidable

/-- Tokens among which there is no real. -/
def FreeOfReals (tokens : List Token) : Prop :=
  ∀ token ∈ tokens, ¬ token.IsReal
deriving Decidable

section FreeOfReals

variable {token : Token} {tokens others : List Token}

theorem freeOfReals_nil : FreeOfReals [] := by
  intro token member
  cases member

theorem freeOfReals_cons : FreeOfReals (token :: tokens) ↔ ¬ token.IsReal ∧ FreeOfReals tokens :=
  List.forall_mem_cons

theorem freeOfReals_append :
    FreeOfReals (tokens ++ others) ↔ FreeOfReals tokens ∧ FreeOfReals others :=
  List.forall_mem_append

/-- Only constants and type words have to be looked at. -/
theorem freeOfReals_skip {kind : TokenKind} (isKind : token.kind = kind)
    (other : kind ≠ .doubleConstant ∧ kind ≠ .typeSpecifier) :
    FreeOfReals (token :: tokens) ↔ FreeOfReals tokens := by
  rw [freeOfReals_cons]
  refine and_iff_right ?_
  rintro (isConstant | ⟨isType, _⟩)
  · exact other.1 (isKind.symm.trans isConstant)
  · exact other.2 (isKind.symm.trans isType)

end FreeOfReals

namespace Grammar

theorem IsType.not_isReal_iff {token : Token} {ty : Ty} (isType : IsType token ty) :
    ¬ token.IsReal ↔ ty.isInteger := by
  obtain ⟨isKind, isName⟩ := isType
  unfold Token.IsReal
  rw [isKind, isName]
  cases ty <;> decide

mutual
/-- Expressions of integers are those without a real constant. -/
theorem Sum.integral_iff {word : List Token} {node : Node} :
    Sum word node → (FreeOfReals word ↔ node.ValueIntegral)
  | .single isProduct => isProduct.integral_iff
  | .chain isSum isSign isProduct => by
    rw [freeOfReals_append, freeOfReals_skip isSign.2.1 (by decide), isSum.integral_iff,
      isProduct.integral_iff, Node.ValueIntegral]
theorem Product.integral_iff {word : List Token} {node : Node} :
    Product word node → (FreeOfReals word ↔ node.ValueIntegral)
  | .single isSigned => isSigned.integral_iff
  | .chain isProduct isSign isSigned => by
    rw [freeOfReals_append, freeOfReals_skip isSign.2.1 (by decide), isProduct.integral_iff,
      isSigned.integral_iff, Node.ValueIntegral]
theorem Signed.integral_iff {word : List Token} {node : Node} :
    Signed word node → (FreeOfReals word ↔ node.ValueIntegral)
  | .plain isPrimary => isPrimary.integral_iff
  | .sign isSign isSigned => by
    rw [freeOfReals_skip isSign.1 (by decide), isSigned.integral_iff, Node.ValueIntegral]
theorem Primary.integral_iff {word : List Token} {node : Node} :
    Primary word node → (FreeOfReals word ↔ node.ValueIntegral)
  | .parentheses isLeft isSum isRight => by
    rw [freeOfReals_skip isLeft (by decide), freeOfReals_append,
      freeOfReals_skip isRight (by decide), isSum.integral_iff]
    exact and_iff_left freeOfReals_nil
  | .name isName =>
    (freeOfReals_skip isName (by decide)).trans (iff_of_true freeOfReals_nil trivial)
  | .integer isInteger =>
    (freeOfReals_skip isInteger (by decide)).trans (iff_of_true freeOfReals_nil trivial)
  | .real isReal => iff_of_false (fun free => free _ List.mem_cons_self (.inl isReal)) id
  | .call isName isLeft isSeries isRight => by
    rw [freeOfReals_skip isName (by decide), freeOfReals_skip isLeft (by decide),
      freeOfReals_append, freeOfReals_skip isRight (by decide), isSeries.integral_iff,
      Node.ValueIntegral]
    exact and_iff_left freeOfReals_nil
theorem Series.integral_iff {word : List Token} {nodes : List Node} :
    Series Sum word nodes → (FreeOfReals word ↔ Node.ValuesIntegral nodes)
  | .none => iff_of_true freeOfReals_nil trivial
  | .some isListed => isListed.integral_iff
theorem Listed.integral_iff {word : List Token} {nodes : List Node} :
    Listed Sum word nodes → (FreeOfReals word ↔ Node.ValuesIntegral nodes)
  | .last isSum => isSum.integral_iff.trans (and_iff_left trivial).symm
  | .more isSum isComma isListed => by
    rw [freeOfReals_append, freeOfReals_skip isComma (by decide), isSum.integral_iff,
      isListed.integral_iff, Node.ValuesIntegral]
end

theorem Many.declarations_integral_iff {word : List Token} {nodes : List Node}
    (areDeclarations : Many Declaration word nodes) :
    FreeOfReals word ↔ Node.requireIntVariables nodes = .ok () := by
  induction areDeclarations with
  | nil => exact iff_of_true freeOfReals_nil rfl
  | cons isDeclaration _ ih =>
    obtain ⟨isType, isName, isSemicolon⟩ := isDeclaration
    rw [List.cons_append, freeOfReals_cons, isType.not_isReal_iff, List.cons_append,
      freeOfReals_skip isName (by decide), List.cons_append,
      freeOfReals_skip isSemicolon (by decide), List.nil_append, ih, Node.requireIntVariables]
    split <;> simp [*]

mutual
theorem Statement.integral_iff {word : List Token} {node : Node} :
    Statement word node → (FreeOfReals word ↔ node.StatementIntegral)
  | .block isBlock => isBlock.integral_iff
  | .returnValue isReturn isValue isSemicolon => by
    rw [freeOfReals_skip isReturn (by decide), freeOfReals_append,
      freeOfReals_skip isSemicolon (by decide), isValue.integral_iff, Node.StatementIntegral]
    exact and_iff_left freeOfReals_nil
  | .empty isSemicolon =>
    (freeOfReals_skip isSemicolon (by decide)).trans (iff_of_true freeOfReals_nil trivial)
  | .assignment isName isEquals isValue isSemicolon => by
    rw [freeOfReals_skip isName (by decide), freeOfReals_skip isEquals (by decide),
      freeOfReals_append, freeOfReals_skip isSemicolon (by decide), isValue.integral_iff,
      Node.StatementIntegral]
    exact and_iff_left freeOfReals_nil
  | .ifThen isIf isLeft isTest isRight isConsequent => by
    rw [freeOfReals_skip isIf (by decide), freeOfReals_skip isLeft (by decide),
      freeOfReals_append, freeOfReals_skip isRight (by decide), isTest.integral_iff,
      isConsequent.integral_iff, Node.StatementIntegral]
  | .ifElse isIf isLeft isTest isRight isConsequent isElse isAlternative => by
    rw [freeOfReals_skip isIf (by decide), freeOfReals_skip isLeft (by decide),
      freeOfReals_append, freeOfReals_skip isRight (by decide), freeOfReals_append,
      freeOfReals_skip isElse (by decide), isTest.integral_iff, isConsequent.integral_iff,
      isAlternative.integral_iff, Node.StatementIntegral]
theorem Block.integral_iff {word : List Token} {node : Node} :
    Block word node → (FreeOfReals word ↔ node.StatementIntegral)
  | .empty isLeft isRight => by
    rw [freeOfReals_skip isLeft (by decide), freeOfReals_skip isRight (by decide)]
    exact iff_of_true freeOfReals_nil trivial
  | .full isLeft areDeclarations areStatements _ isRight => by
    rw [freeOfReals_skip isLeft (by decide), freeOfReals_append, freeOfReals_append,
      freeOfReals_skip isRight (by decide), areDeclarations.declarations_integral_iff,
      statements_integral_iff areStatements, Node.StatementIntegral]
    exact and_congr_right fun _ => and_iff_left freeOfReals_nil
theorem statements_integral_iff {word : List Token} {nodes : List Node} :
    Many Statement word nodes → (FreeOfReals word ↔ Node.StatementsIntegral nodes)
  | .nil => iff_of_true freeOfReals_nil trivial
  | .cons isStatement areStatements => by
    rw [freeOfReals_append, isStatement.integral_iff, statements_integral_iff areStatements,
      Node.StatementsIntegral]
end

theorem Parameter.integral_iff {word : List Token} {node : Node} (isParameter : Parameter word node)
    (nodes : List Node) : FreeOfReals word ∧ Node.requireIntParameters nodes = .ok () ↔
      Node.requireIntParameters (node :: nodes) = .ok () := by
  obtain ⟨isType, isName⟩ := isParameter
  rw [freeOfReals_cons, isType.not_isReal_iff, freeOfReals_skip isName (by decide),
    Node.requireIntParameters]
  split <;> simp [*, freeOfReals_nil]

theorem Series.parameters_integral_iff {word : List Token} {nodes : List Node} :
    Series Parameter word nodes → (FreeOfReals word ↔ Node.requireIntParameters nodes = .ok ())
  | .none => iff_of_true freeOfReals_nil rfl
  | .some isListed => by
    induction isListed with
    | last isParameter => exact (and_iff_left rfl).symm.trans (isParameter.integral_iff [])
    | more isParameter isComma _ ih =>
      rw [freeOfReals_append, freeOfReals_skip isComma (by decide), ih]
      exact isParameter.integral_iff _

theorem Function.integral_iff {word : List Token} {node : Node} :
    Function word node → (FreeOfReals word ↔ node.FunctionIntegral)
  | .intro isType isName isLeft areParameters isRight isBlock => by
    rw [freeOfReals_cons, isType.not_isReal_iff, freeOfReals_skip isName (by decide),
      freeOfReals_skip isLeft (by decide), freeOfReals_append,
      freeOfReals_skip isRight (by decide), areParameters.parameters_integral_iff,
      isBlock.integral_iff, Node.FunctionIntegral]

theorem Many.functions_integral_iff {word : List Token} {nodes : List Node}
    (areFunctions : Many Function word nodes) :
    FreeOfReals word ↔ ∀ node ∈ nodes, node.FunctionIntegral := by
  induction areFunctions with
  | nil => exact iff_of_true freeOfReals_nil fun _ member => absurd member List.not_mem_nil
  | cons isFunction _ ih =>
    rw [freeOfReals_append, List.forall_mem_cons, isFunction.integral_iff, ih]

end Grammar

namespace Node

/-! ## Reals in the tree -/

mutual
/-- Walking through an expression changes none of its constants. -/
theorem valueIntegral_walk (ctx : Context) (table : Table) : (node : Node) → node.IsValue →
    ((node.walk ctx table).1.ValueIntegral ↔ node.ValueIntegral)
  | integer .. | real .. | identifier .. => fun _ => Iff.rfl
  | unary info op operand => fun isValue => valueIntegral_walk ctx table operand isValue
  | binary info op lhs rhs => by
    rintro ⟨isLhs, isRhs⟩
    rw [walk, Walked.map, ValueIntegral, ValueIntegral, Walked.andThen_fst,
      valueIntegral_walk ctx table lhs isLhs,
      Walked.andThen_snd ValueIntegral _ _ _ fun t => propext (valueIntegral_walk ctx t rhs isRhs)]
  | call info callee arguments => by
    rintro ⟨_, areValues⟩
    rw [walk, Walked.map, ValueIntegral, ValueIntegral, Walked.andThen_snd ValuesIntegral _ _ _
      fun t => propext (valuesIntegral_walkAll ctx t arguments areValues)]
  | empty .. | program .. | function .. | parameter .. | returnValue .. | block .. | declaration ..
  | assignment .. | ifThen .. | ifElse .. => fun isValue => isValue.elim
theorem valuesIntegral_walkAll (ctx : Context) (table : Table) : (nodes : List Node) →
    AreValues nodes → (ValuesIntegral (walkAll ctx table nodes).1 ↔ ValuesIntegral nodes)
  | [] => fun _ => Iff.rfl
  | node :: nodes => by
    rintro ⟨isValue, areValues⟩
    rw [walkAll, Walked.map, ValuesIntegral, ValuesIntegral, Walked.andThen_fst,
      valueIntegral_walk ctx table node isValue,
      Walked.andThen_snd ValuesIntegral _ _ _ fun t =>
        propext (valuesIntegral_walkAll ctx t nodes areValues)]
end

theorem requireIntVariables_walkAll (ctx : Context) {nodes : List Node}
    (declared : ∀ node ∈ nodes, node.IsDeclaration) (table : Table) :
    requireIntVariables (walkAll ctx table nodes).1 = requireIntVariables nodes := by
  induction nodes generalizing table with
  | nil => rfl
  | cons node nodes ih =>
    obtain ⟨isDeclaration, areDeclarations⟩ := List.forall_mem_cons.1 declared
    cases node with
    | declaration info ty name =>
      rw [walkAll, Walked.map]
      dsimp only
      rw [Walked.andThen_fst, walk, requireIntVariables, requireIntVariables,
        Walked.andThen_snd requireIntVariables _ _ _ (ih areDeclarations)]
    | _ => exact isDeclaration.elim

theorem requireIntParameters_walkAll (ctx : Context) {nodes : List Node}
    (declared : ∀ node ∈ nodes, node.IsParameter) (table : Table) :
    requireIntParameters (walkAll ctx table nodes).1 = requireIntParameters nodes := by
  induction nodes generalizing table with
  | nil => rfl
  | cons node nodes ih =>
    obtain ⟨isParameter, areParameters⟩ := List.forall_mem_cons.1 declared
    cases node with
    | parameter info ty name =>
      rw [walkAll, Walked.map]
      dsimp only
      rw [Walked.andThen_fst, walk, requireIntParameters, requireIntParameters,
        Walked.andThen_snd requireIntParameters _ _ _ (ih areParameters)]
    | _ => exact isParameter.elim

mutual
/-- Walking through a statement changes none of its types and constants. -/
theorem statementIntegral_walk (ctx : Context) (table : Table) : (node : Node) → node.IsStatement →
    ((node.walk ctx table).1.StatementIntegral ↔ node.StatementIntegral)
  | empty .. => fun _ => Iff.rfl
  | returnValue info value => fun isValue => valueIntegral_walk ctx table value isValue
  | assignment info target value => fun isStatement =>
    valueIntegral_walk ctx table value isStatement.2
  | ifThen info condition consequent => by
    rintro ⟨isValue, isStatement⟩
    rw [walk, Walked.map, StatementIntegral, StatementIntegral, Walked.andThen_fst,
      valueIntegral_walk ctx table condition isValue,
      Walked.andThen_snd StatementIntegral _ _ _ fun t =>
        propext (statementIntegral_walk ctx t consequent isStatement)]
  | ifElse info condition consequent alternative => by
    rintro ⟨isValue, isStatement, isStatement'⟩
    -- The three parts come as a pair in a pair, with a walk on top of each.
    let first := (condition.walk ctx table).andThen (walk ctx · consequent) consequent
    let both := first.andThen (walk ctx · alternative) alternative
    have parts : both.1.1 = first.1 := Walked.andThen_fst ..
    have isCondition : first.1.1 = (condition.walk ctx table).1 := Walked.andThen_fst ..
    have kept : first.1.2.StatementIntegral = consequent.StatementIntegral :=
      Walked.andThen_snd StatementIntegral _ _ _ fun t =>
        propext (statementIntegral_walk ctx t consequent isStatement)
    have kept' : both.1.2.StatementIntegral = alternative.StatementIntegral :=
      Walked.andThen_snd StatementIntegral _ _ _ fun t =>
        propext (statementIntegral_walk ctx t alternative isStatement')
    change both.1.1.1.ValueIntegral ∧ both.1.1.2.StatementIntegral ∧ both.1.2.StatementIntegral ↔ _
    rw [parts, isCondition, kept, kept', valueIntegral_walk ctx table condition isValue,
      StatementIntegral]
  | block info declarations statements => by
    rintro ⟨declared, areStatements⟩
    rw [walk, Walked.map, StatementIntegral, StatementIntegral, Walked.andThen_fst,
      requireIntVariables_walkAll _ declared,
      Walked.andThen_snd StatementsIntegral _ _ _ fun t =>
        propext (statementsIntegral_walkAll _ t statements areStatements)]
  | program .. | function .. | parameter .. | call .. | declaration .. | binary .. | unary ..
  | identifier .. | integer .. | real .. => fun isStatement => isStatement.elim
theorem statementsIntegral_walkAll (ctx : Context) (table : Table) : (nodes : List Node) →
    AreStatements nodes →
    (StatementsIntegral (walkAll ctx table nodes).1 ↔ StatementsIntegral nodes)
  | [] => fun _ => Iff.rfl
  | node :: nodes => by
    rintro ⟨isStatement, areStatements⟩
    rw [walkAll, Walked.map, StatementsIntegral, StatementsIntegral, Walked.andThen_fst,
      statementIntegral_walk ctx table node isStatement,
      Walked.andThen_snd StatementsIntegral _ _ _ fun t =>
        propext (statementsIntegral_walkAll ctx t nodes areStatements)]
end

theorem functionIntegral_walk (ctx : Context) (table : Table) {node : Node}
    (isFunction : node.IsFunction) :
    (node.walk ctx table).1.FunctionIntegral ↔ node.FunctionIntegral := by
  cases node with
  | function info returnType name parameters body =>
    obtain ⟨_, areParameters, isStatement⟩ := isFunction
    rw [walk]
    -- A function whose name is taken is left as it is.
    split
    · exact Iff.rfl
    · rw [Walked.map, FunctionIntegral, FunctionIntegral, Walked.andThen_fst,
        requireIntParameters_walkAll _ areParameters,
        Walked.andThen_snd StatementIntegral _ _ _ fun t =>
          propext (statementIntegral_walk _ t body isStatement)]
  | _ => exact isFunction.elim

theorem functionsIntegral_walkAll (ctx : Context) {nodes : List Node}
    (areFunctions : ∀ node ∈ nodes, node.IsFunction) (table : Table) :
    (∀ node ∈ (walkAll ctx table nodes).1, node.FunctionIntegral) ↔
      ∀ node ∈ nodes, node.FunctionIntegral := by
  induction nodes generalizing table with
  | nil => exact Iff.rfl
  | cons node nodes ih =>
    obtain ⟨isFunction, areLater⟩ := List.forall_mem_cons.1 areFunctions
    have later := Walked.andThen_snd
      (fun nodes : List Node => ∀ node ∈ nodes, node.FunctionIntegral) (node.walk ctx table)
      (walkAll ctx · nodes) nodes fun t => propext (ih areLater t)
    rw [walkAll, Walked.map]
    dsimp only at later ⊢
    rw [List.forall_mem_cons, List.forall_mem_cons, Walked.andThen_fst, later,
      functionIntegral_walk ctx table isFunction]

end Node
end MiniC
