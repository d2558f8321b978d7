import MiniC.Proofs.Recognition
import MiniC.Proofs.Tokens

/-!
# The parser finds the tree of every phrase

A phrase of the grammar, with a token behind it that cannot belong to it, is read to its end and
gives its tree. The operands of a chain group to the left in the grammar and in the loops of the
parser alike: after the phrase of a sum, the loop stands where it would stand with that sum in hand.
-/

namespace MiniC

namespace Parser

open Grammar

variable {β : Type}

theorem eat_bind {kind : TokenKind} {token : Token} (isKind : token.kind = kind)
    (next : Token → Rule β) (s : List Token) :
    (run (eat kind) >>= next) (token :: s) = next token s := by
  refine bind_of_ok ?_
  rw [run_eat, look_bind, if_pos isKind]
  rfl

theorem sumOperator?_eq_none {token : Token} (notOperator : token.kind ≠ .operator) :
    sumOperator? token = none :=
  if_neg notOperator

theorem productOperator?_eq_none {token : Token} (notOperator : token.kind ≠ .operator) :
    productOperator? token = none :=
  if_neg notOperator

theorem signOperator?_eq_none {token : Token} (notOperator : token.kind ≠ .operator) :
    signOperator? token = none :=
  if_neg notOperator

/-- The operators of a sum are none of a product. -/
theorem productOperator?_of_isSumSign {token : Token} {op : BinaryOp}
    (isSign : IsSumSign token op) : productOperator? token = none := by
  obtain ⟨rfl | rfl, kind, text⟩ := isSign <;>
  · unfold productOperator?
    rw [if_pos kind, text]
    rfl

/-- The word is not empty, and its first token is of none of the given kinds. -/
def StartsWithout (kinds : List TokenKind) (word : List Token) : Prop :=
  ∃ token rest, word = token :: rest ∧ token.kind ∉ kinds

theorem StartsWithout.append {kinds : List TokenKind} {word : List Token}
    (starts : StartsWithout kinds word) (later : List Token) :
    StartsWithout kinds (word ++ later) := by
  obtain ⟨token, rest, rfl, other⟩ := starts
  exact ⟨token, rest ++ later, rfl, other⟩

/-- The word is taken as a whole in front of a comma or a closing parenthesis. -/
def TakenAsItem (item : Rule Node) (word : List Token) (node : Node) : Prop :=
  ∀ next s, next.kind = .comma ∨ next.kind = .rightParen →
    item (word ++ next :: s) = .ok (node, next :: s)

/-! ## Lists -/

section Lists

variable {item : Rule Node} {others : Rule (List Node)} {word : List Token} {nodes : List Node}

theorem both_listed (eq_others : others = further item others) {right : Token}
    (isListed : Listed (TakenAsItem item) word nodes) (isRight : right.kind = .rightParen)
    (s : List Token) :
    both item others (word ++ right :: s) = .ok (nodes, s) := by
  unfold both
  induction isListed with
  | last taken =>
    have notComma : right.kind ≠ .comma := by simp [isRight]
    rw [bind_of_ok (taken right s (.inr isRight)), eq_others, further, bind_assoc, look_bind,
      if_neg notComma, bind_assoc, eat_bind isRight]
    rfl
  | more taken isComma _ ih =>
    rw [List.append_assoc, List.cons_append, bind_of_ok (taken _ _ (.inl isComma)), eq_others,
      further, bind_assoc, look_bind, if_pos isComma, bind_assoc, skip_bind]
    exact bind_of_ok ih

theorem series_of_listed (eq_others : others = further item others) {right : Token}
    (isListed : Listed (TakenAsItem item) word nodes) (starts : StartsWithout [.rightParen] word)
    (isRight : right.kind = .rightParen) (s : List Token) :
    series item others (word ++ right :: s) = .ok (nodes, s) := by
  have whole := both_listed eq_others isListed isRight s
  obtain ⟨token, rest, rfl, other⟩ := starts
  have notRight : token.kind ≠ .rightParen := fun same => other (by simp [same])
  rw [series, List.cons_append, look_bind, if_neg notRight]
  exact whole

theorem series_of_none {right : Token} (isRight : right.kind = .rightParen) (s : List Token) :
    series item others (right :: s) = .ok ([], s) := by
  rw [series, look_bind, if_pos isRight]
  rfl

/-- The word starts with a type word and is taken as a whole, whatever follows it. -/
def TakenAnywhere (item : Rule Node) (word : List Token) (node : Node) : Prop :=
  (∃ type rest, word = type :: rest ∧ type.kind = .typeSpecifier) ∧
    ∀ s, item (word ++ s) = .ok (node, s)

theorem run_many (eq_others : others = many item others) {next : Token}
    (isMany : Many (TakenAnywhere item) word nodes) (notType : next.kind ≠ .typeSpecifier)
    (s : List Token) :
    others (word ++ next :: s) = .ok (nodes, next :: s) := by
  induction isMany with
  | nil =>
    rw [eq_others, many, List.nil_append, look_bind, if_neg notType]
    rfl
  | cons taken _ ih =>
    obtain ⟨⟨type, rest, rfl, isType⟩, taken⟩ := taken
    rw [eq_others, many, List.append_assoc, List.cons_append, look_bind, if_pos isType, both,
      ← List.cons_append, bind_of_ok (taken _), bind_of_ok ih]
    rfl

end Lists

end Parser

namespace Grammar

open MiniC.Parser

/-! ## Expressions -/

theorem Primary.starts {word : List Token} {node : Node} :
    Primary word node → StartsWithout [.operator, .rightParen] word
  | .parentheses isLeft .. => ⟨_, _, rfl, by simp [isLeft]⟩
  | .name isName => ⟨_, _, rfl, by simp [isName]⟩
  | .integer isInteger => ⟨_, _, rfl, by simp [isInteger]⟩
  | .real isReal => ⟨_, _, rfl, by simp [isReal]⟩
  | .call isName .. => ⟨_, _, rfl, by simp [isName]⟩

theorem Signed.starts {word : List Token} {node : Node} :
    Signed word node → StartsWithout [.rightParen] word
  | .plain isPrimary => by
    obtain ⟨token, rest, rfl, other⟩ := isPrimary.starts
    exact ⟨token, rest, rfl, by simp_all⟩
  | .sign isSign _ => ⟨_, _, rfl, by simp [isSign.1]⟩

theorem Product.starts {word : List Token} {node : Node} :
    Product word node → StartsWithout [.rightParen] word
  | .single isSigned => isSigned.starts
  | .chain isProduct _ _ => isProduct.starts.append _

theorem Sum.starts {word : List Token} {node : Node} :
    Sum word node → StartsWithout [.rightParen] word
  | .single isProduct => isProduct.starts
  | .chain isSum _ _ => isSum.starts.append _

/-- The loop of a sum stops at a token that is no operator of it. -/
theorem sumRest_stop {next : Token} (notSum : sumOperator? next = none) (node : Node)
    (s : List Token) : run (sumRest node) (next :: s) = .ok (node, next :: s) := by
  rw [run_sumRest, look_bind, notSum]
  rfl

/-- The loop of a product stops at a token that is no operator of it. -/
theorem productRest_stop {next : Token} (notProduct : productOperator? next = none) (node : Node)
    (s : List Token) : run (productRest node) (next :: s) = .ok (node, next :: s) := by
  rw [run_productRest, look_bind, notProduct]
  rfl

/-- A sum that the loop goes on with is complete in front of a token that does not continue it. -/
theorem run_sum_ok {word : List Token} {node : Node} {next : Token} {s : List Token}
    (parsed : productOperator? next = none → next.kind ≠ .leftParen →
      run sum (word ++ next :: s) = run (sumRest node) (next :: s))
    (notOperator : next.kind ≠ .operator) (notLeft : next.kind ≠ .leftParen) :
    run sum (word ++ next :: s) = .ok (node, next :: s) :=
  (parsed (productOperator?_eq_none notOperator) notLeft).trans
    (sumRest_stop (sumOperator?_eq_none notOperator) node s)

theorem Listed.starts {word : List Token} {nodes : List Node} :
    Listed Sum word nodes → StartsWithout [.rightParen] word
  | .last isSum => isSum.starts
  | .more isSum _ _ => isSum.starts.append _

mutual
/-- Behind a sum, the loop goes on with it in hand. -/
theorem Sum.run_sum {word : List Token} {node : Node} (next : Token) (s : List Token)
    (notProduct : productOperator? next = none) (notLeft : next.kind ≠ .leftParen) :
    Sum word node → run sum (word ++ next :: s) = run (sumRest node) (next :: s)
  | .single isProduct => by
    have first := (isProduct.run_product next s notLeft).trans (productRest_stop notProduct _ s)
    rw [Parser.run_sum, bind_of_ok first]
  | @Sum.chain _ right sign _ _ _ isSum isSign isProduct => by
    -- The sign ends the last product on its left, and the loop takes it up.
    have notLeft' : sign.kind ≠ .leftParen := by simp [isSign.2.1]
    have first := isSum.run_sum sign (right ++ next :: s) (productOperator?_of_isSumSign isSign)
      notLeft'
    have second := (isProduct.run_product next s notLeft).trans (productRest_stop notProduct _ s)
    rw [List.append_assoc, List.cons_append, first, run_sumRest, look_bind,
      sumOperator?_eq_some.2 isSign]
    dsimp only
    rw [skip_bind, bind_of_ok second]
/-- Behind a product, the loop goes on with it in hand. -/
theorem Product.run_product {word : List Token} {node : Node} (next : Token) (s : List Token)
    (notLeft : next.kind ≠ .leftParen) :
    Product word node → run product (word ++ next :: s) = run (productRest node) (next :: s)
  | .single isSigned => by
    rw [Parser.run_product, bind_of_ok (isSigned.run_signed next s notLeft)]
  | @Product.chain _ right sign _ _ _ isProduct isSign isSigned => by
    have notLeft' : sign.kind ≠ .leftParen := by simp [isSign.2.1]
    rw [List.append_assoc, List.cons_append, isProduct.run_product sign _ notLeft',
      run_productRest, look_bind, productOperator?_eq_some.2 isSign]
    dsimp only
    rw [skip_bind, bind_of_ok (isSigned.run_signed next s notLeft)]
theorem Signed.run_signed {word : List Token} {node : Node} (next : Token) (s : List Token)
    (notLeft : next.kind ≠ .leftParen) :
    Signed word node → run signed (word ++ next :: s) = .ok (node, next :: s)
  | .plain isPrimary => by
    have parsed := isPrimary.run_primary next s notLeft
    obtain ⟨token, rest, rfl, other⟩ := isPrimary.starts
    have notOperator : token.kind ≠ .operator := fun same => other (by simp [same])
    rw [Parser.run_signed, List.cons_append, look_bind, signOperator?_eq_none notOperator]
    exact parsed
  | .sign isSign isSigned => by
    rw [Parser.run_signed, List.cons_append, look_bind, signOperator?_eq_some.2 isSign]
    dsimp only
    rw [skip_bind, bind_of_ok (isSigned.run_signed next s notLeft)]
    rfl
theorem Primary.run_primary {word : List Token} {node : Node} (next : Token) (s : List Token)
    (notLeft : next.kind ≠ .leftParen) :
    Primary word node → run primary (word ++ next :: s) = .ok (node, next :: s)
  | @Primary.parentheses word _ right _ isLeft isSum isRight => by
    have notOperator : right.kind ≠ .operator := by simp [isRight]
    have notLeft' : right.kind ≠ .leftParen := by simp [isRight]
    have inside := run_sum_ok (isSum.run_sum right (next :: s)) notOperator notLeft'
    have split : word ++ [right] ++ next :: s = word ++ right :: next :: s := by simp
    rw [Parser.run_primary, List.cons_append, split, look_bind, isLeft]
    dsimp only
    rw [skip_bind, bind_of_ok inside, eat_bind isRight]
    rfl
  | .name isName => by
    rw [Parser.run_primary, List.singleton_append, look_bind, isName]
    dsimp only
    rw [skip_bind, look_bind, if_neg notLeft]
    rfl
  | .integer isInteger => by
    rw [Parser.run_primary, List.singleton_append, look_bind, isInteger]
    rfl
  | .real isReal => by
    rw [Parser.run_primary, List.singleton_append, look_bind, isReal]
    rfl
  | @Primary.call word name left right _ isName isLeft isSeries isRight => by
    have split : name :: left :: (word ++ [right]) ++ next :: s =
        name :: left :: (word ++ right :: next :: s) := by simp
    rw [Parser.run_primary, split, look_bind, isName]
    dsimp only
    rw [skip_bind, look_bind, if_pos isLeft, skip_bind,
      bind_of_ok (isSeries.run_arguments isRight)]
    rfl
theorem Series.run_arguments {word s : List Token} {nodes : List Node} {right : Token}
    (isRight : right.kind = .rightParen) :
    Series Sum word nodes → run arguments (word ++ right :: s) = .ok (nodes, s)
  | .none => by
    rw [Parser.run_arguments]
    exact series_of_none isRight s
  | .some isListed => by
    rw [Parser.run_arguments]
    exact series_of_listed run_argumentsRest isListed.taken isListed.starts isRight s
theorem Listed.taken {word : List Token} {nodes : List Node} :
    Listed Sum word nodes → Listed (TakenAsItem (run sum)) word nodes
  | .last isSum => .last fun next s separates =>
    run_sum_ok (isSum.run_sum next s) (by grind) (by grind)
  | .more isSum isComma isListed =>
    .more (fun next s separates => run_sum_ok (isSum.run_sum next s) (by grind) (by grind))
      isComma isListed.taken
end

/-- In front of a token that does not continue it, a sum is complete. -/
theorem Sum.run_ok {word : List Token} {node : Node} {next : Token} {kind : TokenKind}
    (isSum : Sum word node) (isKind : next.kind = kind)
    (ends : kind ≠ .operator ∧ kind ≠ .leftParen) (s : List Token) :
    run sum (word ++ next :: s) = .ok (node, next :: s) := by
  subst isKind
  exact run_sum_ok (isSum.run_sum next s) ends.1 ends.2

/-! ## Statements -/

theorem IsType.run_typeSpecifier {type : Token} {ty : Ty} (isType : IsType type ty)
    (s : List Token) : run typeSpecifier (type :: s) = .ok (ty, s) := by
  rw [Parser.run_typeSpecifier, look_bind, if_pos isType.1, ofSpecifier?_eq_some.2 isType.2]
  rfl

theorem Declaration.taken {word : List Token} {node : Node}
    (isDeclaration : Declaration word node) : TakenAnywhere (run declaration) word node := by
  obtain ⟨isType, isName, isSemicolon⟩ := isDeclaration
  refine ⟨⟨_, _, rfl, isType.1⟩, fun s => ?_⟩
  rw [run_declaration, List.cons_append, bind_of_ok (isType.run_typeSpecifier _), List.cons_append,
    eat_bind isName, List.cons_append, eat_bind isSemicolon]
  rfl

theorem Many.mono {Item Item' : List Token → Node → Prop}
    (implies : ∀ {word node}, Item word node → Item' word node) {word : List Token}
    {nodes : List Node} (isMany : Many Item word nodes) : Many Item' word nodes := by
  induction isMany with
  | nil => exact .nil
  | cons isItem _ ih => exact .cons (implies isItem) ih

theorem Block.starts {word : List Token} {node : Node} (isBlock : Block word node) :
    ∃ token rest, word = token :: rest ∧ token.kind = .leftBrace := by
  cases isBlock with
  | empty isLeft _ => exact ⟨_, _, rfl, isLeft⟩
  | full isLeft => exact ⟨_, _, rfl, isLeft⟩

/-- No statement starts like a declaration, and none like what may follow one. -/
theorem Statement.starts {word : List Token} {node : Node} (isStatement : Statement word node) :
    StartsWithout [.typeSpecifier, .rightBrace, .elseWord] word := by
  cases isStatement with
  | block isBlock =>
    obtain ⟨token, rest, rfl, isLeft⟩ := isBlock.starts
    exact ⟨token, rest, rfl, by simp [isLeft]⟩
  | returnValue isReturn => exact ⟨_, _, rfl, by simp [isReturn]⟩
  | empty isSemicolon => exact ⟨_, _, rfl, by simp [isSemicolon]⟩
  | assignment isName => exact ⟨_, _, rfl, by simp [isName]⟩
  | ifThen isIf => exact ⟨_, _, rfl, by simp [isIf]⟩
  | ifElse isIf => exact ⟨_, _, rfl, by simp [isIf]⟩

/-- What follows statements up to a closing brace: the next one of them, or the brace. -/
theorem starts_statements {word : List Token} {nodes : List Node} {right : Token}
    (areStatements : Many Statement word nodes) (isRight : right.kind = .rightBrace)
    (s : List Token) : StartsWithout [.typeSpecifier, .elseWord] (word ++ right :: s) := by
  cases areStatements with
  | nil => exact ⟨right, s, rfl, by simp [isRight]⟩
  | cons isStatement _ =>
    obtain ⟨token, rest, rfl, other⟩ := isStatement.starts
    exact ⟨token, _, rfl, by simp_all⟩

/-- What stands in braces does not start with the closing one. -/
theorem starts_block {first second : List Token} {declarations statements : List Node}
    (areDeclarations : Many Declaration first declarations)
    (areStatements : Many Statement second statements)
    (present : declarations ≠ [] ∨ statements ≠ []) (right : Token) (s : List Token) :
    StartsWithout [.rightBrace] (first ++ (second ++ right :: s)) := by
  cases areDeclarations with
  | cons isDeclaration _ =>
    obtain ⟨type, rest, rfl, isType⟩ := isDeclaration.taken.1
    exact ⟨type, _, rfl, by simp [isType]⟩
  | nil =>
    cases areStatements with
    | cons isStatement _ =>
      obtain ⟨token, rest, rfl, other⟩ := isStatement.starts
      exact ⟨token, _, rfl, by simp_all⟩
    | nil => simp at present

mutual
theorem Statement.run_statement {word : List Token} {node : Node} (next : Token) (s : List Token) :
    Statement word node → node.ElseNearest → (node.endsOpen = true → next.kind ≠ .elseWord) →
    run statement (word ++ next :: s) = .ok (node, next :: s)
  | .block isBlock, nearest, _ => by
    have parsed := isBlock.run_block (next :: s) nearest
    obtain ⟨token, rest, rfl, isLeft⟩ := isBlock.starts
    rw [Parser.run_statement, List.cons_append, look_bind, isLeft]
    exact parsed
  | @Statement.returnValue word keyword semicolon _ isReturn isValue isSemicolon, _, _ => by
    have value := isValue.run_ok isSemicolon (by decide) (next :: s)
    have split : keyword :: (word ++ [semicolon]) ++ next :: s =
        keyword :: (word ++ semicolon :: next :: s) := by simp
    rw [Parser.run_statement, split, look_bind, isReturn]
    dsimp only
    rw [skip_bind, bind_of_ok value, eat_bind isSemicolon]
    rfl
  | .empty isSemicolon, _, _ => by
    rw [Parser.run_statement, List.singleton_append, look_bind, isSemicolon]
    rfl
  | @Statement.assignment word name equals semicolon _ isName isEquals isValue isSemicolon,
      _, _ => by
    have value := isValue.run_ok isSemicolon (by decide) (next :: s)
    have split : name :: equals :: (word ++ [semicolon]) ++ next :: s =
        name :: equals :: (word ++ semicolon :: next :: s) := by simp
    rw [Parser.run_statement, split, look_bind, isName]
    dsimp only
    rw [skip_bind, eat_bind isEquals, bind_of_ok value, eat_bind isSemicolon]
    rfl
  | @Statement.ifThen test word keyword left right condition consequent isIf isLeft isTest isRight
      isConsequent, nearest, closed => by
    have notElse := closed rfl
    have value := isTest.run_ok isRight (by decide) (word ++ next :: s)
    have inner := isConsequent.run_statement next s nearest fun _ => notElse
    have split : keyword :: left :: (test ++ right :: word) ++ next :: s =
        keyword :: left :: (test ++ right :: (word ++ next :: s)) := by simp
    rw [Parser.run_statement, split, look_bind, isIf]
    dsimp only
    rw [skip_bind, eat_bind isLeft, bind_of_ok value, eat_bind isRight, bind_of_ok inner, look_bind,
      if_neg notElse]
    rfl
  | @Statement.ifElse test word word' keyword left right separator condition consequent alternative
      isIf isLeft isTest isRight isConsequent isElse isAlternative, nearest, closed => by
    -- What stands before the `else` does not end open, so it leaves the `else` alone.
    obtain ⟨closedBefore, nearest, nearest'⟩ := nearest
    have value := isTest.run_ok isRight (by decide)
      (word ++ separator :: (word' ++ next :: s))
    have inner := isConsequent.run_statement separator (word' ++ next :: s) nearest
      fun opened => absurd opened (by simp [closedBefore])
    have last := isAlternative.run_statement next s nearest' closed
    have split : keyword :: left :: (test ++ right :: (word ++ separator :: word')) ++ next :: s =
        keyword :: left :: (test ++ right :: (word ++ separator :: (word' ++ next :: s))) := by simp
    rw [Parser.run_statement, split, look_bind, isIf]
    dsimp only
    rw [skip_bind, eat_bind isLeft, bind_of_ok value, eat_bind isRight, bind_of_ok inner, look_bind,
      if_pos isElse, skip_bind, bind_of_ok last]
    rfl
theorem Block.run_block {word : List Token} {node : Node} (s : List Token) :
    Block word node → node.ElseNearest → run block (word ++ s) = .ok (node, s)
  | .empty isLeft isRight, _ => by
    rw [Parser.run_block, List.cons_append, eat_bind isLeft, List.cons_append, look_bind,
      if_pos isRight]
    rfl
  | @Block.full first second left right declarations statements isLeft areDeclarations areStatements
      present isRight, nearest => by
    have parsed := run_statements_ok s areStatements isRight nearest
    have split : left :: (first ++ (second ++ [right])) ++ s =
        left :: (first ++ (second ++ right :: s)) := by simp
    obtain ⟨next, later, same, notRight⟩ :=
      starts_block areDeclarations areStatements present right s
    obtain ⟨next', later', same', notType⟩ := starts_statements areStatements isRight s
    have notType' : next'.kind ≠ .typeSpecifier := fun kind => notType (by simp [kind])
    have declared := run_many run_declarations (areDeclarations.mono Declaration.taken) notType'
      later'
    rw [← same'] at declared
    rw [Parser.run_block, split, eat_bind isLeft, same, look_bind,
      if_neg (fun kind => notRight (by simp [kind])), ← same, bind_of_ok declared,
      bind_of_ok parsed]
    rfl
theorem run_statements_ok {word : List Token} {nodes : List Node} {right : Token} (s : List Token) :
    Many Statement word nodes → right.kind = .rightBrace → Node.AllElseNearest nodes →
    run statements (word ++ right :: s) = .ok (nodes, s)
  | .nil, isRight, _ => by
    rw [run_statements, List.nil_append, look_bind, if_pos isRight]
    rfl
  | @Many.cons _ first rest node nodes isStatement areStatements, isRight, nearest => by
    have others := run_statements_ok s areStatements isRight nearest.2
    obtain ⟨next, later, split, notNext⟩ := starts_statements areStatements isRight s
    have first := isStatement.run_statement next later nearest.1
      fun _ same => notNext (by simp [same])
    obtain ⟨token, rest, rfl, other⟩ := isStatement.starts
    have notRight : token.kind ≠ .rightBrace := fun same => other (by simp [same])
    rw [run_statements, List.append_assoc, split, List.cons_append, look_bind, if_neg notRight]
    rw [List.cons_append] at first
    rw [bind_of_ok first, ← split, bind_of_ok others]
    rfl
end

/-! ## Programs -/

theorem Parameter.taken {word : List Token} {node : Node} (isParameter : Parameter word node) :
    TakenAsItem (run parameter) word node := by
  obtain ⟨isType, isName⟩ := isParameter
  intro next s _
  rw [run_parameter, List.cons_append, bind_of_ok (isType.run_typeSpecifier _), List.cons_append,
    eat_bind isName]
  rfl

theorem Listed.mono {Item Item' : List Token → Node → Prop}
    (implies : ∀ {word node}, Item word node → Item' word node) {word : List Token}
    {nodes : List Node} (isListed : Listed Item word nodes) : Listed Item' word nodes := by
  induction isListed with
  | last isItem => exact .last (implies isItem)
  | more isItem isComma _ ih => exact .more (implies isItem) isComma ih

theorem Listed.starts_parameters {word : List Token} {nodes : List Node}
    (isListed : Listed Parameter word nodes) : StartsWithout [.rightParen] word := by
  cases isListed with
  | last isParameter =>
    obtain ⟨isType, _⟩ := isParameter
    exact ⟨_, _, rfl, by simp [isType.1]⟩
  | more isParameter =>
    obtain ⟨isType, _⟩ := isParameter
    exact ⟨_, _, rfl, by simp [isType.1]⟩

theorem Series.run_parameters {word : List Token} {nodes : List Node} {right : Token}
    (isSeries : Series Parameter word nodes) (isRight : right.kind = .rightParen) (s : List Token) :
    run parameters (word ++ right :: s) = .ok (nodes, s) := by
  rw [Parser.run_parameters]
  cases isSeries with
  | none => exact series_of_none isRight s
  | some isListed =>
    exact series_of_listed run_parametersRest (isListed.mono Parameter.taken)
      isListed.starts_parameters isRight s

theorem Function.taken {word : List Token} {node : Node} (isFunction : Function word node)
    (nearest : node.ElseNearest) : TakenAnywhere (run function) word node := by
  obtain ⟨isType, isName, isLeft, areParameters, isRight, isBlock⟩ := isFunction
  refine ⟨⟨_, _, rfl, isType.1⟩, fun s => ?_⟩
  rw [run_function, List.cons_append, bind_of_ok (isType.run_typeSpecifier _), List.cons_append,
    eat_bind isName, List.cons_append, eat_bind isLeft, List.append_assoc, List.cons_append,
    bind_of_ok (areParameters.run_parameters isRight _), bind_of_ok (isBlock.run_block s nearest)]
  rfl

theorem many_function_taken {word : List Token} {nodes : List Node}
    (areFunctions : Many Function word nodes) (nearest : Node.AllElseNearest nodes) :
    Many (TakenAnywhere (run function)) word nodes := by
  induction areFunctions with
  | nil => exact .nil
  | cons isFunction _ ih => exact .cons (isFunction.taken nearest.1) (ih nearest.2)

/-- A program of the grammar is read as a whole and gives its tree. -/
theorem Derives.run_program {tokens : List Token} {tree : Node} (derives : Derives tokens tree)
    (s : List Token) : run Parser.program (tokens ++ s) = .ok (tree, s) := by
  obtain ⟨⟨areFunctions, present, isStop⟩, nearest⟩ := derives
  cases many_function_taken areFunctions nearest with
  | nil => exact absurd rfl present
  | cons first others =>
    have later := run_many run_functions others (by rw [isStop]; decide) s
    rw [Parser.run_program, List.append_assoc, List.append_assoc, bind_of_ok (first.2 _),
      List.singleton_append, bind_of_ok later, eat_bind isStop]
    rfl

/-- A program ends with the end of input. -/
theorem Program.exists_stop {tokens : List Token} {tree : Node} :
    Program tokens tree → ∃ before stop, tokens = before ++ [stop] ∧ stop.kind = .endOfInput
  | .intro _ _ isStop => ⟨_, _, rfl, isStop⟩

/-- A sequence of tokens stands for one tree at most. -/
theorem Derives.unique {tokens : List Token} {tree tree' : Node} (derives : Derives tokens tree)
    (derives' : Derives tokens tree') : tree = tree' := by
  have same := (derives.run_program []).symm.trans (derives'.run_program [])
  exact (Prod.mk.inj (Except.ok.inj same)).1

/-- What the parser finds in front of some tokens is what they stand for. -/
theorem derives_of_run_program {s rest : List Token} {tree : Node}
    (found : run program s = .ok (tree, rest)) :
    ∃ tokens, s = tokens ++ rest ∧ Derives tokens tree := by
  obtain ⟨tokens, rfl, isProgram⟩ := (reads_program s).sound tree rest found
  -- Some tree of these tokens has every `else` at the nearest `if`, and the parser finds that one.
  obtain ⟨tree', derives⟩ := Grammatical.exists_derives ⟨tree, isProgram⟩
  have same := found.symm.trans (derives.run_program rest)
  rw [(Prod.mk.inj (Except.ok.inj same)).1]
  exact ⟨tokens, rfl, derives⟩

end Grammar

open Grammar MiniC.Parser

theorem Lexing.toExcept_eq_ok {lexing : Lexing} {tokens : List Token} :
    lexing.toExcept = .ok tokens ↔ lexing.failure = none ∧ lexing.tokens = tokens := by
  unfold Lexing.toExcept
  cases lexing.failure <;> simp

theorem Lexing.parse_eq_ok (lexing : Lexing) {tree : Node} :
    lexing.parse = .ok tree ↔ ∃ rest, run program lexing.tokens = .ok (tree, rest) := by
  unfold Lexing.parse run
  cases result : program lexing.tokens with
  | ok found =>
    constructor
    · intro parsed
      cases parsed
      exact ⟨found.2.1, rfl⟩
    · rintro ⟨rest, parsed⟩
      cases parsed
      rfl
  | error stop =>
    constructor
    · intro parsed
      cases stop <;> cases parsed
    · rintro ⟨rest, parsed⟩
      cases parsed

/-- A source text that parses is read as a whole, and the tree is what its tokens stand for. -/
theorem Node.derives_of_parse {source : String} {tree : Node}
    (parsed : Node.parse source = .ok tree) :
    ∃ tokens, (lex source).toExcept = .ok tokens ∧ Derives tokens tree := by
  have ended : (lex source).Ended := lexFrom_ended .start source.toList
  obtain ⟨rest, found⟩ := (lex source).parse_eq_ok.1 parsed
  obtain ⟨tokens, split, derives⟩ := derives_of_run_program found
  obtain ⟨before, stop, rfl, isStop⟩ := derives.program.exists_stop
  rw [List.append_assoc, List.singleton_append] at split
  obtain ⟨rfl, read⟩ := ended.of_stop isStop split
  exact ⟨_, Lexing.toExcept_eq_ok.2 ⟨read, split⟩, derives⟩

/-- A source text parses exactly if its tokens are a program of the grammar, and the tree is the one
that they stand for. They stand for no other. -/
theorem Node.parse_eq_ok_iff_derives (source : String) :
    (∀ tree, Node.parse source = .ok tree ↔
      ∃ tokens, (lex source).toExcept = .ok tokens ∧ Derives tokens tree) ∧
    ∀ tokens tree tree', Derives tokens tree → Derives tokens tree' → tree = tree' := by
  refine ⟨fun tree => ⟨Node.derives_of_parse, ?_⟩, fun tokens tree tree' => Derives.unique⟩
  rintro ⟨tokens, read, derives⟩
  obtain ⟨_, rfl⟩ := Lexing.toExcept_eq_ok.1 read
  exact (lex source).parse_eq_ok.2 ⟨[], by simpa using derives.run_program []⟩

end MiniC
