import MiniC.Proofs.Results
import MiniC.Tree.Parser

/-!
# The shape of parsed trees

A tree that was parsed holds only the nodes that the grammar allows at each place, and every name
in it is a word of the source.
-/

namespace MiniC

/-- A word that may name a function, a parameter or a variable. -/
structure IsIdentifier (name : String) : Prop where
  word : ∀ c ∈ name.toList, isWordChar c
  nonempty : name.toList ≠ []
  start : ∀ c ∈ name.toList.head?, isWordStart c

namespace Node

/-- The name of something to call. -/
def IsCallee : Node → Prop
  | identifier _ name => IsIdentifier name
  | _ => False

mutual
/-- An expression of the grammar. -/
def IsValue : Node → Prop
  | identifier _ name => IsIdentifier name
  | integer .. => True
  | real .. => True
  | binary _ _ lhs rhs => lhs.IsValue ∧ rhs.IsValue
  | unary _ _ operand => operand.IsValue
  | call _ callee arguments => callee.IsCallee ∧ AreValues arguments
  | _ => False
def AreValues : List Node → Prop
  | [] => True
  | node :: nodes => node.IsValue ∧ AreValues nodes
end

def IsDeclaration : Node → Prop
  | declaration _ _ name => IsIdentifier name
  | _ => False

def IsParameter : Node → Prop
  | parameter _ _ name => IsIdentifier name
  | _ => False

mutual
/-- A statement of the grammar. -/
def IsStatement : Node → Prop
  | empty _ => True
  | block _ declarations statements =>
      (∀ node ∈ declarations, node.IsDeclaration) ∧ AreStatements statements
  | returnValue _ value => value.IsValue
  | assignment _ target value => IsIdentifier target ∧ value.IsValue
  | ifThen _ condition consequent => condition.IsValue ∧ consequent.IsStatement
  | ifElse _ condition consequent alternative =>
      condition.IsValue ∧ consequent.IsStatement ∧ alternative.IsStatement
  | _ => False
def AreStatements : List Node → Prop
  | [] => True
  | node :: nodes => node.IsStatement ∧ AreStatements nodes
end

def IsFunction : Node → Prop
  | function _ _ name parameters body =>
      IsIdentifier name ∧ (∀ node ∈ parameters, node.IsParameter) ∧ body.IsStatement
  | _ => False

/-- A program of the grammar. -/
def IsProgram : Node → Prop
  | program _ functions => ∀ node ∈ functions, node.IsFunction
  | _ => False

end Node

/-! ## Words of the source -/

theorem isAlphanum_of_isAlpha {c : Char} (alpha : c.isAlpha) : c.isAlphanum := by
  simp [Char.isAlphanum, alpha]

theorem isWordChar_of_isWordStart {c : Char} (start : isWordStart c) : isWordChar c := by
  unfold isWordStart at start
  unfold isWordChar
  rcases Bool.or_eq_true_iff.1 start with underscore | alpha
  · simp [underscore]
  · simp [isAlphanum_of_isAlpha alpha]

/-- Every identifier among the tokens is a word. -/
def NamesAreWords (tokens : List Token) : Prop :=
  ∀ token ∈ tokens, token.kind = .identifier → IsIdentifier token.text

theorem NamesAreWords.tail {token : Token} {tokens : List Token}
    (words : NamesAreWords (token :: tokens)) : NamesAreWords tokens :=
  fun other member => words other (List.mem_cons_of_mem _ member)

theorem number_kind {c : Char} {rest more : List Char} {kind : TokenKind}
    (found : number c rest = .ok (kind, more)) : kind ≠ .identifier := by
  unfold number at found
  dsimp only at found
  split at found
  · cases found
    decide
  · split at found
    · cases found
      decide
    · cases found

theorem punctuation?_kind {c : Char} {kind : TokenKind} (found : punctuation? c = some kind) :
    kind ≠ .identifier := by
  unfold punctuation? at found
  split at found <;> first | (cases found; decide) | cases found

theorem lexeme_identifier {c : Char} {rest more : List Char}
    (found : lexeme c rest = .ok (.identifier, more)) : IsIdentifier (String.ofList (c :: more)) := by
  unfold lexeme at found
  split at found
  · next kind punctuation =>
    cases found
    exact absurd rfl (punctuation?_kind punctuation)
  · split at found
    · exact absurd rfl (number_kind found)
    · split at found
      · next start =>
        obtain ⟨_, rfl⟩ := Prod.mk.inj (Except.ok.inj found)
        refine ⟨?_, by simp, by simpa using start⟩
        intro d member
        rw [String.toList_ofList] at member
        rcases List.mem_cons.1 member with rfl | member
        · exact isWordChar_of_isWordStart start
        · exact List.all_eq_true.1 (List.all_takeWhile (p := isWordChar) (l := rest)) d
            (List.mem_of_mem_take member)
      · cases found

theorem lexFrom_namesAreWords (pos : Position) (chars : List Char) :
    NamesAreWords (lexFrom pos chars).tokens := by
  fun_induction lexFrom pos chars with
  | case1 =>
    intro token member kind
    rw [List.mem_singleton.1 member] at kind
    cases kind
  | case2 =>
    intro token member
    exact absurd member List.not_mem_nil
  | case3 _ _ _ c rest _ kind more found token later ih =>
    intro other member isName
    rcases List.mem_cons.1 member with rfl | member
    · have : kind = .identifier := isName
      subst this
      exact lexeme_identifier found
    · exact ih other member isName

/-! ## Rules of the grammar -/

namespace Parser

theorem eat_eq_ok {kind : TokenKind} {s : List Token} {token : Token} {rest : Shorter s}
    (eaten : eat kind s = .ok (token, rest)) : s = token :: rest.1 ∧ token.kind = kind := by
  cases s with
  | nil => cases eaten
  | cons first later =>
    rw [eat] at eaten
    split at eaten
    · next same =>
      cases eaten
      exact ⟨rfl, same⟩
    · cases eaten

theorem eat_words {kind : TokenKind} {s : List Token} {token : Token} {rest : Shorter s}
    (words : NamesAreWords s) (eaten : eat kind s = .ok (token, rest)) : NamesAreWords rest.1 := by
  rw [(eat_eq_ok eaten).1] at words
  exact words.tail

theorem eat_identifier {s : List Token} {token : Token} {rest : Shorter s}
    (words : NamesAreWords s) (eaten : eat .identifier s = .ok (token, rest)) :
    IsIdentifier token.text := by
  obtain ⟨split, kind⟩ := eat_eq_ok eaten
  rw [split] at words
  exact words token List.mem_cons_self kind

mutual
theorem sum_isValue : (s : List Token) → {node : Node} → {rest : Shorter s} → NamesAreWords s →
    sum s = .ok (node, rest) → node.IsValue ∧ NamesAreWords rest.1
  | s, _, _, words, parsed => by
    rw [sum] at parsed
    obtain ⟨⟨first, r, shorter⟩, parsedFirst, parsed⟩ := bind_eq_ok.1 parsed
    obtain ⟨⟨whole, r1, _⟩, parsedRest, parsed⟩ := bind_eq_ok.1 parsed
    cases parsed
    obtain ⟨isFirst, words⟩ := product_isValue s words parsedFirst
    exact sumRest_isValue r isFirst words parsedRest
termination_by s => 8 * s.length + 3
decreasing_by all_goals omega

theorem sumRest_isValue : (s : List Token) → {lhs node : Node} → {rest : NoLonger s} →
    lhs.IsValue → NamesAreWords s → sumRest lhs s = .ok (node, rest) →
    node.IsValue ∧ NamesAreWords rest.1
  | [], _, _, _, _, _, parsed => by
    rw [sumRest] at parsed
    cases parsed
  | token :: later, lhs, _, _, isLhs, words, parsed => by
    rw [sumRest] at parsed
    split at parsed
    · cases parsed
      exact ⟨isLhs, words⟩
    · next op _ =>
      obtain ⟨⟨rhs, r, shorter⟩, parsedRhs, parsed⟩ := bind_eq_ok.1 parsed
      obtain ⟨⟨whole, r1, _⟩, parsedRest, parsed⟩ := bind_eq_ok.1 parsed
      cases parsed
      obtain ⟨isRhs, words⟩ := product_isValue later words.tail parsedRhs
      have isBinary : (Node.binary (.ofToken token) op lhs rhs).IsValue := ⟨isLhs, isRhs⟩
      exact sumRest_isValue r isBinary words parsedRest
termination_by s => 8 * s.length
decreasing_by all_goals grind

theorem product_isValue : (s : List Token) → {node : Node} → {rest : Shorter s} →
    NamesAreWords s → product s = .ok (node, rest) → node.IsValue ∧ NamesAreWords rest.1
  | s, _, _, words, parsed => by
    rw [product] at parsed
    obtain ⟨⟨first, r, shorter⟩, parsedFirst, parsed⟩ := bind_eq_ok.1 parsed
    obtain ⟨⟨whole, r1, _⟩, parsedRest, parsed⟩ := bind_eq_ok.1 parsed
    cases parsed
    obtain ⟨isFirst, words⟩ := signed_isValue s words parsedFirst
    exact productRest_isValue r isFirst words parsedRest
termination_by s => 8 * s.length + 2
decreasing_by all_goals omega

theorem productRest_isValue : (s : List Token) → {lhs node : Node} → {rest : NoLonger s} →
    lhs.IsValue → NamesAreWords s → productRest lhs s = .ok (node, rest) →
    node.IsValue ∧ NamesAreWords rest.1
  | [], _, _, _, _, _, parsed => by
    rw [productRest] at parsed
    cases parsed
  | token :: later, lhs, _, _, isLhs, words, parsed => by
    rw [productRest] at parsed
    split at parsed
    · cases parsed
      exact ⟨isLhs, words⟩
    · next op _ =>
      obtain ⟨⟨rhs, r, shorter⟩, parsedRhs, parsed⟩ := bind_eq_ok.1 parsed
      obtain ⟨⟨whole, r1, _⟩, parsedRest, parsed⟩ := bind_eq_ok.1 parsed
      cases parsed
      obtain ⟨isRhs, words⟩ := signed_isValue later words.tail parsedRhs
      have isBinary : (Node.binary (.ofToken token) op lhs rhs).IsValue := ⟨isLhs, isRhs⟩
      exact productRest_isValue r isBinary words parsedRest
termination_by s => 8 * s.length
decreasing_by all_goals grind

theorem signed_isValue : (s : List Token) → {node : Node} → {rest : Shorter s} →
    NamesAreWords s → signed s = .ok (node, rest) → node.IsValue ∧ NamesAreWords rest.1
  | [], _, _, _, parsed => by
    rw [signed] at parsed
    cases parsed
  | token :: later, _, _, words, parsed => by
    rw [signed] at parsed
    split at parsed
    · obtain ⟨⟨operand, r, shorter⟩, parsedOperand, parsed⟩ := bind_eq_ok.1 parsed
      cases parsed
      exact signed_isValue later words.tail parsedOperand
    · exact primary_isValue (token :: later) words parsed
termination_by s => 8 * s.length + 1
decreasing_by all_goals grind

theorem primary_isValue : (s : List Token) → {node : Node} → {rest : Shorter s} →
    NamesAreWords s → primary s = .ok (node, rest) → node.IsValue ∧ NamesAreWords rest.1
  | [], _, _, _, parsed => by
    rw [primary] at parsed
    cases parsed
  | token :: later, _, _, words, parsed => by
    rw [primary.eq_def] at parsed
    dsimp only at parsed
    split at parsed
    · obtain ⟨⟨inner, r, shorter⟩, parsedInner, parsed⟩ := bind_eq_ok.1 parsed
      obtain ⟨⟨paren, r1, _⟩, eaten, parsed⟩ := bind_eq_ok.1 parsed
      cases parsed
      obtain ⟨isInner, words⟩ := sum_isValue later words.tail parsedInner
      have words := eat_words words eaten
      exact ⟨isInner, words⟩
    · next kind =>
      have isName := words token List.mem_cons_self kind
      split at parsed
      · cases parsed
      · next next later _ =>
        split at parsed
        · obtain ⟨⟨values, r, shorter⟩, parsedValues, parsed⟩ := bind_eq_ok.1 parsed
          cases parsed
          obtain ⟨areValues, words⟩ := arguments_areValues later words.tail.tail parsedValues
          exact ⟨⟨isName, areValues⟩, words⟩
        · cases parsed
          exact ⟨isName, words.tail⟩
    · cases parsed
      exact ⟨trivial, words.tail⟩
    · cases parsed
      exact ⟨trivial, words.tail⟩
    · cases parsed
termination_by s => 8 * s.length
decreasing_by all_goals grind

theorem arguments_areValues : (s : List Token) → {nodes : List Node} → {rest : Shorter s} →
    NamesAreWords s → arguments s = .ok (nodes, rest) →
    Node.AreValues nodes ∧ NamesAreWords rest.1
  | [], _, _, _, parsed => by
    rw [arguments] at parsed
    cases parsed
  | token :: later, _, _, words, parsed => by
    rw [arguments] at parsed
    split at parsed
    · cases parsed
      exact ⟨trivial, words.tail⟩
    · obtain ⟨⟨first, r, shorter⟩, parsedFirst, parsed⟩ := bind_eq_ok.1 parsed
      obtain ⟨⟨more, r1, _⟩, parsedMore, parsed⟩ := bind_eq_ok.1 parsed
      cases parsed
      obtain ⟨isFirst, words⟩ := sum_isValue (token :: later) words parsedFirst
      obtain ⟨areMore, words⟩ := argumentsRest_areValues r words parsedMore
      exact ⟨⟨isFirst, areMore⟩, words⟩
termination_by s => 8 * s.length + 4
decreasing_by all_goals grind

theorem argumentsRest_areValues : (s : List Token) → {nodes : List Node} → {rest : Shorter s} →
    NamesAreWords s → argumentsRest s = .ok (nodes, rest) →
    Node.AreValues nodes ∧ NamesAreWords rest.1
  | [], _, _, _, parsed => by
    rw [argumentsRest] at parsed
    cases parsed
  | token :: later, _, _, words, parsed => by
    rw [argumentsRest] at parsed
    split at parsed
    · obtain ⟨⟨first, r, shorter⟩, parsedFirst, parsed⟩ := bind_eq_ok.1 parsed
      obtain ⟨⟨more, r1, _⟩, parsedMore, parsed⟩ := bind_eq_ok.1 parsed
      cases parsed
      obtain ⟨isFirst, words⟩ := sum_isValue later words.tail parsedFirst
      obtain ⟨areMore, words⟩ := argumentsRest_areValues r words parsedMore
      exact ⟨⟨isFirst, areMore⟩, words⟩
    · obtain ⟨⟨paren, r⟩, eaten, parsed⟩ := bind_eq_ok.1 parsed
      cases parsed
      exact ⟨trivial, eat_words words eaten⟩
termination_by s => 8 * s.length
decreasing_by all_goals grind
end

theorem typeSpecifier_words {s : List Token} {ty : Ty} {rest : Shorter s} (words : NamesAreWords s)
    (parsed : typeSpecifier s = .ok (ty, rest)) : NamesAreWords rest.1 := by
  unfold typeSpecifier at parsed
  obtain ⟨⟨token, r⟩, eaten, parsed⟩ := bind_eq_ok.1 parsed
  dsimp only at parsed
  split at parsed
  · cases parsed
    exact eat_words words eaten
  · cases parsed

theorem declaration_isDeclaration {s : List Token} {node : Node} {rest : Shorter s}
    (words : NamesAreWords s) (parsed : declaration s = .ok (node, rest)) :
    node.IsDeclaration ∧ NamesAreWords rest.1 := by
  unfold declaration at parsed
  obtain ⟨⟨ty, r, _⟩, parsedType, parsed⟩ := bind_eq_ok.1 parsed
  obtain ⟨⟨name, r1, _⟩, eatenName, parsed⟩ := bind_eq_ok.1 parsed
  obtain ⟨⟨semicolon, r2, _⟩, eaten, parsed⟩ := bind_eq_ok.1 parsed
  cases parsed
  have words := typeSpecifier_words words parsedType
  have isName := eat_identifier words eatenName
  have words := eat_words (eat_words words eatenName) eaten
  exact ⟨isName, words⟩

theorem declarations_areDeclarations (s : List Token) {nodes : List Node} {rest : NoLonger s}
    (words : NamesAreWords s) (parsed : declarations s = .ok (nodes, rest)) :
    (∀ node ∈ nodes, node.IsDeclaration) ∧ NamesAreWords rest.1 := by
  fun_induction declarations s generalizing nodes with
  | case1 => cases parsed
  | case2 token later kind ih =>
    obtain ⟨⟨first, r, shorter⟩, parsedFirst, parsed⟩ := bind_eq_ok.1 parsed
    obtain ⟨⟨more, r1, _⟩, parsedMore, parsed⟩ := bind_eq_ok.1 parsed
    cases parsed
    obtain ⟨isFirst, words⟩ := declaration_isDeclaration words parsedFirst
    obtain ⟨areMore, words⟩ := ih r shorter words parsedMore
    exact ⟨List.forall_mem_cons.2 ⟨isFirst, areMore⟩, words⟩
  | case3 token later kind =>
    cases parsed
    exact ⟨fun _ member => absurd member List.not_mem_nil, words⟩

mutual
theorem statement_isStatement : (s : List Token) → {node : Node} → {rest : Shorter s} →
    NamesAreWords s → statement s = .ok (node, rest) → node.IsStatement ∧ NamesAreWords rest.1
  | [], _, _, _, parsed => by
    rw [statement] at parsed
    cases parsed
  | token :: later, _, _, words, parsed => by
    rw [statement.eq_def] at parsed
    dsimp only at parsed
    split at parsed
    · exact block_isStatement (token :: later) words parsed
    · obtain ⟨⟨value, r, _⟩, parsedValue, parsed⟩ := bind_eq_ok.1 parsed
      obtain ⟨⟨semicolon, r1, _⟩, eaten, parsed⟩ := bind_eq_ok.1 parsed
      cases parsed
      obtain ⟨isValue, words⟩ := sum_isValue later words.tail parsedValue
      have words := eat_words words eaten
      exact ⟨isValue, words⟩
    · obtain ⟨⟨paren, r, _⟩, eaten, parsed⟩ := bind_eq_ok.1 parsed
      obtain ⟨⟨condition, r1, _⟩, parsedCondition, parsed⟩ := bind_eq_ok.1 parsed
      obtain ⟨⟨paren', r2, _⟩, eaten', parsed⟩ := bind_eq_ok.1 parsed
      obtain ⟨⟨consequent, r3, shorter⟩, parsedConsequent, parsed⟩ := bind_eq_ok.1 parsed
      obtain ⟨isCondition, words⟩ := sum_isValue r (eat_words words.tail eaten) parsedCondition
      obtain ⟨isConsequent, words⟩ :=
        statement_isStatement r2 (eat_words words eaten') parsedConsequent
      cases r3 with
      | nil => cases parsed
      | cons next last =>
        dsimp only at parsed
        split at parsed
        · obtain ⟨⟨alternative, r4, _⟩, parsedAlternative, parsed⟩ := bind_eq_ok.1 parsed
          cases parsed
          obtain ⟨isAlternative, words⟩ :=
            statement_isStatement last words.tail parsedAlternative
          exact ⟨⟨isCondition, isConsequent, isAlternative⟩, words⟩
        · cases parsed
          exact ⟨⟨isCondition, isConsequent⟩, words⟩
    · cases parsed
      exact ⟨trivial, words.tail⟩
    · next kind =>
      obtain ⟨⟨sign, r, _⟩, eatenSign, parsed⟩ := bind_eq_ok.1 parsed
      obtain ⟨⟨value, r1, _⟩, parsedValue, parsed⟩ := bind_eq_ok.1 parsed
      obtain ⟨⟨semicolon, r2, _⟩, eaten, parsed⟩ := bind_eq_ok.1 parsed
      cases parsed
      have isName := words token List.mem_cons_self kind
      obtain ⟨isValue, words⟩ := sum_isValue r (eat_words words.tail eatenSign) parsedValue
      have words := eat_words words eaten
      exact ⟨⟨isName, isValue⟩, words⟩
    · cases parsed
termination_by s => 8 * s.length + 1
decreasing_by all_goals grind

theorem block_isStatement : (s : List Token) → {node : Node} → {rest : Shorter s} →
    NamesAreWords s → block s = .ok (node, rest) → node.IsStatement ∧ NamesAreWords rest.1
  | s, _, _, words, parsed => by
    rw [block] at parsed
    obtain ⟨⟨brace, r, shorter⟩, eaten, parsed⟩ := bind_eq_ok.1 parsed
    have words := eat_words words eaten
    cases r with
    | nil => cases parsed
    | cons next later =>
      dsimp only at parsed
      split at parsed
      · cases parsed
        exact ⟨trivial, words.tail⟩
      · obtain ⟨⟨first, r1, noLonger⟩, parsedFirst, parsed⟩ := bind_eq_ok.1 parsed
        obtain ⟨⟨second, r2, _⟩, parsedSecond, parsed⟩ := bind_eq_ok.1 parsed
        cases parsed
        obtain ⟨areFirst, words⟩ := declarations_areDeclarations _ words parsedFirst
        obtain ⟨areSecond, words⟩ := statements_areStatements r1 words parsedSecond
        exact ⟨⟨areFirst, areSecond⟩, words⟩
termination_by s => 8 * s.length
decreasing_by all_goals grind

theorem statements_areStatements : (s : List Token) → {nodes : List Node} → {rest : Shorter s} →
    NamesAreWords s → statements s = .ok (nodes, rest) →
    Node.AreStatements nodes ∧ NamesAreWords rest.1
  | [], _, _, _, parsed => by
    rw [statements] at parsed
    cases parsed
  | token :: later, _, _, words, parsed => by
    rw [statements] at parsed
    split at parsed
    · cases parsed
      exact ⟨trivial, words.tail⟩
    · obtain ⟨⟨first, r, shorter⟩, parsedFirst, parsed⟩ := bind_eq_ok.1 parsed
      obtain ⟨⟨more, r1, _⟩, parsedMore, parsed⟩ := bind_eq_ok.1 parsed
      cases parsed
      obtain ⟨isFirst, words⟩ := statement_isStatement (token :: later) words parsedFirst
      obtain ⟨areMore, words⟩ := statements_areStatements r words parsedMore
      exact ⟨⟨isFirst, areMore⟩, words⟩
termination_by s => 8 * s.length + 2
decreasing_by all_goals grind
end

theorem parameter_isParameter {s : List Token} {node : Node} {rest : Shorter s}
    (words : NamesAreWords s) (parsed : parameter s = .ok (node, rest)) :
    node.IsParameter ∧ NamesAreWords rest.1 := by
  unfold parameter at parsed
  obtain ⟨⟨ty, r, _⟩, parsedType, parsed⟩ := bind_eq_ok.1 parsed
  obtain ⟨⟨name, r1, _⟩, eaten, parsed⟩ := bind_eq_ok.1 parsed
  cases parsed
  have words := typeSpecifier_words words parsedType
  have isName := eat_identifier words eaten
  have words := eat_words words eaten
  exact ⟨isName, words⟩

theorem parametersRest_areParameters (s : List Token) {nodes : List Node} {rest : Shorter s}
    (words : NamesAreWords s) (parsed : parametersRest s = .ok (nodes, rest)) :
    (∀ node ∈ nodes, node.IsParameter) ∧ NamesAreWords rest.1 := by
  fun_induction parametersRest s generalizing nodes with
  | case1 => cases parsed
  | case2 token later kind ih =>
    obtain ⟨⟨first, r, shorter⟩, parsedFirst, parsed⟩ := bind_eq_ok.1 parsed
    obtain ⟨⟨more, r1, _⟩, parsedMore, parsed⟩ := bind_eq_ok.1 parsed
    cases parsed
    obtain ⟨isFirst, words⟩ := parameter_isParameter words.tail parsedFirst
    obtain ⟨areMore, words⟩ := ih r shorter words parsedMore
    exact ⟨List.forall_mem_cons.2 ⟨isFirst, areMore⟩, words⟩
  | case3 token later kind =>
    obtain ⟨⟨paren, r⟩, eaten, parsed⟩ := bind_eq_ok.1 parsed
    cases parsed
    exact ⟨fun _ member => absurd member List.not_mem_nil, eat_words words eaten⟩

theorem parameters_areParameters (s : List Token) {nodes : List Node} {rest : Shorter s}
    (words : NamesAreWords s) (parsed : parameters s = .ok (nodes, rest)) :
    (∀ node ∈ nodes, node.IsParameter) ∧ NamesAreWords rest.1 := by
  cases s with
  | nil => cases parsed
  | cons token later =>
    rw [parameters] at parsed
    split at parsed
    · cases parsed
      exact ⟨fun _ member => absurd member List.not_mem_nil, words.tail⟩
    · obtain ⟨⟨first, r, shorter⟩, parsedFirst, parsed⟩ := bind_eq_ok.1 parsed
      obtain ⟨⟨more, r1, _⟩, parsedMore, parsed⟩ := bind_eq_ok.1 parsed
      cases parsed
      obtain ⟨isFirst, words⟩ := parameter_isParameter words parsedFirst
      obtain ⟨areMore, words⟩ := parametersRest_areParameters r words parsedMore
      exact ⟨List.forall_mem_cons.2 ⟨isFirst, areMore⟩, words⟩

theorem function_isFunction {s : List Token} {node : Node} {rest : Shorter s}
    (words : NamesAreWords s) (parsed : function s = .ok (node, rest)) :
    node.IsFunction ∧ NamesAreWords rest.1 := by
  unfold function at parsed
  obtain ⟨⟨ty, r, _⟩, parsedType, parsed⟩ := bind_eq_ok.1 parsed
  obtain ⟨⟨name, r1, _⟩, eatenName, parsed⟩ := bind_eq_ok.1 parsed
  obtain ⟨⟨paren, r2, _⟩, eatenParen, parsed⟩ := bind_eq_ok.1 parsed
  obtain ⟨⟨inputs, r3, _⟩, parsedInputs, parsed⟩ := bind_eq_ok.1 parsed
  obtain ⟨⟨body, r4, _⟩, parsedBody, parsed⟩ := bind_eq_ok.1 parsed
  cases parsed
  have words := typeSpecifier_words words parsedType
  have isName := eat_identifier words eatenName
  have words := eat_words (eat_words words eatenName) eatenParen
  obtain ⟨areInputs, words⟩ := parameters_areParameters r2 words parsedInputs
  obtain ⟨isBody, words⟩ := block_isStatement r3 words parsedBody
  exact ⟨⟨isName, areInputs, isBody⟩, words⟩

theorem functions_areFunctions (s : List Token) {nodes : List Node} {rest : NoLonger s}
    (words : NamesAreWords s) (parsed : functions s = .ok (nodes, rest)) :
    ∀ node ∈ nodes, node.IsFunction := by
  fun_induction functions s generalizing nodes with
  | case1 => cases parsed
  | case2 token later kind ih =>
    obtain ⟨⟨first, r, shorter⟩, parsedFirst, parsed⟩ := bind_eq_ok.1 parsed
    obtain ⟨⟨more, r1, _⟩, parsedMore, parsed⟩ := bind_eq_ok.1 parsed
    cases parsed
    obtain ⟨isFirst, words⟩ := function_isFunction words parsedFirst
    exact List.forall_mem_cons.2 ⟨isFirst, ih r shorter words parsedMore⟩
  | case3 token later kind =>
    cases parsed
    exact fun _ member => absurd member List.not_mem_nil

theorem program_isProgram {s : List Token} {node : Node} {rest : Shorter s}
    (words : NamesAreWords s) (parsed : program s = .ok (node, rest)) : node.IsProgram := by
  unfold program at parsed
  obtain ⟨⟨first, r, _⟩, parsedFirst, parsed⟩ := bind_eq_ok.1 parsed
  obtain ⟨⟨more, r1, _⟩, parsedMore, parsed⟩ := bind_eq_ok.1 parsed
  obtain ⟨⟨stop, r2, _⟩, eaten, parsed⟩ := bind_eq_ok.1 parsed
  cases parsed
  obtain ⟨isFirst, words⟩ := function_isFunction words parsedFirst
  exact List.forall_mem_cons.2 ⟨isFirst, functions_areFunctions r words parsedMore⟩

end Parser

/-- A source text that parses gives a program of the grammar. -/
theorem Node.parse_isProgram {source : String} {tree : Node} (parsed : Node.parse source = .ok tree) :
    tree.IsProgram := by
  unfold Node.parse Lexing.parse at parsed
  split at parsed
  · next node rest accepted =>
    cases parsed
    exact Parser.program_isProgram (lexFrom_namesAreWords _ _) accepted
  · cases parsed
  · cases parsed

end MiniC
