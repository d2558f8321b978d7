import MiniC.Proofs.Completeness
import MiniC.Proofs.Spelling
import MiniC.Tree.Shape
import MiniC.Tree.Text

/-!
# Trees that are read back from their text

The text of a tree shows by parentheses how operators were grouped, so every value is written as a
primary phrase, and a text can be put together from the texts of the children without a look at what
they are. It is read as the tree that was written, except that tokens stand at other places.

Two kinds of trees are not read back. An empty body is written as the empty statement, which is no
block. And a real constant may be written with an exponent or with a sign, which no token has.
-/

namespace MiniC

open Grammar

/-! ## Trees without tokens -/

/-- Everything but the token. -/
def Info.bare (info : Info) : Info := { info with token := default }

namespace Node

mutual
/-- The tree with all tokens forgotten: kinds, names, types, operators, constants and children. -/
def bare : Node → Node
  | empty info => empty info.bare
  | program info functions => program info.bare (bares functions)
  | function info returnType name parameters body =>
      function info.bare returnType name (bares parameters) body.bare
  | parameter info ty name => parameter info.bare ty name
  | call info callee arguments => call info.bare callee.bare (bares arguments)
  | returnValue info value => returnValue info.bare value.bare
  | block info declarations statements => block info.bare (bares declarations) (bares statements)
  | declaration info ty name => declaration info.bare ty name
  | assignment info target value => assignment info.bare target value.bare
  | ifThen info condition consequent => ifThen info.bare condition.bare consequent.bare
  | ifElse info condition consequent alternative =>
      ifElse info.bare condition.bare consequent.bare alternative.bare
  | binary info op lhs rhs => binary info.bare op lhs.bare rhs.bare
  | unary info op operand => unary info.bare op operand.bare
  | identifier info name => identifier info.bare name
  | integer info value => integer info.bare value
  | real info value => real info.bare value
def bares : List Node → List Node
  | [] => []
  | node :: nodes => node.bare :: bares nodes
end

@[simp] theorem bares_eq_nil {nodes : List Node} : bares nodes = [] ↔ nodes = [] := by
  cases nodes <;> simp [bares]

theorem bares_congr {node node' : Node} {nodes nodes' : List Node} (same : node'.bare = node.bare)
    (same' : bares nodes' = bares nodes) : bares (node' :: nodes') = bares (node :: nodes) := by
  rw [bares, same, same', bares]

theorem ne_nil_of_bares {nodes nodes' : List Node} (same : bares nodes' = bares nodes)
    (present : nodes ≠ []) : nodes' ≠ [] := by
  rw [ne_eq, ← bares_eq_nil, same, bares_eq_nil]
  exact present

mutual
/-- Tokens are not written. -/
theorem text_bare : (node : Node) → node.bare.text = node.text
  | empty _ | parameter .. | declaration .. | identifier .. | integer .. | real .. => rfl
  | program _ functions => linesText_bares functions
  | function _ _ _ parameters body => by simp [bare, text, texts_bares parameters, text_bare body]
  | call _ callee arguments => by simp [bare, text, text_bare callee, texts_bares arguments]
  | returnValue _ value => by simp [bare, text, text_bare value]
  | block _ declarations statements => by
    simp [bare, text, itemsText_bares declarations, itemsText_bares statements]
  | assignment _ _ value => by simp [bare, text, text_bare value]
  | ifThen _ condition consequent => by
    simp [bare, text, text_bare condition, text_bare consequent]
  | ifElse _ condition consequent alternative => by
    simp [bare, text, text_bare condition, text_bare consequent, text_bare alternative]
  | binary _ _ lhs rhs => by simp [bare, text, text_bare lhs, text_bare rhs]
  | unary _ _ operand => by simp [bare, text, text_bare operand]
theorem texts_bares : (nodes : List Node) → texts (bares nodes) = texts nodes
  | [] => rfl
  | node :: nodes => by simp [bares, texts, text_bare node, texts_bares nodes]
theorem linesText_bares : (nodes : List Node) → linesText (bares nodes) = linesText nodes
  | [] => rfl
  | node :: nodes => by simp [bares, linesText, text_bare node, linesText_bares nodes]
theorem itemsText_bares : (nodes : List Node) → itemsText (bares nodes) = itemsText nodes
  | [] => rfl
  | node :: nodes => by simp [bares, itemsText, text_bare node, itemsText_bares nodes]
end

theorem endsOpen_bare : (node : Node) → node.bare.endsOpen = node.endsOpen
  | ifElse _ _ _ alternative => endsOpen_bare alternative
  | ifThen .. | empty _ | program .. | function .. | parameter .. | call .. | returnValue ..
  | block .. | declaration .. | assignment .. | binary .. | unary .. | identifier .. | integer ..
  | real .. => rfl

mutual
/-- Which `if` an `else` belongs to shows without tokens. -/
theorem elseNearest_bare : (node : Node) → (node.bare.ElseNearest ↔ node.ElseNearest)
  | program _ functions => allElseNearest_bares functions
  | function _ _ _ _ body => elseNearest_bare body
  | block _ _ statements => allElseNearest_bares statements
  | ifThen _ _ consequent => elseNearest_bare consequent
  | ifElse _ _ consequent alternative => by
    simp [bare, ElseNearest, endsOpen_bare, elseNearest_bare consequent,
      elseNearest_bare alternative]
  | empty _ | parameter .. | call .. | returnValue .. | declaration .. | assignment .. | binary ..
  | unary .. | identifier .. | integer .. | real .. => Iff.rfl
theorem allElseNearest_bares : (nodes : List Node) →
    (AllElseNearest (bares nodes) ↔ AllElseNearest nodes)
  | [] => Iff.rfl
  | node :: nodes => and_congr (elseNearest_bare node) (allElseNearest_bares nodes)
end

/-! ## Trees whose text shows everything -/

/-- A function with nothing in its braces. -/
def hasEmptyBody : Node → Bool
  | function _ _ _ _ (empty _) => true
  | _ => false

end Node

/-- The real is written as digits, a point and digits, and these are read as the same real. -/
def Decimal.ReadsBack (value : Float) : Prop :=
  ∃ whole fraction : List Char, (realText value).toList = whole ++ '.' :: fraction ∧ whole ≠ [] ∧
    (∀ c ∈ whole, c.isDigit) ∧ (∀ c ∈ fraction, c.isDigit) ∧ read (realText value).toList = value

namespace Node

/-- Nothing below is lost in the text. -/
structure Reprints (node : Node) : Prop where
  bodies : ∀ below ∈ node.descendants, below.hasEmptyBody = false
  reals : ∀ info value, real info value ∈ node.descendants → Decimal.ReadsBack value

theorem Reprints.child {node child : Node} (reprints : node.Reprints)
    (isChild : child ∈ node.children) : child.Reprints :=
  ⟨fun below isBelow => reprints.bodies below (mem_descendants_of_child isChild isBelow),
    fun info value isBelow => reprints.reals info value (mem_descendants_of_child isChild isBelow)⟩

end Node

/-! ## Texts of nodes and of lists of nodes -/

/-- The token is read again from its text. -/
def Token.IsSpelled (token : Token) : Prop := IsSpelling token.kind token.text

theorem Token.IsSpelled.isSpelling {token : Token} {kind : TokenKind} (spelled : token.IsSpelled)
    (isKind : token.kind = kind) : IsSpelling kind token.text :=
  isKind ▸ spelled

/-- The text of the node is read as an item, which is the node but for its tokens. -/
def Written (Item : List Token → Node → Prop) (node : Node) : Prop :=
  Spells (fun word => ∃ node', Item word node' ∧ node'.bare = node.bare) node.text.toList

/-- The text is read as a list of items, which are the nodes but for their tokens. -/
def WrittenAs (Items : List Token → List Node → Prop) (nodes : List Node) (text : String) : Prop :=
  Spells (fun word => ∃ nodes', Items word nodes' ∧ Node.bares nodes' = Node.bares nodes) text.toList

variable {Item Item' : List Token → Node → Prop} {node : Node} {nodes : List Node}

theorem Written.mono (written : Written Item node)
    (implies : ∀ {word node}, Item word node → Item' word node) : Written Item' node :=
  Spells.mono (fun _ ⟨node', isItem, same⟩ => ⟨node', implies isItem, same⟩) written

theorem writtenAs_nothing {Items : List Token → List Node → Prop} (isNothing : Items [] []) :
    WrittenAs Items [] "" := by
  refine Spells.nil.mono ?_
  rintro _ rfl
  exact ⟨[], isNothing, rfl⟩

theorem separates_itemsText (nodes : List Node) : Separates (Node.itemsText nodes).toList := by
  cases nodes with
  | nil => exact fun _ breaks => breaks
  | cons node nodes =>
    rw [Node.itemsText, String.toList_append, String.toList_append]
    exact separates_cons rfl (by decide) _

theorem writtenAs_itemsText (written : ∀ node ∈ nodes, Written Item node) :
    WrittenAs (Many Item) nodes (Node.itemsText nodes) := by
  induction nodes with
  | nil => exact writtenAs_nothing .nil
  | cons node nodes ih =>
    obtain ⟨first, others⟩ := List.forall_mem_cons.1 written
    have spells := (Spells.append first (separates_itemsText nodes) (ih others)).space (c := ' ') rfl
    rw [WrittenAs, Node.itemsText, String.toList_append, String.toList_append]
    refine spells.mono ?_
    rintro _ ⟨word, rest, rfl, ⟨node', isItem, same⟩, nodes', areItems, same'⟩
    exact ⟨node' :: nodes', .cons isItem areItems, Node.bares_congr same same'⟩

theorem writtenAs_linesText (written : ∀ node ∈ nodes, Written Item node) :
    WrittenAs (Many Item) nodes (Node.linesText nodes) := by
  induction nodes with
  | nil => exact writtenAs_nothing .nil
  | cons node nodes ih =>
    obtain ⟨first, others⟩ := List.forall_mem_cons.1 written
    have spells := Spells.append first (separates_cons rfl (by decide) _)
      ((ih others).space (c := '\n') rfl)
    rw [WrittenAs, Node.linesText, String.append_assoc, String.toList_append, String.toList_append]
    refine spells.mono ?_
    rintro _ ⟨word, rest, rfl, ⟨node', isItem, same⟩, nodes', areItems, same'⟩
    exact ⟨node' :: nodes', .cons isItem areItems, Node.bares_congr same same'⟩

theorem writtenAs_listed (written : ∀ node ∈ nodes, Written Item node) (present : nodes ≠ []) :
    WrittenAs (Listed Item) nodes (", ".intercalate (Node.texts nodes)) := by
  induction nodes with
  | nil => exact absurd rfl present
  | cons node nodes ih =>
    obtain ⟨first, others⟩ := List.forall_mem_cons.1 written
    cases nodes with
    | nil =>
      rw [WrittenAs, Node.texts, Node.texts, String.intercalate_singleton]
      refine Spells.mono ?_ first
      rintro word ⟨node', isItem, same⟩
      exact ⟨[node'], .last isItem, Node.bares_congr same rfl⟩
    | cons next nodes =>
      have spells := Spells.append first (separates_cons rfl (by decide) _)
        (((ih others (List.cons_ne_nil _ _)).space (c := ' ') rfl).mark (c := ',') rfl rfl)
      rw [WrittenAs, Node.texts, Node.texts, String.intercalate_cons_cons, String.append_assoc,
        String.toList_append, String.toList_append]
      refine spells.mono ?_
      rintro _ ⟨word, _, rfl, ⟨node', isItem, same⟩, _, rest, rfl, ⟨comma, rfl, isComma, _⟩, nodes',
        areItems, same'⟩
      exact ⟨node' :: nodes', .more isItem isComma areItems,
        Node.bares_congr same same'⟩

theorem writtenAs_series (written : ∀ node ∈ nodes, Written Item node) :
    WrittenAs (Series Item) nodes (", ".intercalate (Node.texts nodes)) := by
  by_cases present : nodes = []
  · subst present
    exact writtenAs_nothing .none
  · refine Spells.mono ?_ (writtenAs_listed written present)
    rintro word ⟨nodes', areItems, same⟩
    exact ⟨nodes', .some areItems, same⟩

/-! ## Expressions -/

/-- An integer constant is at most the greatest word, so it is written without a sign. -/
theorem integer_written {token : Token} (isInteger : token.kind = .integerConstant)
    (spelled : token.IsSpelled) :
    Written Primary (.integer (.ofToken token)
      (Int32.ofNat (Decimal.ofDigits token.text.toList))) := by
  have small : Decimal.ofDigits token.text.toList ≤ maxInteger :=
    ofDigits_le_of_isSpelling (spelled.isSpelling isInteger)
  generalize Decimal.ofDigits token.text.toList = n at small ⊢
  have value : (Int32.ofNat n).toInt = n :=
    Int32.toInt_ofNat_of_lt (Nat.lt_of_le_of_lt small (by decide))
  have digits : Decimal.ofDigits (Nat.toDigits 10 n) = n :=
    Nat.ofDigitChars_toDigits (by decide) (by decide)
  have spelling : IsSpelling .integerConstant (String.ofList (Nat.toDigits 10 n)) :=
    isSpelling_integer Nat.toDigits_ne_nil
      (fun c => Nat.isDigit_of_mem_toDigits (by decide) (by decide)) (digits.symm ▸ small)
  rw [Written, Node.text, value]
  refine (Spells.word spelling).mono ?_
  rintro _ ⟨token', rfl, isInteger', text⟩
  refine ⟨_, .integer isInteger', ?_⟩
  rw [text, String.toList_ofList, digits]
  rfl

theorem real_written {token : Token} {value : Float} (readsBack : Decimal.ReadsBack value) :
    Written Primary (.real (.ofToken token) value) := by
  obtain ⟨whole, fraction, text, present, digits, digits', same⟩ := readsBack
  have spelling : IsSpelling .doubleConstant (Decimal.realText value) := by
    rw [← String.ofList_toList (s := Decimal.realText value), text]
    exact isSpelling_real present digits digits'
  rw [Written, Node.text]
  refine (Spells.word spelling).mono ?_
  rintro _ ⟨token', rfl, isReal, text'⟩
  refine ⟨_, .real isReal, ?_⟩
  rw [text', same]
  rfl

theorem Spells.binarySymbol {phrase : List Token → Prop} {chars : List Char} (op : BinaryOp)
    (spells : Spells phrase chars) :
    Spells (Phrase.both (Phrase.one .operator op.symbol) phrase) (op.symbol.toList ++ chars) := by
  cases op <;> exact spells.mark rfl rfl

theorem Spells.unarySymbol {phrase : List Token → Prop} {chars : List Char} (op : UnaryOp)
    (spells : Spells phrase chars) :
    Spells (Phrase.both (Phrase.one .operator op.symbol) phrase) (op.symbol.toList ++ chars) := by
  cases op <;> exact spells.mark rfl rfl

namespace Grammar

theorem Primary.sum {word : List Token} (isPrimary : Primary word node) : Sum word node :=
  .single (.single (.plain isPrimary))

/-- Between primary phrases any operator may stand. -/
theorem Primary.chain {left right : List Token} {sign : Token} {op : BinaryOp} {lhs rhs : Node}
    (isLhs : Primary left lhs) (isSign : sign.kind = .operator) (symbol : sign.text = op.symbol)
    (isRhs : Primary right rhs) :
    Sum (left ++ sign :: right) (.binary (.ofToken sign) op lhs rhs) := by
  cases op with
  | add => exact .chain isLhs.sum ⟨.inl rfl, isSign, symbol⟩ (.single (.plain isRhs))
  | sub => exact .chain isLhs.sum ⟨.inr rfl, isSign, symbol⟩ (.single (.plain isRhs))
  | mul =>
    exact .single (.chain (.single (.plain isLhs)) ⟨.inl rfl, isSign, symbol⟩ (.plain isRhs))
  | div =>
    exact .single (.chain (.single (.plain isLhs)) ⟨.inr rfl, isSign, symbol⟩ (.plain isRhs))

end Grammar

theorem binary_written {sign : Token} {op : BinaryOp} {lhs rhs : Node}
    (left : Written Primary lhs) (right : Written Primary rhs) :
    Written Primary (.binary (.ofToken sign) op lhs rhs) := by
  have last := Spells.append right (separates_cons rfl (by decide) _)
    (Spells.nil.mark (c := ')') rfl rfl)
  have spells := (Spells.append left (separates_cons rfl (by decide) _)
    (((last.space (c := ' ') rfl).binarySymbol op).space (c := ' ') rfl)).mark (c := '(') rfl rfl
  rw [Written]
  simp only [Node.text, String.toList_append, List.append_assoc]
  refine spells.mono ?_
  rintro _ ⟨_, _, rfl, ⟨open', rfl, isOpen, _⟩, word, _, rfl, ⟨lhs', isLhs, sameLhs⟩,
    _, _, rfl, ⟨sign', rfl, isSign, symbol⟩, word', _, rfl, ⟨rhs', isRhs, sameRhs⟩,
    _, _, rfl, ⟨close, rfl, isClose, _⟩, rfl⟩
  have isPrimary := Primary.parentheses isOpen (isLhs.chain isSign symbol isRhs) isClose
  refine ⟨_, by simpa using isPrimary, ?_⟩
  rw [Node.bare, sameLhs, sameRhs, Node.bare]
  rfl

theorem unary_written {sign : Token} {op : UnaryOp} {operand : Node}
    (written : Written Primary operand) :
    Written Primary (.unary (.ofToken sign) op operand) := by
  have last := Spells.append written (separates_cons rfl (by decide) _)
    (Spells.nil.mark (c := ')') rfl rfl)
  have spells := (last.unarySymbol op).mark (c := '(') rfl rfl
  rw [Written]
  simp only [Node.text, String.toList_append, List.append_assoc]
  refine spells.mono ?_
  rintro _ ⟨_, _, rfl, ⟨open', rfl, isOpen, _⟩, _, _, rfl, ⟨sign', rfl, isSign, symbol⟩,
    word, _, rfl, ⟨operand', isOperand, same⟩, _, _, rfl, ⟨close, rfl, isClose, _⟩, rfl⟩
  have isPrimary := Primary.parentheses isOpen
    (.single (.single (.sign ⟨isSign, symbol⟩ (.plain isOperand)))) isClose
  refine ⟨_, by simpa using isPrimary, ?_⟩
  rw [Node.bare, same, Node.bare]
  rfl

theorem name_written {token : Token} (isName : token.kind = .identifier)
    (spelled : token.IsSpelled) : Written Primary (.identifier (.ofToken token) token.text) := by
  rw [Written, Node.text]
  refine (Spells.word (spelled.isSpelling isName)).mono ?_
  rintro _ ⟨token', rfl, isName', text⟩
  refine ⟨_, .name isName', ?_⟩
  rw [text]
  rfl

theorem call_written {name : Token} {arguments : List Node} (isName : name.kind = .identifier)
    (spelled : name.IsSpelled) (written : ∀ node ∈ arguments, Written Sum node) :
    Written Primary (.call (.ofToken name) (.identifier (.ofToken name) name.text) arguments) := by
  have last := Spells.append (writtenAs_series written) (separates_cons rfl (by decide) _)
    (Spells.nil.mark (c := ')') rfl rfl)
  have spells := Spells.append (Spells.word (spelled.isSpelling isName))
    (separates_cons rfl (by decide) _) (last.mark (c := '(') rfl rfl)
  rw [Written]
  simp only [Node.text, String.toList_append, List.append_assoc]
  refine spells.mono ?_
  rintro _ ⟨_, _, rfl, ⟨name', rfl, isName', text⟩, _, _, rfl, ⟨open', rfl, isOpen, _⟩,
    word, _, rfl, ⟨arguments', areArguments, same⟩, _, _, rfl, ⟨close, rfl, isClose, _⟩, rfl⟩
  have isPrimary := Primary.call isName' isOpen areArguments isClose
  refine ⟨_, by simpa using isPrimary, ?_⟩
  rw [Node.bare, same, text, Node.bare]
  rfl

namespace Grammar

mutual
theorem Sum.written {word : List Token} {node : Node} : Sum word node →
    (∀ token ∈ word, token.IsSpelled) → node.Reprints → Written Primary node
  | .single isProduct, spelled, reprints => isProduct.written spelled reprints
  | .chain isLhs _ isRhs, spelled, reprints => by
    rw [List.forall_mem_append, List.forall_mem_cons] at spelled
    exact binary_written (isLhs.written spelled.1 (reprints.child (by simp [Node.children])))
      (isRhs.written spelled.2.2 (reprints.child (by simp [Node.children])))
theorem Product.written {word : List Token} {node : Node} : Product word node →
    (∀ token ∈ word, token.IsSpelled) → node.Reprints → Written Primary node
  | .single isSigned, spelled, reprints => isSigned.written spelled reprints
  | .chain isLhs _ isRhs, spelled, reprints => by
    rw [List.forall_mem_append, List.forall_mem_cons] at spelled
    exact binary_written (isLhs.written spelled.1 (reprints.child (by simp [Node.children])))
      (isRhs.written spelled.2.2 (reprints.child (by simp [Node.children])))
theorem Signed.written {word : List Token} {node : Node} : Signed word node →
    (∀ token ∈ word, token.IsSpelled) → node.Reprints → Written Primary node
  | .plain isPrimary, spelled, reprints => isPrimary.written spelled reprints
  | .sign _ isOperand, spelled, reprints => by
    rw [List.forall_mem_cons] at spelled
    exact unary_written (isOperand.written spelled.2 (reprints.child (by simp [Node.children])))
theorem Primary.written {word : List Token} {node : Node} : Primary word node →
    (∀ token ∈ word, token.IsSpelled) → node.Reprints → Written Primary node
  | .parentheses _ isSum _, spelled, reprints => by
    rw [List.forall_mem_cons, List.forall_mem_append] at spelled
    exact isSum.written spelled.2.1 reprints
  | .name isName, spelled, _ => name_written isName (spelled _ List.mem_cons_self)
  | .integer isInteger, spelled, _ => integer_written isInteger (spelled _ List.mem_cons_self)
  | .real _, _, reprints => real_written (reprints.reals _ _ (Node.self_mem_descendants _))
  | .call isName _ areArguments _, spelled, reprints => by
    rw [List.forall_mem_cons, List.forall_mem_cons, List.forall_mem_append] at spelled
    refine call_written isName spelled.1 (areArguments.written spelled.2.2.1 fun _ member => ?_)
    exact reprints.child (List.mem_cons_of_mem _ member)
theorem Series.written {word : List Token} {nodes : List Node} : Series Sum word nodes →
    (∀ token ∈ word, token.IsSpelled) → (∀ node ∈ nodes, node.Reprints) →
    ∀ node ∈ nodes, Written Sum node
  | .none, _, _ => fun _ member => absurd member List.not_mem_nil
  | .some isListed, spelled, reprints => isListed.written spelled reprints
theorem Listed.written {word : List Token} {nodes : List Node} : Listed Sum word nodes →
    (∀ token ∈ word, token.IsSpelled) → (∀ node ∈ nodes, node.Reprints) →
    ∀ node ∈ nodes, Written Sum node
  | .last isSum, spelled, reprints => by
    rw [List.forall_mem_singleton] at reprints ⊢
    exact (isSum.written spelled reprints).mono Primary.sum
  | .more isSum _ isListed, spelled, reprints => by
    rw [List.forall_mem_append, List.forall_mem_cons] at spelled
    rw [List.forall_mem_cons] at reprints ⊢
    exact ⟨(isSum.written spelled.1 reprints.1).mono Primary.sum,
      isListed.written spelled.2.2 reprints.2⟩
end

end Grammar

/-! ## Statements -/

theorem isSpelling_return : IsSpelling .returnWord "return" :=
  isSpelling_of_lexeme (c := 'r') "eturn".toList rfl rfl

theorem isSpelling_if : IsSpelling .ifWord "if" :=
  isSpelling_of_lexeme (c := 'i') "f".toList rfl rfl

theorem isSpelling_else : IsSpelling .elseWord "else" :=
  isSpelling_of_lexeme (c := 'e') "lse".toList rfl rfl

theorem empty_written {token : Token} : Written Statement (.empty (.ofToken token)) := by
  rw [Written, Node.text]
  refine (Spells.nil.mark (c := ';') rfl rfl).mono ?_
  rintro _ ⟨_, _, rfl, ⟨semicolon, rfl, isSemicolon, _⟩, rfl⟩
  exact ⟨_, .empty isSemicolon, rfl⟩

theorem declaration_written {name : Token} {ty : Ty} (isName : name.kind = .identifier)
    (spelled : name.IsSpelled) :
    Written Declaration (.declaration (.ofToken name) ty name.text) := by
  have last := Spells.append (Spells.word (spelled.isSpelling isName))
    (separates_cons rfl (by decide) _) (Spells.nil.mark (c := ';') rfl rfl)
  have spells := Spells.append (Spells.word (isSpelling_type ty))
    (separates_cons rfl (by decide) _) (last.space (c := ' ') rfl)
  rw [Written]
  simp only [Node.text, String.toList_append, List.append_assoc]
  refine spells.mono ?_
  rintro _ ⟨_, _, rfl, ⟨type, rfl, isType⟩, _, _, rfl, ⟨name', rfl, isName', text⟩,
    _, _, rfl, ⟨semicolon, rfl, isSemicolon, _⟩, rfl⟩
  refine ⟨_, .intro isType isName' isSemicolon, ?_⟩
  rw [text]
  rfl

theorem returnValue_written {keyword : Token} {value : Node} (written : Written Primary value) :
    Written Statement (.returnValue (.ofToken keyword) value) := by
  have last := Spells.append written (separates_cons rfl (by decide) _)
    (Spells.nil.mark (c := ';') rfl rfl)
  have spells := Spells.append (Spells.word isSpelling_return)
    (separates_cons rfl (by decide) _) (last.space (c := ' ') rfl)
  rw [Written]
  simp only [Node.text, String.toList_append, List.append_assoc]
  refine spells.mono ?_
  rintro _ ⟨_, _, rfl, ⟨keyword', rfl, isReturn, _⟩, word, _, rfl, ⟨value', isValue, same⟩,
    _, _, rfl, ⟨semicolon, rfl, isSemicolon, _⟩, rfl⟩
  have isStatement := Statement.returnValue isReturn isValue.sum isSemicolon
  refine ⟨_, by simpa using isStatement, ?_⟩
  rw [Node.bare, same, Node.bare]
  rfl

theorem assignment_written {name : Token} {value : Node} (isName : name.kind = .identifier)
    (spelled : name.IsSpelled) (written : Written Primary value) :
    Written Statement (.assignment (.ofToken name) name.text value) := by
  have last := Spells.append written (separates_cons rfl (by decide) _)
    (Spells.nil.mark (c := ';') rfl rfl)
  have spells := Spells.append (Spells.word (spelled.isSpelling isName))
    (separates_cons rfl (by decide) _)
    (((last.space (c := ' ') rfl).mark (c := '=') rfl rfl).space (c := ' ') rfl)
  rw [Written]
  simp only [Node.text, String.toList_append, List.append_assoc]
  refine spells.mono ?_
  rintro _ ⟨_, _, rfl, ⟨name', rfl, isName', text⟩, _, _, rfl, ⟨equals, rfl, isEquals, _⟩,
    word, _, rfl, ⟨value', isValue, same⟩, _, _, rfl, ⟨semicolon, rfl, isSemicolon, _⟩, rfl⟩
  have isStatement := Statement.assignment isName' isEquals isValue.sum isSemicolon
  refine ⟨_, by simpa using isStatement, ?_⟩
  rw [Node.bare, same, text, Node.bare]
  rfl

/-- What every `if` begins with. -/
theorem Spells.condition {phrase : List Token → Prop} {chars : List Char} {condition : Node}
    (test : Written Primary condition) (spells : Spells phrase chars) :
    Spells (Phrase.both (Phrase.one .ifWord "if") (Phrase.both (Phrase.one .leftParen "(")
      (Phrase.both (fun word => ∃ node', Primary word node' ∧ node'.bare = condition.bare)
        (Phrase.both (Phrase.one .rightParen ")") phrase))))
      ("if (".toList ++ (condition.text.toList ++ (") ".toList ++ chars))) := by
  have test' := Spells.append test (separates_cons rfl (by decide) _)
    ((spells.space (c := ' ') rfl).mark (c := ')') rfl rfl)
  have whole := Spells.append (Spells.word isSpelling_if) (separates_cons rfl (by decide) _)
    ((test'.mark (c := '(') rfl rfl).space (c := ' ') rfl)
  exact whole

theorem ifThen_written {keyword : Token} {condition consequent : Node}
    (test : Written Primary condition) (written : Written Statement consequent) :
    Written Statement (.ifThen (.ofToken keyword) condition consequent) := by
  have spells := Spells.condition test written
  rw [Written]
  simp only [Node.text, String.toList_append, List.append_assoc]
  refine spells.mono ?_
  rintro _ ⟨_, _, rfl, ⟨keyword', rfl, isIf, _⟩, _, _, rfl, ⟨left, rfl, isLeft, _⟩,
    word, _, rfl, ⟨condition', isCondition, same⟩, _, _, rfl, ⟨right, rfl, isRight, _⟩,
    consequent', isConsequent, same'⟩
  have isStatement := Statement.ifThen isIf isLeft isCondition.sum isRight isConsequent
  refine ⟨_, by simpa using isStatement, ?_⟩
  rw [Node.bare, same, same', Node.bare]
  rfl

theorem ifElse_written {keyword : Token} {condition consequent alternative : Node}
    (test : Written Primary condition) (written : Written Statement consequent)
    (written' : Written Statement alternative) :
    Written Statement (.ifElse (.ofToken keyword) condition consequent alternative) := by
  have last := Spells.append (Spells.word isSpelling_else) (separates_cons rfl (by decide) _)
    (Spells.space (c := ' ') rfl written')
  have spells := Spells.condition test
    (Spells.append written (separates_cons rfl (by decide) _) (last.space (c := ' ') rfl))
  rw [Written]
  simp only [Node.text, String.toList_append, List.append_assoc]
  refine spells.mono ?_
  rintro _ ⟨_, _, rfl, ⟨keyword', rfl, isIf, _⟩, _, _, rfl, ⟨left, rfl, isLeft, _⟩,
    word, _, rfl, ⟨condition', isCondition, same⟩, _, _, rfl, ⟨right, rfl, isRight, _⟩,
    word', _, rfl, ⟨consequent', isConsequent, same'⟩, _, _, rfl, ⟨separator, rfl, isElse, _⟩,
    alternative', isAlternative, same''⟩
  have isStatement := Statement.ifElse isIf isLeft isCondition.sum isRight isConsequent isElse
    isAlternative
  refine ⟨_, by simpa using isStatement, ?_⟩
  rw [Node.bare, same, same', same'', Node.bare]
  rfl

theorem block_written {left : Token} {declarations statements : List Node}
    (areDeclarations : ∀ node ∈ declarations, Written Declaration node)
    (areStatements : ∀ node ∈ statements, Written Statement node)
    (present : declarations ≠ [] ∨ statements ≠ []) :
    Written Block (.block (.ofToken left) declarations statements) := by
  have last := Spells.append (writtenAs_itemsText areStatements) (separates_cons rfl (by decide) _)
    ((Spells.nil.mark (c := '\x7d') rfl rfl).space (c := ' ') rfl)
  have spells := (Spells.append (writtenAs_itemsText areDeclarations)
    ((separates_itemsText statements).append (separates_cons rfl (by decide) _)) last).mark
    (c := '\x7b') rfl rfl
  rw [Written]
  simp only [Node.text, String.toList_append, List.append_assoc]
  refine spells.mono ?_
  rintro _ ⟨_, _, rfl, ⟨left', rfl, isLeft, _⟩, word, _, rfl,
    ⟨declarations', areDeclarations', same⟩, word', _, rfl, ⟨statements', areStatements', same'⟩,
    _, _, rfl, ⟨right, rfl, isRight, _⟩, rfl⟩
  have present' : declarations' ≠ [] ∨ statements' ≠ [] :=
    present.imp (Node.ne_nil_of_bares same) (Node.ne_nil_of_bares same')
  have isBlock := Block.full isLeft areDeclarations' areStatements' present' isRight
  refine ⟨_, by simpa using isBlock, ?_⟩
  rw [Node.bare, same, same', Node.bare]
  rfl

namespace Grammar

theorem Many.written_declarations {word : List Token} {nodes : List Node}
    (areDeclarations : Many Declaration word nodes) (spelled : ∀ token ∈ word, token.IsSpelled) :
    ∀ node ∈ nodes, Written Declaration node := by
  induction areDeclarations with
  | nil => exact fun node member => absurd member List.not_mem_nil
  | cons isDeclaration _ ih =>
    rw [List.forall_mem_append] at spelled
    refine List.forall_mem_cons.2 ⟨?_, ih spelled.2⟩
    obtain ⟨_, isName, _⟩ := isDeclaration
    exact declaration_written isName (spelled.1 _ (by simp))

mutual
theorem Statement.written {word : List Token} {node : Node} : Statement word node →
    (∀ token ∈ word, token.IsSpelled) → node.Reprints → Written Statement node
  | .block isBlock, spelled, reprints => by
    rcases isBlock.written spelled reprints with ⟨token, rfl⟩ | written
    · exact empty_written
    · exact written.mono .block
  | .returnValue _ isValue _, spelled, reprints => by
    rw [List.forall_mem_cons, List.forall_mem_append] at spelled
    exact returnValue_written
      (isValue.written spelled.2.1 (reprints.child (by simp [Node.children])))
  | .empty _, _, _ => empty_written
  | .assignment isName _ isValue _, spelled, reprints => by
    rw [List.forall_mem_cons, List.forall_mem_cons, List.forall_mem_append] at spelled
    exact assignment_written isName spelled.1
      (isValue.written spelled.2.2.1 (reprints.child (by simp [Node.children])))
  | .ifThen _ _ isTest _ isConsequent, spelled, reprints => by
    rw [List.forall_mem_cons, List.forall_mem_cons, List.forall_mem_append,
      List.forall_mem_cons] at spelled
    exact ifThen_written
      (isTest.written spelled.2.2.1 (reprints.child (by simp [Node.children])))
      (isConsequent.written spelled.2.2.2.2 (reprints.child (by simp [Node.children])))
  | .ifElse _ _ isTest _ isConsequent _ isAlternative, spelled, reprints => by
    rw [List.forall_mem_cons, List.forall_mem_cons, List.forall_mem_append,
      List.forall_mem_cons, List.forall_mem_append, List.forall_mem_cons] at spelled
    exact ifElse_written
      (isTest.written spelled.2.2.1 (reprints.child (by simp [Node.children])))
      (isConsequent.written spelled.2.2.2.2.1 (reprints.child (by simp [Node.children])))
      (isAlternative.written spelled.2.2.2.2.2.2 (reprints.child (by simp [Node.children])))
/-- Braces with nothing inside are written as a semicolon, and all others as a block. -/
theorem Block.written {word : List Token} {node : Node} : Block word node →
    (∀ token ∈ word, token.IsSpelled) → node.Reprints →
    (∃ token, node = .empty (.ofToken token)) ∨ Written Block node
  | .empty _ _, _, _ => .inl ⟨_, rfl⟩
  | .full _ areDeclarations areStatements present _, spelled, reprints => by
    rw [List.forall_mem_cons, List.forall_mem_append, List.forall_mem_append] at spelled
    refine .inr (block_written (areDeclarations.written_declarations spelled.2.1)
      (statements_written areStatements spelled.2.2.1 fun _ member => ?_) present)
    exact reprints.child (List.mem_append_right _ member)
theorem statements_written {word : List Token} {nodes : List Node} : Many Statement word nodes →
    (∀ token ∈ word, token.IsSpelled) → (∀ node ∈ nodes, node.Reprints) →
    ∀ node ∈ nodes, Written Statement node
  | .nil, _, _ => fun _ member => absurd member List.not_mem_nil
  | .cons isStatement areStatements, spelled, reprints => by
    rw [List.forall_mem_append] at spelled
    rw [List.forall_mem_cons] at reprints ⊢
    exact ⟨isStatement.written spelled.1 reprints.1,
      statements_written areStatements spelled.2 reprints.2⟩
end

end Grammar

/-! ## Programs -/

theorem parameter_written {name : Token} {ty : Ty} (isName : name.kind = .identifier)
    (spelled : name.IsSpelled) : Written Parameter (.parameter (.ofToken name) ty name.text) := by
  have spells := Spells.append (Spells.word (isSpelling_type ty)) (separates_cons rfl (by decide) _)
    ((Spells.word (spelled.isSpelling isName)).space (c := ' ') rfl)
  rw [Written]
  simp only [Node.text, String.toList_append, List.append_assoc]
  refine spells.mono ?_
  rintro _ ⟨_, _, rfl, ⟨type, rfl, isType⟩, name', rfl, isName', text⟩
  refine ⟨_, .intro isType isName', ?_⟩
  rw [text]
  rfl

theorem function_written {name : Token} {ty : Ty} {parameters : List Node} {body : Node}
    (isName : name.kind = .identifier) (spelled : name.IsSpelled)
    (areParameters : ∀ node ∈ parameters, Written Parameter node) (isBlock : Written Block body) :
    Written Function (.function (.ofToken name) ty name.text parameters body) := by
  have last := Spells.append (writtenAs_series areParameters) (separates_cons rfl (by decide) _)
    ((Spells.space (c := ' ') rfl isBlock).mark (c := ')') rfl rfl)
  have inner := Spells.append (Spells.word (spelled.isSpelling isName))
    (separates_cons rfl (by decide) _) (last.mark (c := '(') rfl rfl)
  have spells := Spells.append (Spells.word (isSpelling_type ty)) (separates_cons rfl (by decide) _)
    (inner.space (c := ' ') rfl)
  rw [Written]
  simp only [Node.text, String.toList_append, List.append_assoc]
  refine spells.mono ?_
  rintro _ ⟨_, _, rfl, ⟨type, rfl, isType⟩, _, _, rfl, ⟨name', rfl, isName', text⟩,
    _, _, rfl, ⟨left, rfl, isLeft, _⟩, word, _, rfl, ⟨parameters', areParameters', same⟩,
    _, _, rfl, ⟨right, rfl, isRight, _⟩, body', isBlock', same'⟩
  have isFunction := Function.intro isType isName' isLeft areParameters' isRight isBlock'
  refine ⟨_, by simpa using isFunction, ?_⟩
  rw [Node.bare, same, same', text, Node.bare]
  rfl

namespace Grammar

theorem Listed.written_parameters {word : List Token} {nodes : List Node}
    (isListed : Listed Parameter word nodes) (spelled : ∀ token ∈ word, token.IsSpelled) :
    ∀ node ∈ nodes, Written Parameter node := by
  induction isListed with
  | last isParameter =>
    obtain ⟨_, isName⟩ := isParameter
    rw [List.forall_mem_singleton]
    exact parameter_written isName (spelled _ (by simp))
  | more isParameter _ _ ih =>
    rw [List.forall_mem_append, List.forall_mem_cons] at spelled
    obtain ⟨_, isName⟩ := isParameter
    exact List.forall_mem_cons.2
      ⟨parameter_written isName (spelled.1 _ (by simp)), ih spelled.2.2⟩

theorem Series.written_parameters {word : List Token} {nodes : List Node}
    (areParameters : Series Parameter word nodes) (spelled : ∀ token ∈ word, token.IsSpelled) :
    ∀ node ∈ nodes, Written Parameter node := by
  cases areParameters with
  | none => exact fun _ member => absurd member List.not_mem_nil
  | some isListed => exact isListed.written_parameters spelled

theorem Function.written {word : List Token} {node : Node} (isFunction : Function word node)
    (spelled : ∀ token ∈ word, token.IsSpelled) (reprints : node.Reprints) :
    Written Function node := by
  obtain ⟨_, isName, _, areParameters, _, isBlock⟩ := isFunction
  simp only [List.forall_mem_cons, List.forall_mem_append] at spelled
  obtain ⟨_, spelledName, _, spelledInputs, _, spelledCode⟩ := spelled
  rcases isBlock.written spelledCode (reprints.child (by simp [Node.children])) with
    ⟨token, rfl⟩ | written
  · cases reprints.bodies _ (Node.self_mem_descendants _)
  · exact function_written isName spelledName
      (areParameters.written_parameters spelledInputs) written

theorem Many.written_functions {word : List Token} {nodes : List Node}
    (areFunctions : Many Function word nodes) (spelled : ∀ token ∈ word, token.IsSpelled)
    (reprints : ∀ node ∈ nodes, node.Reprints) : ∀ node ∈ nodes, Written Function node := by
  induction areFunctions with
  | nil => exact fun _ member => absurd member List.not_mem_nil
  | cons isFunction _ ih =>
    rw [List.forall_mem_append] at spelled
    rw [List.forall_mem_cons] at reprints ⊢
    exact ⟨isFunction.written spelled.1 reprints.1, ih spelled.2 reprints.2⟩

end Grammar

theorem Lexing.Ended.isInner {lexing : Lexing} {word : List Token} {stop : Token} :
    lexing.Ended → lexing.failure = none → lexing.tokens = word ++ [stop] →
    ∀ token ∈ word, token.IsInner
  | .whole areInner _, _, split => by
    rw [← (List.append_inj' split rfl).1]
    exact areInner
  | .failed .., noFailure, _ => by cases noFailure

/-- The tokens in front of the end of input are read again from their texts. -/
theorem isSpelled_of_lex {source : String} {word : List Token} {stop : Token}
    (read : (lex source).toExcept = .ok (word ++ [stop])) :
    ∀ token ∈ word, token.IsSpelled := by
  obtain ⟨noFailure, split⟩ := Lexing.toExcept_eq_ok.1 read
  have ended : (lex source).Ended := lexFrom_ended .start source.toList
  intro token member
  refine @isSpelling_of_mem_lexFrom .start source.toList token ?_
    (ended.isInner noFailure split token member)
  rw [show (lexFrom .start source.toList).tokens = _ from split]
  exact List.mem_append_left _ member

/-- A text that is read as functions, one at least, parses as the program of these functions. -/
theorem WrittenAs.parse_eq_ok {functions : List Node} {text : String} {stop : Token}
    (written : WrittenAs (Many Function) functions text) (present : functions ≠ [])
    (nearest : Node.AllElseNearest functions) :
    ∃ tree', Node.parse text = .ok tree' ∧
      tree'.bare = (Node.program (.ofToken stop) functions).bare := by
  obtain ⟨word, stop', ⟨functions', areFunctions, same⟩, isStop, read⟩ := Spells.lex_eq written
  have nearest' : Node.AllElseNearest functions' := by
    rw [← Node.allElseNearest_bares, same, Node.allElseNearest_bares]
    exact nearest
  have derives : Derives (word ++ [stop']) (.program (.ofToken stop') functions') :=
    ⟨.intro areFunctions (Node.ne_nil_of_bares same present) isStop, nearest'⟩
  refine ⟨.program (.ofToken stop') functions', (lex text).parse_eq_ok.2 ⟨[], ?_⟩, ?_⟩
  · rw [read]
    simpa using derives.run_program []
  · rw [Node.bare, same, Node.bare]
    rfl

/-- A program is read back from its text: printing a tree and parsing the text gives the same tree
up to tokens, and hence the same text once more. -/
theorem Node.parse_text {source : String} {tree : Node} (parsed : Node.parse source = .ok tree)
    (bodies : ∀ node ∈ tree.descendants, node.hasEmptyBody = false)
    (reals : ∀ info value, .real info value ∈ tree.descendants → Decimal.ReadsBack value) :
    ∃ tree', Node.parse tree.text = .ok tree' ∧ tree'.bare = tree.bare ∧
      tree'.text = tree.text := by
  have reprints : tree.Reprints := ⟨bodies, reals⟩
  obtain ⟨tokens, read, ⟨areFunctions, present, isStop⟩, nearest⟩ := Node.derives_of_parse parsed
  have written := writtenAs_linesText
    (areFunctions.written_functions (isSpelled_of_lex read) fun _ => reprints.child)
  obtain ⟨tree', parsed', same⟩ := written.parse_eq_ok present nearest
  refine ⟨tree', parsed', same, ?_⟩
  rw [← Node.text_bare tree', same, Node.text_bare]

/-- A program with an empty statement in braces, signs, a call, a real and two `if` for one `else`. -/
def nestedSource : String :=
  "double f(int a, double b) \x7b return 2.50; \x7d int g(int x) \x7b int y; \x7b\x7d y = -x * (3 - x);
    if (y) if (x - 1) return f(y, 2.5); else ; return g(y) / 3; \x7d"

/-- What is asked of every node, for a tree in which `2.5` is the only real. -/
def Node.isReprintable (node : Node) : Bool :=
  !node.hasEmptyBody && match node with
    | .real _ value => value = Decimal.read "2.5".toList
    | _ => true

theorem readsBack_half : Decimal.ReadsBack (Decimal.read "2.5".toList) := by
  have isText : (Decimal.realText (Decimal.read "2.5".toList)).toList = ['2', '.', '5'] := by
    decide +kernel
  refine ⟨['2'], ['5'], isText, List.cons_ne_nil _ _, ?_, ?_, ?_⟩
  · exact List.forall_mem_singleton.2 rfl
  · exact List.forall_mem_singleton.2 rfl
  · rw [isText]
    rfl

theorem nested_parse_text : ∃ tree tree', Node.parse nestedSource = .ok tree ∧
    Node.parse tree.text = .ok tree' ∧ tree'.bare = tree.bare ∧ tree'.text = tree.text := by
  have checked : (match Node.parse nestedSource with
      | .ok tree => tree.descendants.all Node.isReprintable
      | .error _ => false) = true := by decide +kernel
  cases parsed : Node.parse nestedSource with
  | error error =>
    rw [parsed] at checked
    cases checked
  | ok tree =>
    rw [parsed] at checked
    have each := List.all_eq_true.1 checked
    obtain ⟨tree', parsed', same⟩ := Node.parse_text parsed
      (fun node member => by
        have reprintable := each node member
        simp only [Node.isReprintable, Bool.and_eq_true, Bool.not_eq_true'] at reprintable
        exact reprintable.1)
      (fun info value member => by
        have reprintable := each _ member
        simp only [Node.isReprintable, Bool.and_eq_true, decide_eq_true_eq] at reprintable
        exact reprintable.2 ▸ readsBack_half)
    exact ⟨tree, tree', rfl, parsed', same⟩

end MiniC
