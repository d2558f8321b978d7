import MiniC.Lexing
import MiniC.Tree.Basic

/-!
# The grammar of programs

Which sequences of tokens are programs, and which trees they stand for. Every rule is a relation
between the tokens of a phrase and its tree, in which a node keeps one token of its phrase.

    program     := function+ end of input
    function    := type identifier '(' [parameter (',' parameter)*] ')' block
    parameter   := type identifier
    block       := '{' declaration* statement* '}'
    declaration := type identifier ';'
    statement   := block | 'return' sum ';' | ';' | identifier '=' sum ';'
                 | 'if' '(' sum ')' statement ['else' statement]
    sum         := sum ('+' | '-') product | product
    product     := product ('*' | '/') signed | signed
    signed      := ('+' | '-') signed | primary
    primary     := '(' sum ')' | identifier | constant
                 | identifier '(' [sum (',' sum)*] ')'

The rule for `if` is ambiguous: it leaves open which `if` an `else` belongs to. `ElseNearest` picks
the trees in which it is the nearest one that has no `else` yet. Every program has such a tree, so
the choice concerns trees only and rules out no sequence of tokens.
-/

namespace MiniC

namespace Grammar

/-! ## Tokens -/

/-- A type word. -/
def IsType (token : Token) (ty : Ty) : Prop :=
  token.kind = .typeSpecifier ∧ token.text = ty.name

/-- A `+` or `-` between operands. -/
def IsSumSign (token : Token) (op : BinaryOp) : Prop :=
  (op = .add ∨ op = .sub) ∧ token.kind = .operator ∧ token.text = op.symbol

/-- A `*` or `/` between operands. -/
def IsProductSign (token : Token) (op : BinaryOp) : Prop :=
  (op = .mul ∨ op = .div) ∧ token.kind = .operator ∧ token.text = op.symbol

/-- A `+` or `-` in front of an operand. -/
def IsSign (token : Token) (op : UnaryOp) : Prop :=
  token.kind = .operator ∧ token.text = op.symbol

/-! ## Repetition -/

/-- Any number of items, one after the other. -/
inductive Many (Item : List Token → Node → Prop) : List Token → List Node → Prop
  | nil : Many Item [] []
  | cons {first rest : List Token} {node : Node} {nodes : List Node} :
      Item first node → Many Item rest nodes → Many Item (first ++ rest) (node :: nodes)

/-- Items with commas between them, at least one. -/
inductive Listed (Item : List Token → Node → Prop) : List Token → List Node → Prop
  | last {word : List Token} {node : Node} : Item word node → Listed Item word [node]
  | more {first rest : List Token} {comma : Token} {node : Node} {nodes : List Node} :
      Item first node → comma.kind = .comma → Listed Item rest nodes →
      Listed Item (first ++ comma :: rest) (node :: nodes)

/-- Items with commas between them, or nothing at all. -/
inductive Series (Item : List Token → Node → Prop) : List Token → List Node → Prop
  | none : Series Item [] []
  | some {word : List Token} {nodes : List Node} : Listed Item word nodes → Series Item word nodes

/-! ## Expressions -/

mutual
/-- Sums group to the left, and their operands are products. -/
inductive Sum : List Token → Node → Prop
  | single {word : List Token} {node : Node} : Product word node → Sum word node
  | chain {left right : List Token} {sign : Token} {op : BinaryOp} {lhs rhs : Node} :
      Sum left lhs → IsSumSign sign op → Product right rhs →
      Sum (left ++ sign :: right) (.binary (.ofToken sign) op lhs rhs)
/-- Products group to the left, and their operands are signed. -/
inductive Product : List Token → Node → Prop
  | single {word : List Token} {node : Node} : Signed word node → Product word node
  | chain {left right : List Token} {sign : Token} {op : BinaryOp} {lhs rhs : Node} :
      Product left lhs → IsProductSign sign op → Signed right rhs →
      Product (left ++ sign :: right) (.binary (.ofToken sign) op lhs rhs)
/-- Signs bind tightest, and the one next to the operand comes first. -/
inductive Signed : List Token → Node → Prop
  | plain {word : List Token} {node : Node} : Primary word node → Signed word node
  | sign {word : List Token} {sign : Token} {op : UnaryOp} {operand : Node} :
      IsSign sign op → Signed word operand →
      Signed (sign :: word) (.unary (.ofToken sign) op operand)
/-- Parentheses leave no node. A call and the name that it calls keep the same token. -/
inductive Primary : List Token → Node → Prop
  | parentheses {word : List Token} {left right : Token} {node : Node} :
      left.kind = .leftParen → Sum word node → right.kind = .rightParen →
      Primary (left :: (word ++ [right])) node
  | name {token : Token} : token.kind = .identifier →
      Primary [token] (.identifier (.ofToken token) token.text)
  | integer {token : Token} : token.kind = .integerConstant →
      Primary [token] (.integer (.ofToken token) (Int32.ofNat (Decimal.ofDigits token.text.toList)))
  | real {token : Token} : token.kind = .doubleConstant →
      Primary [token] (.real (.ofToken token) (Decimal.read token.text.toList))
  | call {word : List Token} {name left right : Token} {arguments : List Node} :
      name.kind = .identifier → left.kind = .leftParen → Series Sum word arguments →
      right.kind = .rightParen →
      Primary (name :: left :: (word ++ [right]))
        (.call (.ofToken name) (.identifier (.ofToken name) name.text) arguments)
end

/-! ## Statements -/

/-- A declaration keeps the token of the name. -/
inductive Declaration : List Token → Node → Prop
  | intro {type name semicolon : Token} {ty : Ty} :
      IsType type ty → name.kind = .identifier → semicolon.kind = .semicolon →
      Declaration [type, name, semicolon] (.declaration (.ofToken name) ty name.text)

mutual
/-- Statements keep their first token. -/
inductive Statement : List Token → Node → Prop
  | block {word : List Token} {node : Node} : Block word node → Statement word node
  | returnValue {word : List Token} {keyword semicolon : Token} {value : Node} :
      keyword.kind = .returnWord → Sum word value → semicolon.kind = .semicolon →
      Statement (keyword :: (word ++ [semicolon])) (.returnValue (.ofToken keyword) value)
  | empty {semicolon : Token} : semicolon.kind = .semicolon →
      Statement [semicolon] (.empty (.ofToken semicolon))
  | assignment {word : List Token} {name equals semicolon : Token} {value : Node} :
      name.kind = .identifier → equals.kind = .assignment → Sum word value →
      semicolon.kind = .semicolon →
      Statement (name :: equals :: (word ++ [semicolon]))
        (.assignment (.ofToken name) name.text value)
  | ifThen {test word : List Token} {keyword left right : Token} {condition consequent : Node} :
      keyword.kind = .ifWord → left.kind = .leftParen → Sum test condition →
      right.kind = .rightParen → Statement word consequent →
      Statement (keyword :: left :: (test ++ right :: word))
        (.ifThen (.ofToken keyword) condition consequent)
  | ifElse {test word word' : List Token} {keyword left right separator : Token}
      {condition consequent alternative : Node} :
      keyword.kind = .ifWord → left.kind = .leftParen → Sum test condition →
      right.kind = .rightParen → Statement word consequent → separator.kind = .elseWord →
      Statement word' alternative →
      Statement (keyword :: left :: (test ++ right :: (word ++ separator :: word')))
        (.ifElse (.ofToken keyword) condition consequent alternative)
/-- Nothing in braces is the empty statement. -/
inductive Block : List Token → Node → Prop
  | empty {left right : Token} : left.kind = .leftBrace → right.kind = .rightBrace →
      Block [left, right] (.empty (.ofToken left))
  | full {first second : List Token} {left right : Token} {declarations statements : List Node} :
      left.kind = .leftBrace → Many Declaration first declarations →
      Many Statement second statements → declarations ≠ [] ∨ statements ≠ [] →
      right.kind = .rightBrace →
      Block (left :: (first ++ (second ++ [right])))
        (.block (.ofToken left) declarations statements)
end

/-! ## Programs -/

/-- A parameter keeps the token of the name. -/
inductive Parameter : List Token → Node → Prop
  | intro {type name : Token} {ty : Ty} : IsType type ty → name.kind = .identifier →
      Parameter [type, name] (.parameter (.ofToken name) ty name.text)

/-- A function keeps the token of its name. -/
inductive Function : List Token → Node → Prop
  | intro {inputs code : List Token} {type name left right : Token} {ty : Ty}
      {parameters : List Node} {body : Node} :
      IsType type ty → name.kind = .identifier → left.kind = .leftParen →
      Series Parameter inputs parameters → right.kind = .rightParen → Block code body →
      Function (type :: name :: left :: (inputs ++ right :: code))
        (.function (.ofToken name) ty name.text parameters body)

/-- A program is one function at least, and keeps the token of the end of input. -/
inductive Program : List Token → Node → Prop
  | intro {word : List Token} {stop : Token} {functions : List Node} :
      Many Function word functions → functions ≠ [] → stop.kind = .endOfInput →
      Program (word ++ [stop]) (.program (.ofToken stop) functions)

end Grammar

namespace Node

/-! ## Which `if` an `else` belongs to -/

/-- The last statement inside is an `if` without `else`. An `else` that came next would be its. -/
def endsOpen : Node → Bool
  | ifThen .. => true
  | ifElse _ _ _ alternative => alternative.endsOpen
  | _ => false

mutual
/-- Every `else` belongs to the nearest `if` that has no other: what stands between the two does not
end with an `if` without `else`. -/
def ElseNearest : Node → Prop
  | program _ functions => AllElseNearest functions
  | function _ _ _ _ body => body.ElseNearest
  | block _ _ statements => AllElseNearest statements
  | ifThen _ _ consequent => consequent.ElseNearest
  | ifElse _ _ consequent alternative =>
      consequent.endsOpen = false ∧ consequent.ElseNearest ∧ alternative.ElseNearest
  | _ => True
def AllElseNearest : List Node → Prop
  | [] => True
  | node :: nodes => node.ElseNearest ∧ AllElseNearest nodes
end

end Node

namespace Grammar

/-- The tree that a sequence of tokens stands for. -/
structure Derives (tokens : List Token) (tree : Node) : Prop where
  program : Program tokens tree
  nearest : tree.ElseNearest

/-- A sequence of tokens that is a program. -/
def Grammatical (tokens : List Token) : Prop :=
  ∃ tree, Program tokens tree

/-! ## Every phrase has a tree in which each `else` belongs to the nearest `if` -/

/-- An `else` behind a statement that ends with an `if` without one can be given to that `if`. -/
theorem Statement.exists_else {word word' : List Token} {node alternative : Node}
    (separator : Token) (isElse : separator.kind = .elseWord)
    (isAlternative : Statement word' alternative) (nearest' : alternative.ElseNearest) :
    Statement word node → node.ElseNearest → node.endsOpen = true →
    ∃ whole, Statement (word ++ separator :: word') whole ∧ whole.ElseNearest
  | @Statement.ifThen test inner keyword left right _ consequent isIf isLeft isTest isRight
      isConsequent, nearest, _ => by
    have split : keyword :: left :: (test ++ right :: inner) ++ separator :: word' =
        keyword :: left :: (test ++ right :: (inner ++ separator :: word')) := by simp
    rw [split]
    cases opened : consequent.endsOpen with
    | false =>
      exact ⟨_, .ifElse isIf isLeft isTest isRight isConsequent isElse isAlternative,
        opened, nearest, nearest'⟩
    | true =>
      obtain ⟨whole, isWhole, wholeNearest⟩ :=
        exists_else separator isElse isAlternative nearest' isConsequent nearest opened
      exact ⟨_, .ifThen isIf isLeft isTest isRight isWhole, wholeNearest⟩
  | @Statement.ifElse test inner inner' keyword left right separator' _ _ _ isIf isLeft isTest
      isRight isConsequent isElse' isLast, nearest, opened => by
    have split : keyword :: left :: (test ++ right :: (inner ++ separator' :: inner')) ++
          separator :: word' =
        keyword :: left ::
          (test ++ right :: (inner ++ separator' :: (inner' ++ separator :: word'))) := by simp
    obtain ⟨closed, consequentNearest, lastNearest⟩ := nearest
    obtain ⟨whole, isWhole, wholeNearest⟩ :=
      exists_else separator isElse isAlternative nearest' isLast lastNearest opened
    rw [split]
    exact ⟨_, .ifElse isIf isLeft isTest isRight isConsequent isElse' isWhole,
      closed, consequentNearest, wholeNearest⟩
  | .block isBlock, _, opened => by cases isBlock <;> cases opened
  | .returnValue .., _, opened | .empty .., _, opened | .assignment .., _, opened => by
    cases opened

mutual
theorem Statement.exists_nearest {word : List Token} {node : Node} :
    Statement word node → ∃ node', Statement word node' ∧ node'.ElseNearest
  | .block isBlock => by
    obtain ⟨node', isBlock', nearest⟩ := isBlock.exists_nearest
    exact ⟨node', .block isBlock', nearest⟩
  | .returnValue isReturn isValue isSemicolon =>
    ⟨_, .returnValue isReturn isValue isSemicolon, trivial⟩
  | .empty isSemicolon => ⟨_, .empty isSemicolon, trivial⟩
  | .assignment isName isEquals isValue isSemicolon =>
    ⟨_, .assignment isName isEquals isValue isSemicolon, trivial⟩
  | .ifThen isIf isLeft isTest isRight isConsequent => by
    obtain ⟨consequent', isConsequent', nearest⟩ := isConsequent.exists_nearest
    exact ⟨_, .ifThen isIf isLeft isTest isRight isConsequent', nearest⟩
  | @Statement.ifElse _ _ _ _ _ _ separator _ _ _ isIf isLeft isTest isRight isConsequent isElse
      isAlternative => by
    obtain ⟨consequent', isConsequent', nearest⟩ := isConsequent.exists_nearest
    obtain ⟨alternative', isAlternative', nearest'⟩ := isAlternative.exists_nearest
    cases opened : consequent'.endsOpen with
    | false =>
      exact ⟨_, .ifElse isIf isLeft isTest isRight isConsequent' isElse isAlternative',
        opened, nearest, nearest'⟩
    | true =>
      -- The `else` moves into the statement before it, and this `if` has none.
      obtain ⟨whole, isWhole, wholeNearest⟩ :=
        Statement.exists_else separator isElse isAlternative' nearest' isConsequent' nearest opened
      exact ⟨_, .ifThen isIf isLeft isTest isRight isWhole, wholeNearest⟩
theorem Block.exists_nearest {word : List Token} {node : Node} :
    Block word node → ∃ node', Block word node' ∧ node'.ElseNearest
  | .empty isLeft isRight => ⟨_, .empty isLeft isRight, trivial⟩
  | .full isLeft areDeclarations areStatements present isRight => by
    obtain ⟨statements', areStatements', nearest, sameLength⟩ :=
      exists_allNearest areStatements
    refine ⟨_, .full isLeft areDeclarations areStatements' ?_ isRight, nearest⟩
    rw [← List.length_pos_iff, ← List.length_pos_iff] at present ⊢
    rwa [sameLength]
theorem exists_allNearest {word : List Token} {nodes : List Node} :
    Many Statement word nodes →
    ∃ nodes', Many Statement word nodes' ∧ Node.AllElseNearest nodes' ∧
      nodes'.length = nodes.length
  | .nil => ⟨[], .nil, trivial, rfl⟩
  | .cons isStatement areStatements => by
    obtain ⟨node', isStatement', nearest⟩ := isStatement.exists_nearest
    obtain ⟨nodes', areStatements', nearest', sameLength⟩ := exists_allNearest areStatements
    exact ⟨node' :: nodes', .cons isStatement' areStatements', ⟨nearest, nearest'⟩,
      congrArg Nat.succ sameLength⟩
end

theorem Function.exists_nearest {word : List Token} {node : Node}
    (isFunction : Function word node) : ∃ node', Function word node' ∧ node'.ElseNearest := by
  obtain ⟨isType, isName, isLeft, areParameters, isRight, isBlock⟩ := isFunction
  obtain ⟨body', isBlock', nearest⟩ := isBlock.exists_nearest
  exact ⟨_, .intro isType isName isLeft areParameters isRight isBlock', nearest⟩

theorem exists_allNearest_functions {word : List Token} {nodes : List Node}
    (areFunctions : Many Function word nodes) :
    ∃ nodes', Many Function word nodes' ∧ Node.AllElseNearest nodes' ∧
      nodes'.length = nodes.length := by
  induction areFunctions with
  | nil => exact ⟨[], .nil, trivial, rfl⟩
  | cons isFunction _ ih =>
    obtain ⟨node', isFunction', nearest⟩ := isFunction.exists_nearest
    obtain ⟨nodes', areFunctions', nearest', sameLength⟩ := ih
    exact ⟨node' :: nodes', .cons isFunction' areFunctions', ⟨nearest, nearest'⟩,
      congrArg Nat.succ sameLength⟩

/-- A sequence of tokens that is a program stands for some tree. -/
theorem Grammatical.exists_derives {tokens : List Token} (grammatical : Grammatical tokens) :
    ∃ tree, Derives tokens tree := by
  obtain ⟨_, ⟨areFunctions, present, isStop⟩⟩ := grammatical
  obtain ⟨functions', areFunctions', nearest, sameLength⟩ :=
    exists_allNearest_functions areFunctions
  refine ⟨_, .intro areFunctions' ?_ isStop, nearest⟩
  rw [← List.length_pos_iff] at present ⊢
  rwa [sameLength]

end Grammar
end MiniC
