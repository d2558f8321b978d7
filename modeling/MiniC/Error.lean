import MiniC.Decimal.Real
import MiniC.Quad.Basic
import MiniC.Tree.Basic

/-!
# Errors

What can go wrong, and how it is worded.

An `Error` names a cause. Mistakes in the source carry the place they stand at; limits of the
compiler, faults of a run and broken assumptions between passes do not. A `Report` is the worded
form, which can show the line of the source with a caret below the place.
-/

namespace MiniC

inductive LexicalCause where
  | unexpectedCharacter (c : Char)
  | integerTooLarge (digits : String)
deriving DecidableEq, Repr

inductive SyntacticCause where
  | expected (kind : TokenKind) (found : Token)
  | expectedExpression (found : Token)
  | unknownType (word : String)
deriving DecidableEq, Repr

inductive SemanticCause where
  | redefinition (name : String)
  | missingMain
  | undeclared (name : String)
  | calledBeforeDefinition (name : String)
  | notAVariable (name : String)
  | notAFunction (name : String)
  | returnMismatch (actual expected : Ty)
  | assignmentMismatch (target : String) (actual expected : Ty)
  | operandMismatch (op : BinaryOp) (left right : Ty)
  | argumentCount (name : String) (expected actual : Nat)
  /-- `position` counts from one. -/
  | argumentMismatch (name : String) (position : Nat) (actual : Ty) (expected : Option Ty)
deriving DecidableEq, Repr

/-- Only integers are lowered; these are the ways in which a real can be met. -/
inductive UnsupportedCause where
  | returnType (function : String) (ty : Ty)
  | parameterType (parameter : String) (ty : Ty)
  | variableType (name : String) (ty : Ty)
  | realConstant (value : Float) (pos : Position)
deriving DecidableEq

inductive EvaluationCause where
  | depthExceeded (limit : Nat) (function : String)
  | noCode (function : String)
  | unknownFunction (function : String)
  | argumentCount (function : String) (expected actual : Nat)
  | divisionFault (lhs rhs : Int32) (function : String)
  | missingArguments (callee : String) (expected found : Nat)
  | undefinedLabel (label : Label)
  | unknownName (name : String)
  | notStorage (name : String) (kind : SymbolKind)
  | noSlot (name : String)
  /-- An activation took more steps than it was granted. -/
  | stepsExceeded (limit : Nat) (function : String)
deriving DecidableEq, Repr

inductive InternalCause where
  /-- A sequence of tokens that just stops. -/
  | noEndOfInput
  | alreadyDefined (name : String) (scope : ScopeId)
  | notAFunction (name : String)
  | noSymbol (id : SymbolId)
  | declaredOutsideFunction (token : Token)
  | noScope (kind : NodeKind) (pos : Position)
  | notAProgram
  | functionNotGlobal (name : String)
  | returnOutsideFunction
  | noType (kind : NodeKind)
  | calleeNotIdentifier
  | expectedProgram (found : NodeKind)
  | expectedFunction (found : NodeKind)
  | notAStatement (kind : NodeKind) (pos : Position)
  | notAnExpression (kind : NodeKind) (pos : Position)
  | calleeWithoutName (pos : Position)
  | malformedQuad (quad : Quad) (wanted : OperandSort) (field : Field)
  | noFunctionSymbol (name : String)
  | notInScope (name : String)
  | noStackSlot (kind : SymbolKind) (name : String)
  | callOfNonFunction (callee : String)
deriving DecidableEq, Repr

inductive Error where
  | lexical (pos : Position) (cause : LexicalCause)
  | syntactic (pos : Position) (cause : SyntacticCause)
  | semantic (pos : Position) (cause : SemanticCause)
  | unsupported (cause : UnsupportedCause)
  | evaluation (cause : EvaluationCause)
  | internal (cause : InternalCause)
deriving DecidableEq

/-- `'name'`, as messages quote. -/
def quoted (text : String) : String := "'" ++ text ++ "'"

def LexicalCause.message : LexicalCause → String
  | unexpectedCharacter c => "unexpected character " ++ quoted c.toString
  | integerTooLarge digits =>
      "integer constant " ++ quoted digits ++ " does not fit in type 'int'"

def SyntacticCause.message : SyntacticCause → String
  | expected kind found => "expected " ++ kind.description ++ ", but got " ++ found.description
  | expectedExpression found => "expected an expression, but got " ++ found.description
  | unknownType word => "unknown type specifier " ++ quoted word

def SemanticCause.message : SemanticCause → String
  | redefinition name => "redefinition of " ++ quoted name
  | missingMain => "missing main: no 'main' function is defined"
  | undeclared name => "undeclared identifier " ++ quoted name
  | calledBeforeDefinition name =>
      "function " ++ quoted name ++ " is called before its definition"
  | notAVariable name => quoted name ++ " is not a variable"
  | notAFunction name => quoted name ++ " is not a function"
  | returnMismatch actual expected =>
      "type mismatch: returning " ++ quoted actual.name
        ++ " from a function declared to return " ++ quoted expected.name
  | assignmentMismatch target actual expected =>
      "type mismatch: cannot assign " ++ quoted actual.name ++ " to " ++ quoted target
        ++ " of type " ++ quoted expected.name
  | operandMismatch op left right =>
      "incompatible types " ++ quoted left.name ++ " and " ++ quoted right.name
        ++ " for operator " ++ quoted op.symbol
  | argumentCount name expected actual =>
      "function " ++ quoted name ++ " expects " ++ toString expected ++ " argument(s), but "
        ++ toString actual ++ " were given"
  | argumentMismatch name position actual expected =>
      "type mismatch: argument " ++ toString position ++ " of " ++ quoted name ++ " is "
        ++ quoted actual.name ++ ", expected " ++ quoted ((expected.map (·.name)).getD "?")

def UnsupportedCause.message (cause : UnsupportedCause) : String :=
  "intermediate code generation supports only 'int' values; " ++
    match cause with
    | returnType function ty =>
        "function " ++ quoted function ++ " returns type " ++ quoted ty.name
    | parameterType parameter ty =>
        "parameter " ++ quoted parameter ++ " has type " ++ quoted ty.name
    | variableType name ty => "variable " ++ quoted name ++ " has type " ++ quoted ty.name
    | realConstant value pos =>
        "found real constant " ++ Decimal.realText value ++ " at " ++ pos.text

def EvaluationCause.message : EvaluationCause → String
  | depthExceeded limit function =>
      "call depth exceeded " ++ toString limit ++ " while calling " ++ quoted function
  | noCode function => "no code for function " ++ quoted function
  | unknownFunction function => "unknown function " ++ quoted function
  | argumentCount function expected actual =>
      quoted function ++ " takes " ++ toString expected ++ " argument(s), but "
        ++ toString actual ++ " were passed"
  | divisionFault lhs rhs function =>
      "division fault: " ++ toString lhs.toInt ++ " / " ++ toString rhs.toInt ++ " in "
        ++ quoted function
  | missingArguments callee expected found =>
      "call to " ++ quoted callee ++ " expects " ++ toString expected
        ++ " pushed argument(s), found " ++ toString found
  | undefinedLabel label => "jump to undefined label " ++ quoted label.text
  | unknownName name => "unknown name " ++ quoted name
  | notStorage name kind => quoted name ++ " is a " ++ kind.name ++ ", not a storage location"
  | noSlot name => quoted name ++ " has no slot in the current frame"
  | stepsExceeded limit function =>
      "more than " ++ toString limit ++ " steps in " ++ quoted function

def InternalCause.message : InternalCause → String
  | noEndOfInput => "the tokens have no end of input"
  | alreadyDefined name scope =>
      quoted name ++ " is already defined in scope " ++ toString scope
  | notAFunction name => quoted name ++ " is not a function"
  | noSymbol id => "there is no symbol " ++ toString id
  | declaredOutsideFunction token =>
      quoted token.text ++ " at " ++ token.pos.text ++ " is declared outside of a function"
  | noScope kind pos => kind.name ++ " at " ++ pos.text ++ " has no scope attached"
  | notAProgram => "declaration pass must start at a translation unit"
  | functionNotGlobal name => "function " ++ quoted name ++ " is not in the global scope"
  | returnOutsideFunction => "return statement outside of a function"
  | noType kind => kind.name ++ " is not an expression"
  | calleeNotIdentifier => "callee must be an identifier"
  | expectedProgram found => "expected a translation unit, found " ++ found.name
  | expectedFunction found => "expected a function definition, found " ++ found.name
  | notAStatement kind pos => kind.name ++ " at " ++ pos.text ++ " is not a statement"
  | notAnExpression kind pos => kind.name ++ " at " ++ pos.text ++ " is not an expression"
  | calleeWithoutName pos => "call at " ++ pos.text ++ " has no callee name"
  | malformedQuad quad wanted field =>
      "malformed quadruple " ++ quoted (Text.trimRight quad.text) ++ ": expected " ++ wanted.text
        ++ " in " ++ field.text
  | noFunctionSymbol name => "no symbol for function " ++ quoted name
  | notInScope name => quoted name ++ " is not in scope"
  | noStackSlot kind name => kind.name ++ " " ++ quoted name ++ " has no stack slot"
  | callOfNonFunction callee => "call to " ++ quoted callee ++ ", which is not a function"

/-- The sort of an error, which opens its text. -/
inductive Category where
  | lexical
  | syntactic
  | semantic
  | unsupported
  | evaluation
  | internal
deriving DecidableEq, Repr, Inhabited

def Category.label : Category → String
  | lexical => "lexical error"
  | syntactic => "syntax error"
  | semantic => "semantic error"
  | unsupported => "not supported"
  | evaluation => "evaluation failed"
  | internal => "internal compiler error"

/-- A worded error. Only mistakes in the source have a place in it. -/
structure Report where
  category : Category
  position : Option Position
  message : String
deriving DecidableEq, Repr, Inhabited

namespace Report

/-- Whether the report is about the source and not about the compiler. -/
def isDiagnostic (report : Report) : Bool :=
  report.position.isSome

/-- One line: the place, if any, then the category and the message. -/
def text (report : Report) : String :=
  match report.position with
  | some pos => pos.text ++ ": " ++ report.category.label ++ ": " ++ report.message
  | none => report.category.label ++ ": " ++ report.message

/-- The text and, if the place lies on a line of `source`, that line and a caret below the
place. -/
def render (report : Report) (source : String) : String :=
  match report.position with
  | none => report.text
  | some pos =>
      match (Text.lines source)[pos.line - 1]? with
      | none => report.text
      | some line =>
          report.text ++ "\n  " ++ line ++ "\n  " ++ Text.spaces (pos.column - 1) ++ "^ "
            ++ report.message

end Report

namespace Error

def category : Error → Category
  | lexical .. => .lexical
  | syntactic .. => .syntactic
  | semantic .. => .semantic
  | unsupported _ => .unsupported
  | evaluation _ => .evaluation
  | internal _ => .internal

def position : Error → Option Position
  | lexical pos _ => some pos
  | syntactic pos _ => some pos
  | semantic pos _ => some pos
  | _ => none

def message : Error → String
  | lexical _ cause => cause.message
  | syntactic _ cause => cause.message
  | semantic _ cause => cause.message
  | unsupported cause => cause.message
  | evaluation cause => cause.message
  | internal cause => cause.message

def report (error : Error) : Report :=
  ⟨error.category, error.position, error.message⟩

end Error
end MiniC
