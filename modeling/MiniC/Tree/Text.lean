import MiniC.Decimal.Real
import MiniC.Tree.Basic

/-!
# The text of a syntax tree

A tree is written as source that shows by parentheses how operators were grouped.
-/

namespace MiniC.Node

mutual
def text : Node → String
  | empty _ => ";"
  | program _ functions => linesText functions
  | function _ returnType name parameters body =>
      returnType.name ++ " " ++ name ++ "(" ++ ", ".intercalate (texts parameters) ++ ") "
        ++ body.text
  | parameter _ ty name => ty.name ++ " " ++ name
  | call _ callee arguments => callee.text ++ "(" ++ ", ".intercalate (texts arguments) ++ ")"
  | returnValue _ value => "return " ++ value.text ++ ";"
  | block _ declarations statements =>
      "\x7b" ++ itemsText declarations ++ itemsText statements ++ " \x7d"
  | declaration _ ty name => ty.name ++ " " ++ name ++ ";"
  | assignment _ target value => target ++ " = " ++ value.text ++ ";"
  | ifThen _ condition consequent => "if (" ++ condition.text ++ ") " ++ consequent.text
  | ifElse _ condition consequent alternative =>
      "if (" ++ condition.text ++ ") " ++ consequent.text ++ " else " ++ alternative.text
  | binary _ op lhs rhs => "(" ++ lhs.text ++ " " ++ op.symbol ++ " " ++ rhs.text ++ ")"
  | unary _ op operand => "(" ++ op.symbol ++ operand.text ++ ")"
  | identifier _ name => name
  | integer _ value => toString value.toInt
  | real _ value => Decimal.realText value
/-- The text of each node. -/
def texts : List Node → List String
  | [] => []
  | node :: nodes => node.text :: texts nodes
/-- Each node on a line of its own. -/
def linesText : List Node → String
  | [] => ""
  | node :: nodes => node.text ++ "\n" ++ linesText nodes
/-- Each node behind a space. -/
def itemsText : List Node → String
  | [] => ""
  | node :: nodes => " " ++ node.text ++ itemsText nodes
end

end MiniC.Node
