import MiniC.Tree.Basic

/-!
# Comparison of trees

Reals compare as numbers, so a tree with a NaN differs from itself and the two zeros are the same.
-/

namespace MiniC.Node

mutual
/-- Whether two trees agree in all kinds, tokens, scopes, names and constants. -/
def same : Node → Node → Bool
  | empty i, empty j => i == j
  | program i fs, program j gs => i == j && sameAll fs gs
  | function i ty name ps body, function j ty' name' qs body' =>
      i == j && ty == ty' && name == name' && sameAll ps qs && body.same body'
  | parameter i ty name, parameter j ty' name' => i == j && ty == ty' && name == name'
  | call i callee xs, call j callee' ys => i == j && callee.same callee' && sameAll xs ys
  | returnValue i value, returnValue j value' => i == j && value.same value'
  | block i ds ss, block j ds' ss' => i == j && sameAll ds ds' && sameAll ss ss'
  | declaration i ty name, declaration j ty' name' => i == j && ty == ty' && name == name'
  | assignment i target value, assignment j target' value' =>
      i == j && target == target' && value.same value'
  | ifThen i c s, ifThen j c' s' => i == j && c.same c' && s.same s'
  | ifElse i c s a, ifElse j c' s' a' => i == j && c.same c' && s.same s' && a.same a'
  | binary i op l r, binary j op' l' r' => i == j && op == op' && l.same l' && r.same r'
  | unary i op x, unary j op' x' => i == j && op == op' && x.same x'
  | identifier i name, identifier j name' => i == j && name == name'
  | integer i value, integer j value' => i == j && value == value'
  | real i value, real j value' => i == j && value == value'
  | _, _ => false
def sameAll : List Node → List Node → Bool
  | [], [] => true
  | x :: xs, y :: ys => x.same y && sameAll xs ys
  | _, _ => false
end

end MiniC.Node
