import MiniC.Proofs.Resolution
import MiniC.Tree.Shape

/-!
# Walks node by node

A walk has its own code for every kind of node, but it does the same everywhere: it enters a node,
goes through the children from left to right, and attaches the scope that it had inside. The kinds
differ in what entering does (`Entering`), and there are only five things that it can do. A walk
that succeeds is a forest of nodes that are entered (`Resolved`), and what holds of all walks can be
shown by induction on that.

Nothing but scopes is changed by a walk, and a tree that has the scopes of the walk already is left
as it is.
-/

namespace MiniC.Node

/-- Functions and blocks open a scope. -/
def opens : Node → Bool
  | function .. | block .. => true
  | _ => false

/-- Functions, parameters and declarations define a symbol. -/
def declares : Node → Bool
  | function .. | parameter .. | declaration .. => true
  | _ => false

/-! ## Trees without scopes -/

mutual
/-- The tree as it was before any scopes were attached. -/
def unscoped : Node → Node
  | empty info => empty (.ofToken info.token)
  | program info functions => program (.ofToken info.token) (unscopedAll functions)
  | function info returnType name parameters body =>
      function (.ofToken info.token) returnType name (unscopedAll parameters) body.unscoped
  | parameter info ty name => parameter (.ofToken info.token) ty name
  | call info callee arguments =>
      call (.ofToken info.token) callee.unscoped (unscopedAll arguments)
  | returnValue info value => returnValue (.ofToken info.token) value.unscoped
  | block info declarations statements =>
      block (.ofToken info.token) (unscopedAll declarations) (unscopedAll statements)
  | declaration info ty name => declaration (.ofToken info.token) ty name
  | assignment info target value => assignment (.ofToken info.token) target value.unscoped
  | ifThen info condition consequent =>
      ifThen (.ofToken info.token) condition.unscoped consequent.unscoped
  | ifElse info condition consequent alternative =>
      ifElse (.ofToken info.token) condition.unscoped consequent.unscoped alternative.unscoped
  | binary info op lhs rhs => binary (.ofToken info.token) op lhs.unscoped rhs.unscoped
  | unary info op operand => unary (.ofToken info.token) op operand.unscoped
  | identifier info name => identifier (.ofToken info.token) name
  | integer info value => integer (.ofToken info.token) value
  | real info value => real (.ofToken info.token) value
def unscopedAll : List Node → List Node
  | [] => []
  | node :: nodes => node.unscoped :: unscopedAll nodes
end

open Resolution

mutual
/-- A walk changes nothing but scopes, however far it comes. -/
theorem unscoped_walk (ctx : Context) (table : Table) : (node : Node) →
    (node.walk ctx table).1.unscoped = node.unscoped
  | empty _ | parameter .. | declaration .. | identifier .. | integer .. | real .. => rfl
  | program _ functions => by
    simp only [walk, Walked.map, unscoped, unscopedAll_walkAll ctx table functions]
    rfl
  | function info returnType name parameters body => by
    rw [walk]
    cases enterFunction ctx info.token name returnType table with
    | error error => rfl
    | ok entered =>
      obtain ⟨inside, table⟩ := entered
      simp only [Walked.map, unscoped]
      rw [Walked.andThen_fst, unscopedAll_walkAll inside table parameters]
      rw [Walked.andThen_snd unscoped _ _ _ fun table => unscoped_walk inside table body]
      rfl
  | call _ callee arguments => by
    simp only [walk, Walked.map, unscoped]
    rw [Walked.andThen_fst, unscoped_walk ctx table callee]
    rw [Walked.andThen_snd unscopedAll _ _ _ fun table => unscopedAll_walkAll ctx table arguments]
    rfl
  | block _ declarations statements => by
    simp only [walk, Walked.map, unscoped]
    rw [Walked.andThen_fst, unscopedAll_walkAll _ _ declarations]
    rw [Walked.andThen_snd unscopedAll _ _ _ fun table => unscopedAll_walkAll _ table statements]
    rfl
  | returnValue _ value | assignment _ _ value | unary _ _ value => by
    simp only [walk, Walked.map, unscoped, unscoped_walk ctx table value]
    rfl
  | ifThen _ first second | binary _ _ first second => by
    simp only [walk, Walked.map, unscoped]
    rw [Walked.andThen_fst, unscoped_walk ctx table first]
    rw [Walked.andThen_snd unscoped _ _ _ fun table => unscoped_walk ctx table second]
    rfl
  | ifElse info condition consequent alternative => by
    rw [walk]
    let first := (condition.walk ctx table).andThen (walk ctx · consequent) consequent
    let both := first.andThen (walk ctx · alternative) alternative
    change ifElse (.ofToken info.token) both.1.1.1.unscoped both.1.1.2.unscoped
      both.1.2.unscoped = _
    have parts : both.1.1 = first.1 := Walked.andThen_fst ..
    have isCondition : first.1.1 = (condition.walk ctx table).1 := Walked.andThen_fst ..
    have isConsequent : first.1.2.unscoped = consequent.unscoped :=
      Walked.andThen_snd _ _ _ _ fun table => unscoped_walk ctx table consequent
    have isAlternative : both.1.2.unscoped = alternative.unscoped :=
      Walked.andThen_snd _ _ _ _ fun table => unscoped_walk ctx table alternative
    rw [parts, isCondition, isConsequent, isAlternative, unscoped_walk ctx table condition,
      unscoped]
theorem unscopedAll_walkAll (ctx : Context) (table : Table) : (nodes : List Node) →
    unscopedAll (walkAll ctx table nodes).1 = unscopedAll nodes
  | [] => rfl
  | node :: nodes => by
    simp only [walkAll, Walked.map, unscopedAll]
    rw [Walked.andThen_fst, unscoped_walk ctx table node]
    rw [Walked.andThen_snd unscopedAll _ _ _ fun table => unscopedAll_walkAll ctx table nodes]
end

/-! ## Entering nodes -/

/-- How a walk enters a node: where it stands inside, and the table that it has there. -/
inductive Entering (ctx : Context) (table : Table) : Node → Context → Table → Prop
  | function {info : Info} {returnType : Ty} {name : String} {parameters : List Node} {body : Node}
      {inside : Context} {start : Table}
      (enters : enterFunction ctx info.token name returnType table = .ok (inside, start)) :
      Entering ctx table (.function info returnType name parameters body) inside start
  | parameter {info : Info} {ty : Ty} {name : String} {start : Table}
      (declares : declareParameter ctx info.token name ty table = .ok start) :
      Entering ctx table (.parameter info ty name) ctx start
  | declaration {info : Info} {ty : Ty} {name : String} {start : Table}
      (declares : declareVariable ctx info.token name ty table = .ok start) :
      Entering ctx table (.declaration info ty name) ctx start
  | block {info : Info} {declarations statements : List Node} :
      Entering ctx table (.block info declarations statements)
        { ctx with scope := table.scopes.size } (table.openScope ctx.scope)
  | other {node : Node} (opensNone : node.opens = false) (declaresNone : node.declares = false) :
      Entering ctx table node ctx table

/-- Trees with the scopes that a walk attaches, and the tables in front of the walk and behind. -/
inductive Resolved : Context → Table → List Node → Table → Prop
  | nothing (ctx : Context) (table : Table) : Resolved ctx table [] table
  | next {ctx inside : Context} {table start middle after : Table} {tree : Node} {trees : List Node}
      (entering : Entering ctx table tree inside start) (attached : tree.scope = some inside.scope)
      (below : Resolved inside start tree.children middle)
      (later : Resolved ctx middle trees after) :
      Resolved ctx table (tree :: trees) after

section Walks

variable {ctx : Context} {table middle after : Table}

theorem walkAll_cons_eq_ok {node tree : Node} {nodes trees : List Node} :
    walkAll ctx table (node :: nodes) = (tree :: trees, .ok after) ↔
      ∃ middle, node.walk ctx table = (tree, .ok middle) ∧
        walkAll ctx middle nodes = (trees, .ok after) := by
  rw [walkAll, Walked.map_eq_ok]
  constructor
  · rintro ⟨⟨first, rest⟩, both, same⟩
    cases same
    exact Walked.andThen_eq_ok.1 both
  · rintro both
    exact ⟨(tree, trees), Walked.andThen_eq_ok.2 both, rfl⟩

theorem walkAll_singleton_eq_ok {node tree : Node} :
    walkAll ctx table [node] = ([tree], .ok after) ↔ node.walk ctx table = (tree, .ok after) := by
  rw [walkAll_cons_eq_ok]
  constructor
  · rintro ⟨middle, first, rest⟩
    cases rest
    exact first
  · exact fun first => ⟨after, first, rfl⟩

theorem walkAll_append {nodes trees more moreTrees : List Node}
    (first : walkAll ctx table nodes = (trees, .ok middle))
    (second : walkAll ctx middle more = (moreTrees, .ok after)) :
    walkAll ctx table (nodes ++ more) = (trees ++ moreTrees, .ok after) := by
  induction nodes generalizing table trees with
  | nil =>
    cases first
    exact second
  | cons node nodes ih =>
    rw [walkAll] at first
    obtain ⟨⟨tree, rest⟩, both, rfl⟩ := Walked.map_eq_ok.1 first
    obtain ⟨start, walked, later⟩ := Walked.andThen_eq_ok.1 both
    exact walkAll_cons_eq_ok.2 ⟨start, walked, ih later⟩

/-- A walk goes on from where the first nodes have led it. -/
theorem walkAll_of_append {nodes trees more all : List Node}
    (first : walkAll ctx table nodes = (trees, .ok middle))
    (found : walkAll ctx table (nodes ++ more) = (all, .ok after)) :
    ∃ moreTrees, all = trees ++ moreTrees ∧ walkAll ctx middle more = (moreTrees, .ok after) := by
  induction nodes generalizing table trees all with
  | nil =>
    cases first
    exact ⟨all, rfl, found⟩
  | cons node nodes ih =>
    rw [List.cons_append, walkAll] at found
    rw [walkAll] at first
    obtain ⟨⟨tree, rest⟩, both, rfl⟩ := Walked.map_eq_ok.1 first
    obtain ⟨⟨_, _⟩, both', rfl⟩ := Walked.map_eq_ok.1 found
    obtain ⟨start, walked, later⟩ := Walked.andThen_eq_ok.1 both
    obtain ⟨_, walked', later'⟩ := Walked.andThen_eq_ok.1 both'
    cases walked.symm.trans walked'
    obtain ⟨moreTrees, rfl, further⟩ := ih later later'
    exact ⟨moreTrees, rfl, further⟩

theorem walkAll_append_fixed {trees more : List Node}
    (fixed : walkAll ctx table (trees ++ more) = (trees ++ more, .ok after)) :
    ∃ middle, walkAll ctx table trees = (trees, .ok middle) ∧
      walkAll ctx middle more = (more, .ok after) := by
  induction trees generalizing table with
  | nil => exact ⟨table, rfl, fixed⟩
  | cons tree trees ih =>
    obtain ⟨start, walked, later⟩ := walkAll_cons_eq_ok.1 fixed
    obtain ⟨middle, first, second⟩ := ih later
    exact ⟨middle, walkAll_cons_eq_ok.2 ⟨start, walked, first⟩, second⟩

/-- A walk that succeeds enters the node and then walks through its children. -/
theorem entering_of_walk {node tree : Node} (found : node.walk ctx table = (tree, .ok after)) :
    ∃ inside start, Entering ctx table tree inside start ∧ tree.scope = some inside.scope ∧
      walkAll inside start node.children = (tree.children, .ok after) := by
  cases node with
  | function info returnType name parameters body =>
    rw [walk] at found
    cases enters : enterFunction ctx info.token name returnType table with
    | error error =>
      rw [enters] at found
      cases found
    | ok entered =>
      obtain ⟨inside, start⟩ := entered
      rw [enters] at found
      obtain ⟨⟨ps, b⟩, both, rfl⟩ := Walked.map_eq_ok.1 found
      obtain ⟨middle, first, second⟩ := Walked.andThen_eq_ok.1 both
      exact ⟨inside, start, .function enters, rfl,
        walkAll_append first (walkAll_singleton_eq_ok.2 second)⟩
  | parameter info ty name =>
    obtain ⟨rfl, declares⟩ := Prod.mk.inj found
    exact ⟨ctx, after, .parameter declares, rfl, rfl⟩
  | declaration info ty name =>
    obtain ⟨rfl, declares⟩ := Prod.mk.inj found
    exact ⟨ctx, after, .declaration declares, rfl, rfl⟩
  | block info declarations statements =>
    rw [walk] at found
    obtain ⟨⟨ds, ss⟩, both, rfl⟩ := Walked.map_eq_ok.1 found
    obtain ⟨middle, first, second⟩ := Walked.andThen_eq_ok.1 both
    exact ⟨_, _, .block, rfl, walkAll_append first second⟩
  | program info functions =>
    obtain ⟨fs, walked, rfl⟩ := Walked.map_eq_ok.1 found
    exact ⟨ctx, table, .other rfl rfl, rfl, walked⟩
  | call info callee arguments =>
    obtain ⟨⟨c, args⟩, both, rfl⟩ := Walked.map_eq_ok.1 found
    exact ⟨ctx, table, .other rfl rfl, rfl, walkAll_cons_eq_ok.2 (Walked.andThen_eq_ok.1 both)⟩
  | returnValue info value | assignment info target value | unary info op value =>
    obtain ⟨v, walked, rfl⟩ := Walked.map_eq_ok.1 found
    exact ⟨ctx, table, .other rfl rfl, rfl, walkAll_singleton_eq_ok.2 walked⟩
  | ifThen info first second | binary info op first second =>
    obtain ⟨⟨x, y⟩, both, rfl⟩ := Walked.map_eq_ok.1 found
    obtain ⟨middle, walked, walked'⟩ := Walked.andThen_eq_ok.1 both
    exact ⟨ctx, table, .other rfl rfl, rfl,
      walkAll_cons_eq_ok.2 ⟨middle, walked, walkAll_singleton_eq_ok.2 walked'⟩⟩
  | ifElse info condition consequent alternative =>
    obtain ⟨⟨⟨c, s⟩, a⟩, all, rfl⟩ := Walked.map_eq_ok.1 found
    obtain ⟨later, both, third⟩ := Walked.andThen_eq_ok.1 all
    obtain ⟨middle, first, second⟩ := Walked.andThen_eq_ok.1 both
    exact ⟨ctx, table, .other rfl rfl, rfl, walkAll_cons_eq_ok.2 ⟨middle, first,
      walkAll_cons_eq_ok.2 ⟨later, second, walkAll_singleton_eq_ok.2 third⟩⟩⟩
  | empty info | identifier info name | integer info value | real info value =>
    cases found
    exact ⟨ctx, table, .other rfl rfl, rfl, rfl⟩

/-- The recursion is on all nodes of the forest: the children of a node are fewer. -/
theorem resolved_of_walkAll (nodes : List Node) {ctx : Context} {table after : Table}
    {trees : List Node} (found : walkAll ctx table nodes = (trees, .ok after)) :
    Resolved ctx table trees after := by
  match nodes with
  | [] =>
    cases found
    exact .nothing ctx table
  | node :: nodes =>
    rw [walkAll] at found
    obtain ⟨⟨tree, rest⟩, both, rfl⟩ := Walked.map_eq_ok.1 found
    obtain ⟨middle, walked, later⟩ := Walked.andThen_eq_ok.1 both
    obtain ⟨inside, start, entering, attached, below⟩ := entering_of_walk walked
    exact .next entering attached (resolved_of_walkAll node.children below)
      (resolved_of_walkAll nodes later)
termination_by Rose.sizes (nodes.map shape)
decreasing_by
  all_goals simp only [List.map_cons, Rose.sizes, shape_eq node, Rose.size]
  all_goals omega

theorem attach_of_attached (info : Info) {scope : ScopeId} (attached : info.scope = some scope) :
    attach info scope = info := by
  cases info
  cases attached
  rfl

/-- A walk leaves a tree alone that has the scopes of the walk already. -/
theorem walk_fixed {inside : Context} {start : Table} {tree : Node}
    (entering : Entering ctx table tree inside start) (attached : tree.scope = some inside.scope)
    (below : walkAll inside start tree.children = (tree.children, .ok after)) :
    tree.walk ctx table = (tree, .ok after) := by
  cases entering with
  | @function info _ _ _ _ _ _ enters =>
    obtain ⟨middle, first, second⟩ := walkAll_append_fixed below
    rw [walk, enters]
    exact Walked.map_eq_ok.2 ⟨(_, _),
      Walked.andThen_eq_ok.2 ⟨middle, first, walkAll_singleton_eq_ok.1 second⟩,
      by rw [attach_of_attached info attached]⟩
  | @parameter info _ _ _ declares | @declaration info _ _ _ declares =>
    cases below
    rw [walk, attach_of_attached info attached, declares]
  | @block info =>
    obtain ⟨middle, first, second⟩ := walkAll_append_fixed below
    rw [walk]
    exact Walked.map_eq_ok.2 ⟨(_, _),
      Walked.andThen_eq_ok.2 ⟨middle, first, second⟩, by rw [attach_of_attached info attached]⟩
  | other opensNone declaresNone =>
    cases tree with
    | function | block => cases opensNone
    | parameter | declaration => cases declaresNone
    | empty info | identifier info name | integer info value | real info value =>
      cases below
      rw [walk, attach_of_attached info attached]
    | program info functions =>
      exact Walked.map_eq_ok.2 ⟨functions, below, by rw [attach_of_attached info attached]⟩
    | call info callee arguments =>
      exact Walked.map_eq_ok.2 ⟨(_, _),
        Walked.andThen_eq_ok.2 (walkAll_cons_eq_ok.1 below),
        by rw [attach_of_attached info attached]⟩
    | returnValue info value | assignment info target value | unary info op value =>
      exact Walked.map_eq_ok.2 ⟨_, walkAll_singleton_eq_ok.1 below,
        by rw [attach_of_attached info attached]⟩
    | ifThen info first second | binary info op first second =>
      obtain ⟨middle, walked, walked'⟩ := walkAll_cons_eq_ok.1 below
      exact Walked.map_eq_ok.2 ⟨(_, _),
        Walked.andThen_eq_ok.2 ⟨middle, walked, walkAll_singleton_eq_ok.1 walked'⟩,
        by rw [attach_of_attached info attached]⟩
    | ifElse info condition consequent alternative =>
      obtain ⟨middle, first, rest⟩ := walkAll_cons_eq_ok.1 below
      obtain ⟨later, second, third⟩ := walkAll_cons_eq_ok.1 rest
      exact Walked.map_eq_ok.2 ⟨((_, _), _),
        Walked.andThen_eq_ok.2 ⟨later, Walked.andThen_eq_ok.2 ⟨middle, first, second⟩,
          walkAll_singleton_eq_ok.1 third⟩, by rw [attach_of_attached info attached]⟩

theorem Resolved.walkAll_eq {trees : List Node} (resolved : Resolved ctx table trees after) :
    walkAll ctx table trees = (trees, .ok after) := by
  induction resolved with
  | nothing => rfl
  | next entering attached _ _ below later =>
    exact walkAll_cons_eq_ok.2 ⟨_, walk_fixed entering attached below, later⟩

end Walks

end MiniC.Node
