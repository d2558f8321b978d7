import MiniC.Proofs.Results
import MiniC.Resolution

/-!
# Visits and walks

A visit changes the current scope and the function around it, and has to put them back. A walk is
told where it stands instead: what is inside a function or a block is walked through from another
place, and what comes behind it from the old one. It has nothing to put back, and its state is the
table alone.

Both do the same to the tree and to the table, and a visit that succeeds comes back to where it
started (`visit_follows`). So what a tree is resolved to can be read off a walk (`resolve_eq_walk`).
-/

namespace MiniC

/-- Where the walk stands: the scope to look names up in, and the function around it. -/
structure Context where
  scope : ScopeId
  function : Option SymbolId
deriving DecidableEq, Repr

namespace Walked

variable {α β γ : Type}

/-- Walk `first` and then `second`; if `first` fails, `second` stays as it was. -/
def andThen (first : Walked α) (second : Table → Walked β) (unvisited : β) : Walked (α × β) :=
  match first with
  | (a, .error error) => ((a, unvisited), .error error)
  | (a, .ok table) =>
      match second table with
      | (b, result) => ((a, b), result)

def map (f : α → β) (walked : Walked α) : Walked β :=
  (f walked.1, walked.2)

end Walked

namespace Resolution

def ensureNew (table : Table) (scope : ScopeId) (name : String) (token : Token) :
    Except Error Unit :=
  if (table.lookupLocal scope name).isSome then
    .error (.semantic token.pos (.redefinition name))
  else .ok ()

def enclosingFunction (ctx : Context) (token : Token) : Except Error SymbolId :=
  match ctx.function with
  | some function => .ok function
  | none => .error (.internal (.declaredOutsideFunction token))

def enterFunction (ctx : Context) (token : Token) (name : String) (returnType : Ty)
    (table : Table) : Except Error (Context × Table) := do
  ensureNew table ctx.scope name token
  let (id, table) ← table.defineFunction ctx.scope name returnType
  return (⟨table.scopes.size, some id⟩, table.openScope ctx.scope)

def declareParameter (ctx : Context) (token : Token) (name : String) (ty : Ty) (table : Table) :
    Except Error Table := do
  ensureNew table ctx.scope name token
  let function ← enclosingFunction ctx token
  let (_, table) ← table.defineParameter ctx.scope function name ty
  return table

def declareVariable (ctx : Context) (token : Token) (name : String) (ty : Ty) (table : Table) :
    Except Error Table := do
  ensureNew table ctx.scope name token
  let function ← enclosingFunction ctx token
  let (_, table) ← table.defineVariable ctx.scope function name ty
  return table

end Resolution

namespace Node

open Resolution

mutual
/-- Walk through a node. -/
def walk (ctx : Context) (table : Table) : Node → Walked Node
  | empty info => (empty (attach info ctx.scope), .ok table)
  | program info functions =>
      (walkAll ctx table functions).map (program (attach info ctx.scope))
  | function info returnType name parameters body =>
      match enterFunction ctx info.token name returnType table with
      | .error error =>
          (function (attach info ctx.scope) returnType name parameters body, .error error)
      | .ok (inside, table) =>
          ((walkAll inside table parameters).andThen (walk inside · body) body).map fun (ps, b) =>
            function (attach info inside.scope) returnType name ps b
  | parameter info ty name =>
      (parameter (attach info ctx.scope) ty name, declareParameter ctx info.token name ty table)
  | call info callee arguments =>
      ((callee.walk ctx table).andThen (walkAll ctx · arguments) arguments).map fun (c, args) =>
        call (attach info ctx.scope) c args
  | returnValue info value => (value.walk ctx table).map (returnValue (attach info ctx.scope))
  | block info declarations statements =>
      let inside : Context := { ctx with scope := table.scopes.size }
      ((walkAll inside (table.openScope ctx.scope) declarations).andThen
        (walkAll inside · statements) statements).map fun (ds, ss) =>
          block (attach info inside.scope) ds ss
  | declaration info ty name =>
      (declaration (attach info ctx.scope) ty name, declareVariable ctx info.token name ty table)
  | assignment info target value =>
      (value.walk ctx table).map (assignment (attach info ctx.scope) target)
  | ifThen info condition consequent =>
      ((condition.walk ctx table).andThen (walk ctx · consequent) consequent).map fun (c, s) =>
        ifThen (attach info ctx.scope) c s
  | ifElse info condition consequent alternative =>
      (((condition.walk ctx table).andThen (walk ctx · consequent) consequent).andThen
        (walk ctx · alternative) alternative).map fun ((c, s), a) =>
          ifElse (attach info ctx.scope) c s a
  | binary info op lhs rhs =>
      ((lhs.walk ctx table).andThen (walk ctx · rhs) rhs).map fun (l, r) =>
        binary (attach info ctx.scope) op l r
  | unary info op operand => (operand.walk ctx table).map (unary (attach info ctx.scope) op)
  | identifier info name => (identifier (attach info ctx.scope) name, .ok table)
  | integer info value => (integer (attach info ctx.scope) value, .ok table)
  | real info value => (real (attach info ctx.scope) value, .ok table)
/-- Walk through nodes from left to right. -/
def walkAll (ctx : Context) (table : Table) : List Node → Walked (List Node)
  | [] => ([], .ok table)
  | node :: nodes =>
      ((node.walk ctx table).andThen (walkAll ctx · nodes) nodes).map fun (n, ns) => n :: ns
end

end Node

/-! ## A visit follows a walk -/

/-- The resolver at a place. -/
def Context.resolver (ctx : Context) (table : Table) : Resolver :=
  ⟨table, ctx.scope, ctx.function⟩

/-- A visit ended as a walk did from the same place: with the same tree, and with the same table or
the same failure. If it succeeded, it is back at that place. -/
inductive Agrees {α : Type} (ctx : Context) (visited : α × EStateM.Result Error Resolver Unit)
    (walked : Walked α) : Prop
  | done {a : α} {table : Table} (isVisited : visited = (a, .ok () (ctx.resolver table)))
      (isWalked : walked = (a, .ok table))
  | failed {a : α} {error : Error} (last : Resolver) (isVisited : visited = (a, .error error last))
      (isWalked : walked = (a, .error error))

namespace Visit

variable {α β : Type} {ctx : Context} {visit : Visit α} {walk : Table → Walked α}

/-- A visit that does what a walk does, whatever table it starts with. -/
def Follows (visit : Visit α) (ctx : Context) (walk : Table → Walked α) : Prop :=
  ∀ table, Agrees ctx (visit (ctx.resolver table)) (walk table)

theorem Follows.map (follows : visit.Follows ctx walk) (f : α → β) :
    (visit.map f).Follows ctx fun table => (walk table).map f := by
  intro table
  show Agrees ctx (visit.map f (ctx.resolver table)) ((walk table).map f)
  unfold Visit.map Walked.map
  cases follows table with
  | done isVisited isWalked =>
    rw [isVisited, isWalked]
    exact .done rfl rfl
  | failed _ isVisited isWalked =>
    rw [isVisited, isWalked]
    exact .failed _ rfl rfl

theorem Follows.andThen {second : Visit β} {walk' : Table → Walked β}
    (first : visit.Follows ctx walk) (follows : second.Follows ctx walk') (unvisited : β) :
    (visit.andThen second unvisited).Follows ctx fun table =>
      (walk table).andThen walk' unvisited := by
  intro table
  show Agrees ctx (visit.andThen second unvisited (ctx.resolver table))
    ((walk table).andThen walk' unvisited)
  unfold Visit.andThen Walked.andThen
  cases first table with
  | @done _ middle isVisited isWalked =>
    rw [isVisited, isWalked]
    dsimp only
    cases follows middle with
    | done isVisited' isWalked' =>
      rw [isVisited', isWalked']
      exact .done rfl rfl
    | failed _ isVisited' isWalked' =>
      rw [isVisited', isWalked']
      exact .failed _ rfl rfl
  | failed _ isVisited isWalked =>
    rw [isVisited, isWalked]
    exact .failed _ rfl rfl

/-- Behind a function or a block the former scope is the current one again. -/
theorem Follows.inScope {scope : ScopeId} (follows : visit.Follows { ctx with scope } walk) :
    (visit.inScope scope).Follows ctx walk := by
  intro table
  unfold Visit.inScope
  cases follows table with
  | done isVisited isWalked =>
    refine .done ?_ isWalked
    rw [show visit { ctx.resolver table with current := scope } = _ from isVisited]
    rfl
  | failed last isVisited isWalked =>
    refine .failed last ?_ isWalked
    rw [show visit { ctx.resolver table with current := scope } = _ from isVisited]

/-- Behind a function the former one is around again. -/
theorem Follows.inFunction {function : SymbolId}
    (follows : visit.Follows { ctx with function := some function } walk) :
    (visit.inFunction function).Follows ctx walk := by
  intro table
  unfold Visit.inFunction
  cases follows table with
  | done isVisited isWalked =>
    refine .done ?_ isWalked
    rw [show visit { ctx.resolver table with function := some function } = _ from isVisited]
    rfl
  | failed last isVisited isWalked =>
    refine .failed last ?_ isWalked
    rw [show visit { ctx.resolver table with function := some function } = _ from isVisited]

end Visit

namespace Resolver

variable {ctx : Context} {table : Table} {token : Token} {name : String} {ty : Ty}

/-- What is done with the table is done at the same place. -/
theorem onTable_cases {α : Type} (ctx : Context) (table : Table) (call : Table.Update α) :
    (∃ a after, call.completed table = .ok (a, after) ∧
      (onTable call).run (ctx.resolver table) = .ok a (ctx.resolver after)) ∨
    ∃ error last, call.completed table = .error error ∧
      (onTable call).run (ctx.resolver table) = .error error last := by
  rw [run_onTable]
  unfold Table.Update.completed Context.resolver
  dsimp only
  cases call.run table with
  | ok a after => exact .inl ⟨a, after, rfl, rfl⟩
  | error error after => exact .inr ⟨error, _, rfl, rfl⟩

theorem run_ensureNew (ctx : Context) (table : Table) (token : Token) (name : String) :
    (ensureNew name token).run (ctx.resolver table) =
      if (table.lookupLocal ctx.scope name).isSome then
        .error (.semantic token.pos (.redefinition name)) (ctx.resolver table)
      else .ok () (ctx.resolver table) := rfl

theorem run_enclosingFunction (ctx : Context) (table : Table) (token : Token) :
    (enclosingFunction token).run (ctx.resolver table) =
      match ctx.function with
      | some function => .ok function (ctx.resolver table)
      | none => .error (.internal (.declaredOutsideFunction token)) (ctx.resolver table) := rfl

theorem run_enterFunction (ctx : Context) (table : Table) (token : Token) (name : String) (ty : Ty) :
    (∃ id scope after, Resolution.enterFunction ctx token name ty table =
        .ok (⟨scope, some id⟩, after) ∧
      (enterFunction token name ty).run (ctx.resolver table) =
        .ok (id, scope) (ctx.resolver after)) ∨
    ∃ error last, Resolution.enterFunction ctx token name ty table = .error error ∧
      (enterFunction token name ty).run (ctx.resolver table) = .error error last := by
  unfold Resolution.enterFunction Resolution.ensureNew enterFunction
  rw [EStateM.run_bind, run_ensureNew]
  by_cases taken : (table.lookupLocal ctx.scope name).isSome
  · rw [if_pos taken, if_pos taken]
    exact .inr ⟨_, _, rfl, rfl⟩
  · rw [if_neg taken, if_neg taken, ok_bind]
    dsimp only
    rw [EStateM.run_bind, EStateM.run_get]
    dsimp only
    rw [EStateM.run_bind]
    obtain ⟨id, after, defined, ran⟩ | ⟨error, last, failed, ran⟩ :=
      onTable_cases ctx table (.defineFunction ctx.scope name ty)
    · rw [show table.defineFunction ctx.scope name ty = _ from defined,
        show (onTable (.defineFunction (ctx.resolver table).current name ty)).run _ = _ from ran]
      exact .inl ⟨id, _, _, rfl, rfl⟩
    · rw [show table.defineFunction ctx.scope name ty = _ from failed,
        show (onTable (.defineFunction (ctx.resolver table).current name ty)).run _ = _ from ran]
      exact .inr ⟨_, _, rfl, rfl⟩

/-- A node that declares something has no parts, so that it stays the same. -/
theorem agrees_declare {node : Node} (ctx : Context) (table : Table) (token : Token) (name : String)
    (define : ScopeId → SymbolId → Table.Update SymbolId) :
    Agrees ctx (node, (declare token name define).run (ctx.resolver table)) (node, do
      Resolution.ensureNew table ctx.scope name token
      let function ← Resolution.enclosingFunction ctx token
      let (_, after) ← (define ctx.scope function).completed table
      return after) := by
  unfold declare Resolution.ensureNew
  rw [EStateM.run_bind, run_ensureNew]
  by_cases taken : (table.lookupLocal ctx.scope name).isSome
  · rw [if_pos taken, if_pos taken]
    exact .failed _ rfl rfl
  · rw [if_neg taken, if_neg taken, ok_bind]
    dsimp only
    rw [EStateM.run_bind]
    unfold Resolution.enclosingFunction
    cases around : ctx.function with
    | none =>
      refine .failed (ctx.resolver table) ?_ rfl
      rw [show (enclosingFunction token).run (ctx.resolver table) = _ from
        run_enclosingFunction ctx table token, around]
    | some function =>
      rw [show (enclosingFunction token).run (ctx.resolver table) = _ from
        run_enclosingFunction ctx table token, around, ok_bind]
      dsimp only
      rw [EStateM.run_bind, EStateM.run_get]
      dsimp only
      rw [EStateM.run_bind]
      obtain ⟨id, after, defined, ran⟩ | ⟨error, last, failed, ran⟩ :=
        onTable_cases ctx table (define ctx.scope function)
      · rw [defined, show (onTable (define (ctx.resolver table).current function)).run _ = _ from ran]
        exact .done rfl rfl
      · rw [failed, show (onTable (define (ctx.resolver table).current function)).run _ = _ from ran]
        exact .failed _ rfl rfl

end Resolver

namespace Node

open Resolution Resolver

mutual
/-- A visit does what a walk does, and comes back to the place where it started. -/
theorem visit_follows (ctx : Context) : (node : Node) →
    node.visit.Follows ctx fun table => node.walk ctx table
  | empty _ | identifier .. | integer .. | real .. => fun _ => .done rfl rfl
  | program info functions => fun table =>
    (visitAll_follows ctx functions).map (program (attach info ctx.scope)) table
  | function info returnType name parameters body => fun table => by
    show Agrees ctx ((function info returnType name parameters body).visit (ctx.resolver table))
      ((function info returnType name parameters body).walk ctx table)
    unfold visit walk
    obtain ⟨id, scope, after, entered, ran⟩ | ⟨error, last, failed, ran⟩ :=
      run_enterFunction ctx table info.token name returnType
    · rw [entered, ran]
      have inside : ((visitAll parameters).andThen body.visit body).Follows ⟨scope, some id⟩ _ :=
        (visitAll_follows _ parameters).andThen (visit_follows _ body) body
      exact (Visit.Follows.inScope (Visit.Follows.inFunction inside)).map _ after
    · rw [failed, ran]
      exact .failed last rfl rfl
  | parameter info ty name => fun table =>
    agrees_declare ctx table info.token name (.defineParameter · · name ty)
  | call info callee arguments => fun table =>
    ((visit_follows ctx callee).andThen (visitAll_follows ctx arguments) arguments).map
      (fun parts => call (attach info ctx.scope) parts.1 parts.2) table
  | returnValue info value => fun table =>
    (visit_follows ctx value).map (returnValue (attach info ctx.scope)) table
  | block info declarations statements => fun table => by
    show Agrees ctx ((block info declarations statements).visit (ctx.resolver table))
      ((block info declarations statements).walk ctx table)
    unfold visit walk
    have inside : ((visitAll declarations).andThen (visitAll statements) statements).Follows
        { ctx with scope := table.scopes.size } _ :=
      (visitAll_follows _ declarations).andThen (visitAll_follows _ statements) statements
    exact (Visit.Follows.inScope inside).map _ (table.openScope ctx.scope)
  | declaration info ty name => fun table =>
    agrees_declare ctx table info.token name (.defineVariable · · name ty)
  | assignment info target value => fun table =>
    (visit_follows ctx value).map (assignment (attach info ctx.scope) target) table
  | ifThen info condition consequent => fun table =>
    ((visit_follows ctx condition).andThen (visit_follows ctx consequent) consequent).map
      (fun parts => ifThen (attach info ctx.scope) parts.1 parts.2) table
  | ifElse info condition consequent alternative => fun table =>
    (((visit_follows ctx condition).andThen (visit_follows ctx consequent) consequent).andThen
      (visit_follows ctx alternative) alternative).map
      (fun parts => ifElse (attach info ctx.scope) parts.1.1 parts.1.2 parts.2) table
  | binary info op lhs rhs => fun table =>
    ((visit_follows ctx lhs).andThen (visit_follows ctx rhs) rhs).map
      (fun parts => binary (attach info ctx.scope) op parts.1 parts.2) table
  | unary info op operand => fun table =>
    (visit_follows ctx operand).map (unary (attach info ctx.scope) op) table
theorem visitAll_follows (ctx : Context) : (nodes : List Node) →
    (visitAll nodes).Follows ctx fun table => walkAll ctx table nodes
  | [] => fun _ => .done rfl rfl
  | node :: nodes => fun table =>
    ((visit_follows ctx node).andThen (visitAll_follows ctx nodes) nodes).map
      (fun parts => parts.1 :: parts.2) table
end

/-- A tree is resolved by a walk from the global scope. -/
theorem resolve_eq_walk (node : Node) : node.resolve = node.walk ⟨Table.global, none⟩ .initial := by
  unfold resolve
  have agrees := visit_follows ⟨Table.global, none⟩ node .initial
  dsimp only at agrees
  unfold Context.resolver at agrees
  cases agrees with
  | done isVisited isWalked =>
    rw [isVisited, isWalked]
    rfl
  | failed last isVisited isWalked => rw [isVisited, isWalked]

end Node

end MiniC
