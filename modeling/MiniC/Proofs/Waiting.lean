import MiniC.Proofs.Counters
import MiniC.Tree.Shape

/-!
# What waits while an expression is computed

While the code of an expression runs, temporaries wait to be read and pushed arguments wait for their
call. Both wait on a stack. A quadruple reads the temporaries on top and leaves the one that it
creates, so none is ever read twice or lies idle; and arguments are pushed only directly before the
call that takes all of them, so pushes for two calls never mix.

All of this is one property of a part of the code (`Orderly`), and the code of a tree is put together
from parts that have it.
-/

namespace MiniC

open Lower (temporaryName)

/-! ## Temporaries that wait to be read -/

/-- The temporaries that a quadruple reads. -/
def Quad.takes (quad : Quad) : List String :=
  quad.reads.filter isTemporary

/-- Code that leads from one stack of waiting temporaries to another: each quadruple takes those that
it reads off the top and leaves the one that it creates there. Nothing else waits at a mark, a jump
or a return, and only variables of the source are assigned to. -/
def Stacked : (waiting : List String) → List Quad → (left : List String) → Prop
  | waiting, [], left => waiting = left
  | waiting, quad :: code, left => ∃ below, waiting = below ++ quad.takes ∧
      (quad.op.isControl → below = []) ∧
      (quad.op = .assign → ∀ name, quad.result = some (.name name) → ¬ isTemporary name) ∧
      Stacked (below ++ quad.created?.toList) code left

theorem Stacked.append {waiting middle left : List String} {first second : List Quad}
    (stacked : Stacked waiting first middle) (stacked' : Stacked middle second left) :
    Stacked waiting (first ++ second) left := by
  induction first generalizing waiting with
  | nil =>
    obtain rfl : waiting = middle := stacked
    exact stacked'
  | cons quad first ih =>
    obtain ⟨below, split, alone, ofSource, rest⟩ := stacked
    exact ⟨below, split, alone, ofSource, ih rest⟩

/-- Pushing values takes all temporaries among them, the last one first. -/
theorem stacked_pushes (waiting names : List String) (scope : ScopeId) :
    Stacked (waiting ++ names.filter isTemporary) (names.reverse.map (Quad.param · scope))
      waiting := by
  induction names using List.reverseRecOn with
  | nil => exact List.append_nil _
  | append_singleton names name ih =>
    rw [List.reverse_append, List.filter_append, ← List.append_assoc]
    refine ⟨waiting ++ names.filter isTemporary, rfl, nofun, nofun, ?_⟩
    rw [show (Quad.param name scope).created? = none from rfl]
    exact (List.append_nil _).symm ▸ ih

/-! ## Arguments that wait for their call -/

/-- Code that finds so many arguments pushed: a call takes all that are, nothing else than a push or
a call comes while there are any, and none are left in the end. -/
def Pushed : (count : Nat) → List Quad → Prop
  | count, [] => count = 0
  | count, quad :: code =>
      match quad.op with
      | .param => Pushed (count + 1) code
      | .call => quad.operand2 = some (.count count) ∧ Pushed 0 code
      | _ => count = 0 ∧ Pushed 0 code

section Pushed

variable {count : Nat} {quad : Quad} {code first second : List Quad}

theorem pushed_param (isParam : quad.op = .param) :
    Pushed count (quad :: code) ↔ Pushed (count + 1) code := by
  rw [Pushed, isParam]

theorem pushed_call (isCall : quad.op = .call) :
    Pushed count (quad :: code) ↔ quad.operand2 = some (.count count) ∧ Pushed 0 code := by
  rw [Pushed, isCall]

theorem pushed_other (noPush : quad.op ≠ .param) (noCall : quad.op ≠ .call) :
    Pushed count (quad :: code) ↔ count = 0 ∧ Pushed 0 code := by
  cases isOp : quad.op with
  | param => exact absurd isOp noPush
  | call => exact absurd isOp noCall
  | _ => rw [Pushed, isOp]

theorem Pushed.append (pushed : Pushed count first) (pushed' : Pushed 0 second) :
    Pushed count (first ++ second) := by
  induction first generalizing count with
  | nil =>
    obtain rfl : count = 0 := pushed
    exact pushed'
  | cons quad first ih =>
    rw [List.cons_append]
    by_cases isParam : quad.op = .param
    · exact (pushed_param isParam).2 (ih ((pushed_param isParam).1 pushed))
    by_cases isCall : quad.op = .call
    · obtain ⟨counted, rest⟩ := (pushed_call isCall).1 pushed
      exact (pushed_call isCall).2 ⟨counted, ih rest⟩
    · obtain ⟨isZero, rest⟩ := (pushed_other isParam isCall).1 pushed
      exact (pushed_other isParam isCall).2 ⟨isZero, ih rest⟩

theorem pushed_pushes (names : List String) (scope : ScopeId) :
    Pushed count (names.map (Quad.param · scope) ++ code) ↔ Pushed (count + names.length) code := by
  induction names generalizing count with
  | nil => exact Iff.rfl
  | cons name names ih =>
    rw [List.map_cons, List.cons_append, pushed_param rfl, ih, List.length_cons,
      Nat.add_right_comm, Nat.add_assoc]

end Pushed

/-! ## Calls and the nodes that they are from -/

/-- Each call ends the code of a call node among `nodes`, and this code is that of the arguments, and
then a push of each of them. -/
def CallsFrom (nodes : List Node) (code : List Quad) : Prop :=
  ∀ ⦃index : Nat⦄ ⦃quad : Quad⦄, code[index]? = some quad → quad.op = .call →
    ∃ info callee arguments next, Node.call info callee arguments ∈ nodes ∧
      (Node.call info callee arguments).valueCode quad.scope next <:+ code.take (index + 1)

section CallsFrom

variable {nodes : List Node} {first second : List Quad}

theorem callsFrom_of_none (noCall : ∀ quad ∈ first, quad.op ≠ .call) : CallsFrom nodes first :=
  fun _ _ found isCall => absurd isCall (noCall _ (List.mem_of_getElem? found))

theorem CallsFrom.append (calls : CallsFrom nodes first) (calls' : CallsFrom nodes second) :
    CallsFrom nodes (first ++ second) := by
  intro index quad found isCall
  by_cases lt : index < first.length
  · rw [List.getElem?_append_left lt] at found
    obtain ⟨info, callee, arguments, next, member, ends⟩ := calls found isCall
    refine ⟨info, callee, arguments, next, member, ?_⟩
    rwa [List.take_append_of_le_length lt]
  · have le := Nat.le_of_not_lt lt
    rw [List.getElem?_append_right le] at found
    obtain ⟨info, callee, arguments, next, member, ends⟩ := calls' found isCall
    refine ⟨info, callee, arguments, next, member, ?_⟩
    rw [List.take_append, Nat.sub_add_comm le]
    exact ends.trans (List.suffix_append _ _)

/-- The code of a call node, whose last quadruple is a call that may be from the node itself. -/
theorem CallsFrom.call {info : Info} {callee : Node} {arguments : List Node} {quad : Quad}
    (next : Nat) (member : Node.call info callee arguments ∈ nodes)
    (calls : CallsFrom nodes first)
    (isCode : (Node.call info callee arguments).valueCode quad.scope next = first ++ [quad]) :
    CallsFrom nodes (first ++ [quad]) := by
  intro index quad' found isCall
  by_cases lt : index < first.length
  · rw [List.getElem?_append_left lt] at found
    obtain ⟨info, callee, arguments, next, member, ends⟩ := calls found isCall
    refine ⟨info, callee, arguments, next, member, ?_⟩
    rwa [List.take_append_of_le_length lt]
  · have bound := (List.getElem?_eq_some_iff.1 found).1
    rw [List.length_append, List.length_singleton] at bound
    obtain rfl : index = first.length := by omega
    rw [List.getElem?_append_right (Nat.le_refl _), Nat.sub_self] at found
    cases found
    refine ⟨info, callee, arguments, next, member, ?_⟩
    rw [isCode, List.take_of_length_le (by rw [List.length_append, List.length_singleton])]

end CallsFrom

/-! ## Code in order -/

/-- Code in which temporaries and arguments are used in the order in which they wait, with calls that
are from call nodes among `nodes`. -/
structure Orderly (nodes : List Node) (waiting : List String) (code : List Quad)
    (left : List String) : Prop where
  stacked : Stacked waiting code left
  pushed : Pushed 0 code
  calls : CallsFrom nodes code

namespace Orderly

variable {nodes : List Node} {waiting middle left : List String} {first second : List Quad}

theorem nothing (nodes : List Node) (waiting : List String) : Orderly nodes waiting [] waiting :=
  ⟨rfl, rfl, callsFrom_of_none fun _ member => absurd member List.not_mem_nil⟩

theorem append (orderly : Orderly nodes waiting first middle)
    (orderly' : Orderly nodes middle second left) : Orderly nodes waiting (first ++ second) left :=
  ⟨orderly.stacked.append orderly'.stacked, orderly.pushed.append orderly'.pushed,
    orderly.calls.append orderly'.calls⟩

/-- A quadruple that reads `names`, with what else waits below them. -/
theorem single {quad : Quad} {names : List String} (waiting : List String)
    (noPush : quad.op ≠ .param) (noCall : quad.op ≠ .call) (reads : quad.reads = names)
    (alone : quad.op.isControl → waiting = [])
    (ofSource : quad.op = .assign → ∀ name, quad.result = some (.name name) → ¬ isTemporary name) :
    Orderly nodes (waiting ++ names.filter isTemporary) [quad]
      (waiting ++ quad.created?.toList) where
  stacked := by
    refine ⟨waiting, ?_, alone, ofSource, rfl⟩
    rw [Quad.takes, reads]
  pushed := (pushed_other noPush noCall).2 ⟨rfl, rfl⟩
  calls := callsFrom_of_none (List.forall_mem_singleton.2 noCall)

/-- A quadruple that neither reads nor creates anything. -/
theorem idle {quad : Quad} (noPush : quad.op ≠ .param) (noCall : quad.op ≠ .call)
    (noAssign : quad.op ≠ .assign) (reads : quad.reads = []) (creates : quad.created? = none) :
    Orderly nodes [] [quad] [] := by
  have idle : Orderly nodes ([] ++ [].filter isTemporary) [quad] ([] ++ quad.created?.toList) :=
    .single [] noPush noCall reads (fun _ => rfl) fun isAssign => absurd isAssign noAssign
  rw [creates] at idle
  exact idle

end Orderly

namespace Node

variable {nodes : List Node} {scope : ScopeId}

theorem descendants_child {node child : Node} (within : node.descendants ⊆ nodes)
    (isChild : child ∈ node.children) : child.descendants ⊆ nodes :=
  fun _ below => within (mem_descendants_of_child isChild below)

theorem filter_temporaryName (n : Nat) :
    [temporaryName n].filter isTemporary = [temporaryName n] := by
  rw [List.filter_cons_of_pos (isTemporary_temporaryName n), List.filter_nil]

/-- The code of a call behind that of its arguments. -/
theorem call_orderly {waiting : List String} {info : Info} {callee : Node} {arguments : List Node}
    {next : Nat} (member : call info callee arguments ∈ nodes)
    (orderly : Orderly nodes waiting (valueCodes scope next arguments)
      (waiting ++ (valueNames next arguments).filter isTemporary)) :
    Orderly nodes waiting ((call info callee arguments).valueCode scope next)
      (waiting ++ [temporaryName (next + temporaryCounts arguments)]) where
  stacked := by
    rw [valueCode]
    refine orderly.stacked.append ((stacked_pushes _ _ _).append ?_)
    exact ⟨waiting, (List.append_nil _).symm, nofun, nofun, rfl⟩
  pushed := by
    rw [valueCode]
    refine orderly.pushed.append ((pushed_pushes _ _).2 ((pushed_call rfl).2 ⟨?_, rfl⟩))
    rw [List.length_reverse, length_valueNames, Nat.zero_add]
    rfl
  calls := by
    have noCalls : CallsFrom nodes ((valueNames next arguments).reverse.map (Quad.param · scope)) := by
      refine callsFrom_of_none fun quad pushed => ?_
      obtain ⟨name, _, rfl⟩ := List.mem_map.1 pushed
      exact Opcode.noConfusion
    rw [valueCode, ← List.append_assoc]
    refine (orderly.calls.append noCalls).call next member ?_
    rw [valueCode, List.append_assoc]
    rfl

mutual
/-- The code of an expression leaves its value if that is in a temporary, and nothing else. -/
theorem value_orderly : (node : Node) → ∀ (next : Nat) (waiting : List String),
    node.ValueIn scope → node.ValueIntegral → node.descendants ⊆ nodes →
    Orderly nodes waiting (node.valueCode scope next)
      (waiting ++ [node.valueName next].filter isTemporary)
  | identifier info name => by
    rintro next waiting ⟨_, isName⟩ _ _
    rw [valueName, List.filter_cons_of_neg isName.not_isTemporary, List.filter_nil, List.append_nil]
    exact .nothing nodes waiting
  | integer info value => by
    intro next waiting _ _ _
    have loaded : Orderly nodes (waiting ++ [].filter isTemporary)
        [.load value (temporaryName next) scope] (waiting ++ [temporaryName next]) :=
      .single waiting nofun nofun rfl nofun nofun
    rw [List.filter_nil, List.append_nil, ← filter_temporaryName] at loaded
    exact loaded
  | unary info op operand => by
    rintro next waiting ⟨_, inScope⟩ integral within
    have first := value_orderly operand next waiting inScope integral
      (descendants_child within List.mem_cons_self)
    rw [valueName, filter_temporaryName]
    refine first.append ?_
    cases op <;> exact .single waiting nofun nofun rfl nofun nofun
  | binary info op lhs rhs => by
    rintro next waiting ⟨_, inScope, inScope'⟩ ⟨integral, integral'⟩ within
    have first := value_orderly lhs next waiting inScope integral
      (descendants_child within List.mem_cons_self)
    have second := value_orderly rhs (next + lhs.temporaryCount)
      (waiting ++ [lhs.valueName next].filter isTemporary) inScope' integral'
      (descendants_child within (List.mem_cons_of_mem _ List.mem_cons_self))
    rw [List.append_assoc, ← List.filter_append] at second
    rw [valueName, filter_temporaryName]
    refine first.append (second.append ?_)
    cases op <;> exact .single waiting nofun nofun rfl nofun nofun
  | call info callee arguments => by
    rintro next waiting ⟨_, _, inScope⟩ integral within
    have member : call info callee arguments ∈ nodes := within (self_mem_descendants _)
    rw [valueName, filter_temporaryName]
    exact call_orderly member (values_orderly arguments next waiting inScope integral
      fun node isArgument => descendants_child within (List.mem_cons_of_mem _ isArgument))
  | real .. => fun _ _ _ integral => integral.elim
  | empty .. | program .. | function .. | parameter .. | returnValue .. | block .. | declaration ..
  | assignment .. | ifThen .. | ifElse .. => fun _ _ inScope => inScope.elim
theorem values_orderly : (values : List Node) → ∀ (next : Nat) (waiting : List String),
    ValuesIn scope values → ValuesIntegral values → (∀ node ∈ values, node.descendants ⊆ nodes) →
    Orderly nodes waiting (valueCodes scope next values)
      (waiting ++ (valueNames next values).filter isTemporary)
  | [] => fun _ waiting _ _ _ => (List.append_nil waiting).symm ▸ .nothing nodes waiting
  | node :: values => by
    rintro next waiting ⟨inScope, inScope'⟩ ⟨integral, integral'⟩ within
    obtain ⟨within, within'⟩ := List.forall_mem_cons.1 within
    have first := value_orderly node next waiting inScope integral within
    have second := values_orderly values (next + node.temporaryCount)
      (waiting ++ [node.valueName next].filter isTemporary) inScope' integral' within'
    rw [List.append_assoc, ← List.filter_append] at second
    exact first.append second
end

/-- A quadruple that uses the value of an expression and leaves nothing. -/
theorem value_used {node : Node} {next : Nat} (inScope : node.ValueIn scope)
    (integral : node.ValueIntegral) (within : node.descendants ⊆ nodes) {quad : Quad}
    (noPush : quad.op ≠ .param) (noCall : quad.op ≠ .call)
    (reads : quad.reads = [node.valueName next]) (creates : quad.created? = none)
    (ofSource : quad.op = .assign → ∀ name, quad.result = some (.name name) → ¬ isTemporary name) :
    Orderly nodes [] (node.valueCode scope next ++ [quad]) [] := by
  have used : Orderly nodes ([] ++ [node.valueName next].filter isTemporary) [quad]
      ([] ++ quad.created?.toList) := .single [] noPush noCall reads (fun _ => rfl) ofSource
  rw [creates] at used
  exact (value_orderly node next [] inScope integral within).append used

theorem mark_orderly (label : Label) (scope : ScopeId) : Orderly nodes [] [.mark label scope] [] :=
  .idle nofun nofun nofun rfl rfl

theorem jump_orderly (label : Label) (scope : ScopeId) : Orderly nodes [] [.jump label scope] [] :=
  .idle nofun nofun nofun rfl rfl

mutual
theorem statement_orderly (table : Table) (top : ScopeId) (exit : Label) : (node : Node) →
    ∀ (next label : Nat) ⦃scope : ScopeId⦄ ⦃layout : Layout⦄ ⦃count : Nat⦄,
    node.ScopedIn table top scope layout count → node.StatementIntegral → node.descendants ⊆ nodes →
    Orderly nodes [] (node.statementCode exit scope next label) []
  | block info declarations statements => by
    rintro next label scope layout count ⟨inner, attached, _, _, _, placed⟩ ⟨_, integral⟩ within
    rw [statementCode, attached]
    exact statements_orderly table top exit statements next label placed integral
      fun node isStatement => descendants_child within (List.mem_append_right _ isStatement)
  | returnValue info value => by
    rintro next label scope layout count ⟨_, inScope⟩ integral within
    exact value_used inScope integral (descendants_child within List.mem_cons_self) nofun nofun rfl
      rfl nofun
  | assignment info target value => by
    rintro next label scope layout count ⟨_, isName, inScope⟩ integral within
    refine value_used inScope integral (descendants_child within List.mem_cons_self) nofun nofun rfl
      rfl ?_
    intro _ name isTarget
    cases isTarget
    exact isName.not_isTemporary
  | ifThen info condition consequent => by
    rintro next label scope layout count ⟨_, inScope, placed⟩ ⟨integral, integral'⟩ within
    have tested : Orderly nodes [] (condition.valueCode scope next ++
        [.jumpIfNot (condition.valueName next) ⟨label⟩ scope]) [] :=
      value_used inScope integral (descendants_child within List.mem_cons_self) nofun nofun rfl rfl
        nofun
    have positive := statement_orderly table top exit consequent (next + condition.temporaryCount)
      (label + 1) placed integral'
      (descendants_child within (List.mem_cons_of_mem _ List.mem_cons_self))
    have all := tested.append (positive.append (mark_orderly ⟨label⟩ scope))
    rwa [List.append_assoc] at all
  | ifElse info condition consequent alternative => by
    rintro next label scope layout count ⟨_, inScope, placed, placed'⟩
      ⟨integral, integral', integral''⟩ within
    have tested : Orderly nodes [] (condition.valueCode scope next ++
        [.jumpIfNot (condition.valueName next) ⟨label⟩ scope]) [] :=
      value_used inScope integral (descendants_child within List.mem_cons_self) nofun nofun rfl rfl
        nofun
    have positive := statement_orderly table top exit consequent (next + condition.temporaryCount)
      (label + 1) placed integral'
      (descendants_child within (List.mem_cons_of_mem _ List.mem_cons_self))
    have negative := statement_orderly table top exit alternative
      (next + condition.temporaryCount + consequent.temporaryCount)
      (label + 1 + consequent.labelCount + 1) placed' integral''
      (descendants_child within
        (List.mem_cons_of_mem _ (List.mem_cons_of_mem _ List.mem_cons_self)))
    have all := tested.append (positive.append
      ((jump_orderly ⟨label + 1 + consequent.labelCount⟩ scope).append
        ((mark_orderly ⟨label⟩ scope).append
          (negative.append (mark_orderly ⟨label + 1 + consequent.labelCount⟩ scope)))))
    rwa [List.append_assoc] at all
  | empty .. => fun _ _ _ _ _ _ _ _ => .nothing nodes []
  | program .. | function .. | parameter .. | call .. | declaration .. | binary .. | unary ..
  | identifier .. | integer .. | real .. => fun _ _ _ _ _ placed => placed.elim
theorem statements_orderly (table : Table) (top : ScopeId) (exit : Label) :
    (statements : List Node) →
    ∀ (next label : Nat) ⦃scope : ScopeId⦄ ⦃layout : Layout⦄ ⦃count : Nat⦄,
    ScopedAll table top scope layout count statements → StatementsIntegral statements →
    (∀ node ∈ statements, node.descendants ⊆ nodes) →
    Orderly nodes [] (statementsCode exit scope next label statements) []
  | [] => fun _ _ _ _ _ _ _ _ => .nothing nodes []
  | node :: statements => by
    rintro next label scope layout count ⟨placed, placed'⟩ ⟨integral, integral'⟩ within
    obtain ⟨within, within'⟩ := List.forall_mem_cons.1 within
    exact (statement_orderly table top exit node next label placed integral within).append
      (statements_orderly table top exit statements _ _ placed' integral' within')
end

end Node

/-- The code of a function is in order. -/
theorem Lowering.Has.orderly {state : Lowering} {name : String} {parameters : List Node}
    {body : Node} {top : ScopeId} {next label : Nat}
    (has : state.Has name parameters body top next label) {nodes : List Node}
    (within : body.descendants ⊆ nodes) :
    Orderly nodes [] (body.functionCode top next label) [] :=
  (Node.statement_orderly state.table top ⟨label⟩ body _ _ has.placed has.integral within).append
    (Node.mark_orderly ⟨label⟩ top)

end MiniC
