import MiniC.Compilation
import MiniC.Proofs.Lowering

/-!
# Variables that are assigned before they are read

The slots of a fresh activation hold zeros, but the memory of the target holds anything. So code and
listing only agree as far as a variable of the source is assigned before it is read, and as far as an
activation that ends does so by a return. Whether a run keeps to this is checked here along the run.

Temporaries need no such condition: whatever reads a temporary comes after the quadruple that writes
it, with no mark in between, so that there is no way to it that does not lead by that quadruple.
-/

namespace MiniC

open Lower (temporaryName)

/-- Names that start with a dollar sign are those of temporaries; all others are of the source. -/
def isTemporary (name : String) : Bool :=
  name.toList.head? == some '$'

theorem isTemporary_temporaryName (n : Nat) : isTemporary (temporaryName n) := by
  simp [isTemporary, temporaryName]

theorem IsIdentifier.not_isTemporary {name : String} (isName : IsIdentifier name) :
    ¬ isTemporary name := by
  intro temporary
  have first : name.toList.head? = some '$' := by simpa [isTemporary] using temporary
  exact absurd (isName.word '$' (List.mem_of_head? first)) (by decide)

/-! ## What a quadruple reads and writes -/

def Operand.name? : Operand → Option String
  | .name text => some text
  | _ => none

theorem Operand.name?_eq_some {operand : Operand} {name : String}
    (named : operand.name? = some name) : operand = .name name := by
  cases operand with
  | name text =>
    cases named
    rfl
  | _ => cases named

namespace Quad

/-- The names that a quadruple reads a value from. -/
def reads (quad : Quad) : List String :=
  let operands := match quad.op with
    | .assign | .uplus | .uminus | .param | .jumpIfNot => [quad.operand1]
    | .plus | .minus | .mult | .div => [quad.operand1, quad.operand2]
    | .ret => [quad.operand2]
    | .load | .call | .label | .jump => []
  operands.filterMap (·.bind Operand.name?)

/-- The name that a quadruple gives a value to. -/
def written? (quad : Quad) : Option String :=
  match quad.op with
  | .load | .assign | .uplus | .uminus | .plus | .minus | .mult | .div | .call =>
      quad.result.bind Operand.name?
  | .param | .ret | .label | .jump | .jumpIfNot => none

end Quad

/-- The variables that are assigned after a slot got a value. -/
def Slot.assign (assigned : List Nat) : Slot → List Nat
  | .parameter _ => assigned
  | .localVariable index => index :: assigned

/-- A slot that has a value of its own: a parameter, or a variable that was assigned. -/
def Slot.Known (assigned : List Nat) : Slot → Prop
  | .parameter _ => True
  | .localVariable index => index ∈ assigned

instance (assigned : List Nat) : (slot : Slot) → Decidable (slot.Known assigned)
  | .parameter _ => inferInstanceAs (Decidable True)
  | .localVariable index => inferInstanceAs (Decidable (index ∈ assigned))

namespace Slot

variable {assigned : List Nat} {slot other : Slot}

theorem known_assign (slot : Slot) (assigned : List Nat) : slot.Known (slot.assign assigned) := by
  cases slot with
  | parameter index => trivial
  | localVariable index => exact List.mem_cons_self

theorem Known.mono (known : other.Known assigned) (slot : Slot) :
    other.Known (slot.assign assigned) := by
  cases slot with
  | parameter index => exact known
  | localVariable index =>
    cases other with
    | parameter index' => trivial
    | localVariable index' => exact List.mem_cons_of_mem _ known

theorem Known.of_assign (known : other.Known (slot.assign assigned)) (apart : other ≠ slot) :
    other.Known assigned := by
  cases slot with
  | parameter index => exact known
  | localVariable index =>
    cases other with
    | parameter index' => trivial
    | localVariable index' =>
      rcases List.mem_cons.1 known with rfl | before
      · exact absurd rfl apart
      · exact before

end Slot

namespace Quad

/-- Of the variables of the source, the quadruple only reads those that were assigned. -/
def readsAssigned (table : Table) (assigned : List Nat) (quad : Quad) : Bool :=
  quad.reads.all fun name => isTemporary name ||
    match table.slotAt quad.scope name with
    | some slot => slot.Known assigned
    | none => true

/-- The variables that are assigned after a quadruple. -/
def assignedAfter (table : Table) (assigned : List Nat) (quad : Quad) : List Nat :=
  match quad.written?.bind (table.slotAt quad.scope) with
  | some slot => slot.assign assigned
  | none => assigned

end Quad

/-! ## Runs -/

/-- Along a run from `progress` on, no variable of the source is read before it was assigned, and if
the end of the body is reached, then by a return; and so it is in all calls that are made. -/
def Routine.isTidy (routine : Routine) (table : Table) (callee : String → List Int32 → Traced Int32)
    (calleeIsTidy : String → List Int32 → Bool) :
    (steps : Nat) → (assigned : List Nat) → (returned : Bool) → Progress → Bool
  | 0, _, _, _ => true
  | steps + 1, assigned, returned, progress =>
      match routine.body[progress.pc]? with
      | none => returned
      | some quad =>
          quad.readsAssigned table assigned &&
            match routine.step table { progress with pc := progress.pc + 1 } quad with
            | .error _ => true
            | .ok (.proceed progress) =>
                routine.isTidy table callee calleeIsTidy steps (quad.assignedAfter table assigned)
                  (returned || quad.op == .ret) progress
            | .ok (.call function arguments progress) =>
                calleeIsTidy function arguments &&
                  match (callee function arguments).result with
                  | .error _ => true
                  | .ok value =>
                      match receive table progress quad value with
                      | .error _ => true
                      | .ok progress =>
                          routine.isTidy table callee calleeIsTidy steps
                            (quad.assignedAfter table assigned) returned progress

/-- All activations of a call are tidy. -/
def Code.isTidyWithin (code : Code) (table : Table) (steps : Nat) :
    (depth : Nat) → String → List Int32 → Bool
  | 0, _, _ => true
  | depth + 1, function, arguments =>
      match code.enter table function arguments with
      | .error _ => true
      | .ok (routine, progress) =>
          routine.isTidy table (code.callWithin table steps depth)
            (code.isTidyWithin table steps depth) steps [] false progress

/-- In a run of a compiled program no activation reads a variable of the source before assigning it,
and every activation that ends does so by a return. -/
def Compilation.isTidy (compilation : Compilation) (function : String) (arguments : List Int32) :
    Bool :=
  compilation.code.isTidyWithin compilation.table (compilation.code.size + 1) maxCallDepth function
    arguments

/-! ## Temporaries -/

/-- The names that were written since the last mark, with the scopes of the quadruples. -/
def Quad.supplies (names : List (ScopeId × String)) (quad : Quad) : List (ScopeId × String) :=
  if quad.op = .label then [] else (quad.written?.map (quad.scope, ·)).toList ++ names

def suppliedBy (names : List (ScopeId × String)) (code : List Quad) : List (ScopeId × String) :=
  code.foldl Quad.supplies names

/-- Every temporary that is read was written since the last mark, if `names` were so before. -/
def Supplied : (names : List (ScopeId × String)) → List Quad → Prop
  | _, [] => True
  | names, quad :: code =>
      (∀ name ∈ quad.reads, isTemporary name → (quad.scope, name) ∈ names) ∧
        Supplied (quad.supplies names) code

theorem suppliedBy_append (names : List (ScopeId × String)) (first second : List Quad) :
    suppliedBy names (first ++ second) = suppliedBy (suppliedBy names first) second :=
  List.foldl_append

theorem supplied_append {names : List (ScopeId × String)} {first second : List Quad} :
    Supplied names (first ++ second) ↔
      Supplied names first ∧ Supplied (suppliedBy names first) second := by
  induction first generalizing names with
  | nil => exact ⟨fun supplied => ⟨trivial, supplied⟩, fun both => both.2⟩
  | cons quad first ih =>
    rw [List.cons_append, Supplied, Supplied, ih, and_assoc]
    rfl

/-- A quadruple in the middle reads what was supplied before it. -/
theorem Supplied.reads {code : List Quad} (supplied : Supplied [] code) {index : Nat} {quad : Quad}
    (found : code[index]? = some quad) {name : String} (read : name ∈ quad.reads)
    (temporary : isTemporary name) : (quad.scope, name) ∈ suppliedBy [] (code.take index) := by
  rw [split_at found, supplied_append] at supplied
  exact supplied.2.1 name read temporary

namespace Node

variable {names : List (ScopeId × String)} {scope : ScopeId}

/-- The code of expressions, whose values are in `values` after it. -/
structure Gives (names : List (ScopeId × String)) (scope : ScopeId) (code : List Quad)
    (values : List String) : Prop where
  supplied : Supplied names code
  keeps : ∀ pair ∈ names, pair ∈ suppliedBy names code
  given : ∀ name ∈ values, isTemporary name → (scope, name) ∈ suppliedBy names code

namespace Gives

variable {first second : List Quad} {values values' : List String}

theorem nothing (names : List (ScopeId × String)) (scope : ScopeId)
    (notTemporary : ∀ name ∈ values, ¬ isTemporary name) : Gives names scope [] values :=
  ⟨trivial, fun _ member => member, fun name member temporary =>
    absurd temporary (notTemporary name member)⟩

theorem append (gives : Gives names scope first values)
    (gives' : Gives (suppliedBy names first) scope second values') :
    Gives names scope (first ++ second) (values ++ values') where
  supplied := supplied_append.2 ⟨gives.supplied, gives'.supplied⟩
  keeps := by
    intro pair member
    rw [suppliedBy_append]
    exact gives'.keeps pair (gives.keeps pair member)
  given := by
    intro name member temporary
    rw [suppliedBy_append]
    rcases List.mem_append.1 member with early | late
    · exact gives'.keeps _ (gives.given name early temporary)
    · exact gives'.given name late temporary

/-- A quadruple that computes with the values and writes its result. -/
theorem write (gives : Gives names scope first values) {quad : Quad} {result : String}
    (noLabel : quad.op ≠ .label) (isScope : quad.scope = scope)
    (reads : ∀ name ∈ quad.reads, name ∈ values) (writes : quad.written? = some result) :
    Gives names scope (first ++ [quad]) [result] := by
  have supplies (pairs : List (ScopeId × String)) : quad.supplies pairs = (scope, result) :: pairs := by
    rw [Quad.supplies, if_neg noLabel, writes, isScope]
    rfl
  refine ⟨supplied_append.2 ⟨gives.supplied, ?_, trivial⟩, ?_, ?_⟩
  · intro name read temporary
    rw [isScope]
    exact gives.given name (reads name read) temporary
  · intro pair member
    rw [suppliedBy_append]
    show pair ∈ quad.supplies (suppliedBy names first)
    rw [supplies]
    exact List.mem_cons_of_mem _ (gives.keeps pair member)
  · intro name member _
    obtain rfl := List.mem_singleton.1 member
    rw [suppliedBy_append]
    show _ ∈ quad.supplies (suppliedBy names first)
    rw [supplies]
    exact List.mem_cons_self

/-- A quadruple that uses the values and writes nothing, with more code behind it. -/
theorem use (gives : Gives names scope first values) {quad : Quad} {rest : List Quad}
    (isScope : quad.scope = scope) (reads : ∀ name ∈ quad.reads, name ∈ values)
    (later : ∀ names, Supplied names rest) : Supplied names (first ++ quad :: rest) := by
  refine supplied_append.2 ⟨gives.supplied, ?_, later _⟩
  intro name read temporary
  rw [isScope]
  exact gives.given name (reads name read) temporary

end Gives

theorem suppliedBy_pushes (values : List String) (scope : ScopeId) :
    suppliedBy names (values.map (Quad.param · scope)) = names := by
  induction values with
  | nil => rfl
  | cons value values ih => exact ih

theorem supplied_pushes {values : List String}
    (supplied : ∀ name ∈ values, isTemporary name → (scope, name) ∈ names) :
    Supplied names (values.map (Quad.param · scope)) := by
  induction values with
  | nil => trivial
  | cons value values ih =>
    obtain ⟨first, later⟩ := List.forall_mem_cons.1 supplied
    refine ⟨fun name read temporary => ?_, ih later⟩
    obtain rfl := List.mem_singleton.1 read
    exact first temporary

theorem supplied_mark (label : Label) (scope : ScopeId) {rest : List Quad}
    (later : Supplied [] rest) : Supplied names (.mark label scope :: rest) :=
  ⟨fun _ read => absurd read List.not_mem_nil, later⟩

theorem supplied_jump (label : Label) (scope : ScopeId) {rest : List Quad}
    (later : Supplied names rest) : Supplied names (.jump label scope :: rest) :=
  ⟨fun _ read => absurd read List.not_mem_nil, later⟩

theorem reads_unary (op : UnaryOp) (operand result : String) (scope : ScopeId) :
    (Quad.unary op operand result scope).reads = [operand] := by
  cases op <;> rfl

theorem reads_binary (op : BinaryOp) (lhs rhs result : String) (scope : ScopeId) :
    (Quad.binary op lhs rhs result scope).reads = [lhs, rhs] := by
  cases op <;> rfl

theorem written?_unary (op : UnaryOp) (operand result : String) (scope : ScopeId) :
    (Quad.unary op operand result scope).written? = some result := by
  cases op <;> rfl

theorem written?_binary (op : BinaryOp) (lhs rhs result : String) (scope : ScopeId) :
    (Quad.binary op lhs rhs result scope).written? = some result := by
  cases op <;> rfl

theorem op_unary_ne (op : UnaryOp) (operand result : String) (scope : ScopeId) :
    (Quad.unary op operand result scope).op ≠ .label := by
  cases op <;> exact Opcode.noConfusion

theorem op_binary_ne (op : BinaryOp) (lhs rhs result : String) (scope : ScopeId) :
    (Quad.binary op lhs rhs result scope).op ≠ .label := by
  cases op <;> exact Opcode.noConfusion

mutual
theorem value_gives : (node : Node) → ∀ ⦃next : Nat⦄ ⦃names : List (ScopeId × String)⦄,
    node.ValueIn scope → node.ValueIntegral →
    Gives names scope (node.valueCode scope next) [node.valueName next]
  | identifier info name => by
    rintro next names ⟨_, isName⟩ _
    refine .nothing names scope fun other member => ?_
    obtain rfl := List.mem_singleton.1 member
    exact isName.not_isTemporary
  | integer info value => by
    intro next names _ _
    have nothing : Gives names scope [] [] := .nothing names scope fun _ member =>
      absurd member List.not_mem_nil
    show Gives names scope ([] ++ [Quad.load value (temporaryName next) scope]) [temporaryName next]
    exact nothing.write Opcode.noConfusion rfl (fun _ member => absurd member List.not_mem_nil) rfl
  | unary info op operand => by
    rintro next names ⟨_, inScope⟩ integral
    refine (value_gives operand inScope integral).write (op_unary_ne _ _ _ _) rfl ?_ (written?_unary ..)
    intro name read
    rwa [reads_unary] at read
  | binary info op lhs rhs => by
    rintro next names ⟨_, inScope, inScope'⟩ ⟨integral, integral'⟩
    rw [valueCode, ← List.append_assoc]
    refine ((value_gives lhs inScope integral).append (value_gives rhs inScope' integral')).write
      (op_binary_ne _ _ _ _ _) rfl ?_ (written?_binary ..)
    intro name read
    rwa [reads_binary] at read
  | call info callee arguments => by
    rintro next names ⟨_, _, inScope⟩ integral
    have gives : Gives names scope (valueCodes scope next arguments) (valueNames next arguments) :=
      values_give arguments inScope integral
    rw [valueCode, ← List.append_assoc]
    have pushes : Supplied (suppliedBy names (valueCodes scope next arguments))
        ((valueNames next arguments).reverse.map (Quad.param · scope)) :=
      supplied_pushes fun name member => gives.given name (List.mem_reverse.1 member)
    have pushed : Gives names scope (valueCodes scope next arguments ++
        (valueNames next arguments).reverse.map (Quad.param · scope)) [] := by
      refine ⟨supplied_append.2 ⟨gives.supplied, pushes⟩, ?_, ?_⟩
      · rw [suppliedBy_append, suppliedBy_pushes]
        exact gives.keeps
      · exact fun _ member => absurd member List.not_mem_nil
    exact pushed.write Opcode.noConfusion rfl (fun _ read => read) rfl
  | real .. => fun _ _ _ integral => integral.elim
  | empty .. | program .. | function .. | parameter .. | returnValue .. | block .. | declaration ..
  | assignment .. | ifThen .. | ifElse .. => fun _ _ inScope => inScope.elim
theorem values_give : (nodes : List Node) → ∀ ⦃next : Nat⦄ ⦃names : List (ScopeId × String)⦄,
    ValuesIn scope nodes → ValuesIntegral nodes →
    Gives names scope (valueCodes scope next nodes) (valueNames next nodes)
  | [] => fun _ names _ _ => .nothing names scope fun _ member => absurd member List.not_mem_nil
  | node :: nodes => fun _ _ ⟨inScope, inScope'⟩ ⟨integral, integral'⟩ =>
    (value_gives node inScope integral).append (values_give nodes inScope' integral')
end

mutual
theorem statement_supplied (table : Table) (top : ScopeId) (exit : Label) : (node : Node) →
    ∀ ⦃scope : ScopeId⦄ ⦃layout : Layout⦄ ⦃count next label : Nat⦄
      ⦃names : List (ScopeId × String)⦄,
    node.ScopedIn table top scope layout count → node.StatementIntegral →
    Supplied names (node.statementCode exit scope next label)
  | block info declarations statements => by
    rintro scope layout count next label names ⟨inner, attached, _, _, _, placed⟩ ⟨_, integral⟩
    rw [statementCode, attached]
    exact statements_supplied table top exit statements placed integral
  | returnValue info value => by
    rintro scope layout count next label names ⟨_, inScope⟩ integral
    exact (value_gives value inScope integral).use rfl (fun _ read => read) fun _ => trivial
  | assignment info target value => by
    rintro scope layout count next label names ⟨_, _, inScope⟩ integral
    exact (value_gives value inScope integral).use rfl (fun _ read => read) fun _ => trivial
  | ifThen info condition consequent => by
    rintro scope layout count next label names ⟨_, inScope, placed⟩ ⟨integral, integral'⟩
    refine (value_gives condition inScope integral).use rfl (fun _ read => read) fun names => ?_
    refine supplied_append.2 ⟨?_, supplied_mark _ _ trivial⟩
    exact statement_supplied table top exit consequent placed integral'
  | ifElse info condition consequent alternative => by
    rintro scope layout count next label names ⟨_, inScope, placed, placed'⟩
      ⟨integral, integral', integral''⟩
    refine (value_gives condition inScope integral).use rfl (fun _ read => read) fun names => ?_
    refine supplied_append.2 ⟨?_, supplied_jump _ _ (supplied_mark _ _ ?_)⟩
    · exact statement_supplied table top exit consequent placed integral'
    · refine supplied_append.2 ⟨?_, supplied_mark _ _ trivial⟩
      exact statement_supplied table top exit alternative placed' integral''
  | empty .. | program .. | function .. | parameter .. | call .. | declaration .. | binary ..
  | unary .. | identifier .. | integer .. | real .. => fun _ _ _ _ _ _ _ _ => trivial
theorem statements_supplied (table : Table) (top : ScopeId) (exit : Label) : (nodes : List Node) →
    ∀ ⦃scope : ScopeId⦄ ⦃layout : Layout⦄ ⦃count next label : Nat⦄
      ⦃names : List (ScopeId × String)⦄,
    ScopedAll table top scope layout count nodes → StatementsIntegral nodes →
    Supplied names (statementsCode exit scope next label nodes)
  | [] => fun _ _ _ _ _ _ _ _ => trivial
  | node :: nodes => by
    rintro scope layout count next label names ⟨placed, placed'⟩ ⟨integral, integral'⟩
    refine supplied_append.2 ⟨?_, ?_⟩
    · exact statement_supplied table top exit node placed integral
    · exact statements_supplied table top exit nodes placed' integral'
end

end Node

/-- A function that was lowered reads no temporary before writing it. -/
theorem Lowering.Has.supplied {state : Lowering} {name : String} {parameters : List Node}
    {body : Node} {top : ScopeId} {next label : Nat}
    (has : state.Has name parameters body top next label) :
    Supplied [] (body.functionCode top next label) :=
  supplied_append.2 ⟨Node.statement_supplied state.table top ⟨label⟩ body has.placed has.integral,
    Node.supplied_mark _ _ trivial⟩

end MiniC
