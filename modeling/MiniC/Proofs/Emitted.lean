import MiniC.Assembly.Emission
import MiniC.Proofs.Simulation

/-!
# Quadruples whose names are resolved

Every quadruple of a lowered function names places of its frame and calls functions of the program,
and a return leads to the one exit. So there is assembly for all of them.
-/

namespace MiniC

open Lower (temporaryName)

/-- A quadruple of a function with that exit, all names of which are places of a frame with so many
parameters and variables. -/
inductive Quad.Resolved (table : Table) (arity slots : Nat) (functions : String → Option Nat)
    (exit : Label) : Quad → Prop
  | load {result : String} {scope : ScopeId} {slot : Slot} (value : Int32) :
      table.Stores arity slots scope result slot →
      Resolved table arity slots functions exit (.load value result scope)
  | assign {source target : String} {scope : ScopeId} {slot slot' : Slot} :
      table.Stores arity slots scope source slot → table.Stores arity slots scope target slot' →
      Resolved table arity slots functions exit (.assign source target scope)
  | unary {operand result : String} {scope : ScopeId} {slot slot' : Slot} (op : UnaryOp) :
      table.Stores arity slots scope operand slot → table.Stores arity slots scope result slot' →
      Resolved table arity slots functions exit (.unary op operand result scope)
  | binary {lhs rhs result : String} {scope : ScopeId} {slot slot' slot'' : Slot} (op : BinaryOp) :
      table.Stores arity slots scope lhs slot → table.Stores arity slots scope rhs slot' →
      table.Stores arity slots scope result slot'' →
      Resolved table arity slots functions exit (.binary op lhs rhs result scope)
  | param {value : String} {scope : ScopeId} {slot : Slot} :
      table.Stores arity slots scope value slot →
      Resolved table arity slots functions exit (.param value scope)
  | call {callee result : String} {count : Nat} {scope : ScopeId} {slot : Slot} :
      functions callee = some count → table.Stores arity slots scope result slot →
      Resolved table arity slots functions exit (.call callee count result scope)
  | ret {value : String} {scope : ScopeId} {slot : Slot} :
      table.Stores arity slots scope value slot →
      Resolved table arity slots functions exit (.ret exit value scope)
  | mark (label : Label) (scope : ScopeId) :
      Resolved table arity slots functions exit (.mark label scope)
  | jump (label : Label) (scope : ScopeId) :
      Resolved table arity slots functions exit (.jump label scope)
  | jumpIfNot {condition : String} {scope : ScopeId} {slot : Slot} (label : Label) :
      table.Stores arity slots scope condition slot →
      Resolved table arity slots functions exit (.jumpIfNot condition label scope)

theorem Quad.Resolved.marked {table : Table} {arity slots : Nat} {functions : String → Option Nat}
    {exit : Label} {quad : Quad} (resolved : quad.Resolved table arity slots functions exit)
    (isLabel : quad.op = .label) : quad.marked?.isSome := by
  cases resolved with
  | mark label scope => rfl
  | unary op => cases op <;> cases isLabel
  | binary op => cases op <;> cases isLabel
  | _ => cases isLabel

/-! ## The code of a tree is resolved -/

namespace Node

variable {table : Table} {arity locals temporaries first : Nat} {functions : String → Option Nat}
  {exit : Label}

section Values

variable {scope : ScopeId} {layout : Layout}

mutual
theorem value_resolved (view : View table arity locals temporaries first scope layout) :
    (node : Node) → ∀ ⦃i : Nat⦄, node.ValueIn scope → node.ValueIntegral →
    node.ValueNamed functions layout.names → i + node.temporaryCount ≤ temporaries →
    ∀ quad ∈ node.valueCode scope (first + i),
      quad.Resolved table arity (locals + temporaries) functions exit
  | integer info value => by
    intro i _ _ _ lt quad member
    obtain rfl := List.mem_singleton.1 member
    exact .load value (view.target lt rfl)
  | unary info op operand => by
    rintro i ⟨_, inScope⟩ integral named most quad member
    have lt : i + operand.temporaryCount < temporaries := most
    have le : i + operand.temporaryCount ≤ temporaries := Nat.le_of_lt lt
    rw [valueCode] at member
    rcases List.mem_append.1 member with inner | last
    · exact value_resolved view operand inScope integral named le quad inner
    · obtain rfl := List.mem_singleton.1 last
      obtain ⟨slot, stored⟩ := view.stored_value inScope integral named le
      exact .unary op (stored.mono (Nat.add_le_add_left le locals))
        (view.target lt (by rw [valueName, Nat.add_assoc]))
  | binary info op lhs rhs => by
    rintro i ⟨_, inScope, inScope'⟩ ⟨integral, integral'⟩ ⟨named, named'⟩ le quad member
    have lt : i + (lhs.temporaryCount + rhs.temporaryCount) < temporaries := le
    have le₁ : i + lhs.temporaryCount ≤ temporaries := by omega
    have le₂ : i + lhs.temporaryCount + rhs.temporaryCount ≤ temporaries := by omega
    rw [valueCode, Nat.add_assoc first] at member
    rcases List.mem_append.1 member with inner | rest
    · exact value_resolved view lhs inScope integral named le₁ quad inner
    rcases List.mem_append.1 rest with inner | last
    · exact value_resolved view rhs inScope' integral' named' le₂ quad inner
    · obtain rfl := List.mem_singleton.1 last
      obtain ⟨slot, stored⟩ := view.stored_value inScope integral named le₁
      obtain ⟨slot', stored'⟩ := view.stored_value inScope' integral' named' le₂
      refine .binary op (stored.mono (Nat.add_le_add_left le₁ locals))
        (stored'.mono (Nat.add_le_add_left le₂ locals)) (view.target lt ?_)
      rw [valueName, Nat.add_assoc first, Nat.add_assoc first, Nat.add_assoc i]
  | call info callee arguments => by
    rintro i ⟨_, calleeIn, inScope⟩ integral named most quad member
    have lt : i + temporaryCounts arguments < temporaries := most
    have le : i + temporaryCounts arguments ≤ temporaries := Nat.le_of_lt lt
    cases callee with
    | identifier calleeInfo name =>
      obtain ⟨arity, named⟩ := named
      obtain ⟨inner, stored⟩ := values_resolved view arguments inScope integral named le
      rw [valueCode] at member
      rcases List.mem_append.1 member with isInner | rest
      · exact inner quad isInner
      rcases List.mem_append.1 rest with push | last
      · obtain ⟨value, inNames, rfl⟩ := List.mem_map.1 push
        obtain ⟨slot, isStored⟩ := stored value (List.mem_reverse.1 inNames)
        exact .param isStored
      · obtain rfl := List.mem_singleton.1 last
        exact .call arity (view.target lt (by rw [valueName, Nat.add_assoc]))
    | _ => exact calleeIn.elim
  | identifier .. | real .. | empty .. | program .. | function .. | parameter .. | returnValue ..
  | block .. | declaration .. | assignment .. | ifThen .. | ifElse .. =>
    fun _ _ _ _ _ _ member => absurd member List.not_mem_nil
theorem values_resolved (view : View table arity locals temporaries first scope layout) :
    (nodes : List Node) → ∀ ⦃i : Nat⦄, ValuesIn scope nodes → ValuesIntegral nodes →
    ValuesNamed functions layout.names nodes → i + temporaryCounts nodes ≤ temporaries →
    (∀ quad ∈ valueCodes scope (first + i) nodes,
      quad.Resolved table arity (locals + temporaries) functions exit) ∧
    ∀ name ∈ valueNames (first + i) nodes,
      ∃ slot, table.Stores arity (locals + temporaries) scope name slot
  | [] => fun _ _ _ _ _ =>
    ⟨fun _ member => absurd member List.not_mem_nil, fun _ member => absurd member List.not_mem_nil⟩
  | node :: nodes => by
    rintro i ⟨inScope, inScope'⟩ ⟨integral, integral'⟩ ⟨named, named'⟩ le
    rw [temporaryCounts] at le
    have le₁ : i + node.temporaryCount ≤ temporaries := by omega
    have le₂ : i + node.temporaryCount + temporaryCounts nodes ≤ temporaries := by omega
    obtain ⟨rest, restStored⟩ := values_resolved view nodes inScope' integral' named' le₂
    rw [valueCodes, valueNames, Nat.add_assoc first]
    constructor
    · intro quad member
      rcases List.mem_append.1 member with inner | later
      · exact value_resolved view node inScope integral named le₁ quad inner
      · exact rest quad later
    · intro name member
      rcases List.mem_cons.1 member with rfl | later
      · obtain ⟨slot, stored⟩ := view.stored_value inScope integral named le₁
        exact ⟨slot, stored.mono (Nat.add_le_add_left le₁ locals)⟩
      · exact restStored name later
end

end Values

/-- The test of a condition, and the jump behind it. -/
theorem test_resolved {scope : ScopeId} {layout : Layout}
    (view : View table arity locals temporaries first scope layout) {condition : Node} {i : Nat}
    (inScope : condition.ValueIn scope) (integral : condition.ValueIntegral)
    (named : condition.ValueNamed functions layout.names)
    (le : i + condition.temporaryCount ≤ temporaries) (label : Label) {rest : List Quad}
    (resolved : ∀ quad ∈ rest, quad.Resolved table arity (locals + temporaries) functions exit) :
    ∀ quad ∈ condition.valueCode scope (first + i) ++
        .jumpIfNot (condition.valueName (first + i)) label scope :: rest,
      quad.Resolved table arity (locals + temporaries) functions exit := by
  intro quad member
  rcases List.mem_append.1 member with test | member
  · exact value_resolved view condition inScope integral named le quad test
  rcases List.mem_cons.1 member with rfl | member
  · obtain ⟨slot, stored⟩ := view.stored_value inScope integral named le
    exact .jumpIfNot _ (stored.mono (Nat.add_le_add_left le locals))
  · exact resolved quad member

mutual
theorem statement_resolved {top : ScopeId}
    (known : table.Temporaries top locals temporaries first) : (node : Node) →
    ∀ ⦃scope : ScopeId⦄ ⦃layout : Layout⦄ ⦃count i label : Nat⦄,
    node.Housed table functions arity locals temporaries top scope layout count i →
    ∀ quad ∈ node.statementCode exit scope (first + i) label,
      quad.Resolved table arity (locals + temporaries) functions exit
  | returnValue info value => by
    intro scope layout count i label housed quad member
    have view := housed.view known
    obtain ⟨⟨_, inScope⟩, integral, named, _, _, _, _, le⟩ := housed
    rw [statementCode] at member
    rcases List.mem_append.1 member with inner | last
    · exact value_resolved view value inScope integral named le quad inner
    · obtain rfl := List.mem_singleton.1 last
      obtain ⟨slot, stored⟩ := view.stored_value inScope integral named le
      exact .ret (stored.mono (Nat.add_le_add_left le locals))
  | assignment info target value => by
    intro scope layout count i label housed quad member
    have view := housed.view known
    obtain ⟨⟨_, isName, inScope⟩, integral, ⟨inSight, named⟩, _, _, _, _, le⟩ := housed
    rw [statementCode] at member
    rcases List.mem_append.1 member with inner | last
    · exact value_resolved view value inScope integral named le quad inner
    · obtain rfl := List.mem_singleton.1 last
      obtain ⟨slot, stored⟩ := view.stored_value inScope integral named le
      obtain ⟨slot', _, stored'⟩ := view.stored_name isName inSight
      exact .assign (stored.mono (Nat.add_le_add_left le locals))
        (stored'.mono (Nat.le_add_right _ _))
  | block info declarations statements => by
    intro scope layout count i label housed quad member
    obtain ⟨inner, attached, _, inside⟩ := housed.block
    rw [statementCode, attached, Option.getD_some] at member
    exact statements_resolved known statements inside quad member
  | ifThen info condition consequent => by
    intro scope layout count i label housed
    obtain ⟨_, inScope, _⟩ := housed.placed
    have le := housed.leTemporaries
    rw [temporaryCount] at le
    rw [statementCode, Nat.add_assoc first]
    refine test_resolved (housed.view known) inScope housed.integral.1 housed.named.1 (by omega) _
      fun quad member => ?_
    rcases List.mem_append.1 member with positive | last
    · exact statement_resolved known consequent housed.ifThen_consequent quad positive
    · obtain rfl := List.mem_singleton.1 last
      exact .mark _ _
  | ifElse info condition consequent alternative => by
    intro scope layout count i label housed
    obtain ⟨_, inScope, _⟩ := housed.placed
    have le := housed.leTemporaries
    rw [temporaryCount] at le
    rw [statementCode, Nat.add_assoc first, Nat.add_assoc first]
    refine test_resolved (housed.view known) inScope housed.integral.1 housed.named.1 (by omega) _
      fun quad member => ?_
    rcases List.mem_append.1 member with positive | member
    · exact statement_resolved known consequent housed.ifElse_consequent quad positive
    rcases List.mem_cons.1 member with rfl | member
    · exact .jump _ _
    rcases List.mem_cons.1 member with rfl | member
    · exact .mark _ _
    rcases List.mem_append.1 member with negative | last
    · exact statement_resolved known alternative housed.ifElse_alternative quad negative
    · obtain rfl := List.mem_singleton.1 last
      exact .mark _ _
  | empty .. | program .. | function .. | parameter .. | call .. | declaration .. | binary ..
  | unary .. | identifier .. | integer .. | real .. =>
    fun _ _ _ _ _ _ _ member => absurd member List.not_mem_nil
theorem statements_resolved {top : ScopeId}
    (known : table.Temporaries top locals temporaries first) : (nodes : List Node) →
    ∀ ⦃scope : ScopeId⦄ ⦃layout : Layout⦄ ⦃count i label : Nat⦄,
    HousedAll table functions arity locals temporaries top scope layout count i nodes →
    ∀ quad ∈ statementsCode exit scope (first + i) label nodes,
      quad.Resolved table arity (locals + temporaries) functions exit
  | [] => fun _ _ _ _ _ _ _ member => absurd member List.not_mem_nil
  | node :: nodes => by
    intro scope layout count i label housed quad member
    rw [statementsCode, Nat.add_assoc first] at member
    rcases List.mem_append.1 member with inner | later
    · exact statement_resolved known node housed.head quad inner
    · exact statements_resolved known nodes housed.tail quad later
end

end Node

/-! ## Functions that were lowered -/

namespace Lowering.Has

variable {state : Lowering} {name : String} {parameters : List Node} {body : Node} {top : ScopeId}
  {next label : Nat} {functions : String → Option Nat}

theorem below (has : state.Has name parameters body top next label) :
    Layout.Below parameters.length 0 (Node.parameterLayout parameters) := by
  rw [← length_declaredNames fun node member => .inr (has.areParameters node member)]
  exact Layout.below_parameters parameters

/-- A function has room for the variables and the temporaries of its body. -/
theorem housed (has : state.Has name parameters body top next label)
    (named : body.StatementNamed functions (Node.parameterLayout parameters).names) :
    body.Housed state.table functions parameters.length body.localCount body.temporaryCount top top
      (Node.parameterLayout parameters) 0 0 where
  placed := has.placed
  integral := has.integral
  named := named
  lays := has.lays
  reaches := .refl top
  below := has.below
  leLocals := Nat.le_of_eq (Nat.zero_add _)
  leTemporaries := Nat.le_of_eq (Nat.zero_add _)

/-- All quadruples of a function are resolved. -/
theorem resolved (has : state.Has name parameters body top next label)
    (named : body.StatementNamed functions (Node.parameterLayout parameters).names) :
    ∀ quad ∈ body.functionCode top next label,
      quad.Resolved state.table parameters.length (body.localCount + body.temporaryCount) functions
        ⟨label⟩ := by
  intro quad member
  rcases List.mem_append.1 member with inner | last
  · exact Node.statement_resolved has.temporaries body (has.housed named) quad inner
  · obtain rfl := List.mem_singleton.1 last
    exact .mark _ _

end Lowering.Has

/-! ## Assembly -/

namespace Assembly

variable {table : Table} {arity slots : Nat} {functions : String → Option Nat} {exit : Label}

theorem address_eq {quad : Quad} {field : Field} {name : String} {slot : Slot}
    (named : quad.field? field = some (.name name))
    (found : table.slotAt quad.scope name = some slot) :
    address table quad field = .ok (.frame (slotOffset slot)) := by
  obtain ⟨symbol, known, stored⟩ := Option.bind_eq_some_iff.1 found
  unfold address Quad.name
  rw [named, ok_bind, known]
  dsimp only
  rw [stored]
  rfl

/-- The instructions of an operator with one operand, which is at `source`. -/
def unaryInstructions (op : UnaryOp) (source target : Int) : List Instruction :=
  [.movl (.frame source) (.register .eax)] ++
    (match op with
      | .plus => []
      | .minus => [.negl .eax]) ++
    [.movl (.register .eax) (.frame target)]

/-- The instructions of an operator with two operands. -/
def binaryInstructions (op : BinaryOp) (lhs rhs target : Int) : List Instruction :=
  match op with
  | .add => [.movl (.frame rhs) (.register .edx), .movl (.frame lhs) (.register .eax),
      .addl .edx .eax, .movl (.register .eax) (.frame target)]
  | .sub => [.movl (.frame rhs) (.register .edx), .movl (.frame lhs) (.register .eax),
      .subl .edx .eax, .movl (.register .eax) (.frame target)]
  | .mul => [.movl (.frame rhs) (.register .edx), .movl (.frame lhs) (.register .eax),
      .imull .edx .eax, .movl (.register .eax) (.frame target)]
  | .div => [.movl (.frame lhs) (.register .eax), .cltd, .movl (.frame rhs) (.register .ecx),
      .idivl .ecx, .movl (.register .eax) (.frame target)]

/-- The instructions of a call, which takes the arguments from the stack. -/
def callInstructions (callee : String) (count : Nat) (target : Int) : List Instruction :=
  [.call callee] ++ (if count = 0 then [] else [.addq (count * argumentSize) .rsp]) ++
    [.movl (.register .eax) (.frame target)]

section Lines

variable {scope : ScopeId} {slot slot' slot'' : Slot}

theorem ofQuad_load (value : Int32) {result : String}
    (stored : table.Stores arity slots scope result slot) :
    ofQuad table (.load value result scope) =
      .ok (instructions [.movl (.immediate value.toInt) (.frame (slotOffset slot))]) := by
  simp only [ofQuad, Quad.load, Quad.constant, Quad.field?, ok_bind]
  rw [address_eq rfl stored.1]
  rfl

theorem ofQuad_assign {source target : String}
    (stored : table.Stores arity slots scope source slot)
    (stored' : table.Stores arity slots scope target slot') :
    ofQuad table (.assign source target scope) =
      .ok (instructions [.movl (.frame (slotOffset slot)) (.register .eax),
        .movl (.register .eax) (.frame (slotOffset slot'))]) := by
  simp only [ofQuad, Quad.assign, through]
  rw [address_eq rfl stored.1, address_eq rfl stored'.1]
  rfl

theorem ofQuad_unary (op : UnaryOp) {operand result : String}
    (stored : table.Stores arity slots scope operand slot)
    (stored' : table.Stores arity slots scope result slot') :
    ofQuad table (.unary op operand result scope) =
      .ok (instructions (unaryInstructions op (slotOffset slot) (slotOffset slot'))) := by
  cases op <;>
  · simp only [ofQuad, Quad.unary, Opcode.ofUnary, through]
    rw [address_eq rfl stored.1, address_eq rfl stored'.1]
    rfl

theorem ofQuad_binary (op : BinaryOp) {lhs rhs result : String}
    (stored : table.Stores arity slots scope lhs slot)
    (stored' : table.Stores arity slots scope rhs slot')
    (stored'' : table.Stores arity slots scope result slot'') :
    ofQuad table (.binary op lhs rhs result scope) = .ok (instructions
      (binaryInstructions op (slotOffset slot) (slotOffset slot') (slotOffset slot''))) := by
  cases op <;>
  · simp only [ofQuad, Quad.binary, Opcode.ofBinary, operation]
    rw [address_eq rfl stored.1, address_eq rfl stored'.1, address_eq rfl stored''.1]
    rfl

theorem ofQuad_param {value : String} (stored : table.Stores arity slots scope value slot) :
    ofQuad table (.param value scope) =
      .ok (instructions [.movl (.frame (slotOffset slot)) (.register .eax), .pushq .rax]) := by
  simp only [ofQuad, Quad.param]
  rw [address_eq rfl stored.1]
  rfl

theorem ofQuad_call {callee result : String} (count : Nat)
    (isFunction : isGlobalFunction table callee)
    (stored : table.Stores arity slots scope result slot) :
    ofQuad table (.call callee count result scope) =
      .ok (instructions (callInstructions callee count (slotOffset slot))) := by
  simp only [ofQuad, Quad.call, Quad.name, Quad.count, Quad.field?, ok_bind]
  rw [address_eq rfl stored.1, isFunction]
  rfl

theorem ofQuad_ret (exit : Label) {value : String}
    (stored : table.Stores arity slots scope value slot) :
    ofQuad table (.ret exit value scope) =
      .ok (instructions [.movl (.frame (slotOffset slot)) (.register .eax), .jmp exit]) := by
  simp only [ofQuad, Quad.ret, Quad.label, Quad.field?, ok_bind]
  rw [address_eq rfl stored.1]
  rfl

theorem ofQuad_jumpIfNot (label : Label) {condition : String}
    (stored : table.Stores arity slots scope condition slot) :
    ofQuad table (.jumpIfNot condition label scope) =
      .ok (instructions [.movl (.frame (slotOffset slot)) (.register .eax), .cmpl 0 .eax,
        .je label]) := by
  simp only [ofQuad, Quad.jumpIfNot]
  rw [address_eq rfl stored.1]
  rfl

end Lines

end Assembly

open Assembly (Line instructions unaryInstructions binaryInstructions callInstructions ofQuad)

/-- The lines of a quadruple whose operands are at some offsets from the base of the frame. What is
called is one of `functions`. -/
inductive Quad.Emits (functions : String → Option Nat) : Quad → List Line → Prop
  | load (value : Int32) (result : String) (scope : ScopeId) (target : Int) :
      Emits functions (.load value result scope)
        (instructions [.movl (.immediate value.toInt) (.frame target)])
  | assign (name result : String) (scope : ScopeId) (source target : Int) :
      Emits functions (.assign name result scope)
        (instructions [.movl (.frame source) (.register .eax),
          .movl (.register .eax) (.frame target)])
  | unary (op : UnaryOp) (operand result : String) (scope : ScopeId) (source target : Int) :
      Emits functions (.unary op operand result scope)
        (instructions (unaryInstructions op source target))
  | binary (op : BinaryOp) (lhs rhs result : String) (scope : ScopeId)
      (source source' target : Int) :
      Emits functions (.binary op lhs rhs result scope)
        (instructions (binaryInstructions op source source' target))
  | param (value : String) (scope : ScopeId) (source : Int) :
      Emits functions (.param value scope)
        (instructions [.movl (.frame source) (.register .eax), .pushq .rax])
  | call {callee : String} {count : Nat} (isKnown : functions callee = some count)
      (result : String) (scope : ScopeId) (target : Int) :
      Emits functions (.call callee count result scope)
        (instructions (callInstructions callee count target))
  | ret (exit : Label) (value : String) (scope : ScopeId) (source : Int) :
      Emits functions (.ret exit value scope)
        (instructions [.movl (.frame source) (.register .eax), .jmp exit])
  | mark (label : Label) (scope : ScopeId) : Emits functions (.mark label scope) [.label label]
  | jump (label : Label) (scope : ScopeId) :
      Emits functions (.jump label scope) (instructions [.jmp label])
  | jumpIfNot (condition : String) (label : Label) (scope : ScopeId) (source : Int) :
      Emits functions (.jumpIfNot condition label scope)
        (instructions [.movl (.frame source) (.register .eax), .cmpl 0 .eax, .je label])

namespace Assembly

variable {table : Table} {arity slots : Nat} {functions : String → Option Nat} {exit : Label}

/-- There are lines for every resolved quadruple. -/
theorem exists_ofQuad {quad : Quad} (resolved : quad.Resolved table arity slots functions exit)
    (known : ∀ {callee count}, functions callee = some count → isGlobalFunction table callee) :
    ∃ lines, ofQuad table quad = .ok lines ∧ quad.Emits functions lines := by
  cases resolved with
  | load value stored => exact ⟨_, ofQuad_load value stored, .load ..⟩
  | assign stored stored' => exact ⟨_, ofQuad_assign stored stored', .assign ..⟩
  | unary op stored stored' => exact ⟨_, ofQuad_unary op stored stored', .unary ..⟩
  | binary op stored stored' stored'' =>
    exact ⟨_, ofQuad_binary op stored stored' stored'', .binary ..⟩
  | param stored => exact ⟨_, ofQuad_param stored, .param ..⟩
  | call isKnown stored => exact ⟨_, ofQuad_call _ (known isKnown) stored, .call isKnown ..⟩
  | ret stored => exact ⟨_, ofQuad_ret exit stored, .ret ..⟩
  | mark label scope => exact ⟨[.label label], rfl, .mark label scope⟩
  | jump label scope => exact ⟨instructions [.jmp label], rfl, .jump label scope⟩
  | jumpIfNot label stored => exact ⟨_, ofQuad_jumpIfNot label stored, .jumpIfNot ..⟩

theorem exists_ofQuads {code : List Quad}
    (assembled : ∀ quad ∈ code, ∃ lines, ofQuad table quad = .ok lines) :
    ∃ lines, ofQuads table code = .ok lines := by
  induction code with
  | nil => exact ⟨[], rfl⟩
  | cons quad code ih =>
    obtain ⟨isAssembled, areAssembled⟩ := List.forall_mem_cons.1 assembled
    obtain ⟨first, found⟩ := isAssembled
    obtain ⟨later, found'⟩ := ih areAssembled
    refine ⟨first ++ later, ?_⟩
    rw [ofQuads, found, ok_bind, found', ok_bind]
    rfl

theorem variableCount_eq {name : String} {symbol : SymbolId}
    (holds : table.Holds name arity slots symbol) : variableCount table name = .ok slots := by
  obtain ⟨known, r, ps, ls, k, present, _, size⟩ := holds
  unfold variableCount
  rw [known]
  dsimp only
  rw [Table.locals_of_function present, ok_bind, size]
  rfl

theorem exists_ofFunction {function : FunctionCode} {symbol : SymbolId}
    (holds : table.Holds function.name arity slots symbol)
    (assembled : ∀ quad ∈ function.body.toList, ∃ lines, ofQuad table quad = .ok lines) :
    ∃ lines, (ofFunction table function).result = .ok lines := by
  obtain ⟨body, found⟩ := exists_ofQuads assembled
  unfold ofFunction
  simp only [Traced.result_bind, Traced.result_ofExcept, variableCount_eq holds, ok_bind,
    Traced.result_report, found, Traced.result_pure]
  exact ⟨_, rfl⟩

theorem exists_ofFunctions {code : List FunctionCode}
    (assembled : ∀ function ∈ code, ∃ lines, (ofFunction table function).result = .ok lines) :
    ∃ lines, (ofFunctions table code).result = .ok lines := by
  induction code with
  | nil => exact ⟨[], rfl⟩
  | cons function code ih =>
    obtain ⟨isAssembled, areAssembled⟩ := List.forall_mem_cons.1 assembled
    obtain ⟨first, found⟩ := isAssembled
    obtain ⟨later, found'⟩ := ih areAssembled
    refine ⟨first ++ later, ?_⟩
    rw [ofFunctions]
    simp only [Traced.result_bind, found, found', ok_bind, Traced.result_pure]

end Assembly
end MiniC
