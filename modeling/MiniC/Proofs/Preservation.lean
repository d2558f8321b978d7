import MiniC.Compilation
import MiniC.Proofs.Emitted
import MiniC.Proofs.FoldedPrograms

/-!
# Compiled programs mean what their source means

A run of the code of an accepted program gives exactly what the interpreter gives for the tree that
was parsed, at every level of optimization. What follows from it: folding changes no result, and no
accepted program gets stuck.
-/

namespace MiniC

/-! ## Activations -/

/-- A frame that holds the arguments binds the parameters to them. -/
theorem image_parameters (frame : Activation) (earlier : List Int32) {arguments : List Int32}
    (names : List String) (holds : frame.parameters.toList = earlier ++ arguments)
    (sameLength : names.length = arguments.length) :
    (slotBlock .parameter names earlier.length).map (fun entry => (entry.1, frame.get entry.2)) =
      names.zip arguments := by
  induction names generalizing arguments earlier with
  | nil => rfl
  | cons name names ih =>
    cases arguments with
    | nil => cases sameLength
    | cons argument arguments =>
      have here : frame.get (.parameter earlier.length) = argument := by
        change (frame.parameters[earlier.length]?).getD 0 = argument
        rw [← Array.getElem?_toList, holds]
        simp
      have rest := ih (earlier ++ [argument]) (by simpa using holds) (Nat.succ.inj sameLength)
      rw [List.length_append] at rest
      rw [slotBlock, List.map_cons, List.zip_cons_cons, here]
      exact congrArg (List.cons _) rest

/-- In a fresh activation, no variable is declared yet. -/
theorem Activation.awaits_fresh {arity : Nat} {arguments : List Int32}
    (sameLength : arguments.length = arity) (locals temporaries : Nat) :
    Activation.Awaits arity locals temporaries 0
      ⟨arguments.toArray, Array.replicate (locals + temporaries) 0⟩ where
  fits := ⟨sameLength, Array.size_replicate⟩
  zero := by
    intro index _ lt
    show ((Array.replicate (locals + temporaries) (0 : Int32))[index]?).getD 0 = 0
    rw [Array.getElem?_replicate]
    split <;> rfl

/-- Returned or not, a run through a body comes to its exit, with the result in the accumulator. -/
theorem Running.Stage.ends {running : Running} {arity locals temporaries first exitAt : Nat}
    {top : ScopeId} {exit : Label}
    (stage : running.Stage arity locals temporaries first top exit exitAt)
    (size : running.routine.body.size = exitAt + 1) {p : Progress} {layout : Layout} {count : Nat}
    {result : Except Error Completion}
    (computes : running.Computes p result
      (Completion.Reached arity locals temporaries layout count exitAt exitAt)) :
    running.Ends p (result >>= fun completion =>
      match completion with
      | .returned value => return value
      | .finished _ last => return last) := by
  have finish {q : Progress} (leads : running.Leads p q) (pc : q.pc = exitAt) :
      running.Ends p (.ok q.accumulator) := by
    have found := stage.exitMarked
    rw [← pc] at found
    exact (leads.trans (Running.mark_leads found)).ends (Running.ends_at_end (by rw [size, ← pc]))
  cases result with
  | error error => exact computes
  | ok completion =>
    obtain ⟨q, leads, reached⟩ := computes
    cases completion with
    | returned value =>
      obtain ⟨pc, rfl⟩ := reached
      exact finish leads pc
    | finished env last =>
      obtain ⟨pc, rfl, _⟩ := reached
      exact finish leads pc

namespace Lowering.Has

variable {state : Lowering} {name : String} {parameters : List Node} {body : Node} {top : ScopeId}
  {next label : Nat} {functions : String → Option Nat} {calls : Calls}

/-- The labels of a function are found. -/
theorem exists_targets (has : state.Has name parameters body top next label)
    (named : body.StatementNamed functions (Node.parameterLayout parameters).names) :
    ∃ targets, labelTargets 0 (body.functionCode top next label) = .ok targets ∧
      Routine.Placed ⟨name, (body.functionCode top next label).toArray, targets⟩ := by
  obtain ⟨targets, places⟩ := exists_placesLabels
    (fun quad member isLabel => (has.resolved named quad member).marked isLabel)
    (Node.marks_functionCode top next label body) 0
  refine ⟨targets, places.collected, fun {index mark scope} found => ?_⟩
  have found' : (body.functionCode top next label)[index]? = some (.mark mark scope) := by
    simpa using found
  rw [places.placed index mark scope found', Nat.zero_add]

/-- An activation of a function does what its body means. -/
theorem result_run (has : state.Has name parameters body top next label)
    (named : body.StatementNamed functions (Node.parameterLayout parameters).names)
    {callee : String → List Int32 → Traced Int32}
    (answers : ∀ function arguments, (callee function arguments).result = calls function arguments)
    {targets : List (Label × Nat)}
    (placed : Routine.Placed ⟨name, (body.functionCode top next label).toArray, targets⟩)
    {arguments : List Int32} (sameLength : parameters.length = arguments.length) (limit : Nat)
    {steps : Nat} (enough : (body.functionCode top next label).length < steps) :
    (Routine.run ⟨name, (body.functionCode top next label).toArray, targets⟩ state.table limit callee
        steps ⟨0, 0, [], ⟨arguments.toArray,
          Array.replicate (body.localCount + body.temporaryCount) 0⟩⟩).result =
      (body.execute calls name [(Node.declaredNames parameters).zip arguments] 0 >>= fun completion =>
        match completion with
        | .returned value => return value
        | .finished _ last => return last) := by
  let running : Running :=
    ⟨⟨name, (body.functionCode top next label).toArray, targets⟩, state.table, limit, callee⟩
  let start : Progress := ⟨0, 0, [], ⟨arguments.toArray,
    Array.replicate (body.localCount + body.temporaryCount) 0⟩⟩
  let exitAt := (body.statementCode ⟨label⟩ top next (label + 1)).length
  have namesLength : (Node.declaredNames parameters).length = parameters.length :=
    length_declaredNames fun node member => .inr (has.areParameters node member)
  have size : running.routine.body.size = exitAt + 1 := by
    show (body.functionCode top next label).toArray.size = exitAt + 1
    rw [List.size_toArray, Node.functionCode, List.length_append, List.length_singleton]
  have whole : CodeAt running.routine.body 0
      (body.statementCode ⟨label⟩ top next (label + 1) ++ [.mark ⟨label⟩ top]) :=
    ⟨[], by rw [List.append_nil]; rfl⟩
  have exitMarked : running.routine.body[exitAt]? = some (.mark ⟨label⟩ top) := by
    have marked := whole.right.head
    rw [Nat.zero_add] at marked
    exact marked
  have stage : running.Stage parameters.length body.localCount body.temporaryCount next top ⟨label⟩
      exitAt := ⟨placed, exitMarked, has.temporaries⟩
  have awaits : start.frame.Awaits parameters.length body.localCount body.temporaryCount 0 :=
    Activation.awaits_fresh sameLength.symm _ _
  have env : (Node.parameterLayout parameters).image start.frame.get =
      [(Node.declaredNames parameters).zip arguments] := by
    have bound := image_parameters start.frame [] (Node.declaredNames parameters) rfl
      (namesLength.trans sameLength)
    exact congrArg (fun block => [block]) bound
  have computes := Node.statement_computes stage answers body (p := start) (has.housed named)
    whole.left (Nat.le_of_eq (Nat.zero_add _)) awaits
  rw [env, show start.pc = 0 from rfl, Nat.zero_add, Nat.zero_add] at computes
  refine stage.ends size computes steps ?_
  show running.routine.body.size < 0 + steps
  rw [Nat.zero_add, show running.routine.body.size = _ from List.size_toArray]
  exact enough

end Lowering.Has

/-! ## Programs -/

namespace Node

/-- A checked program and the code that it was lowered to. -/
structure LoweredTo (functions : List Node) (state : Lowering) (code : Code) : Prop where
  sound : state.table.Sound
  distinct : (functionNames functions).Nodup
  named : ∀ node ∈ functions, node.FunctionNamed (arity? functions)
  lowered : List.Forall₂ (LoweredIn state) functions code.functions
  labels : (code.functions.flatMap fun function => marks function.body.toList).Nodup

/-- A function is defined in the tree exactly if it is in the code. -/
theorem forall₂_find {state : Lowering} {nodes : List Node} {codes : List FunctionCode}
    (lowered : List.Forall₂ (LoweredIn state) nodes codes) (name : String) :
    (nodes.findSome? (definition? name) = none ∧ codes.find? (·.name = name) = none) ∨
      ∃ info returnType parameters body top next label,
        function info returnType name parameters body ∈ nodes ∧
        nodes.findSome? (definition? name) = some (parameters, body) ∧
        codes.find? (·.name = name) =
          some ⟨name, (body.functionCode top next label).toArray⟩ ∧
        state.Has name parameters body top next label := by
  induction lowered with
  | nil => exact .inl ⟨rfl, rfl⟩
  | @cons node code nodes codes isLowered _ ih =>
    cases node with
    | function info returnType other parameters body =>
      obtain ⟨top, next, label, rfl, has⟩ := isLowered
      by_cases same : other = name
      · subst same
        refine .inr ⟨info, returnType, parameters, body, top, next, label, List.mem_cons_self, ?_, ?_,
          has⟩
        · rw [List.findSome?_cons, definition?, if_pos rfl]
        · rw [List.find?_cons]
          simp
      · have skipped : (function info returnType other parameters body :: nodes).findSome?
            (definition? name) = nodes.findSome? (definition? name) := by
          rw [List.findSome?_cons, definition?, if_neg same]
        have skipped' : ((⟨other, (body.functionCode top next label).toArray⟩ : FunctionCode) ::
            codes).find? (·.name = name) = codes.find? (·.name = name) := by
          rw [List.find?_cons]
          simp [same]
        rw [skipped, skipped']
        rcases ih with absent | ⟨i, r, ps, b, t, n, l, member, found⟩
        · exact .inl absent
        · exact .inr ⟨i, r, ps, b, t, n, l, List.mem_cons_of_mem _ member, found⟩
    | _ => exact isLowered.elim

/-- What is in the second of two lists has its partner in the first. -/
theorem forall₂_mem {α β : Type} {R : α → β → Prop} {first : List α} {second : List β}
    (related : List.Forall₂ R first second) {b : β} (member : b ∈ second) : ∃ a ∈ first, R a b := by
  induction related with
  | nil => exact absurd member List.not_mem_nil
  | @cons a _ _ _ isRelated _ ih =>
    rcases List.mem_cons.1 member with rfl | later
    · exact ⟨a, List.mem_cons_self, isRelated⟩
    · obtain ⟨a', inFirst, isRelated'⟩ := ih later
      exact ⟨a', List.mem_cons_of_mem _ inFirst, isRelated'⟩

/-- The body of a function starts with its parameters in sight. -/
theorem LoweredTo.body_named {functions : List Node} {state : Lowering} {code : Code}
    (lowered : LoweredTo functions state code) {info : Info} {returnType : Ty} {name : String}
    {parameters : List Node} {body : Node}
    (member : function info returnType name parameters body ∈ functions) :
    body.StatementNamed (arity? functions) (parameterLayout parameters).names := by
  unfold parameterLayout
  rw [names_slotBlock]
  exact lowered.named _ member

/-- What a function of the code was lowered from. -/
theorem LoweredTo.exists_has {functions : List Node} {state : Lowering} {code : Code}
    (lowered : LoweredTo functions state code) {function : FunctionCode}
    (member : function ∈ code.functions) :
    ∃ parameters body top next label, function.body.toList = body.functionCode top next label ∧
      state.Has function.name parameters body top next label ∧
      body.StatementNamed (arity? functions) (parameterLayout parameters).names := by
  obtain ⟨node, inFunctions, isLowered⟩ := forall₂_mem lowered.lowered member
  cases node with
  | function info returnType name parameters body =>
    obtain ⟨top, next, label, rfl, has⟩ := isLowered
    exact ⟨parameters, body, top, next, label, rfl, has, lowered.body_named inFunctions⟩
  | _ => exact isLowered.elim

theorem le_size_of_mem {code : Code} {function : FunctionCode} (member : function ∈ code.functions) :
    function.body.size ≤ code.size := by
  obtain ⟨functions⟩ := code
  change function ∈ functions at member
  unfold Code.size
  dsimp only
  induction functions with
  | nil => exact absurd member List.not_mem_nil
  | cons first rest ih =>
    rw [List.foldr_cons]
    rcases List.mem_cons.1 member with rfl | later
    · exact Nat.le_add_right _ _
    · exact Nat.le_trans (ih later) (Nat.le_add_left _ _)

/-- Calls of lowered code give what calls of the tree give. -/
theorem LoweredTo.result_callWithin {functions : List Node} {state : Lowering} {code : Code}
    (lowered : LoweredTo functions state code) (info : Info) {steps : Nat}
    (enough : code.size < steps) (depth : Nat) (name : String) (arguments : List Int32) :
    (code.callWithin state.table steps depth name arguments).result =
      (program info functions).callWithin depth name arguments := by
  induction depth generalizing name arguments with
  | zero => rfl
  | succ depth ih =>
    have both := forall₂_find lowered.lowered name
    rw [Code.callWithin, callWithin]
    simp only [Traced.result_bind, Traced.result_ofExcept, Code.enter, Code.body?, function?]
    rcases both with ⟨missing, missing'⟩ |
      ⟨i, r, parameters, body, top, next, label, member, found, found', has⟩
    · rw [missing, missing']
      rfl
    · obtain ⟨symbol, known, r', ps, ls, k, present, arity, slots⟩ := has.holds
      have named := lowered.body_named member
      obtain ⟨targets, collected, placed⟩ := has.exists_targets named
      rw [found, found', Option.map_some]
      dsimp only
      rw [known]
      dsimp only
      rw [Table.parameters_of_function present, Table.locals_of_function present, ok_bind, arity]
      by_cases sameLength : parameters.length = arguments.length
      · rw [if_neg (not_not.2 sameLength), if_neg (not_not.2 sameLength)]
        simp only [pure_bind, ok_bind, collected, slots]
        have inCode := List.mem_of_find?_eq_some found'
        have length : (body.functionCode top next label).length < steps :=
          Nat.lt_of_le_of_lt (le_size_of_mem inCode) enough
        exact has.result_run named ih placed sameLength steps length
      · rw [if_pos sameLength, if_pos sameLength]
        rfl

/-- A function that is called is one of the table. -/
theorem LoweredTo.isGlobalFunction {functions : List Node} {state : Lowering} {code : Code}
    (lowered : LoweredTo functions state code) {callee : String} {count : Nat}
    (known : arity? functions callee = some count) :
    Assembly.isGlobalFunction state.table callee := by
  unfold arity? at known
  rcases forall₂_find lowered.lowered callee with ⟨missing, _⟩ |
    ⟨_, _, parameters, body, _, _, _, _, found, _, has⟩
  · rw [missing] at known
    cases known
  · obtain ⟨symbol, global, _, _, _, _, present, _⟩ := has.holds
    unfold Assembly.isGlobalFunction Table.findGlobal?
    rw [global, Option.bind_some, present]

/-- There is assembly for lowered code. -/
theorem LoweredTo.exists_listing {functions : List Node} {state : Lowering} {code : Code}
    (lowered : LoweredTo functions state code) (fileName : String) :
    ∃ listing, (code.assemble state.table fileName).result = .ok listing := by
  have assembled : ∀ function ∈ code.functions,
      ∃ lines, (Assembly.ofFunction state.table function).result = .ok lines := by
    intro function member
    obtain ⟨parameters, body, top, next, label, isBody, has, named⟩ := lowered.exists_has member
    obtain ⟨symbol, holds⟩ := has.holds
    refine Assembly.exists_ofFunction holds fun quad inCode => ?_
    rw [isBody] at inCode
    obtain ⟨lines, found, _⟩ :=
      Assembly.exists_ofQuad (has.resolved named quad inCode) lowered.isGlobalFunction
    exact ⟨lines, found⟩
  obtain ⟨lines, found⟩ := Assembly.exists_ofFunctions assembled
  refine ⟨.file fileName :: .textSection :: lines, ?_⟩
  unfold Code.assemble
  simp only [Traced.result_bind, found, ok_bind, Traced.result_pure]

end Node

/-! ## Compilations -/

/-- The functions that are lowered at some level of optimization. -/
def Options.folded (options : Options) (functions : List Node) : List Node :=
  if options.level = 0 then functions else Node.foldAll functions

/-- What the check of a source text gives. -/
theorem analyze_eq_ok {source : String} {analysis : Analysis}
    (analyzed : (analyze source).result = .ok analysis) :
    ∃ tree info functions, Node.parse source = .ok tree ∧
      analysis.tree = .program info functions ∧ Node.ProgramIn analysis.table functions ∧
      (∀ node ∈ functions, node.FunctionNamed (Node.arity? functions)) ∧
      ∀ name, ((Node.program info functions).function? name).map Node.behaviour =
        (tree.function? name).map Node.behaviour := by
  unfold analyze at analyzed
  simp only [Traced.result_bind, Traced.result_ofExcept, Traced.result_report, ok_bind,
    Traced.result_pure] at analyzed
  obtain ⟨tree, parsed, analyzed⟩ := bind_eq_ok.1 analyzed
  obtain ⟨walked, result, found⟩ : ∃ walked result, tree.resolve = (walked, result) := ⟨_, _, rfl⟩
  rw [found] at analyzed
  obtain ⟨table, resolved, analyzed⟩ := bind_eq_ok.1 analyzed
  obtain ⟨_, checked, last⟩ := bind_eq_ok.1 analyzed
  cases last
  dsimp only at resolved
  subst resolved
  have isProgram := Node.parse_isProgram parsed
  obtain ⟨info, functions, rfl, inTable⟩ := Node.resolve_isProgram isProgram found
  refine ⟨tree, info, functions, parsed, rfl, inTable, Node.analyze_named inTable checked, ?_⟩
  intro name
  cases tree with
  | program info' functions' =>
    have same := Node.function?_walk info' functions' ⟨Table.global, none⟩ .initial name
    rw [Node.resolve_eq_walk] at found
    rw [found] at same
    exact same
  | _ => exact isProgram.elim

section Lower

variable {table : Table} {info : Info} {functions : List Node}

theorem result_optimize (options : Options) :
    (optimize options (.program info functions)).result =
      .ok (.program info (options.folded functions)) := by
  unfold optimize Options.folded
  split
  · rfl
  · rfl

theorem programIn_folded (options : Options) (inTable : Node.ProgramIn table functions) :
    Node.ProgramIn table (options.folded functions) := by
  unfold Options.folded
  split
  · exact inTable
  · exact inTable.foldAll

theorem arity?_folded (options : Options) :
    Node.arity? (options.folded functions) = Node.arity? functions := by
  unfold Options.folded
  split
  · rfl
  · exact Node.arity?_foldAll functions

theorem named_folded (options : Options) {arity : String → Option Nat}
    (named : ∀ node ∈ functions, node.FunctionNamed arity) :
    ∀ node ∈ options.folded functions, node.FunctionNamed arity := by
  unfold Options.folded
  split
  · exact named
  · intro node member
    rw [Node.foldAll_eq_map] at member
    obtain ⟨original, inFunctions, rfl⟩ := List.mem_map.1 member
    exact Node.functionNamed_fold (named original inFunctions)

theorem integral_folded (options : Options) :
    (∀ node ∈ options.folded functions, node.FunctionIntegral) ↔
      ∀ node ∈ functions, node.FunctionIntegral := by
  unfold Options.folded
  split
  · exact Iff.rfl
  · rw [Node.foldAll_eq_map, List.forall_mem_map]
    exact forall₂_congr fun node _ => Node.functionIntegral_fold node

theorem callWithin_folded (options : Options) (depth : Nat) :
    (Node.program info (options.folded functions)).callWithin depth =
      (Node.program info functions).callWithin depth := by
  unfold Options.folded
  split
  · rfl
  · exact Node.callWithin_fold info functions depth

/-- A resolved and checked program of integers is lowered, and there is assembly for its code. -/
theorem exists_lowered (info : Info) (inTable : Node.ProgramIn table functions)
    (named : ∀ node ∈ functions, node.FunctionNamed (Node.arity? functions))
    (integral : ∀ node ∈ functions, node.FunctionIntegral) (fileName : String) :
    ∃ state code listing, ((Node.program info functions).lower table).1 = state.table ∧
      ((Node.program info functions).lower table).2.result = .ok code ∧
      Node.LoweredTo functions state code ∧
      (code.assemble state.table fileName).result = .ok listing := by
  obtain ⟨codes, lowered, sound, all, labels, _⟩ :=
    Node.lowerFunctions_spec inTable.expects integral
  have loweredTo : Node.LoweredTo functions (Node.lowerFunctions functions ⟨table, 0, 0⟩).1 ⟨codes⟩ :=
    ⟨sound, inTable.distinct, named, all, labels.distinct⟩
  obtain ⟨listing, assembled⟩ := loweredTo.exists_listing fileName
  refine ⟨_, ⟨codes⟩, listing, rfl, ?_, loweredTo, assembled⟩
  rw [Node.lower]
  simp only [Traced.result_bind, Traced.result_pure]
  exact bind_eq_ok.2 ⟨codes, lowered, rfl⟩

/-- What a compilation consists of. -/
theorem lower_eq_ok {analysis : Analysis} {options : Options} {compilation : Compilation}
    {info : Info} {functions : List Node} (isTree : analysis.tree = .program info functions)
    (inTable : Node.ProgramIn analysis.table functions)
    (named : ∀ node ∈ functions, node.FunctionNamed (Node.arity? functions))
    (lowered : (analysis.lower options).result = .ok compilation) :
    (∀ node ∈ functions, node.FunctionIntegral) ∧ ∃ state,
      Node.LoweredTo (options.folded functions) state compilation.code ∧
      compilation.table = state.table ∧
      (compilation.code.assemble compilation.table options.fileName).result =
        .ok compilation.listing := by
  unfold Analysis.lower at lowered
  rw [isTree] at lowered
  simp only [Traced.result_bind, result_optimize, ok_bind, Traced.result_report,
    Traced.result_pure] at lowered
  obtain ⟨code, generated, lowered⟩ := bind_eq_ok.1 lowered
  obtain ⟨listing, assembled, last⟩ := bind_eq_ok.1 lowered
  cases last
  have integral : ∀ node ∈ options.folded functions, node.FunctionIntegral := by
    rw [Node.lower] at generated
    simp only [Traced.result_bind] at generated
    obtain ⟨codes, generated, _⟩ := bind_eq_ok.1 generated
    exact Node.integral_of_lowerFunctions generated
  have named' := named_folded options named
  rw [← arity?_folded options] at named'
  obtain ⟨state, code', listing', isTable, generated', loweredTo, _⟩ :=
    exists_lowered info (programIn_folded options inTable) named' integral options.fileName
  rw [generated] at generated'
  cases generated'
  exact ⟨(integral_folded options).1 integral, state, loweredTo, isTable, assembled⟩

/-- A resolved and checked program of integers is compiled. -/
theorem exists_lower {analysis : Analysis} {info : Info} {functions : List Node}
    (isTree : analysis.tree = .program info functions)
    (inTable : Node.ProgramIn analysis.table functions)
    (named : ∀ node ∈ functions, node.FunctionNamed (Node.arity? functions))
    (integral : ∀ node ∈ functions, node.FunctionIntegral) (options : Options) :
    ∃ compilation, (analysis.lower options).result = .ok compilation := by
  have named' := named_folded options named
  rw [← arity?_folded options] at named'
  obtain ⟨state, code, listing, isTable, generated, _, assembled⟩ :=
    exists_lowered info (programIn_folded options inTable) named' ((integral_folded options).2 integral)
      options.fileName
  refine ⟨⟨.program info (options.folded functions),
    ((Node.program info (options.folded functions)).lower analysis.table).1, code, listing⟩, ?_⟩
  unfold Analysis.lower
  rw [isTree]
  rw [← isTable] at assembled
  simp only [Traced.result_bind, result_optimize, ok_bind, Traced.result_report, Traced.result_pure]
  exact bind_eq_ok.2 ⟨code, generated, bind_eq_ok.2 ⟨listing, assembled, rfl⟩⟩

end Lower

/-- Whether a program is accepted does not depend on the options. -/
theorem accepted_of_accepted {source : String} {options : Options} {compilation : Compilation}
    (compiled : (compile source options).result = .ok compilation) (others : Options) :
    ∃ compilation, (compile source others).result = .ok compilation := by
  unfold compile at compiled ⊢
  rw [Traced.result_bind] at compiled
  obtain ⟨analysis, analyzed, lowered⟩ := bind_eq_ok.1 compiled
  obtain ⟨_, info, functions, _, isTree, inTable, named, _⟩ := analyze_eq_ok analyzed
  obtain ⟨integral, _⟩ := lower_eq_ok isTree inTable named lowered
  obtain ⟨other, lowered'⟩ := exists_lower isTree inTable named integral others
  refine ⟨other, ?_⟩
  rw [Traced.result_bind, analyzed]
  exact lowered'

/-- A run of a compiled program gives what the interpreter gives for its tree, at every level. -/
theorem result_run_eq_interpret {source : String} {options : Options} {compilation : Compilation}
    (compiled : (compile source options).result = .ok compilation) :
    ∃ tree, Node.parse source = .ok tree ∧ ∀ function arguments,
      (compilation.run function arguments).result = tree.interpret function arguments := by
  unfold compile at compiled
  rw [Traced.result_bind] at compiled
  obtain ⟨analysis, analyzed, lowered⟩ := bind_eq_ok.1 compiled
  obtain ⟨tree, info, functions, parsed, isTree, inTable, named, same⟩ := analyze_eq_ok analyzed
  obtain ⟨_, state, loweredTo, isTable, _⟩ := lower_eq_ok isTree inTable named lowered
  refine ⟨tree, parsed, fun function arguments => ?_⟩
  unfold Compilation.run Code.run Node.interpret
  rw [isTable, loweredTo.result_callWithin info (Nat.lt_succ_self _), callWithin_folded,
    Node.callWithin_congr same]

/-! ## Main results -/

/-- Lowering preserves meaning: calling any function of a program that was compiled without folding
gives the value or the error that the interpreter gives for the parsed tree. -/
theorem compile_preserves_meaning {source fileName : String} {compilation : Compilation}
    (compiled : (compile source { level := 0, fileName := fileName }).result = .ok compilation) :
    ∃ tree, Node.parse source = .ok tree ∧ ∀ function arguments,
      (compilation.run function arguments).result = tree.interpret function arguments :=
  result_run_eq_interpret compiled

/-- A recursive function with a block that shadows its parameter, and a call that it makes. -/
def factorialSource : String :=
  "int factorial(int n) { { int n; n = 7; } if (n) return n * factorial(n - 1); return 1; }
int main() { return factorial(5); }"

theorem factorial_preserves_meaning :
    ∃ compilation, (compile factorialSource { level := 0, fileName := "a.c" }).result =
        .ok compilation ∧
      ∃ tree, Node.parse factorialSource = .ok tree ∧ ∀ function arguments,
        (compilation.run function arguments).result = tree.interpret function arguments := by
  have accepted : (compile factorialSource { level := 0, fileName := "a.c" }).result.isOk := by
    decide +kernel
  cases compiled : (compile factorialSource { level := 0, fileName := "a.c" }).result with
  | ok compilation => exact ⟨compilation, rfl, compile_preserves_meaning compiled⟩
  | error error =>
    rw [compiled] at accepted
    cases accepted

/-- Folding preserves behaviour: a program is accepted with folding exactly if it is without, and
then every call has the same result, be it of a function that is there or not. -/
theorem folding_preserves_behaviour (source fileName : String) (level : Nat) :
    ((∃ compilation, (compile source { level := level, fileName := fileName }).result =
        .ok compilation) ↔
      ∃ compilation, (compile source { level := 0, fileName := fileName }).result =
        .ok compilation) ∧
    ∀ folded plain, (compile source { level := level, fileName := fileName }).result = .ok folded →
      (compile source { level := 0, fileName := fileName }).result = .ok plain →
      ∀ function arguments,
        (folded.run function arguments).result = (plain.run function arguments).result := by
  constructor
  · constructor
    · rintro ⟨compilation, compiled⟩
      exact accepted_of_accepted compiled _
    · rintro ⟨compilation, compiled⟩
      exact accepted_of_accepted compiled _
  · intro folded plain compiled compiled' function arguments
    obtain ⟨tree, parsed, same⟩ := result_run_eq_interpret compiled
    obtain ⟨tree', parsed', same'⟩ := result_run_eq_interpret compiled'
    rw [parsed] at parsed'
    cases parsed'
    rw [same, same']

end MiniC
