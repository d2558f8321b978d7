import MiniC.Proofs.Diagnostics
import MiniC.Proofs.Preservation
import MiniC.Proofs.Reals

/-!
# What is left to fail behind the analysis

A source text that passes the analysis fails to compile only if there is a real in it: lowering
stops at the first one, and nothing else stops it. So a compilation fails on a mistake in the source
or on a real, and never on anything that one stage takes for granted of another.
-/

namespace MiniC

/-! ## Lowering -/

/-- Lowering fails as it has met a real. -/
def Lower.Unsupported {α : Type} (action : Lower α) (state : Lowering) : Prop :=
  ∃ cause after, action state = .error (.unsupported cause) after

namespace Lower.Unsupported

variable {α β : Type} {first : Lower α} {next : α → Lower β} {state middle : Lowering} {a : α}

theorem bind (unsupported : Unsupported first state) : Unsupported (first >>= next) state := by
  obtain ⟨cause, after, failed⟩ := unsupported
  refine ⟨cause, after, ?_⟩
  change EStateM.bind first next state = _
  unfold EStateM.bind
  rw [failed]

theorem bind_of_ok (found : first state = .ok a middle)
    (unsupported : Unsupported (next a) middle) : Unsupported (first >>= next) state := by
  obtain ⟨cause, after, failed⟩ := unsupported
  exact ⟨cause, after, (Lower.bind_of_ok found).trans failed⟩

theorem require {result : Except Error α} (failed : ∃ cause, result = .error (.unsupported cause)) :
    Unsupported (Lower.require result) state := by
  obtain ⟨cause, rfl⟩ := failed
  exact ⟨cause, state, rfl⟩

end Lower.Unsupported

namespace Node

open Lower

theorem requireIntVariables_eq_error {nodes : List Node}
    (refused : requireIntVariables nodes ≠ .ok ()) :
    ∃ cause, requireIntVariables nodes = .error (.unsupported cause) := by
  fun_induction requireIntVariables nodes with
  | case1 => exact absurd rfl refused
  | case2 _ _ _ _ _ ih => exact ih refused
  | case3 => exact ⟨_, rfl⟩
  | case4 _ _ _ ih => exact ih refused

theorem requireIntParameters_eq_error {nodes : List Node}
    (refused : requireIntParameters nodes ≠ .ok ()) :
    ∃ cause, requireIntParameters nodes = .error (.unsupported cause) := by
  fun_induction requireIntParameters nodes with
  | case1 => exact absurd rfl refused
  | case2 _ _ _ _ _ ih => exact ih refused
  | case3 => exact ⟨_, rfl⟩
  | case4 _ _ _ ih => exact ih refused

mutual
/-- Lowering an expression stops at its first real. -/
theorem unsupported_value (frame : Frame) (scope : ScopeId) : (node : Node) →
    ∀ ⦃slots : Nat⦄ ⦃state : Lowering⦄, node.ValueIn scope → ¬ node.ValueIntegral →
    frame.Ready slots state → Unsupported (node.lowerValue frame) state
  | real info value => fun _ _ attached _ _ =>
    .bind_of_ok (require_scopeOf (real info value) attached) ⟨_, _, rfl⟩
  | unary info op operand => by
    rintro slots state ⟨attached, inScope⟩ mixed ready
    exact .bind_of_ok (require_scopeOf (unary info op operand) attached)
      (unsupported_value frame scope operand inScope mixed ready).bind
  | binary info op lhs rhs => by
    rintro slots state ⟨attached, inScope, inScope'⟩ mixed ready
    refine .bind_of_ok (require_scopeOf (binary info op lhs rhs) attached) ?_
    -- What stands before the first real is lowered as if there were none.
    by_cases integral : lhs.ValueIntegral
    · obtain ⟨after, lowered, advances⟩ := lowerValue_spec frame scope lhs inScope integral ready
      exact .bind_of_ok lowered (unsupported_value frame scope rhs inScope'
        (fun integral' => mixed ⟨integral, integral'⟩) advances.ready).bind
    · exact (unsupported_value frame scope lhs inScope integral ready).bind
  | call info callee arguments => by
    rintro slots state ⟨attached, calleeIn, inScope⟩ mixed ready
    cases callee with
    | identifier info' name =>
      rw [lowerValue]
      exact .bind_of_ok (require_scopeOf (call info (identifier info' name) arguments) attached)
        (unsupported_values frame scope arguments inScope mixed ready).bind
    | _ => exact calleeIn.elim
  | integer .. | identifier .. => fun _ _ _ mixed => absurd trivial mixed
  | empty .. | program .. | function .. | parameter .. | returnValue .. | block .. | declaration ..
  | assignment .. | ifThen .. | ifElse .. => fun _ _ inScope => inScope.elim
theorem unsupported_values (frame : Frame) (scope : ScopeId) : (nodes : List Node) →
    ∀ ⦃slots : Nat⦄ ⦃state : Lowering⦄, ValuesIn scope nodes → ¬ ValuesIntegral nodes →
    frame.Ready slots state → Unsupported (lowerValues frame nodes) state
  | [] => fun _ _ _ mixed => absurd trivial mixed
  | node :: nodes => by
    rintro slots state ⟨inScope, inScope'⟩ mixed ready
    by_cases integral : node.ValueIntegral
    · obtain ⟨after, lowered, advances⟩ := lowerValue_spec frame scope node inScope integral ready
      exact .bind_of_ok lowered (unsupported_values frame scope nodes inScope'
        (fun integral' => mixed ⟨integral, integral'⟩) advances.ready).bind
    · exact (unsupported_value frame scope node inScope integral ready).bind
end

mutual
/-- Lowering a statement stops at its first real. -/
theorem unsupported_statement (frame : Frame) {table : Table} {top : ScopeId} : (node : Node) →
    ∀ ⦃scope : ScopeId⦄ ⦃layout : Layout⦄ ⦃count slots : Nat⦄ ⦃state : Lowering⦄,
    node.ScopedIn table top scope layout count → ¬ node.StatementIntegral →
    frame.Ready slots state → Unsupported (node.lowerStatement frame) state
  | empty .. => fun _ _ _ _ _ _ mixed => absurd trivial mixed
  | returnValue info value => by
    rintro scope layout count slots state ⟨attached, inScope⟩ mixed ready
    exact .bind_of_ok (require_scopeOf (returnValue info value) attached)
      (unsupported_value frame scope value inScope mixed ready).bind
  | assignment info target value => by
    rintro scope layout count slots state ⟨attached, _, inScope⟩ mixed ready
    exact .bind_of_ok (require_scopeOf (assignment info target value) attached)
      (unsupported_value frame scope value inScope mixed ready).bind
  | block info declarations statements => by
    rintro scope layout count slots state ⟨inner, attached, _, _, _, placed⟩ mixed ready
    refine .bind_of_ok (require_scopeOf (block info declarations statements) attached) ?_
    by_cases integral : requireIntVariables declarations = .ok ()
    · exact .bind_of_ok (require_of_ok integral) (unsupported_statements frame statements placed
        (fun integral' => mixed ⟨integral, integral'⟩) ready)
    · exact (Unsupported.require (requireIntVariables_eq_error integral)).bind
  | ifThen info condition consequent => by
    rintro scope layout count slots state ⟨attached, inScope, placed⟩ mixed ready
    refine .bind_of_ok (require_scopeOf (ifThen info condition consequent) attached) ?_
    by_cases integral : condition.ValueIntegral
    · obtain ⟨s₁, lowered, advances₁⟩ :=
        lowerValue_spec frame scope condition inScope integral ready
      obtain ⟨s₂, fresh, advances₂⟩ := freshLabel_spec advances₁.ready
      exact .bind_of_ok lowered (.bind_of_ok fresh (unsupported_statement frame consequent placed
        (fun integral' => mixed ⟨integral, integral'⟩) advances₂.ready).bind)
    · exact (unsupported_value frame scope condition inScope integral ready).bind
  | ifElse info condition consequent alternative => by
    rintro scope layout count slots state ⟨attached, inScope, placed, placed'⟩ mixed ready
    refine .bind_of_ok (require_scopeOf (ifElse info condition consequent alternative) attached) ?_
    by_cases integral : condition.ValueIntegral
    · obtain ⟨s₁, lowered₁, advances₁⟩ :=
        lowerValue_spec frame scope condition inScope integral ready
      obtain ⟨s₂, fresh₂, advances₂⟩ := freshLabel_spec advances₁.ready
      refine .bind_of_ok lowered₁ (.bind_of_ok fresh₂ ?_)
      by_cases integral' : consequent.StatementIntegral
      · obtain ⟨s₃, lowered₃, advances₃⟩ :=
          lowerStatement_spec frame consequent placed integral' advances₂.ready
        obtain ⟨s₄, fresh₄, advances₄⟩ := freshLabel_spec advances₃.ready
        exact .bind_of_ok lowered₃ (.bind_of_ok fresh₄ (unsupported_statement frame alternative
          placed' (fun integral'' => mixed ⟨integral, integral', integral''⟩) advances₄.ready).bind)
      · exact (unsupported_statement frame consequent placed integral' advances₂.ready).bind
    · exact (unsupported_value frame scope condition inScope integral ready).bind
  | program .. | function .. | parameter .. | call .. | declaration .. | binary .. | unary ..
  | identifier .. | integer .. | real .. => fun _ _ _ _ _ placed => placed.elim
theorem unsupported_statements (frame : Frame) {table : Table} {top : ScopeId} :
    (nodes : List Node) → ∀ ⦃scope : ScopeId⦄ ⦃layout : Layout⦄ ⦃count slots : Nat⦄
    ⦃state : Lowering⦄, ScopedAll table top scope layout count nodes → ¬ StatementsIntegral nodes →
    frame.Ready slots state → Unsupported (lowerStatements frame nodes) state
  | [] => fun _ _ _ _ _ _ mixed => absurd trivial mixed
  | node :: nodes => by
    rintro scope layout count slots state ⟨placed, placed'⟩ mixed ready
    by_cases integral : node.StatementIntegral
    · obtain ⟨after, lowered, advances⟩ := lowerStatement_spec frame node placed integral ready
      exact .bind_of_ok lowered (unsupported_statements frame nodes placed'
        (fun integral' => mixed ⟨integral, integral'⟩) advances.ready).bind
    · exact (unsupported_statement frame node placed integral ready).bind
end

theorem unsupported_function {state : Lowering} {node : Node}
    (inTable : node.FunctionIn state.table) (sound : state.table.Sound)
    (fresh : ∀ k, state.temporaries ≤ k → ∀ scope,
      state.table.lookupLocal scope (temporaryName k) = none)
    (mixed : ¬ node.FunctionIntegral) : Unsupported node.lowerFunction state := by
  cases node with
  | function info returnType name parameters body =>
    obtain ⟨symbol, top, attached, _, ⟨known, r, ps, ls, k, present, _, size⟩, notGlobal, lays,
      placed⟩ := inTable
    rw [lowerFunction]
    split
    · exact ⟨_, _, rfl⟩
    · next isInteger =>
      have found : functionSymbol state.table name = .ok symbol := by
        unfold functionSymbol
        rw [known]
      have ready : Frame.Ready ⟨symbol, top, ⟨state.labels⟩⟩ body.localCount state :=
        ⟨sound, lays.inside, notGlobal, ⟨name, r, ps, ls, k, present, size⟩, fresh⟩
      obtain ⟨after, labelled, advances⟩ := freshLabel_spec ready
      refine .bind_of_ok (show (get : Lower Lowering) state = .ok state state from rfl) ?_
      refine .bind_of_ok (require_of_ok found) (.bind_of_ok
        (require_scopeOf (function info returnType name parameters body) attached)
        (.bind_of_ok labelled ?_))
      by_cases integral : requireIntParameters parameters = .ok ()
      · exact .bind_of_ok (require_of_ok integral) (unsupported_statement _ body placed
          (fun integral' => mixed ⟨by simpa using isInteger, integral, integral'⟩)
          advances.ready).bind
      · exact (Unsupported.require (requireIntParameters_eq_error integral)).bind
  | _ => exact inTable.elim

/-- Lowering a program stops at its first real. -/
theorem unsupported_functions {nodes : List Node} : ∀ {state : Lowering}, state.Expects nodes →
    (¬ ∀ node ∈ nodes, node.FunctionIntegral) →
    ∃ cause, (lowerFunctions nodes state).2.result = .error (.unsupported cause) := by
  induction nodes with
  | nil =>
    intro state _ mixed
    exact absurd (fun _ member => absurd member List.not_mem_nil) mixed
  | cons node nodes ih =>
    intro state expects mixed
    have isIn := expects.placed node List.mem_cons_self
    rw [lowerFunctions]
    by_cases integral : node.FunctionIntegral
    · cases node with
      | function info returnType name parameters body =>
        obtain ⟨symbol, top, after, _, lowered, _, advances, holds⟩ :=
          lowerFunction_spec isIn expects.sound expects.fresh integral
        obtain ⟨cause, failed⟩ := ih (expects.later advances holds)
          fun integral' => mixed (List.forall_mem_cons.2 ⟨integral, integral'⟩)
        refine ⟨cause, ?_⟩
        simp only [lowered, Traced.result_bind, Traced.result_report, ok_bind, failed, error_bind]
      | _ => exact isIn.elim
    · obtain ⟨cause, after, failed⟩ := unsupported_function isIn expects.sound expects.fresh integral
      refine ⟨cause, ?_⟩
      simp only [failed]
      rfl

end Node

/-- A resolved and checked program with reals is not compiled. -/
theorem lower_unsupported {analysis : Analysis} {info : Info} {functions : List Node}
    (isTree : analysis.tree = .program info functions)
    (inTable : Node.ProgramIn analysis.table functions)
    (mixed : ¬ ∀ node ∈ functions, node.FunctionIntegral) (options : Options) :
    ∃ cause, (analysis.lower options).result = .error (.unsupported cause) := by
  obtain ⟨cause, failed⟩ := Node.unsupported_functions (programIn_folded options inTable).expects
    fun integral => mixed ((integral_folded options).1 integral)
  refine ⟨cause, ?_⟩
  unfold Analysis.lower
  rw [isTree]
  simp only [Traced.result_bind, result_optimize, ok_bind, Node.lower, failed, error_bind]

/-- Whether the program that a source text is analyzed to is one of integers shows in its tokens. -/
theorem integral_iff_freeOfReals {source : String} {analysis : Analysis} {info : Info}
    {functions : List Node} (analyzed : (analyze source).result = .ok analysis)
    (isTree : analysis.tree = .program info functions) :
    (∀ node ∈ functions, node.FunctionIntegral) ↔ FreeOfReals (lex source).tokens := by
  rw [result_analyze] at analyzed
  obtain ⟨tree, parsed, analyzed⟩ := bind_eq_ok.1 analyzed
  obtain ⟨table, _, analyzed⟩ := bind_eq_ok.1 analyzed
  obtain ⟨_, _, last⟩ := bind_eq_ok.1 analyzed
  cases last
  obtain ⟨tokens, read, ⟨areFunctions, _, isStop⟩, _⟩ := Node.derives_of_parse parsed
  rw [(Lexing.toExcept_eq_ok.1 read).2, freeOfReals_append, freeOfReals_skip isStop (by decide),
    areFunctions.functions_integral_iff, and_iff_left freeOfReals_nil,
    ← Node.functionsIntegral_walkAll ⟨Table.global, none⟩ (Node.parse_isProgram parsed) .initial]
  rw [Node.resolve_eq_walk] at isTree
  rw [Node.walk] at isTree
  obtain ⟨_, rfl⟩ := Node.program.inj isTree
  exact Iff.rfl

/-- Compiling a source text that passes the analysis fails on reals only. -/
theorem compile_analyzed {source : String} {analysis : Analysis}
    (analyzed : (analyze source).result = .ok analysis) (options : Options) :
    (FreeOfReals (lex source).tokens ∧
      ∃ compilation, (compile source options).result = .ok compilation) ∨
    ¬ FreeOfReals (lex source).tokens ∧
      ∃ cause, (compile source options).result = .error (.unsupported cause) := by
  obtain ⟨_, info, functions, _, isTree, inTable, named, _⟩ := analyze_eq_ok analyzed
  unfold compile
  rw [Traced.result_bind, analyzed, ok_bind, ← integral_iff_freeOfReals analyzed isTree]
  by_cases integral : ∀ node ∈ functions, node.FunctionIntegral
  · exact .inl ⟨integral, exists_lower isTree inTable named integral options⟩
  · exact .inr ⟨integral, lower_unsupported isTree inTable integral options⟩

/-- Compiling never fails on a mistake of the compiler or in a run. A source text that passes the
analysis is compiled exactly if there is no real in it, and otherwise it is not supported. -/
theorem compile_fails_only_on_reals (source : String) (options : Options) :
    (∀ error, (compile source options).result = .error error →
      error.category ≠ .internal ∧ error.category ≠ .evaluation) ∧
    ((∃ analysis, (analyze source).result = .ok analysis) →
      ((∃ compilation, (compile source options).result = .ok compilation) ↔
        FreeOfReals (lex source).tokens) ∧
      (¬ FreeOfReals (lex source).tokens →
        ∃ cause, (compile source options).result = .error (.unsupported cause))) := by
  constructor
  · intro error failed
    cases analyzed : (analyze source).result with
    | error error' =>
      have same : error' = error := by
        unfold compile at failed
        rw [Traced.result_bind, analyzed] at failed
        exact Except.error.inj failed
      subst same
      rcases analyze_error_category analyzed with isCategory | isCategory | isCategory <;>
        simp [isCategory]
    | ok analysis =>
      rcases compile_analyzed analyzed options with ⟨_, _, compiled⟩ | ⟨_, _, unsupported⟩
      · rw [failed] at compiled
        cases compiled
      · rw [failed] at unsupported
        cases unsupported
        exact ⟨nofun, nofun⟩
  · rintro ⟨analysis, analyzed⟩
    rcases compile_analyzed analyzed options with ⟨free, compiled⟩ | ⟨notFree, cause, unsupported⟩
    · exact ⟨iff_of_true compiled free, fun notFree => absurd free notFree⟩
    · refine ⟨iff_of_false ?_ notFree, fun _ => ⟨cause, unsupported⟩⟩
      rintro ⟨compilation, compiled⟩
      rw [unsupported] at compiled
      cases compiled

/-- A function of reals that `main` does not call. -/
def unusedRealSource : String :=
  "double same(double x) { return x; } int main() { return 1; }"

theorem unused_real_unsupported :
    (∃ analysis, (analyze unusedRealSource).result = .ok analysis) ∧
      ¬ FreeOfReals (lex unusedRealSource).tokens ∧
      ∃ cause, (compile unusedRealSource { level := 1 }).result = .error (.unsupported cause) := by
  have isReal : ¬ FreeOfReals (lex unusedRealSource).tokens := by decide +kernel
  have accepted : (analyze unusedRealSource).result.isOk := by decide +kernel
  cases analyzed : (analyze unusedRealSource).result with
  | ok analysis =>
    obtain ⟨_, unsupported⟩ :=
      (compile_fails_only_on_reals unusedRealSource { level := 1 }).2 ⟨analysis, analyzed⟩
    exact ⟨⟨analysis, rfl⟩, isReal, unsupported isReal⟩
  | error error =>
    rw [analyzed] at accepted
    cases accepted

end MiniC
