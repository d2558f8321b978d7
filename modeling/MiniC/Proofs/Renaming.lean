import MiniC.Proofs.RelabelledCode
import MiniC.Proofs.Symbols
import MiniC.Proofs.Tiling

/-!
# Names of variables do not affect the generated code

Giving other names to parameters and variables, different ones to different names, changes nothing
about the assembly of a program, nor about what its functions compute. Whether the program is
accepted does not change either.

A renaming is extended to all texts, so that it is a relabelling: what is not a name of the source
stays, as types and temporaries do. No name is mapped to one of these, so it stays injective. That
the functions keep their names is all that is left to show of the generated code, and it calls
nothing but functions of the program.
-/

namespace MiniC

/-! ## Renaming a tree -/

/-- The texts that are read as names. -/
def IsName (text : String) : Prop := TokenKind.identifier.Holds text.toList

/-- Another name for every name, a different one for each. -/
structure Renaming where
  name : String → String
  isName : ∀ {text : String}, IsName text → IsName (name text)
  injective : ∀ {a b : String}, IsName a → IsName b → name a = name b → a = b

namespace Node

variable (ρ : Renaming)

mutual
/-- Rename parameters and variables where they are declared, assigned and used. -/
def rename : Node → Node
  | empty info => empty info
  | program info functions => program info (renameAll functions)
  | function info returnType name parameters body =>
      function info returnType name (renameAll parameters) body.rename
  | parameter info ty name => parameter info ty (ρ.name name)
  | call info callee arguments => call info callee.rename (renameAll arguments)
  | returnValue info value => returnValue info value.rename
  | block info declarations statements =>
      block info (renameAll declarations) (renameAll statements)
  | declaration info ty name => declaration info ty (ρ.name name)
  | assignment info target value => assignment info (ρ.name target) value.rename
  | ifThen info condition consequent => ifThen info condition.rename consequent.rename
  | ifElse info condition consequent alternative =>
      ifElse info condition.rename consequent.rename alternative.rename
  | binary info op lhs rhs => binary info op lhs.rename rhs.rename
  | unary info op operand => unary info op operand.rename
  | identifier info name => identifier info (ρ.name name)
  | integer info value => integer info value
  | real info value => real info value
def renameAll : List Node → List Node
  | [] => []
  | node :: nodes => node.rename :: renameAll nodes
end

end Node

/-! ## Renamings are relabellings -/

theorem IsName.isIdentifier {text : String} (isName : IsName text) : IsIdentifier text := by
  obtain ⟨⟨c, more, isText, start, chars, _⟩, _⟩ := isName
  refine ⟨?_, isText ▸ List.cons_ne_nil c more, ?_⟩
  · rw [isText]
    exact List.forall_mem_cons.2 ⟨isWordChar_of_isWordStart start, chars⟩
  · rw [isText]
    rintro _ ⟨⟩
    exact start

theorem not_isName_type (ty : Ty) : ¬ IsName ty.name := by
  intro isName
  refine isName.2 ?_
  cases ty <;> decide

namespace Renaming

variable (ρ : Renaming)

open Classical in
/-- What is no name stays as it is. -/
noncomputable def onTexts (text : String) : String :=
  if IsName text then ρ.name text else text

theorem onTexts_name {text : String} (isName : IsName text) : ρ.onTexts text = ρ.name text :=
  if_pos isName

theorem onTexts_other {text : String} (noName : ¬ IsName text) : ρ.onTexts text = text :=
  if_neg noName

theorem isName_onTexts {text : String} : IsName (ρ.onTexts text) ↔ IsName text := by
  by_cases isName : IsName text
  · rw [ρ.onTexts_name isName]
    exact ⟨fun _ => isName, ρ.isName⟩
  · rw [ρ.onTexts_other isName]

theorem onTexts_injective {a b : String} (same : ρ.onTexts a = ρ.onTexts b) : a = b := by
  have both : IsName a ↔ IsName b := by
    rw [← ρ.isName_onTexts, same, ρ.isName_onTexts]
  by_cases isName : IsName a
  · rw [ρ.onTexts_name isName, ρ.onTexts_name (both.1 isName)] at same
    exact ρ.injective isName (both.1 isName) same
  · rwa [ρ.onTexts_other isName, ρ.onTexts_other (mt both.2 isName)] at same

noncomputable def relabelling : Relabelling where
  place := id
  name := ρ.onTexts
  injective := ρ.onTexts_injective
  types ty := ρ.onTexts_other (not_isName_type ty)
  temporaries n := ρ.onTexts_other fun isName => isName.isIdentifier.ne_temporaryName n rfl

theorem keeps_functions {names : List String} (kept : ∀ name ∈ names, ρ.name name = name) :
    ∀ name ∈ names, ρ.relabelling.name name = name := by
  intro name member
  by_cases isName : IsName name
  · exact (ρ.onTexts_name isName).trans (kept name member)
  · exact ρ.onTexts_other isName

end Renaming

/-! ## Parsed trees -/

/-- Every identifier among the tokens is a name. -/
def NamesHold (tokens : List Token) : Prop :=
  ∀ token ∈ tokens, token.kind = .identifier → IsName token.text

theorem namesHold_lex (source : String) : NamesHold (lex source).tokens := by
  intro token member isKind
  have isInner : token.IsInner := by
    intro isStop
    rw [isKind] at isStop
    cases isStop
  obtain ⟨c, more, isText, _, read⟩ := isSpelling_of_mem_lexFrom token member isInner
  have found := (lexeme_holds (read [] trivial)).1
  rw [isKind] at found
  rwa [IsName, isText, String.toList_ofList]

namespace Grammar

variable (ρ : Renaming)

mutual
theorem Sum.rename_eq {word : List Token} {node : Node} : Sum word node → NamesHold word →
    ρ.relabelling.node node = node.rename ρ
  | .single isProduct, hold => isProduct.rename_eq hold
  | .chain isLhs _ isRhs, hold => by
    rw [NamesHold, List.forall_mem_append, List.forall_mem_cons] at hold
    rw [Relabelling.node, Node.rename, isLhs.rename_eq hold.1, isRhs.rename_eq hold.2.2]
    rfl
theorem Product.rename_eq {word : List Token} {node : Node} : Product word node → NamesHold word →
    ρ.relabelling.node node = node.rename ρ
  | .single isSigned, hold => isSigned.rename_eq hold
  | .chain isLhs _ isRhs, hold => by
    rw [NamesHold, List.forall_mem_append, List.forall_mem_cons] at hold
    rw [Relabelling.node, Node.rename, isLhs.rename_eq hold.1, isRhs.rename_eq hold.2.2]
    rfl
theorem Signed.rename_eq {word : List Token} {node : Node} : Signed word node → NamesHold word →
    ρ.relabelling.node node = node.rename ρ
  | .plain isPrimary, hold => isPrimary.rename_eq hold
  | .sign _ isOperand, hold => by
    rw [NamesHold, List.forall_mem_cons] at hold
    rw [Relabelling.node, Node.rename, isOperand.rename_eq hold.2]
    rfl
theorem Primary.rename_eq {word : List Token} {node : Node} : Primary word node → NamesHold word →
    ρ.relabelling.node node = node.rename ρ
  | .parentheses _ isSum _, hold => by
    rw [NamesHold, List.forall_mem_cons, List.forall_mem_append] at hold
    exact isSum.rename_eq hold.2.1
  | .name isName, hold => by
    rw [Relabelling.node, Node.rename, ← ρ.onTexts_name (hold _ List.mem_cons_self isName)]
    rfl
  | .integer _, _ => rfl
  | .real _, _ => rfl
  | .call isName _ areArguments _, hold => by
    rw [NamesHold, List.forall_mem_cons, List.forall_mem_cons, List.forall_mem_append] at hold
    rw [Relabelling.node, Node.rename, areArguments.rename_eq hold.2.2.1, Relabelling.node,
      Node.rename, ← ρ.onTexts_name (hold.1 isName)]
    rfl
theorem Series.rename_eq {word : List Token} {nodes : List Node} : Series Sum word nodes →
    NamesHold word → ρ.relabelling.nodes nodes = Node.renameAll ρ nodes
  | .none, _ => rfl
  | .some isListed, hold => isListed.rename_eq hold
theorem Listed.rename_eq {word : List Token} {nodes : List Node} : Listed Sum word nodes →
    NamesHold word → ρ.relabelling.nodes nodes = Node.renameAll ρ nodes
  | .last isSum, hold => congrArg (fun node => [node]) (isSum.rename_eq hold)
  | .more isSum _ isListed, hold => by
    rw [NamesHold, List.forall_mem_append, List.forall_mem_cons] at hold
    rw [Relabelling.nodes, Node.renameAll, isSum.rename_eq hold.1, isListed.rename_eq hold.2.2]
end

theorem Many.rename_declarations {word : List Token} {nodes : List Node}
    (areDeclarations : Many Declaration word nodes) (hold : NamesHold word) :
    ρ.relabelling.nodes nodes = Node.renameAll ρ nodes := by
  induction areDeclarations with
  | nil => rfl
  | cons isDeclaration _ ih =>
    rw [NamesHold, List.forall_mem_append] at hold
    obtain ⟨_, isName, _⟩ := isDeclaration
    rw [Relabelling.nodes, Node.renameAll, ih hold.2, Relabelling.node, Node.rename,
      ← ρ.onTexts_name (hold.1 _ (by simp) isName)]
    rfl

mutual
theorem Statement.rename_eq {word : List Token} {node : Node} : Statement word node →
    NamesHold word → ρ.relabelling.node node = node.rename ρ
  | .block isBlock, hold => isBlock.rename_eq hold
  | .returnValue _ isValue _, hold => by
    rw [NamesHold, List.forall_mem_cons, List.forall_mem_append] at hold
    rw [Relabelling.node, Node.rename, isValue.rename_eq ρ hold.2.1]
    rfl
  | .empty _, _ => rfl
  | .assignment isName _ isValue _, hold => by
    rw [NamesHold, List.forall_mem_cons, List.forall_mem_cons, List.forall_mem_append] at hold
    rw [Relabelling.node, Node.rename, isValue.rename_eq ρ hold.2.2.1,
      ← ρ.onTexts_name (hold.1 isName)]
    rfl
  | .ifThen _ _ isTest _ isConsequent, hold => by
    rw [NamesHold, List.forall_mem_cons, List.forall_mem_cons, List.forall_mem_append,
      List.forall_mem_cons] at hold
    rw [Relabelling.node, Node.rename, isTest.rename_eq ρ hold.2.2.1,
      isConsequent.rename_eq hold.2.2.2.2]
    rfl
  | .ifElse _ _ isTest _ isConsequent _ isAlternative, hold => by
    rw [NamesHold, List.forall_mem_cons, List.forall_mem_cons, List.forall_mem_append,
      List.forall_mem_cons, List.forall_mem_append, List.forall_mem_cons] at hold
    rw [Relabelling.node, Node.rename, isTest.rename_eq ρ hold.2.2.1,
      isConsequent.rename_eq hold.2.2.2.2.1, isAlternative.rename_eq hold.2.2.2.2.2.2]
    rfl
theorem Block.rename_eq {word : List Token} {node : Node} : Block word node → NamesHold word →
    ρ.relabelling.node node = node.rename ρ
  | .empty _ _, _ => rfl
  | .full _ areDeclarations areStatements _ _, hold => by
    rw [NamesHold, List.forall_mem_cons, List.forall_mem_append, List.forall_mem_append] at hold
    rw [Relabelling.node, Node.rename, areDeclarations.rename_declarations ρ hold.2.1,
      rename_statements areStatements hold.2.2.1]
    rfl
theorem rename_statements {word : List Token} {nodes : List Node} : Many Statement word nodes →
    NamesHold word → ρ.relabelling.nodes nodes = Node.renameAll ρ nodes
  | .nil, _ => rfl
  | .cons isStatement areStatements, hold => by
    rw [NamesHold, List.forall_mem_append] at hold
    rw [Relabelling.nodes, Node.renameAll, isStatement.rename_eq hold.1,
      rename_statements areStatements hold.2]
end

theorem Parameter.rename_eq {word : List Token} {node : Node} (isParameter : Parameter word node)
    (hold : NamesHold word) : ρ.relabelling.node node = node.rename ρ := by
  obtain ⟨_, isName⟩ := isParameter
  rw [Relabelling.node, Node.rename, ← ρ.onTexts_name (hold _ (by simp) isName)]
  rfl

theorem Listed.rename_parameters {word : List Token} {nodes : List Node}
    (areParameters : Listed Parameter word nodes) (hold : NamesHold word) :
    ρ.relabelling.nodes nodes = Node.renameAll ρ nodes := by
  induction areParameters with
  | last isParameter => exact congrArg (fun node => [node]) (isParameter.rename_eq ρ hold)
  | more isParameter _ _ ih =>
    rw [NamesHold, List.forall_mem_append, List.forall_mem_cons] at hold
    rw [Relabelling.nodes, Node.renameAll, isParameter.rename_eq ρ hold.1, ih hold.2.2]

theorem Series.rename_parameters {word : List Token} {nodes : List Node}
    (areParameters : Series Parameter word nodes) (hold : NamesHold word) :
    ρ.relabelling.nodes nodes = Node.renameAll ρ nodes := by
  cases areParameters with
  | none => rfl
  | some isListed => exact isListed.rename_parameters ρ hold

/-- Functions are not renamed, so they have to keep their names. -/
theorem Many.rename_functions {word : List Token} {functions : List Node}
    (areFunctions : Many Function word functions) (hold : NamesHold word)
    (kept : ∀ name ∈ Node.functionNames functions, ρ.name name = name) :
    ρ.relabelling.nodes functions = Node.renameAll ρ functions := by
  induction areFunctions with
  | nil => rfl
  | cons isFunction _ ih =>
    rw [NamesHold, List.forall_mem_append] at hold
    obtain ⟨_, isName, _, areParameters, _, isBlock⟩ := isFunction
    obtain ⟨first, later⟩ := List.forall_mem_cons.1 kept
    simp only [List.forall_mem_cons, List.forall_mem_append] at hold
    obtain ⟨⟨_, holdsName, _, holdInputs, _, holdCode⟩, holdLater⟩ := hold
    rw [Relabelling.nodes, Node.renameAll, ih holdLater later, Relabelling.node, Node.rename,
      areParameters.rename_parameters ρ holdInputs, isBlock.rename_eq ρ holdCode]
    have same := (ρ.onTexts_name (holdsName isName)).trans first
    exact congrArg (· :: _) (congrArg (Node.function _ _ · _ _) same)

end Grammar

/-- Renaming a parsed tree relabels it. -/
theorem Node.rename_eq {source : String} {tree : Node} (parsed : Node.parse source = .ok tree)
    (ρ : Renaming) (kept : ∀ name ∈ tree.definedFunctions, ρ.name name = name) :
    tree.rename ρ = ρ.relabelling.node tree := by
  obtain ⟨tokens, read, ⟨areFunctions, _, _⟩, _⟩ := Node.derives_of_parse parsed
  obtain ⟨_, split⟩ := Lexing.toExcept_eq_ok.1 read
  have hold := namesHold_lex source
  rw [split, NamesHold, List.forall_mem_append] at hold
  rw [Relabelling.node, Node.rename, areFunctions.rename_functions ρ hold.1 kept]
  rfl

/-! ## Generated code -/

section Generated

variable {source : String} {tree : Node} {options : Options}

theorem code_of_lower {analysis : Analysis} {compilation : Compilation}
    (lowered : (analysis.lower options).result = .ok compilation) :
    analysis.code options = .ok compilation.code := by
  unfold Analysis.lower at lowered
  simp only [Traced.result_bind, Traced.result_report, Traced.result_pure, ok_bind] at lowered
  obtain ⟨tree, optimized, lowered⟩ := bind_eq_ok.1 lowered
  obtain ⟨code, generated, lowered⟩ := bind_eq_ok.1 lowered
  obtain ⟨listing, _, last⟩ := bind_eq_ok.1 lowered
  cases last
  exact bind_eq_ok.2 ⟨tree, optimized, generated⟩

/-- Code that is generated is also assembled. -/
theorem exists_compilation {analysis : Analysis} {code : Code}
    (parsed : Node.parse source = .ok tree) (analyzed : tree.analysis = .ok analysis)
    (generated : analysis.code options = .ok code) :
    ∃ compilation, (compile source options).result = .ok compilation ∧ compilation.code = code := by
  have accepted : (analyze source).result = .ok analysis := by
    rw [result_analyze, parsed]
    exact analyzed
  obtain ⟨_, info, functions, _, isTree, inTable, named, _⟩ := analyze_eq_ok accepted
  unfold Analysis.code at generated
  rw [isTree, result_optimize, ok_bind] at generated
  -- Reals are all that keeps an analyzed program from being assembled, and they are not lowered.
  have integral : ∀ node ∈ options.folded functions, node.FunctionIntegral := by
    rw [Node.lower] at generated
    simp only [Traced.result_bind] at generated
    obtain ⟨codes, lowered, _⟩ := bind_eq_ok.1 generated
    exact Node.integral_of_lowerFunctions lowered
  obtain ⟨compilation, lowered⟩ :=
    exists_lower isTree inTable named ((integral_folded options).1 integral) options
  refine ⟨compilation, ?_, ?_⟩
  · unfold compile
    rw [Traced.result_bind, accepted]
    exact lowered
  · have same := code_of_lower lowered
    unfold Analysis.code at same
    rw [isTree, result_optimize, ok_bind, generated] at same
    exact (Except.ok.inj same).symm

theorem mention?_of_call {quad : Quad} {callee : String} (isCall : quad.op = .call)
    (isName : quad.name .operand1 = .ok callee) : quad.mention? = some (.call callee) := by
  unfold Quad.name at isName
  split at isName
  · next found =>
    cases isName
    unfold Quad.mention?
    rw [isCall, show quad.operand1 = _ from found]
  · cases isName

/-- Generated code calls functions of the program, so it keeps its names if they do. -/
theorem keeps_of_compile {compilation : Compilation} {r : Relabelling}
    (compiled : (compile source options).result = .ok compilation)
    (kept : ∀ name ∈ sourceNames source, r.name name = name) : r.Keeps compilation.code := by
  obtain ⟨functions, state, loweredTo, _, _, names⟩ := lowered_of_compile compiled
  refine ⟨fun function member => kept _ ((names _).1 (List.mem_map_of_mem member)), ?_⟩
  intro function member quad inBody callee isCall isName
  have calls : .call callee ∈ function.mentions :=
    List.mem_cons_of_mem _ (List.mem_filterMap.2 ⟨quad, inBody, mention?_of_call isCall isName⟩)
  exact kept _ ((names _).1 (loweredTo.calls member calls))

/-- What a run of a compiled program fails with is the same for all names of variables. -/
theorem error_of_run {compilation : Compilation} (r : Relabelling)
    (compiled : (compile source options).result = .ok compilation) {function : String}
    {arguments : List Int32} {error : Error}
    (failed : (compilation.run function arguments).result = .error error) :
    r.error error = error := by
  obtain ⟨tree, parsed, means⟩ := result_run_eq_interpret compiled
  have isArity : sourceArity? source function = (tree.function? function).map (·.1.length) := by
    rw [sourceArity?, parsed]
  -- There is no such function, or it takes another number of arguments, or the run has trapped.
  -- None of these names a variable.
  cases found : tree.function? function with
  | none =>
    have unknown : tree.interpret function arguments = .error (.evaluation (.noCode function)) := by
      rw [Node.interpret, maxCallDepth, Node.callWithin, found]
    rw [means, unknown] at failed
    cases failed
    rfl
  | some definition =>
    obtain ⟨parameters, body⟩ := definition
    rw [found] at isArity
    by_cases sameLength : parameters.length = arguments.length
    · have safe := result_run_safe compiled (isArity.trans (congrArg some sameLength))
      rw [failed] at safe
      cases safe <;> rfl
    · have refused : tree.interpret function arguments =
          .error (.evaluation (.argumentCount function parameters.length arguments.length)) := by
        rw [Node.interpret, maxCallDepth, Node.callWithin, found]
        simp only [sameLength, ne_eq, not_false_eq_true, if_true]
        rfl
      rw [means, refused] at failed
      cases failed
      rfl

/-- A name that no function has cannot be called. -/
theorem Code.run_unknown {code : Code} {name : String} (unknown : name ∉ code.functions.map (·.name))
    (table : Table) (arguments : List Int32) :
    (code.run table name arguments).result = .error (.evaluation (.noCode name)) := by
  have missing : code.functions.find? (·.name = name) = none := by
    rw [List.find?_eq_none]
    intro function member isName
    exact unknown (List.mem_map.2 ⟨function, member, of_decide_eq_true isName⟩)
  rw [Code.run, maxCallDepth, Code.callWithin, Traced.result_bind, Traced.result_ofExcept,
    Code.enter, Code.body?, missing]
  rfl

theorem Relabelling.Keeps.names_code {r : Relabelling} {code : Code} (keeps : r.Keeps code) :
    (r.code code).functions.map (·.name) = code.functions.map (·.name) := by
  unfold Relabelling.code
  rw [List.map_map]
  exact List.map_congr_left keeps.names

/-- Relabelled code that keeps the names of functions computes the same. -/
theorem run_relabelled {compilation : Compilation} {r : Relabelling}
    (compiled : (compile source options).result = .ok compilation)
    (kept : ∀ name ∈ sourceNames source, r.name name = name) (function : String)
    (arguments : List Int32) :
    ((r.compilation compilation).run function arguments).result =
      (compilation.run function arguments).result := by
  have keeps := keeps_of_compile compiled kept
  by_cases known : function ∈ compilation.code.functions.map (·.name)
  · obtain ⟨code, member, rfl⟩ := List.mem_map.1 known
    refine (r.run_code compilation.table keeps (keeps.names code member) arguments).trans ?_
    cases result : (compilation.code.run compilation.table code.name arguments).result with
    | ok value => exact result.symm
    | error error => exact (congrArg Except.error (error_of_run r compiled result)).trans result.symm
  · refine Eq.trans ?_ (Code.run_unknown known _ arguments).symm
    refine Code.run_unknown ?_ _ arguments
    rw [show (r.compilation compilation).code = r.code compilation.code from rfl, keeps.names_code]
    exact known

end Generated

/-! ## Renamed programs -/

theorem definedFunctions_eq {source : String} {tree : Node} (parsed : Node.parse source = .ok tree) :
    tree.definedFunctions = sourceNames source := by
  unfold sourceNames
  rw [parsed]
  cases tree <;> rfl

/-- A renamed tree is compiled to relabelled code and the same listing. -/
theorem Node.compile_rename {source : String} {tree : Node} (parsed : Node.parse source = .ok tree)
    {ρ : Renaming} (kept : ∀ name ∈ tree.definedFunctions, ρ.name name = name)
    (options : Options) : (tree.rename ρ).compile options =
      ρ.relabelling.result ρ.relabelling.compilation (tree.compile options) := by
  have kept' := ρ.keeps_functions kept
  rw [Node.rename_eq parsed ρ kept]
  refine ρ.relabelling.compile_node kept' fun analysis analyzed code generated => ?_
  obtain ⟨compilation, compiled, rfl⟩ := exists_compilation parsed analyzed generated
  exact keeps_of_compile compiled (definedFunctions_eq parsed ▸ kept')

/-- Names of variables do not affect the generated code: a parsed tree with other names for them is
accepted exactly if it was accepted before, at every level of optimization, and then has the same
assembly, and every function computes the same from the same arguments. -/
theorem renaming_keeps_code {source : String} {tree : Node} (parsed : Node.parse source = .ok tree)
    (ρ : Renaming) (kept : ∀ name ∈ tree.definedFunctions, ρ.name name = name) (options : Options) :
    ((∃ renamed, (tree.rename ρ).compile options = .ok renamed) ↔
      ∃ compilation, tree.compile options = .ok compilation) ∧
    ∀ compilation renamed, tree.compile options = .ok compilation →
      (tree.rename ρ).compile options = .ok renamed →
      renamed.assembly = compilation.assembly ∧ ∀ function arguments,
        (renamed.run function arguments).result = (compilation.run function arguments).result := by
  have same := Node.compile_rename parsed kept options
  cases compiled : tree.compile options with
  | error error =>
    rw [compiled] at same
    refine ⟨iff_of_false ?_ ?_, fun _ _ impossible => by cases impossible⟩
    · rintro ⟨_, found⟩
      cases same.symm.trans found
    · rintro ⟨_, found⟩
      cases found
  | ok compilation =>
    rw [compiled] at same
    refine ⟨iff_of_true ⟨_, same⟩ ⟨_, rfl⟩, fun _ renamed isFirst isRenamed => ?_⟩
    cases isFirst
    cases same.symm.trans isRenamed
    have accepted : (MiniC.compile source options).result = .ok compilation := by
      rw [result_compile, parsed]
      exact compiled
    exact ⟨rfl, run_relabelled accepted (definedFunctions_eq parsed ▸ ρ.keeps_functions kept)⟩

/-- Two names change places. -/
def Renaming.swap {a b : String} (isFirst : IsName a) (isSecond : IsName b) : Renaming where
  name text := if text = a then b else if text = b then a else text
  isName {text} isName := by
    split
    · exact isSecond
    · split
      · exact isFirst
      · exact isName
  injective {x y} _ _ same := by
    grind

def shadowingSource : String :=
  "int twice(int count) { return count + count; }
int main(int count) {
  int total;
  total = twice(count);
  { int count; count = total; total = count * 3; }
  return total / count;
}"

theorem isName_count : IsName "count" :=
  ⟨⟨'c', ['o', 'u', 'n', 't'], rfl, rfl, List.all_eq_true.1 rfl, by decide⟩, by decide⟩

theorem isName_total : IsName "total" :=
  ⟨⟨'t', ['o', 't', 'a', 'l'], rfl, rfl, List.all_eq_true.1 rfl, by decide⟩, by decide⟩

theorem shadowing_keeps_code : ∃ tree compilation renamed,
    Node.parse shadowingSource = .ok tree ∧
      (∀ name ∈ tree.definedFunctions, (Renaming.swap isName_count isName_total).name name = name) ∧
      tree.compile { level := 1 } = .ok compilation ∧
      (tree.rename (Renaming.swap isName_count isName_total)).compile { level := 1 } = .ok renamed ∧
      renamed.assembly = compilation.assembly ∧
      (renamed.run "main" [0]).result = (compilation.run "main" [0]).result := by
  have accepted : (Node.parse shadowingSource).toOption.any fun tree =>
      tree.definedFunctions = ["twice", "main"] && (tree.compile { level := 1 }).isOk := by
    decide +kernel
  cases parsed : Node.parse shadowingSource with
  | error error =>
    rw [parsed] at accepted
    cases accepted
  | ok tree =>
    rw [parsed] at accepted
    obtain ⟨named, accepted⟩ := Bool.and_eq_true_iff.1 accepted
    have kept : ∀ name ∈ tree.definedFunctions,
        (Renaming.swap isName_count isName_total).name name = name := by
      rw [of_decide_eq_true named]
      decide
    obtain ⟨both, same⟩ := renaming_keeps_code parsed _ kept { level := 1 }
    cases compiled : tree.compile { level := 1 } with
    | error error =>
      rw [compiled] at accepted
      cases accepted
    | ok compilation =>
      obtain ⟨renamed, isRenamed⟩ := both.2 ⟨compilation, compiled⟩
      obtain ⟨sameText, sameRuns⟩ := same compilation renamed compiled isRenamed
      exact ⟨tree, compilation, renamed, rfl, kept, compiled, isRenamed, sameText,
        sameRuns "main" [0]⟩

end MiniC
