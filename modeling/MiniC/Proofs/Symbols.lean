import MiniC.Proofs.Assembled

/-!
# Names in the assembly

An assembler puts all names of a file into one space: the functions, whose names the source chooses,
and the labels, which are numbered. Functions have different names, and so have labels, because one
numbering goes through all functions. What can happen is that a function has the name of a label that
the program uses. Then the name is defined twice, and no other name ever is.

Every jump stays in its function, and every call names a function of the program.
-/

namespace MiniC

open Assembly (Line Instruction instructions quadLines functionLines activeLines)

/-! ## Jumps stay in their function -/

/-- The label that a quadruple may jump to. -/
def Quad.target? (quad : Quad) : Option Label :=
  match quad.op, quad.operand1, quad.operand2 with
  | .ret, some (.label label), _ => some label
  | .jump, some (.label label), _ => some label
  | .jumpIfNot, _, some (.label label) => some label
  | _, _, _ => none

/-- The labels that are jumped to. -/
def targets (code : List Quad) : List Label :=
  code.filterMap Quad.target?

theorem targets_append (first second : List Quad) :
    targets (first ++ second) = targets first ++ targets second :=
  List.filterMap_append

theorem targets_cons (quad : Quad) (code : List Quad) :
    targets (quad :: code) = quad.target?.toList ++ targets code := by
  unfold targets
  rw [List.filterMap_cons]
  cases quad.target? <;> rfl

namespace Node

theorem targets_pushes (names : List String) (scope : ScopeId) :
    targets (names.map (Quad.param · scope)) = [] := by
  induction names with
  | nil => rfl
  | cons name names ih => exact ih

mutual
/-- An expression has no jumps. -/
theorem targets_valueCode (scope : ScopeId) : (node : Node) → ∀ next : Nat,
    targets (node.valueCode scope next) = []
  | integer .. => fun _ => rfl
  | unary info op operand => by
    intro next
    rw [valueCode, targets_append, targets_valueCode scope operand]
    cases op <;> rfl
  | binary info op lhs rhs => by
    intro next
    rw [valueCode, targets_append, targets_append, targets_valueCode scope lhs,
      targets_valueCode scope rhs]
    cases op <;> rfl
  | call info callee arguments => by
    intro next
    rw [valueCode, targets_append, targets_append, targets_valueCodes scope arguments,
      targets_pushes]
    rfl
  | empty .. | program .. | function .. | parameter .. | returnValue .. | block .. | declaration ..
  | assignment .. | ifThen .. | ifElse .. | identifier .. | real .. => fun _ => rfl
theorem targets_valueCodes (scope : ScopeId) : (nodes : List Node) → ∀ next : Nat,
    targets (valueCodes scope next nodes) = []
  | [] => fun _ => rfl
  | node :: nodes => by
    intro next
    rw [valueCodes, targets_append, targets_valueCode scope node, targets_valueCodes scope nodes]
    rfl
end

mutual
/-- A statement jumps to labels that it marks, or to the exit of its function. -/
theorem targets_statementCode (exit : Label) : (node : Node) →
    ∀ (scope : ScopeId) (next label : Nat),
    targets (node.statementCode exit scope next label) ⊆
      exit :: marks (node.statementCode exit scope next label)
  | block info declarations statements => fun _ _ _ => targets_statementsCode exit statements _ _ _
  | returnValue info value => by
    intro scope next label
    rw [statementCode, targets_append, targets_valueCode]
    exact List.cons_subset_cons exit (List.nil_subset _)
  | assignment info target value => by
    intro scope next label
    rw [statementCode, targets_append, targets_valueCode]
    exact List.nil_subset _
  | ifThen info condition consequent => by
    intro scope next label
    have inner := targets_statementCode exit consequent scope (next + condition.temporaryCount)
      (label + 1)
    have jumped : targets ((ifThen info condition consequent).statementCode exit scope next label) =
        ⟨label⟩ :: targets (consequent.statementCode exit scope (next + condition.temporaryCount)
          (label + 1)) := by
      rw [statementCode, targets_append, targets_valueCode, targets_cons, targets_append]
      exact congrArg (List.cons _) (List.append_nil _)
    have marked : marks ((ifThen info condition consequent).statementCode exit scope next label) =
        marks (consequent.statementCode exit scope (next + condition.temporaryCount) (label + 1)) ++
          [⟨label⟩] := by
      rw [statementCode, marks_append, marks_valueCode, marks_cons, marks_append]
      rfl
    rw [jumped, marked]
    grind
  | ifElse info condition consequent alternative => by
    intro scope next label
    have positive := targets_statementCode exit consequent scope (next + condition.temporaryCount)
      (label + 1)
    have negative := targets_statementCode exit alternative scope
      (next + condition.temporaryCount + consequent.temporaryCount)
      (label + 1 + consequent.labelCount + 1)
    have jumped : targets ((ifElse info condition consequent alternative).statementCode exit scope
          next label) =
        ⟨label⟩ :: (targets (consequent.statementCode exit scope (next + condition.temporaryCount)
          (label + 1)) ++ ⟨label + 1 + consequent.labelCount⟩ ::
            targets (alternative.statementCode exit scope
              (next + condition.temporaryCount + consequent.temporaryCount)
              (label + 1 + consequent.labelCount + 1))) := by
      rw [statementCode, targets_append, targets_valueCode, targets_cons, targets_append,
        targets_cons, targets_cons, targets_append]
      exact congrArg (fun rest => _ :: (_ ++ _ :: rest)) (List.append_nil _)
    have marked : marks ((ifElse info condition consequent alternative).statementCode exit scope
          next label) =
        marks (consequent.statementCode exit scope (next + condition.temporaryCount) (label + 1)) ++
          ⟨label⟩ :: (marks (alternative.statementCode exit scope
            (next + condition.temporaryCount + consequent.temporaryCount)
            (label + 1 + consequent.labelCount + 1)) ++ [⟨label + 1 + consequent.labelCount⟩]) := by
      rw [statementCode, marks_append, marks_valueCode, marks_cons, marks_append, marks_cons,
        marks_cons, marks_append]
      rfl
    rw [jumped, marked]
    grind
  | empty .. | program .. | function .. | parameter .. | call .. | declaration .. | binary ..
  | unary .. | identifier .. | integer .. | real .. => fun _ _ _ => List.nil_subset _
theorem targets_statementsCode (exit : Label) : (nodes : List Node) →
    ∀ (scope : ScopeId) (next label : Nat),
    targets (statementsCode exit scope next label nodes) ⊆
      exit :: marks (statementsCode exit scope next label nodes)
  | [] => fun _ _ _ => List.nil_subset _
  | node :: nodes => by
    intro scope next label
    have first := targets_statementCode exit node scope next label
    have rest := targets_statementsCode exit nodes scope (next + node.temporaryCount)
      (label + node.labelCount)
    rw [statementsCode, targets_append, marks_append]
    grind
end

/-- A function jumps to labels that it marks itself. -/
theorem targets_functionCode (scope : ScopeId) (next label : Nat) (body : Node) :
    targets (body.functionCode scope next label) ⊆ marks (body.functionCode scope next label) := by
  have inner := targets_statementCode ⟨label⟩ body scope next (label + 1)
  have jumped : targets (body.functionCode scope next label) =
      targets (body.statementCode ⟨label⟩ scope next (label + 1)) := by
    rw [functionCode, targets_append]
    exact List.append_nil _
  have marked : marks (body.functionCode scope next label) =
      marks (body.statementCode ⟨label⟩ scope next (label + 1)) ++ [⟨label⟩] := by
    rw [functionCode, marks_append]
    rfl
  rw [jumped, marked]
  grind

end Node

/-! ## What the lines of an assembly name -/

/-- A name in a line: where it is defined, called, or jumped to. -/
inductive Mention where
  | definition (name : String)
  | call (name : String)
  | jump (name : String)
deriving DecidableEq, Repr

namespace Mention

def defined? : Mention → Option String
  | definition name => some name
  | call _ | jump _ => none

/-- The operand of a call or a jump. -/
def used? : Mention → Option String
  | definition _ => none
  | call name | jump name => some name

end Mention

namespace Assembly

/-- The name in a line, the labels of jumps being names too. -/
def Line.mention? : Line → Option Mention
  | entry function => some (.definition function)
  | label target => some (.definition target.text)
  | instruction (.call function) => some (.call function)
  | instruction (.jmp target) | instruction (.je target) => some (.jump target.text)
  | _ => none

/-- All names in the lines of an assembly text, in order. -/
def mentions (assembly : String) : List Mention :=
  (Text.lines assembly).filterMap fun line => (Line.read? line).bind Line.mention?

/-- The names that an assembly text defines. -/
def definedNames (assembly : String) : List String :=
  (mentions assembly).filterMap Mention.defined?

/-- The names that an assembly text calls or jumps to. -/
def usedNames (assembly : String) : List String :=
  (mentions assembly).filterMap Mention.used?

theorem mentions_of_read? {assembly : String} {lines : List Line}
    (read : Assembly.read? assembly = some lines) :
    mentions assembly = lines.filterMap Line.mention? := by
  unfold Assembly.read? at read
  unfold mentions
  generalize Text.lines assembly = texts at read
  induction texts generalizing lines with
  | nil =>
    cases read
    rfl
  | cons text texts ih =>
    rw [List.mapM_cons] at read
    obtain ⟨line, isLine, read⟩ := Option.bind_eq_some_iff.1 read
    obtain ⟨rest, isRest, read⟩ := Option.bind_eq_some_iff.1 read
    cases read
    rw [List.filterMap_cons, List.filterMap_cons, isLine, Option.bind_some, ih isRest]

/-- The line that is read where this one is written: a function with the name of a label is entered
at what reads as that label. -/
def Line.asRead : Line → Line
  | entry function =>
    match Label.read? function with
    | some target => .label target
    | none => .entry function
  | line => line

theorem Line.asRead_entry (function : String) :
    (∃ target : Label, function = target.text ∧ (entry function).asRead = .label target) ∨
      (∀ target : Label, function ≠ target.text) ∧ (entry function).asRead = .entry function := by
  by_cases isLabel : ∃ target : Label, function = target.text
  · obtain ⟨target, rfl⟩ := isLabel
    refine .inl ⟨target, rfl, ?_⟩
    rw [asRead, Label.read?_text]
  · have apart : ∀ target : Label, function ≠ target.text := not_exists.1 isLabel
    refine .inr ⟨apart, ?_⟩
    rw [asRead, Label.read?_eq_none apart]

theorem Line.text_asRead (line : Line) : line.asRead.text = line.text := by
  cases line with
  | entry function =>
    rcases asRead_entry function with ⟨target, rfl, same⟩ | ⟨_, same⟩
    · rw [same]
      rfl
    · rw [same]
  | _ => rfl

theorem Line.mention?_asRead (line : Line) : line.asRead.mention? = line.mention? := by
  cases line with
  | entry function =>
    rcases asRead_entry function with ⟨target, rfl, same⟩ | ⟨_, same⟩
    · rw [same]
      rfl
    · rw [same]
  | _ => rfl

theorem Line.readable_entry {function : String} (isName : IsIdentifier function) :
    (entry function).asRead.Readable := by
  rcases asRead_entry function with ⟨target, rfl, same⟩ | ⟨apart, same⟩
  · rw [same]
    trivial
  · rw [same]
    exact ⟨isName, apart⟩

theorem Line.Readable.asRead {line : Line} (readable : line.Readable) : line.asRead.Readable := by
  cases line with
  | entry function => exact Line.readable_entry readable.1
  | _ => exact readable

/-- The names in the text of a listing are those in its lines. -/
theorem mentions_text {lines : List Line} (readable : ∀ line ∈ lines, line.asRead.Readable) :
    mentions (text lines) = lines.filterMap Line.mention? := by
  have same : text (lines.map Line.asRead) = text lines := by
    unfold text
    rw [List.map_map, Function.comp_def]
    simp only [Line.text_asRead]
  have read : read? (text (lines.map Line.asRead)) = some _ := read?_text fun line member => by
    obtain ⟨line', inLines, rfl⟩ := List.mem_map.1 member
    exact readable line' inLines
  rw [← same, mentions_of_read? read, List.filterMap_map, Function.comp_def]
  simp only [Line.mention?_asRead]

end Assembly

open Assembly (mentions definedNames usedNames)

/-! ## The lines of a program -/

/-- The name in the lines of a quadruple. -/
def Quad.mention? (quad : Quad) : Option Mention :=
  match quad.op, quad.operand1 with
  | .call, some (.name callee) => some (.call callee)
  | _, _ => (quad.marked?.map (.definition ·.text)).or (quad.target?.map (.jump ·.text))

/-- The names in the lines of a function: first its own, which is defined there. -/
def FunctionCode.mentions (function : FunctionCode) : List Mention :=
  .definition function.name :: function.body.toList.filterMap Quad.mention?

/-- The labels that the functions of a program mark. -/
def Code.labels (code : Code) : List Label :=
  code.functions.flatMap fun function => marks function.body.toList

theorem Quad.Emits.mentions {functions : String → Option Nat} {quad : Quad} {lines : List Line}
    (emits : quad.Emits functions lines) : lines.filterMap Line.mention? = quad.mention?.toList := by
  cases emits with
  | unary op | binary op => cases op <;> rfl
  | call =>
    unfold Assembly.callInstructions
    split <;> rfl
  | _ => rfl

/-- What a quadruple calls is known. -/
theorem Quad.Emits.callee_known {functions : String → Option Nat} {quad : Quad} {lines : List Line}
    (emits : quad.Emits functions lines) {callee : String}
    (calls : quad.mention? = some (.call callee)) : ∃ count, functions callee = some count := by
  cases emits with
  | call isKnown =>
    cases calls
    exact ⟨_, isKnown⟩
  | unary op | binary op => cases op <;> cases calls
  | _ => cases calls

theorem Quad.target_of_mention? {quad : Quad} {name : String}
    (jumps : quad.mention? = some (.jump name)) :
    ∃ target, quad.target? = some target ∧ name = target.text := by
  unfold mention? at jumps
  split at jumps
  · cases jumps
  · cases marked : quad.marked? with
    | some label =>
      rw [marked] at jumps
      cases jumps
    | none =>
      rw [marked, Option.map_none, Option.none_or, Option.map_eq_some_iff] at jumps
      obtain ⟨target, isTarget, same⟩ := jumps
      cases same
      exact ⟨target, isTarget, rfl⟩

theorem Quad.defined?_mention? (quad : Quad) :
    quad.mention?.bind Mention.defined? = quad.marked?.map Label.text := by
  unfold mention?
  split
  · next isCall isName =>
    unfold marked?
    rw [isCall]
    rfl
  · cases quad.marked? with
    | some label => rfl
    | none => cases quad.target? <;> rfl

theorem FunctionCode.defined_mentions (function : FunctionCode) :
    function.mentions.filterMap Mention.defined? =
      function.name :: (marks function.body.toList).map Label.text := by
  unfold mentions marks
  rw [List.filterMap_cons, List.filterMap_filterMap, List.map_filterMap]
  simp only [Mention.defined?, Quad.defined?_mention?]

theorem mentions_quads {table : Table} {code : List Quad}
    (mentions : ∀ quad ∈ code,
      (quadLines table quad).filterMap Line.mention? = quad.mention?.toList) :
    (code.flatMap (quadLines table)).filterMap Line.mention? = code.filterMap Quad.mention? := by
  induction code with
  | nil => rfl
  | cons quad code ih =>
    obtain ⟨first, later⟩ := List.forall_mem_cons.1 mentions
    rw [List.flatMap_cons, List.filterMap_append, first, ih later, List.filterMap_cons]
    cases quad.mention? <;> rfl

theorem mentions_functionLines {table : Table} {function : FunctionCode}
    (mentions : ∀ quad ∈ function.body.toList,
      (quadLines table quad).filterMap Line.mention? = quad.mention?.toList) :
    (functionLines table function).filterMap Line.mention? = function.mentions := by
  have inner := mentions_quads mentions
  have before (size : Nat) : (Assembly.prologue size).filterMap Line.mention? = [] := rfl
  have behind : Assembly.epilogue.filterMap Line.mention? = [] := rfl
  unfold functionLines activeLines FunctionCode.mentions
  simp only [List.filterMap_append, List.filterMap_cons, List.filterMap_nil, Line.mention?, before,
    behind, inner, List.nil_append, List.append_nil]

theorem readable_asRead {table : Table} {function : FunctionCode}
    (isName : IsIdentifier function.name)
    (readable : ∀ quad ∈ function.body.toList, ∀ line ∈ quadLines table quad, line.Readable) :
    ∀ line ∈ functionLines table function, line.asRead.Readable := by
  have plain (list : List Instruction) (noCalls : list.filterMap Instruction.callee? = []) :
      ∀ line ∈ instructions list, line.asRead.Readable := by
    intro line member
    refine (readable_instructions ?_ line member).asRead
    rw [noCalls]
    exact List.forall_mem_nil _
  have body : ∀ line ∈ function.body.toList.flatMap (quadLines table), line.asRead.Readable := by
    intro line member
    obtain ⟨quad, inBody, inLines⟩ := List.mem_flatMap.1 member
    exact (readable quad inBody line inLines).asRead
  unfold functionLines activeLines
  simp only [List.forall_mem_append, List.forall_mem_cons]
  exact ⟨⟨isName, isName, List.forall_mem_nil _⟩, ⟨Line.readable_entry isName, plain _ rfl, body,
    plain _ rfl⟩, isName, List.forall_mem_nil _⟩

/-! ## How often a name is defined -/

namespace Code

/-- The names that the functions of a program define. -/
def definitions (code : Code) : List String :=
  code.functions.flatMap fun function =>
    function.name :: (marks function.body.toList).map Label.text

variable {code : Code}

/-- Functions have different names, and so have labels, so only a name of both is defined twice. -/
theorem count_definitions (names : (code.functions.map (·.name)).Nodup) (labels : code.labels.Nodup)
    (name : String) : code.definitions.count name =
      (if name ∈ code.functions.map (·.name) then 1 else 0) +
        if name ∈ code.labels.map Label.text then 1 else 0 := by
  have same := List.map_append_flatMap_perm code.functions (·.name) fun function =>
    (marks function.body.toList).map Label.text
  rw [definitions, ← same.count_eq, List.count_append, ← List.map_flatMap, List.Nodup.count names]
  exact congrArg (_ + ·) (List.Nodup.count (labels.map fun _ _ => Label.text_injective))

theorem nodup_definitions_iff (names : (code.functions.map (·.name)).Nodup)
    (labels : code.labels.Nodup) :
    code.definitions.Nodup ↔ ∀ label ∈ code.labels, label.text ∉ code.functions.map (·.name) := by
  rw [List.nodup_iff_count_le_one]
  simp only [count_definitions names labels]
  constructor
  · intro once label marked isName
    have le := once label.text
    rw [if_pos isName, if_pos (List.mem_map_of_mem marked)] at le
    omega
  · intro apart name
    by_cases isName : name ∈ code.functions.map (·.name)
    · have noLabel : name ∉ code.labels.map Label.text := by
        intro isLabel
        obtain ⟨label, marked, rfl⟩ := List.mem_map.1 isLabel
        exact apart label marked isName
      rw [if_pos isName, if_neg noLabel]
    · rw [if_neg isName]
      split <;> omega

end Code

namespace Node

variable {functions : List Node} {state : Lowering} {code : Code} {fileName : String}
  {lines : List Line}

/-- The names in the assembly of lowered code, function by function. -/
theorem LoweredTo.mentions (lowered : LoweredTo functions state code)
    (assembled : (code.assemble state.table fileName).result = .ok lines)
    (oneLine : '\n' ∉ fileName.toList)
    (named : ∀ function ∈ code.functions, IsIdentifier function.name) :
    Assembly.mentions (Assembly.text lines) = code.functions.flatMap FunctionCode.mentions := by
  have readable : ∀ line ∈ lines, line.asRead.Readable := by
    rw [assemble_eq_ok assembled]
    simp only [List.forall_mem_append, List.forall_mem_cons]
    refine ⟨⟨oneLine, trivial, List.forall_mem_nil _⟩, fun line inLines => ?_⟩
    obtain ⟨function, member, inFunction⟩ := List.mem_flatMap.1 inLines
    exact readable_asRead (named function member)
      (fun quad inBody => (lowered.emits member inBody).readable (lowered.isIdentifier named))
      line inFunction
  have mentioned : ∀ function ∈ code.functions,
      (functionLines state.table function).filterMap Line.mention? = function.mentions := by
    intro function member
    exact mentions_functionLines fun quad inBody => (lowered.emits member inBody).mentions
  rw [Assembly.mentions_text readable, assemble_eq_ok assembled, List.filterMap_append,
    List.filterMap_flatMap, List.flatMap_def, List.flatMap_def, List.map_congr_left mentioned]
  rfl

/-- A function calls functions of the program. -/
theorem LoweredTo.calls (lowered : LoweredTo functions state code) {function : FunctionCode}
    (member : function ∈ code.functions) {callee : String}
    (calls : .call callee ∈ function.mentions) : callee ∈ code.functions.map (·.name) := by
  rcases List.mem_cons.1 calls with impossible | inBody
  · cases impossible
  · obtain ⟨quad, inCode, isCall⟩ := List.mem_filterMap.1 inBody
    obtain ⟨count, known⟩ := (lowered.emits member inCode).callee_known isCall
    obtain ⟨called, inFunctions, rfl⟩ := lowered.exists_code known
    exact List.mem_map_of_mem inFunctions

/-- A function jumps to labels that it marks, and marks them once. -/
theorem LoweredTo.jumps (lowered : LoweredTo functions state code) {function : FunctionCode}
    (member : function ∈ code.functions) {name : String} (jumps : .jump name ∈ function.mentions) :
    ((marks function.body.toList).map Label.text).count name = 1 := by
  obtain ⟨parameters, body, top, next, label, isBody, _⟩ := lowered.exists_has member
  rcases List.mem_cons.1 jumps with impossible | inBody
  · cases impossible
  · obtain ⟨quad, inCode, isJump⟩ := List.mem_filterMap.1 inBody
    obtain ⟨target, isTarget, rfl⟩ := Quad.target_of_mention? isJump
    rw [isBody] at inCode ⊢
    have marked : target ∈ marks (body.functionCode top next label) :=
      targets_functionCode top next label body (List.mem_filterMap.2 ⟨quad, inCode, isTarget⟩)
    exact List.count_eq_one_of_mem
      ((marks_functionCode top next label body).map fun _ _ => Label.text_injective)
      (List.mem_map_of_mem marked)

/-- Every name that is called or jumped to is defined. -/
theorem LoweredTo.used (lowered : LoweredTo functions state code) {name : String}
    (used : name ∈ (code.functions.flatMap FunctionCode.mentions).filterMap Mention.used?) :
    name ∈ code.functions.map (·.name) ∨ name ∈ code.labels.map Label.text := by
  obtain ⟨mention, inMentions, isUsed⟩ := List.mem_filterMap.1 used
  obtain ⟨function, member, inFunction⟩ := List.mem_flatMap.1 inMentions
  cases mention with
  | definition => cases isUsed
  | call callee =>
    cases isUsed
    exact .inl (lowered.calls member inFunction)
  | jump target =>
    cases isUsed
    have marked := List.one_le_count_iff.1 (Nat.le_of_eq (lowered.jumps member inFunction).symm)
    obtain ⟨label, isMarked, rfl⟩ := List.mem_map.1 marked
    exact .inr (List.mem_map_of_mem (List.mem_flatMap.2 ⟨function, member, isMarked⟩))

end Node

/-! ## Compiled programs -/

theorem Node.mem_functionNames_iff {functions : List Node} {name : String} :
    name ∈ functionNames functions ↔ (arity? functions name).isSome := by
  unfold arity?
  rw [Option.isSome_map]
  constructor
  · intro member
    obtain ⟨definition, found⟩ := mem_functionNames member
    rw [found]
    rfl
  · intro found
    obtain ⟨⟨parameters, body⟩, found⟩ := Option.isSome_iff_exists.1 found
    obtain ⟨info, returnType, member⟩ := mem_of_definition? found
    exact List.mem_filterMap.2 ⟨_, member, rfl⟩

theorem mem_sourceNames_iff {source name : String} :
    name ∈ sourceNames source ↔ (sourceArity? source name).isSome := by
  constructor
  · intro member
    unfold sourceNames at member
    split at member
    · next info functions parsed =>
      unfold sourceArity?
      rw [parsed]
      exact Node.mem_functionNames_iff.1 member
    · cases member
  · intro defined
    obtain ⟨count, isCount⟩ := Option.isSome_iff_exists.1 defined
    exact mem_sourceNames isCount

/-- What the code of a compiled program was lowered from, as far as names go. -/
theorem lowered_of_compile {source : String} {options : Options} {compilation : Compilation}
    (compiled : (compile source options).result = .ok compilation) :
    ∃ functions state, Node.LoweredTo functions state compilation.code ∧
      (compilation.code.assemble state.table options.fileName).result = .ok compilation.listing ∧
      (∀ function ∈ compilation.code.functions, IsIdentifier function.name) ∧
      ∀ name, name ∈ compilation.code.functions.map (·.name) ↔ name ∈ sourceNames source := by
  unfold compile at compiled
  rw [Traced.result_bind] at compiled
  obtain ⟨analysis, analyzed, lowered⟩ := bind_eq_ok.1 compiled
  obtain ⟨tree, info, functions, parsed, isTree, inTable, named, same⟩ := analyze_eq_ok analyzed
  obtain ⟨_, state, loweredTo, isTable, assembled⟩ := lower_eq_ok isTree inTable named lowered
  have names := forall₂_names loweredTo.lowered
  refine ⟨options.folded functions, state, loweredTo, isTable ▸ assembled, ?_, ?_⟩
  · intro function member
    refine (programIn_folded options inTable).isIdentifier ?_
    rw [← names]
    exact List.mem_map_of_mem member
  · intro name
    rw [names, Node.mem_functionNames_iff, mem_sourceNames_iff, arity?_folded,
      sourceArity?_eq parsed same]

section Compiled

variable {source : String} {options : Options} {compilation : Compilation}

theorem mentions_of_compile (compiled : (compile source options).result = .ok compilation)
    (oneLine : '\n' ∉ options.fileName.toList) :
    mentions compilation.assembly = compilation.code.functions.flatMap FunctionCode.mentions := by
  obtain ⟨functions, state, lowered, assembled, named, _⟩ := lowered_of_compile compiled
  exact lowered.mentions assembled oneLine named

theorem definedNames_of_compile (compiled : (compile source options).result = .ok compilation)
    (oneLine : '\n' ∉ options.fileName.toList) :
    definedNames compilation.assembly = compilation.code.definitions := by
  unfold definedNames Code.definitions
  rw [mentions_of_compile compiled oneLine, List.filterMap_flatMap]
  simp only [FunctionCode.defined_mentions]

/-- The names of the assembly of an accepted program, function by function: a function defines its
own name and the labels that it marks, calls functions of the source, and jumps to labels of its own,
which it marks once. All names are defined once, unless a function of the source has the name of a
label that is marked; then just that name is defined twice. -/
theorem assembly_names (compiled : (compile source options).result = .ok compilation)
    (oneLine : '\n' ∉ options.fileName.toList) :
    mentions compilation.assembly = compilation.code.functions.flatMap FunctionCode.mentions ∧
    (∀ name, name ∈ compilation.code.functions.map (·.name) ↔ name ∈ sourceNames source) ∧
    (∀ function ∈ compilation.code.functions,
      (∀ name, .call name ∈ function.mentions → name ∈ sourceNames source) ∧
      ∀ name, .jump name ∈ function.mentions →
        ((marks function.body.toList).map Label.text).count name = 1) ∧
    ((definedNames compilation.assembly).Nodup ↔
      ∀ label ∈ compilation.code.labels, label.text ∉ sourceNames source) ∧
    ∀ name ∈ usedNames compilation.assembly, (definedNames compilation.assembly).count name =
      if name ∈ sourceNames source ∧ name ∈ compilation.code.labels.map Label.text then 2 else 1 := by
  have all := mentions_of_compile compiled oneLine
  have definitions := definedNames_of_compile compiled oneLine
  obtain ⟨functions, state, lowered, _, _, sameNames⟩ := lowered_of_compile compiled
  have names : (compilation.code.functions.map (·.name)).Nodup := by
    rw [forall₂_names lowered.lowered]
    exact lowered.distinct
  refine ⟨all, sameNames, fun function member => ⟨fun name calls => ?_, fun name =>
    lowered.jumps member⟩, ?_, fun name used => ?_⟩
  · exact (sameNames name).1 (lowered.calls member calls)
  · rw [definitions, Code.nodup_definitions_iff names lowered.labels]
    simp only [sameNames]
  · rw [usedNames, all] at used
    have known := lowered.used used
    rw [sameNames] at known
    rw [definitions, Code.count_definitions names lowered.labels]
    simp only [sameNames]
    by_cases isName : name ∈ sourceNames source
    · by_cases isLabel : name ∈ compilation.code.labels.map Label.text
      · rw [if_pos isName, if_pos isLabel, if_pos ⟨isName, isLabel⟩]
      · rw [if_pos isName, if_neg isLabel, if_neg fun both => isLabel both.2]
    · rw [if_neg isName, if_pos (known.resolve_left isName), if_neg fun both => isName both.1]

end Compiled

theorem power_names :
    ∃ compilation, (compile powerSource { level := 1 }).result = .ok compilation ∧
      (definedNames compilation.assembly).Nodup := by
  have facts : (compile powerSource { level := 1 }).result.toOption.any fun compilation =>
      compilation.code.labels.all (·.text ∉ sourceNames powerSource) := by decide +kernel
  obtain ⟨compilation, compiled, facts⟩ := exists_ok_of_any facts
  have apart : ∀ label ∈ compilation.code.labels, label.text ∉ sourceNames powerSource := by
    simpa using facts
  obtain ⟨_, _, _, distinct, _⟩ := assembly_names compiled (by decide)
  exact ⟨compilation, compiled, distinct.2 apart⟩

/-- A function with the name of a label that the program uses. -/
def clashingSource : String :=
  "int label0() \x7b return 1; \x7d int main() \x7b return label0(); \x7d"

/-- Names may be defined twice: here the exit of a function has the name of that function. -/
theorem clashing_names :
    ∃ compilation, (compile clashingSource {}).result = .ok compilation ∧
      definedNames compilation.assembly = ["label0", "label0", "main", "label1"] ∧
      ¬ (definedNames compilation.assembly).Nodup := by
  have facts : (compile clashingSource {}).result.toOption.any
      (·.code.definitions == ["label0", "label0", "main", "label1"]) := by decide +kernel
  obtain ⟨compilation, compiled, isNames⟩ := exists_ok_of_any facts
  have names : definedNames compilation.assembly = ["label0", "label0", "main", "label1"] := by
    rw [definedNames_of_compile compiled (by decide)]
    exact eq_of_beq isNames
  refine ⟨compilation, compiled, names, ?_⟩
  rw [names]
  decide

end MiniC
