import MiniC.Proofs.Printing
import MiniC.Proofs.RelabelledCode
import MiniC.Proofs.Viability

/-!
# Layout does not matter

Two source texts with the same tokens at different places are compiled to the same code, or fail in
the same way at corresponding tokens.

Tokens that are moved are relabelled, with all names as they were, and the stages behind the parser
commute with that. So does the parser: it decides by kinds and texts of tokens, and keeps tokens in
the nodes without looking at their places.
-/

namespace MiniC

/-- Other places, with all names as they were. -/
def Relabelling.moving (place : Position → Position) : Relabelling where
  place := place
  name := id
  injective same := same
  types _ := rfl
  temporaries _ := rfl

open Relabelling (moving)

namespace Parser

/-! ## Rules of the parser -/

variable {α β α' β' : Type} (place : Position → Position)

def Stop.move : Stop → Stop
  | exhausted => exhausted
  | unexpected pos cause => unexpected (place pos) ((moving place).syntacticCause cause)

/-- What a rule gives and leaves, with the tokens moved. -/
def moved (f : α → α') : Except Stop (α × List Token) → Except Stop (α' × List Token)
  | .ok (a, rest) => .ok (f a, rest.map (moving place).token)
  | .error stop => .error (stop.move place)

/-- The second rule does with moved tokens what the first does with the tokens. -/
def Moves (f : α → α') (rule : Rule α) (rule' : Rule α') (s : List Token) : Prop :=
  rule' (s.map (moving place).token) = moved place f (rule s)

namespace Moves

variable {place} {f : α → α'} {g : β → β'} {s : List Token}

theorem andThen {first : Rule α} {first' : Rule α'} {next : α → Rule β} {next' : α' → Rule β'}
    (same : Moves place f first first' s)
    (later : ∀ a rest, first s = .ok (a, rest) → Moves place g (next a) (next' (f a)) rest) :
    Moves place g (first >>= next) (first' >>= next') s := by
  unfold Moves at same ⊢
  cases found : first s with
  | error stop =>
    rw [found] at same
    rw [bind_of_error found, bind_of_error same]
    rfl
  | ok pair =>
    obtain ⟨a, rest⟩ := pair
    rw [found] at same
    rw [bind_of_ok found, bind_of_ok same]
    exact later a rest found

theorem look {next : Token → Rule β} {next' : Token → Rule β'}
    (later : ∀ token rest, s = token :: rest →
      Moves place g (next token) (next' ((moving place).token token)) s) :
    Moves place g (look >>= next) (look >>= next') s := by
  cases s with
  | nil => rfl
  | cons token rest => exact later token rest rfl

theorem skip {next : Unit → Rule β} {next' : Unit → Rule β'} {token : Token}
    (later : Moves place g (next ()) (next' ()) s) :
    Moves place g (skip >>= next) (skip >>= next') (token :: s) :=
  later

theorem pure {b : β} {b' : β'} (same : b' = g b) : Moves place g (pure b) (pure b') s := by
  subst same
  rfl

theorem refuse {cause cause' : Token → SyntacticCause} {token : Token}
    (same : cause' ((moving place).token token) = (moving place).syntacticCause (cause token)) :
    Moves place g (refuse cause) (refuse cause') (token :: s) :=
  congrArg (fun cause => Except.error (Stop.unexpected (place token.pos) cause)) same

theorem eat {kind : TokenKind} {next : Token → Rule β} {next' : Token → Rule β'}
    (later : ∀ token rest, rest.length < s.length →
      Moves place g (next token) (next' ((moving place).token token)) rest) :
    Moves place g (run (eat kind) >>= next) (run (eat kind) >>= next') s := by
  have same : Moves place (moving place).token (run (Parser.eat kind)) (run (Parser.eat kind)) s := by
    rw [run_eat]
    refine .look fun token rest split => ?_
    subst split
    show Moves _ _ _ (if token.kind = kind then _ else _) _
    split
    · exact .skip (.pure rfl)
    · exact .refuse rfl
  exact same.andThen fun token rest found => later token rest (run_bound found)

end Moves

/-! ## Expressions -/

section Series

variable {item : (s : List Token) → Except Stop (Node × Shorter s)} {more : Rule (List Node)}

variable {place} in
theorem moves_further {s : List Token} (eq_more : more = further (run item) more)
    (moves : ∀ rest : List Token, rest.length < s.length →
      Moves place (moving place).node (run item) (run item) rest) :
    Moves place (moving place).nodes more more s := by
  rw [eq_more]
  unfold further both
  refine .look fun token rest split => ?_
  subst split
  show Moves _ _ _ (if token.kind = .comma then _ else _) _
  split
  · refine .skip ((moves rest (by simp)).andThen fun first later found => ?_)
    have shorter : later.length < rest.length := run_bound found
    refine (moves_further eq_more fun last less => moves last ?_).andThen fun _ _ _ => .pure rfl
    simp only [List.length_cons]
    omega
  · exact .eat fun _ _ _ => .pure rfl
termination_by s.length
decreasing_by all_goals grind

variable {place} in
theorem moves_series {s : List Token}
    (moves : Moves place (moving place).node (run item) (run item) s)
    (movesMore : ∀ rest : List Token, rest.length < s.length →
      Moves place (moving place).nodes more more rest) :
    Moves place (moving place).nodes (series (run item) more) (series (run item) more) s := by
  unfold series both
  refine .look fun token rest split => ?_
  subst split
  show Moves _ _ _ (if token.kind = .rightParen then _ else _) _
  split
  · exact .skip (.pure rfl)
  · exact moves.andThen fun first later found =>
      (movesMore later (run_bound found)).andThen fun _ _ _ => .pure rfl

variable {place} in
theorem moves_many {s : List Token} (eq_more : more = many (run item) more)
    (moves : ∀ rest : List Token, Moves place (moving place).node (run item) (run item) rest) :
    Moves place (moving place).nodes more more s := by
  rw [eq_more]
  unfold many both
  refine .look fun token rest split => ?_
  subst split
  show Moves _ _ _ (if token.kind = .typeSpecifier then _ else _) _
  split
  · refine (moves _).andThen fun first later found => ?_
    have shorter : later.length < (token :: rest).length := run_bound found
    exact (moves_many eq_more moves).andThen fun _ _ _ => .pure rfl
  · exact .pure rfl
termination_by s.length

end Series

mutual
theorem moves_sum (s : List Token) : Moves place (moving place).node (run sum) (run sum) s := by
  rw [run_sum]
  refine (moves_product s).andThen fun first rest found => ?_
  have shorter : rest.length < s.length := run_bound found
  exact moves_sumRest first rest
termination_by 8 * s.length + 3
decreasing_by all_goals omega

theorem moves_sumRest (lhs : Node) (s : List Token) : Moves place (moving place).node
    (run (sumRest lhs)) (run (sumRest ((moving place).node lhs))) s := by
  rw [run_sumRest, run_sumRest]
  refine .look fun token rest split => ?_
  subst split
  rw [show sumOperator? ((moving place).token token) = sumOperator? token from rfl]
  cases sumOperator? token with
  | none => exact .pure rfl
  | some op =>
    refine .skip ((moves_product rest).andThen fun rhs later found => ?_)
    have shorter : later.length < rest.length := run_bound found
    exact moves_sumRest (.binary (.ofToken token) op lhs rhs) later
termination_by 8 * s.length
decreasing_by all_goals grind

theorem moves_product (s : List Token) :
    Moves place (moving place).node (run product) (run product) s := by
  rw [run_product]
  refine (moves_signed s).andThen fun first rest found => ?_
  have shorter : rest.length < s.length := run_bound found
  exact moves_productRest first rest
termination_by 8 * s.length + 2
decreasing_by all_goals omega

theorem moves_productRest (lhs : Node) (s : List Token) : Moves place (moving place).node
    (run (productRest lhs)) (run (productRest ((moving place).node lhs))) s := by
  rw [run_productRest, run_productRest]
  refine .look fun token rest split => ?_
  subst split
  rw [show productOperator? ((moving place).token token) = productOperator? token from rfl]
  cases productOperator? token with
  | none => exact .pure rfl
  | some op =>
    refine .skip ((moves_signed rest).andThen fun rhs later found => ?_)
    have shorter : later.length < rest.length := run_bound found
    exact moves_productRest (.binary (.ofToken token) op lhs rhs) later
termination_by 8 * s.length
decreasing_by all_goals grind

theorem moves_signed (s : List Token) :
    Moves place (moving place).node (run signed) (run signed) s := by
  rw [run_signed]
  refine .look fun token rest split => ?_
  subst split
  rw [show signOperator? ((moving place).token token) = signOperator? token from rfl]
  cases signOperator? token with
  | none => exact moves_primary (token :: rest)
  | some op => exact .skip ((moves_signed rest).andThen fun _ _ _ => .pure rfl)
termination_by 8 * s.length + 1
decreasing_by all_goals grind

theorem moves_primary (s : List Token) :
    Moves place (moving place).node (run primary) (run primary) s := by
  rw [run_primary]
  refine .look fun token rest split => ?_
  subst split
  rw [show ((moving place).token token).kind = token.kind from rfl]
  cases token.kind with
  | leftParen =>
    exact .skip ((moves_sum rest).andThen fun _ _ _ => .eat fun _ _ _ => .pure rfl)
  | identifier =>
    refine .skip (.look fun next later split => ?_)
    subst split
    show Moves _ _ _ (if next.kind = .leftParen then _ else _) _
    split
    · exact .skip ((moves_arguments later).andThen fun _ _ _ => .pure rfl)
    · exact .pure rfl
  | integerConstant | doubleConstant => exact .skip (.pure rfl)
  | _ => exact .refuse rfl
termination_by 8 * s.length
decreasing_by all_goals grind

theorem moves_arguments (s : List Token) :
    Moves place (moving place).nodes (run arguments) (run arguments) s := by
  rw [run_arguments]
  exact moves_series (moves_sum s) fun _ _ =>
    moves_further run_argumentsRest fun last _ => moves_sum last
termination_by 8 * s.length + 4
decreasing_by all_goals grind
end

/-! ## Statements -/

theorem moves_typeSpecifier (s : List Token) :
    Moves place id (run typeSpecifier) (run typeSpecifier) s := by
  rw [run_typeSpecifier]
  refine .look fun token rest split => ?_
  subst split
  show Moves _ _ _ (if token.kind = .typeSpecifier then _ else _) _
  split
  · rw [show ((moving place).token token).text = token.text from rfl]
    cases Ty.ofSpecifier? token.text with
    | some ty => exact .skip (.pure rfl)
    | none => exact .refuse rfl
  · exact .refuse rfl

theorem moves_declaration (s : List Token) :
    Moves place (moving place).node (run declaration) (run declaration) s := by
  rw [run_declaration]
  exact (moves_typeSpecifier place s).andThen fun _ _ _ => .eat fun _ _ _ => .eat fun _ _ _ =>
    .pure rfl

mutual
theorem moves_statement (s : List Token) :
    Moves place (moving place).node (run statement) (run statement) s := by
  rw [run_statement]
  refine .look fun token rest split => ?_
  subst split
  rw [show ((moving place).token token).kind = token.kind from rfl]
  cases token.kind with
  | leftBrace => exact moves_block (token :: rest)
  | returnWord =>
    exact .skip ((moves_sum place rest).andThen fun _ _ _ => .eat fun _ _ _ => .pure rfl)
  | ifWord =>
    refine .skip (.eat fun _ s1 short1 => ?_)
    refine (moves_sum place s1).andThen fun condition s2 found2 => ?_
    refine .eat fun _ s3 short3 => ?_
    have short2 : s2.length < s1.length := run_bound found2
    refine (moves_statement s3).andThen fun consequent s4 found4 => ?_
    have short4 : s4.length < s3.length := run_bound found4
    refine .look fun next s5 split => ?_
    subst split
    show Moves _ _ _ (if next.kind = .elseWord then _ else _) _
    split
    · exact .skip ((moves_statement s5).andThen fun _ _ _ => .pure rfl)
    · exact .pure rfl
  | semicolon => exact .skip (.pure rfl)
  | identifier =>
    exact .skip (.eat fun _ later _ => (moves_sum place later).andThen fun _ _ _ =>
      .eat fun _ _ _ => .pure rfl)
  | _ => exact .refuse rfl
termination_by 8 * s.length + 1
decreasing_by all_goals grind

theorem moves_block (s : List Token) :
    Moves place (moving place).node (run block) (run block) s := by
  rw [run_block]
  refine .eat fun brace rest short => .look fun next later split => ?_
  subst split
  show Moves _ _ _ (if next.kind = .rightBrace then _ else _) _
  split
  · exact .skip (.pure rfl)
  · refine (moves_many run_declarations (moves_declaration place)).andThen fun first s1 found => ?_
    have short1 : s1.length ≤ (next :: later).length := run_bound found
    exact (moves_statements s1).andThen fun _ _ _ => .pure rfl
termination_by 8 * s.length
decreasing_by all_goals grind

theorem moves_statements (s : List Token) :
    Moves place (moving place).nodes (run statements) (run statements) s := by
  rw [run_statements]
  refine .look fun token rest split => ?_
  subst split
  show Moves _ _ _ (if token.kind = .rightBrace then _ else _) _
  split
  · exact .skip (.pure rfl)
  · refine (moves_statement (token :: rest)).andThen fun first later found => ?_
    have shorter : later.length < (token :: rest).length := run_bound found
    exact (moves_statements later).andThen fun _ _ _ => .pure rfl
termination_by 8 * s.length + 2
decreasing_by all_goals grind
end

/-! ## Programs -/

theorem moves_parameter (s : List Token) :
    Moves place (moving place).node (run parameter) (run parameter) s := by
  rw [run_parameter]
  exact (moves_typeSpecifier place s).andThen fun _ _ _ => .eat fun _ _ _ => .pure rfl

theorem moves_parameters (s : List Token) :
    Moves place (moving place).nodes (run parameters) (run parameters) s := by
  rw [run_parameters]
  exact moves_series (moves_parameter place s) fun _ _ =>
    moves_further run_parametersRest fun last _ => moves_parameter place last

theorem moves_function (s : List Token) :
    Moves place (moving place).node (run function) (run function) s := by
  rw [run_function]
  exact (moves_typeSpecifier place s).andThen fun _ _ _ => .eat fun _ _ _ => .eat fun _ s1 _ =>
    (moves_parameters place s1).andThen fun _ s2 _ => (moves_block place s2).andThen fun _ _ _ =>
      .pure rfl

theorem moves_program (s : List Token) :
    Moves place (moving place).node (run program) (run program) s := by
  rw [run_program]
  exact (moves_function place s).andThen fun _ _ _ =>
    (moves_many run_functions (moves_function place)).andThen fun _ _ _ => .eat fun _ _ _ => .pure rfl

end Parser

/-! ## From tokens to code -/

/-- All that is done with the tokens of a source text. -/
def Lexing.compile (lexing : Lexing) (options : Options) : Except Error Compilation :=
  lexing.parse >>= (·.compile options)

def Relabelling.lexing (r : Relabelling) (lexing : Lexing) : Lexing :=
  ⟨lexing.tokens.map r.token, lexing.failure.map r.error⟩

section Moving

variable (place : Position → Position)

theorem parse_moved (lexing : Lexing) :
    ((moving place).lexing lexing).parse =
      (moving place).result (moving place).node lexing.parse := by
  rw [parse_eq, parse_eq, Relabelling.lexing, Parser.moves_program place lexing.tokens]
  cases Parser.run Parser.program lexing.tokens with
  | ok found => rfl
  | error stop =>
    cases stop with
    | unexpected pos cause => rfl
    | exhausted => cases lexing.failure <;> rfl

theorem compile_moved (lexing : Lexing) (options : Options) :
    ((moving place).lexing lexing).compile options =
      (moving place).result (moving place).compilation (lexing.compile options) := by
  unfold Lexing.compile
  rw [parse_moved]
  have keeps (code : Code) : (moving place).Keeps code :=
    ⟨fun _ _ => rfl, fun _ _ _ _ _ _ _ => rfl⟩
  exact (moving place).result_bind fun tree =>
    (moving place).compile_node (fun _ _ => rfl) fun _ _ code _ => keeps code

theorem table_moved (table : Table) : (moving place).table table = table := by
  have scope : (moving place).scope = id := by
    funext scope
    simp [Relabelling.scope, moving]
  have symbol : (moving place).symbol = id := by
    funext symbol
    cases symbol <;> rfl
  rw [Relabelling.table, scope, symbol, Array.map_id, Array.map_id]

theorem code_moved (code : Code) : (moving place).code code = code := by
  have operand : (moving place).operand = id := by
    funext operand
    cases operand <;> rfl
  have quad : (moving place).quad = id := by
    funext quad
    simp [Relabelling.quad, operand]
  have function : (moving place).functionCode = id := by
    funext function
    rw [Relabelling.functionCode, quad, Array.map_id]
    rfl
  rw [Relabelling.code, function, List.map_id]

mutual
theorem bare_moved : (node : Node) → ((moving place).node node).bare = node.bare
  | .empty _ | .parameter .. | .declaration .. | .identifier .. | .integer .. | .real .. => rfl
  | .program _ functions => by
    rw [Relabelling.node, Node.bare, Node.bare, bares_moved functions]
    rfl
  | .function _ _ _ parameters body => by
    rw [Relabelling.node, Node.bare, Node.bare, bares_moved parameters, bare_moved body]
    rfl
  | .call _ callee arguments => by
    rw [Relabelling.node, Node.bare, Node.bare, bare_moved callee, bares_moved arguments]
    rfl
  | .returnValue _ value | .assignment _ _ value | .unary _ _ value => by
    rw [Relabelling.node, Node.bare, Node.bare, bare_moved value]
    rfl
  | .block _ declarations statements => by
    rw [Relabelling.node, Node.bare, Node.bare, bares_moved declarations, bares_moved statements]
    rfl
  | .ifThen _ lhs rhs | .binary _ _ lhs rhs => by
    rw [Relabelling.node, Node.bare, Node.bare, bare_moved lhs, bare_moved rhs]
    rfl
  | .ifElse _ condition consequent alternative => by
    rw [Relabelling.node, Node.bare, Node.bare, bare_moved condition, bare_moved consequent,
      bare_moved alternative]
    rfl
theorem bares_moved : (nodes : List Node) → Node.bares ((moving place).nodes nodes) = Node.bares nodes
  | [] => rfl
  | node :: nodes => by
    rw [Relabelling.nodes, Node.bares, Node.bares, bare_moved node, bares_moved nodes]
end

/-- The text of a tree does not tell where its tokens stand. -/
theorem text_moved (node : Node) : ((moving place).node node).text = node.text := by
  rw [← Node.text_bare, bare_moved, Node.text_bare]

end Moving

/-! ## Where failures stand -/

theorem result_compile_lex (source : String) (options : Options) :
    (compile source options).result = (lex source).compile options :=
  result_compile source options

/-- A place of a token, or the one where the reading failed. -/
def Lexing.Marks (lexing : Lexing) (pos : Position) : Prop :=
  (∃ token ∈ lexing.tokens, token.pos = pos) ∨ ∃ cause, lexing.failure = some (.lexical pos cause)

theorem Relabelling.position_error (r : Relabelling) (error : Error) :
    (r.error error).position = error.position.map r.place := by
  cases error <;> rfl

theorem Relabelling.category_error (r : Relabelling) (error : Error) :
    (r.error error).category = error.category := by
  cases error <;> rfl

/-- If no token moves and the place of the failure does not either, nothing changes. -/
theorem lexing_moved {lexing : Lexing} {place : Position → Position} (ended : lexing.Ended)
    (stays : ∀ pos, lexing.Marks pos → place pos = pos) : (moving place).lexing lexing = lexing := by
  have tokens : lexing.tokens.map (moving place).token = lexing.tokens := by
    refine (List.map_congr_left fun token member => ?_).trans (List.map_id _)
    exact congrArg (Token.mk token.kind token.text) (stays token.pos (.inl ⟨token, member, rfl⟩))
  have failure : lexing.failure.map (moving place).error = lexing.failure := by
    cases ended with
    | whole => rfl
    | @failed _ pos cause =>
      exact congrArg (fun pos => some (Error.lexical pos cause)) (stays pos (.inr ⟨cause, rfl⟩))
  rw [Relabelling.lexing, tokens, failure]

/-- Failures stand at places of tokens, or where the reading failed. If one stood elsewhere, then it
would move with its place, while all that was read stays the same. -/
theorem marks_of_error {lexing : Lexing} {options : Options} {error : Error} {pos : Position}
    (ended : lexing.Ended) (failed : lexing.compile options = .error error)
    (isPlace : error.position = some pos) : lexing.Marks pos := by
  classical
  -- Every place moves, except for those that the reading has marked.
  let place (pos : Position) : Position := if lexing.Marks pos then pos else pos.advance '\n'
  have moved := compile_moved place lexing options
  rw [lexing_moved ended fun pos marks => if_pos marks, failed] at moved
  have fixed : place pos = pos := by
    have same := congrArg Error.position (Except.error.inj moved)
    rw [Relabelling.position_error, isPlace] at same
    exact (Option.some.inj same).symm
  by_contra unmarked
  have apart : place pos = pos.advance '\n' := if_neg unmarked
  exact (pos.before_advance '\n').ne (fixed.symm.trans apart)

/-! ## Two layouts -/

/-- The kind and the text of a token. -/
def Token.content (token : Token) : TokenKind × String := (token.kind, token.text)

/-- The place of the token among `tokens'` that corresponds to the one at a place among `tokens`. -/
def counterpart : List Token → List Token → Position → Position
  | token :: tokens, token' :: tokens', pos =>
      if token.pos = pos then token'.pos else counterpart tokens tokens' pos
  | _, _, pos => pos

theorem map_counterpart {tokens tokens' : List Token}
    (apart : tokens.Pairwise fun token other => token.pos.Before other.pos)
    (same : tokens.map Token.content = tokens'.map Token.content) :
    tokens.map (moving (counterpart tokens tokens')).token = tokens' := by
  induction tokens generalizing tokens' with
  | nil => exact (List.map_eq_nil_iff.1 same.symm).symm
  | cons token tokens ih =>
    cases tokens' with
    | nil => cases same
    | cons token' tokens' =>
      obtain ⟨first, later⟩ := List.pairwise_cons.1 apart
      obtain ⟨sameFirst, sameLater⟩ := List.cons.inj same
      obtain ⟨kind, text⟩ := Prod.mk.inj sameFirst
      rw [List.map_cons]
      congr 1
      · rw [Relabelling.token, kind, text]
        exact congrArg (Token.mk _ _) (if_pos rfl)
      · refine Eq.trans (List.map_congr_left fun other member => ?_) (ih later sameLater)
        exact congrArg (Token.mk _ _) (if_neg (first other member).ne)

/-- The same outcome of two compilations, up to where the tokens stand. -/
inductive Alike (tokens tokens' : List Token) :
    Except Error Compilation → Except Error Compilation → Prop
  | accepted {compilation compilation' : Compilation} :
      compilation'.tree.text = compilation.tree.text →
      compilation'.table.text = compilation.table.text →
      compilation'.code.text = compilation.code.text →
      compilation'.assembly = compilation.assembly →
      Alike tokens tokens' (.ok compilation) (.ok compilation')
  | refused {error error' : Error} :
      error'.category = error.category →
      (error.category = .syntactic ∨ error.category = .semantic →
        error'.message = error.message ∧
          ∃ (i : Nat) (token token' : Token), tokens[i]? = some token ∧ tokens'[i]? = some token' ∧
            error.position = some token.pos ∧ error'.position = some token'.pos) →
      Alike tokens tokens' (.error error) (.error error')

theorem exists_position {error : Error}
    (isMistake : error.category = .syntactic ∨ error.category = .semantic) :
    ∃ pos, error.position = some pos := by
  cases error with
  | syntactic pos cause | semantic pos cause => exact ⟨pos, rfl⟩
  | _ => rcases isMistake with impossible | impossible <;> cases impossible

theorem message_moved (place : Position → Position) (error : Error)
    (isMistake : error.category = .syntactic ∨ error.category = .semantic) :
    ((moving place).error error).message = error.message := by
  cases error with
  | syntactic pos cause => cases cause <;> rfl
  | semantic pos cause => cases cause <;> rfl
  | _ => rcases isMistake with impossible | impossible <;> cases impossible

/-- Layout never matters: two source texts with the same tokens, at whatever places, have the same
outcome. What fails, fails at corresponding tokens. -/
theorem layout_never_matters {source source' : String} {tokens tokens' : List Token}
    (read : (lex source).toExcept = .ok tokens) (read' : (lex source').toExcept = .ok tokens')
    (same : tokens.map Token.content = tokens'.map Token.content) (options : Options) :
    Alike tokens tokens' (compile source options).result (compile source' options).result := by
  obtain ⟨noFailure, rfl⟩ := Lexing.toExcept_eq_ok.1 read
  obtain ⟨noFailure', rfl⟩ := Lexing.toExcept_eq_ok.1 read'
  -- No two tokens stand at one place, so a single map of places moves each to its counterpart.
  let place := counterpart (lex source).tokens (lex source').tokens
  have tokens : (lex source).tokens.map (moving place).token = (lex source').tokens :=
    map_counterpart (lexFrom_inOrder .start source.toList).tokens same
  have lexing : (moving place).lexing (lex source) = lex source' := by
    rw [Relabelling.lexing, tokens, noFailure, Option.map_none, ← noFailure']
  rw [result_compile_lex, result_compile_lex, ← lexing, compile_moved, lexing]
  cases compiled : (lex source).compile options with
  | ok compilation =>
    exact .accepted (text_moved place compilation.tree)
      (congrArg Table.text (table_moved place compilation.table))
      (congrArg Code.text (code_moved place compilation.code)) rfl
  | error error =>
    refine .refused (Relabelling.category_error _ error) fun isMistake => ?_
    obtain ⟨pos, isPlace⟩ := exists_position isMistake
    have ended : (lex source).Ended := lexFrom_ended .start source.toList
    rcases marks_of_error ended compiled isPlace with ⟨token, member, rfl⟩ | ⟨cause, failed⟩
    · obtain ⟨i, isToken⟩ := List.mem_iff_getElem?.1 member
      refine ⟨message_moved place error isMistake, i, token, (moving place).token token, isToken, ?_,
        isPlace, ?_⟩
      · rw [← tokens, List.getElem?_map, isToken, Option.map_some]
      · rw [Relabelling.position_error, isPlace]
        rfl
    · rw [noFailure] at failed
      cases failed

/-- Two layouts of a program that uses an undeclared variable. -/
theorem undeclared_alike :
    let source := "int main() { int sum; sum = 1 + count; return sum; }"
    let source' := "int main()
{
  int sum;
  sum = 1
      + count;
  return sum;
}"
    (lex source).toExcept = .ok (lex source).tokens ∧
      (lex source').toExcept = .ok (lex source').tokens ∧
      (lex source).tokens.map Token.content = (lex source').tokens.map Token.content ∧
      Alike (lex source).tokens (lex source').tokens (compile source { level := 1 }).result
        (compile source' { level := 1 }).result := by
  intro source source'
  have read : (lex source).toExcept = .ok (lex source).tokens :=
    Lexing.toExcept_eq_ok.2 ⟨by decide +kernel, rfl⟩
  have read' : (lex source').toExcept = .ok (lex source').tokens :=
    Lexing.toExcept_eq_ok.2 ⟨by decide +kernel, rfl⟩
  have same : (lex source).tokens.map Token.content = (lex source').tokens.map Token.content := by
    decide +kernel
  exact ⟨read, read', same, layout_never_matters read read' same { level := 1 }⟩

end MiniC
