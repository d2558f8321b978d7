import MiniC.Proofs.StreamedParsing

/-!
# Parsing always ends

What every rule does with any stream: it comes to an end, and where it succeeds, fewer tokens wait
behind the one that the stream shows. Past the end of input none waits, and taking a token leaves
the stream as it is. So nothing that takes a token can succeed there, and a loop that goes round has
taken a token that was not the end of input.

The loops are shown to end from what one turn of them does: a turn that goes on takes a token. The
rules behind the turns are known to take a token because they follow rules for lists of tokens,
which leave a shorter list.
-/

namespace MiniC.Streamed

open TokenStream (ahead)

variable {α β : Type}

/-- The rule comes to an end on this stream: what it gives and the stream that it leaves are as they
should be, or it fails. -/
def Ends (rule : Rules → Rule α) (Post : α → TokenStream → Prop) (s : TokenStream) : Prop :=
  (∃ a s', Settles rule (.ok s) (.ok (a, s')) ∧ Post a s') ∨
    ∃ error, Settles rule (.ok s) (.error error)

/-- The rule always ends, and if it succeeds, it has taken that many tokens at least. -/
def Takes (least : Nat) (rule : Rules → Rule α) : Prop :=
  ∀ s, Ends rule (fun _ s' => s'.waiting + least ≤ s.waiting) s

/-- A turn of a loop always ends. If it does not fail, then the loop is over and nothing has been
taken, or it goes on and a token has been taken. -/
def Turns (turn : Rules → Rule (Option α)) : Prop :=
  ∀ s, Ends turn (fun next s' =>
    match next with
    | none => s' = s
    | some _ => s'.waiting < s.waiting) s

/-- The loop consists of turns that take a token each, and ends. -/
structure Loops (turn : Rules → α → Rule (Option α)) (loop : Rules → α → Rule α) : Prop where
  unfolds : ∀ r a, loop (.next r) a = turn r a >>= fun next => next.elim (pure a) (loop r)
  turns : ∀ a, Turns fun r => turn r a
  ends : ∀ a, Takes 0 fun r => loop r a

namespace Ends

variable {s : TokenStream} {First First' : α → TokenStream → Prop}

theorem imp {rule : Rules → Rule α} (ends : Ends rule First s)
    (implies : ∀ a s', First a s' → First' a s') : Ends rule First' s :=
  ends.imp_left fun ⟨a, s', settles, holds⟩ => ⟨a, s', settles, implies a s' holds⟩

/-- The rule may be written out. -/
theorem unfold {rule : Rules → Rule α} (ends : Ends (fun r => rule r.next) First s) :
    Ends rule First s :=
  Or.imp (fun ⟨a, s', settles, holds⟩ => ⟨a, s', settles.unfold, holds⟩)
    (fun ⟨error, settles⟩ => ⟨error, settles.unfold⟩) ends

theorem bind {first : Rules → Rule α} {next : Rules → α → Rule β} {Post : β → TokenStream → Prop}
    (ends : Ends first First s) (later : ∀ a s', First a s' → Ends (fun r => next r a) Post s') :
    Ends (fun r => first r >>= next r) Post s := by
  rcases ends with ⟨a, s', settles, holds⟩ | ⟨error, settles⟩
  · have settles : Settles first (.ok s) ((Except.ok s').map fun s => (a, s)) := settles
    rcases later a s' holds with ⟨b, s'', settles', holds'⟩ | ⟨error, settles'⟩
    · exact .inl ⟨b, s'', settles.bind settles', holds'⟩
    · exact .inr ⟨error, settles.bind settles'⟩
  · exact .inr ⟨error, settles.bind_error⟩

end Ends

namespace Takes

variable {least more : Nat}

theorem mono {rule : Rules → Rule α} (takes : Takes more rule) (fewer : least ≤ more) :
    Takes least rule := fun s =>
  (takes s).imp fun _ _ enough => by omega

theorem pure (a : α) : Takes 0 fun _ => pure a := fun s =>
  .inl ⟨a, s, .now fun _ => rfl, Nat.le_refl _⟩

theorem peek : Takes 0 fun _ => peek := fun s =>
  .inl ⟨s.current, s, .now fun _ => rfl, Nat.le_refl _⟩

/-- A token is taken, or it was the end of input, where none waits. -/
theorem eat (kind : TokenKind) :
    Takes (if kind = .endOfInput then 0 else 1) fun _ => eat kind := by
  intro s
  by_cases isKind : s.current.kind = kind
  · have eaten : ∀ r, proceed ((fun _ : Rules => Streamed.eat kind) r) (.ok s) =
        some (s.advance.map fun s' => (s.current, s')) := fun _ => if_pos isKind
    cases later : s.advance with
    | error error =>
      rw [later] at eaten
      exact .inr ⟨error, .now eaten⟩
    | ok s' =>
      rw [later] at eaten
      refine .inl ⟨s.current, s', .now eaten, ?_⟩
      by_cases isStop : kind = .endOfInput
      · have same := (TokenStream.advance_of_stop (isKind.trans isStop)).2
        rw [later] at same
        cases same
        simp [isStop]
      · have waits := TokenStream.ahead_advance (s := s) fun stops =>
          isStop (isKind.symm.trans stops)
        rw [later] at waits
        have fewer : s'.waiting + 1 = s.waiting := congrArg (·.tokens.length) waits
        rw [if_neg isStop]
        exact Nat.le_of_eq fewer
  · exact .inr ⟨.syntactic s.current.pos (.expected kind s.current), .now fun _ => if_neg isKind⟩

theorem bind {first : Rules → Rule α} {next : Rules → α → Rule β} (takes : Takes least first)
    (later : ∀ a, Takes more fun r => next r a) :
    Takes (least + more) fun r => first r >>= next r := fun s =>
  (takes s).bind fun a s' _ => (later a s').imp fun _ _ _ => by omega

/-- It is enough that the first part takes a token. -/
theorem andThen {first : Rules → Rule α} {next : Rules → α → Rule β} (takes : Takes 1 first)
    (later : ∀ a, Takes 0 fun r => next r a) : Takes 1 fun r => first r >>= next r :=
  takes.bind later

/-- It is enough that what comes later takes as many. -/
theorem before {first : Rules → Rule α} {next : Rules → α → Rule β} (takes : Takes more first)
    (later : ∀ a, Takes least fun r => next r a) : Takes least fun r => first r >>= next r :=
  (takes.bind later).mono (Nat.le_add_left least more)

/-- A rule that does what a rule for lists does, where that one leaves a shorter list. -/
theorem of_follows {f : α → β}
    {rule : (s : List Token) → Except Parser.Stop (α × Parser.Shorter s)} {rule' : Rules → Rule β}
    (follows : ∀ x, Follows f (Parser.run rule) rule' x) : Takes 1 rule' := by
  intro s
  have follows := follows (.ok s)
  unfold Follows at follows
  cases found : Parser.run rule (ahead (.ok s)).tokens with
  | error stop =>
    rw [found] at follows
    cases stop with
    | exhausted =>
      obtain ⟨error, _, settles⟩ := follows
      exact .inr ⟨error, settles⟩
    | unexpected pos cause => exact .inr ⟨_, follows⟩
  | ok pair =>
    obtain ⟨a, rest⟩ := pair
    rw [found] at follows
    obtain ⟨y, isRest, settles⟩ := follows
    cases y with
    | error error => exact .inr ⟨error, settles⟩
    | ok s' =>
      refine .inl ⟨f a, s', settles, ?_⟩
      have shorter : rest.length < (ahead (.ok s)).tokens.length := Parser.run_bound found
      have whole : (ahead (.ok s')).tokens = rest := congrArg (·.tokens) isRest
      rw [← whole] at shorter
      exact Nat.lt_of_succ_lt_succ shorter

end Takes

/-! ## Loops -/

/-- The token that stands next decides whether the loop is over. If it is not, then what is read
takes a token. -/
theorem Turns.of_takes {turn : Rules → Token → Rule (Option α)}
    (decides : ∀ token, (∀ r, turn r token = pure none) ∨
      ∃ rule, Takes 1 rule ∧ ∀ r, turn r token = rule r >>= fun a => pure (some a)) :
    Turns fun r => peek >>= turn r := by
  intro s
  change Ends (fun r => turn r s.current) _ s
  rcases decides s.current with isOver | ⟨rule, takes, goesOn⟩
  · simp only [isOver]
    exact .inl ⟨none, s, .now fun _ => rfl, rfl⟩
  · simp only [goesOn]
    exact (takes s).bind fun a s' fewer => .inl ⟨some a, s', .now fun _ => rfl, fewer⟩

theorem turns_operator {operator? : Token → Option BinaryOp} {operand : Rules → Rule Node}
    (takes : Takes 1 operand) (lhs : Node) :
    Turns fun r => operatorTurn operator? (operand r) lhs := by
  refine .of_takes fun token => ?_
  cases operator? token with
  | none => exact .inl fun _ => rfl
  | some op =>
    refine .inr ⟨fun r => do
      let token ← eat .operator
      let rhs ← operand r
      return .binary (.ofToken token) op lhs rhs, ?_, fun r => ?_⟩
    · exact (Takes.eat .operator).andThen fun _ => takes.before fun _ => .pure _
    · simp only [bind_assoc, pure_bind]

theorem turns_comma {item : Rules → Rule Node} (takes : Takes 1 item) (items : List Node) :
    Turns fun r => commaTurn (item r) items := by
  refine .of_takes fun token => ?_
  by_cases isComma : token.kind = .comma
  · refine .inr ⟨fun r => do
      let _ ← eat .comma
      let node ← item r
      return items ++ [node], ?_, fun r => ?_⟩
    · exact (Takes.eat .comma).andThen fun _ => takes.before fun _ => .pure _
    · rw [if_pos isComma]
      simp only [bind_assoc, pure_bind]
  · exact .inl fun _ => if_neg isComma

/-- An item is behind every turn of the loops over items that stand side by side. -/
theorem takes_item {item : Rules → Rule Node} (takes : Takes 1 item) (items : List Node) :
    Takes 1 fun r => item r >>= fun node => pure (items ++ [node]) :=
  takes.andThen fun _ => .pure _

theorem turns_type {item : Rules → Rule Node} (takes : Takes 1 item) (items : List Node) :
    Turns fun r => typeTurn (item r) items := by
  refine .of_takes fun token => ?_
  by_cases isType : token.kind = .typeSpecifier
  · refine .inr ⟨_, takes_item takes items, fun r => ?_⟩
    rw [if_pos isType]
    simp only [bind_assoc, pure_bind]
  · exact .inl fun _ => if_neg isType

theorem turns_brace {item : Rules → Rule Node} (takes : Takes 1 item) (items : List Node) :
    Turns fun r => braceTurn (item r) items := by
  refine .of_takes fun token => ?_
  by_cases isRight : token.kind = .rightBrace
  · exact .inl fun _ => if_pos isRight
  · refine .inr ⟨_, takes_item takes items, fun r => ?_⟩
    rw [if_neg isRight]
    simp only [bind_assoc, pure_bind]

/-- A loop ends if every turn of it that goes on takes a token. -/
theorem Loops.of_turns {turn : Rules → α → Rule (Option α)} {loop : Rules → α → Rule α}
    {next : Rules → α → Option α → Rule α}
    (unfolds : ∀ r a, loop (.next r) a = turn r a >>= next r a)
    (isOver : ∀ r a, next r a none = pure a) (goesOn : ∀ r a b, next r a (some b) = loop r b)
    (turns : ∀ a, Turns fun r => turn r a) : Loops turn loop := by
  have unfolds (r : Rules) (a : α) :
      loop r.next a = turn r a >>= fun next => next.elim (pure a) (loop r) := by
    rw [unfolds]
    congr 1
    funext turned
    cases turned with
    | none => exact isOver r a
    | some b => exact goesOn r a b
  refine ⟨unfolds, turns, fun a s => ?_⟩
  -- The induction is on how many tokens wait.
  induction waiting : s.waiting using Nat.strong_induction_on generalizing a s with
  | _ count ih =>
    subst waiting
    refine .unfold ?_
    simp only [unfolds]
    refine (turns a s).bind fun next s' holds => ?_
    cases next with
    | none =>
      subst holds
      exact Takes.pure a s'
    | some next => exact (ih _ holds next s' rfl).imp fun _ _ _ => by omega

theorem loops_sum :
    Loops (fun r => operatorTurn Parser.sumOperator? r.product) Rules.sumLoop :=
  .of_turns (fun _ _ => rfl) (fun _ _ => rfl) (fun _ _ _ => rfl)
    (turns_operator (.of_follows follows_product))

theorem loops_product :
    Loops (fun r => operatorTurn Parser.productOperator? r.signed) Rules.productLoop :=
  .of_turns (fun _ _ => rfl) (fun _ _ => rfl) (fun _ _ _ => rfl)
    (turns_operator (.of_follows follows_signed))

theorem loops_arguments : Loops (fun r => commaTurn r.sum) Rules.argumentLoop :=
  .of_turns (fun _ _ => rfl) (fun _ _ => rfl) (fun _ _ _ => rfl)
    (turns_comma (.of_follows follows_sum))

theorem loops_declarations : Loops (fun _ => typeTurn declaration) Rules.declarationLoop :=
  .of_turns (fun _ _ => rfl) (fun _ _ => rfl) (fun _ _ _ => rfl)
    (turns_type (.of_follows follows_declaration))

theorem loops_statements : Loops (fun r => braceTurn r.statement) Rules.statementLoop :=
  .of_turns (fun _ _ => rfl) (fun _ _ => rfl) (fun _ _ _ => rfl)
    (turns_brace (.of_follows follows_statement))

theorem loops_parameters : Loops (fun _ => commaTurn parameter) Rules.parameterLoop :=
  .of_turns (fun _ _ => rfl) (fun _ _ => rfl) (fun _ _ _ => rfl)
    (turns_comma (.of_follows follows_parameter))

theorem loops_functions : Loops (fun r => typeTurn r.function) Rules.functionLoop :=
  .of_turns (fun _ _ => rfl) (fun _ _ => rfl) (fun _ _ _ => rfl)
    (turns_type (.of_follows follows_function))

/-! ## Rules -/

theorem takes_argumentList : Takes 1 Rules.argumentList :=
  (Takes.of_follows follows_sum).andThen fun first => loops_arguments.ends [first]

theorem takes_parameterList : Takes 1 Rules.parameterList :=
  (Takes.of_follows follows_parameter).andThen fun first => loops_parameters.ends [first]

theorem takes_returnStatement : Takes 1 Rules.returnStatement :=
  (Takes.eat .returnWord).andThen fun _ => (Takes.of_follows follows_sum).before fun _ =>
    (Takes.eat .semicolon).before fun _ => .pure _

theorem takes_expressionStatement : Takes 1 Rules.expressionStatement := by
  refine Takes.peek.before fun next => ?_
  by_cases isEmpty : next.kind = .semicolon
  · simp only [if_pos isEmpty]
    exact (Takes.eat .semicolon).andThen fun _ => .pure _
  · simp only [if_neg isEmpty]
    exact (Takes.eat .identifier).andThen fun _ => (Takes.eat .assignment).before fun _ =>
      (Takes.of_follows follows_sum).before fun _ => (Takes.eat .semicolon).before fun _ => .pure _

theorem takes_ifStatement : Takes 1 Rules.ifStatement := by
  have takes : Takes 1 Rules.statement := .of_follows follows_statement
  refine (Takes.eat .ifWord).andThen fun _ => (Takes.eat .leftParen).before fun _ =>
    (Takes.of_follows follows_sum).before fun _ => (Takes.eat .rightParen).before fun _ =>
    takes.before fun _ => Takes.peek.before fun next => ?_
  by_cases isElse : next.kind = .elseWord
  · simp only [if_pos isElse]
    exact (Takes.eat .elseWord).before fun _ => takes.before fun _ => .pure _
  · simp only [if_neg isElse]
    exact .pure _

theorem takes_program : Takes 1 Rules.program :=
  (Takes.of_follows follows_function).andThen fun first =>
    (loops_functions.ends [first]).before fun _ => (Takes.eat .endOfInput).before fun _ => .pure _

/-! ## The end of input -/

section Stops

variable {s : TokenStream}

/-- What takes a token fails at the end of input. -/
theorem Takes.fails_at_end {rule : Rules → Rule α} (takes : Takes 1 rule)
    (isStop : s.current.kind = .endOfInput) : ∃ error, Settles rule (.ok s) (.error error) := by
  have empty := (TokenStream.advance_of_stop isStop).1
  rcases takes s with ⟨a, s', _, fewer⟩ | fails
  · omega
  · exact fails

/-- A loop does not go round at the end of input. -/
theorem Turns.stops_at_end {turn : Rules → Rule (Option α)} (turns : Turns turn)
    (isStop : s.current.kind = .endOfInput) :
    Settles turn (.ok s) (.ok (none, s)) ∨ ∃ error, Settles turn (.ok s) (.error error) := by
  have empty := (TokenStream.advance_of_stop isStop).1
  rcases turns s with ⟨next, s', settles, holds⟩ | fails
  · cases next with
    | none =>
      subst holds
      exact .inl settles
    | some a => exact absurd holds (by rw [empty]; exact Nat.not_lt_zero _)
  · exact .inr fails

end Stops

end MiniC.Streamed

namespace MiniC

open Streamed in
/-- Every text is parsed to an end, with the tree or the error that it has. Every rule ends on every
stream, and if it succeeds, it has taken a token. So has every turn of a loop that goes on. The end
of input can be taken for ever, but no rule succeeds at it and no loop goes round. -/
theorem parsing_always_ends :
    (∀ source, ∃ n, ∀ m, n ≤ m → Streamed.parse m source = some (Node.parse source)) ∧
    Takes 1 (fun _ => typeSpecifier) ∧
    (∀ rule ∈ [fun _ => parameter, fun _ => declaration, Rules.program, Rules.function,
        Rules.block, Rules.statement, Rules.returnStatement, Rules.ifStatement,
        Rules.expressionStatement, Rules.sum, Rules.product, Rules.signed, Rules.primary],
      Takes 1 rule) ∧
    (∀ rule ∈ [Rules.parameterList, Rules.argumentList], Takes 1 rule) ∧
    Loops (fun r => typeTurn r.function) Rules.functionLoop ∧
    Loops (fun _ => commaTurn parameter) Rules.parameterLoop ∧
    Loops (fun _ => typeTurn declaration) Rules.declarationLoop ∧
    Loops (fun r => braceTurn r.statement) Rules.statementLoop ∧
    Loops (fun r => operatorTurn Parser.sumOperator? r.product) Rules.sumLoop ∧
    Loops (fun r => operatorTurn Parser.productOperator? r.signed) Rules.productLoop ∧
    Loops (fun r => commaTurn r.sum) Rules.argumentLoop ∧
    ∀ s : TokenStream, s.current.kind = .endOfInput →
      s.advance = .ok s ∧
      (∀ (α : Type) (rule : Rules → Rule α), Takes 1 rule →
        ∃ error, Settles rule (.ok s) (.error error)) ∧
      (∀ (α : Type) (turn : Rules → Rule (Option α)), Turns turn →
        Settles turn (.ok s) (.ok (none, s)) ∨ ∃ error, Settles turn (.ok s) (.error error)) := by
  refine ⟨parse_settles, .of_follows follows_typeSpecifier, ?_, ?_, loops_functions,
    loops_parameters, loops_declarations, loops_statements, loops_sum, loops_product,
    loops_arguments, fun s isStop => ⟨(TokenStream.advance_of_stop isStop).2,
      fun α rule takes => takes.fails_at_end isStop,
      fun α turn turns => turns.stops_at_end isStop⟩⟩
  · simp only [List.forall_mem_cons]
    exact ⟨.of_follows follows_parameter, .of_follows follows_declaration, takes_program,
      .of_follows follows_function, .of_follows follows_block, .of_follows follows_statement,
      takes_returnStatement, takes_ifStatement, takes_expressionStatement, .of_follows follows_sum,
      .of_follows follows_product, .of_follows follows_signed, .of_follows follows_primary,
      List.forall_mem_nil _⟩
  · exact List.forall_mem_cons.2
      ⟨takes_parameterList, List.forall_mem_singleton.2 takes_argumentList⟩

end MiniC
