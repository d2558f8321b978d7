import MiniC.Proofs.Recognition
import MiniC.Proofs.Streams

/-!
# Streams and lists of tokens

The rules that go over a stream find what the rules for lists of tokens find. There is one
difference on the way: a stream fetches early, so a rule that takes the last token in front of a
lexical failure fails with it at once, where a rule for lists goes on until it looks for a token.
`Follows` says that two rules agree up to this, and it is carried from the parts of a rule to the
whole.

A loop carries what it has read so far, and the rule for lists that it follows puts the nodes in
front of those that come later. The rules for lists call themselves on shorter lists only, so the
proofs are by induction on how many tokens can be seen. How often the rules for streams go round is
not counted: they settle on a result if they may go round often enough (`Settles`).
-/

namespace MiniC

namespace TokenStream

/-- What can be seen from where the fetching of a token has led: a stream, or a failure. -/
def ahead : Except Error TokenStream → Lexing
  | .ok s => s.lexing
  | .error error => ⟨[], some error⟩

/-- There is the end of input at least, or a failure. -/
theorem not_ended_nil : ¬ Lexing.Ended ⟨[], none⟩ := by
  intro ended
  generalize nothing : (⟨[], none⟩ : Lexing) = lexing at ended
  cases ended with
  | whole => simp at nothing
  | failed => cases nothing

theorem ahead_start (source : String) : ahead (start source) = lex source := by
  have whole := (lex source).eq_next?
  unfold start
  split
  · next found => rw [found] at whole; exact whole.symm
  · next found => rw [found] at whole; exact whole.symm
  · next found =>
    rw [found] at whole
    exact absurd ((show lex source = ⟨[], none⟩ from whole) ▸ (proper_lex source).ended)
      not_ended_nil

/-- Before the end of input, taking a token shows what waits behind it. -/
theorem ahead_advance {s : TokenStream} (isInner : s.current.IsInner) :
    ahead s.advance = s.later := by
  have whole := s.later.eq_next?
  unfold advance
  split
  · next found => rw [found] at whole; exact whole.symm
  · next found => rw [found] at whole; exact whole.symm
  · next found =>
    have ended := s.proper.ended.tail isInner
    rw [found] at whole
    rw [whole] at ended
    exact absurd ended not_ended_nil

/-- Past the end, a stream shows the end of input for ever. -/
theorem advance_of_stop {s : TokenStream} (isStop : s.current.kind = .endOfInput) :
    s.waiting = 0 ∧ s.advance = .ok s := by
  obtain ⟨nothing, sound⟩ := s.proper.ended.nothing_behind isStop
  refine ⟨congrArg List.length nothing, ?_⟩
  have none_left : s.later.next? = none := by
    cases later : s.later
    simp_all [Lexing.next?]
  unfold advance
  split <;> simp_all

end TokenStream

open TokenStream (ahead)

namespace Streamed

variable {α β α' β' : Type}

theorem bind_eq (first : Rule α) (next : α → Rule β) (s : TokenStream) :
    (first >>= next) s =
      match first s with
      | none => none
      | some (.error error) => some (.error error)
      | some (.ok (a, s')) => next a s' := by
  change (first s >>= fun found => next found.1 found.2 : ExceptT Error Option _) = _
  cases first s with
  | none => rfl
  | some result => cases result <;> rfl

/-! ## As the rules for lists of tokens -/

/-- A rule goes on where the fetching of a token has led, or the failure is passed on. -/
def proceed (rule : Rule α) : Except Error TokenStream → Option (Except Error (α × TokenStream))
  | .ok s => rule s
  | .error error => some (.error error)

theorem proceed_bind (first : Rule α) (next : α → Rule β) (x : Except Error TokenStream) :
    proceed (first >>= next) x =
      match proceed first x with
      | none => none
      | some (.error error) => some (.error error)
      | some (.ok (a, s)) => next a s := by
  cases x with
  | ok s => exact bind_eq first next s
  | error error => rfl

/-- The rule ends with this result, if it may go round often enough. -/
def Settles (rule : Rules → Rule α) (x : Except Error TokenStream)
    (result : Except Error (α × TokenStream)) : Prop :=
  ∃ n, ∀ m, n ≤ m → proceed (rule (.nested m)) x = some result

namespace Settles

variable {x y : Except Error TokenStream} {a : α}

theorem now {rule : Rules → Rule α} {result : Except Error (α × TokenStream)}
    (found : ∀ r, proceed (rule r) x = some result) : Settles rule x result :=
  ⟨0, fun _ _ => found _⟩

theorem bind {first : Rules → Rule α} {next : Rules → α → Rule β}
    {result : Except Error (β × TokenStream)} (found : Settles first x (y.map fun s => (a, s)))
    (later : Settles (fun r => next r a) y result) :
    Settles (fun r => first r >>= next r) x result := by
  obtain ⟨n, found⟩ := found
  obtain ⟨n', later⟩ := later
  refine ⟨max n n', fun m enough => ?_⟩
  have last := later m (le_trans (le_max_right n n') enough)
  rw [proceed_bind, found m (le_trans (le_max_left n n') enough)]
  cases y <;> exact last

theorem bind_error {first : Rules → Rule α} {next : Rules → α → Rule β} {error : Error}
    (found : Settles first x (.error error)) :
    Settles (fun r => first r >>= next r) x (.error error) := by
  obtain ⟨n, found⟩ := found
  exact ⟨n, fun m enough => by rw [proceed_bind, found m enough]⟩

/-- A rule that is written out may go round once more. -/
theorem unfold {rule : Rules → Rule α} {result : Except Error (α × TokenStream)}
    (found : Settles (fun r => rule r.next) x result) : Settles rule x result := by
  obtain ⟨n, found⟩ := found
  refine ⟨n + 1, fun m enough => ?_⟩
  obtain ⟨k, rfl⟩ : ∃ k, m = k + 1 := ⟨m - 1, by omega⟩
  exact found k (by omega)

end Settles

/-- The second rule does with a stream what the first does with the tokens of it. A stream fetches
early: when the last token before a failure has been taken, the second rule has failed already, and
the first one when it looks for a token again. -/
def Follows (f : α → α') (rule : Parser.Rule α) (rule' : Rules → Rule α')
    (x : Except Error TokenStream) : Prop :=
  match rule (ahead x).tokens with
  | .ok (a, rest) => ∃ y, ahead y = ⟨rest, (ahead x).failure⟩ ∧
      Settles rule' x (y.map fun s => (f a, s))
  | .error .exhausted => ∃ error, (ahead x).failure = some error ∧ Settles rule' x (.error error)
  | .error (.unexpected pos cause) => Settles rule' x (.error (.syntactic pos cause))

/-- How many tokens can be seen. -/
def left (x : Except Error TokenStream) : Nat := (ahead x).tokens.length

namespace Follows

variable {f : α → α'} {g : β → β'} {x : Except Error TokenStream} {s : TokenStream}

/-- Both rules go on behind what both have taken. -/
theorem goOn {first : Parser.Rule α} {first' : Rules → Rule α'} {next : α → Parser.Rule β}
    {next' : Rules → α' → Rule β'} {y : Except Error TokenStream} {a : α} {a' : α'}
    {rest : List Token} (found : first (ahead x).tokens = .ok (a, rest))
    (isRest : ahead y = ⟨rest, (ahead x).failure⟩)
    (settles : Settles first' x (y.map fun s => (a', s)))
    (later : Follows g (next a) (fun r => next' r a') y) :
    Follows g (first >>= next) (fun r => first' r >>= next' r) x := by
  unfold Follows at later ⊢
  rw [Parser.bind_of_ok found]
  rw [isRest] at later
  cases last : next a rest with
  | ok pair =>
    rw [last] at later
    obtain ⟨z, isLast, settles'⟩ := later
    exact ⟨z, isLast, settles.bind settles'⟩
  | error stop =>
    rw [last] at later
    cases stop with
    | exhausted =>
      obtain ⟨error, failed, settles'⟩ := later
      exact ⟨error, failed, settles.bind settles'⟩
    | unexpected pos cause => exact settles.bind later

theorem andThen {first : Parser.Rule α} {first' : Rules → Rule α'} {next : α → Parser.Rule β}
    {next' : Rules → α' → Rule β'} (follows : Follows f first first' x)
    (later : ∀ a y, first (ahead x).tokens = .ok (a, (ahead y).tokens) →
      Follows g (next a) (fun r => next' r (f a)) y) :
    Follows g (first >>= next) (fun r => first' r >>= next' r) x := by
  unfold Follows at follows
  cases found : first (ahead x).tokens with
  | ok pair =>
    obtain ⟨a, rest⟩ := pair
    rw [found] at follows
    obtain ⟨y, isRest, settles⟩ := follows
    exact goOn found isRest settles (later a y (by rw [found, isRest]))
  | error stop =>
    rw [found] at follows
    unfold Follows
    rw [Parser.bind_of_error found]
    cases stop with
    | exhausted =>
      obtain ⟨error, failed, settles⟩ := follows
      exact ⟨error, failed, settles.bind_error⟩
    | unexpected pos cause => exact Settles.bind_error follows

/-- The rule for streams may be written out. -/
theorem unfold {rule : Parser.Rule α} {rule' : Rules → Rule α'}
    (follows : Follows f rule (fun r => rule' r.next) x) : Follows f rule rule' x := by
  unfold Follows at follows ⊢
  cases found : rule (ahead x).tokens with
  | ok pair =>
    rw [found] at follows
    obtain ⟨y, isRest, settles⟩ := follows
    exact ⟨y, isRest, settles.unfold⟩
  | error stop =>
    rw [found] at follows
    cases stop with
    | exhausted =>
      obtain ⟨error, failed, settles⟩ := follows
      exact ⟨error, failed, settles.unfold⟩
    | unexpected pos cause => exact Settles.unfold follows

theorem pure {b : β} {b' : β'} (same : b' = g b) :
    Follows g (pure b) (fun _ => pure b') x := by
  subst same
  cases x with
  | ok s => exact ⟨.ok s, rfl, .now fun _ => rfl⟩
  | error error => exact ⟨.error error, rfl, .now fun _ => rfl⟩

/-- What the first rule gives may be put together differently. -/
theorem map {rule : Parser.Rule α} {rule' : Rules → Rule β'} {f : α → β'} (h : α → β)
    (follows : Follows f rule rule' x) (same : ∀ a, f a = g (h a)) :
    Follows g (rule >>= fun a => Pure.pure (h a)) rule' x := by
  have whole : Follows g (rule >>= fun a => Pure.pure (h a)) (fun r => rule' r >>= Pure.pure) x :=
    follows.andThen fun a y _ => .pure (same a)
  simpa only [bind_pure] using whole

/-- The first rule looks at the token that the stream shows. -/
theorem look {next : Token → Parser.Rule β} {rule' : Rules → Rule β'}
    (later : ∀ s, x = .ok s → Follows g (next s.current) rule' (.ok s)) :
    Follows g (Parser.look >>= next) rule' x := by
  cases x with
  | ok s => exact later s rfl
  | error error => exact ⟨error, rfl, .now fun _ => rfl⟩

theorem peek {rule : Parser.Rule β} {next' : Rules → Token → Rule β'}
    (follows : Follows g rule (fun r => next' r s.current) (.ok s)) :
    Follows g rule (fun r => peek >>= next' r) (.ok s) :=
  follows

/-- Both look at the token. -/
theorem see {next : Token → Parser.Rule β} {next' : Rules → Token → Rule β'}
    (later : ∀ s, x = .ok s → Follows g (next s.current) (fun r => next' r s.current) (.ok s)) :
    Follows g (Parser.look >>= next) (fun r => Streamed.peek >>= next' r) x :=
  .look fun s isStream => .peek (later s isStream)

theorem refuse {cause : Token → SyntacticCause} :
    Follows g (Parser.refuse cause) (fun _ => refuse cause) (.ok s) :=
  have refuses : Settles (fun _ => (Streamed.refuse cause : Rule β')) (.ok s)
      (.error (.syntactic s.current.pos (cause s.current))) :=
    .now fun _ => rfl
  refuses

theorem skip {kind : TokenKind} {next : Unit → Parser.Rule β} {next' : Rules → Token → Rule β'}
    (isKind : s.current.kind = kind) (isInner : kind ≠ .endOfInput)
    (later : left s.advance < left (.ok s) →
      Follows g (next ()) (fun r => next' r s.current) s.advance) :
    Follows g (Parser.skip >>= next) (fun r => eat kind >>= next' r) (.ok s) := by
  have waits : ahead s.advance = s.later := TokenStream.ahead_advance fun isStop =>
    isInner (isKind.symm.trans isStop)
  have shorter : left s.advance < left (.ok s) := by
    unfold left
    rw [waits]
    exact Nat.lt_succ_self _
  exact goOn rfl waits (.now fun _ => if_pos isKind) (later shorter)

/-- A token of another kind is refused. -/
theorem refuse_eat {kind : TokenKind} {next' : Rules → Token → Rule β'}
    (other : s.current.kind ≠ kind) :
    Follows g (Parser.refuse fun token => .expected kind token) (fun r => eat kind >>= next' r)
      (.ok s) :=
  have refuses : Settles (fun _ => Streamed.eat kind) (.ok s)
      (.error (.syntactic s.current.pos (.expected kind s.current))) :=
    .now fun _ => if_neg other
  refuses.bind_error

theorem eat {kind : TokenKind} {next : Token → Parser.Rule β} {next' : Rules → Token → Rule β'}
    (isInner : kind ≠ .endOfInput)
    (later : ∀ token y, left y < left x →
      Follows g (next token) (fun r => next' r token) y) :
    Follows g (Parser.run (Parser.eat kind) >>= next) (fun r => eat kind >>= next' r) x := by
  have takes : Follows id (Parser.run (Parser.eat kind)) (fun _ => Streamed.eat kind) x := by
    cases x with
    | error error => exact ⟨error, rfl, .now fun _ => rfl⟩
    | ok s =>
      unfold Follows
      rw [Parser.run_eat, show (ahead (.ok s)).tokens = s.current :: s.later.tokens from rfl,
        Parser.look_bind]
      by_cases isKind : s.current.kind = kind
      · rw [if_pos isKind]
        have isInner : s.current.IsInner := fun isStop => isInner (isKind.symm.trans isStop)
        exact ⟨s.advance, TokenStream.ahead_advance isInner, .now fun _ => if_pos isKind⟩
      · rw [if_neg isKind]
        exact Settles.now fun _ => if_neg isKind
  exact takes.andThen fun token y found => later token y (Parser.run_bound found)

end Follows

section Lists

variable {item : (s : List Token) → Except Parser.Stop (Node × Parser.Shorter s)}
  {more : Parser.Rule (List Node)} {item' : Rules → Rule Node}
  {loop : Rules → List Node → Rule (List Node)}

/-- A loop over items behind commas, and the parenthesis that closes it. -/
theorem follows_further {x : Except Error TokenStream}
    (eq_more : more = Parser.further (Parser.run item) more)
    (eq_loop : ∀ r nodes, loop (.next r) nodes = do
      match ← commaTurn (item' r) nodes with
      | none => return nodes
      | some nodes => loop r nodes)
    (follows : ∀ y, left y < left x → Follows id (Parser.run item) item' y) (nodes : List Node) :
    Follows (nodes ++ ·) more
      (fun r => loop r nodes >>= fun nodes => eat .rightParen >>= fun _ => pure nodes) x := by
  refine .unfold ?_
  rw [eq_more]
  unfold Parser.further Parser.both
  simp only [eq_loop, commaTurn, bind_assoc]
  refine .see fun s isStream => ?_
  subst isStream
  by_cases isComma : s.current.kind = .comma
  · simp only [if_pos isComma, bind_assoc, pure_bind]
    refine .skip isComma (by decide) fun short => ?_
    refine (follows _ short).andThen fun node y found => ?_
    have shorter : left y < left s.advance := Parser.run_bound found
    refine .map (node :: ·) (follows_further eq_more eq_loop
      (fun z less => follows z (by omega)) (nodes ++ [node])) fun rest => ?_
    simp
  · simp only [if_neg isComma, pure_bind]
    exact .eat (by decide) fun _ y _ => .pure (List.append_nil nodes).symm
termination_by left x

/-- A list in parentheses, behind the first of them. -/
theorem follows_series {x : Except Error TokenStream}
    (follows : Follows id (Parser.run item) item' x)
    (further : ∀ y, left y < left x → ∀ nodes, Follows (nodes ++ ·) more
      (fun r => loop r nodes >>= fun nodes => eat .rightParen >>= fun _ => pure nodes) y) :
    Follows id (Parser.series (Parser.run item) more)
      (fun r => closedList (item' r >>= fun first => loop r [first])) x := by
  unfold Parser.series Parser.both closedList
  refine .see fun s isStream => ?_
  subst isStream
  by_cases isRight : s.current.kind = .rightParen
  · simp only [if_pos isRight, pure_bind]
    exact .skip isRight (by decide) fun _ => .pure rfl
  · simp only [if_neg isRight, bind_assoc]
    refine follows.andThen fun node y found => ?_
    exact (further y (Parser.run_bound found) [node]).map (node :: ·) fun rest => rfl

/-- A loop over items that begin with a type word. -/
theorem follows_many {x : Except Error TokenStream}
    (eq_more : more = Parser.many (Parser.run item) more)
    (eq_loop : ∀ r nodes, loop (.next r) nodes = do
      match ← typeTurn (item' r) nodes with
      | none => return nodes
      | some nodes => loop r nodes)
    (follows : ∀ y, Follows id (Parser.run item) item' y) (nodes : List Node) :
    Follows (nodes ++ ·) more (fun r => loop r nodes) x := by
  refine .unfold ?_
  rw [eq_more]
  unfold Parser.many Parser.both
  simp only [eq_loop, typeTurn, bind_assoc]
  refine .see fun s isStream => ?_
  subst isStream
  by_cases isType : s.current.kind = .typeSpecifier
  · simp only [if_pos isType, bind_assoc, pure_bind]
    refine (follows _).andThen fun node y found => ?_
    have shorter : left y < left (.ok s) := Parser.run_bound found
    exact (follows_many eq_more eq_loop follows (nodes ++ [node])).map (node :: ·)
      fun rest => by simp
  · simp only [if_neg isType, pure_bind]
    exact .pure (List.append_nil nodes).symm
termination_by left x

end Lists

/-! ## Expressions -/

section Operators

variable {operator? : Token → Option BinaryOp} {rest : Node → Parser.Rule Node}
  {operand : (s : List Token) → Except Parser.Stop (Node × Parser.Shorter s)}
  {operand' : Rules → Rule Node} {loop : Rules → Node → Rule Node}

/-- A loop over operators with an operand behind each. -/
theorem follows_operators {x : Except Error TokenStream}
    (isOperator : ∀ token op, operator? token = some op → token.kind = .operator)
    (eq_rest : ∀ lhs, rest lhs = (do
      let token ← Parser.look
      match operator? token with
      | none => return lhs
      | some op => do
          Parser.skip
          let rhs ← Parser.run operand
          rest (.binary (.ofToken token) op lhs rhs)))
    (eq_loop : ∀ r lhs, loop (.next r) lhs = do
      match ← operatorTurn operator? (operand' r) lhs with
      | none => return lhs
      | some node => loop r node)
    (follows : ∀ y, left y < left x → Follows id (Parser.run operand) operand' y) (lhs : Node) :
    Follows id (rest lhs) (fun r => loop r lhs) x := by
  refine .unfold ?_
  rw [eq_rest]
  simp only [eq_loop, operatorTurn, bind_assoc]
  refine .see fun s isStream => ?_
  subst isStream
  cases sign : operator? s.current with
  | none =>
    simp only [pure_bind]
    exact .pure rfl
  | some op =>
    simp only [bind_assoc, pure_bind]
    refine .skip (isOperator _ _ sign) (by decide) fun short => ?_
    refine (follows _ short).andThen fun rhs y found => ?_
    have shorter : left y < left s.advance := Parser.run_bound found
    exact follows_operators isOperator eq_rest eq_loop (fun z less => follows z (by omega)) _
termination_by left x

end Operators

mutual
theorem follows_sum (x : Except Error TokenStream) :
    Follows id (Parser.run Parser.sum) Rules.sum x := by
  rw [Parser.run_sum]
  refine .unfold ((follows_product x).andThen fun first y found => ?_)
  have shorter : left y < left x := Parser.run_bound found
  exact follows_operators (fun _ _ sign => (Parser.sumOperator?_eq_some.1 sign).2.1)
    Parser.run_sumRest (fun _ _ => rfl) (fun z less => follows_product z) first
termination_by 8 * left x + 3
decreasing_by all_goals grind

theorem follows_product (x : Except Error TokenStream) :
    Follows id (Parser.run Parser.product) Rules.product x := by
  rw [Parser.run_product]
  refine (follows_signed x).andThen fun first y found => ?_
  have shorter : left y < left x := Parser.run_bound found
  exact follows_operators (fun _ _ sign => (Parser.productOperator?_eq_some.1 sign).2.1)
    Parser.run_productRest (fun _ _ => rfl) (fun z less => follows_signed z) first
termination_by 8 * left x + 2
decreasing_by all_goals grind

theorem follows_signed (x : Except Error TokenStream) :
    Follows id (Parser.run Parser.signed) Rules.signed x := by
  rw [Parser.run_signed]
  refine .unfold (.see fun s isStream => ?_)
  subst isStream
  cases sign : Parser.signOperator? s.current with
  | none => exact follows_primary (.ok s)
  | some op =>
    have isOperator : s.current.kind = .operator := (Parser.signOperator?_eq_some.1 sign).1
    refine .skip isOperator (by decide) fun short => ?_
    exact (follows_signed s.advance).andThen fun operand y _ => .pure rfl
termination_by 8 * left x + 1
decreasing_by all_goals grind

theorem follows_primary (x : Except Error TokenStream) :
    Follows id (Parser.run Parser.primary) Rules.primary x := by
  rw [Parser.run_primary]
  refine .see fun s isStream => ?_
  subst isStream
  cases kind : s.current.kind with
  | leftParen =>
    refine .skip kind (by decide) fun short => ?_
    refine (follows_sum s.advance).andThen fun node y found => ?_
    exact .eat (by decide) fun _ _ _ => .pure rfl
  | identifier =>
    refine .skip kind (by decide) fun short => .see fun s' isStream => ?_
    rw [isStream] at short
    by_cases isLeft : s'.current.kind = .leftParen
    · simp only [if_pos isLeft, parenthesized, bind_assoc]
      refine .skip isLeft (by decide) fun short' => ?_
      exact (follows_arguments s'.advance).andThen fun values y _ => .pure rfl
    · simp only [if_neg isLeft]
      exact .pure rfl
  | integerConstant => exact .skip kind (by decide) fun _ => .pure rfl
  | doubleConstant => exact .skip kind (by decide) fun _ => .pure rfl
  | _ => exact .refuse
termination_by 8 * left x
decreasing_by all_goals grind

/-- The arguments of a call, behind the parenthesis that opens them. -/
theorem follows_arguments (x : Except Error TokenStream) :
    Follows id (Parser.run Parser.arguments) (fun r => closedList r.argumentList) x := by
  rw [Parser.run_arguments]
  exact follows_series (follows_sum x) fun y less =>
    follows_further Parser.run_argumentsRest (fun _ _ => rfl) fun z less' => follows_sum z
termination_by 8 * left x + 4
decreasing_by all_goals grind
end

/-! ## Statements -/

/-- The text of a type word is the name of a type. -/
theorem exists_type {s : TokenStream} (isType : s.current.kind = .typeSpecifier) :
    ∃ ty, Ty.ofSpecifier? s.current.text = some ty := by
  have holds := (List.forall_mem_cons.1 s.proper.holds).1
  rw [isType] at holds
  rcases holds with isText | isText
  · exact ⟨.int, by rw [String.toList_inj.1 isText]; rfl⟩
  · exact ⟨.double, by rw [String.toList_inj.1 isText]; rfl⟩

theorem follows_typeSpecifier (x : Except Error TokenStream) :
    Follows id (Parser.run Parser.typeSpecifier) (fun _ => typeSpecifier) x := by
  rw [Parser.run_typeSpecifier]
  unfold typeSpecifier
  refine .look fun s isStream => ?_
  subst isStream
  by_cases isType : s.current.kind = .typeSpecifier
  · obtain ⟨ty, named⟩ := exists_type isType
    rw [if_pos isType, named]
    refine .skip isType (by decide) fun _ => ?_
    rw [named]
    exact .pure rfl
  · rw [if_neg isType]
    exact .refuse_eat isType

theorem follows_declaration (x : Except Error TokenStream) :
    Follows id (Parser.run Parser.declaration) (fun _ => declaration) x := by
  rw [Parser.run_declaration]
  exact (follows_typeSpecifier x).andThen fun ty y _ =>
    .eat (by decide) fun name y _ => .eat (by decide) fun _ _ _ => .pure rfl

mutual
theorem follows_block (x : Except Error TokenStream) :
    Follows id (Parser.run Parser.block) Rules.block x := by
  rw [Parser.run_block]
  refine .eat (by decide) fun brace y short => .see fun s isStream => ?_
  subst isStream
  by_cases isRight : s.current.kind = .rightBrace
  · simp only [if_pos isRight]
    exact .skip isRight (by decide) fun _ => .pure rfl
  · simp only [if_neg isRight]
    have declared : Follows id (Parser.run Parser.declarations) (fun r => r.declarationLoop [])
        (.ok s) :=
      follows_many Parser.run_declarations (fun _ _ => rfl) follows_declaration []
    refine declared.andThen fun declarations z found => ?_
    have shorter : left z ≤ left (.ok s) := Parser.run_bound found
    have stated : Follows id
        (Parser.run Parser.statements >>= fun statements =>
          pure (Node.block (.ofToken brace) declarations statements))
        (fun r => (r.statementLoop [] >>= fun nodes => eat .rightBrace >>= fun _ => pure nodes) >>=
          fun statements => pure (Node.block (.ofToken brace) declarations statements)) z :=
      (follows_statements z []).andThen fun statements _ _ => .pure rfl
    simpa only [bind_assoc, pure_bind, id_eq] using stated
termination_by 8 * left x
decreasing_by all_goals grind

theorem follows_statement (x : Except Error TokenStream) :
    Follows id (Parser.run Parser.statement) Rules.statement x := by
  rw [Parser.run_statement]
  refine .unfold (.see fun s isStream => ?_)
  subst isStream
  cases kind : s.current.kind with
  | leftBrace => exact follows_block (.ok s)
  | returnWord =>
    refine .skip kind (by decide) fun _ => (follows_sum s.advance).andThen fun value y _ => ?_
    exact .eat (by decide) fun _ _ _ => .pure rfl
  | ifWord =>
    refine .skip kind (by decide) fun _ => .eat (by decide) fun _ y _ => ?_
    refine (follows_sum y).andThen fun condition y' found => ?_
    have shorter : left y' < left y := Parser.run_bound found
    refine .eat (by decide) fun _ z _ => (follows_statement z).andThen fun consequent z' found => ?_
    have shorter' : left z' < left z := Parser.run_bound found
    refine .see fun s' isStream => ?_
    rw [isStream] at shorter'
    by_cases isElse : s'.current.kind = .elseWord
    · simp only [if_pos isElse]
      refine .skip isElse (by decide) fun short => ?_
      exact (follows_statement s'.advance).andThen fun alternative w _ => .pure rfl
    · simp only [if_neg isElse]
      exact .pure rfl
  | semicolon =>
    refine .peek ?_
    simp only [if_pos kind]
    exact .skip kind (by decide) fun _ => .pure rfl
  | identifier =>
    refine .peek ?_
    simp only [if_neg (show ¬ s.current.kind = .semicolon by rw [kind]; decide)]
    refine .skip kind (by decide) fun _ => .eat (by decide) fun _ y _ => ?_
    exact (follows_sum y).andThen fun value z _ => .eat (by decide) fun _ _ _ => .pure rfl
  | _ =>
    refine .peek ?_
    simp only [if_neg (show ¬ s.current.kind = .semicolon by rw [kind]; decide)]
    exact .refuse_eat (by rw [kind]; decide)
termination_by 8 * left x + 1
decreasing_by all_goals grind

/-- The statements of a block, and the brace that closes it. -/
theorem follows_statements (x : Except Error TokenStream) (nodes : List Node) :
    Follows (nodes ++ ·) (Parser.run Parser.statements)
      (fun r => r.statementLoop nodes >>= fun nodes => eat .rightBrace >>= fun _ => pure nodes)
      x := by
  refine .unfold ?_
  rw [Parser.run_statements]
  simp only [Rules.next, braceTurn, bind_assoc]
  refine .see fun s isStream => ?_
  subst isStream
  by_cases isRight : s.current.kind = .rightBrace
  · simp only [if_pos isRight, pure_bind]
    exact .skip isRight (by decide) fun _ => .pure (List.append_nil nodes).symm
  · simp only [if_neg isRight, bind_assoc, pure_bind]
    refine (follows_statement (.ok s)).andThen fun node y found => ?_
    have shorter : left y < left (.ok s) := Parser.run_bound found
    exact (follows_statements y (nodes ++ [node])).map (node :: ·) fun rest => by simp
termination_by 8 * left x + 2
decreasing_by all_goals grind
end

/-! ## Programs -/

theorem follows_parameter (x : Except Error TokenStream) :
    Follows id (Parser.run Parser.parameter) (fun _ => parameter) x := by
  rw [Parser.run_parameter]
  exact (follows_typeSpecifier x).andThen fun ty y _ => .eat (by decide) fun _ _ _ => .pure rfl

/-- The parameters of a function, behind the parenthesis that opens them. -/
theorem follows_parameters (x : Except Error TokenStream) :
    Follows id (Parser.run Parser.parameters) (fun r => closedList r.parameterList) x := by
  rw [Parser.run_parameters]
  exact follows_series (follows_parameter x) fun y _ =>
    follows_further Parser.run_parametersRest (fun _ _ => rfl) fun z _ => follows_parameter z

theorem follows_function (x : Except Error TokenStream) :
    Follows id (Parser.run Parser.function) Rules.function x := by
  rw [Parser.run_function]
  unfold Rules.function parenthesized
  simp only [bind_assoc]
  refine (follows_typeSpecifier x).andThen fun returnType _ _ => ?_
  refine .eat (by decide) fun name y _ => .eat (by decide) fun _ y _ => ?_
  refine (follows_parameters y).andThen fun parameters z _ => ?_
  exact (follows_block z).andThen fun body _ _ => .pure rfl

theorem follows_functions (x : Except Error TokenStream) :
    Follows id (Parser.both (Parser.run Parser.function) (Parser.run Parser.functions))
      (fun r => r.function >>= fun first => r.functionLoop [first]) x :=
  (follows_function x).andThen fun first _ _ =>
    (follows_many Parser.run_functions (fun _ _ => rfl) follows_function [first]).map
      (first :: ·) fun _ => rfl

/-- The end of input can be taken where it stands, and nowhere else. -/
theorem eat_endOfInput (s : TokenStream) :
    eat .endOfInput s =
      if s.current.kind = .endOfInput then some (.ok (s.current, s))
      else some (.error (.syntactic s.current.pos (.expected .endOfInput s.current))) := by
  unfold eat
  split
  · next isStop =>
    rw [(TokenStream.advance_of_stop isStop).2]
    rfl
  · rfl

/-- The second rule ends on a stream, with what is made of what the first finds in the tokens of
it. -/
def Concludes (rule : Parser.Rule Node) (rule' : Rules → Rule Node)
    (x : Except Error TokenStream) : Prop :=
  ∃ result, Settles rule' x result ∧ result.map (·.1) =
    match rule (ahead x).tokens with
    | .ok (node, _) => .ok node
    | .error (.unexpected pos cause) => .error (.syntactic pos cause)
    | .error .exhausted => .error ((ahead x).failure.getD (.internal .noEndOfInput))

theorem Follows.concludes {f : α → α'} {first : Parser.Rule α} {first' : Rules → Rule α'}
    {next : α → Parser.Rule Node} {next' : Rules → α' → Rule Node}
    {x : Except Error TokenStream} (follows : Follows f first first' x)
    (last : ∀ a y, Concludes (next a) (fun r => next' r (f a)) y) :
    Concludes (first >>= next) (fun r => first' r >>= next' r) x := by
  unfold Follows at follows
  unfold Concludes
  cases found : first (ahead x).tokens with
  | error stop =>
    rw [found] at follows
    rw [Parser.bind_of_error found]
    cases stop with
    | exhausted =>
      obtain ⟨error, failed, settles⟩ := follows
      exact ⟨.error error, settles.bind_error, by rw [failed]; rfl⟩
    | unexpected pos cause => exact ⟨_, Settles.bind_error follows, rfl⟩
  | ok pair =>
    obtain ⟨a, rest⟩ := pair
    rw [found] at follows
    obtain ⟨y, isRest, settles⟩ := follows
    obtain ⟨result, settles', isResult⟩ := last a y
    rw [isRest] at isResult
    rw [Parser.bind_of_ok found]
    exact ⟨result, settles.bind settles', isResult⟩

/-- A program ends where its functions do, and there the end of input has to be. -/
theorem stop_concludes (nodes : List Node) (x : Except Error TokenStream) :
    Concludes (Parser.run (Parser.eat .endOfInput) >>= fun stop =>
        pure (.program (.ofToken stop) nodes))
      (fun _ => eat .endOfInput >>= fun stop => pure (.program (.ofToken stop) nodes)) x := by
  unfold Concludes
  rw [Parser.run_eat]
  cases x with
  | error error => exact ⟨.error error, .now fun _ => rfl, rfl⟩
  | ok s =>
    rw [show (ahead (.ok s)).tokens = s.current :: s.later.tokens from rfl, bind_assoc,
      Parser.look_bind]
    by_cases isStop : s.current.kind = .endOfInput
    · refine ⟨.ok (.program (.ofToken s.current) nodes, s), .now fun _ => ?_, ?_⟩
      · simp only [proceed, bind_eq, eat_endOfInput, if_pos isStop]
        rfl
      · rw [if_pos isStop]
        rfl
    · refine ⟨.error (.syntactic s.current.pos (.expected .endOfInput s.current)),
        .now fun _ => ?_, ?_⟩
      · simp only [proceed, bind_eq, eat_endOfInput, if_neg isStop]
      · rw [if_neg isStop]
        rfl

/-- The rules for streams find the tree that the rules for lists of tokens find. -/
theorem program_settles (x : Except Error TokenStream) :
    ∃ result, Settles Rules.program x result ∧ result.map (·.1) = (ahead x).parse := by
  rw [parse_eq]
  change Concludes (Parser.run Parser.program) Rules.program x
  have splits : Parser.run Parser.program = (do
      let nodes ← Parser.both (Parser.run Parser.function) (Parser.run Parser.functions)
      let stop ← Parser.run (Parser.eat .endOfInput)
      return .program (.ofToken stop) nodes) := by
    rw [Parser.run_program, Parser.both]
    simp only [bind_assoc, pure_bind]
  have splits' : Rules.program = fun r => (do
      let nodes ← r.function >>= fun first => r.functionLoop [first]
      let stop ← eat .endOfInput
      return .program (.ofToken stop) nodes) := by
    unfold Rules.program
    simp only [bind_assoc]
  rw [splits, splits']
  exact (follows_functions x).concludes stop_concludes

/-- Parsing a stream comes to an end, with the tree or the error of the text. -/
theorem parse_settles (source : String) :
    ∃ n, ∀ m, n ≤ m → parse m source = some (Node.parse source) := by
  obtain ⟨result, ⟨n, settles⟩, isTree⟩ := program_settles (TokenStream.start source)
  rw [TokenStream.ahead_start] at isTree
  refine ⟨n, fun m enough => ?_⟩
  have settles := settles m enough
  rw [Node.parse, ← isTree]
  unfold parse
  cases started : TokenStream.start source with
  | ok s =>
    rw [started] at settles
    exact congrArg (Option.map (·.map (·.1))) settles
  | error error =>
    rw [started] at settles
    cases settles
    rfl

end Streamed
end MiniC
