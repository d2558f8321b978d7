import MiniC.Proofs.Grammar
import MiniC.Proofs.Rules

/-!
# The parser reads the grammar

What a rule of the parser does with any tokens, in terms of the phrases of the grammar: what it
takes is a phrase, it asks for more tokens only in the middle of a phrase, and the token that it
refuses is the first one that it could not use. One statement, `Reads`, holds all of this, and is
carried from the parts of a rule to the whole.
-/

namespace MiniC.Parser

open Grammar

variable {α β : Type}

/-- A result with further tokens behind those that are left. -/
def extend (back : List Token) (result : Except Stop (α × List Token)) :
    Except Stop (α × List Token) :=
  result.map fun found => (found.1, found.2 ++ back)

theorem of_extend_ok {back rest : List Token} {result : Except Stop (α × List Token)} {a : α}
    (same : extend back result = .ok (a, rest)) :
    ∃ left, result = .ok (a, left) ∧ rest = left ++ back := by
  cases result with
  | error stop => cases same
  | ok pair =>
    cases same
    exact ⟨pair.2, rfl, rfl⟩

theorem of_extend_error {back : List Token} {result : Except Stop (α × List Token)} {stop : Stop}
    (same : extend back result = .error stop) : result = .error stop := by
  cases result with
  | error stop' => exact congrArg Except.error (Except.error.inj same)
  | ok pair => cases same

/-- What a rule that looks for a phrase does with the tokens `s`. -/
structure Reads (Phrase : List Token → α → Prop) (rule : Rule α) (s : List Token) : Prop where
  /-- What it takes from the front is a phrase. -/
  sound : ∀ a rest, rule s = .ok (a, rest) → ∃ word, s = word ++ rest ∧ Phrase word a
  /-- If the tokens do not suffice, then they are the beginning of a phrase. -/
  viable : rule s = .error .exhausted → ∃ later a, Phrase (s ++ later) a
  /-- If some tokens suffice, then those behind them do not matter. -/
  stable : ∀ front back, front ++ back <+: s →
    rule front = .error .exhausted ∨ rule (front ++ back) = extend back (rule front)
  /-- It looks no further than one token behind what it takes. -/
  lookahead : ∀ a word token rest, s = word ++ token :: rest → rule s = .ok (a, token :: rest) →
    rule (word ++ [token]) ≠ .error .exhausted
  /-- The token that it refuses is the last one that it looks at. -/
  earliest : ∀ pos cause, rule s = .error (.unexpected pos cause) →
    ∃ front token back, s = front ++ token :: back ∧ token.pos = pos ∧
      rule front = .error .exhausted ∧ rule (front ++ [token]) ≠ .error .exhausted

namespace Reads

variable {Phrase : List Token → β → Prop} {Part : List Token → α → Prop} {s : List Token}

/-- Without any tokens, a rule succeeds or waits for some. There is a phrase in both cases. -/
theorem exists_phrase {rule : Rule β} (reads : Reads Phrase rule []) : ∃ word b, Phrase word b := by
  cases result : rule [] with
  | ok found =>
    obtain ⟨word, _, isPhrase⟩ := reads.sound found.1 found.2 result
    exact ⟨word, found.1, isPhrase⟩
  | error stop =>
    cases stop with
    | exhausted =>
      obtain ⟨later, b, isPhrase⟩ := reads.viable result
      exact ⟨[] ++ later, b, isPhrase⟩
    | unexpected pos cause =>
      obtain ⟨front, token, back, split, _⟩ := reads.earliest pos cause result
      cases front <;> cases split

/-- If the front of the tokens suffices, then the others do not matter. -/
theorem stable_all {rule : Rule β} {front back : List Token} (reads : Reads Phrase rule s)
    (split : s = front ++ back) :
    rule front = .error .exhausted ∨ rule s = extend back (rule front) := by
  subst split
  exact reads.stable front back (List.prefix_refl _)

theorem mono {Phrase' : List Token → β → Prop} {rule : Rule β} (reads : Reads Phrase rule s)
    (implies : ∀ word b, Phrase word b → Phrase' word b) : Reads Phrase' rule s where
  sound b rest found :=
    have ⟨word, split, isPhrase⟩ := reads.sound b rest found
    ⟨word, split, implies word b isPhrase⟩
  viable exhausted :=
    have ⟨later, b, isPhrase⟩ := reads.viable exhausted
    ⟨later, b, implies _ b isPhrase⟩
  stable := reads.stable
  lookahead := reads.lookahead
  earliest := reads.earliest

/-- A phrase that is read is empty or starts with the first of the tokens. -/
theorem head {rule : Rule β} {token : Token}
    (reads : Reads (fun word b => (∀ other ∈ word.head?, other = token) → Phrase word b) rule
      (token :: s)) : Reads Phrase rule (token :: s) where
  sound b rest found := by
    obtain ⟨word, split, isPhrase⟩ := reads.sound b rest found
    refine ⟨word, split, isPhrase fun other isHead => ?_⟩
    cases word with
    | nil => cases isHead
    | cons first word =>
      cases isHead
      exact (List.cons.inj split).1.symm
  viable exhausted := by
    obtain ⟨later, b, isPhrase⟩ := reads.viable exhausted
    exact ⟨later, b, isPhrase fun other isHead => (Option.some.inj isHead).symm⟩
  stable := reads.stable
  lookahead := reads.lookahead
  earliest := reads.earliest

theorem pure {b : β} (isPhrase : Phrase [] b) : Reads Phrase (pure b) s where
  sound b' rest found := by
    cases found
    exact ⟨[], rfl, isPhrase⟩
  viable exhausted := by cases exhausted
  stable front back _ := .inr rfl
  lookahead _ _ _ _ _ _ exhausted := by cases exhausted
  earliest pos cause refused := by cases refused

theorem refuse {cause : Token → SyntacticCause} {token : Token} :
    Reads Phrase (refuse cause) (token :: s) where
  sound b rest found := by cases found
  viable exhausted := by cases exhausted
  stable front back _ := by
    cases front with
    | nil => exact .inl rfl
    | cons first front => exact .inr rfl
  lookahead _ _ _ _ _ found := by cases found
  earliest pos cause' refused := by
    cases refused
    exact ⟨[], token, s, rfl, rfl, rfl, nofun⟩

/-- Looking at the next token decides what to do with it. -/
theorem look {next : Token → Rule β} (present : ∃ word b, Phrase word b)
    (reads : ∀ token rest, s = token :: rest → Reads Phrase (next token) s) :
    Reads Phrase (look >>= next) s := by
  cases s with
  | nil =>
    obtain ⟨word, b, isPhrase⟩ := present
    constructor
    · intro b' rest found
      cases found
    · exact fun _ => ⟨word, b, isPhrase⟩
    · intro front back before
      obtain ⟨rfl, _⟩ := List.append_eq_nil_iff.1 (List.prefix_nil.1 before)
      exact .inl rfl
    · intro b' word' token rest split found
      cases found
    · intro pos cause refused
      cases refused
  | cons token rest =>
    have reads := reads token rest rfl
    -- On the front of these tokens, nothing is looked at or it is the same token.
    have same : ∀ front back, token :: rest = front ++ back → front ≠ [] →
        (Parser.look >>= next) front = next token front := by
      intro front back split nonempty
      cases front with
      | nil => exact absurd rfl nonempty
      | cons first front =>
        cases split
        rfl
    constructor
    · exact reads.sound
    · exact reads.viable
    · intro front back before
      cases front with
      | nil => exact .inl rfl
      | cons first front =>
        obtain ⟨rfl, _⟩ := List.cons_prefix_cons.1 before
        exact reads.stable (first :: front) back before
    · intro b word other later split found
      rw [same (word ++ [other]) later (by simpa using split) (by simp)]
      exact reads.lookahead b word other later split found
    · intro pos cause refused
      obtain ⟨front, other, back, split, place, exhausted, decided⟩ :=
        reads.earliest pos cause refused
      refine ⟨front, other, back, split, place, ?_, ?_⟩
      · cases front with
        | nil => rfl
        | cons first front => rwa [same _ _ split (List.cons_ne_nil _ _)]
      · rwa [same (front ++ [other]) back (by simpa using split) (by simp)]

/-- A token that is left out belongs to the phrase. -/
theorem skip {next : Unit → Rule β} {token : Token}
    (reads : Reads (fun word b => Phrase (token :: word) b) (next ()) s) :
    Reads Phrase (skip >>= next) (token :: s) where
  sound b rest found := by
    obtain ⟨word, split, isPhrase⟩ := reads.sound b rest found
    exact ⟨token :: word, by rw [split]; rfl, isPhrase⟩
  viable := reads.viable
  stable front back before := by
    cases front with
    | nil => exact .inl rfl
    | cons first front => exact reads.stable front back (List.cons_prefix_cons.1 before).2
  lookahead b word other rest split found := by
    cases word with
    | nil =>
      -- The token that is left out would be among those that are left.
      obtain ⟨word, split', _⟩ := reads.sound b (other :: rest) found
      have lengths := congrArg List.length split
      have lengths' := congrArg List.length split'
      simp at lengths lengths'
      omega
    | cons first word =>
      obtain ⟨rfl, split'⟩ := List.cons.inj split
      exact reads.lookahead b word other rest split' found
  earliest pos cause refused := by
    obtain ⟨front, other, back, split, place, exhausted, decided⟩ :=
      reads.earliest pos cause refused
    exact ⟨token :: front, other, back, by rw [split]; rfl, place, exhausted, decided⟩

section Bind

variable {first : Rule α}

/-- What a rule takes is the same with fewer tokens behind it, unless it then asks for more. -/
theorem cut_or_exhausted (reads : Reads Part first s) {a : α} {word front back : List Token}
    (split : s = word ++ (front ++ back)) (found : first s = .ok (a, front ++ back)) :
    first (word ++ front) = .error .exhausted ∨ first (word ++ front) = .ok (a, front) := by
  have whole : s = (word ++ front) ++ back := by simp [split]
  refine (reads.stable_all whole).imp_right fun same => ?_
  obtain ⟨left, isLeft, same⟩ := of_extend_ok (same.symm.trans found)
  rw [isLeft, List.append_cancel_right same]

/-- What a rule takes is the same with fewer tokens behind it, as long as there is one. -/
theorem cut (reads : Reads Part first s) {a : α} {word front back : List Token} {token : Token}
    (split : s = word ++ (front ++ token :: back))
    (found : first s = .ok (a, front ++ token :: back)) :
    first (word ++ (front ++ [token])) = .ok (a, front ++ [token]) := by
  have enough : first (word ++ (front ++ [token])) ≠ .error .exhausted := by
    cases front with
    | nil => exact reads.lookahead a word token back split found
    | cons next front =>
      have decided := reads.lookahead a word next (front ++ token :: back) split found
      have before : (word ++ [next]) ++ (front ++ [token]) <+: s := ⟨back, by simp [split]⟩
      have regroup : word ++ (next :: front ++ [token]) = word ++ [next] ++ (front ++ [token]) := by
        simp
      rw [regroup]
      intro exhausted
      rcases reads.stable _ _ before with exhausted' | same
      · exact decided exhausted'
      · exact decided (of_extend_error (same.symm.trans exhausted))
  have regroup : front ++ token :: back = (front ++ [token]) ++ back := by simp
  rw [regroup] at split found
  exact (reads.cut_or_exhausted split found).resolve_left enough

/-- A phrase of parts is read part by part. -/
theorem bind {next : α → Rule β} (reads : Reads Part first s)
    (nexts : ∀ part a rest, Part part a → first s = .ok (a, rest) ∨ rest = [] →
      Reads (fun word b => Phrase (part ++ word) b) (next a) rest) :
    Reads Phrase (first >>= next) s where
  sound b rest found := by
    obtain ⟨a, middle, result, found⟩ := of_bind_ok found
    obtain ⟨part, split, isPart⟩ := reads.sound a middle result
    obtain ⟨word, split', isPhrase⟩ :=
      (nexts part a middle isPart (.inl result)).sound b rest found
    exact ⟨part ++ word, by rw [split, split', List.append_assoc], isPhrase⟩
  viable exhausted := by
    rcases of_bind_error exhausted with result | ⟨a, middle, result, exhausted⟩
    · obtain ⟨later, a, isPart⟩ := reads.viable result
      obtain ⟨word, b, isPhrase⟩ := (nexts _ a [] isPart (.inr rfl)).exists_phrase
      exact ⟨later ++ word, b, by rwa [← List.append_assoc]⟩
    · obtain ⟨part, split, isPart⟩ := reads.sound a middle result
      obtain ⟨later, b, isPhrase⟩ := (nexts part a middle isPart (.inl result)).viable exhausted
      exact ⟨later, b, by rwa [split, List.append_assoc]⟩
  stable front back before := by
    rcases reads.stable front back before with exhausted | same
    · exact .inl (bind_of_error exhausted)
    cases result : first front with
    | error stop =>
      rw [result] at same
      rw [bind_of_error result, bind_of_error same]
      exact .inr rfl
    | ok pair =>
      obtain ⟨a, middle⟩ := pair
      rw [result] at same
      obtain ⟨last, whole⟩ := before
      rw [bind_of_ok result, bind_of_ok same]
      rcases reads.stable_all whole.symm with exhausted | same'
      · rw [same] at exhausted
        cases exhausted
      · rw [same] at same'
        obtain ⟨part, _, isPart⟩ := reads.sound a _ same'
        exact (nexts part a _ isPart (.inl same')).stable middle back ⟨last, rfl⟩
  lookahead b word token rest split found := by
    obtain ⟨a, middle, result, found⟩ := of_bind_ok found
    obtain ⟨part, split', isPart⟩ := reads.sound a middle result
    have reads' := nexts part a middle isPart (.inl result)
    obtain ⟨word', rfl, _⟩ := reads'.sound b _ found
    have same : word = part ++ word' := by
      rw [split', ← List.append_assoc] at split
      exact (List.append_cancel_right split).symm
    rw [same, List.append_assoc, bind_of_ok (reads.cut split' result)]
    exact reads'.lookahead b word' token rest rfl found
  earliest pos cause refused := by
    rcases of_bind_error refused with result | ⟨a, middle, result, refused⟩
    · obtain ⟨front, token, back, split, place, exhausted, decided⟩ :=
        reads.earliest pos cause result
      refine ⟨front, token, back, split, place, bind_of_error exhausted, ?_⟩
      have whole : s = (front ++ [token]) ++ back := by simp [split]
      have same := (reads.stable_all whole).resolve_left decided
      rw [bind_of_error (of_extend_error (same.symm.trans result))]
      nofun
    · obtain ⟨part, split, isPart⟩ := reads.sound a middle result
      obtain ⟨front, token, back, rfl, place, exhausted, decided⟩ :=
        (nexts part a middle isPart (.inl result)).earliest pos cause refused
      refine ⟨part ++ front, token, back, by simp [split], place, ?_, ?_⟩
      · rcases reads.cut_or_exhausted split result with exhausted' | same
        · exact bind_of_error exhausted'
        · rwa [bind_of_ok same]
      · rwa [List.append_assoc, bind_of_ok (reads.cut split result)]

end Bind

/-- A first part leaves no more tokens than there were. -/
theorem andThen {first : Rule α} {next : α → Rule β} (reads : Reads Part first s)
    (nexts : ∀ part a rest, Part part a → rest.length ≤ s.length →
      Reads (fun word b => Phrase (part ++ word) b) (next a) rest) :
    Reads Phrase (first >>= next) s := by
  refine reads.bind fun part a rest isPart => ?_
  rintro (found | rfl)
  · obtain ⟨word, rfl, _⟩ := reads.sound a rest found
    exact nexts part a rest isPart (by simp)
  · exact nexts part a [] isPart (Nat.zero_le _)

/-- A first part that is not empty leaves fewer tokens. -/
theorem andThen_shorter {rule : (s : List Token) → Except Stop (α × Shorter s)}
    {next : α → Rule β} (reads : Reads Part (run rule) s)
    (nexts : ∀ part a rest, Part part a → rest.length ≤ s.length - 1 →
      Reads (fun word b => Phrase (part ++ word) b) (next a) rest) :
    Reads Phrase (run rule >>= next) s := by
  refine reads.bind fun part a rest isPart => ?_
  rintro (found | rfl)
  · exact nexts part a rest isPart (Nat.le_sub_one_of_lt (run_bound found))
  · exact nexts part a [] isPart (Nat.zero_le _)

/-- A token of the given kind belongs to the phrase. -/
theorem eat {kind : TokenKind} {next : Token → Rule β}
    (nexts : ∀ token rest, token.kind = kind → rest.length ≤ s.length - 1 →
      Reads (fun word b => Phrase (token :: word) b) (next token) rest) :
    Reads Phrase (run (Parser.eat kind) >>= next) s := by
  have reads : Reads (fun word token => word = [token] ∧ token.kind = kind)
      (run (Parser.eat kind)) s := by
    rw [run_eat]
    refine .look ⟨[⟨kind, "", .start⟩], _, rfl, rfl⟩ fun token rest split => ?_
    subst split
    split
    · next isKind => exact .skip (.pure ⟨rfl, isKind⟩)
    · exact .refuse
  refine reads.andThen_shorter fun part token rest isToken shorter => ?_
  obtain ⟨rfl, isKind⟩ := isToken
  exact nexts token rest isKind shorter

end Reads

/-! ## Expressions -/

theorem sumOperator?_eq_some {token : Token} {op : BinaryOp} :
    sumOperator? token = some op ↔ IsSumSign token op := by
  unfold sumOperator? IsSumSign BinaryOp.ofSumSymbol?
  cases op <;> grind [BinaryOp.symbol]

theorem productOperator?_eq_some {token : Token} {op : BinaryOp} :
    productOperator? token = some op ↔ IsProductSign token op := by
  unfold productOperator? IsProductSign BinaryOp.ofProductSymbol?
  cases op <;> grind [BinaryOp.symbol]

theorem signOperator?_eq_some {token : Token} {op : UnaryOp} :
    signOperator? token = some op ↔ IsSign token op := by
  unfold signOperator? IsSign UnaryOp.ofSymbol?
  cases op <;> grind [UnaryOp.symbol]

theorem ofSpecifier?_eq_some {word : String} {ty : Ty} :
    Ty.ofSpecifier? word = some ty ↔ word = ty.name := by
  constructor
  · intro found
    unfold Ty.ofSpecifier? at found
    cases ty <;> grind [Ty.name]
  · rintro rfl
    exact ty.ofSpecifier?_name

/-- Every kind has a token. -/
def sample (kind : TokenKind) : Token := ⟨kind, "", .start⟩

theorem exists_primary : ∃ word node, Primary word node :=
  ⟨[sample .identifier], _, .name rfl⟩

/-- A phrase with a token of the given kind behind it. -/
def Closed (Phrase : List Token → α → Prop) (kind : TokenKind) (word : List Token) (a : α) : Prop :=
  ∃ inner last, word = inner ++ [last] ∧ Phrase inner a ∧ last.kind = kind

section Series

variable {Item : List Token → Node → Prop}
  {item : (s : List Token) → Except Stop (Node × Shorter s)} {more : Rule (List Node)}

/-- Further items behind commas, up to the closing parenthesis. -/
theorem reads_further {s : List Token} (eq_more : more = further (run item) more)
    (reads : ∀ rest : List Token, rest.length < s.length → Reads Item (run item) rest) :
    Reads (fun word nodes => ∀ first node, Item first node →
      Closed (Listed Item) .rightParen (first ++ word) (node :: nodes)) more s := by
  rw [eq_more]
  unfold further
  refine .look ⟨[sample .rightParen], [], ?_⟩ fun token rest split => ?_
  · exact fun first node isFirst => ⟨first, sample .rightParen, rfl, .last isFirst, rfl⟩
  subst split
  split
  · next isComma =>
    refine .skip ((reads rest (by simp)).andThen fun word node later isNode short => ?_)
    have shorter : later.length < (token :: rest).length := Nat.lt_succ_of_le short
    have readsMore := reads_further eq_more fun last less => reads last (Nat.lt_trans less shorter)
    refine readsMore.andThen fun word' nodes last areNodes _ => .pure ?_
    intro first node' isFirst
    obtain ⟨inner, right, same, isListed, isRight⟩ := areNodes word node isNode
    refine ⟨first ++ token :: inner, right, ?_, .more isFirst isComma isListed, isRight⟩
    simp [same]
  · refine .eat fun right later isRight _ => .pure ?_
    exact fun first node isFirst => ⟨first, right, rfl, .last isFirst, isRight⟩
termination_by s.length

/-- Items between commas up to the closing parenthesis, or none. -/
theorem reads_series {s : List Token} (readsItem : Reads Item (run item) s)
    (readsMore : ∀ rest : List Token, rest.length < s.length →
      Reads (fun word nodes => ∀ first node, Item first node →
        Closed (Listed Item) .rightParen (first ++ word) (node :: nodes)) more rest) :
    Reads (Closed (Series Item) .rightParen) (series (run item) more) s := by
  refine .look ⟨[sample .rightParen], [], [], sample .rightParen, rfl, .none, rfl⟩
    fun token rest split => ?_
  subst split
  split
  · next isRight => exact .skip (.pure ⟨[], token, rfl, .none, isRight⟩)
  · refine readsItem.andThen_shorter fun first node later isFirst short => ?_
    refine (readsMore later (Nat.lt_succ_of_le short)).andThen
      fun word nodes _ areNodes _ => .pure ?_
    obtain ⟨inner, right, same, isListed, isRight⟩ := areNodes first node isFirst
    exact ⟨inner, right, by simp [same], .some isListed, isRight⟩

end Series

mutual
theorem reads_sum (s : List Token) : Reads Sum (run sum) s := by
  rw [run_sum]
  refine (reads_product s).andThen fun word first rest isFirst _ => ?_
  exact (reads_sumRest first rest).mono fun word' node isRest => isRest word (.single isFirst)
termination_by 8 * s.length + 3
decreasing_by all_goals omega

/-- What is read behind a sum makes a longer sum with it. -/
theorem reads_sumRest (lhs : Node) (s : List Token) :
    Reads (fun word node => ∀ left, Sum left lhs → Sum (left ++ word) node) (run (sumRest lhs))
      s := by
  rw [run_sumRest]
  refine .look ⟨[], lhs, fun left isLeft => by rwa [List.append_nil]⟩ fun token rest split => ?_
  subst split
  cases sign : sumOperator? token with
  | none => exact .pure fun left isLeft => by rwa [List.append_nil]
  | some op =>
    refine .skip ((reads_product rest).andThen fun right rhs later isRight short => ?_)
    refine (reads_sumRest _ later).mono fun word node isRest left isLeft => ?_
    have := isRest _ (.chain isLeft (sumOperator?_eq_some.1 sign) isRight)
    simpa using this
termination_by 8 * s.length
decreasing_by all_goals grind

theorem reads_product (s : List Token) : Reads Product (run product) s := by
  rw [run_product]
  refine (reads_signed s).andThen fun word first rest isFirst _ => ?_
  exact (reads_productRest first rest).mono fun word' node isRest => isRest word (.single isFirst)
termination_by 8 * s.length + 2
decreasing_by all_goals omega

/-- What is read behind a product makes a longer product with it. -/
theorem reads_productRest (lhs : Node) (s : List Token) :
    Reads (fun word node => ∀ left, Product left lhs → Product (left ++ word) node)
      (run (productRest lhs)) s := by
  rw [run_productRest]
  refine .look ⟨[], lhs, fun left isLeft => by rwa [List.append_nil]⟩ fun token rest split => ?_
  subst split
  cases sign : productOperator? token with
  | none => exact .pure fun left isLeft => by rwa [List.append_nil]
  | some op =>
    refine .skip ((reads_signed rest).andThen fun right rhs later isRight short => ?_)
    refine (reads_productRest _ later).mono fun word node isRest left isLeft => ?_
    have := isRest _ (.chain isLeft (productOperator?_eq_some.1 sign) isRight)
    simpa using this
termination_by 8 * s.length
decreasing_by all_goals grind

theorem reads_signed (s : List Token) : Reads Signed (run signed) s := by
  rw [run_signed]
  obtain ⟨word, node, isPrimary⟩ := exists_primary
  refine .look ⟨word, node, .plain isPrimary⟩ fun token rest split => ?_
  subst split
  cases sign : signOperator? token with
  | none => exact (reads_primary (token :: rest)).mono fun _ _ => .plain
  | some op =>
    refine .skip ((reads_signed rest).andThen fun word operand _ isOperand _ => .pure ?_)
    rw [List.append_nil]
    exact .sign (signOperator?_eq_some.1 sign) isOperand
termination_by 8 * s.length + 1
decreasing_by all_goals grind

theorem reads_primary (s : List Token) : Reads Primary (run primary) s := by
  rw [run_primary]
  refine .look exists_primary fun token rest split => ?_
  subst split
  cases kind : token.kind with
  | leftParen =>
    refine .skip ((reads_sum rest).andThen fun word node later isSum _ => ?_)
    exact .eat fun right _ isRight _ => .pure (.parentheses kind isSum isRight)
  | identifier =>
    refine .skip (.look ⟨[], _, .name kind⟩ fun next later split => ?_)
    subst split
    split
    · next isLeft =>
      refine .skip ((reads_arguments later).andThen fun word nodes _ areNodes _ => .pure ?_)
      obtain ⟨inner, right, rfl, isSeries, isRight⟩ := areNodes
      rw [List.append_nil]
      exact .call kind isLeft isSeries isRight
    · exact .pure (.name kind)
  | integerConstant => exact .skip (.pure (.integer kind))
  | doubleConstant => exact .skip (.pure (.real kind))
  | _ => exact .refuse
termination_by 8 * s.length
decreasing_by all_goals grind

theorem reads_arguments (s : List Token) :
    Reads (Closed (Series Sum) .rightParen) (run arguments) s := by
  rw [run_arguments]
  exact reads_series (reads_sum s) fun _ _ =>
    reads_further run_argumentsRest fun last _ => reads_sum last
termination_by 8 * s.length + 4
decreasing_by all_goals grind
end

/-! ## Statements -/

theorem reads_typeSpecifier (s : List Token) :
    Reads (fun word ty => ∃ token, word = [token] ∧ IsType token ty) (run typeSpecifier) s := by
  rw [run_typeSpecifier]
  refine .look ⟨_, .int, ⟨.typeSpecifier, "int", .start⟩, rfl, rfl, rfl⟩ fun token rest split => ?_
  subst split
  split
  · next kind =>
    cases specifier : Ty.ofSpecifier? token.text with
    | some ty => exact .skip (.pure ⟨token, rfl, kind, ofSpecifier?_eq_some.1 specifier⟩)
    | none => exact .refuse
  · exact .refuse

theorem reads_declaration (s : List Token) : Reads Declaration (run declaration) s := by
  rw [run_declaration]
  refine (reads_typeSpecifier s).andThen fun part ty rest isType _ => ?_
  obtain ⟨type, rfl, isType⟩ := isType
  exact .eat fun name _ isName _ => .eat fun semicolon _ isSemicolon _ =>
    .pure (.intro isType isName isSemicolon)

section Many

variable {Item : List Token → Node → Prop}
  {item : (s : List Token) → Except Stop (Node × Shorter s)} {more : Rule (List Node)}

/-- Items as long as a type word stands next. -/
theorem reads_many {s : List Token} (eq_more : more = many (run item) more)
    (reads : ∀ rest : List Token, Reads Item (run item) rest) : Reads (Many Item) more s := by
  rw [eq_more]
  unfold many
  refine .look ⟨[], [], .nil⟩ fun token rest split => ?_
  subst split
  split
  · refine (reads _).andThen_shorter fun first node later isFirst short => ?_
    have shorter : later.length < (token :: rest).length := Nat.lt_succ_of_le short
    refine (reads_many eq_more reads).andThen fun word nodes _ areNodes _ => .pure ?_
    rw [List.append_nil]
    exact .cons isFirst areNodes
  · exact .pure .nil
termination_by s.length

end Many

mutual
theorem reads_statement (s : List Token) : Reads Statement (run statement) s := by
  rw [run_statement]
  refine .look ⟨[sample .semicolon], _, .empty rfl⟩ fun token rest split => ?_
  subst split
  cases kind : token.kind with
  | leftBrace => exact (reads_block (token :: rest)).mono fun _ _ => .block
  | returnWord =>
    refine .skip ((reads_sum rest).andThen fun word value later isValue _ => ?_)
    exact .eat fun semicolon _ isSemicolon _ => .pure (.returnValue kind isValue isSemicolon)
  | ifWord =>
    refine .skip (.eat fun left s1 isLeft short1 => ?_)
    refine (reads_sum s1).andThen fun test condition s2 isTest short2 => ?_
    refine .eat fun right s3 isRight short3 => ?_
    refine (reads_statement s3).andThen fun word consequent s4 isConsequent short4 => ?_
    have whole := Statement.ifThen kind isLeft isTest isRight isConsequent
    refine .look ⟨[], _, by simpa using whole⟩ fun next s5 split => ?_
    subst split
    split
    · next isElse =>
      refine .skip ((reads_statement s5).andThen fun word' alternative _ isAlternative _ =>
        .pure ?_)
      rw [List.append_nil]
      exact .ifElse kind isLeft isTest isRight isConsequent isElse isAlternative
    · exact .pure (by simpa using whole)
  | semicolon => exact .skip (.pure (.empty kind))
  | identifier =>
    refine .skip (.eat fun equals later isEquals _ => ?_)
    refine (reads_sum later).andThen fun word value _ isValue _ => ?_
    exact .eat fun semicolon _ isSemicolon _ =>
      .pure (.assignment kind isEquals isValue isSemicolon)
  | _ => exact .refuse
termination_by 8 * s.length + 1
decreasing_by all_goals grind

theorem reads_block (s : List Token) : Reads Block (run block) s := by
  rw [run_block]
  refine .eat fun left rest isLeft short => ?_
  refine .look ⟨[sample .rightBrace], _, .empty isLeft rfl⟩ fun next later split => ?_
  subst split
  split
  · next isRight => exact .skip (.pure (.empty isLeft isRight))
  · next notRight =>
    refine Reads.head ((reads_many run_declarations reads_declaration).andThen
      fun first declarations s1 areDeclarations short1 => ?_)
    refine (reads_statements s1).andThen fun second statements _ areStatements _ => .pure ?_
    obtain ⟨inner, right, rfl, areStatements, isRight⟩ := areStatements
    rw [List.append_nil]
    intro starts
    refine .full isLeft areDeclarations areStatements ?_ isRight
    -- With nothing between the braces, the second brace would be the token looked at.
    cases areDeclarations with
    | cons => exact .inl (List.cons_ne_nil _ _)
    | nil =>
      cases areStatements with
      | cons => exact .inr (List.cons_ne_nil _ _)
      | nil => exact absurd (starts right rfl ▸ isRight) notRight
termination_by 8 * s.length
decreasing_by all_goals grind

theorem reads_statements (s : List Token) :
    Reads (Closed (Many Statement) .rightBrace) (run statements) s := by
  rw [run_statements]
  refine .look ⟨[sample .rightBrace], [], [], sample .rightBrace, rfl, .nil, rfl⟩
    fun token rest split => ?_
  subst split
  split
  · next isRight => exact .skip (.pure ⟨[], token, rfl, .nil, isRight⟩)
  · refine (reads_statement (token :: rest)).andThen_shorter
      fun first node later isFirst short => ?_
    refine (reads_statements later).andThen fun word nodes _ areNodes _ => .pure ?_
    obtain ⟨inner, right, rfl, areNodes, isRight⟩ := areNodes
    exact ⟨first ++ inner, right, by simp, .cons isFirst areNodes, isRight⟩
termination_by 8 * s.length + 2
decreasing_by all_goals grind
end

/-! ## Programs -/

theorem reads_parameter (s : List Token) : Reads Parameter (run parameter) s := by
  rw [run_parameter]
  refine (reads_typeSpecifier s).andThen fun part ty rest isType _ => ?_
  obtain ⟨type, rfl, isType⟩ := isType
  exact .eat fun name _ isName _ => .pure (.intro isType isName)

theorem reads_parameters (s : List Token) :
    Reads (Closed (Series Parameter) .rightParen) (run parameters) s := by
  rw [run_parameters]
  exact reads_series (reads_parameter s) fun _ _ =>
    reads_further run_parametersRest fun last _ => reads_parameter last

theorem reads_function (s : List Token) : Reads Function (run function) s := by
  rw [run_function]
  refine (reads_typeSpecifier s).andThen fun part ty rest isType _ => ?_
  obtain ⟨type, rfl, isType⟩ := isType
  refine .eat fun name _ isName _ => .eat fun left s1 isLeft _ => ?_
  refine (reads_parameters s1).andThen fun word parameters s2 areParameters _ => ?_
  refine (reads_block s2).andThen fun code body _ isBody _ => .pure ?_
  obtain ⟨inner, right, rfl, isSeries, isRight⟩ := areParameters
  have isFunction := Function.intro isType isName isLeft isSeries isRight isBody
  simpa using isFunction

theorem reads_program (s : List Token) : Reads Program (run program) s := by
  rw [run_program]
  refine (reads_function s).andThen fun first node s1 isFirst _ => ?_
  refine (reads_many run_functions reads_function).andThen fun word nodes _ areNodes _ => ?_
  refine .eat fun stop _ isStop _ => .pure ?_
  have isProgram := Program.intro (.cons isFirst areNodes) (List.cons_ne_nil _ _) isStop
  simpa using isProgram

end MiniC.Parser
