import MiniC.Proofs.Code
import MiniC.Proofs.Resolution
import Mathlib.Data.List.Forall2

/-!
# What lowering produces

A function that was resolved is lowered to the code that its tree stands for, provided that it deals
with integers only; nothing else can fail. The table gains one variable for every temporary: they
take the slots behind those of the declared variables, and no other name gets another slot.
-/

namespace MiniC

open Lower

namespace Node

/-! ## Integers only -/

mutual
/-- An expression without reals. -/
def ValueIntegral : Node → Prop
  | real .. => False
  | unary _ _ operand => operand.ValueIntegral
  | binary _ _ lhs rhs => lhs.ValueIntegral ∧ rhs.ValueIntegral
  | call _ _ arguments => ValuesIntegral arguments
  | _ => True
def ValuesIntegral : List Node → Prop
  | [] => True
  | node :: nodes => node.ValueIntegral ∧ ValuesIntegral nodes
end

mutual
/-- A statement without reals. -/
def StatementIntegral : Node → Prop
  | block _ declarations statements =>
      requireIntVariables declarations = .ok () ∧ StatementsIntegral statements
  | returnValue _ value => value.ValueIntegral
  | assignment _ _ value => value.ValueIntegral
  | ifThen _ condition consequent => condition.ValueIntegral ∧ consequent.StatementIntegral
  | ifElse _ condition consequent alternative =>
      condition.ValueIntegral ∧ consequent.StatementIntegral ∧ alternative.StatementIntegral
  | _ => True
def StatementsIntegral : List Node → Prop
  | [] => True
  | node :: nodes => node.StatementIntegral ∧ StatementsIntegral nodes
end

/-- A function without reals. -/
def FunctionIntegral : Node → Prop
  | function _ returnType _ parameters body =>
      returnType.isInteger ∧ requireIntParameters parameters = .ok () ∧ body.StatementIntegral
  | _ => False

end Node

/-! ## Temporaries in the table -/

/-- The function of `frame` can be lowered further; it has so many variables already. -/
structure Frame.Ready (frame : Frame) (slots : Nat) (state : Lowering) : Prop where
  sound : state.table.Sound
  inside : frame.scope < state.table.scopes.size
  notGlobal : frame.scope ≠ Table.global
  present : ∃ n r ps ls k, state.table.symbols[frame.symbol]? = some (.function n r ps ls k) ∧
    ls.size = slots
  /-- No temporary to come is defined yet. -/
  fresh : ∀ k, state.temporaries ≤ k → ∀ scope,
    state.table.lookupLocal scope (temporaryName k) = none

/-- What lowering a part of the function of `frame` does, which has so many variables before. -/
structure Frame.Advances (frame : Frame) (slots temporaries labels : Nat)
    (before after : Lowering) : Prop where
  nextTemporary : after.temporaries = before.temporaries + temporaries
  nextLabel : after.labels = before.labels + labels
  ready : frame.Ready (slots + temporaries) after
  size : after.table.scopes.size = before.table.scopes.size
  outer : ∀ s, after.table.outer? s = before.table.outer? s
  symbols : before.table.symbols.size ≤ after.table.symbols.size
  keeps : before.table.KeepsBut frame.symbol after.table
  present : ∀ {n r ps ls k}, before.table.symbols[frame.symbol]? = some (.function n r ps ls k) →
    ∃ ls', after.table.symbols[frame.symbol]? = some (.function n r ps ls' k)
  globals : ∀ name,
    after.table.lookupLocal Table.global name = before.table.lookupLocal Table.global name
  slotAt : ∀ name, (∀ k, before.temporaries ≤ k → name ≠ temporaryName k) → ∀ s,
    after.table.slotAt s name = before.table.slotAt s name
  new : ∀ s, before.table.Reaches s frame.scope → ∀ k < temporaries,
    after.table.slotAt s (temporaryName (before.temporaries + k)) =
      some (.localVariable (slots + k))
  /-- A temporary that is new is found in the function only. -/
  only : ∀ {s k slot}, before.temporaries ≤ k →
    after.table.slotAt s (temporaryName k) = some slot → before.table.Reaches s frame.scope

namespace Frame.Advances

variable {frame : Frame} {slots temporaries labels : Nat} {before after : Lowering}

theorem reaches_iff (advances : frame.Advances slots temporaries labels before after)
    {s target : ScopeId} : after.table.Reaches s target ↔ before.table.Reaches s target :=
  ⟨.of_outer fun s => (advances.outer s).symm, .of_outer advances.outer⟩

theorem refl (ready : frame.Ready slots before) : frame.Advances slots 0 0 before before where
  nextTemporary := rfl
  nextLabel := rfl
  ready := ready
  size := rfl
  outer := fun _ => rfl
  symbols := Nat.le_refl _
  keeps := fun _ _ _ => rfl
  present := fun present => ⟨_, present⟩
  globals := fun _ => rfl
  slotAt := fun _ _ _ => rfl
  new := fun _ _ _ lt => absurd lt (Nat.not_lt_zero _)
  only := by
    intro s k slot le stored
    rw [ready.sound.slotAt_eq_none (ready.fresh k le)] at stored
    cases stored

theorem trans {temporaries' labels' : Nat} {last : Lowering}
    (advances : frame.Advances slots temporaries labels before after)
    (advances' : frame.Advances (slots + temporaries) temporaries' labels' after last) :
    frame.Advances slots (temporaries + temporaries') (labels + labels') before last where
  nextTemporary := by
    rw [advances'.nextTemporary, advances.nextTemporary, Nat.add_assoc]
  nextLabel := by
    rw [advances'.nextLabel, advances.nextLabel, Nat.add_assoc]
  ready := Nat.add_assoc .. ▸ advances'.ready
  size := advances'.size.trans advances.size
  outer := fun s => (advances'.outer s).trans (advances.outer s)
  symbols := Nat.le_trans advances.symbols advances'.symbols
  keeps := by
    intro id lt differs
    rw [advances'.keeps id (Nat.lt_of_lt_of_le lt advances.symbols) differs,
      advances.keeps id lt differs]
  present := by
    intro n r ps ls k present
    obtain ⟨ls', present'⟩ := advances.present present
    exact advances'.present present'
  globals := fun name => (advances'.globals name).trans (advances.globals name)
  slotAt := by
    intro name old s
    have older : ∀ k, after.temporaries ≤ k → name ≠ temporaryName k := by
      intro k le
      rw [advances.nextTemporary] at le
      exact old k (Nat.le_trans (Nat.le_add_right _ _) le)
    rw [advances'.slotAt name older s, advances.slotAt name old s]
  new := by
    intro s reaches k lt
    by_cases first : k < temporaries
    · rw [advances'.slotAt, advances.new s reaches k first]
      intro k' le same
      have := temporaryName_injective same
      rw [advances.nextTemporary] at le
      omega
    · have second := advances'.new s (advances.reaches_iff.2 reaches) (k - temporaries) (by omega)
      have number : after.temporaries + (k - temporaries) = before.temporaries + k := by
        rw [advances.nextTemporary]
        omega
      have place : slots + temporaries + (k - temporaries) = slots + k := by omega
      rw [number, place] at second
      exact second
  only := by
    intro s k slot le stored
    by_cases later : after.temporaries ≤ k
    · exact advances.reaches_iff.1 (advances'.only later stored)
    · refine advances.only le ((advances'.slotAt _ (fun k' le' same => later ?_) s).symm.trans stored)
      rw [temporaryName_injective same]
      exact le'

/-- The table grows: words of the source keep their slots. -/
theorem grows (advances : frame.Advances slots temporaries labels before after) :
    before.table.Grows after.table where
  scopes := Nat.le_of_eq advances.size.symm
  symbols := advances.symbols
  outer := fun s _ => advances.outer s
  slotAt := fun s _ name isName =>
    advances.slotAt name (fun k _ => isName.ne_temporaryName k) s
  globals := fun found => (advances.globals _).trans found

end Frame.Advances

namespace Lower

variable {α β : Type} {state middle : Lowering}

theorem bind_of_ok {first : Lower α} {next : α → Lower β} {a : α}
    (found : first state = .ok a middle) : (first >>= next) state = next a middle := by
  change EStateM.bind first next state = _
  unfold EStateM.bind
  rw [found]

theorem require_of_ok {result : Except Error α} {a : α} (found : result = .ok a) :
    require result state = .ok a state := by
  rw [found]
  rfl

theorem freshLabel_spec {frame : Frame} {slots : Nat} (ready : frame.Ready slots state) :
    ∃ after, freshLabel state = .ok ⟨state.labels⟩ after ∧
      frame.Advances slots 0 1 state after := by
  refine ⟨_, rfl, ?_⟩
  have same := Frame.Advances.refl ready
  exact { same with nextLabel := rfl, ready := { ready with } }

/-- The next temporary takes the next slot. -/
theorem freshTemporary_spec {frame : Frame} {slots : Nat}
    (ready : frame.Ready slots state) :
    ∃ after, freshTemporary frame state = .ok (temporaryName state.temporaries) after ∧
      frame.Advances slots 1 0 state after := by
  obtain ⟨n, r, ps, ls, k, present, rfl⟩ := ready.present
  have nowhere := ready.fresh state.temporaries (Nat.le_refl _)
  obtain ⟨id, table, defined⟩ : ∃ id table, state.table.defineVariable frame.scope frame.symbol
      (temporaryName state.temporaries) .int = .ok (id, table) :=
    Table.exists_defineVariable present (nowhere frame.scope)
  refine ⟨{ state with table, temporaries := state.temporaries + 1 }, ?_, ?_⟩
  · rw [freshTemporary_eq, defined]
  obtain ⟨defines, present', kept⟩ := Table.defineVariable_eq_ok ready.inside present defined
  have sound : table.Sound := defines.sound ready.sound (by simp [ready.notGlobal])
  constructor
  case nextTemporary => rfl
  case nextLabel => rfl
  case ready =>
    refine ⟨sound, defines.size ▸ ready.inside, ready.notGlobal, ⟨n, r, ps, _, k, present', ?_⟩, ?_⟩
    · rw [Array.size_push]
    · intro k le scope
      have lt : state.temporaries < k := le
      have differs : temporaryName k ≠ temporaryName state.temporaries := by
        intro same
        exact Nat.ne_of_gt lt (temporaryName_injective same)
      rw [defines.lookupLocal, if_neg fun h => differs h.2]
      exact ready.fresh k (Nat.le_of_succ_le le) scope
  case size => exact defines.size
  case outer => exact defines.outer
  case symbols =>
    dsimp only
    rw [defines.symbols]
    exact Nat.le_succ _
  case keeps => exact kept
  case present =>
    intro n' r' ps' ls' k' found
    rw [present] at found
    cases found
    exact ⟨_, present'⟩
  case globals =>
    intro name
    dsimp only
    rw [defines.lookupLocal, if_neg fun h => ready.notGlobal h.1.symm]
  case slotAt =>
    intro name old s
    exact defines.slotAt_of_kept ready.sound sound s (.inl (old _ (Nat.le_refl _)))
  case new =>
    intro s reaches k lt
    obtain rfl : k = 0 := Nat.lt_one_iff.1 lt
    exact defines.slotAt_of_reaches sound nowhere reaches
  case only =>
    intro s k slot le stored
    by_contra apart
    have kept := defines.slotAt_of_kept ready.sound sound s (.inr apart) (n := temporaryName k)
    rw [ready.sound.slotAt_eq_none (ready.fresh k le)] at kept
    exact Option.some_ne_none slot (stored.symm.trans kept)

end Lower

/-! ## Expressions and statements -/

namespace Node

theorem require_scopeOf (node : Node) {scope : ScopeId} {state : Lowering}
    (attached : node.scope = some scope) : require node.scopeOf state = .ok scope state := by
  unfold scopeOf
  rw [attached]
  rfl

theorem length_valueNames (nodes : List Node) (next : Nat) :
    (valueNames next nodes).length = nodes.length := by
  induction nodes generalizing next with
  | nil => rfl
  | cons node nodes ih => exact congrArg Nat.succ (ih _)

mutual
/-- An expression of integers is lowered to its code. -/
theorem lowerValue_spec (frame : Frame) (scope : ScopeId) : (node : Node) →
    ∀ ⦃slots : Nat⦄ ⦃state : Lowering⦄, node.ValueIn scope → node.ValueIntegral →
    frame.Ready slots state →
    ∃ after, node.lowerValue frame state =
        .ok (node.valueCode scope state.temporaries, node.valueName state.temporaries) after ∧
      frame.Advances slots node.temporaryCount 0 state after
  | identifier info name => by
    rintro slots state ⟨attached, _⟩ _ ready
    refine ⟨state, ?_, .refl ready⟩
    simp only [lowerValue, bind_of_ok (require_scopeOf (identifier info name) attached)]
    rfl
  | integer info value => by
    intro slots state attached _ ready
    obtain ⟨after, fresh, advances⟩ := freshTemporary_spec ready
    refine ⟨after, ?_, advances⟩
    simp only [lowerValue, bind_of_ok (require_scopeOf (integer info value) attached),
      bind_of_ok fresh]
    rfl
  | unary info op operand => by
    rintro slots state ⟨attached, inScope⟩ integral ready
    obtain ⟨s₁, lowered, advances₁⟩ := lowerValue_spec frame scope operand inScope integral ready
    obtain ⟨s₂, fresh, advances₂⟩ := freshTemporary_spec advances₁.ready
    refine ⟨s₂, ?_, advances₁.trans advances₂⟩
    simp only [lowerValue, bind_of_ok (require_scopeOf (unary info op operand) attached),
      bind_of_ok lowered, bind_of_ok fresh, advances₁.nextTemporary]
    rfl
  | binary info op lhs rhs => by
    rintro slots state ⟨attached, inScope, inScope'⟩ ⟨integral, integral'⟩ ready
    obtain ⟨s₁, lowered₁, advances₁⟩ := lowerValue_spec frame scope lhs inScope integral ready
    obtain ⟨s₂, lowered₂, advances₂⟩ :=
      lowerValue_spec frame scope rhs inScope' integral' advances₁.ready
    obtain ⟨s₃, fresh, advances₃⟩ := freshTemporary_spec advances₂.ready
    have both := advances₁.trans advances₂
    refine ⟨s₃, ?_, both.trans (by rw [← Nat.add_assoc]; exact advances₃)⟩
    simp only [lowerValue, bind_of_ok (require_scopeOf (binary info op lhs rhs) attached),
      bind_of_ok lowered₁, bind_of_ok lowered₂, bind_of_ok fresh, advances₂.nextTemporary,
      advances₁.nextTemporary]
    rfl
  | call info callee arguments => by
    rintro slots state ⟨attached, calleeIn, inScope⟩ integral ready
    cases callee with
    | identifier calleeInfo name =>
      obtain ⟨s₁, lowered, advances₁⟩ :=
        lowerValues_spec frame scope arguments inScope integral ready
      obtain ⟨s₂, fresh, advances₂⟩ := freshTemporary_spec advances₁.ready
      refine ⟨s₂, ?_, advances₁.trans advances₂⟩
      rw [lowerValue, bind_of_ok (require_scopeOf (call info (identifier calleeInfo name) arguments)
        attached)]
      simp only [bind_of_ok lowered, bind_of_ok fresh, advances₁.nextTemporary, length_valueNames]
      rfl
    | _ => exact calleeIn.elim
  | real .. => fun _ _ _ integral => integral.elim
  | empty .. | program .. | function .. | parameter .. | returnValue .. | block .. | declaration ..
  | assignment .. | ifThen .. | ifElse .. => fun _ _ inScope => inScope.elim
theorem lowerValues_spec (frame : Frame) (scope : ScopeId) : (nodes : List Node) →
    ∀ ⦃slots : Nat⦄ ⦃state : Lowering⦄, ValuesIn scope nodes → ValuesIntegral nodes →
    frame.Ready slots state →
    ∃ after, lowerValues frame nodes state =
        .ok (valueCodes scope state.temporaries nodes, valueNames state.temporaries nodes) after ∧
      frame.Advances slots (temporaryCounts nodes) 0 state after
  | [] => fun _ state _ _ ready => ⟨state, rfl, .refl ready⟩
  | node :: nodes => by
    rintro slots state ⟨inScope, inScope'⟩ ⟨integral, integral'⟩ ready
    obtain ⟨s₁, lowered₁, advances₁⟩ := lowerValue_spec frame scope node inScope integral ready
    obtain ⟨s₂, lowered₂, advances₂⟩ :=
      lowerValues_spec frame scope nodes inScope' integral' advances₁.ready
    refine ⟨s₂, ?_, advances₁.trans advances₂⟩
    simp only [lowerValues, bind_of_ok lowered₁, bind_of_ok lowered₂, advances₁.nextTemporary]
    rfl
end

mutual
/-- A statement about integers is lowered to its code. -/
theorem lowerStatement_spec (frame : Frame) {table : Table} {top : ScopeId} : (node : Node) →
    ∀ ⦃scope : ScopeId⦄ ⦃layout : Layout⦄ ⦃count slots : Nat⦄ ⦃state : Lowering⦄,
    node.ScopedIn table top scope layout count → node.StatementIntegral →
    frame.Ready slots state →
    ∃ after, node.lowerStatement frame state =
        .ok (node.statementCode frame.exit scope state.temporaries state.labels) after ∧
      frame.Advances slots node.temporaryCount node.labelCount state after
  | empty info => by
    intro scope layout count slots state attached _ ready
    refine ⟨state, ?_, .refl ready⟩
    simp only [lowerStatement, bind_of_ok (require_scopeOf (empty info) attached)]
    rfl
  | returnValue info value => by
    rintro scope layout count slots state ⟨attached, inScope⟩ integral ready
    obtain ⟨after, lowered, advances⟩ := lowerValue_spec frame scope value inScope integral ready
    refine ⟨after, ?_, advances⟩
    simp only [lowerStatement, bind_of_ok (require_scopeOf (returnValue info value) attached),
      bind_of_ok lowered]
    rfl
  | assignment info target value => by
    rintro scope layout count slots state ⟨attached, _, inScope⟩ integral ready
    obtain ⟨after, lowered, advances⟩ := lowerValue_spec frame scope value inScope integral ready
    refine ⟨after, ?_, advances⟩
    simp only [lowerStatement, bind_of_ok (require_scopeOf (assignment info target value) attached),
      bind_of_ok lowered]
    rfl
  | block info declarations statements => by
    rintro scope layout count slots state ⟨inner, attached, _, _, _, placed⟩
      ⟨integral, integral'⟩ ready
    obtain ⟨after, lowered, advances⟩ :=
      lowerStatements_spec frame statements placed integral' ready
    refine ⟨after, ?_, advances⟩
    simp only [lowerStatement,
      bind_of_ok (require_scopeOf (block info declarations statements) attached),
      bind_of_ok (require_of_ok integral), lowered, statementCode, attached]
    rfl
  | ifThen info condition consequent => by
    rintro scope layout count slots state ⟨attached, inScope, placed⟩ ⟨integral, integral'⟩ ready
    obtain ⟨s₁, lowered₁, advances₁⟩ := lowerValue_spec frame scope condition inScope integral ready
    obtain ⟨s₂, fresh, advances₂⟩ := freshLabel_spec advances₁.ready
    obtain ⟨s₃, lowered₃, advances₃⟩ :=
      lowerStatement_spec frame consequent placed integral' advances₂.ready
    have counts : 0 + 1 + consequent.labelCount = consequent.labelCount + 1 := by omega
    refine ⟨s₃, ?_, ?_⟩
    · simp only [lowerStatement,
        bind_of_ok (require_scopeOf (ifThen info condition consequent) attached),
        bind_of_ok lowered₁, bind_of_ok fresh, bind_of_ok lowered₃, advances₂.nextLabel,
        advances₂.nextTemporary, advances₁.nextLabel, advances₁.nextTemporary]
      rfl
    · have all := (advances₁.trans advances₂).trans advances₃
      rw [counts] at all
      exact all
  | ifElse info condition consequent alternative => by
    rintro scope layout count slots state ⟨attached, inScope, placed, placed'⟩
      ⟨integral, integral', integral''⟩ ready
    obtain ⟨s₁, lowered₁, advances₁⟩ := lowerValue_spec frame scope condition inScope integral ready
    obtain ⟨s₂, fresh₂, advances₂⟩ := freshLabel_spec advances₁.ready
    obtain ⟨s₃, lowered₃, advances₃⟩ :=
      lowerStatement_spec frame consequent placed integral' advances₂.ready
    obtain ⟨s₄, fresh₄, advances₄⟩ := freshLabel_spec advances₃.ready
    obtain ⟨s₅, lowered₅, advances₅⟩ :=
      lowerStatement_spec frame alternative placed' integral'' advances₄.ready
    have temporaries : condition.temporaryCount + (0 + (consequent.temporaryCount +
        (0 + alternative.temporaryCount))) =
        condition.temporaryCount + consequent.temporaryCount + alternative.temporaryCount := by omega
    have labels : 0 + (1 + (consequent.labelCount + (1 + alternative.labelCount))) =
        consequent.labelCount + alternative.labelCount + 2 := by omega
    refine ⟨s₅, ?_, ?_⟩
    · simp only [lowerStatement,
        bind_of_ok (require_scopeOf (ifElse info condition consequent alternative) attached),
        bind_of_ok lowered₁, bind_of_ok fresh₂, bind_of_ok lowered₃, bind_of_ok fresh₄,
        bind_of_ok lowered₅, advances₄.nextLabel, advances₄.nextTemporary, advances₃.nextLabel,
        advances₃.nextTemporary, advances₂.nextLabel, advances₂.nextTemporary, advances₁.nextLabel,
        advances₁.nextTemporary]
      rfl
    · have all := advances₁.trans (advances₂.trans (advances₃.trans (advances₄.trans advances₅)))
      rw [temporaries, labels] at all
      exact all
  | program .. | function .. | parameter .. | call .. | declaration .. | binary .. | unary ..
  | identifier .. | integer .. | real .. => fun _ _ _ _ _ placed => placed.elim
theorem lowerStatements_spec (frame : Frame) {table : Table} {top : ScopeId} :
    (nodes : List Node) → ∀ ⦃scope : ScopeId⦄ ⦃layout : Layout⦄ ⦃count slots : Nat⦄
    ⦃state : Lowering⦄, ScopedAll table top scope layout count nodes → StatementsIntegral nodes →
    frame.Ready slots state →
    ∃ after, lowerStatements frame nodes state =
        .ok (statementsCode frame.exit scope state.temporaries state.labels nodes) after ∧
      frame.Advances slots (temporaryCounts nodes) (labelCounts nodes) state after
  | [] => fun _ _ _ _ state _ _ ready => ⟨state, rfl, .refl ready⟩
  | node :: nodes => by
    rintro scope layout count slots state ⟨placed, placed'⟩ ⟨integral, integral'⟩ ready
    obtain ⟨s₁, lowered₁, advances₁⟩ := lowerStatement_spec frame node placed integral ready
    obtain ⟨s₂, lowered₂, advances₂⟩ :=
      lowerStatements_spec frame nodes placed' integral' advances₁.ready
    refine ⟨s₂, ?_, advances₁.trans advances₂⟩
    simp only [lowerStatements, bind_of_ok lowered₁, bind_of_ok lowered₂, advances₁.nextTemporary,
      advances₁.nextLabel]
    rfl
end

mutual
/-- Only expressions of integers are lowered. -/
theorem integral_of_lowerValue (frame : Frame) : (node : Node) →
    ∀ ⦃state after : Lowering⦄ ⦃result : List Quad × String⦄,
    node.lowerValue frame state = .ok result after → node.ValueIntegral
  | real info value => by
    intro state after result lowered
    rw [lowerValue] at lowered
    obtain ⟨_, _, _, lowered⟩ := Lower.bind_eq_ok.1 lowered
    cases lowered
  | unary info op operand => by
    intro state after result lowered
    rw [lowerValue] at lowered
    obtain ⟨_, _, _, lowered⟩ := Lower.bind_eq_ok.1 lowered
    obtain ⟨_, _, lowered', _⟩ := Lower.bind_eq_ok.1 lowered
    exact integral_of_lowerValue frame operand lowered'
  | binary info op lhs rhs => by
    intro state after result lowered
    rw [lowerValue] at lowered
    obtain ⟨_, _, _, lowered⟩ := Lower.bind_eq_ok.1 lowered
    obtain ⟨_, _, lowered₁, lowered⟩ := Lower.bind_eq_ok.1 lowered
    obtain ⟨_, _, lowered₂, _⟩ := Lower.bind_eq_ok.1 lowered
    exact ⟨integral_of_lowerValue frame lhs lowered₁, integral_of_lowerValue frame rhs lowered₂⟩
  | call info callee arguments => by
    intro state after result lowered
    rw [lowerValue] at lowered
    obtain ⟨_, _, _, lowered⟩ := Lower.bind_eq_ok.1 lowered
    split at lowered
    · obtain ⟨_, _, lowered', _⟩ := Lower.bind_eq_ok.1 lowered
      exact integral_of_lowerValues frame arguments lowered'
    · cases lowered
  | empty .. | program .. | function .. | parameter .. | returnValue .. | block .. | declaration ..
  | assignment .. | ifThen .. | ifElse .. | identifier .. | integer .. => fun _ _ _ _ => trivial
theorem integral_of_lowerValues (frame : Frame) : (nodes : List Node) →
    ∀ ⦃state after : Lowering⦄ ⦃result : List Quad × List String⦄,
    lowerValues frame nodes state = .ok result after → ValuesIntegral nodes
  | [] => fun _ _ _ _ => trivial
  | node :: nodes => by
    intro state after result lowered
    rw [lowerValues] at lowered
    obtain ⟨_, _, lowered₁, lowered⟩ := Lower.bind_eq_ok.1 lowered
    obtain ⟨_, _, lowered₂, _⟩ := Lower.bind_eq_ok.1 lowered
    exact ⟨integral_of_lowerValue frame node lowered₁, integral_of_lowerValues frame nodes lowered₂⟩
end

mutual
/-- Only statements about integers are lowered. -/
theorem integral_of_lowerStatement (frame : Frame) : (node : Node) →
    ∀ ⦃state after : Lowering⦄ ⦃code : List Quad⦄,
    node.lowerStatement frame state = .ok code after → node.StatementIntegral
  | returnValue .. | assignment .. => by
    intro state after code lowered
    rw [lowerStatement] at lowered
    obtain ⟨_, _, _, lowered⟩ := Lower.bind_eq_ok.1 lowered
    obtain ⟨_, _, lowered', _⟩ := Lower.bind_eq_ok.1 lowered
    exact integral_of_lowerValue frame _ lowered'
  | block info declarations statements => by
    intro state after code lowered
    rw [lowerStatement] at lowered
    obtain ⟨_, _, _, lowered⟩ := Lower.bind_eq_ok.1 lowered
    obtain ⟨_, _, required, lowered⟩ := Lower.bind_eq_ok.1 lowered
    obtain ⟨integral, _⟩ := Lower.require_eq_ok.1 required
    exact ⟨integral, integral_of_lowerStatements frame statements lowered⟩
  | ifThen info condition consequent => by
    intro state after code lowered
    rw [lowerStatement] at lowered
    obtain ⟨_, _, _, lowered⟩ := Lower.bind_eq_ok.1 lowered
    obtain ⟨_, _, lowered₁, lowered⟩ := Lower.bind_eq_ok.1 lowered
    obtain ⟨_, _, _, lowered⟩ := Lower.bind_eq_ok.1 lowered
    obtain ⟨_, _, lowered₂, _⟩ := Lower.bind_eq_ok.1 lowered
    exact ⟨integral_of_lowerValue frame condition lowered₁,
      integral_of_lowerStatement frame consequent lowered₂⟩
  | ifElse info condition consequent alternative => by
    intro state after code lowered
    rw [lowerStatement] at lowered
    obtain ⟨_, _, _, lowered⟩ := Lower.bind_eq_ok.1 lowered
    obtain ⟨_, _, lowered₁, lowered⟩ := Lower.bind_eq_ok.1 lowered
    obtain ⟨_, _, _, lowered⟩ := Lower.bind_eq_ok.1 lowered
    obtain ⟨_, _, lowered₂, lowered⟩ := Lower.bind_eq_ok.1 lowered
    obtain ⟨_, _, _, lowered⟩ := Lower.bind_eq_ok.1 lowered
    obtain ⟨_, _, lowered₃, _⟩ := Lower.bind_eq_ok.1 lowered
    exact ⟨integral_of_lowerValue frame condition lowered₁,
      integral_of_lowerStatement frame consequent lowered₂,
      integral_of_lowerStatement frame alternative lowered₃⟩
  | empty .. | program .. | function .. | parameter .. | call .. | declaration .. | binary ..
  | unary .. | identifier .. | integer .. | real .. => fun _ _ _ _ => trivial
theorem integral_of_lowerStatements (frame : Frame) : (nodes : List Node) →
    ∀ ⦃state after : Lowering⦄ ⦃code : List Quad⦄,
    lowerStatements frame nodes state = .ok code after → StatementsIntegral nodes
  | [] => fun _ _ _ _ => trivial
  | node :: nodes => by
    intro state after code lowered
    rw [lowerStatements] at lowered
    obtain ⟨_, _, lowered₁, lowered⟩ := Lower.bind_eq_ok.1 lowered
    obtain ⟨_, _, lowered₂, _⟩ := Lower.bind_eq_ok.1 lowered
    exact ⟨integral_of_lowerStatement frame node lowered₁,
      integral_of_lowerStatements frame nodes lowered₂⟩
end

theorem integral_of_lowerFunction {node : Node} {state after : Lowering} {code : FunctionCode}
    (lowered : node.lowerFunction state = .ok code after) : node.FunctionIntegral := by
  cases node with
  | function info returnType name parameters body =>
    rw [lowerFunction] at lowered
    split at lowered
    · cases lowered
    · next isInteger =>
      obtain ⟨_, _, _, lowered⟩ := Lower.bind_eq_ok.1 lowered
      obtain ⟨_, _, _, lowered⟩ := Lower.bind_eq_ok.1 lowered
      obtain ⟨_, _, _, lowered⟩ := Lower.bind_eq_ok.1 lowered
      obtain ⟨_, _, _, lowered⟩ := Lower.bind_eq_ok.1 lowered
      obtain ⟨_, _, required, lowered⟩ := Lower.bind_eq_ok.1 lowered
      obtain ⟨_, _, lowered', _⟩ := Lower.bind_eq_ok.1 lowered
      obtain ⟨integral, _⟩ := Lower.require_eq_ok.1 required
      exact ⟨by simpa using isInteger, integral, integral_of_lowerStatement _ body lowered'⟩
  | _ => cases lowered

/-- Only programs of integers are lowered. -/
theorem integral_of_lowerFunctions {nodes : List Node} {state : Lowering}
    {codes : List FunctionCode} (lowered : (lowerFunctions nodes state).2.result = .ok codes) :
    ∀ node ∈ nodes, node.FunctionIntegral := by
  induction nodes generalizing state codes with
  | nil => exact fun _ member => absurd member List.not_mem_nil
  | cons node nodes ih =>
    rw [lowerFunctions] at lowered
    split at lowered
    · cases lowered
    · next code after first =>
      simp only [Traced.result_bind, Traced.result_report, ok_bind] at lowered
      obtain ⟨later, rest, _⟩ := bind_eq_ok.1 lowered
      exact List.forall_mem_cons.2 ⟨integral_of_lowerFunction first, ih rest⟩

/-! ## Functions -/

end Node

/-- A function with its code from temporary `next` and label `label` on, at a state of lowering. -/
structure Lowering.Has (state : Lowering) (name : String) (parameters : List Node) (body : Node)
    (top : ScopeId) (next label : Nat) : Prop where
  notGlobal : top ≠ Table.global
  areParameters : ∀ node ∈ parameters, node.IsParameter
  holds : ∃ symbol, state.table.Holds name parameters.length
    (body.localCount + body.temporaryCount) symbol
  lays : state.table.Lays top (Node.parameterLayout parameters)
  placed : body.ScopedIn state.table top top (Node.parameterLayout parameters) 0
  integral : body.StatementIntegral
  counted : next + body.temporaryCount ≤ state.temporaries
  temporaries : ∀ s, state.table.Reaches s top → ∀ k < body.temporaryCount,
    state.table.slotAt s (temporaryName (next + k)) = some (.localVariable (body.localCount + k))

theorem Table.Holds.ne {table : Table} {name other : String} {arity arity' count count' : Nat}
    {symbol symbol' : SymbolId} (holds : table.Holds name arity count symbol)
    (holds' : table.Holds other arity' count' symbol') (differs : name ≠ other) :
    symbol ≠ symbol' := by
  rintro rfl
  obtain ⟨_, _, _, _, _, present, _⟩ := holds
  obtain ⟨_, _, _, _, _, present', _⟩ := holds'
  rw [present] at present'
  cases present'
  exact differs rfl

section Advances

variable {frame : Frame} {slots temporaries labels : Nat} {before after : Lowering}
  {name : String}

theorem Table.Holds.advances {arity count : Nat} {symbol : SymbolId}
    (holds : before.table.Holds name arity count symbol)
    (advances : frame.Advances slots temporaries labels before after)
    (differs : symbol ≠ frame.symbol) : after.table.Holds name arity count symbol := by
  obtain ⟨known, r, ps, ls, k, present, sizes⟩ := holds
  have lt := (Array.getElem?_eq_some_iff.1 present).1
  exact ⟨(advances.globals name).trans known, r, ps, ls, k,
    (advances.keeps symbol lt differs).trans present, sizes⟩

/-- Lowering another function changes nothing for those that were lowered before. -/
theorem Lowering.Has.advances {parameters : List Node} {body : Node} {top : ScopeId}
    {next label : Nat} (has : before.Has name parameters body top next label)
    (sound : before.table.Sound)
    (advances : frame.Advances slots temporaries labels before after) {other : String}
    {arity count : Nat} (holds : before.table.Holds other arity count frame.symbol)
    (differs : name ≠ other) : after.Has name parameters body top next label where
  notGlobal := has.notGlobal
  areParameters := has.areParameters
  holds := by
    obtain ⟨symbol, held⟩ := has.holds
    exact ⟨symbol, held.advances advances (held.ne holds differs)⟩
  lays := advances.grows.lays has.lays
  placed := Node.ScopedIn.grows sound advances.grows body has.placed
  integral := has.integral
  counted := by
    rw [advances.nextTemporary]
    exact Nat.le_trans has.counted (Nat.le_add_right _ _)
  temporaries := by
    intro s reaches k lt
    rw [advances.slotAt, has.temporaries s (advances.reaches_iff.1 reaches) k lt]
    intro k' le same
    have number := temporaryName_injective same
    have counted := has.counted
    omega

/-- Lowering another function changes nothing for those that are lowered later. -/
theorem Node.FunctionIn.advances {node : Node} (inTable : node.FunctionIn before.table)
    (sound : before.table.Sound)
    (advances : frame.Advances slots temporaries labels before after) {other : String}
    {arity count : Nat} (holds : before.table.Holds other arity count frame.symbol)
    (differs : node.functionName? ≠ some other) : node.FunctionIn after.table := by
  cases node with
  | function info returnType name parameters body =>
    obtain ⟨symbol, top, attached, areParameters, held, notGlobal, lays, placed⟩ := inTable
    have apart : name ≠ other := fun same => differs (congrArg some same)
    exact ⟨symbol, top, attached, areParameters, held.advances advances (held.ne holds apart),
      notGlobal, advances.grows.lays lays, Node.ScopedIn.grows sound advances.grows body placed⟩
  | _ => exact inTable.elim

end Advances

namespace Node

/-- A function and its code. -/
def LoweredIn (state : Lowering) (node : Node) (code : FunctionCode) : Prop :=
  match node with
  | function _ _ name parameters body =>
      ∃ top next label, code = ⟨name, (body.functionCode top next label).toArray⟩ ∧
        state.Has name parameters body top next label
  | _ => False

/-- A resolved function of integers is lowered to its code. -/
theorem lowerFunction_spec {state : Lowering} {info : Info} {returnType : Ty} {name : String}
    {parameters : List Node} {body : Node}
    (inTable : (function info returnType name parameters body).FunctionIn state.table)
    (sound : state.table.Sound)
    (fresh : ∀ k, state.temporaries ≤ k → ∀ scope,
      state.table.lookupLocal scope (temporaryName k) = none)
    (integral : (function info returnType name parameters body).FunctionIntegral) :
    ∃ symbol top after, info.scope = some top ∧
      (function info returnType name parameters body).lowerFunction state =
        .ok ⟨name, (body.functionCode top state.temporaries state.labels).toArray⟩ after ∧
      after.Has name parameters body top state.temporaries state.labels ∧
      Frame.Advances ⟨symbol, top, ⟨state.labels⟩⟩ body.localCount body.temporaryCount
        (1 + body.labelCount) state after ∧
      state.table.Holds name parameters.length body.localCount symbol := by
  obtain ⟨symbol, top, attached, areParameters, holds, notGlobal, lays, placed⟩ := inTable
  obtain ⟨isInteger, integral', integralBody⟩ := integral
  obtain ⟨known, r, ps, ls, k, present, size, size'⟩ := id holds
  let frame : Frame := ⟨symbol, top, ⟨state.labels⟩⟩
  have ready : frame.Ready body.localCount state :=
    ⟨sound, lays.inside, notGlobal, ⟨name, r, ps, ls, k, present, size'⟩, fresh⟩
  obtain ⟨s₁, labelled, advances₁⟩ := freshLabel_spec ready
  obtain ⟨s₂, lowered, advances₂⟩ :=
    lowerStatement_spec frame body placed integralBody advances₁.ready
  have advances := advances₁.trans advances₂
  rw [Nat.zero_add] at advances
  have firstTemporary : s₁.temporaries = state.temporaries := advances₁.nextTemporary
  have firstLabel : s₁.labels = state.labels + 1 := advances₁.nextLabel
  refine ⟨symbol, top, s₂, attached, ?_, ?_, advances, holds⟩
  · have found : functionSymbol state.table name = .ok symbol := by
      unfold functionSymbol
      rw [known]
    have lowered' : body.lowerStatement ⟨symbol, top, ⟨state.labels⟩⟩ s₁ = _ := lowered
    rw [lowerFunction, if_neg (by simp [isInteger])]
    simp only [bind_of_ok (show (get : Lower Lowering) state = .ok state state from rfl),
      bind_of_ok (require_of_ok found),
      bind_of_ok (require_scopeOf (function info returnType name parameters body) attached),
      bind_of_ok labelled, bind_of_ok (require_of_ok integral'), bind_of_ok lowered',
      firstTemporary, firstLabel]
    rfl
  · refine ⟨notGlobal, areParameters, ⟨symbol, (advances.globals name).trans known, ?_⟩,
      advances.grows.lays lays, ScopedIn.grows sound advances.grows body placed, integralBody, ?_, ?_⟩
    · obtain ⟨ls', present'⟩ := advances.present present
      obtain ⟨n'', r'', ps'', ls'', k'', present'', count⟩ := advances.ready.present
      rw [present'] at present''
      cases present''
      exact ⟨r, ps, ls', k, present', size, count⟩
    · exact Nat.le_of_eq advances.nextTemporary.symm
    · intro s reaches k lt
      exact advances.new s (advances.reaches_iff.1 reaches) k lt

end Node

/-! ## Programs -/

/-- The functions are in the table, all with different names, and no temporary to come is defined
yet. So those of integers can be lowered, one after the other. -/
structure Lowering.Expects (state : Lowering) (nodes : List Node) : Prop where
  placed : ∀ node ∈ nodes, node.FunctionIn state.table
  distinct : (Node.functionNames nodes).Nodup
  sound : state.table.Sound
  fresh : ∀ k, state.temporaries ≤ k → ∀ scope,
    state.table.lookupLocal scope (temporaryName k) = none

/-- While one function is lowered, the others stay as they are expected to be. -/
theorem Lowering.Expects.later {state after : Lowering} {info : Info} {returnType : Ty}
    {name : String} {parameters : List Node} {body : Node} {nodes : List Node}
    (expects : state.Expects (.function info returnType name parameters body :: nodes))
    {frame : Frame} {slots temporaries labels arity : Nat}
    (advances : frame.Advances slots temporaries labels state after)
    (holds : state.table.Holds name arity slots frame.symbol) : after.Expects nodes where
  placed := by
    intro node member
    refine (expects.placed node (List.mem_cons_of_mem _ member)).advances expects.sound advances
      holds fun same => ?_
    exact (List.nodup_cons.1 expects.distinct).1 (List.mem_filterMap.2 ⟨node, member, same⟩)
  distinct := (List.nodup_cons.1 expects.distinct).2
  sound := advances.ready.sound
  fresh := advances.ready.fresh

namespace Node

/-- Functions are lowered one after the other. -/
theorem lowerFunctions_spec {nodes : List Node} : ∀ {state : Lowering}, state.Expects nodes →
    (∀ node ∈ nodes, node.FunctionIntegral) →
    ∃ codes, (lowerFunctions nodes state).2.result = .ok codes ∧
      (lowerFunctions nodes state).1.table.Sound ∧
      List.Forall₂ (LoweredIn (lowerFunctions nodes state).1) nodes codes ∧
      LabelsBetween state.labels (lowerFunctions nodes state).1.labels
        (codes.flatMap fun code => marks code.body.toList) ∧
      state.labels ≤ (lowerFunctions nodes state).1.labels ∧
      ∀ {node : Node} {code : FunctionCode}, node.LoweredIn state code → (∀ name ∈ functionNames nodes,
        node.functionName? ≠ some name) → node.LoweredIn (lowerFunctions nodes state).1 code := by
  induction nodes with
  | nil =>
    intro state expects _
    exact ⟨[], rfl, expects.sound, .nil, .nil _ _, Nat.le_refl _, fun lowered _ => lowered⟩
  | cons node nodes ih =>
    intro state expects integral
    obtain ⟨isIntegral, areIntegral⟩ := List.forall_mem_cons.1 integral
    have isIn := expects.placed node List.mem_cons_self
    cases node with
    | function info returnType name parameters body =>
      obtain ⟨symbol, top, after, _, lowered, has, advances, holds⟩ :=
        lowerFunction_spec isIn expects.sound expects.fresh isIntegral
      obtain ⟨codes, lowereds, sound', all, between', le', carry⟩ :=
        ih (expects.later advances holds) areIntegral
      have between := labelsBetween_functionCode top state.temporaries state.labels body
      have labels : state.labels + 1 + body.labelCount = after.labels := by
        rw [advances.nextLabel, Nat.add_assoc]
      have le : state.labels ≤ after.labels := by omega
      rw [labels] at between
      rw [lowerFunctions]
      simp only [lowered]
      refine ⟨_ :: codes, ?_, sound', .cons (carry ⟨top, _, _, rfl, has⟩ ?_) all,
        between.append le le' between', Nat.le_trans le le', ?_⟩
      · simp only [Traced.result_bind, Traced.result_report, ok_bind, lowereds]
        rfl
      · rintro other member ⟨⟩
        exact (List.nodup_cons.1 expects.distinct).1 member
      · intro node' code' loweredIn' apart
        obtain ⟨apart, apart'⟩ := List.forall_mem_cons.1 apart
        refine carry ?_ apart'
        cases node' with
        | function info returnType other parameters body =>
          obtain ⟨top, next, label, rfl, has⟩ := loweredIn'
          exact ⟨top, next, label, rfl, has.advances expects.sound advances holds fun same =>
            apart (congrArg some same)⟩
        | _ => exact loweredIn'.elim
    | _ => exact isIn.elim

/-- No word of the source is the name of a temporary, so a resolved program can be lowered. -/
theorem ProgramIn.expects {table : Table} {functions : List Node}
    (inTable : ProgramIn table functions) : (Lowering.mk table 0 0).Expects functions where
  placed := inTable.placed
  distinct := inTable.distinct
  sound := inTable.sound
  fresh := by
    intro k _ scope
    cases found : table.lookupLocal scope (temporaryName k) with
    | none => rfl
    | some id => exact absurd rfl ((inTable.words found).ne_temporaryName k)

end Node
end MiniC
