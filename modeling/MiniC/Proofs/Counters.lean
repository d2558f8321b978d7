import MiniC.Proofs.Ownership
import MiniC.Proofs.Symbols

/-!
# What lowering draws from its counters

Temporaries and labels come from counters that all functions share. So what is kept for a part of the
code is the range of numbers that each counter went through while the part was lowered.

For any tree and any table, if lowering succeeds: the temporaries of a part are created in the order
of their numbers, one each, as variables of the function; its labels are marked once each, in some
order; and all jumps in it lead forward to one of these marks, or are returns. The two counters are
followed together, in one induction over the tree (`Emitted`).
-/

namespace MiniC

open Lower

/-! ## Code without jumps -/

/-- Marks, jumps and returns: what a run may come to, or leave, other than in the order of the
code. -/
def Opcode.isControl : Opcode → Bool
  | .label | .jump | .jumpIfNot | .ret => true
  | _ => false

/-- Code without marks, jumps and returns. -/
def Straight (code : List Quad) : Prop :=
  ∀ quad ∈ code, quad.op.isControl = false

theorem straight_nil : Straight [] :=
  fun _ member => absurd member List.not_mem_nil

theorem Straight.append {first second : List Quad} (straight : Straight first)
    (straight' : Straight second) : Straight (first ++ second) :=
  List.forall_mem_append.2 ⟨straight, straight'⟩

theorem straight_single {quad : Quad} (noControl : quad.op.isControl = false) : Straight [quad] :=
  List.forall_mem_singleton.2 noControl

theorem straight_pushes (names : List String) (scope : ScopeId) :
    Straight (names.map (Quad.param · scope)) := by
  intro quad member
  obtain ⟨name, _, rfl⟩ := List.mem_map.1 member
  rfl

theorem Straight.marks_eq {code : List Quad} (straight : Straight code) : marks code = [] := by
  refine List.filterMap_eq_nil_iff.2 fun quad member => ?_
  have noControl := straight quad member
  unfold Quad.marked?
  split
  · next isLabel _ =>
    rw [isLabel] at noControl
    cases noControl
  · rfl

/-! ## Ranges of numbers -/

/-- The numbers from `first` up to `last`, in order. -/
def numbersFrom (first last : Nat) : List Nat :=
  List.range' first (last - first)

theorem numbersFrom_append {first middle last : Nat} (le : first ≤ middle) (le' : middle ≤ last) :
    numbersFrom first middle ++ numbersFrom middle last = numbersFrom first last := by
  have size : last - first = middle - first + (last - middle) := by omega
  have start : middle = first + 1 * (middle - first) := by omega
  unfold numbersFrom
  rw [size, ← List.range'_append, ← start]

theorem numbersFrom_self (first : Nat) : numbersFrom first first = [] := by
  unfold numbersFrom
  rw [Nat.sub_self]
  rfl

theorem numbersFrom_succ {first last : Nat} (lt : first < last) :
    numbersFrom first last = first :: numbersFrom (first + 1) last := by
  have size : last - first = last - (first + 1) + 1 := by omega
  unfold numbersFrom
  rw [size]
  rfl

theorem mem_numbersFrom {first last n : Nat} :
    n ∈ numbersFrom first last ↔ first ≤ n ∧ n < last := by
  unfold numbersFrom
  rw [List.mem_range'_1]
  omega

/-- The labels with numbers from `first` up to `last`, in order. -/
def labelsFrom (first last : Nat) : List Label :=
  (numbersFrom first last).map Label.mk

theorem labelsFrom_append {first middle last : Nat} (le : first ≤ middle) (le' : middle ≤ last) :
    labelsFrom first middle ++ labelsFrom middle last = labelsFrom first last := by
  unfold labelsFrom
  rw [← List.map_append, numbersFrom_append le le']

theorem labelsFrom_self (first : Nat) : labelsFrom first first = [] := by
  unfold labelsFrom
  rw [numbersFrom_self]
  rfl

theorem labelsFrom_succ {first last : Nat} (lt : first < last) :
    labelsFrom first last = ⟨first⟩ :: labelsFrom (first + 1) last := by
  unfold labelsFrom
  rw [numbersFrom_succ lt]
  rfl

theorem nodup_labelsFrom (first last : Nat) : (labelsFrom first last).Nodup :=
  List.Nodup.map (fun _ _ same => congrArg Label.index same) List.nodup_range'

/-- The temporaries with numbers from `first` up to `last`, in order. -/
def temporariesFrom (first last : Nat) : List String :=
  (numbersFrom first last).map temporaryName

theorem temporariesFrom_append {first middle last : Nat} (le : first ≤ middle)
    (le' : middle ≤ last) :
    temporariesFrom first middle ++ temporariesFrom middle last = temporariesFrom first last := by
  unfold temporariesFrom
  rw [← List.map_append, numbersFrom_append le le']

theorem temporariesFrom_self (first : Nat) : temporariesFrom first first = [] := by
  unfold temporariesFrom
  rw [numbersFrom_self]
  rfl

theorem temporariesFrom_next (first : Nat) :
    temporariesFrom first (first + 1) = [temporaryName first] := by
  unfold temporariesFrom
  rw [numbersFrom_succ (Nat.lt_succ_self first), numbersFrom_self]
  rfl

/-! ## Code with labels of its own -/

/-- The quadruple leaves by `exit` if it is a return, and for one of these labels if it is another
jump. -/
def Quad.LeavesFor (quad : Quad) (exit : Label) (labels : List Label) : Prop :=
  match quad.op with
  | .ret => quad.target? = some exit
  | .jump | .jumpIfNot => ∃ label ∈ labels, quad.target? = some label
  | _ => True

theorem Quad.LeavesFor.mono {quad : Quad} {exit : Label} {labels labels' : List Label}
    (leaves : quad.LeavesFor exit labels) (subset : labels ⊆ labels') :
    quad.LeavesFor exit labels' := by
  unfold LeavesFor at *
  split
  · next isRet => rwa [isRet] at leaves
  · next isJump =>
    rw [isJump] at leaves
    obtain ⟨label, member, named⟩ := leaves
    exact ⟨label, subset member, named⟩
  · next isJump =>
    rw [isJump] at leaves
    obtain ⟨label, member, named⟩ := leaves
    exact ⟨label, subset member, named⟩
  · trivial

/-- Jumps lead to marks behind them, and returns to `exit`. -/
def Forward (exit : Label) : List Quad → Prop
  | [] => True
  | quad :: code => quad.LeavesFor exit (marks code) ∧ Forward exit code

theorem Forward.append {exit : Label} {first second : List Quad} (forward : Forward exit first)
    (forward' : Forward exit second) : Forward exit (first ++ second) := by
  induction first with
  | nil => exact forward'
  | cons quad first ih =>
    have subset : marks first ⊆ marks (first ++ second) := by
      rw [marks_append]
      exact List.subset_append_left _ _
    exact ⟨forward.1.mono subset, ih forward.2⟩

theorem Straight.forward {code : List Quad} (straight : Straight code) (exit : Label) :
    Forward exit code := by
  induction code with
  | nil => trivial
  | cons quad code ih =>
    obtain ⟨noControl, straight'⟩ := List.forall_mem_cons.1 straight
    refine ⟨?_, ih straight'⟩
    unfold Quad.LeavesFor
    split
    · next isRet => rw [isRet] at noControl; cases noControl
    · next isJump => rw [isJump] at noControl; cases noControl
    · next isJump => rw [isJump] at noControl; cases noControl
    · trivial

/-- Code whose labels have the numbers from `first` up to `last`: each is marked once, and all jumps
go forward. -/
structure Numbered (exit : Label) (first last : Nat) (code : List Quad) : Prop where
  le : first ≤ last
  marked : (marks code).Perm (labelsFrom first last)
  forward : Forward exit code

namespace Numbered

variable {exit : Label} {first middle last : Nat} {code code' : List Quad}

theorem ofStraight (straight : Straight code) (first : Nat) : Numbered exit first first code where
  le := Nat.le_refl _
  marked := by rw [straight.marks_eq, labelsFrom_self]
  forward := straight.forward exit

theorem append (numbered : Numbered exit first middle code)
    (numbered' : Numbered exit middle last code') : Numbered exit first last (code ++ code') where
  le := Nat.le_trans numbered.le numbered'.le
  marked := by
    rw [marks_append, ← labelsFrom_append numbered.le numbered'.le]
    exact numbered.marked.append numbered'.marked
  forward := numbered.forward.append numbered'.forward

theorem ret (exit : Label) (value : String) (scope : ScopeId) (first : Nat) :
    Numbered exit first first [.ret exit value scope] where
  le := Nat.le_refl _
  marked := by
    rw [labelsFrom_self]
    exact List.Perm.nil
  forward := ⟨rfl, trivial⟩

/-- The code of a conditional without an alternative, behind its test. -/
theorem skipping (numbered : Numbered exit (first + 1) last code) (condition : String)
    (scope : ScopeId) :
    Numbered exit first last
      (.jumpIfNot condition ⟨first⟩ scope :: (code ++ [.mark ⟨first⟩ scope])) := by
  have le := numbered.le
  have marks_eq : marks (code ++ [.mark ⟨first⟩ scope]) = marks code ++ [⟨first⟩] :=
    marks_append _ _
  refine ⟨by omega, ?_, ⟨⟨first⟩, ?_, rfl⟩, numbered.forward.append ⟨trivial, trivial⟩⟩
  · change (marks (code ++ [.mark ⟨first⟩ scope])).Perm _
    rw [marks_eq, labelsFrom_succ (by omega)]
    exact List.perm_append_comm.trans (numbered.marked.cons _)
  · rw [marks_eq]
    exact List.mem_append_right _ List.mem_cons_self

/-- The code of a conditional with an alternative, behind its test. -/
theorem choosing (numbered : Numbered exit (first + 1) middle code)
    (numbered' : Numbered exit (middle + 1) last code') (condition : String) (scope : ScopeId) :
    Numbered exit first last
      (.jumpIfNot condition ⟨first⟩ scope ::
        (code ++ .jump ⟨middle⟩ scope :: .mark ⟨first⟩ scope ::
          (code' ++ [.mark ⟨middle⟩ scope]))) := by
  have le := numbered.le
  have le' := numbered'.le
  have marks_end : marks (code' ++ [.mark ⟨middle⟩ scope]) = marks code' ++ [⟨middle⟩] :=
    marks_append _ _
  have marks_eq : marks (code ++ .jump ⟨middle⟩ scope :: .mark ⟨first⟩ scope ::
      (code' ++ [.mark ⟨middle⟩ scope])) = marks code ++ ⟨first⟩ :: (marks code' ++ [⟨middle⟩]) := by
    rw [marks_append, marks_cons, marks_cons, marks_end]
    rfl
  refine ⟨by omega, ?_, ⟨⟨first⟩, ?_, rfl⟩, numbered.forward.append ⟨⟨⟨middle⟩, ?_, rfl⟩, trivial,
    numbered'.forward.append ⟨trivial, trivial⟩⟩⟩
  · have split : labelsFrom first last =
        ⟨first⟩ :: (labelsFrom (first + 1) middle ++ ⟨middle⟩ :: labelsFrom (middle + 1) last) := by
      rw [labelsFrom_succ (show first < last by omega),
        ← labelsFrom_append le (show middle ≤ last by omega),
        labelsFrom_succ (show middle < last by omega)]
    rw [marks_cons, marks_eq, split]
    refine List.perm_middle.trans (.cons _ (numbered.marked.append ?_))
    exact List.perm_append_comm.trans (numbered'.marked.cons _)
  · rw [marks_eq]
    exact List.mem_append_right _ List.mem_cons_self
  · rw [marks_cons, marks_end]
    exact List.mem_append_right _ (List.mem_append_right _ List.mem_cons_self)

end Numbered

/-! ## Temporaries -/

/-- The temporary that a quadruple is to give its value. Only an assignment has another result. -/
def Quad.created? (quad : Quad) : Option String :=
  match quad.op with
  | .assign => none
  | _ => quad.result.bind Operand.name?

/-- The temporaries that are given a value, in the order of the code. -/
def created (code : List Quad) : List String :=
  code.filterMap Quad.created?

theorem created_append (first second : List Quad) :
    created (first ++ second) = created first ++ created second :=
  List.filterMap_append

theorem created_cons (quad : Quad) (code : List Quad) :
    created (quad :: code) = quad.created?.toList ++ created code := by
  unfold created
  rw [List.filterMap_cons]
  cases quad.created? <;> rfl

theorem created_pushes (names : List String) (scope : ScopeId) :
    created (names.map (Quad.param · scope)) = [] := by
  induction names with
  | nil => rfl
  | cons name names ih => exact ih

namespace Lower

variable {α : Type} {state after : Lowering}

theorem throw_ne_ok {error : Error} {a : α} : (throw error : Lower α) state ≠ .ok a after :=
  nofun

theorem freshLabel_eq_ok {label : Label} : freshLabel state = .ok label after ↔
    label = ⟨state.labels⟩ ∧ after = { state with labels := state.labels + 1 } := by
  constructor
  · intro fresh
    cases fresh
    exact ⟨rfl, rfl⟩
  · rintro ⟨rfl, rfl⟩
    rfl

theorem freshTemporary_eq_ok {frame : Frame} {name : String} :
    freshTemporary frame state = .ok name after ↔
      name = temporaryName state.temporaries ∧ ∃ id table,
        state.table.defineVariable frame.scope frame.symbol name .int = .ok (id, table) ∧
        after = { state with table, temporaries := state.temporaries + 1 } := by
  rw [freshTemporary_eq]
  constructor
  · intro fresh
    split at fresh
    · next id table defined =>
      cases fresh
      exact ⟨rfl, id, table, defined, rfl⟩
    · cases fresh
  · rintro ⟨rfl, id, table, defined, rfl⟩
    rw [defined]

end Lower

namespace Table

/-- Whatever temporary is found in a scope is one of the first `count`, and an integer variable. -/
def IntTemporaries (table : Table) (count : Nat) : Prop :=
  ∀ ⦃scope : ScopeId⦄ ⦃name : String⦄ ⦃id : SymbolId⦄, table.lookupLocal scope name = some id →
    isTemporary name → name ∈ temporariesFrom 0 count ∧
      ∃ index, table.symbols[id]? = some (.localVariable name .int index)

/-- The next temporary is defined as an integer variable. -/
theorem IntTemporaries.defineVariable {table after : Table} {scope : ScopeId} {f id : SymbolId}
    {count : Nat} (typed : table.IntTemporaries count) (sound : table.Sound)
    (inside : scope < table.scopes.size)
    (defined : table.defineVariable scope f (temporaryName count) .int = .ok (id, after)) :
    after.IntTemporaries (count + 1) := by
  obtain ⟨n, r, ps, ls, k, _, present, _⟩ := exists_define_of_variable defined
  obtain ⟨defines, _, others⟩ := defineVariable_eq_ok inside present defined
  intro s m other found temporary
  rw [← temporariesFrom_append (Nat.zero_le count) (Nat.le_succ count), temporariesFrom_next]
  rw [defines.lookupLocal] at found
  split at found
  · next same =>
    cases found
    refine ⟨?_, ls.size, same.2 ▸ symbol_of_defineVariable present defined⟩
    exact List.mem_append_right _ (List.mem_singleton.2 same.2)
  · obtain ⟨member, index, isVariable⟩ := typed found temporary
    refine ⟨List.mem_append_left _ member, index,
      (others other (sound.lookupLocal_lt found) ?_).trans isVariable⟩
    rintro rfl
    rw [present] at isVariable
    cases isVariable

end Table

/-- The state goes from one to the other by drawing temporaries and labels for a function. -/
inductive Frame.Draws (frame : Frame) : (before after : Lowering) → Prop
  | nothing (state : Lowering) : Draws frame state state
  | temporary {before after : Lowering} {id : SymbolId} {table : Table}
      (defined : before.table.defineVariable frame.scope frame.symbol
        (temporaryName before.temporaries) .int = .ok (id, table))
      (later : Draws frame { before with table, temporaries := before.temporaries + 1 } after) :
      Draws frame before after
  | label {before after : Lowering}
      (later : Draws frame { before with labels := before.labels + 1 } after) :
      Draws frame before after

namespace Frame.Draws

variable {frame : Frame} {before middle after : Lowering}

theorem trans (first : frame.Draws before middle) (second : frame.Draws middle after) :
    frame.Draws before after := by
  induction first with
  | nothing => exact second
  | temporary defined _ ih => exact .temporary defined (ih second)
  | label _ ih => exact .label (ih second)

theorem le (draws : frame.Draws before after) : before.temporaries ≤ after.temporaries := by
  induction draws with
  | nothing => exact Nat.le_refl _
  | temporary _ _ ih => exact Nat.le_of_succ_le ih
  | label _ ih => exact ih

theorem declares (draws : frame.Draws before after) :
    Table.Declares frame.symbol frame.scope before.table after.table := by
  induction draws with
  | nothing => exact .nothing _ _
  | temporary defined _ ih => exact .localVariable defined ih
  | label _ ih => exact ih

theorem intTemporaries (draws : frame.Draws before after) {owner : ScopeId → Option SymbolId}
    (owned : before.table.OwnedBy owner) (inside : frame.scope < before.table.scopes.size)
    (isOwner : owner frame.scope = some frame.symbol)
    (typed : before.table.IntTemporaries before.temporaries) :
    after.table.IntTemporaries after.temporaries := by
  induction draws with
  | nothing => exact typed
  | temporary defined _ ih =>
    obtain ⟨owned', _, defines⟩ := owned.defineVariable inside isOwner defined
    exact ih owned' (defines.size ▸ inside) (typed.defineVariable owned.sound inside defined)
  | label _ ih => exact ih owned inside typed

end Frame.Draws

/-! ## Lowering expressions and statements -/

/-- What lowering an expression gives: code without jumps that creates the temporaries drawn for
it. -/
structure Frame.Computes (frame : Frame) (before after : Lowering) (code : List Quad) : Prop where
  draws : frame.Draws before after
  labels : after.labels = before.labels
  creates : created code = temporariesFrom before.temporaries after.temporaries
  straight : Straight code

/-- What lowering a statement gives: code that creates the temporaries and marks the labels drawn
for it. -/
structure Frame.Emitted (frame : Frame) (before after : Lowering) (code : List Quad) : Prop where
  draws : frame.Draws before after
  creates : created code = temporariesFrom before.temporaries after.temporaries
  numbered : Numbered frame.exit before.labels after.labels code

section Parts

variable {frame : Frame} {before middle after : Lowering} {first second : List Quad}

theorem Frame.Computes.nothing (frame : Frame) (state : Lowering) :
    frame.Computes state state [] where
  draws := .nothing state
  labels := rfl
  creates := (temporariesFrom_self _).symm
  straight := straight_nil

theorem Frame.Computes.append (computes : frame.Computes before middle first)
    (computes' : frame.Computes middle after second) :
    frame.Computes before after (first ++ second) where
  draws := computes.draws.trans computes'.draws
  labels := computes'.labels.trans computes.labels
  creates := by
    rw [created_append, computes.creates, computes'.creates,
      temporariesFrom_append computes.draws.le computes'.draws.le]
  straight := computes.straight.append computes'.straight

/-- One more quadruple gives its value to the next temporary, after `pushes` that create none. -/
theorem Frame.Computes.temporary (computes : frame.Computes before middle first) {name : String}
    (fresh : freshTemporary frame middle = .ok name after) {quad : Quad}
    (isNext : quad.created? = some name) (noControl : quad.op.isControl = false)
    {pushes : List Quad} (straight : Straight pushes) (plain : created pushes = []) :
    frame.Computes before after (first ++ (pushes ++ [quad])) := by
  obtain ⟨rfl, id, table, defined, rfl⟩ := freshTemporary_eq_ok.1 fresh
  refine computes.append ⟨.temporary defined (.nothing _), rfl, ?_,
    straight.append (straight_single noControl)⟩
  rw [created_append, plain, created_cons, isNext, temporariesFrom_next]
  rfl

/-- The code of an expression takes no label. -/
theorem Frame.Computes.emitted (computes : frame.Computes before after first) :
    frame.Emitted before after first where
  draws := computes.draws
  creates := computes.creates
  numbered := by
    rw [computes.labels]
    exact .ofStraight computes.straight _

theorem Frame.Emitted.append (emitted : frame.Emitted before middle first)
    (emitted' : frame.Emitted middle after second) :
    frame.Emitted before after (first ++ second) where
  draws := emitted.draws.trans emitted'.draws
  creates := by
    rw [created_append, emitted.creates, emitted'.creates,
      temporariesFrom_append emitted.draws.le emitted'.draws.le]
  numbered := emitted.numbered.append emitted'.numbered

/-- A quadruple that creates no temporary and takes no label. -/
theorem Frame.Emitted.single (frame : Frame) (state : Lowering) {quad : Quad}
    (plain : quad.created? = none)
    (numbered : Numbered frame.exit state.labels state.labels [quad]) :
    frame.Emitted state state [quad] where
  draws := .nothing state
  creates := by
    rw [created_cons, plain, temporariesFrom_self]
    rfl
  numbered := numbered

theorem Frame.Emitted.skipping
    (emitted : frame.Emitted { before with labels := before.labels + 1 } after first)
    (condition : String) (scope : ScopeId) :
    frame.Emitted before after
      (.jumpIfNot condition ⟨before.labels⟩ scope :: (first ++ [.mark ⟨before.labels⟩ scope])) where
  draws := .label emitted.draws
  creates := by
    rw [created_cons, created_append, emitted.creates]
    exact List.append_nil _
  numbered := emitted.numbered.skipping condition scope

theorem Frame.Emitted.choosing
    (emitted : frame.Emitted { before with labels := before.labels + 1 } middle first)
    (emitted' : frame.Emitted { middle with labels := middle.labels + 1 } after second)
    (condition : String) (scope : ScopeId) :
    frame.Emitted before after
      (.jumpIfNot condition ⟨before.labels⟩ scope ::
        (first ++ .jump ⟨middle.labels⟩ scope :: .mark ⟨before.labels⟩ scope ::
          (second ++ [.mark ⟨middle.labels⟩ scope]))) where
  draws := .label (emitted.draws.trans (.label emitted'.draws))
  creates := by
    have both := temporariesFrom_append emitted.draws.le emitted'.draws.le
    rw [created_cons, created_append, created_cons, created_cons, created_append, emitted.creates,
      emitted'.creates]
    exact (congrArg (_ ++ ·) (List.append_nil _)).trans both
  numbered := emitted.numbered.choosing emitted'.numbered condition scope

end Parts

namespace Node

mutual
/-- Expressions are lowered to code that computes them. -/
theorem computes_of_lowerValue (frame : Frame) : (node : Node) →
    ∀ ⦃state after : Lowering⦄ ⦃code : List Quad⦄ ⦃name : String⦄,
    node.lowerValue frame state = .ok (code, name) after → frame.Computes state after code
  | identifier info name => by
    intro state after code _ lowered
    rw [lowerValue] at lowered
    obtain ⟨_, _, required, lowered⟩ := Lower.bind_eq_ok.1 lowered
    obtain ⟨_, rfl⟩ := Lower.require_eq_ok.1 required
    cases lowered
    exact .nothing frame state
  | integer info value => by
    intro state after code _ lowered
    rw [lowerValue] at lowered
    obtain ⟨_, _, required, lowered⟩ := Lower.bind_eq_ok.1 lowered
    obtain ⟨_, rfl⟩ := Lower.require_eq_ok.1 required
    obtain ⟨_, _, fresh, lowered⟩ := Lower.bind_eq_ok.1 lowered
    cases lowered
    exact (Frame.Computes.nothing frame state).temporary fresh rfl rfl straight_nil rfl
  | unary info op operand => by
    intro state after code _ lowered
    rw [lowerValue] at lowered
    obtain ⟨_, _, required, lowered⟩ := Lower.bind_eq_ok.1 lowered
    obtain ⟨_, rfl⟩ := Lower.require_eq_ok.1 required
    obtain ⟨⟨first, x⟩, _, lowered₁, lowered⟩ := Lower.bind_eq_ok.1 lowered
    obtain ⟨_, _, fresh, lowered⟩ := Lower.bind_eq_ok.1 lowered
    cases lowered
    exact (computes_of_lowerValue frame operand lowered₁).temporary fresh (by cases op <;> rfl)
      (by cases op <;> rfl) straight_nil rfl
  | binary info op lhs rhs => by
    intro state after code _ lowered
    rw [lowerValue] at lowered
    obtain ⟨_, _, required, lowered⟩ := Lower.bind_eq_ok.1 lowered
    obtain ⟨_, rfl⟩ := Lower.require_eq_ok.1 required
    obtain ⟨⟨first, l⟩, _, lowered₁, lowered⟩ := Lower.bind_eq_ok.1 lowered
    obtain ⟨⟨second, r⟩, _, lowered₂, lowered⟩ := Lower.bind_eq_ok.1 lowered
    obtain ⟨_, _, fresh, lowered⟩ := Lower.bind_eq_ok.1 lowered
    cases lowered
    exact (computes_of_lowerValue frame lhs lowered₁).append
      ((computes_of_lowerValue frame rhs lowered₂).temporary fresh (by cases op <;> rfl)
        (by cases op <;> rfl) straight_nil rfl)
  | call info callee arguments => by
    intro state after code _ lowered
    rw [lowerValue] at lowered
    obtain ⟨_, _, required, lowered⟩ := Lower.bind_eq_ok.1 lowered
    obtain ⟨_, rfl⟩ := Lower.require_eq_ok.1 required
    split at lowered
    · obtain ⟨⟨first, values⟩, _, lowered₁, lowered⟩ := Lower.bind_eq_ok.1 lowered
      obtain ⟨_, _, fresh, lowered⟩ := Lower.bind_eq_ok.1 lowered
      cases lowered
      exact (computes_of_lowerValues frame arguments lowered₁).temporary fresh rfl rfl
        (straight_pushes _ _) (created_pushes _ _)
    · exact absurd lowered throw_ne_ok
  | real .. | empty .. | program .. | function .. | parameter .. | returnValue .. | block ..
  | declaration .. | assignment .. | ifThen .. | ifElse .. => by
    intro state after code _ lowered
    simp only [lowerValue] at lowered
    obtain ⟨_, _, _, lowered⟩ := Lower.bind_eq_ok.1 lowered
    exact absurd lowered throw_ne_ok
theorem computes_of_lowerValues (frame : Frame) : (nodes : List Node) →
    ∀ ⦃state after : Lowering⦄ ⦃code : List Quad⦄ ⦃names : List String⦄,
    lowerValues frame nodes state = .ok (code, names) after → frame.Computes state after code
  | [] => by
    intro state after code _ lowered
    cases lowered
    exact .nothing frame state
  | node :: nodes => by
    intro state after code _ lowered
    rw [lowerValues] at lowered
    obtain ⟨⟨first, value⟩, _, lowered₁, lowered⟩ := Lower.bind_eq_ok.1 lowered
    obtain ⟨⟨second, values⟩, _, lowered₂, lowered⟩ := Lower.bind_eq_ok.1 lowered
    cases lowered
    exact (computes_of_lowerValue frame node lowered₁).append
      (computes_of_lowerValues frame nodes lowered₂)
end

mutual
/-- Statements are lowered to code with the labels and temporaries that they take from the
counters. -/
theorem emitted_of_lowerStatement (frame : Frame) : (node : Node) →
    ∀ ⦃state after : Lowering⦄ ⦃code : List Quad⦄,
    node.lowerStatement frame state = .ok code after → frame.Emitted state after code
  | empty info => by
    intro state after code lowered
    rw [lowerStatement] at lowered
    obtain ⟨_, _, required, lowered⟩ := Lower.bind_eq_ok.1 lowered
    obtain ⟨_, rfl⟩ := Lower.require_eq_ok.1 required
    cases lowered
    exact (Frame.Computes.nothing frame state).emitted
  | block info declarations statements => by
    intro state after code lowered
    rw [lowerStatement] at lowered
    obtain ⟨_, _, required, lowered⟩ := Lower.bind_eq_ok.1 lowered
    obtain ⟨_, rfl⟩ := Lower.require_eq_ok.1 required
    obtain ⟨_, _, required', lowered⟩ := Lower.bind_eq_ok.1 lowered
    obtain ⟨_, rfl⟩ := Lower.require_eq_ok.1 required'
    exact emitted_of_lowerStatements frame statements lowered
  | returnValue info value => by
    intro state after code lowered
    rw [lowerStatement] at lowered
    obtain ⟨_, _, required, lowered⟩ := Lower.bind_eq_ok.1 lowered
    obtain ⟨_, rfl⟩ := Lower.require_eq_ok.1 required
    obtain ⟨⟨first, result⟩, _, lowered₁, lowered⟩ := Lower.bind_eq_ok.1 lowered
    cases lowered
    exact (computes_of_lowerValue frame value lowered₁).emitted.append
      (.single frame _ rfl (.ret _ _ _ _))
  | assignment info target value => by
    intro state after code lowered
    rw [lowerStatement] at lowered
    obtain ⟨_, _, required, lowered⟩ := Lower.bind_eq_ok.1 lowered
    obtain ⟨_, rfl⟩ := Lower.require_eq_ok.1 required
    obtain ⟨⟨first, result⟩, _, lowered₁, lowered⟩ := Lower.bind_eq_ok.1 lowered
    cases lowered
    exact (computes_of_lowerValue frame value lowered₁).emitted.append
      (.single frame _ rfl (.ofStraight (straight_single rfl) _))
  | ifThen info condition consequent => by
    intro state after code lowered
    rw [lowerStatement] at lowered
    obtain ⟨_, _, required, lowered⟩ := Lower.bind_eq_ok.1 lowered
    obtain ⟨_, rfl⟩ := Lower.require_eq_ok.1 required
    obtain ⟨⟨test, result⟩, _, lowered₁, lowered⟩ := Lower.bind_eq_ok.1 lowered
    obtain ⟨_, _, labelled, lowered⟩ := Lower.bind_eq_ok.1 lowered
    obtain ⟨rfl, rfl⟩ := freshLabel_eq_ok.1 labelled
    obtain ⟨positive, _, lowered₂, lowered⟩ := Lower.bind_eq_ok.1 lowered
    cases lowered
    exact (computes_of_lowerValue frame condition lowered₁).emitted.append
      ((emitted_of_lowerStatement frame consequent lowered₂).skipping _ _)
  | ifElse info condition consequent alternative => by
    intro state after code lowered
    rw [lowerStatement] at lowered
    obtain ⟨_, _, required, lowered⟩ := Lower.bind_eq_ok.1 lowered
    obtain ⟨_, rfl⟩ := Lower.require_eq_ok.1 required
    obtain ⟨⟨test, result⟩, _, lowered₁, lowered⟩ := Lower.bind_eq_ok.1 lowered
    obtain ⟨_, _, labelled, lowered⟩ := Lower.bind_eq_ok.1 lowered
    obtain ⟨rfl, rfl⟩ := freshLabel_eq_ok.1 labelled
    obtain ⟨positive, _, lowered₂, lowered⟩ := Lower.bind_eq_ok.1 lowered
    obtain ⟨_, _, labelled', lowered⟩ := Lower.bind_eq_ok.1 lowered
    obtain ⟨rfl, rfl⟩ := freshLabel_eq_ok.1 labelled'
    obtain ⟨negative, _, lowered₃, lowered⟩ := Lower.bind_eq_ok.1 lowered
    cases lowered
    exact (computes_of_lowerValue frame condition lowered₁).emitted.append
      ((emitted_of_lowerStatement frame consequent lowered₂).choosing
        (emitted_of_lowerStatement frame alternative lowered₃) _ _)
  | program .. | function .. | parameter .. | call .. | declaration .. | binary .. | unary ..
  | identifier .. | integer .. | real .. => by
    intro state after code lowered
    simp only [lowerStatement] at lowered
    obtain ⟨_, _, _, lowered⟩ := Lower.bind_eq_ok.1 lowered
    exact absurd lowered throw_ne_ok
theorem emitted_of_lowerStatements (frame : Frame) : (nodes : List Node) →
    ∀ ⦃state after : Lowering⦄ ⦃code : List Quad⦄,
    lowerStatements frame nodes state = .ok code after → frame.Emitted state after code
  | [] => by
    intro state after code lowered
    cases lowered
    exact (Frame.Computes.nothing frame state).emitted
  | node :: nodes => by
    intro state after code lowered
    rw [lowerStatements] at lowered
    obtain ⟨first, _, lowered₁, lowered⟩ := Lower.bind_eq_ok.1 lowered
    obtain ⟨second, _, lowered₂, lowered⟩ := Lower.bind_eq_ok.1 lowered
    cases lowered
    exact (emitted_of_lowerStatement frame node lowered₁).append
      (emitted_of_lowerStatements frame nodes lowered₂)
end

/-! ## Functions and programs -/

/-- The code of a function is that of its body, and the mark of its exit, which takes the first
label. -/
theorem lowerFunction_eq_ok {node : Node} {state after : Lowering} {code : FunctionCode}
    (lowered : node.lowerFunction state = .ok code after) :
    ∃ info returnType parameters body symbol top inner,
      node = function info returnType code.name parameters body ∧ info.scope = some top ∧
      state.table.lookupLocal Table.global code.name = some symbol ∧
      code.body.toList = inner ++ [.mark ⟨state.labels⟩ top] ∧
      Frame.Emitted ⟨symbol, top, ⟨state.labels⟩⟩ { state with labels := state.labels + 1 } after
        inner := by
  cases node with
  | function info returnType name parameters body =>
    rw [lowerFunction] at lowered
    split at lowered
    · cases lowered
    · obtain ⟨_, _, read, lowered⟩ := Lower.bind_eq_ok.1 lowered
      cases read
      obtain ⟨symbol, _, required, lowered⟩ := Lower.bind_eq_ok.1 lowered
      obtain ⟨known, rfl⟩ := Lower.require_eq_ok.1 required
      obtain ⟨top, _, required', lowered⟩ := Lower.bind_eq_ok.1 lowered
      obtain ⟨attached, rfl⟩ := Lower.require_eq_ok.1 required'
      obtain ⟨_, _, labelled, lowered⟩ := Lower.bind_eq_ok.1 lowered
      obtain ⟨rfl, rfl⟩ := freshLabel_eq_ok.1 labelled
      obtain ⟨_, _, required'', lowered⟩ := Lower.bind_eq_ok.1 lowered
      obtain ⟨_, rfl⟩ := Lower.require_eq_ok.1 required''
      obtain ⟨inner, _, lowered', lowered⟩ := Lower.bind_eq_ok.1 lowered
      cases lowered
      refine ⟨info, returnType, parameters, body, symbol, top, inner, rfl, ?_, ?_, rfl,
        emitted_of_lowerStatement _ body lowered'⟩
      · unfold scopeOf at attached
        split at attached
        · next found =>
          cases attached
          exact found
        · cases attached
      · unfold functionSymbol at known
        split at known
        · next found =>
          cases known
          exact found
        · cases known
  | _ => cases lowered

/-- Functions that are lowered one after the other, the state going from one to the next. -/
inductive LowersAll : (nodes : List Node) → (before : Lowering) → (codes : List FunctionCode) →
    (after : Lowering) → Prop
  | nil (state : Lowering) : LowersAll [] state [] state
  | cons {node : Node} {nodes : List Node} {code : FunctionCode} {codes : List FunctionCode}
      {before middle after : Lowering} (first : node.lowerFunction before = .ok code middle)
      (rest : LowersAll nodes middle codes after) :
      LowersAll (node :: nodes) before (code :: codes) after

theorem lowersAll_of_result {nodes : List Node} {state : Lowering} {codes : List FunctionCode}
    (lowered : (lowerFunctions nodes state).2.result = .ok codes) :
    LowersAll nodes state codes (lowerFunctions nodes state).1 := by
  induction nodes generalizing state codes with
  | nil =>
    cases lowered
    exact .nil state
  | cons node nodes ih =>
    rw [lowerFunctions] at lowered ⊢
    split at lowered
    · cases lowered
    · next code after first =>
      simp only [Traced.result_bind, Traced.result_report, ok_bind] at lowered
      obtain ⟨later, rest, isCodes⟩ := bind_eq_ok.1 lowered
      cases isCodes
      exact .cons first (ih rest)

/-- Only a program is lowered: its functions one after the other, both counters being zero at
first. -/
theorem lowersAll_of_lower {node : Node} {table : Table} {code : Code}
    (lowered : (node.lower table).2.result = .ok code) :
    ∃ info functions after, node = program info functions ∧
      LowersAll functions ⟨table, 0, 0⟩ code.functions after ∧
      (node.lower table).1 = after.table := by
  cases node with
  | program info functions =>
    simp only [lower, Traced.result_bind] at lowered
    obtain ⟨codes, lowered', isCode⟩ := bind_eq_ok.1 lowered
    cases isCode
    exact ⟨info, functions, _, rfl, lowersAll_of_result lowered', rfl⟩
  | _ => cases lowered

end Node
end MiniC
