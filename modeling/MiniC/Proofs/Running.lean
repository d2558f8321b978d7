import MiniC.Proofs.Code
import MiniC.Quad.Evaluation

/-!
# Steps of a run

One lemma for each quadruple, and how steps make up a run. A run that jumps forward only is the same
for every number of steps that is large enough, so what happens from some point on is stated for all
of these at once: it leads to another point, it ends, or it computes something on its way.
-/

namespace MiniC

open Lower (temporaryName)

/-! ## Arithmetic -/

namespace Alu

theorem toInt_bounds (a : Int32) : -2147483648 ≤ a.toInt ∧ a.toInt ≤ 2147483647 :=
  ⟨Int32.minValue_le_toInt a, Int32.toInt_le a⟩

theorem div?_eq (a b : Int32) : div? a b = BinaryOp.div.compute? a b := by
  unfold div? BinaryOp.compute?
  by_cases zero : b = 0
  · simp [zero]
  rw [if_neg zero]
  by_cases minusOne : b = -1
  · subst minusOne
    have quotient : (a.toInt64 / (-1 : Int32).toInt64).toInt = -a.toInt := by
      have bounds := toInt_bounds a
      have one : (-1 : Int32).toInt = -1 := by decide
      rw [Int64.toInt_div, Int32.toInt_toInt64, Int32.toInt_toInt64, one, Int.tdiv_neg, Int.tdiv_one]
      apply Int.bmod_eq_of_le <;> omega
    simp only [Int64.le_iff_toInt_le, quotient, Int32.toInt_toInt64]
    by_cases least : a = Int32.minValue
    · subst least
      decide
    · have bounds := toInt_bounds a
      have notLeast : a.toInt ≠ -2147483648 := fun same => least (Int32.toInt_inj.1 same)
      rw [if_pos, if_neg (by simp [least])]
      · refine congrArg some (Int32.toInt_inj.1 ?_)
        rw [Int64.toInt_toInt32, quotient, Int32.toInt_div]
        have one : (-1 : Int32).toInt = -1 := by decide
        rw [one, Int.tdiv_neg, Int.tdiv_one]
      · change -2147483648 ≤ -a.toInt ∧ -a.toInt ≤ 2147483647
        omega
  · have notMinusOne : b.toInt64 ≠ -1 := by
      intro same
      have same' := congrArg Int64.toInt32 same
      rw [Int32.toInt32_toInt64] at same'
      exact minusOne same'
    have quotient : (a.toInt64 / b.toInt64).toInt = (a / b).toInt := by
      rw [Int64.toInt_div_of_ne_right _ _ notMinusOne, Int32.toInt_div_of_ne_right _ _ minusOne,
        Int32.toInt_toInt64, Int32.toInt_toInt64]
    simp only [Int64.le_iff_toInt_le, quotient, Int32.toInt_toInt64]
    rw [if_pos ⟨Int32.minValue_le_toInt _, Int32.toInt_le _⟩,
      if_neg (by simp [zero, minusOne])]
    refine congrArg some (Int32.toInt_inj.1 ?_)
    rw [Int64.toInt_toInt32, quotient]
    have bounds := toInt_bounds (a / b)
    apply Int.bmod_eq_of_le <;> omega

/-- What the target computes for an operator. -/
theorem compute?_eq (op : BinaryOp) (a b : Int32) : op.compute? a b =
    match op with
    | .add => some (add a b)
    | .sub => some (sub a b)
    | .mul => some (mul a b)
    | .div => div? a b := by
  cases op with
  | add => simp [BinaryOp.compute?, add]
  | sub => simp [BinaryOp.compute?, sub]
  | mul => simp [BinaryOp.compute?, mul]
  | div => exact (div?_eq a b).symm

theorem neg_eq (a : Int32) : neg a = -a := by
  simp [neg]

end Alu

/-! ## Slots -/

/-- A slot of a frame with so many parameters and so many variables. -/
def Slot.Within (arity slots : Nat) : Slot → Prop
  | .parameter index => index < arity
  | .localVariable index => index < slots

theorem Slot.Within.mono {arity slots slots' : Nat} {slot : Slot} (within : slot.Within arity slots)
    (le : slots ≤ slots') : slot.Within arity slots' := by
  cases slot with
  | parameter index => exact within
  | localVariable index => exact Nat.lt_of_lt_of_le within le

namespace Activation

/-- The frame has so many parameters and so many variables. -/
structure Fits (arity slots : Nat) (frame : Activation) : Prop where
  parameters : frame.parameters.size = arity
  locals : frame.locals.size = slots

/-- The value in a slot. -/
def get (frame : Activation) (slot : Slot) : Int32 :=
  (frame.read? slot).getD 0

/-- The frame with another value in a slot. -/
def put (frame : Activation) (slot : Slot) (value : Int32) : Activation :=
  (frame.write? value slot).getD frame

variable {arity slots : Nat} {frame : Activation} {slot : Slot}

theorem read?_eq (fits : frame.Fits arity slots) (within : slot.Within arity slots) :
    frame.read? slot = some (frame.get slot) := by
  unfold get
  cases slot with
  | parameter index =>
    have lt : index < frame.parameters.size := by rw [fits.parameters]; exact within
    rw [read?, Array.getElem?_eq_getElem lt]
    rfl
  | localVariable index =>
    have lt : index < frame.locals.size := by rw [fits.locals]; exact within
    rw [read?, Array.getElem?_eq_getElem lt]
    rfl

theorem write?_eq (fits : frame.Fits arity slots) (within : slot.Within arity slots)
    (value : Int32) : frame.write? value slot = some (frame.put slot value) := by
  unfold put
  cases slot with
  | parameter index =>
    have lt : index < frame.parameters.size := by rw [fits.parameters]; exact within
    rw [write?, if_pos lt]
    rfl
  | localVariable index =>
    have lt : index < frame.locals.size := by rw [fits.locals]; exact within
    rw [write?, if_pos lt]
    rfl

theorem Fits.put (fits : frame.Fits arity slots) (slot : Slot) (value : Int32) :
    (frame.put slot value).Fits arity slots := by
  unfold Activation.put
  cases slot with
  | parameter index =>
    rw [write?]
    split
    · exact ⟨by rw [← fits.parameters]; exact Array.size_setIfInBounds, fits.locals⟩
    · exact fits
  | localVariable index =>
    rw [write?]
    split
    · exact ⟨fits.parameters, by rw [← fits.locals]; exact Array.size_setIfInBounds⟩
    · exact fits

theorem get_put (fits : frame.Fits arity slots) (within : slot.Within arity slots) (value : Int32)
    (other : Slot) : (frame.put slot value).get other =
      if other = slot then value else frame.get other := by
  have written := write?_eq fits within value
  cases slot with
  | parameter index =>
    have lt : index < frame.parameters.size := by rw [fits.parameters]; exact within
    rw [write?, if_pos lt, Option.some.injEq] at written
    rw [← written]
    cases other with
    | parameter index' =>
      simp only [get, read?, Array.getElem?_setIfInBounds, Slot.parameter.injEq, eq_comm, lt]
      split
      · simp
      · rfl
    | localVariable index' => rfl
  | localVariable index =>
    have lt : index < frame.locals.size := by rw [fits.locals]; exact within
    rw [write?, if_pos lt, Option.some.injEq] at written
    rw [← written]
    cases other with
    | parameter index' => rfl
    | localVariable index' =>
      simp only [get, read?, Array.getElem?_setIfInBounds, Slot.localVariable.injEq, eq_comm, lt]
      split
      · simp
      · rfl

end Activation

/-! ## Fields -/

namespace Quad

variable {table : Table} {frame : Activation} {quad : Quad} {field : Field} {name : String}
  {slot : Slot} {arity slots : Nat}

theorem locate_eq (found : table.slotAt quad.scope name = some slot) :
    quad.locate table name = .ok slot := by
  obtain ⟨symbol, known, stored⟩ := Option.bind_eq_some_iff.1 found
  unfold locate
  rw [known]
  dsimp only
  rw [stored]

theorem fetch_eq (named : quad.field? field = some (.name name))
    (found : table.slotAt quad.scope name = some slot) (fits : frame.Fits arity slots)
    (within : slot.Within arity slots) : quad.fetch table frame field = .ok (frame.get slot) := by
  unfold fetch Quad.name
  rw [named, ok_bind, locate_eq found, ok_bind, Activation.read?_eq fits within]
  rfl

theorem store_eq (named : quad.field? field = some (.name name))
    (found : table.slotAt quad.scope name = some slot) (fits : frame.Fits arity slots)
    (within : slot.Within arity slots) (value : Int32) :
    quad.store table frame field value = .ok (frame.put slot value) := by
  unfold store Quad.name
  rw [named, ok_bind, locate_eq found, ok_bind, Activation.write?_eq fits within]
  rfl

end Quad

/-- The name is stored in that slot of a frame with so many parameters and variables. -/
def Table.Stores (table : Table) (arity slots : Nat) (scope : ScopeId) (name : String)
    (slot : Slot) : Prop :=
  table.slotAt scope name = some slot ∧ slot.Within arity slots

theorem Table.Stores.mono {table : Table} {arity slots slots' : Nat} {scope : ScopeId}
    {name : String} {slot : Slot} (stored : table.Stores arity slots scope name slot)
    (le : slots ≤ slots') : table.Stores arity slots' scope name slot :=
  ⟨stored.1, stored.2.mono le⟩

/-! ## Places in the code -/

/-- The list has that part from `index` on. -/
def OccursAt {α : Type} (whole : List α) (index : Nat) (part : List α) : Prop :=
  part <+: whole.drop index

namespace OccursAt

variable {α : Type} {whole : List α} {index : Nat} {a : α} {first second : List α}

theorem left (present : OccursAt whole index (first ++ second)) : OccursAt whole index first :=
  (List.prefix_append first second).trans present

theorem right (present : OccursAt whole index (first ++ second)) :
    OccursAt whole (index + first.length) second := by
  obtain ⟨rest, parts⟩ := present
  refine ⟨rest, ?_⟩
  rw [← List.drop_drop, ← parts, List.append_assoc, List.drop_left]

theorem head (present : OccursAt whole index (a :: second)) : whole[index]? = some a := by
  obtain ⟨rest, parts⟩ := present
  have first : (whole.drop index)[0]? = some a := by
    rw [← parts]
    rfl
  rwa [List.getElem?_drop, Nat.add_zero] at first

theorem tail (present : OccursAt whole index (a :: second)) : OccursAt whole (index + 1) second :=
  show OccursAt whole (index + [a].length) second from right present

end OccursAt

/-- The body has that code from `pc` on. -/
def CodeAt (body : Array Quad) (pc : Nat) (code : List Quad) : Prop :=
  OccursAt body.toList pc code

namespace CodeAt

variable {body : Array Quad} {pc : Nat} {quad : Quad} {first second : List Quad}

theorem left (present : CodeAt body pc (first ++ second)) : CodeAt body pc first :=
  OccursAt.left present

theorem right (present : CodeAt body pc (first ++ second)) :
    CodeAt body (pc + first.length) second :=
  OccursAt.right present

theorem head (present : CodeAt body pc (quad :: second)) : body[pc]? = some quad := by
  rw [← Array.getElem?_toList]
  exact OccursAt.head present

theorem tail (present : CodeAt body pc (quad :: second)) : CodeAt body (pc + 1) second :=
  OccursAt.tail present

end CodeAt

/-! ## Runs -/

/-- What an activation runs in. -/
structure Running where
  routine : Routine
  table : Table
  limit : Nat
  callee : String → List Int32 → Traced Int32

namespace Running

/-- The result of a run from `p` on. -/
def result (running : Running) (steps : Nat) (p : Progress) : Except Error Int32 :=
  (running.routine.run running.table running.limit running.callee steps p).result

/-- A run that only goes forward gets from `p` to the end in so many steps. -/
def Enough (running : Running) (steps : Nat) (p : Progress) : Prop :=
  running.routine.body.size < p.pc + steps

/-- A run from `p` comes by `q`. -/
def Leads (running : Running) (p q : Progress) : Prop :=
  ∀ steps, running.Enough steps p →
    ∃ steps', running.Enough steps' q ∧ running.result steps p = running.result steps' q

/-- A run from `p` has that result. -/
def Ends (running : Running) (p : Progress) (result : Except Error Int32) : Prop :=
  ∀ steps, running.Enough steps p → running.result steps p = result

/-- A run from `p` fails as `result` does, or comes to where the value of `result` is at hand. -/
def Computes {α : Type} (running : Running) (p : Progress) (result : Except Error α)
    (good : α → Progress → Prop) : Prop :=
  match result with
  | .error error => running.Ends p (.error error)
  | .ok a => ∃ q, running.Leads p q ∧ good a q

variable {running : Running} {p q r : Progress}

theorem Leads.refl (running : Running) (p : Progress) : running.Leads p p :=
  fun steps enough => ⟨steps, enough, rfl⟩

theorem Leads.trans (first : running.Leads p q) (second : running.Leads q r) :
    running.Leads p r := by
  intro steps enough
  obtain ⟨steps', enough', same⟩ := first steps enough
  obtain ⟨steps'', enough'', same'⟩ := second steps' enough'
  exact ⟨steps'', enough'', same.trans same'⟩

theorem Leads.ends (leads : running.Leads p q) {result : Except Error Int32}
    (ends : running.Ends q result) : running.Ends p result := by
  intro steps enough
  obtain ⟨steps', enough', same⟩ := leads steps enough
  exact same.trans (ends steps' enough')

section Computes

variable {α β : Type} {result : Except Error α} {good good' : α → Progress → Prop}

theorem Leads.computes (leads : running.Leads p q) (computes : running.Computes q result good) :
    running.Computes p result good := by
  cases result with
  | error error => exact leads.ends computes
  | ok a =>
    obtain ⟨r, leads', isGood⟩ := computes
    exact ⟨r, leads.trans leads', isGood⟩

theorem Computes.bind {f : α → Except Error β} {after : β → Progress → Prop}
    (first : running.Computes p result good)
    (second : ∀ a q, good a q → running.Computes q (f a) after) :
    running.Computes p (result >>= f) after := by
  cases result with
  | error error => exact first
  | ok a =>
    obtain ⟨q, leads, isGood⟩ := first
    exact leads.computes (second a q isGood)

theorem Computes.follow (computes : running.Computes p result good)
    (next : ∀ a q, good a q → ∃ r, running.Leads q r ∧ good' a r) :
    running.Computes p result good' := by
  cases result with
  | error error => exact computes
  | ok a =>
    obtain ⟨q, leads, isGood⟩ := computes
    obtain ⟨r, leads', isGood'⟩ := next a q isGood
    exact ⟨r, leads.trans leads', isGood'⟩

theorem computes_ok {a : α} (isGood : good a p) : running.Computes p (.ok a) good :=
  ⟨p, .refl running p, isGood⟩

end Computes

/-! ## Single quadruples -/

theorem result_of_quad {quad : Quad} (found : running.routine.body[p.pc]? = some quad)
    (steps : Nat) : running.result (steps + 1) p =
      (running.routine.step running.table { p with pc := p.pc + 1 } quad >>= fun action =>
        match action with
        | .proceed q => running.result steps q
        | .call function arguments q => do
            let value ← (running.callee function arguments).result
            let q ← Routine.receive running.table q quad value
            running.result steps q) := by
  unfold result
  rw [Routine.run, found]
  dsimp only
  cases running.routine.step running.table { p with pc := p.pc + 1 } quad with
  | error error => rfl
  | ok action =>
    cases action with
    | proceed q => rfl
    | call function arguments q =>
      simp only [Traced.result_bind, Traced.result_report, ok_bind, Traced.result_ofExcept]

theorem enough_succ {quad : Quad} (found : running.routine.body[p.pc]? = some quad) {steps : Nat}
    (enough : running.Enough steps p) :
    ∃ steps', steps = steps' + 1 ∧ ∀ q : Progress, p.pc < q.pc → running.Enough steps' q := by
  have lt := (Array.getElem?_eq_some_iff.1 found).1
  unfold Enough at enough
  cases steps with
  | zero => omega
  | succ steps =>
    refine ⟨steps, rfl, fun q forward => ?_⟩
    unfold Enough
    omega

theorem leads_of_proceed {quad : Quad} (found : running.routine.body[p.pc]? = some quad)
    (stepped : running.routine.step running.table { p with pc := p.pc + 1 } quad = .ok (.proceed q))
    (forward : p.pc < q.pc) : running.Leads p q := by
  intro steps enough
  obtain ⟨steps', rfl, enough'⟩ := enough_succ found enough
  refine ⟨steps', enough' q forward, ?_⟩
  rw [result_of_quad found, stepped]
  rfl

theorem ends_of_error {quad : Quad} {error : Error}
    (found : running.routine.body[p.pc]? = some quad)
    (stepped : running.routine.step running.table { p with pc := p.pc + 1 } quad = .error error) :
    running.Ends p (.error error) := by
  intro steps enough
  obtain ⟨steps', rfl, _⟩ := enough_succ found enough
  rw [result_of_quad found, stepped]
  rfl

theorem computes_of_call {quad : Quad} {function : String} {arguments : List Int32}
    {next : Int32 → Progress} (found : running.routine.body[p.pc]? = some quad)
    (stepped : running.routine.step running.table { p with pc := p.pc + 1 } quad =
      .ok (.call function arguments q))
    (received : ∀ value, Routine.receive running.table q quad value = .ok (next value))
    (forward : ∀ value, p.pc < (next value).pc) :
    running.Computes p (running.callee function arguments).result fun value q => q = next value := by
  have run (steps : Nat) (enough : running.Enough steps p) : ∃ steps',
      (∀ value, running.Enough steps' (next value)) ∧ running.result steps p =
        ((running.callee function arguments).result >>= fun value =>
          running.result steps' (next value)) := by
    obtain ⟨steps', rfl, enough'⟩ := enough_succ found enough
    refine ⟨steps', fun value => enough' _ (forward value), ?_⟩
    rw [result_of_quad found, stepped, ok_bind]
    simp only [received, ok_bind]
  cases called : (running.callee function arguments).result with
  | error error =>
    intro steps enough
    obtain ⟨steps', _, same⟩ := run steps enough
    rw [same, called]
    rfl
  | ok value =>
    refine ⟨next value, fun steps enough => ?_, rfl⟩
    obtain ⟨steps', enough', same⟩ := run steps enough
    refine ⟨steps', enough' value, ?_⟩
    rw [same, called]
    rfl

/-- Behind the last quadruple the accumulator is the result. -/
theorem ends_at_end (past : p.pc = running.routine.body.size) :
    running.Ends p (.ok p.accumulator) := by
  intro steps enough
  unfold Enough at enough
  cases steps with
  | zero => omega
  | succ steps =>
    unfold result
    rw [Routine.run, Array.getElem?_eq_none (Nat.le_of_eq past.symm)]
    rfl

section Steps

variable {arity slots : Nat} {scope : ScopeId} {slot slot₁ slot₂ : Slot}
  (fits : p.frame.Fits arity slots)
include fits

theorem step_load (value : Int32) {result : String}
    (stored : running.table.Stores arity slots scope result slot) :
    running.routine.step running.table { p with pc := p.pc + 1 } (.load value result scope) =
      .ok (.proceed { p with pc := p.pc + 1, frame := p.frame.put slot value }) := by
  simp only [Routine.step, Quad.load, Quad.constant, Quad.field?, ok_bind]
  rw [Quad.store_eq rfl stored.1 fits stored.2]
  rfl

theorem step_assign {source target : String}
    (stored₁ : running.table.Stores arity slots scope source slot₁)
    (stored : running.table.Stores arity slots scope target slot) :
    running.routine.step running.table { p with pc := p.pc + 1 } (.assign source target scope) =
      .ok (.proceed { p with pc := p.pc + 1, frame := p.frame.put slot (p.frame.get slot₁) }) := by
  simp only [Routine.step, Quad.assign, Routine.unary]
  rw [Quad.fetch_eq rfl stored₁.1 fits stored₁.2, ok_bind,
    Quad.store_eq rfl stored.1 fits stored.2]
  rfl

theorem step_unary (op : UnaryOp) {operand result : String}
    (stored₁ : running.table.Stores arity slots scope operand slot₁)
    (stored : running.table.Stores arity slots scope result slot) :
    running.routine.step running.table { p with pc := p.pc + 1 } (.unary op operand result scope) =
      .ok (.proceed
        { p with pc := p.pc + 1, frame := p.frame.put slot (op.apply (p.frame.get slot₁)) }) := by
  cases op with
  | plus =>
    simp only [Routine.step, Quad.unary, Opcode.ofUnary, Routine.unary]
    rw [Quad.fetch_eq rfl stored₁.1 fits stored₁.2, ok_bind,
      Quad.store_eq rfl stored.1 fits stored.2]
    rfl
  | minus =>
    simp only [Routine.step, Quad.unary, Opcode.ofUnary, Routine.unary]
    rw [Quad.fetch_eq rfl stored₁.1 fits stored₁.2, ok_bind,
      Quad.store_eq rfl stored.1 fits stored.2, Alu.neg_eq]
    rfl

/-- A binary operator stores what it computes, and the run ends where there is no result. -/
theorem step_binary (op : BinaryOp) {lhs rhs result : String}
    (stored₁ : running.table.Stores arity slots scope lhs slot₁)
    (stored₂ : running.table.Stores arity slots scope rhs slot₂)
    (stored : running.table.Stores arity slots scope result slot) :
    running.routine.step running.table { p with pc := p.pc + 1 } (.binary op lhs rhs result scope) =
      match op.compute? (p.frame.get slot₁) (p.frame.get slot₂) with
      | some value => .ok (.proceed { p with pc := p.pc + 1, frame := p.frame.put slot value })
      | none => .error (.evaluation
          (.divisionFault (p.frame.get slot₁) (p.frame.get slot₂) running.routine.name)) := by
  have computes (f : Int32 → Int32 → Option Int32) (same : f = op.compute?) :
      running.routine.binary running.table { p with pc := p.pc + 1 }
        (.binary op lhs rhs result scope) f =
      match op.compute? (p.frame.get slot₁) (p.frame.get slot₂) with
      | some value => .ok (.proceed { p with pc := p.pc + 1, frame := p.frame.put slot value })
      | none => .error (.evaluation
          (.divisionFault (p.frame.get slot₁) (p.frame.get slot₂) running.routine.name)) := by
    unfold Routine.binary
    rw [Quad.fetch_eq rfl stored₁.1 fits stored₁.2, ok_bind,
      Quad.fetch_eq rfl stored₂.1 fits stored₂.2, ok_bind, same]
    cases op.compute? (p.frame.get slot₁) (p.frame.get slot₂) with
    | none => rfl
    | some value =>
      dsimp only
      rw [Quad.store_eq rfl stored.1 fits stored.2]
      rfl
  cases op with
  | add => exact computes _ (funext fun a => funext fun b => (Alu.compute?_eq .add a b).symm)
  | sub => exact computes _ (funext fun a => funext fun b => (Alu.compute?_eq .sub a b).symm)
  | mul => exact computes _ (funext fun a => funext fun b => (Alu.compute?_eq .mul a b).symm)
  | div => exact computes _ (funext fun a => funext fun b => (Alu.compute?_eq .div a b).symm)

theorem step_param {name : String} (stored : running.table.Stores arity slots scope name slot) :
    running.routine.step running.table { p with pc := p.pc + 1 } (.param name scope) =
      .ok (.proceed { p with pc := p.pc + 1, pushed := p.frame.get slot :: p.pushed }) := by
  simp only [Routine.step, Quad.param]
  rw [Quad.fetch_eq rfl stored.1 fits stored.2]
  rfl

theorem step_ret (label : Label) {name : String}
    (stored : running.table.Stores arity slots scope name slot) :
    running.routine.step running.table { p with pc := p.pc + 1 } (.ret label name scope) =
      match lastTarget? label running.routine.targets with
      | some index => .ok (.proceed { p with pc := index, accumulator := p.frame.get slot })
      | none => .error (.evaluation (.undefinedLabel label)) := by
  simp only [Routine.step, Quad.ret]
  rw [Quad.fetch_eq rfl stored.1 fits stored.2]
  simp only [Routine.target, Quad.label, Quad.field?, ok_bind]
  cases lastTarget? label running.routine.targets <;> rfl

theorem step_jumpIfNot (label : Label) {name : String}
    (stored : running.table.Stores arity slots scope name slot) :
    running.routine.step running.table { p with pc := p.pc + 1 } (.jumpIfNot name label scope) =
      if p.frame.get slot = 0 then
        match lastTarget? label running.routine.targets with
        | some index => .ok (.proceed { p with pc := index })
        | none => .error (.evaluation (.undefinedLabel label))
      else .ok (.proceed { p with pc := p.pc + 1 }) := by
  simp only [Routine.step, Quad.jumpIfNot]
  rw [Quad.fetch_eq rfl stored.1 fits stored.2]
  simp only [Routine.target, Quad.label, Quad.field?, ok_bind]
  split
  · cases lastTarget? label running.routine.targets <;> rfl
  · rfl

/-- The value of a call is received in its result. -/
theorem receive_call (callee : String) (count : Nat) {result : String} (value : Int32)
    (stored : running.table.Stores arity slots scope result slot) :
    Routine.receive running.table p (.call callee count result scope) value =
      .ok { p with frame := p.frame.put slot value, accumulator := value } := by
  unfold Routine.receive
  rw [Quad.store_eq rfl stored.1 fits stored.2]
  rfl

end Steps

theorem step_call (callee result : String) (scope : ScopeId) {arguments pushed : List Int32}
    (given : p.pushed = arguments ++ pushed) :
    running.routine.step running.table { p with pc := p.pc + 1 }
        (.call callee arguments.length result scope) =
      .ok (.call callee arguments { p with pc := p.pc + 1, pushed := pushed }) := by
  have enough : ¬ (arguments ++ pushed).length < arguments.length := by
    rw [List.length_append]
    omega
  simp only [Routine.step, Quad.call, Quad.name, Quad.count, Quad.field?, ok_bind, given, enough,
    if_false, List.take_left, List.drop_left]
  rfl

theorem step_jump (label : Label) (scope : ScopeId) :
    running.routine.step running.table { p with pc := p.pc + 1 } (.jump label scope) =
      match lastTarget? label running.routine.targets with
      | some index => .ok (.proceed { p with pc := index })
      | none => .error (.evaluation (.undefinedLabel label)) := by
  simp only [Routine.step, Quad.jump, Routine.target, Quad.label, Quad.field?, ok_bind]
  cases lastTarget? label running.routine.targets <;> rfl

section Quads

variable {arity slots : Nat} {scope : ScopeId} {slot slot₁ slot₂ : Slot}

theorem load_leads {value : Int32} {result : String}
    (found : running.routine.body[p.pc]? = some (.load value result scope))
    (fits : p.frame.Fits arity slots)
    (stored : running.table.Stores arity slots scope result slot) :
    running.Leads p { p with pc := p.pc + 1, frame := p.frame.put slot value } :=
  leads_of_proceed found (step_load fits value stored) (Nat.lt_succ_self _)

theorem assign_leads {source target : String}
    (found : running.routine.body[p.pc]? = some (.assign source target scope))
    (fits : p.frame.Fits arity slots)
    (stored₁ : running.table.Stores arity slots scope source slot₁)
    (stored : running.table.Stores arity slots scope target slot) :
    running.Leads p { p with pc := p.pc + 1, frame := p.frame.put slot (p.frame.get slot₁) } :=
  leads_of_proceed found (step_assign fits stored₁ stored) (Nat.lt_succ_self _)

theorem unary_leads {op : UnaryOp} {operand result : String}
    (found : running.routine.body[p.pc]? = some (.unary op operand result scope))
    (fits : p.frame.Fits arity slots)
    (stored₁ : running.table.Stores arity slots scope operand slot₁)
    (stored : running.table.Stores arity slots scope result slot) :
    running.Leads p
      { p with pc := p.pc + 1, frame := p.frame.put slot (op.apply (p.frame.get slot₁)) } :=
  leads_of_proceed found (step_unary fits op stored₁ stored) (Nat.lt_succ_self _)

theorem param_leads {name : String}
    (found : running.routine.body[p.pc]? = some (.param name scope))
    (fits : p.frame.Fits arity slots)
    (stored : running.table.Stores arity slots scope name slot) :
    running.Leads p { p with pc := p.pc + 1, pushed := p.frame.get slot :: p.pushed } :=
  leads_of_proceed found (step_param fits stored) (Nat.lt_succ_self _)

theorem call_computes {callee result : String} {arguments pushed : List Int32}
    (found : running.routine.body[p.pc]? = some (.call callee arguments.length result scope))
    (fits : p.frame.Fits arity slots)
    (stored : running.table.Stores arity slots scope result slot)
    (given : p.pushed = arguments ++ pushed) :
    running.Computes p (running.callee callee arguments).result fun value q =>
      q = ⟨p.pc + 1, value, pushed, p.frame.put slot value⟩ :=
  computes_of_call found (step_call callee result scope given)
    (fun value => receive_call (p := { p with pc := p.pc + 1, pushed := pushed }) fits callee
      arguments.length value stored)
    fun _ => Nat.lt_succ_self _

theorem mark_leads {label : Label} (found : running.routine.body[p.pc]? = some (.mark label scope)) :
    running.Leads p { p with pc := p.pc + 1 } :=
  leads_of_proceed found rfl (Nat.lt_succ_self _)

section Jumps

variable {label : Label} {index : Nat}
  (target : lastTarget? label running.routine.targets = some index) (forward : p.pc < index)
include target forward

theorem jump_leads (found : running.routine.body[p.pc]? = some (.jump label scope)) :
    running.Leads p { p with pc := index } := by
  refine leads_of_proceed found ?_ forward
  rw [step_jump, target]

theorem ret_leads {name : String}
    (found : running.routine.body[p.pc]? = some (.ret label name scope))
    (fits : p.frame.Fits arity slots)
    (stored : running.table.Stores arity slots scope name slot) :
    running.Leads p { p with pc := index, accumulator := p.frame.get slot } := by
  refine leads_of_proceed found ?_ forward
  rw [step_ret fits label stored, target]

theorem jumpIfNot_leads {name : String}
    (found : running.routine.body[p.pc]? = some (.jumpIfNot name label scope))
    (fits : p.frame.Fits arity slots)
    (stored : running.table.Stores arity slots scope name slot) :
    running.Leads p { p with pc := if p.frame.get slot = 0 then index else p.pc + 1 } := by
  refine leads_of_proceed found ?_ ?_
  · rw [step_jumpIfNot fits label stored, target]
    dsimp only
    split <;> rfl
  · dsimp only
    split
    · exact forward
    · exact Nat.lt_succ_self _

end Jumps
end Quads
end Running

/-! ## Labels -/

/-- Every mark is where its label leads to. -/
def Routine.Placed (routine : Routine) : Prop :=
  ∀ {index label scope}, routine.body[index]? = some (.mark label scope) →
    lastTarget? label routine.targets = some index

/-- The labels that `code` marks are found in `targets`, where it follows `base` other quadruples. -/
structure PlacesLabels (base : Nat) (code : List Quad) (targets : List (Label × Nat)) : Prop where
  collected : labelTargets base code = .ok targets
  absent : ∀ label ∉ marks code, lastTarget? label targets = none
  placed : ∀ index label scope, code[index]? = some (.mark label scope) →
    lastTarget? label targets = some (base + index)

theorem PlacesLabels.nil (base : Nat) : PlacesLabels base [] [] where
  collected := rfl
  absent := fun _ _ => rfl
  placed := fun _ _ _ found => by cases found

theorem PlacesLabels.cons_other {base : Nat} {quad : Quad} {code : List Quad}
    {targets : List (Label × Nat)} (places : PlacesLabels (base + 1) code targets)
    (notLabel : quad.op ≠ .label) : PlacesLabels base (quad :: code) targets where
  collected := by
    rw [labelTargets]
    split
    · next isLabel => exact absurd isLabel notLabel
    · exact places.collected
  absent := fun label missing => places.absent label fun marked => missing <| by
    rw [marks_cons]
    exact List.mem_append_right _ marked
  placed := by
    intro index label scope found
    cases index with
    | zero =>
      cases found
      exact absurd rfl notLabel
    | succ index =>
      rw [places.placed index label scope found]
      exact congrArg some (by omega)

/-- The last mark of a label counts, and so the label of `quad` must not be marked again. -/
theorem PlacesLabels.cons_mark {base : Nat} {quad : Quad} {code : List Quad} {label : Label}
    {targets : List (Label × Nat)} (places : PlacesLabels (base + 1) code targets)
    (marked : quad.marked? = some label) (unmarked : label ∉ marks code) :
    PlacesLabels base (quad :: code) ((label, base) :: targets) where
  collected := by
    obtain ⟨isLabel, operand⟩ := Quad.marked?_eq_some_iff.1 marked
    have read : quad.label .operand1 = .ok label := by
      simp only [Quad.label, Quad.field?, operand]
    rw [labelTargets, isLabel]
    dsimp only
    rw [read, ok_bind, places.collected]
    rfl
  absent := by
    intro other missing
    rw [marks_cons, marked] at missing
    have missing' : other ≠ label ∧ other ∉ marks code := by simpa using missing
    rw [lastTarget?, places.absent other missing'.2]
    exact if_neg fun same => missing'.1 same.symm
  placed := by
    intro index other scope found
    cases index with
    | zero =>
      cases found
      cases marked
      rw [lastTarget?, places.absent _ unmarked]
      exact if_pos rfl
    | succ index =>
      rw [lastTarget?, places.placed index other scope found]
      exact congrArg some (by omega)

/-- Labels are found if every quadruple that marks one is well formed, and no label is marked
twice. -/
theorem exists_placesLabels {code : List Quad}
    (wellFormed : ∀ quad ∈ code, quad.op = .label → quad.marked?.isSome)
    (distinct : (marks code).Nodup) (base : Nat) : ∃ targets, PlacesLabels base code targets := by
  induction code generalizing base with
  | nil => exact ⟨[], .nil base⟩
  | cons quad code ih =>
    obtain ⟨isWellFormed, areWellFormed⟩ := List.forall_mem_cons.1 wellFormed
    rw [marks_cons] at distinct
    obtain ⟨targets, places⟩ := ih areWellFormed (List.nodup_append.1 distinct).2.1 (base + 1)
    cases marked : quad.marked? with
    | none =>
      refine ⟨targets, places.cons_other fun isLabel => ?_⟩
      have isMarked := isWellFormed isLabel
      rw [marked] at isMarked
      cases isMarked
    | some label =>
      rw [marked] at distinct
      exact ⟨_, places.cons_mark marked (List.nodup_cons.1 distinct).1⟩

end MiniC
