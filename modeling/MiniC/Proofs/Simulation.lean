import MiniC.Proofs.Checks
import MiniC.Proofs.Lowering
import MiniC.Proofs.Running

/-!
# Code does what its tree means

A run of the code of an expression or a statement follows its meaning. While the code of a part
runs, the slots of the declared variables hold the environment of the interpreter, the variables
that are declared later are still zero, and temporaries that were set before are left alone. At the
end of a statement the run stands behind its code, or at the exit of the function if a value was
returned.
-/

namespace MiniC

open Lower (temporaryName)

/-! ## Frames that agree -/

/-- The frames have the same values in their parameters and their first `below` variables. -/
def Activation.Agrees (arity below : Nat) (frame frame' : Activation) : Prop :=
  ∀ slot, Slot.Within arity below slot → frame'.get slot = frame.get slot

namespace Activation.Agrees

variable {arity below below' slots : Nat} {frame frame' frame'' : Activation}

theorem refl (arity below : Nat) (frame : Activation) : frame.Agrees arity below frame :=
  fun _ _ => rfl

theorem mono (agrees : frame.Agrees arity below' frame') (le : below ≤ below') :
    frame.Agrees arity below frame' :=
  fun slot within => agrees slot (within.mono le)

theorem trans (agrees : frame.Agrees arity below frame')
    (agrees' : frame'.Agrees arity below frame'') : frame.Agrees arity below frame'' :=
  fun slot within => (agrees' slot within).trans (agrees slot within)

/-- Setting a variable from `below` on changes nothing before it. -/
theorem put (agrees : frame.Agrees arity below frame') (fits : frame'.Fits arity slots)
    {index : Nat} (lt : index < slots) (le : below ≤ index) (value : Int32) :
    frame.Agrees arity below (frame'.put (.localVariable index) value) := by
  intro slot within
  rw [Activation.get_put fits (show Slot.Within arity slots (.localVariable index) from lt)]
  rw [if_neg, agrees slot within]
  rintro rfl
  exact absurd (show index < below from within) (Nat.not_lt_of_le le)

end Activation.Agrees

/-! ## What is stored where -/

/-- The slots of the names that are used in `scope`: declared names as the layout says, and
temporaries from number `first` on behind all declared variables. -/
structure View (table : Table) (arity locals temporaries first : Nat) (scope : ScopeId)
    (layout : Layout) : Prop where
  lays : table.Lays scope layout
  within : ∀ slot ∈ layout.bounds, Slot.Within arity locals slot
  temporaries : ∀ k < temporaries,
    table.slotAt scope (temporaryName (first + k)) = some (.localVariable (locals + k))

/-- In all scopes of a function, temporaries from number `first` on are stored behind all declared
variables. -/
def Table.Temporaries (table : Table) (top : ScopeId) (locals temporaries first : Nat) : Prop :=
  ∀ s, table.Reaches s top → ∀ k < temporaries,
    table.slotAt s (temporaryName (first + k)) = some (.localVariable (locals + k))

/-- The slots of a layout are different ones, with `count` variables among them at most. -/
structure Layout.Below (arity count : Nat) (layout : Layout) : Prop where
  within : ∀ slot ∈ Blocks.bounds layout, Slot.Within arity count slot
  distinct : (Blocks.bounds layout).Nodup

theorem Layout.Below.mono {arity count count' : Nat} {layout : Layout}
    (below : layout.Below arity count) (le : count ≤ count') : layout.Below arity count' :=
  ⟨fun slot member => (below.within slot member).mono le, below.distinct⟩

theorem Table.Temporaries.view {table : Table} {top scope : ScopeId}
    {arity locals temporaries first count : Nat} {layout : Layout}
    (known : table.Temporaries top locals temporaries first) (lays : table.Lays scope layout)
    (reaches : table.Reaches scope top) (below : layout.Below arity count) (le : count ≤ locals) :
    View table arity locals temporaries first scope layout :=
  ⟨lays, fun slot member => (below.within slot member).mono le, known scope reaches⟩

namespace View

variable {table : Table} {arity locals temporaries first : Nat} {scope : ScopeId} {layout : Layout}
  {functions : String → Option Nat}

theorem stored_name (view : View table arity locals temporaries first scope layout) {name : String}
    (isName : IsIdentifier name) (inSight : InSight name layout.names) :
    ∃ slot, layout.find? name = some slot ∧ table.Stores arity locals scope name slot := by
  obtain ⟨slot, found⟩ := Option.isSome_iff_exists.1 ((Blocks.isSome_find? name layout).2 inSight)
  exact ⟨slot, found, (view.lays.slotAt name isName).trans found,
    view.within slot (Blocks.mem_bounds_of_find? found)⟩

theorem stored_temporary (view : View table arity locals temporaries first scope layout) {k : Nat}
    (lt : k < temporaries) :
    table.Stores arity (locals + (k + 1)) scope (temporaryName (first + k))
      (.localVariable (locals + k)) :=
  ⟨view.temporaries k lt, show locals + k < locals + (k + 1) by omega⟩

theorem target (view : View table arity locals temporaries first scope layout) {k : Nat}
    {name : String} (lt : k < temporaries) (isName : name = temporaryName (first + k)) :
    table.Stores arity (locals + temporaries) scope name (.localVariable (locals + k)) := by
  rw [isName]
  exact ⟨view.temporaries k lt, show locals + k < locals + temporaries by omega⟩

/-- The value of an expression is in a declared variable or one of its own temporaries. -/
theorem stored_value (view : View table arity locals temporaries first scope layout) {node : Node}
    {i : Nat} (inScope : node.ValueIn scope) (integral : node.ValueIntegral)
    (named : node.ValueNamed functions layout.names) (le : i + node.temporaryCount ≤ temporaries) :
    ∃ slot, table.Stores arity (locals + (i + node.temporaryCount)) scope
      (node.valueName (first + i)) slot := by
  cases node with
  | identifier info name =>
    obtain ⟨slot, _, stored⟩ := view.stored_name inScope.2 named
    exact ⟨slot, stored.1, stored.2.mono (Nat.le_add_right _ _)⟩
  | integer info value => exact ⟨_, view.stored_temporary le⟩
  | real info value => exact integral.elim
  | unary info op operand =>
    have stored := view.stored_temporary (k := i + operand.temporaryCount) le
    rw [← Nat.add_assoc first] at stored
    exact ⟨_, stored⟩
  | binary info op lhs rhs =>
    have stored := view.stored_temporary (k := i + (lhs.temporaryCount + rhs.temporaryCount)) le
    rw [← Nat.add_assoc first, ← Nat.add_assoc (first + i)] at stored
    exact ⟨_, stored⟩
  | call info callee arguments =>
    have stored := view.stored_temporary (k := i + Node.temporaryCounts arguments) le
    rw [← Nat.add_assoc first] at stored
    exact ⟨_, stored⟩
  | _ => exact inScope.elim

end View

/-! ## Expressions -/

/-- The name holds that value. -/
def Table.Shows (table : Table) (frame : Activation) (scope : ScopeId) (name : String)
    (value : Int32) : Prop :=
  ∀ slot, table.slotAt scope name = some slot → frame.get slot = value

/-- Where a run stands when it is through with `length` quadruples that may change variables from
`below` on. -/
structure Progress.Passed (arity slots below length : Nat) (p : Progress) (last : Int32)
    (q : Progress) : Prop where
  pc : q.pc = p.pc + length
  accumulator : q.accumulator = last
  pushed : q.pushed = p.pushed
  fits : q.frame.Fits arity slots
  agrees : p.frame.Agrees arity below q.frame

theorem Progress.Passed.trans {arity slots below below' length length' : Nat} {p q r : Progress}
    {last last' : Int32} (passed : p.Passed arity slots below length last q)
    (passed' : q.Passed arity slots below' length' last' r) (le : below ≤ below') :
    p.Passed arity slots below (length + length') last' r where
  pc := by
    rw [passed'.pc, passed.pc, Nat.add_assoc]
  accumulator := passed'.accumulator
  pushed := passed'.pushed.trans passed.pushed
  fits := passed'.fits
  agrees := passed.agrees.trans (passed'.agrees.mono le)

/-- The code of an expression computes its value, wherever it stands and whatever number its
temporaries start with. -/
def View.Computes {running : Running} {arity locals temporaries first : Nat} {scope : ScopeId}
    {layout : Layout} (_ : View running.table arity locals temporaries first scope layout)
    (functions : String → Option Nat) (calls : Calls) (node : Node) : Prop :=
  ∀ ⦃i : Nat⦄ ⦃p : Progress⦄, node.ValueIn scope → node.ValueIntegral →
    node.ValueNamed functions layout.names → i + node.temporaryCount ≤ temporaries →
    CodeAt running.routine.body p.pc (node.valueCode scope (first + i)) →
    p.frame.Fits arity (locals + temporaries) →
    running.Computes p
      (node.evaluate calls running.routine.name (layout.image p.frame.get) p.accumulator)
      fun result q =>
        p.Passed arity (locals + temporaries) (locals + i)
          (node.valueCode scope (first + i)).length result.2 q ∧
        running.table.Shows q.frame scope (node.valueName (first + i)) result.1

/-- The code of some expressions computes their values, and all of them are there at its end. -/
def View.ComputesAll {running : Running} {arity locals temporaries first : Nat} {scope : ScopeId}
    {layout : Layout} (_ : View running.table arity locals temporaries first scope layout)
    (functions : String → Option Nat) (calls : Calls) (nodes : List Node) : Prop :=
  ∀ ⦃i : Nat⦄ ⦃p : Progress⦄, Node.ValuesIn scope nodes → Node.ValuesIntegral nodes →
    Node.ValuesNamed functions layout.names nodes → i + Node.temporaryCounts nodes ≤ temporaries →
    CodeAt running.routine.body p.pc (Node.valueCodes scope (first + i) nodes) →
    p.frame.Fits arity (locals + temporaries) →
    running.Computes p
      (Node.evaluateAll calls running.routine.name (layout.image p.frame.get) nodes p.accumulator)
      fun result q =>
        p.Passed arity (locals + temporaries) (locals + i)
          (Node.valueCodes scope (first + i) nodes).length result.2 q ∧
        List.Forall₂ (fun name value => ∃ slot,
          running.table.Stores arity (locals + temporaries) scope name slot ∧
            q.frame.get slot = value) (Node.valueNames (first + i) nodes) result.1

namespace Node

section Values

variable {running : Running} {arity locals temporaries first : Nat} {scope : ScopeId}
  {layout : Layout} {functions : String → Option Nat} {calls : Calls}

/-- Frames that agree on the declared variables stand for the same environment. -/
theorem image_eq {table : Table} (view : View table arity locals temporaries first scope layout)
    {frame frame' : Activation} {below : Nat} (agrees : frame.Agrees arity below frame')
    (le : locals ≤ below) : layout.image frame'.get = layout.image frame.get := by
  refine List.map_congr_left fun block inLayout => List.map_congr_left fun entry inBlock => ?_
  have bound : entry.2 ∈ layout.bounds :=
    List.mem_flatMap.2 ⟨block, inLayout, List.mem_map_of_mem inBlock⟩
  rw [agrees entry.2 ((view.within _ bound).mono le)]

/-- An expression ends with its own temporary, which is then set. -/
theorem passed_put {p q : Progress} {table : Table} {k i length : Nat} {last value last' : Int32}
    {name : String}
    (view : View table arity locals temporaries first scope layout) (lt : k < temporaries)
    (le : i ≤ k) (isName : name = temporaryName (first + k))
    (passed : p.Passed arity (locals + temporaries) (locals + i) length last q)
    {r : Progress} (pc : r.pc = q.pc + 1) (accumulator : r.accumulator = last')
    (pushed : r.pushed = q.pushed)
    (frame : r.frame = q.frame.put (.localVariable (locals + k)) value) :
    p.Passed arity (locals + temporaries) (locals + i) (length + 1) last' r ∧
      table.Shows r.frame scope name value := by
  have lt' : locals + k < locals + temporaries := by omega
  refine ⟨⟨?_, accumulator, pushed.trans passed.pushed, ?_, ?_⟩, ?_⟩
  · rw [pc, passed.pc, Nat.add_assoc]
  · rw [frame]
    exact passed.fits.put _ _
  · rw [frame]
    exact passed.agrees.put passed.fits lt' (by omega) value
  · intro slot found
    rw [isName, view.temporaries k lt] at found
    cases found
    rw [frame, Activation.get_put passed.fits
      (show Slot.Within arity (locals + temporaries) (.localVariable (locals + k)) from lt'), if_pos rfl]

/-- Pushing values one after the other. -/
theorem pushes_lead {names : List String} {values : List Int32} : ∀ {p : Progress},
    p.frame.Fits arity (locals + temporaries) →
    CodeAt running.routine.body p.pc (names.map (Quad.param · scope)) →
    List.Forall₂ (fun name value => ∃ slot,
      running.table.Stores arity (locals + temporaries) scope name slot ∧
        p.frame.get slot = value) names values →
    running.Leads p { p with pc := p.pc + names.length, pushed := values.reverse ++ p.pushed } := by
  induction names generalizing values with
  | nil =>
    intro p _ _ shown
    cases shown
    exact .refl running p
  | cons name names ih =>
    intro p fits present shown
    cases shown with
    | cons isShown areShown =>
      obtain ⟨slot, stored, rfl⟩ := isShown
      have leads := Running.param_leads present.head fits stored
      refine leads.trans ?_
      have rest := ih (p := { p with pc := p.pc + 1, pushed := p.frame.get slot :: p.pushed })
        fits present.tail areShown
      have count : p.pc + 1 + names.length = p.pc + (names.length + 1) := by omega
      simpa only [List.length_cons, List.reverse_cons, List.append_assoc, List.singleton_append,
        count] using rest

theorem identifier_computes (view : View running.table arity locals temporaries first scope layout)
    (info : Info) (name : String) :
    view.Computes functions calls (identifier info name) := by
  rintro i p ⟨_, isName⟩ _ named le present fits
  obtain ⟨slot, found, stored⟩ := view.stored_name isName named
  rw [evaluate, Blocks.find?_image, found]
  refine Running.computes_ok ⟨⟨rfl, rfl, rfl, fits, .refl _ _ _⟩, fun other found' => ?_⟩
  rw [valueName, stored.1] at found'
  cases found'
  rfl

theorem integer_computes (view : View running.table arity locals temporaries first scope layout)
    (info : Info) (value : Int32) :
    view.Computes functions calls (integer info value) := by
  intro i p inScope _ _ lt present fits
  have leads := Running.load_leads present.head fits (view.target lt rfl)
  rw [evaluate]
  refine leads.computes (Running.computes_ok ?_)
  exact passed_put view lt (Nat.le_refl _) rfl
    (show p.Passed _ _ _ 0 p.accumulator p from ⟨rfl, rfl, rfl, fits, .refl _ _ _⟩)
    rfl rfl rfl rfl

theorem unary_computes (view : View running.table arity locals temporaries first scope layout)
    (info : Info) (op : UnaryOp) {operand : Node}
    (computes : view.Computes functions calls operand) :
    view.Computes functions calls (unary info op operand) := by
  rintro i p ⟨_, inScope⟩ integral named le present fits
  have lt : i + operand.temporaryCount < temporaries := le
  rw [valueCode] at present
  rw [evaluate]
  refine (computes inScope integral named (Nat.le_of_lt lt) present.left fits).bind
    fun result q good => ?_
  obtain ⟨passed, shows⟩ := good
  obtain ⟨slot, stored⟩ := view.stored_value inScope integral named (Nat.le_of_lt lt)
  have isName : (unary info op operand).valueName (first + i) =
      temporaryName (first + (i + operand.temporaryCount)) := by
    rw [valueName, Nat.add_assoc]
  have found := present.right
  rw [← passed.pc] at found
  have leads := Running.unary_leads found.head passed.fits (stored.mono (by omega))
    (view.target lt isName)
  refine leads.computes (Running.computes_ok ?_)
  rw [valueCode, List.length_append, List.length_singleton]
  refine passed_put view lt (Nat.le_add_right _ _) isName passed rfl passed.accumulator rfl ?_
  rw [shows slot stored.1]

theorem binary_computes (view : View running.table arity locals temporaries first scope layout)
    (info : Info) (op : BinaryOp) {lhs rhs : Node}
    (computes₁ : view.Computes functions calls lhs)
    (computes₂ : view.Computes functions calls rhs) :
    view.Computes functions calls (binary info op lhs rhs) := by
  rintro i p ⟨_, inScope, inScope'⟩ ⟨integral, integral'⟩ ⟨named, named'⟩ le present fits
  have lt : i + (lhs.temporaryCount + rhs.temporaryCount) < temporaries := le
  have le₁ : i + lhs.temporaryCount ≤ temporaries := by omega
  have le₂ : i + lhs.temporaryCount + rhs.temporaryCount ≤ temporaries := by omega
  rw [valueCode] at present
  rw [evaluate]
  refine (computes₁ inScope integral named le₁ present.left fits).bind fun result₁ q₁ good₁ => ?_
  obtain ⟨passed₁, shows₁⟩ := good₁
  have present₂ := present.right
  rw [← passed₁.pc, Nat.add_assoc first] at present₂
  dsimp only
  rw [← passed₁.accumulator, ← image_eq view passed₁.agrees (Nat.le_add_right _ _)]
  refine (computes₂ inScope' integral' named' le₂ present₂.left passed₁.fits).bind
    fun result₂ q₂ good₂ => ?_
  obtain ⟨passed₂, shows₂⟩ := good₂
  obtain ⟨slot₁, stored₁⟩ := view.stored_value inScope integral named le₁
  obtain ⟨slot₂, stored₂⟩ := view.stored_value inScope' integral' named' le₂
  have value₁ : q₂.frame.get slot₁ = result₁.1 :=
    (passed₂.agrees slot₁ stored₁.2).trans (shows₁ slot₁ stored₁.1)
  have value₂ : q₂.frame.get slot₂ = result₂.1 := shows₂ slot₂ stored₂.1
  have isName : (binary info op lhs rhs).valueName (first + i) =
      temporaryName (first + (i + (lhs.temporaryCount + rhs.temporaryCount))) := by
    rw [valueName, Nat.add_assoc first, Nat.add_assoc first, Nat.add_assoc i]
  have found := present₂.right
  rw [← passed₂.pc] at found
  have step := Running.step_binary passed₂.fits op
    (stored₁.mono (by omega)) (stored₂.mono (by omega))
    (view.target lt isName)
  rw [value₁, value₂] at step
  have passed := passed₁.trans passed₂ (by omega)
  cases computed : op.compute? result₁.1 result₂.1 with
  | none =>
    rw [computed] at step
    exact Running.ends_of_error found.head step
  | some value =>
    rw [computed] at step
    have leads := Running.leads_of_proceed found.head step (Nat.lt_succ_self _)
    refine leads.computes (Running.computes_ok ?_)
    rw [valueCode, List.length_append, List.length_append, List.length_singleton,
      ← Nat.add_assoc, Nat.add_assoc first]
    exact passed_put view lt (Nat.le_add_right _ _) isName passed rfl passed₂.accumulator rfl rfl

/-- Arguments are computed and pushed, then the call answers as the interpreter's does. -/
theorem call_computes (view : View running.table arity locals temporaries first scope layout)
    (answers : ∀ function arguments, (running.callee function arguments).result =
      calls function arguments) (info : Info) (callee : Node) {arguments : List Node}
    (computes : view.ComputesAll functions calls arguments) :
    view.Computes functions calls (call info callee arguments) := by
  rintro i p ⟨_, calleeIn, inScope⟩ integral named le present fits
  cases callee with
  | identifier calleeInfo name =>
    have lt : i + temporaryCounts arguments < temporaries := le
    rw [valueCode] at present
    rw [evaluate]
    refine (computes inScope integral named.2 (Nat.le_of_lt lt) present.left fits).bind
      fun result q good => ?_
    obtain ⟨passed, shown⟩ := good
    have sameLength : result.1.length = arguments.length := by
      rw [← shown.length_eq, length_valueNames]
    have present' := present.right
    rw [← passed.pc] at present'
    have pushes := pushes_lead passed.fits present'.left (List.forall₂_reverse_iff.2 shown)
    rw [List.reverse_reverse] at pushes
    have found := present'.right.head
    rw [List.length_map, ← sameLength] at found
    have isName : (call info (identifier calleeInfo name) arguments).valueName (first + i) =
        temporaryName (first + (i + temporaryCounts arguments)) := by
      rw [valueName, Nat.add_assoc]
    let pushed : Progress := { q with
      pc := q.pc + (valueNames (first + i) arguments).reverse.length
      pushed := result.1 ++ q.pushed }
    have calls := Running.call_computes (p := pushed) found passed.fits (view.target lt isName) rfl
    rw [answers] at calls
    refine pushes.computes (calls.bind fun value r isNext => Running.computes_ok ?_)
    subst isNext
    have through : p.Passed arity (locals + temporaries) (locals + i)
        ((valueCodes scope (first + i) arguments).length +
          (valueNames (first + i) arguments).reverse.length) q.accumulator
        { pushed with pushed := q.pushed } :=
      ⟨by rw [← Nat.add_assoc, ← passed.pc], rfl, passed.pushed, passed.fits, passed.agrees⟩
    rw [valueCode, List.length_append, List.length_append, List.length_singleton, List.length_map,
      ← Nat.add_assoc]
    exact passed_put view lt (Nat.le_add_right _ _) isName through rfl rfl rfl rfl
  | _ => exact calleeIn.elim

theorem nil_compute (view : View running.table arity locals temporaries first scope layout) :
    view.ComputesAll functions calls [] := by
  intro i p _ _ _ _ _ fits
  exact Running.computes_ok ⟨⟨rfl, rfl, rfl, fits, .refl _ _ _⟩, .nil⟩

theorem cons_compute (view : View running.table arity locals temporaries first scope layout)
    {node : Node} {nodes : List Node} (computes : view.Computes functions calls node)
    (computes' : view.ComputesAll functions calls nodes) :
    view.ComputesAll functions calls (node :: nodes) := by
  rintro i p ⟨inScope, inScope'⟩ ⟨integral, integral'⟩ ⟨named, named'⟩ le present fits
  rw [temporaryCounts] at le
  have le₁ : i + node.temporaryCount ≤ temporaries := by omega
  have le₂ : i + node.temporaryCount + temporaryCounts nodes ≤ temporaries := by omega
  rw [valueCodes] at present
  rw [evaluateAll]
  refine (computes inScope integral named le₁ present.left fits).bind
    fun result₁ q₁ good₁ => ?_
  obtain ⟨passed₁, shows₁⟩ := good₁
  have present₂ := present.right
  rw [← passed₁.pc, Nat.add_assoc first] at present₂
  dsimp only
  rw [← passed₁.accumulator, ← image_eq view passed₁.agrees (Nat.le_add_right _ _)]
  refine (computes' inScope' integral' named' le₂ present₂ passed₁.fits).bind
    fun result₂ q₂ good₂ => ?_
  obtain ⟨passed₂, shown₂⟩ := good₂
  obtain ⟨slot, stored⟩ := view.stored_value inScope integral named le₁
  refine Running.computes_ok ⟨?_, .cons ⟨slot, (stored.mono (by omega)), ?_⟩ ?_⟩
  · rw [valueCodes, List.length_append, Nat.add_assoc first]
    exact passed₁.trans passed₂ (by omega)
  · exact (passed₂.agrees slot stored.2).trans (shows₁ slot stored.1)
  · rw [Nat.add_assoc first]
    exact shown₂

mutual
/-- The code of an expression computes its value. -/
theorem value_computes (view : View running.table arity locals temporaries first scope layout)
    (answers : ∀ function arguments, (running.callee function arguments).result =
      calls function arguments) : (node : Node) → view.Computes functions calls node
  | identifier info name => identifier_computes view info name
  | integer info value => integer_computes view info value
  | unary info op operand => unary_computes view info op (value_computes view answers operand)
  | binary info op lhs rhs =>
    binary_computes view info op (value_computes view answers lhs) (value_computes view answers rhs)
  | call info callee arguments =>
    call_computes view answers info callee (values_compute view answers arguments)
  | real .. => fun _ _ _ integral => integral.elim
  | empty .. | program .. | function .. | parameter .. | returnValue .. | block .. | declaration ..
  | assignment .. | ifThen .. | ifElse .. => fun _ _ inScope => inScope.elim
theorem values_compute (view : View running.table arity locals temporaries first scope layout)
    (answers : ∀ function arguments, (running.callee function arguments).result =
      calls function arguments) : (nodes : List Node) → view.ComputesAll functions calls nodes
  | [] => nil_compute view
  | node :: nodes =>
    cons_compute view (value_computes view answers node) (values_compute view answers nodes)
end

end Values
end Node

/-! ## Layouts -/

theorem map_snd_slotBlock (make : Nat → Slot) (names : List String) (index : Nat) :
    (slotBlock make names index).map (·.2) = (List.range' index names.length).map make := by
  induction names generalizing index with
  | nil => rfl
  | cons name names ih =>
    rw [slotBlock, List.map_cons, ih, List.length_cons, List.range'_succ, List.map_cons]

theorem bounds_cons_slotBlock (make : Nat → Slot) (names : List String) (index : Nat)
    (layout : Layout) : Blocks.bounds (slotBlock make names index :: layout) =
      (List.range' index names.length).map make ++ layout.bounds := by
  rw [← map_snd_slotBlock]
  rfl

/-- The variables of a block come behind those that were declared before. -/
theorem Layout.Below.block {arity count : Nat} {layout : Layout} (below : layout.Below arity count)
    (names : List String) : Layout.Below arity (count + names.length)
      (slotBlock .localVariable names count :: layout) where
  within := by
    intro slot member
    rw [bounds_cons_slotBlock] at member
    rcases List.mem_append.1 member with new | old
    · obtain ⟨index, inRange, rfl⟩ := List.mem_map.1 new
      have bounds := List.mem_range'_1.1 inRange
      exact bounds.2
    · exact (below.within slot old).mono (Nat.le_add_right _ _)
  distinct := by
    rw [bounds_cons_slotBlock]
    refine List.nodup_append.2 ⟨?_, below.distinct, ?_⟩
    · exact List.Pairwise.map Slot.localVariable
        (fun _ _ differ same => differ (Slot.localVariable.inj same)) List.nodup_range'
    · rintro slot new slot' old rfl
      obtain ⟨index, inRange, rfl⟩ := List.mem_map.1 new
      have bounds := List.mem_range'_1.1 inRange
      exact absurd (below.within _ old) (Nat.not_lt_of_le bounds.1)

theorem Layout.below_parameters (parameters : List Node) :
    Layout.Below (Node.declaredNames parameters).length 0 (Node.parameterLayout parameters) where
  within := by
    intro slot member
    rw [Node.parameterLayout, bounds_cons_slotBlock, Blocks.bounds, List.flatMap_nil,
      List.append_nil] at member
    obtain ⟨index, inRange, rfl⟩ := List.mem_map.1 member
    have bounds := List.mem_range'_1.1 inRange
    rw [Nat.zero_add] at bounds
    exact bounds.2
  distinct := by
    rw [Node.parameterLayout, bounds_cons_slotBlock, Blocks.bounds, List.flatMap_nil, List.append_nil]
    exact List.Pairwise.map Slot.parameter
      (fun _ _ differ same => differ (Slot.parameter.inj same)) List.nodup_range'

/-- A block of variables that are all zero. -/
theorem image_slotBlock_zero (frame : Activation) (names : List String) (count : Nat)
    (zero : ∀ index, count ≤ index → index < count + names.length →
      frame.get (.localVariable index) = 0) :
    (slotBlock .localVariable names count).map (fun entry => (entry.1, frame.get entry.2)) =
      names.map fun name => (name, (0 : Int32)) := by
  induction names generalizing count with
  | nil => rfl
  | cons name names ih =>
    rw [slotBlock, List.map_cons, List.map_cons, zero count (Nat.le_refl _) (by simp)]
    refine congrArg (List.cons _) (ih (count + 1) fun index le lt => zero index (by omega) ?_)
    rw [List.length_cons]
    omega

theorem length_declaredNames {nodes : List Node}
    (declared : ∀ node ∈ nodes, node.IsDeclaration ∨ node.IsParameter) :
    (Node.declaredNames nodes).length = nodes.length := by
  induction nodes with
  | nil => rfl
  | cons node nodes ih =>
    obtain ⟨isDeclared, areDeclared⟩ := List.forall_mem_cons.1 declared
    unfold Node.declaredNames at ih ⊢
    cases node with
    | declaration info ty name => exact congrArg Nat.succ (ih areDeclared)
    | parameter info ty name => exact congrArg Nat.succ (ih areDeclared)
    | _ => exact (isDeclared.elim id id).elim

/-! ## Where statements stand -/

/-- A statement in `scope` of the function with scope `top`, behind `count` variables and `i`
temporaries: what it names is in sight, and there is room for its own variables and temporaries. -/
structure Node.Housed (table : Table) (functions : String → Option Nat)
    (arity locals temporaries : Nat) (top scope : ScopeId) (layout : Layout) (count i : Nat)
    (node : Node) : Prop where
  placed : node.ScopedIn table top scope layout count
  integral : node.StatementIntegral
  named : node.StatementNamed functions layout.names
  lays : table.Lays scope layout
  reaches : table.Reaches scope top
  below : layout.Below arity count
  leLocals : count + node.localCount ≤ locals
  leTemporaries : i + node.temporaryCount ≤ temporaries

/-- The same of statements, one after the other. -/
structure Node.HousedAll (table : Table) (functions : String → Option Nat)
    (arity locals temporaries : Nat) (top scope : ScopeId) (layout : Layout) (count i : Nat)
    (nodes : List Node) : Prop where
  placed : Node.ScopedAll table top scope layout count nodes
  integral : Node.StatementsIntegral nodes
  named : Node.StatementsNamed functions layout.names nodes
  lays : table.Lays scope layout
  reaches : table.Reaches scope top
  below : layout.Below arity count
  leLocals : count + Node.localCounts nodes ≤ locals
  leTemporaries : i + Node.temporaryCounts nodes ≤ temporaries

section Housed

variable {table : Table} {functions : String → Option Nat} {arity locals temporaries first : Nat}
  {top scope : ScopeId} {layout : Layout} {count i : Nat}

theorem Node.Housed.view {node : Node}
    (housed : node.Housed table functions arity locals temporaries top scope layout count i)
    (known : table.Temporaries top locals temporaries first) :
    View table arity locals temporaries first scope layout :=
  known.view housed.lays housed.reaches housed.below (Nat.le_of_add_right_le housed.leLocals)

namespace Node.Housed

variable {info : Info} {condition consequent alternative : Node}

/-- In a block, its variables stand behind those that were declared before. -/
theorem block {declarations statements : List Node}
    (housed : (Node.block info declarations statements).Housed table functions arity locals
      temporaries top scope layout count i) :
    ∃ inner, info.scope = some inner ∧
      (declaredNames declarations).length = declarations.length ∧
      HousedAll table functions arity locals temporaries top inner
        (slotBlock .localVariable (declaredNames declarations) count :: layout)
        (count + declarations.length) i statements := by
  obtain ⟨inner, attached, declared, reaches, lays, placed⟩ := housed.placed
  have sameLength : (declaredNames declarations).length = declarations.length :=
    length_declaredNames fun node member => .inl (declared node member)
  have below := housed.below.block (declaredNames declarations)
  have named := housed.named
  have leLocals := housed.leLocals
  rw [sameLength] at below
  rw [StatementNamed, ← names_slotBlock .localVariable _ count] at named
  rw [localCount, ← Nat.add_assoc] at leLocals
  exact ⟨inner, attached, sameLength, placed, housed.integral.2, named, lays, reaches, below,
    leLocals, housed.leTemporaries⟩

theorem ifThen_consequent
    (housed : (Node.ifThen info condition consequent).Housed table functions arity locals
      temporaries top scope layout count i) :
    consequent.Housed table functions arity locals temporaries top scope layout count
      (i + condition.temporaryCount) where
  placed := housed.placed.2.2
  integral := housed.integral.2
  named := housed.named.2
  lays := housed.lays
  reaches := housed.reaches
  below := housed.below
  leLocals := housed.leLocals
  leTemporaries := by
    have le := housed.leTemporaries
    rw [temporaryCount] at le
    omega

theorem ifElse_consequent
    (housed : (Node.ifElse info condition consequent alternative).Housed table functions arity
      locals temporaries top scope layout count i) :
    consequent.Housed table functions arity locals temporaries top scope layout count
      (i + condition.temporaryCount) where
  placed := housed.placed.2.2.1
  integral := housed.integral.2.1
  named := housed.named.2.1
  lays := housed.lays
  reaches := housed.reaches
  below := housed.below
  leLocals := by
    have le := housed.leLocals
    rw [localCount] at le
    omega
  leTemporaries := by
    have le := housed.leTemporaries
    rw [temporaryCount] at le
    omega

theorem ifElse_alternative
    (housed : (Node.ifElse info condition consequent alternative).Housed table functions arity
      locals temporaries top scope layout count i) :
    alternative.Housed table functions arity locals temporaries top scope layout
      (count + consequent.localCount)
      (i + condition.temporaryCount + consequent.temporaryCount) where
  placed := housed.placed.2.2.2
  integral := housed.integral.2.2
  named := housed.named.2.2
  lays := housed.lays
  reaches := housed.reaches
  below := housed.below.mono (Nat.le_add_right _ _)
  leLocals := by
    have le := housed.leLocals
    rw [localCount] at le
    omega
  leTemporaries := by
    have le := housed.leTemporaries
    rw [temporaryCount] at le
    omega

end Node.Housed

namespace Node.HousedAll

variable {node : Node} {nodes : List Node}

theorem head (housed : HousedAll table functions arity locals temporaries top scope layout count i
      (node :: nodes)) :
    node.Housed table functions arity locals temporaries top scope layout count i where
  placed := housed.placed.1
  integral := housed.integral.1
  named := housed.named.1
  lays := housed.lays
  reaches := housed.reaches
  below := housed.below
  leLocals := by
    have le := housed.leLocals
    rw [localCounts] at le
    omega
  leTemporaries := by
    have le := housed.leTemporaries
    rw [temporaryCounts] at le
    omega

theorem tail (housed : HousedAll table functions arity locals temporaries top scope layout count i
      (node :: nodes)) :
    HousedAll table functions arity locals temporaries top scope layout (count + node.localCount)
      (i + node.temporaryCount) nodes where
  placed := housed.placed.2
  integral := housed.integral.2
  named := housed.named.2
  lays := housed.lays
  reaches := housed.reaches
  below := housed.below.mono (Nat.le_add_right _ _)
  leLocals := by
    have le := housed.leLocals
    rw [localCounts] at le
    omega
  leTemporaries := by
    have le := housed.leTemporaries
    rw [temporaryCounts] at le
    omega

end Node.HousedAll

end Housed

/-! ## Statements -/

/-- A frame in which the variables from `count` on are not declared yet. -/
structure Activation.Awaits (arity locals temporaries count : Nat) (frame : Activation) : Prop where
  fits : frame.Fits arity (locals + temporaries)
  zero : ∀ index, count ≤ index → index < locals → frame.get (.localVariable index) = 0

theorem Activation.Awaits.agrees {arity locals temporaries count i : Nat}
    {frame frame' : Activation} (awaits : frame.Awaits arity locals temporaries count)
    (fits : frame'.Fits arity (locals + temporaries))
    (agrees : frame.Agrees arity (locals + i) frame') :
    frame'.Awaits arity locals temporaries count where
  fits := fits
  zero := by
    intro index le lt
    have within : Slot.Within arity (locals + i) (.localVariable index) :=
      Nat.lt_of_lt_of_le lt (Nat.le_add_right _ _)
    rw [agrees _ within]
    exact awaits.zero index le lt

theorem Activation.Awaits.mono {arity locals temporaries count count' : Nat} {frame : Activation}
    (awaits : frame.Awaits arity locals temporaries count) (le : count ≤ count') :
    frame.Awaits arity locals temporaries count' :=
  ⟨awaits.fits, fun index le' lt => awaits.zero index (Nat.le_trans le le') lt⟩

/-- Where a run stands at the end of a statement. -/
def Completion.Reached (arity locals temporaries : Nat) (layout : Layout) (count finish exit : Nat) :
    Completion → Progress → Prop
  | .returned value, q => q.pc = exit ∧ q.accumulator = value
  | .finished env last, q => q.pc = finish ∧ q.accumulator = last ∧
      env = layout.image q.frame.get ∧ q.frame.Awaits arity locals temporaries count

/-- A function whose code is run: the slots of its temporaries, and where its exit is. -/
structure Running.Stage (running : Running) (arity locals temporaries first : Nat) (top : ScopeId)
    (exit : Label) (exitAt : Nat) : Prop where
  placed : running.routine.Placed
  exitMarked : running.routine.body[exitAt]? = some (.mark exit top)
  temporaries : running.table.Temporaries top locals temporaries first

/-- The code of a statement does what the statement does, wherever it stands in its function and
whatever was declared before it. -/
def Running.Stage.Computes {running : Running} {arity locals temporaries first exitAt : Nat}
    {top : ScopeId} {exit : Label}
    (_ : running.Stage arity locals temporaries first top exit exitAt)
    (functions : String → Option Nat) (calls : Calls) (node : Node) : Prop :=
  ∀ ⦃scope : ScopeId⦄ ⦃layout : Layout⦄ ⦃count i label : Nat⦄ ⦃p : Progress⦄,
    node.Housed running.table functions arity locals temporaries top scope layout count i →
    CodeAt running.routine.body p.pc (node.statementCode exit scope (first + i) label) →
    p.pc + (node.statementCode exit scope (first + i) label).length ≤ exitAt →
    p.frame.Awaits arity locals temporaries count →
    running.Computes p
      (node.execute calls running.routine.name (layout.image p.frame.get) p.accumulator)
      (Completion.Reached arity locals temporaries layout (count + node.localCount)
        (p.pc + (node.statementCode exit scope (first + i) label).length) exitAt)

/-- The code of some statements does what they do, one after the other. -/
def Running.Stage.ComputesAll {running : Running} {arity locals temporaries first exitAt : Nat}
    {top : ScopeId} {exit : Label}
    (_ : running.Stage arity locals temporaries first top exit exitAt)
    (functions : String → Option Nat) (calls : Calls) (nodes : List Node) : Prop :=
  ∀ ⦃scope : ScopeId⦄ ⦃layout : Layout⦄ ⦃count i label : Nat⦄ ⦃p : Progress⦄,
    Node.HousedAll running.table functions arity locals temporaries top scope layout count i nodes →
    CodeAt running.routine.body p.pc (Node.statementsCode exit scope (first + i) label nodes) →
    p.pc + (Node.statementsCode exit scope (first + i) label nodes).length ≤ exitAt →
    p.frame.Awaits arity locals temporaries count →
    running.Computes p
      (Node.executeAll calls running.routine.name nodes (layout.image p.frame.get) p.accumulator)
      (Completion.Reached arity locals temporaries layout (count + Node.localCounts nodes)
        (p.pc + (Node.statementsCode exit scope (first + i) label nodes).length) exitAt)

theorem Running.Leads.to_pc {running : Running} {p : Progress} {pc pc' : Nat}
    (leads : running.Leads p { p with pc := pc }) (same : pc = pc') :
    running.Leads p { p with pc := pc' } :=
  same ▸ leads

/-- Code behind a statement that only goes on is run if the statement is finished; if it returned,
the run is at the exit already. -/
theorem Running.Computes.goes_on {running : Running} {p : Progress}
    {result : Except Error Completion} {arity locals temporaries : Nat} {layout : Layout}
    {count count' finish finish' exit : Nat}
    (computes : running.Computes p result
      (Completion.Reached arity locals temporaries layout count finish exit))
    (le : count ≤ count')
    (leads : ∀ q : Progress, q.pc = finish → running.Leads q { q with pc := finish' }) :
    running.Computes p result
      (Completion.Reached arity locals temporaries layout count' finish' exit) := by
  refine computes.follow fun completion q reached => ?_
  cases completion with
  | returned value => exact ⟨q, .refl running q, reached⟩
  | finished env last =>
    obtain ⟨pc, accumulator, env_eq, awaits⟩ := reached
    exact ⟨_, leads q pc, rfl, accumulator, env_eq, awaits.mono le⟩

namespace Node

section Statements

variable {running : Running} {arity locals temporaries first exitAt : Nat} {top : ScopeId}
  {exit : Label} {functions : String → Option Nat} {calls : Calls}

/-- A condition and the jump behind it, taken if the condition is zero. -/
theorem test_computes {scope : ScopeId} {layout : Layout} {condition : Node} {i index : Nat}
    {label : Label} {rest : List Quad} {p : Progress}
    (view : View running.table arity locals temporaries first scope layout)
    (answers : ∀ function arguments, (running.callee function arguments).result =
      calls function arguments) (inScope : condition.ValueIn scope)
    (integral : condition.ValueIntegral) (named : condition.ValueNamed functions layout.names)
    (le : i + condition.temporaryCount ≤ temporaries)
    (present : CodeAt running.routine.body p.pc (condition.valueCode scope (first + i) ++
      .jumpIfNot (condition.valueName (first + i)) label scope :: rest))
    (target : lastTarget? label running.routine.targets = some index)
    (forward : p.pc + (condition.valueCode scope (first + i)).length < index)
    (fits : p.frame.Fits arity (locals + temporaries)) :
    running.Computes p
      (condition.evaluate calls running.routine.name (layout.image p.frame.get) p.accumulator)
      fun result q =>
        q.pc = (if result.1 = 0 then index
          else p.pc + (condition.valueCode scope (first + i)).length + 1) ∧
        q.accumulator = result.2 ∧ q.frame.Fits arity (locals + temporaries) ∧
        p.frame.Agrees arity (locals + i) q.frame := by
  refine (value_computes view answers condition inScope integral named le present.left fits).follow
    fun result q good => ?_
  obtain ⟨passed, shows⟩ := good
  obtain ⟨slot, stored⟩ := view.stored_value inScope integral named le
  have found := present.right.head
  rw [← passed.pc] at found forward ⊢
  have leads := Running.jumpIfNot_leads target forward found passed.fits
    (stored.mono (Nat.add_le_add_left le locals))
  rw [shows slot stored.1] at leads
  exact ⟨_, leads, rfl, passed.accumulator, passed.fits, passed.agrees⟩

theorem empty_computes
    (stage : running.Stage arity locals temporaries first top exit exitAt)
    (info : Info) : stage.Computes functions calls (empty info) := by
  intro scope layout count i label p _ _ _ awaits
  exact Running.computes_ok ⟨rfl, rfl, rfl, awaits⟩

theorem return_computes
    (stage : running.Stage arity locals temporaries first top exit exitAt)
    (answers : ∀ function arguments, (running.callee function arguments).result =
      calls function arguments) (info : Info) (value : Node) :
    stage.Computes functions calls (returnValue info value) := by
  intro scope layout count i label p housed present forward awaits
  have view := housed.view stage.temporaries
  obtain ⟨⟨_, inScope⟩, integral, named, _, _, _, _, leTemporaries⟩ := housed
  rw [statementCode] at present forward
  rw [List.length_append, List.length_singleton] at forward
  rw [execute]
  refine (value_computes view answers value inScope integral named leTemporaries present.left
    awaits.fits).bind fun result q good => ?_
  obtain ⟨passed, shows⟩ := good
  obtain ⟨slot, stored⟩ := view.stored_value inScope integral named leTemporaries
  have found := present.right.head
  rw [← passed.pc] at found
  have before : q.pc < exitAt := by
    rw [passed.pc]
    omega
  have leads := Running.ret_leads (stage.placed stage.exitMarked) before found passed.fits
    (stored.mono (Nat.add_le_add_left leTemporaries locals))
  exact leads.computes (Running.computes_ok ⟨rfl, shows slot stored.1⟩)

theorem assignment_computes
    (stage : running.Stage arity locals temporaries first top exit exitAt)
    (answers : ∀ function arguments, (running.callee function arguments).result =
      calls function arguments) (info : Info) (target : String) (value : Node) :
    stage.Computes functions calls (assignment info target value) := by
  intro scope layout count i label p housed present forward awaits
  have view := housed.view stage.temporaries
  obtain ⟨⟨_, isName, inScope⟩, integral, ⟨inSight, named⟩, _, _, below, _, leTemporaries⟩ := housed
  rw [statementCode] at present ⊢
  rw [execute]
  refine (value_computes view answers value inScope integral named leTemporaries present.left
    awaits.fits).bind fun result q good => ?_
  obtain ⟨passed, shows⟩ := good
  obtain ⟨slot, stored⟩ := view.stored_value inScope integral named leTemporaries
  obtain ⟨targetSlot, isTarget, targetStored⟩ := view.stored_name isName inSight
  have withinCount := below.within _ (Blocks.mem_bounds_of_find? isTarget)
  have within : Slot.Within arity (locals + temporaries) targetSlot :=
    targetStored.2.mono (Nat.le_add_right _ _)
  have found := present.right.head
  rw [← passed.pc] at found
  have leads := Running.assign_leads found passed.fits
    (stored.mono (Nat.add_le_add_left leTemporaries locals)) ⟨targetStored.1, within⟩
  rw [shows slot stored.1] at leads
  have put := Activation.get_put passed.fits within result.1
  refine leads.computes (Running.computes_ok ⟨?_, passed.accumulator, ?_, ?_, ?_⟩)
  · rw [List.length_append, List.length_singleton, ← Nat.add_assoc, ← passed.pc]
  · rw [← image_eq view passed.agrees (Nat.le_add_right _ _)]
    have set := Blocks.set_image (f := q.frame.get) (g := (q.frame.put targetSlot result.1).get)
      isTarget below.distinct fun other _ differs => by rw [put, if_neg differs]
    rw [set, put, if_pos rfl]
  · exact passed.fits.put _ _
  · intro index le lt
    rw [put, if_neg]
    · exact (awaits.agrees passed.fits passed.agrees).zero index le lt
    · rintro rfl
      exact absurd (show index < count from withinCount) (Nat.not_lt_of_le le)

/-- The variables of a block are zero at its start, since nothing that is declared later was set. -/
theorem block_computes
    (stage : running.Stage arity locals temporaries first top exit exitAt)
    (info : Info) (declarations : List Node) {statements : List Node}
    (computes : stage.ComputesAll functions calls statements) :
    stage.Computes functions calls (block info declarations statements) := by
  intro scope layout count i label p housed present forward awaits
  obtain ⟨inner, attached, sameLength, inside⟩ := housed.block
  have leLocals := inside.leLocals
  rw [localCount, ← Nat.add_assoc]
  rw [statementCode, attached, Option.getD_some] at present forward ⊢
  have zeros := image_slotBlock_zero p.frame (declaredNames declarations) count
    fun index le lt => awaits.zero index le (by omega)
  have entered : (declaredNames declarations).map (fun x => (x, (0 : Int32))) ::
      layout.image p.frame.get =
      Blocks.image p.frame.get
        (slotBlock .localVariable (declaredNames declarations) count :: layout) := by
    rw [Blocks.image_cons, zeros]
  rw [execute, entered]
  refine (computes inside present forward (awaits.mono (Nat.le_add_right _ _))).bind
    fun completion q reached => ?_
  cases completion with
  | returned value => exact Running.computes_ok reached
  | finished env last =>
    obtain ⟨pc, accumulator, rfl, awaits'⟩ := reached
    exact Running.computes_ok ⟨pc, accumulator, rfl, awaits'⟩

theorem ifThen_computes
    (stage : running.Stage arity locals temporaries first top exit exitAt)
    (answers : ∀ function arguments, (running.callee function arguments).result =
      calls function arguments) (info : Info) (condition : Node) {consequent : Node}
    (computes : stage.Computes functions calls consequent) :
    stage.Computes functions calls (ifThen info condition consequent) := by
  intro scope layout count i label p housed present forward awaits
  obtain ⟨_, inScope, _⟩ := housed.placed
  have leTemporaries := housed.leTemporaries
  rw [localCount]
  rw [temporaryCount] at leTemporaries
  rw [statementCode, Nat.add_assoc first] at present forward ⊢
  simp only [List.length_append, List.length_cons, List.length_nil] at forward ⊢
  have view := housed.view stage.temporaries
  have inner := present.right.tail
  have marked := inner.right.head
  rw [execute]
  refine (test_computes view answers inScope housed.integral.1 housed.named.1 (by omega)
    present (stage.placed marked) (by omega) awaits.fits).bind fun result q tested => ?_
  obtain ⟨pc, accumulator, fits, agrees⟩ := tested
  have awaits' := awaits.agrees fits agrees
  dsimp only
  rw [← accumulator, ← image_eq view agrees (Nat.le_add_right _ _)]
  split
  · next isZero =>
    rw [if_pos isZero] at pc
    rw [← pc] at marked
    refine (Running.mark_leads marked).computes (Running.computes_ok ⟨?_, rfl, rfl, ?_⟩)
    · dsimp only
      omega
    · exact awaits'.mono (Nat.le_add_right _ _)
  · next isOther =>
    rw [if_neg isOther] at pc
    have start := inner.left
    rw [← pc] at start
    refine (computes housed.ifThen_consequent start (by omega) awaits').goes_on (Nat.le_refl _)
      fun r at_mark => ?_
    rw [pc] at at_mark
    rw [← at_mark] at marked
    exact (Running.mark_leads marked).to_pc (by omega)

theorem ifElse_computes
    (stage : running.Stage arity locals temporaries first top exit exitAt)
    (answers : ∀ function arguments, (running.callee function arguments).result =
      calls function arguments) (info : Info) (condition : Node)
    {consequent alternative : Node} (positive : stage.Computes functions calls consequent)
    (negative : stage.Computes functions calls alternative) :
    stage.Computes functions calls (ifElse info condition consequent alternative) := by
  intro scope layout count i label p housed present forward awaits
  obtain ⟨_, inScope, _⟩ := housed.placed
  have leTemporaries := housed.leTemporaries
  rw [localCount]
  rw [temporaryCount] at leTemporaries
  rw [statementCode, Nat.add_assoc first, Nat.add_assoc first] at present forward ⊢
  simp only [List.length_append, List.length_cons, List.length_nil] at forward ⊢
  have view := housed.view stage.temporaries
  have inner := present.right.tail
  have jump := inner.right.head
  have markedElse := inner.right.tail.head
  have otherwise := inner.right.tail.tail
  have markedDone := otherwise.right.head
  rw [execute]
  refine (test_computes view answers inScope housed.integral.1 housed.named.1 (by omega)
    present (stage.placed markedElse) (by omega) awaits.fits).bind fun result q tested => ?_
  obtain ⟨pc, accumulator, fits, agrees⟩ := tested
  have awaits' := awaits.agrees fits agrees
  dsimp only
  rw [← accumulator, ← image_eq view agrees (Nat.le_add_right _ _)]
  split
  · next isZero =>
    rw [if_pos isZero] at pc
    rw [← pc] at markedElse
    have start := otherwise.left
    rw [← pc] at start
    refine (Running.mark_leads markedElse).computes ?_
    have computed := negative (p := { q with pc := q.pc + 1 }) housed.ifElse_alternative start
      (by dsimp only; omega) (awaits'.mono (Nat.le_add_right _ _))
    refine computed.goes_on (Nat.le_of_eq (Nat.add_assoc count _ _)) fun r at_done => ?_
    dsimp only at at_done
    rw [pc] at at_done
    rw [← at_done] at markedDone
    exact (Running.mark_leads markedDone).to_pc (by omega)
  · next isOther =>
    rw [if_neg isOther] at pc
    have start := inner.left
    rw [← pc] at start
    refine (positive housed.ifElse_consequent start (by omega) awaits').goes_on (by omega)
      fun r at_jump => ?_
    rw [pc] at at_jump
    rw [← at_jump] at jump
    have jumps := Running.jump_leads (stage.placed markedDone) (by omega) jump
    exact (jumps.trans (Running.mark_leads (p := { r with pc := _ }) markedDone)).to_pc
      (by dsimp only; omega)

theorem nil_executes
    (stage : running.Stage arity locals temporaries first top exit exitAt) :
    stage.ComputesAll functions calls [] := by
  intro scope layout count i label p _ _ _ awaits
  exact Running.computes_ok ⟨rfl, rfl, rfl, awaits⟩

theorem cons_executes
    (stage : running.Stage arity locals temporaries first top exit exitAt)
    {node : Node} {nodes : List Node} (computes : stage.Computes functions calls node)
    (computes' : stage.ComputesAll functions calls nodes) :
    stage.ComputesAll functions calls (node :: nodes) := by
  intro scope layout count i label p housed present forward awaits
  rw [localCounts]
  rw [statementsCode, Nat.add_assoc first] at present forward ⊢
  rw [List.length_append] at forward ⊢
  rw [executeAll]
  refine (computes housed.head present.left (by omega) awaits).bind fun completion q reached => ?_
  cases completion with
  | returned value => exact Running.computes_ok reached
  | finished env last =>
    obtain ⟨pc, rfl, rfl, awaits'⟩ := reached
    have start := present.right
    rw [← pc] at start
    have rest := computes' housed.tail start (by omega) awaits'
    rw [pc, Nat.add_assoc p.pc, Nat.add_assoc count] at rest
    exact rest

mutual
/-- The code of a statement does what the statement does. -/
theorem statement_computes
    (stage : running.Stage arity locals temporaries first top exit exitAt)
    (answers : ∀ function arguments, (running.callee function arguments).result =
      calls function arguments) : (node : Node) → stage.Computes functions calls node
  | empty info => empty_computes stage info
  | returnValue info value => return_computes stage answers info value
  | assignment info target value => assignment_computes stage answers info target value
  | block info declarations statements =>
    block_computes stage info declarations (statements_compute stage answers statements)
  | ifThen info condition consequent =>
    ifThen_computes stage answers info condition (statement_computes stage answers consequent)
  | ifElse info condition consequent alternative =>
    ifElse_computes stage answers info condition (statement_computes stage answers consequent)
      (statement_computes stage answers alternative)
  | program .. | function .. | parameter .. | call .. | declaration .. | binary .. | unary ..
  | identifier .. | integer .. | real .. => fun _ _ _ _ _ _ housed => housed.placed.elim
theorem statements_compute
    (stage : running.Stage arity locals temporaries first top exit exitAt)
    (answers : ∀ function arguments, (running.callee function arguments).result =
      calls function arguments) : (nodes : List Node) → stage.ComputesAll functions calls nodes
  | [] => nil_executes stage
  | node :: nodes =>
    cons_executes stage (statement_computes stage answers node)
      (statements_compute stage answers nodes)
end

end Statements
end Node
end MiniC
