import MiniC.Proofs.Accepting
import MiniC.Proofs.Entering
import MiniC.Proofs.KnownCalls
import MiniC.Proofs.Listings
import MiniC.Proofs.StackSlots

/-!
# Later functions change nothing

Names are not looked up in the order of the source: all functions are global before the first one is
checked, and scopes, temporaries and labels are numbered through the whole program. Still, functions
that are written behind the others leave these alone. Their code, quadruple by quadruple and with the
numbers of all scopes, is where it was, their lines of the assembly are, and calling them gives what
it gave.

Both programs are lowered side by side. Their tables differ, but the larger one finds whatever the
other one finds (`Table.Embeds`), and as the counters start alike, they go on alike. No other property
of the two tables is needed.
-/

namespace MiniC

open Lower (temporaryName)
open Assembly (functionLines quadLines slotCount)

/-! ## Tables that find more -/

/-- `larger` has the scopes of `table`, and finds in them whatever `table` finds. -/
structure Table.Embeds (table larger : Table) : Prop where
  scopes : table.scopes.size ≤ larger.scopes.size
  outer : ∀ scope < table.scopes.size, larger.outer? scope = table.outer? scope
  slotAt : ∀ {scope name slot}, table.slotAt scope name = some slot →
    larger.slotAt scope name = some slot

/-- The states go on with the same numbers, and the table of `larger` finds more. -/
structure Lowering.Embeds (state larger : Lowering) : Prop where
  temporaries : larger.temporaries = state.temporaries
  labels : larger.labels = state.labels
  table : state.table.Embeds larger.table

namespace Table

variable {table middle larger : Table}

theorem Embeds.refl (table : Table) : table.Embeds table :=
  ⟨Nat.le_refl _, fun _ _ => rfl, id⟩

theorem Embeds.trans (embeds : table.Embeds middle) (embeds' : middle.Embeds larger) :
    table.Embeds larger where
  scopes := Nat.le_trans embeds.scopes embeds'.scopes
  outer scope lt :=
    (embeds'.outer scope (Nat.lt_of_lt_of_le lt embeds.scopes)).trans (embeds.outer scope lt)
  slotAt stored := embeds'.slotAt (embeds.slotAt stored)

/-- In a table of words, growing keeps all that is found. -/
theorem Grows.embeds (grows : table.Grows larger) (sound : table.Sound)
    (words : table.DefinesWords) : table.Embeds larger where
  scopes := grows.scopes
  outer := grows.outer
  slotAt := by
    intro scope name slot stored
    by_cases isName : IsIdentifier name
    · exact (grows.slotAt scope (sound.lt_of_slotAt stored) name isName).trans stored
    · have nowhere : ∀ scope, table.lookupLocal scope name = none := fun scope =>
        Option.eq_none_iff_forall_ne_some.2 fun _ found => isName (words found)
      rw [sound.slotAt_eq_none nowhere] at stored
      cases stored

end Table

/-! ## Lowering side by side -/

section Advances

variable {frame frame' : Frame} {slots temporaries labels : Nat}
  {before after before' after' : Lowering}

/-- Lowering keeps all that is found before it. -/
theorem Frame.Advances.embeds (advances : frame.Advances slots temporaries labels before after)
    {nodes : List Node} (expects : before.Expects nodes) : before.table.Embeds after.table where
  scopes := Nat.le_of_eq advances.size.symm
  outer scope _ := advances.outer scope
  slotAt := by
    intro scope name slot stored
    refine (advances.slotAt name ?_ scope).trans stored
    rintro k le rfl
    rw [expects.sound.slotAt_eq_none (expects.fresh k le)] at stored
    cases stored

/-- Lowering as much in a larger table as in the other gives a larger table again: a temporary is
found in the scopes of its function only, and there in the same slot. -/
theorem Frame.Advances.beside (advances : frame.Advances slots temporaries labels before after)
    (advances' : frame'.Advances slots temporaries labels before' after')
    (sameScope : frame'.scope = frame.scope) (sound : before.table.Sound)
    (embeds : before.Embeds before') : after.Embeds after' where
  temporaries := by rw [advances'.nextTemporary, advances.nextTemporary, embeds.temporaries]
  labels := by rw [advances'.nextLabel, advances.nextLabel, embeds.labels]
  table :=
    { scopes := by
        rw [advances'.size, advances.size]
        exact embeds.table.scopes
      outer := by
        intro scope lt
        rw [advances.size] at lt
        rw [advances'.outer, advances.outer, embeds.table.outer scope lt]
      slotAt := by
        intro scope name slot stored
        have lt := advances.ready.sound.lt_of_slotAt stored
        rw [advances.size] at lt
        by_cases isNew : ∃ k, before.temporaries ≤ k ∧ name = temporaryName k
        · obtain ⟨k, le, rfl⟩ := isNew
          obtain ⟨j, rfl⟩ := Nat.exists_eq_add_of_le le
          have reaches := advances.only le stored
          have reaches' := sound.reaches_of_outer embeds.table.outer lt reaches
          have drawn : j < temporaries := by
            by_contra beyond
            have fresh := advances.ready.fresh (before.temporaries + j) (by
              rw [advances.nextTemporary]
              omega)
            rw [advances.ready.sound.slotAt_eq_none fresh] at stored
            cases stored
          rw [advances.new scope reaches j drawn] at stored
          rw [← embeds.temporaries, advances'.new scope (sameScope ▸ reaches') j drawn]
          exact stored
        · rw [advances.slotAt name (fun k le same => isNew ⟨k, le, same⟩)] at stored
          rw [advances'.slotAt name fun k le same => isNew ⟨k, embeds.temporaries ▸ le, same⟩]
          exact embeds.table.slotAt stored }

end Advances

/-- What lowering the next of the functions does. -/
theorem Lowering.Expects.lowers {before after : Lowering} {node : Node} {nodes : List Node}
    {code : FunctionCode} (expects : before.Expects (node :: nodes))
    (lowered : node.lowerFunction before = .ok code after) :
    ∃ info returnType name parameters body symbol top,
      node = .function info returnType name parameters body ∧ info.scope = some top ∧
      code = ⟨name, (body.functionCode top before.temporaries before.labels).toArray⟩ ∧
      Frame.Advances ⟨symbol, top, ⟨before.labels⟩⟩ body.localCount body.temporaryCount
        (1 + body.labelCount) before after ∧
      after.Expects nodes := by
  have isIn := expects.placed node List.mem_cons_self
  have integral := Node.integral_of_lowerFunction lowered
  cases node with
  | function info returnType name parameters body =>
    obtain ⟨symbol, top, after', attached, lowered', _, advances, holds⟩ :=
      Node.lowerFunction_spec isIn expects.sound expects.fresh integral
    rw [lowered] at lowered'
    cases lowered'
    exact ⟨info, returnType, name, parameters, body, symbol, top, rfl, attached, rfl, advances,
      expects.later advances holds⟩
  | _ => exact isIn.elim

namespace Node.LowersAll

variable {nodes : List Node} {before after before' after' : Lowering}
  {codes codes' : List FunctionCode}

/-- Lowering functions keeps all that is found before it. -/
theorem embeds (lowered : LowersAll nodes before codes after) (expects : before.Expects nodes) :
    before.table.Embeds after.table := by
  induction lowered with
  | nil => exact .refl _
  | cons first _ ih =>
    obtain ⟨_, _, _, _, _, _, _, _, _, _, advances, expects'⟩ := expects.lowers first
    exact (advances.embeds expects).trans (ih expects')

/-- Functions have the same code in a larger table, with others behind them that are lowered from a
larger table too. -/
theorem beside (lowered : LowersAll nodes before codes after) {others : List Node}
    (lowered' : LowersAll (nodes ++ others) before' codes' after') (expects : before.Expects nodes)
    (expects' : before'.Expects (nodes ++ others)) (embeds : before.Embeds before') :
    ∃ rest middle, codes' = codes ++ rest ∧ after.Embeds middle ∧ middle.Expects others ∧
      LowersAll others middle rest after' := by
  induction lowered generalizing before' codes' with
  | nil => exact ⟨codes', before', rfl, embeds, expects', lowered'⟩
  | cons first _ ih =>
    cases lowered' with
    | cons first' rest' =>
      obtain ⟨info, _, _, _, body, _, top, rfl, attached, rfl, advances, later⟩ :=
        expects.lowers first
      obtain ⟨_, _, _, _, _, _, top', same, attached', rfl, advances', later'⟩ :=
        expects'.lowers first'
      cases same
      cases attached.symm.trans attached'
      obtain ⟨rest, middle, rfl, embeds', expected, lowered''⟩ :=
        ih rest' later later' (advances.beside advances' rfl expects.sound embeds)
      refine ⟨rest, middle, ?_, embeds', expected, lowered''⟩
      rw [embeds.temporaries, embeds.labels]
      rfl

end Node.LowersAll

/-! ## Assembly -/

section Lines

variable {table larger : Table} {arity slots : Nat} {functions : String → Option Nat} {exit : Label}

theorem Table.Stores.embeds {scope : ScopeId} {name : String} {slot : Slot}
    (stored : table.Stores arity slots scope name slot) (embeds : table.Embeds larger) :
    larger.Stores arity slots scope name slot :=
  ⟨embeds.slotAt stored.1, stored.2⟩

/-- A resolved quadruple has the same lines in a larger table. -/
theorem Quad.Resolved.quadLines_eq {quad : Quad}
    (resolved : quad.Resolved table arity slots functions exit) (embeds : table.Embeds larger)
    (known : ∀ {callee count}, functions callee = some count →
      Assembly.isGlobalFunction table callee ∧ Assembly.isGlobalFunction larger callee) :
    quadLines larger quad = quadLines table quad := by
  unfold quadLines
  cases resolved with
  | load value stored =>
    rw [Assembly.ofQuad_load value stored, Assembly.ofQuad_load value (stored.embeds embeds)]
  | assign stored stored' =>
    rw [Assembly.ofQuad_assign stored stored',
      Assembly.ofQuad_assign (stored.embeds embeds) (stored'.embeds embeds)]
  | unary op stored stored' =>
    rw [Assembly.ofQuad_unary op stored stored',
      Assembly.ofQuad_unary op (stored.embeds embeds) (stored'.embeds embeds)]
  | binary op stored stored' stored'' =>
    rw [Assembly.ofQuad_binary op stored stored' stored'', Assembly.ofQuad_binary op
      (stored.embeds embeds) (stored'.embeds embeds) (stored''.embeds embeds)]
  | param stored => rw [Assembly.ofQuad_param stored, Assembly.ofQuad_param (stored.embeds embeds)]
  | call isKnown stored =>
    rw [Assembly.ofQuad_call _ (known isKnown).1 stored,
      Assembly.ofQuad_call _ (known isKnown).2 (stored.embeds embeds)]
  | ret stored =>
    rw [Assembly.ofQuad_ret exit stored, Assembly.ofQuad_ret exit (stored.embeds embeds)]
  | mark | jump => rfl
  | jumpIfNot label stored =>
    rw [Assembly.ofQuad_jumpIfNot label stored,
      Assembly.ofQuad_jumpIfNot label (stored.embeds embeds)]

end Lines

namespace Node

/-- A function has the same lines if others are lowered behind it. -/
theorem LoweredTo.functionLines_eq {functions others : List Node} {state state' : Lowering}
    {code code' : Code} (lowered : LoweredTo functions state code)
    (lowered' : LoweredTo (functions ++ others) state' code')
    (embeds : state.table.Embeds state'.table) {function : FunctionCode}
    (member : function ∈ code.functions) :
    functionLines state'.table function = functionLines state.table function := by
  obtain ⟨node, inFunctions, isLowered⟩ := forall₂_mem lowered.lowered member
  obtain ⟨_, _, isLowered'⟩ :=
    forall₂_mem (List.Forall₂.flip lowered'.lowered) (List.mem_append_left others inFunctions)
  cases node with
  | function info returnType name parameters body =>
    obtain ⟨top, next, label, rfl, has⟩ := isLowered
    obtain ⟨_, _, _, _, has'⟩ := isLowered'
    obtain ⟨_, holds⟩ := has.holds
    obtain ⟨_, holds'⟩ := has'.holds
    have sameCount : slotCount state'.table name = slotCount state.table name := by
      unfold slotCount
      rw [Assembly.variableCount_eq holds, Assembly.variableCount_eq holds']
    have sameLines : (body.functionCode top next label).flatMap (quadLines state'.table) =
        (body.functionCode top next label).flatMap (quadLines state.table) := by
      refine List.flatMap_congr fun quad inCode => ?_
      refine (has.resolved (lowered.body_named inFunctions) quad inCode).quadLines_eq embeds
        fun isKnown => ⟨lowered.isGlobalFunction isKnown, ?_⟩
      exact lowered'.isGlobalFunction (arity?_append isKnown others)
    unfold functionLines Assembly.activeLines
    dsimp only
    rw [sameCount, sameLines]
  | _ => exact isLowered.elim

end Node

/-! ## Compiled programs -/

/-- The functions that a source text defines. -/
def sourceFunctions (source : String) : List Node :=
  match Node.parse source with
  | .ok (.program _ functions) => functions
  | _ => []

theorem sourceNames_eq (source : String) :
    sourceNames source = Node.functionNames (sourceFunctions source) := by
  unfold sourceNames sourceFunctions
  cases Node.parse source with
  | error error => rfl
  | ok tree => cases tree <;> rfl

/-- How functions of a source text were compiled: resolved to `walked` with a table, and lowered from
there. Calls are those of the resolved functions. -/
structure Compilation.ComesFrom (compilation : Compilation) (options : Options)
    (functions walked : List Node) (table : Table) : Prop where
  areFunctions : ∀ node ∈ functions, node.IsFunction
  resolved : Node.walkAll ⟨Table.global, none⟩ .initial functions = (walked, .ok table)
  inTable : Node.ProgramIn table walked
  named : ∀ node ∈ walked, node.FunctionNamed (Node.arity? walked)
  lowers : ∃ after, compilation.table = after.table ∧
    Node.LowersAll (options.folded walked) ⟨table, 0, 0⟩ compilation.code.functions after
  lowered : ∃ state, compilation.table = state.table ∧
    Node.LoweredTo (options.folded walked) state compilation.code
  assembled : (compilation.code.assemble compilation.table options.fileName).result =
    .ok compilation.listing
  known : ∀ name, name ∈ Node.functionNames functions → (Node.arity? walked name).isSome
  runs : ∀ info name arguments, (compilation.run name arguments).result =
    (Node.program info walked).callWithin maxCallDepth name arguments

theorem Options.folded_append (options : Options) (functions others : List Node) :
    options.folded (functions ++ others) = options.folded functions ++ options.folded others := by
  unfold Options.folded
  split
  · rfl
  · simp only [Node.foldAll_eq_map, List.map_append]

theorem Assembly.text_append (lines others : List Line) :
    text (lines ++ others) = text lines ++ text others := by
  unfold text
  rw [List.map_append, String.join_append]

section Compiled

variable {source source' : String} {options : Options} {compilation compilation' : Compilation}

/-- A program is compiled from the functions of its source text. -/
theorem exists_comesFrom (compiled : (compile source options).result = .ok compilation) :
    ∃ walked table, compilation.ComesFrom options (sourceFunctions source) walked table := by
  obtain ⟨tree, parsed, means⟩ := result_run_eq_interpret compiled
  have isProgram := Node.parse_isProgram parsed
  obtain ⟨info, functions, rfl⟩ : ∃ info functions, tree = .program info functions := by
    cases tree with
    | program info functions => exact ⟨info, functions, rfl⟩
    | _ => exact isProgram.elim
  have isSource : sourceFunctions source = functions := by
    unfold sourceFunctions
    rw [parsed]
  rw [isSource]
  unfold compile at compiled
  rw [Traced.result_bind] at compiled
  obtain ⟨analysis, analyzed, lowered⟩ := bind_eq_ok.1 compiled
  obtain ⟨_, _, walked, parsed', isTree, inTable, named, same⟩ := analyze_eq_ok analyzed
  cases parsed.symm.trans parsed'
  obtain ⟨_, state, loweredTo, isTable, assembled⟩ := lower_eq_ok isTree inTable named lowered
  obtain ⟨_, after, all, isAfter⟩ := analysis.lowersAll isTree lowered
  rw [result_analyze, parsed, ok_bind] at analyzed
  obtain ⟨table, resolved, analyzed⟩ := bind_eq_ok.1 analyzed
  obtain ⟨_, _, last⟩ := bind_eq_ok.1 analyzed
  cases last
  rw [Node.resolve_eq_walk] at resolved isTree
  obtain ⟨_, found, isWalked⟩ := Walked.map_eq_ok.1
    (show (Node.program info functions).walk ⟨Table.global, none⟩ .initial = (_, .ok table) from
      Prod.ext rfl resolved)
  rw [(Node.program.inj (isWalked.trans isTree)).2] at found
  refine ⟨walked, table, isProgram, found, inTable, named, ⟨after, isAfter, all⟩,
    ⟨state, isTable, loweredTo⟩, assembled, fun name member => ?_, fun info' name arguments => ?_⟩
  · rw [← sourceArity?_eq parsed same, ← mem_sourceNames_iff, sourceNames_eq, isSource]
    exact member
  · have same' : ∀ name, ((Node.program info' walked).function? name).map Node.behaviour =
        ((Node.program info functions).function? name).map Node.behaviour := same
    rw [means, Node.interpret, Node.callWithin_congr same']

namespace Compilation.ComesFrom

variable {functions others walked all later : List Node} {table table' : Table}

/-- The counters of both compilations start alike, and resolving further functions only adds to the
table. So what is lowered first is the same. -/
theorem embeds (before : compilation.ComesFrom options functions walked table)
    (whole : compilation'.ComesFrom options (functions ++ others) all table') :
    ∃ later rest, all = walked ++ later ∧
      compilation'.code.functions = compilation.code.functions ++ rest ∧
      compilation.table.Embeds compilation'.table := by
  obtain ⟨later, rfl, walksOn⟩ := Node.walkAll_of_append before.resolved whole.resolved
  obtain ⟨_, grows, _⟩ := Node.walkAll_functions before.inTable.sound
    (fun node member => whole.areFunctions node (List.mem_append_right _ member)) walksOn
  have expects := (programIn_folded options before.inTable).expects
  have expects' := (programIn_folded options whole.inTable).expects
  obtain ⟨after, isTable, lowers⟩ := before.lowers
  obtain ⟨after', isTable', lowers'⟩ := whole.lowers
  rw [options.folded_append] at expects' lowers'
  obtain ⟨rest, middle, codes, embeds, expected, lowersRest⟩ := lowers.beside lowers' expects expects'
    ⟨rfl, rfl, grows.embeds before.inTable.sound before.inTable.words⟩
  refine ⟨later, rest, rfl, codes, ?_⟩
  rw [isTable, isTable']
  exact embeds.table.trans (lowersRest.embeds expected)

theorem functionLines_eq (before : compilation.ComesFrom options functions walked table)
    (whole : compilation'.ComesFrom options (functions ++ others) (walked ++ later) table')
    (embeds : compilation.table.Embeds compilation'.table) :
    compilation.code.functions.flatMap (functionLines compilation'.table) =
      compilation.code.functions.flatMap (functionLines compilation.table) := by
  obtain ⟨state, isTable, lowered⟩ := before.lowered
  obtain ⟨state', isTable', lowered'⟩ := whole.lowered
  rw [options.folded_append] at lowered'
  rw [isTable, isTable'] at embeds ⊢
  exact List.flatMap_congr fun function inCode => lowered.functionLines_eq lowered' embeds inCode

end Compilation.ComesFrom

/-- Functions that are written behind those of a program change nothing for these, if both programs
are accepted: they have the same code and assembly as before, in front of all that is new, and calls
of them give the same results. -/
theorem later_functions_change_nothing
    (further : sourceFunctions source <+: sourceFunctions source')
    (compiled : (compile source options).result = .ok compilation)
    (compiled' : (compile source' options).result = .ok compilation') :
    compilation.code.functions <+: compilation'.code.functions ∧
    (∃ rest, compilation'.assembly = compilation.assembly ++ rest) ∧
    ∀ name ∈ sourceNames source, ∀ arguments,
      (compilation'.run name arguments).result = (compilation.run name arguments).result := by
  obtain ⟨walked, table, before⟩ := exists_comesFrom compiled
  obtain ⟨all, table', whole⟩ := exists_comesFrom compiled'
  obtain ⟨others, isWhole⟩ := further
  rw [← isWhole] at whole
  obtain ⟨later, rest, rfl, codes, embeds⟩ := before.embeds whole
  refine ⟨⟨rest, codes.symm⟩, ?_, fun name member arguments => ?_⟩
  · refine ⟨Assembly.text (rest.flatMap (functionLines compilation'.table)), ?_⟩
    unfold Compilation.assembly
    rw [assemble_eq_ok before.assembled, assemble_eq_ok whole.assembled, codes, List.flatMap_append,
      before.functionLines_eq whole embeds, ← List.append_assoc, Assembly.text_append]
  · rw [sourceNames_eq] at member
    rw [before.runs default, whole.runs default]
    exact congrFun (Node.callWithin_append default default before.named later maxCallDepth
      (before.known name member)) arguments

end Compiled

def squareSource : String :=
  "int square(int n) \x7b return n * n; \x7d int main() \x7b return square(3); \x7d"

/-- A function with the same name of its parameter, and a call of one before. -/
def cubeSource : String :=
  "int square(int n) \x7b return n * n; \x7d int main() \x7b return square(3); \x7d
int cube(int n) \x7b return n * square(n); \x7d"

theorem square_unchanged :
    sourceFunctions squareSource <+: sourceFunctions cubeSource ∧
    ∃ compilation compilation', (compile squareSource { level := 1 }).result = .ok compilation ∧
      (compile cubeSource { level := 1 }).result = .ok compilation' ∧
      compilation.code.functions <+: compilation'.code.functions ∧
      (∃ rest, compilation'.assembly = compilation.assembly ++ rest) ∧
      (compilation'.run "main" []).result = (compilation.run "main" []).result := by
  have first : (sourceFunctions cubeSource).take 2 = sourceFunctions squareSource := by
    unfold sourceFunctions cubeSource squareSource
    cbv
  have further : sourceFunctions squareSource <+: sourceFunctions cubeSource := by
    rw [← first]
    exact List.take_prefix 2 _
  obtain ⟨compilation, compiled, _⟩ := exists_ok_of_any
    (show (compile squareSource { level := 1 }).result.toOption.any fun _ => true by decide +kernel)
  obtain ⟨compilation', compiled', _⟩ := exists_ok_of_any
    (show (compile cubeSource { level := 1 }).result.toOption.any fun _ => true by decide +kernel)
  obtain ⟨isPrefix, listed, runs⟩ := later_functions_change_nothing further compiled compiled'
  exact ⟨further, compilation, compilation', compiled, compiled', isPrefix, listed,
    runs "main" (by decide +kernel) []⟩

end MiniC
