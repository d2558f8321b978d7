import MiniC.CommandLine.Command
import MiniC.Proofs.FileMaps
import MiniC.Proofs.Preservation

/-!
# What the command writes

The writes that a command tries are those of a plan, in its order, up to the first that fails. The
plan is read off the source and the arguments alone: `Arguments.outputs` gives the paths that were
asked for with the texts for them, taken from the analysis and from the compilation at the level of
the arguments. What has become of the files is told by the journal of the writes. How arguments are
read from the words of a command line does not matter: nothing is known of the reader.

A program that keeps a journal does what it does without one (`Records`), so what is shown of the
command with a journal holds of the command. It is shown for lists of outputs first, by induction,
then for one source, for the arguments, and for the words that they are read from.
-/

namespace MiniC.CommandLine

variable {σ α β : Type}

theorem bind_run (first : StateM σ α) (next : α → StateM σ β) (s : σ) :
    (first >>= next) s = next (first s).1 (first s).2 := rfl

/-! ## Journals change nothing -/

/-- The first program keeps a journal of what it tries to write, and otherwise both do the same. -/
def Records (recording : StateM (σ × List Attempt) α) (plain : StateM σ α) : Prop :=
  ∀ s journal, plain s = ((recording (s, journal)).1, (recording (s, journal)).2.1)

namespace Records

variable {files : FileAccess (StateM σ)}

theorem pure (a : α) : Records (pure a : StateM (σ × List Attempt) α) (pure a) := fun _ _ => rfl

theorem bind {recording : StateM (σ × List Attempt) α} {plain : StateM σ α}
    {next : α → StateM (σ × List Attempt) β} {next' : α → StateM σ β}
    (first : Records recording plain) (later : ∀ a, Records (next a) (next' a)) :
    Records (recording >>= next) (plain >>= next') := by
  intro s journal
  rw [bind_run, bind_run, first s journal]
  exact later _ _ _

theorem read (path : String) : Records (files.recorded.read path) (files.read path) :=
  fun _ _ => rfl

theorem write (path text : String) :
    Records (files.recorded.write path text) (files.write path text) :=
  fun _ _ => rfl

theorem writeFile (path text : String) :
    Records (writeFile files.recorded path text) (writeFile files path text) := by
  refine (write path text).bind fun result => ?_
  cases result <;> exact .pure _

theorem writeFiles (outputs : List (String × String)) :
    Records (writeFiles files.recorded outputs) (writeFiles files outputs) := by
  induction outputs with
  | nil => exact .pure _
  | cons output rest ih =>
    refine (writeFile output.1 output.2).bind fun result => ?_
    cases result with
    | ok => exact ih
    | error message => exact .pure _

theorem build (arguments : Arguments) (source : String) :
    Records (build files.recorded arguments source) (build files arguments source) := by
  unfold CommandLine.build
  cases (analyze source).result with
  | error error => exact .pure _
  | ok analysis =>
    refine (writeFiles _).bind fun result => ?_
    cases result with
    | error message => exact .pure _
    | ok =>
      dsimp only
      cases (analysis.lower arguments.options).result with
      | error error => exact .pure _
      | ok compilation => exact writeFiles _

theorem run (arguments : Arguments) :
    Records (run files.recorded arguments) (run files arguments) := by
  unfold CommandLine.run
  refine (read arguments.source).bind fun text => ?_
  cases text with
  | error failure => exact .pure _
  | ok source =>
    exact (build arguments source).bind fun result => .pure _

/-- Keeping a journal changes nothing about the command. -/
theorem command (words : List String) (reader : Reader) :
    Records (command files.recorded words reader) (command files words reader) := by
  unfold CommandLine.command
  cases reader words with
  | compile arguments => exact run arguments
  | answered text => exact .pure _
  | rejected message => exact .pure _

end Records

/-! ## The outputs -/

/-- The text of an output, if a path was given for it. -/
def asked (path : Option String) (text : String) : List (String × String) :=
  path.toList.map fun path => (path, text)

/-- The compilation that arguments ask for: at their level, and the listing names the source by its
file name. -/
def Arguments.compiled (arguments : Arguments) (source : String) : Except Error Compilation :=
  (compile source
    { level := arguments.level
      fileName := (Path.fileName? arguments.source).getD arguments.source }).result

/-- All outputs that are to be written, in order: drawings of what the analysis gives, and if the
source compiles, the text of its code and the assembly. -/
def Arguments.outputs (arguments : Arguments) (source : String) (analysis : Analysis) :
    List (String × String) :=
  asked arguments.treeGraph analysis.tree.drawing ++
  asked arguments.tableGraph analysis.table.drawing ++
  match arguments.compiled source with
  | .error _ => []
  | .ok compilation =>
      asked arguments.codeText compilation.code.text ++
      [(arguments.output.getD (Path.withExtension arguments.source "s"), compilation.assembly)]

/-- Outputs are written in order up to the first that fails. The last argument tells whether none
did. -/
inductive Carried : List (String × String) → List Attempt → Bool → Prop
  | done : Carried [] [] true
  | written {path text : String} {rest : List (String × String)} {attempts : List Attempt}
      {completed : Bool} : Carried rest attempts completed →
      Carried ((path, text) :: rest) (⟨path, text, .ok ()⟩ :: attempts) completed
  | failed {path text : String} {rest : List (String × String)} {failure : FileFailure} :
      Carried ((path, text) :: rest) [⟨path, text, .error failure⟩] false

namespace Carried

variable {outputs more : List (String × String)} {attempts later : List Attempt} {completed : Bool}

theorem append (first : Carried outputs attempts true) (second : Carried more later completed) :
    Carried (outputs ++ more) (attempts ++ later) completed := by
  generalize whole : true = all at first
  induction first with
  | done => exact second
  | written _ ih => exact .written (ih whole)
  | failed => cases whole

theorem append_failed (first : Carried outputs attempts false) :
    Carried (outputs ++ more) attempts false := by
  generalize stopped : false = all at first
  induction first with
  | done => cases stopped
  | written _ ih => exact .written (ih stopped)
  | failed => exact .failed

end Carried

/-- If the analysis succeeds, then the compilation goes on from what it gives. -/
theorem compiled_of_analyze {source : String} {analysis : Analysis}
    (analyzed : (analyze source).result = .ok analysis) (arguments : Arguments) :
    arguments.compiled source = (analysis.lower arguments.options).result := by
  unfold Arguments.compiled compile
  rw [Traced.result_bind, analyzed]
  rfl

theorem outputs_eq {source : String} {analysis : Analysis}
    (analyzed : (analyze source).result = .ok analysis) (arguments : Arguments) :
    arguments.outputs source analysis = arguments.drawings analysis ++
      match (analysis.lower arguments.options).result with
      | .error _ => []
      | .ok compilation => arguments.results compilation := by
  unfold Arguments.outputs Arguments.drawings Arguments.results asked
  rw [compiled_of_analyze analyzed]
  cases (analysis.lower arguments.options).result with
  | error error => cases arguments.treeGraph <;> cases arguments.tableGraph <;> rfl
  | ok compilation =>
    cases arguments.treeGraph <;> cases arguments.tableGraph <;> cases arguments.codeText <;> rfl

/-- A source that was analyzed has no name of a temporary in its table. -/
theorem lookupLocal_temporaryName {source : String} {analysis : Analysis}
    (analyzed : (analyze source).result = .ok analysis) (scope : ScopeId) (n : Nat) :
    analysis.table.lookupLocal scope (Lower.temporaryName n) = none := by
  obtain ⟨_, _, _, _, _, inTable, _⟩ := analyze_eq_ok analyzed
  cases found : analysis.table.lookupLocal scope (Lower.temporaryName n) with
  | none => rfl
  | some id => exact absurd rfl ((inTable.words found).ne_temporaryName n)

/-! ## What the parts of the command write -/

section Writes

variable {files : FileAccess (StateM σ)} (map : FileMap files)

theorem recorded_write (path text : String) (s : σ) (journal : List Attempt) :
    files.recorded.write path text (s, journal) = ((files.write path text s).1,
      ((files.write path text s).2,
        journal ++ [⟨path, text, (files.write path text s).1⟩])) := rfl

theorem recorded_read (path : String) (s : σ) (journal : List Attempt) :
    files.recorded.read path (s, journal) =
      ((files.read path s).1, ((files.read path s).2, journal)) := rfl

theorem writeFiles_carried (outputs : List (String × String)) (s : σ) (journal : List Attempt) :
    ∃ result s' attempts,
      writeFiles files.recorded outputs (s, journal) = (result, (s', journal ++ attempts)) ∧
      map.Reflects s attempts s' ∧ Carried outputs attempts result.isOk := by
  induction outputs generalizing s journal with
  | nil => exact ⟨.ok (), s, [], by rw [List.append_nil]; rfl, .nil rfl, .done⟩
  | cons output rest ih =>
    obtain ⟨path, text⟩ := output
    have written : map.Reflects s [⟨path, text, (files.write path text s).1⟩] _ := .write path text
    obtain ⟨result, s', tried⟩ : ∃ result s', files.write path text s = (result, s') := ⟨_, _, rfl⟩
    rw [tried] at written
    rw [writeFiles, bind_run, writeFile, bind_run, recorded_write, tried]
    cases result with
    | error failure => exact ⟨_, s', _, rfl, written, .failed⟩
    | ok =>
      obtain ⟨result, s'', attempts, found, later, carried⟩ :=
        ih s' (journal ++ [⟨path, text, .ok ()⟩])
      exact ⟨result, s'', ⟨path, text, .ok ()⟩ :: attempts, found.trans (by simp),
        written.append later, .written carried⟩

/-- What is written for a source text. Nothing is, if it does not pass the analysis. -/
theorem build_carried (arguments : Arguments) (source : String) (s : σ)
    (journal : List Attempt) :
    ∃ result s' attempts,
      build files.recorded arguments source (s, journal) = (result, (s', journal ++ attempts)) ∧
      map.Reflects s attempts s' ∧
      match (analyze source).result with
      | .error _ => result.isOk = false ∧ attempts = [] ∧ s' = s
      | .ok analysis => ∃ completed,
          Carried (arguments.outputs source analysis) attempts completed ∧
          result.isOk = (completed && (arguments.compiled source).isOk) := by
  unfold build
  cases analyzed : (analyze source).result with
  | error error =>
    exact ⟨_, s, [], by rw [List.append_nil]; rfl, .nil rfl, rfl, rfl, rfl⟩
  | ok analysis =>
    dsimp only
    rw [outputs_eq analyzed, compiled_of_analyze analyzed]
    obtain ⟨drawn, s', attempts, found, reflects, carried⟩ :=
      writeFiles_carried map (arguments.drawings analysis) s journal
    rw [bind_run, found]
    cases drawn with
    | error message =>
      exact ⟨.error message, s', attempts, rfl, reflects, false, carried.append_failed, rfl⟩
    | ok =>
      dsimp only
      cases (analysis.lower arguments.options).result with
      | error error =>
        refine ⟨_, s', attempts, rfl, reflects, true, ?_, rfl⟩
        rw [List.append_nil]
        exact carried
      | ok compilation =>
        obtain ⟨result, s'', later, found', reflects', carried'⟩ :=
          writeFiles_carried map (arguments.results compilation) s' (journal ++ attempts)
        refine ⟨result, s'', attempts ++ later, ?_, reflects.append reflects', result.isOk,
          carried.append carried', (Bool.and_true _).symm⟩
        rw [← List.append_assoc]
        exact found'

/-- What a run of the command on arguments leaves behind. If the source can not be read or does not
pass the analysis, no file changes. Otherwise the drawings that were asked for come first, of the tree
as it was analyzed and of the table without temporaries, and then, only if the source compiles, the
text of its code if it was asked for and the assembly. The first write that fails is the last. The
status is zero exactly if the source compiles and all writes succeed. -/
inductive FileMap.Leaves (arguments : Arguments) (s : σ) (outcome : Outcome)
    (attempts : List Attempt) (s' : σ) : Prop
  | unread {failure : FileFailure} : (files.read arguments.source s).1 = .error failure →
      outcome.status = 1 → attempts = [] → map.content s' = map.content s →
      Leaves arguments s outcome attempts s'
  | refused {source : String} {error : Error} : (files.read arguments.source s).1 = .ok source →
      (analyze source).result = .error error →
      outcome.status = 1 → attempts = [] → map.content s' = map.content s →
      Leaves arguments s outcome attempts s'
  | carried {source : String} {analysis : Analysis} {completed : Bool} :
      (files.read arguments.source s).1 = .ok source → (analyze source).result = .ok analysis →
      (∀ scope n, analysis.table.lookupLocal scope (Lower.temporaryName n) = none) →
      Carried (arguments.outputs source analysis) attempts completed →
      (outcome.status = if completed && (arguments.compiled source).isOk then 0 else 1) →
      Leaves arguments s outcome attempts s'

/-- When the status is zero, the source was compiled and everything was written. -/
theorem FileMap.Leaves.all_written {arguments : Arguments} {s s' : σ} {outcome : Outcome}
    {attempts : List Attempt} (leaves : map.Leaves arguments s outcome attempts s')
    (succeeds : outcome.status = 0) :
    ∃ source analysis compilation, (files.read arguments.source s).1 = .ok source ∧
      (analyze source).result = .ok analysis ∧ arguments.compiled source = .ok compilation ∧
      Carried (arguments.outputs source analysis) attempts true := by
  cases leaves with
  | unread _ status =>
    rw [status] at succeeds
    cases succeeds
  | refused _ _ status =>
    rw [status] at succeeds
    cases succeeds
  | @carried source analysis completed found analyzed _ carried status =>
    rw [status] at succeeds
    cases completed with
    | false => cases succeeds
    | true =>
      cases compiled : arguments.compiled source with
      | error error =>
        rw [compiled] at succeeds
        cases succeeds
      | ok compilation => exact ⟨source, analysis, compilation, found, analyzed, compiled, carried⟩

theorem status_ended (result : Except String Unit) :
    (ended result).status = if result.isOk then 0 else 1 := by
  cases result <;> rfl

theorem run_leaves (arguments : Arguments) (s : σ) :
    ∃ outcome s' attempts, run files.recorded arguments (s, []) = (outcome, (s', attempts)) ∧
      map.Reflects s attempts s' ∧ map.Leaves arguments s outcome attempts s' := by
  have untouched := map.read_keeps arguments.source s
  unfold run
  rw [bind_run, recorded_read]
  cases found : (files.read arguments.source s).1 with
  | error failure => exact ⟨_, _, _, rfl, .nil untouched, .unread found rfl rfl untouched⟩
  | ok source =>
    obtain ⟨result, s', attempts, built, reflects, carried⟩ :=
      build_carried map arguments source (files.read arguments.source s).2 []
    have status := status_ended result
    dsimp only
    rw [bind_run, built, List.nil_append]
    refine ⟨_, s', attempts, rfl, (FileMap.Reflects.nil untouched).append reflects, ?_⟩
    cases analyzed : (analyze source).result with
    | error error =>
      rw [analyzed] at carried
      obtain ⟨stopped, nothing, rfl⟩ := carried
      rw [stopped] at status
      exact .refused found analyzed status nothing untouched
    | ok analysis =>
      rw [analyzed] at carried
      obtain ⟨completed, carried, isOk⟩ := carried
      rw [isOk] at status
      exact .carried found analyzed (lookupLocal_temporaryName analyzed) carried status

end Writes

/-- The command tries to write what it should, in order, and nothing else changes, whatever reads its
arguments. Words that the reader rejects or answers itself change no file. -/
theorem command_writes {files : FileAccess (StateM σ)} (map : FileMap files) (reader : Reader)
    (words : List String) (s : σ) :
    ∃ (outcome : Outcome) (s' : σ) (attempts : List Attempt),
      command files words reader s = (outcome, s') ∧
      command files.recorded words reader (s, []) = (outcome, (s', attempts)) ∧
      map.Reflects s attempts s' ∧
      match reader words with
      | .compile arguments => map.Leaves arguments s outcome attempts s'
      | .answered text => outcome = ⟨0, text, ""⟩ ∧ attempts = [] ∧ map.content s' = map.content s
      | .rejected _ => outcome.status = 2 ∧ attempts = [] ∧ map.content s' = map.content s := by
  have plain : command files words reader s = _ := Records.command words reader s []
  unfold command at plain ⊢
  generalize reader words = reading at plain ⊢
  cases reading with
  | compile arguments =>
    obtain ⟨outcome, s', attempts, ran, reflects, leaves⟩ := run_leaves map arguments s
    dsimp only at plain ⊢
    rw [ran] at plain
    exact ⟨outcome, s', attempts, plain, ran, reflects, leaves⟩
  | answered text => exact ⟨_, s, [], rfl, rfl, .nil rfl, rfl, rfl, rfl⟩
  | rejected message => exact ⟨_, s, [], rfl, rfl, .nil rfl, rfl, rfl, rfl⟩

/-- A program that folding makes shorter. -/
def sumSource : String := "int main() { return 1 + 2; }"

/-- The files before the program is compiled. -/
def sumFiles : String → Option String := fun path => if path = "a.c" then some sumSource else none

/-- The drawing of the tree is asked for and the text of the code, at the first level. -/
def sumWords : List String := ["-O1", "--ast-graph", "t", "--intermediate-code", "q", "a.c"]

theorem command_writes_folded :
    ∃ outcome files analysis compilation,
      command (.ofTexts fun _ => false) sumWords readWords sumFiles = (outcome, files) ∧
      outcome.status = 0 ∧ (analyze sumSource).result = .ok analysis ∧
      (compile sumSource { level := 1, fileName := "a.c" }).result = .ok compilation ∧
      (files "t").map String.toUTF8 = some analysis.tree.drawing.toUTF8 ∧
      analysis.tree.descendants.length = 7 ∧
      (files "q").map String.toUTF8 = some compilation.code.text.toUTF8 ∧
      compilation.code.text = "main:\n\tq_load    3         -         $0        \n" ++
        "\tq_return  label0    $0        -         \n" ++
        "\tq_label   label0    -         -         \n" ∧
      (files "a.s").map String.toUTF8 = some compilation.assembly.toUTF8 ∧
      (files "a.c").map String.toUTF8 = some sumSource.toUTF8 := by
  have unfolded : (analyze sumSource).result.toOption.map (·.tree.descendants.length) = some 7 := by
    decide +kernel
  have folded : (compile sumSource { level := 1, fileName := "a.c" }).result.toOption.map
      (·.code.text) = some ("main:\n\tq_load    3         -         $0        \n" ++
        "\tq_return  label0    $0        -         \n" ++
        "\tq_label   label0    -         -         \n") := by
    decide +kernel
  have succeeds : (command (.ofTexts fun _ => false) sumWords readWords sumFiles).1.status = 0 := by
    decide +kernel
  obtain ⟨outcome, files, attempts, ran, _, reflects, writes⟩ :=
    command_writes (.ofTexts fun _ => false) readWords sumWords sumFiles
  rw [ran] at succeeds
  have isRead : readWords sumWords = .compile ⟨"a.c", 1, none, some "t", none, some "q"⟩ := rfl
  rw [isRead] at writes
  obtain ⟨source, analysis, compilation, found, analyzed, compiled, carried⟩ :=
    writes.all_written _ succeeds
  have isSource : ((FileAccess.ofTexts fun _ => false).read "a.c" sumFiles).1 = .ok sumSource := rfl
  cases isSource.symm.trans found
  rw [analyzed] at unfolded
  rw [show (compile sumSource { level := 1, fileName := "a.c" }).result = _ from compiled] at folded
  have isOutputs :
      Arguments.outputs ⟨"a.c", 1, none, some "t", none, some "q"⟩ sumSource analysis =
      [("t", analysis.tree.drawing), ("q", compilation.code.text),
        ("a.s", compilation.assembly)] := by
    unfold Arguments.outputs
    rw [compiled]
    rfl
  rw [isOutputs] at carried
  obtain - | ⟨_ | ⟨_ | ⟨_ | _⟩⟩⟩ := carried
  refine ⟨outcome, files, analysis, compilation, ran, succeeds, analyzed, compiled, ?_,
    Option.some.inj unfolded, ?_, Option.some.inj folded, ?_, ?_⟩
  · exact reflects.last [] _ [_, _] rfl rfl (by simp [FileMap.ofTexts])
  · exact reflects.last [_] _ [_] rfl rfl (by simp [FileMap.ofTexts])
  · exact reflects.last [_, _] _ [] rfl rfl (by simp)
  · exact reflects.others "a.c" (by simp [FileMap.ofTexts])

end MiniC.CommandLine
