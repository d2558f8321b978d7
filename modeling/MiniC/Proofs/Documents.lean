import Mathlib.Data.List.Basic
import MiniC.Drawing
import MiniC.Proofs.Reading

/-!
# Reading drawings

The document of a drawing is read line by line: a line that opens the graph, one line for every
stroke, and one that closes the graph. A label may have any characters in it. Inside its quotes it
has no line break, and no quote that would end it, so that it stays on its line and what stands
between its quotes is known.
-/

namespace MiniC

namespace Stroke

variable {α : Type}

/-- The label and the number of a vertex. -/
def vertex? : Stroke α → Option (α × Nat)
  | vertex id label => some (label, id)
  | edge .. => none

/-- The vertices that an edge leads from and to. -/
def edge? : Stroke α → Option (Nat × Nat)
  | vertex .. => none
  | edge source target => some (source, target)

end Stroke

namespace Drawing

/-! ## Labels -/

/-- The character that is written with a backslash in front of `c`. -/
def unescapeChar (c : Char) : Char :=
  if c = 'n' then '\n' else c

/-- The label that is written between quotes. -/
def unescape : List Char → List Char
  | '\\' :: c :: chars => unescapeChar c :: unescape chars
  | c :: chars => c :: unescape chars
  | [] => []

/-- What stands before the first quote that has no backslash of its own, and what stands behind. -/
def quoted? : List Char → Option (List Char × List Char)
  | '"' :: behind => some ([], behind)
  | '\\' :: c :: chars => (quoted? chars).map fun (label, behind) => ('\\' :: c :: label, behind)
  | c :: chars => (quoted? chars).map fun (label, behind) => (c :: label, behind)
  | [] => none

/-- A character is written as it is, or with a backslash in front. -/
theorem escapeChar_cases (c : Char) :
    (escapeChar c = [c] ∧ c ≠ '"' ∧ c ≠ '\\' ∧ c ≠ '\n') ∨
      ∃ code, escapeChar c = ['\\', code] ∧ unescapeChar code = c ∧ code ≠ '\n' := by
  unfold escapeChar
  split
  · exact .inr ⟨'"', rfl, rfl, by decide⟩
  · exact .inr ⟨'\\', rfl, rfl, by decide⟩
  · exact .inr ⟨'n', rfl, rfl, by decide⟩
  · next notQuote notBackslash notBreak => exact .inl ⟨rfl, notQuote, notBackslash, notBreak⟩

theorem unescape_escape (label : List Char) : unescape (label.flatMap escapeChar) = label := by
  induction label with
  | nil => rfl
  | cons c label ih =>
    rw [List.flatMap_cons]
    rcases escapeChar_cases c with ⟨plain, _, notBackslash, _⟩ | ⟨code, escaped, isChar, _⟩
    · rw [plain, List.singleton_append, unescape, ih]
      exact fun _ _ isBackslash => absurd isBackslash notBackslash
    · rw [escaped]
      show unescapeChar code :: unescape (label.flatMap escapeChar) = c :: label
      rw [isChar, ih]

/-- The first quote that counts is the closing one. -/
theorem quoted?_escape (label behind : List Char) :
    quoted? (label.flatMap escapeChar ++ '"' :: behind) =
      some (label.flatMap escapeChar, behind) := by
  induction label with
  | nil => rfl
  | cons c label ih =>
    rw [List.flatMap_cons, List.append_assoc]
    rcases escapeChar_cases c with ⟨plain, notQuote, notBackslash, _⟩ | ⟨code, escaped, _⟩
    · rw [plain, List.singleton_append, quoted?, ih]
      · rfl
      · exact notQuote
      · exact fun _ _ isBackslash => absurd isBackslash notBackslash
    · rw [escaped]
      show (quoted? (label.flatMap escapeChar ++ '"' :: behind)).map _ = _
      rw [ih]
      rfl

theorem oneLine_escape (label : List Char) : '\n' ∉ label.flatMap escapeChar := by
  intro member
  obtain ⟨c, _, inChar⟩ := List.mem_flatMap.1 member
  rcases escapeChar_cases c with ⟨plain, _, _, notBreak⟩ | ⟨code, escaped, _, notBreak⟩
  · rw [plain, List.mem_singleton] at inChar
    exact notBreak inChar.symm
  · rw [escaped, List.mem_pair] at inChar
    rcases inChar with impossible | isCode
    · cases impossible
    · exact notBreak isCode.symm

/-! ## Lines -/

/-- A stroke as a line of a document. -/
def line : Stroke String → String
  | .vertex id label => "  node" ++ toString id ++ " [label=\"" ++ escape label ++ "\"];"
  | .edge source target => "  node" ++ toString source ++ " -> node" ++ toString target ++ ";"

/-- What follows `front`, if the characters begin with that. -/
def after? (front : String) (chars : List Char) : Option (List Char) :=
  chars.dropPrefix? front.toList

/-- A number, and what stands behind it. -/
def readNumber? (chars : List Char) : Option (Nat × List Char) :=
  (String.ofList (chars.takeWhile Char.isDigit)).toNat?.map (·, chars.dropWhile Char.isDigit)

/-- The label that ends a line, from behind its opening quote. -/
def readLabel? (chars : List Char) : Option String := do
  let (label, behind) ← quoted? chars
  if behind = "];".toList then return String.ofList (unescape label) else none

/-- The number that ends a line. -/
def readTarget? (chars : List Char) : Option Nat := do
  let (target, behind) ← readNumber? chars
  if behind = ";".toList then return target else none

/-- The stroke that a line is. -/
def readLine? (text : String) : Option (Stroke String) := do
  let chars ← after? "  node" text.toList
  let (id, chars) ← readNumber? chars
  match after? " [label=\"" chars with
  | some chars => return .vertex id (← readLabel? chars)
  | none => return .edge id (← readTarget? (← after? " -> node" chars))

theorem after?_append (front : String) (chars : List Char) :
    after? front (front.toList ++ chars) = some chars :=
  List.dropPrefix?_append_of_beq chars BEq.rfl

theorem isDigit_of_mem_toString {n : Nat} {c : Char} (member : c ∈ (toString n).toList) :
    c.isDigit := by
  have isRepr : toString n = n.repr := rfl
  rw [isRepr] at member
  exact Nat.isDigit_of_mem_toDigits (by decide) (Nat.le_refl 10) (by simpa using member)

theorem readNumber?_append (n : Nat) {behind : List Char}
    (ends : ∀ c ∈ behind.head?, c.isDigit = false) :
    readNumber? ((toString n).toList ++ behind) = some (n, behind) := by
  have digits : ∀ c ∈ (toString n).toList, c.isDigit = true := fun _ => isDigit_of_mem_toString
  have stops : behind.takeWhile Char.isDigit = [] ∧ behind.dropWhile Char.isDigit = behind := by
    cases behind with
    | nil => exact ⟨rfl, rfl⟩
    | cons c behind =>
      have noDigit : ¬ c.isDigit = true := by simpa using ends c rfl
      exact ⟨List.takeWhile_cons_of_neg noDigit, List.dropWhile_cons_of_neg noDigit⟩
  unfold readNumber?
  rw [List.takeWhile_append_of_pos digits, List.dropWhile_append_of_pos digits, stops.1, stops.2,
    List.append_nil, String.ofList_toList, show (toString n).toNat? = some n from Nat.toNat?_repr n]
  rfl

theorem toList_vertex (id : Nat) (label : String) : (line (.vertex id label)).toList =
    "  node".toList ++ ((toString id).toList ++
      (" [label=\"".toList ++ (label.toList.flatMap escapeChar ++ '"' :: "];".toList))) := by
  simp only [line, escape, String.toList_append, String.toList_ofList, List.append_assoc]
  rfl

theorem toList_edge (source target : Nat) : (line (.edge source target)).toList =
    "  node".toList ++ ((toString source).toList ++
      (" -> node".toList ++ ((toString target).toList ++ ";".toList))) := by
  simp only [line, String.toList_append, List.append_assoc]

/-- What a line says of a stroke can be read off the line. -/
theorem readLine?_line (stroke : Stroke String) : readLine? (line stroke) = some stroke := by
  cases stroke with
  | vertex id label =>
    unfold readLine? readLabel?
    rw [toList_vertex, after?_append]
    show (readNumber? _).bind _ = _
    rw [readNumber?_append id fun c isFirst => by cases isFirst; rfl]
    show (match after? _ _ with | some chars => _ | none => _) = _
    rw [after?_append]
    show ((quoted? _).bind _).bind _ = _
    rw [quoted?_escape]
    show some (Stroke.vertex id (String.ofList (unescape (label.toList.flatMap escapeChar)))) = _
    rw [unescape_escape, String.ofList_toList]
  | edge source target =>
    unfold readLine? readTarget?
    rw [toList_edge, after?_append]
    show (readNumber? _).bind _ = _
    rw [readNumber?_append source fun c isFirst => by cases isFirst; rfl]
    show (after? _ _).bind _ = _
    rw [after?_append]
    show ((readNumber? _).bind _).bind _ = _
    rw [readNumber?_append target fun c isFirst => by cases isFirst; rfl]
    rfl

/-! ## Documents -/

/-- The strokes of a document of that name. -/
def read? (name text : String) : Option (List (Stroke String)) :=
  match Text.lines text with
  | first :: others =>
      if first = "digraph " ++ name ++ " \x7b" ∧ others.getLast? = some "\x7d" then
        others.dropLast.mapM readLine?
      else none
  | [] => none

theorem oneLine_line (stroke : Stroke String) : '\n' ∉ (line stroke).toList := by
  have noBreak (n : Nat) : '\n' ∉ (toString n).toList :=
    fun member => absurd (isDigit_of_mem_toString member) (by decide)
  cases stroke with
  | vertex id label =>
    rw [toList_vertex]
    simp only [List.mem_append, List.mem_cons, not_or]
    exact ⟨by decide, noBreak id, by decide, oneLine_escape _, by decide, by decide⟩
  | edge source target =>
    rw [toList_edge]
    simp only [List.mem_append, not_or]
    exact ⟨by decide, noBreak source, by decide, noBreak target, by decide⟩

theorem getLast?_line (stroke : Stroke String) : (line stroke).toList.getLast? = some ';' := by
  cases stroke with
  | vertex id label =>
    rw [toList_vertex]
    simp only [List.getLast?_append]
    rfl
  | edge source target =>
    rw [toList_edge]
    simp only [List.getLast?_append]
    rfl

theorem strokeText_eq (stroke : Stroke String) :
    strokeText stroke = String.ofList ((line stroke).toList ++ ['\n']) := by
  cases stroke <;> simp [strokeText, line, vertexName, String.append_assoc, ← String.toList_inj]

/-- The lines of a document. -/
theorem lines_document {name : String} (oneLine : '\n' ∉ name.toList)
    (strokes : List (Stroke String)) : Text.lines (document name strokes) =
      ("digraph " ++ name ++ " \x7b") :: (strokes.map line ++ ["\x7d"]) := by
  have body : Text.lines (String.join (strokes.map strokeText) ++ "\x7d\n") =
      strokes.map line ++ ["\x7d"] := by
    induction strokes with
    | nil => decide
    | cons stroke strokes ih =>
      have noReturn : (line stroke).toList.getLast? ≠ some '\r' := by
        rw [getLast?_line]
        decide
      rw [List.map_cons, String.join_cons, String.append_assoc, strokeText_eq,
        Text.lines_append (oneLine_line stroke) noReturn, ih, String.ofList_toList]
      rfl
  have first : "digraph " ++ name ++ " \x7b\n" =
      String.ofList (("digraph " ++ name ++ " \x7b").toList ++ ['\n']) := by
    simp [String.append_assoc, ← String.toList_inj]
  unfold document
  rw [first, String.append_assoc, Text.lines_append, body, String.ofList_toList]
  · simpa using oneLine
  · simp only [String.toList_append, List.getLast?_append]
    exact fun impossible => by cases impossible

/-- A document is read as its strokes. -/
theorem read?_document {name : String} (oneLine : '\n' ∉ name.toList)
    (strokes : List (Stroke String)) : read? name (document name strokes) = some strokes := by
  have lines : ∀ strokes : List (Stroke String), (strokes.map line).mapM readLine? = some strokes := by
    intro strokes
    induction strokes with
    | nil => rfl
    | cons stroke strokes ih =>
      rw [List.map_cons, List.mapM_cons, readLine?_line, ih]
      rfl
  unfold read?
  rw [lines_document oneLine]
  show (if _ then _ else _) = _
  rw [if_pos ⟨rfl, List.getLast?_concat⟩, List.dropLast_concat, lines]

end Drawing
end MiniC
