import MiniC.CommandLine.Files
import MiniC.Proofs.Results

/-!
# Files as a map

What a command relies on when it writes files: a path stands for a place, and a write changes what
is at its own place only. It may fail, and what it leaves at its place then is not known. Two paths
may stand for one place.

A journal of the writes that were tried tells what has become of the files. The file system in
memory is such a map: a path stands for the names that it leads to if all of its parts are there.
-/

namespace MiniC.CommandLine

variable {σ : Type}

/-- Files behind an access, as a map. -/
structure FileMap (files : FileAccess (StateM σ)) where
  Place : Type
  place : String → Place
  /-- The bytes of the file at a place, if there is one. -/
  content : σ → Place → Option ByteArray
  read_keeps : ∀ path s, content (files.read path s).2 = content s
  write_keeps : ∀ path text s other, other ≠ place path →
    content (files.write path text s).2 other = content s other
  written : ∀ path text s, (files.write path text s).1 = .ok () →
    content (files.write path text s).2 (place path) = some text.toUTF8

/-! ## Journals -/

/-- A write that was tried, and what came of it. -/
structure Attempt where
  path : String
  text : String
  result : Except FileFailure Unit

/-- The same access, with a journal of the writes that are tried. -/
def FileAccess.recorded (files : FileAccess (StateM σ)) :
    FileAccess (StateM (σ × List Attempt)) where
  read path := fun (s, journal) =>
    let (result, s') := files.read path s
    (result, (s', journal))
  write path text := fun (s, journal) =>
    let (result, s') := files.write path text s
    (result, (s', journal ++ [⟨path, text, result⟩]))

namespace FileMap

variable {files : FileAccess (StateM σ)}

/-- What has become of the files when writes have been tried. -/
structure Reflects (map : FileMap files) (s : σ) (attempts : List Attempt) (s' : σ) : Prop where
  /-- Where nothing was to be written, nothing has changed. -/
  others : ∀ place, (∀ attempt ∈ attempts, map.place attempt.path ≠ place) →
    map.content s' place = map.content s place
  /-- What was written last to a place is there. -/
  last : ∀ front attempt back, attempts = front ++ attempt :: back → attempt.result = .ok () →
    (∀ later ∈ back, map.place later.path ≠ map.place attempt.path) →
    map.content s' (map.place attempt.path) = some attempt.text.toUTF8

namespace Reflects

variable {map : FileMap files} {s s' s'' : σ} {attempts more : List Attempt}

theorem nil (same : map.content s' = map.content s) : map.Reflects s [] s' where
  others place _ := congrFun same place
  last front attempt back split := by simp at split

theorem write (path text : String) :
    map.Reflects s [⟨path, text, (files.write path text s).1⟩] (files.write path text s).2 where
  others place other := map.write_keeps path text s place fun same =>
    List.forall_mem_singleton.1 other same.symm
  last front attempt back split isOk _ := by
    cases front with
    | nil =>
      obtain ⟨rfl, -⟩ := List.cons.inj split
      exact map.written path text s isOk
    | cons head front => simp at split

theorem append (first : map.Reflects s attempts s') (second : map.Reflects s' more s'') :
    map.Reflects s (attempts ++ more) s'' where
  others place other := by
    obtain ⟨before, after⟩ := List.forall_mem_append.1 other
    rw [second.others place after, first.others place before]
  last front attempt back split isOk isLast := by
    rcases List.append_eq_append_iff.1 split with ⟨middle, rfl, rest⟩ | ⟨middle, rfl, rest⟩
    · exact second.last middle attempt back rest isOk isLast
    · cases middle with
      | nil => exact second.last [] attempt back rest.symm isOk isLast
      | cons head middle =>
        obtain ⟨rfl, rfl⟩ := List.cons.inj rest
        obtain ⟨isLast, after⟩ := List.forall_mem_append.1 isLast
        rw [second.others _ after]
        exact first.last front attempt middle rfl isOk isLast

end Reflects

end FileMap

/-! ## Paths that are places -/

/-- Access to texts by their paths. The paths that are locked can not be written. -/
def FileAccess.ofTexts (locked : String → Bool) : FileAccess (StateM (String → Option String)) where
  read path := fun texts =>
    match texts path with
    | some text => (.ok text, texts)
    | none => (.error .missing, texts)
  write path text := fun texts =>
    if locked path then (.error (.other "Permission denied (os error 13)"), texts)
    else (.ok (), fun other => if other = path then some text else texts other)

/-- Texts by their paths. -/
def FileMap.ofTexts (locked : String → Bool) : FileMap (.ofTexts locked) where
  Place := String
  place := id
  content texts path := (texts path).map String.toUTF8
  read_keeps path texts := by
    unfold FileAccess.ofTexts
    cases found : texts path <;> simp only [found]
  write_keeps path text texts other isOther := by
    unfold FileAccess.ofTexts
    dsimp only
    split
    · rfl
    · dsimp only
      rw [if_neg (show ¬ other = path from isOther)]
  written path text texts isOk := by
    unfold FileAccess.ofTexts at isOk ⊢
    dsimp only at isOk ⊢
    split at isOk
    · cases isOk
    · next open_ =>
      rw [if_neg open_]
      exact congrArg (Option.map String.toUTF8) (if_pos rfl)

/-! ## The file system in memory -/

namespace Disk

variable {disk disk' : Disk} {names names' : List String}

/-- The names that parts of a path lead to from the directory `names` if they can be followed. -/
def follow (names : List String) : List String → List String
  | [] => names
  | part :: rest =>
      if part = "" ∨ part = "." then follow names rest
      else if part = ".." then follow (outward names) rest
      else follow (names ++ [part]) rest

/-- The names that a path leads to if it can be followed. -/
def place (path : String) : List String :=
  match (parts path).reverse with
  | [] => []
  | last :: before => follow (start path) before.reverse ++ [last]

/-- The bytes of a file. -/
def content? (disk : Disk) (names : List String) : Option ByteArray :=
  match disk.item? names with
  | some (.file content) => some content
  | _ => none

theorem follow_of_enter {parts : List String} (found : disk.enter names parts = .ok names') :
    follow names parts = names' := by
  induction parts generalizing names with
  | nil => exact Except.ok.inj found
  | cons part rest ih =>
    rw [enter] at found
    rw [follow]
    split at found
    · next here =>
      rw [if_pos here]
      exact ih found
    · next down =>
      rw [if_neg down]
      split at found
      · next up =>
        rw [if_pos up]
        exact ih found
      · next named =>
        rw [if_neg named]
        obtain ⟨item, _, found⟩ := bind_eq_ok.1 found
        match item with
        | some .directory => exact ih found

theorem place_of_locate {path : String} (found : disk.locate path = .ok names) :
    place path = names := by
  unfold locate at found
  unfold place
  cases pieces : (parts path).reverse with
  | nil =>
    rw [pieces] at found
    cases found
  | cons last before =>
    rw [pieces] at found
    obtain ⟨around, entered, found⟩ := bind_eq_ok.1 found
    split at found
    · cases found
    · cases found
      exact congrArg (· ++ [last]) (follow_of_enter entered)

theorem item?_put (item : Item) (apart : isAround names = false) (other : List String) :
    (disk.put names item).item? other =
      if other = names then some item else disk.item? other := by
  unfold item? put
  by_cases same : other = names
  · subst same
    simp [apart]
  · rw [if_neg same]
    split
    · rfl
    · rw [List.find?_cons_of_neg (by simpa using Ne.symm same), List.find?_filter]
      congr 2
      funext entry
      by_cases isOther : entry.1 = other
      · simp [isOther, same]
      · simp [isOther]

/-- A write that succeeds makes a file at the place of its path. -/
theorem write_eq_ok {path : String} {content : ByteArray}
    (written : disk.write path content = .ok disk') :
    isAround (place (trimSlashes path).1) = false ∧
      disk' = disk.put (place (trimSlashes path).1) (.file content) := by
  unfold write at written
  obtain ⟨_, _, written⟩ := bind_eq_ok.1 written
  obtain ⟨names, located, written⟩ := bind_eq_ok.1 written
  have placed : place (trimSlashes path).1 = names := place_of_locate located
  rw [placed]
  split at written
  · cases written
  · obtain ⟨item, found, written⟩ := bind_eq_ok.1 written
    have isItem : disk.item? names = item := by
      unfold find at found
      split at found
      · cases found
      · exact Except.ok.inj found
    cases around : isAround names with
    | false =>
      refine ⟨rfl, ?_⟩
      split at written
      · cases written
      · exact (Except.ok.inj written).symm
    | true =>
      -- What is around is a directory, which is not overwritten.
      rw [item?, if_pos around] at isItem
      subst isItem
      cases written

/-- A write does nothing, or it makes a file at the place of its path. -/
theorem access_write (path text : String) :
    (∃ failure, access.write path text disk = (.error failure, disk)) ∨
      isAround (place (trimSlashes path).1) = false ∧
        access.write path text disk =
          (.ok (), disk.put (place (trimSlashes path).1) (.file text.toUTF8)) := by
  unfold access
  cases written : disk.write path text.toUTF8 with
  | error failure =>
    refine .inl ⟨failure, ?_⟩
    simp only [bind, StateT.bind, get, getThe, MonadStateOf.get, StateT.get, pure, written]
    rfl
  | ok disk' =>
    obtain ⟨apart, rfl⟩ := write_eq_ok written
    refine .inr ⟨apart, ?_⟩
    simp only [bind, StateT.bind, get, getThe, MonadStateOf.get, StateT.get, pure, written]
    rfl

/-- Files in memory, by the names that paths lead to. -/
def fileMap : FileMap access where
  Place := List String
  place path := place (trimSlashes path).1
  content := content?
  read_keeps path disk := rfl
  write_keeps path text disk other isOther := by
    rcases access_write path text with ⟨failure, same⟩ | ⟨apart, made⟩
    · rw [same]
    · rw [made]
      change content? (disk.put _ _) other = _
      unfold content?
      rw [item?_put _ apart, if_neg isOther]
  written path text disk isOk := by
    rcases access_write path text with ⟨failure, same⟩ | ⟨apart, made⟩
    · rw [same] at isOk
      cases isOk
    · rw [made]
      change content? (disk.put _ _) _ = _
      unfold content?
      rw [item?_put _ apart, if_pos rfl]

end Disk

end MiniC.CommandLine
