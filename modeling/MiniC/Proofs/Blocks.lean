/-!
# Nested blocks of names

The names in sight at a place of a program, block by block, the innermost block first. What a name
is bound to may be a value, as in a running program, or the place that holds the value.
-/

namespace MiniC

/-- Blocks around a place, the innermost first, each with its names and what they are bound to. -/
abbrev Blocks (α : Type) : Type := List (List (String × α))

namespace Blocks

variable {α β : Type}

/-- What the first entry of that name in a block is bound to. -/
def findIn (name : String) : List (String × α) → Option α
  | [] => none
  | (other, bound) :: entries => if other = name then some bound else findIn name entries

/-- What the innermost entry of that name is bound to. -/
def find? (name : String) : Blocks α → Option α
  | [] => none
  | block :: blocks =>
      match findIn name block with
      | some bound => some bound
      | none => find? name blocks

/-- Bind the first entry of that name in a block to something else. -/
def setIn (name : String) (value : α) : List (String × α) → List (String × α)
  | [] => []
  | (other, bound) :: entries =>
      if other = name then (other, value) :: entries
      else (other, bound) :: setIn name value entries

/-- Bind the innermost entry of that name to something else. -/
def set (name : String) (value : α) : Blocks α → Blocks α
  | [] => []
  | block :: blocks =>
      match findIn name block with
      | some _ => setIn name value block :: blocks
      | none => block :: set name value blocks

/-- Everything that is bound, in order. -/
def bounds (blocks : Blocks α) : List α :=
  blocks.flatMap (·.map (·.2))

/-- Bind all names to the images of what they are bound to. -/
def image (f : α → β) (blocks : Blocks α) : Blocks β :=
  List.map (List.map fun entry => (entry.1, f entry.2)) blocks

theorem findIn_cons (name : String) (entry : String × α) (entries : List (String × α)) :
    findIn name (entry :: entries) = if entry.1 = name then some entry.2 else findIn name entries :=
  rfl

theorem find?_cons (name : String) (block : List (String × α)) (blocks : Blocks α) :
    find? name (block :: blocks) = (findIn name block).or (find? name blocks) := by
  conv => lhs; unfold find?
  cases findIn name block <;> rfl

theorem image_cons (f : α → β) (block : List (String × α)) (blocks : Blocks α) :
    image f (block :: blocks) = block.map (fun entry => (entry.1, f entry.2)) :: image f blocks := rfl

theorem findIn_image (f : α → β) (name : String) (block : List (String × α)) :
    findIn name (block.map fun entry => (entry.1, f entry.2)) = (findIn name block).map f := by
  induction block with
  | nil => rfl
  | cons entry block ih =>
    obtain ⟨other, bound⟩ := entry
    simp only [List.map_cons, findIn]
    split
    · rfl
    · exact ih

theorem find?_image (f : α → β) (name : String) (blocks : Blocks α) :
    find? name (image f blocks) = (find? name blocks).map f := by
  induction blocks with
  | nil => rfl
  | cons block blocks ih =>
    rw [image_cons]
    unfold find?
    rw [findIn_image]
    cases findIn name block with
    | none => exact ih
    | some bound => rfl

theorem mem_of_findIn {name : String} {bound : α} {block : List (String × α)}
    (found : findIn name block = some bound) : bound ∈ block.map (·.2) := by
  induction block with
  | nil => cases found
  | cons entry block ih =>
    obtain ⟨other, first⟩ := entry
    unfold findIn at found
    split at found
    · cases found
      exact List.mem_cons_self
    · exact List.mem_cons_of_mem _ (ih found)

theorem mem_bounds_of_find? {name : String} {bound : α} {blocks : Blocks α}
    (found : blocks.find? name = some bound) : bound ∈ blocks.bounds := by
  induction blocks with
  | nil => cases found
  | cons block blocks ih =>
    unfold find? at found
    simp only [bounds, List.flatMap_cons, List.mem_append]
    split at found
    · next found' =>
      cases found
      exact .inl (mem_of_findIn found')
    · exact .inr (ih found)

/-- Changing what one bound thing is mapped to sets the entry that is bound to it, if no other entry
of the block is. -/
theorem setIn_image {f g : α → β} {name : String} {bound : α} {block : List (String × α)}
    (found : findIn name block = some bound) (distinct : (block.map (·.2)).Nodup)
    (same : ∀ other ∈ block.map (·.2), other ≠ bound → g other = f other) :
    block.map (fun entry => (entry.1, g entry.2)) =
      setIn name (g bound) (block.map fun entry => (entry.1, f entry.2)) := by
  induction block with
  | nil => cases found
  | cons entry block ih =>
    obtain ⟨other, first⟩ := entry
    simp only [List.map_cons, List.nodup_cons] at distinct
    unfold findIn at found
    simp only [List.map_cons, setIn]
    split at found
    · next isName =>
      cases found
      rw [if_pos isName]
      refine congrArg (List.cons _) (List.map_congr_left fun entry member => ?_)
      have inBlock := List.mem_map_of_mem (f := (·.2)) member
      rw [same entry.2 (List.mem_cons_of_mem _ inBlock) fun eq => distinct.1 (eq ▸ inBlock)]
    · next isOther =>
      rw [if_neg isOther, ih found distinct.2 fun b m => same b (List.mem_cons_of_mem _ m)]
      have differs : first ≠ bound := fun eq => distinct.1 (eq ▸ mem_of_findIn found)
      rw [same first List.mem_cons_self differs]

/-- Changing what one bound thing is mapped to sets the innermost entry that is bound to it, if no
other entry is. -/
theorem set_image {f g : α → β} {name : String} {bound : α} {blocks : Blocks α}
    (found : blocks.find? name = some bound) (distinct : blocks.bounds.Nodup)
    (same : ∀ other ∈ blocks.bounds, other ≠ bound → g other = f other) :
    image g blocks = set name (g bound) (image f blocks) := by
  induction blocks with
  | nil => cases found
  | cons block blocks ih =>
    simp only [bounds, List.flatMap_cons, List.mem_append, List.nodup_append] at distinct same
    rw [image_cons, image_cons]
    unfold find? at found
    unfold set
    rw [findIn_image]
    split at found
    · next found' =>
      cases found
      rw [found']
      have mem := mem_of_findIn found'
      have first := setIn_image found' distinct.1 fun b m => same b (.inl m)
      have others : image g blocks = image f blocks := by
        refine List.map_congr_left fun b mb => List.map_congr_left fun entry me => ?_
        have inBlocks : entry.2 ∈ blocks.flatMap (·.map (·.2)) :=
          List.mem_flatMap.2 ⟨b, mb, List.mem_map_of_mem me⟩
        rw [same entry.2 (.inr inBlocks) fun eq => distinct.2.2 bound mem entry.2 inBlocks eq.symm]
      rw [first, others]
      rfl
    · next missing =>
      rw [missing]
      have mem := mem_bounds_of_find? found
      have first : block.map (fun entry => (entry.1, g entry.2)) =
          block.map fun entry => (entry.1, f entry.2) := by
        refine List.map_congr_left fun entry me => ?_
        have inBlock := List.mem_map_of_mem (f := (·.2)) me
        rw [same entry.2 (.inl inBlock) fun eq => distinct.2.2 entry.2 inBlock bound mem eq]
      rw [first, ih found distinct.2.1 fun b m => same b (.inr m)]
      rfl

end Blocks
end MiniC
