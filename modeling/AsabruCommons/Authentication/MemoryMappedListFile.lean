import AsabruCommons.Basic
import AsabruCommons.Lines
import Mathlib.Data.Char
import Mathlib.Data.List.Lex
import Mathlib.Data.List.Sort

/-!
# The sorted list file: `MemoryMappedListFile`

A `MemoryMappedListFile` keeps a sorted list of strings in memory and writes it,
one string a line, to a file.  `add`, `remove` and `removeList` have the same
three parts: they edit the list, write the list to the file, and load the list
from the file again.  Each part takes the lock of the object for itself, so other
threads may come in between.  The parts are translated one by one here; a call
that is not interrupted performs them in order (`update`).

Loading an empty file is special.  `loadFromFile` returns before it has touched
the list, so the list is then kept, not cleared.

Strings are compared byte by byte, as `std::string` does, which is the
lexicographic order of the characters.
-/

namespace AsabruCommons.Authentication

open Lines

/-- The members that matter: the list, and the file at `filePath`. -/
structure MemoryMappedListFile where
  list : List Str
  file : FileState
deriving DecidableEq

namespace MemoryMappedListFile

/-- The list that reading the lines of a file yields: empty lines are skipped,
and the others are sorted. -/
def parseLines (content : Str) : List Str :=
  ((lines '\n' content).filter fun line ↦ !line.isEmpty).insertionSort (· ≤ ·)

/-- Opening the file for appending creates it when it is absent. -/
def ensureFileExists (l : MemoryMappedListFile) : MemoryMappedListFile :=
  { l with file := some l.file.content }

def loadFromFile (l : MemoryMappedListFile) : MemoryMappedListFile :=
  let l := l.ensureFileExists
  if l.file.content.length = 0 then l else { l with list := parseLines l.file.content }

def writeToFile (l : MemoryMappedListFile) : MemoryMappedListFile :=
  { l with file := some (unlines '\n' l.list) }

/-- The constructor. -/
def construct (file : FileState) : MemoryMappedListFile := loadFromFile ⟨[], file⟩

def isPresent (l : MemoryMappedListFile) (value : Str) : Bool := value ∈ l.list

/-- The locked part of `add`.  `std::lower_bound` finds the end of the elements
that are less than the value, and nothing is inserted if the value is there. -/
def insertValue (value : Str) (list : List Str) : List Str :=
  let less := list.takeWhile (· < value)
  let rest := list.dropWhile (· < value)
  if rest.head? = some value then list else less ++ value :: rest

/-- The locked part of `remove`: `std::find` finds the first occurrence. -/
def eraseValue (value : Str) (list : List Str) : List Str := list.erase value

/-- The locked part of `removeList`. -/
def eraseValues (values : List Str) (list : List Str) : List Str :=
  list.filter fun item ↦ !values.contains item

/-- The three parts of a call that is not interrupted. -/
def update (edit : List Str → List Str) (l : MemoryMappedListFile) : MemoryMappedListFile :=
  { l with list := edit l.list }.writeToFile.loadFromFile

def add (l : MemoryMappedListFile) (value : Str) : MemoryMappedListFile :=
  l.update (insertValue value)

def remove (l : MemoryMappedListFile) (value : Str) : MemoryMappedListFile :=
  l.update (eraseValue value)

def removeList (l : MemoryMappedListFile) (valuesToRemove : List Str) : MemoryMappedListFile :=
  l.update (eraseValues valuesToRemove)

/-- A call of `add` or `remove`. -/
inductive Call where
  | add (value : Str)
  | remove (value : Str)
deriving DecidableEq

def Call.value : Call → Str
  | add value => value
  | remove value => value

/-- The locked part of a call. -/
def Call.edit : Call → List Str → List Str
  | add value => insertValue value
  | remove value => eraseValue value

/-! ## Lists that can be written

The list is sorted, and its elements are non-empty and contain no newline, so
that each of them is a line of the file. -/

/-- A value that fills a line of its own. -/
def Writable (value : Str) : Prop := value ≠ [] ∧ '\n' ∉ value

instance (value : Str) : Decidable (Writable value) :=
  inferInstanceAs (Decidable (value ≠ [] ∧ '\n' ∉ value))

structure WellFormed (list : List Str) : Prop where
  sorted : list.Pairwise (· ≤ ·)
  writable : ∀ value ∈ list, Writable value

/-- Well-formed lists are determined by how often each value occurs in them. -/
theorem WellFormed.ext {l m : List Str} (hl : WellFormed l) (hm : WellFormed m)
    (h : ∀ v, l.count v = m.count v) : l = m :=
  (List.perm_iff_count.mpr h).eq_of_pairwise' hl.sorted hm.sorted

/-! ### Loading and writing -/

theorem mem_parseLines {content value : Str} :
    value ∈ parseLines content ↔ value ∈ lines '\n' content ∧ value ≠ [] := by
  rw [parseLines, List.mem_insertionSort, List.mem_filter]
  simp

theorem wellFormed_parseLines (content : Str) : WellFormed (parseLines content) where
  sorted := List.pairwise_insertionSort _ _
  writable := fun value h ↦ by
    obtain ⟨hline, hne⟩ := mem_parseLines.mp h
    exact ⟨hne, sep_notMem_of_mem_lines hline⟩

/-- What was written is what is loaded. -/
theorem WellFormed.parseLines_unlines {list : List Str} (h : WellFormed list) :
    parseLines (unlines '\n' list) = list := by
  have hfilter : list.filter (fun line ↦ !line.isEmpty) = list := by
    rw [List.filter_eq_self]
    intro value hvalue
    simp [(h.writable value hvalue).1]
  rw [parseLines, lines_unlines fun value hvalue ↦ (h.writable value hvalue).2, hfilter]
  exact h.sorted.insertionSort_eq

theorem parseLines_nil : parseLines [] = [] := rfl

/-- The list after `loadFromFile`. -/
theorem loadFromFile_list (l : MemoryMappedListFile) :
    l.loadFromFile.list = if l.file.content = [] then l.list else parseLines l.file.content := by
  unfold loadFromFile ensureFileExists
  simp only [FileState.content_some, List.length_eq_zero_iff]
  split <;> rfl

/-- Loading changes no content. -/
@[simp] theorem loadFromFile_content (l : MemoryMappedListFile) :
    l.loadFromFile.file.content = l.file.content := by
  unfold loadFromFile ensureFileExists
  dsimp only
  split <;> rfl

/-- A new object has the lines of its file, and none if the file is absent. -/
theorem construct_list (file : FileState) :
    (construct file).list = parseLines file.content := by
  rw [construct, loadFromFile_list]
  by_cases h : file.content = []
  · rw [if_pos h, h, parseLines_nil]
  · rw [if_neg h]

@[simp] theorem construct_content (file : FileState) :
    (construct file).file.content = file.content := by
  rw [construct, loadFromFile_content]

/-! ### Editing -/

/-- On a sorted list the element at the lower bound of a value is the value if
the list contains it. -/
theorem head?_dropWhile_lt {list : List Str} (h : list.Pairwise (· ≤ ·)) (value : Str) :
    (list.dropWhile (· < value)).head? = some value ↔ value ∈ list := by
  constructor
  · intro hhead
    exact (List.dropWhile_sublist _).subset (List.mem_of_head? hhead)
  · intro hmem
    induction list with
    | nil => exact (List.not_mem_nil hmem).elim
    | cons x xs ih =>
        rw [List.pairwise_cons] at h
        by_cases hlt : x < value
        · rw [List.dropWhile_cons_of_pos (by simpa using hlt)]
          rcases List.mem_cons.mp hmem with rfl | hmem
          · exact absurd hlt (lt_irrefl _)
          · exact ih h.2 hmem
        · rw [List.dropWhile_cons_of_neg (by simpa using hlt), List.head?_cons]
          rcases List.mem_cons.mp hmem with rfl | hmem
          · rfl
          · exact congrArg some (le_antisymm (h.1 value hmem) (not_lt.mp hlt))

/-- Inserting at the lower bound is inserting into a sorted list. -/
theorem insertValue_eq {list : List Str} (h : list.Pairwise (· ≤ ·)) (value : Str) :
    insertValue value list = if value ∈ list then list else list.orderedInsert (· ≤ ·) value := by
  have hsplit : list.orderedInsert (· ≤ ·) value =
      list.takeWhile (· < value) ++ value :: list.dropWhile (· < value) := by
    rw [List.orderedInsert_eq_take_drop]
    simp only [not_le]
  rw [hsplit, insertValue]
  simp only [head?_dropWhile_lt h]

theorem WellFormed.insertValue {list : List Str} (h : WellFormed list) {value : Str}
    (hvalue : Writable value) : WellFormed (insertValue value list) := by
  rw [insertValue_eq h.sorted]
  split
  · exact h
  · refine ⟨h.sorted.orderedInsert value list, fun other hother ↦ ?_⟩
    rcases (List.mem_orderedInsert _).mp hother with rfl | hother
    · exact hvalue
    · exact h.writable other hother

theorem WellFormed.sublist {l m : List Str} (h : WellFormed m) (hsub : l.Sublist m) :
    WellFormed l :=
  ⟨h.sorted.sublist hsub, fun value hvalue ↦ h.writable value (hsub.subset hvalue)⟩

theorem WellFormed.edit {list : List Str} (h : WellFormed list) (c : Call)
    (hvalue : Writable c.value) : WellFormed (c.edit list) := by
  cases c with
  | add value => exact h.insertValue hvalue
  | remove value => exact h.sublist List.erase_sublist

/-- How often the value of a call occurs after its edit, if it occurred `n`
times before. -/
def Call.target (n : Nat) : Call → Nat
  | .add _ => max 1 n
  | .remove _ => n - 1

theorem count_edit_self {list : List Str} (h : WellFormed list) (c : Call) :
    (c.edit list).count c.value = c.target (list.count c.value) := by
  cases c with
  | add value =>
      change (insertValue value list).count value = max 1 (list.count value)
      rw [insertValue_eq h.sorted]
      by_cases hmem : value ∈ list
      · rw [if_pos hmem, max_eq_right (List.count_pos_iff.mpr hmem)]
      · rw [if_neg hmem, (List.perm_orderedInsert _ _ _).count_eq, List.count_cons_self,
          List.count_eq_zero_of_not_mem hmem]
        rfl
  | remove value => exact List.count_erase_self

/-- An edit leaves the other values alone. -/
theorem count_edit_of_ne {list : List Str} (h : WellFormed list) (c : Call) {v : Str}
    (hv : c.value ≠ v) : (c.edit list).count v = list.count v := by
  cases c with
  | add value =>
      change (insertValue value list).count v = list.count v
      rw [insertValue_eq h.sorted]
      split
      · rfl
      · have hne : value ≠ v := hv
        rw [(List.perm_orderedInsert _ _ _).count_eq, List.count_cons_of_ne hne]
  | remove value => exact List.count_erase_of_ne (Ne.symm hv)

end MemoryMappedListFile

end AsabruCommons.Authentication
