import AsabruCommons.Authentication.MemoryMappedListFile
import Mathlib.Data.Finset.Basic
import Mathlib.Data.Finset.SDiff

/-!
# A list file as a set

Used by one thread, a `MemoryMappedListFile` is a set of strings that outlives the
object.  The abstract model of the class is a finite set with three operations
(`SetCall.apply`); `durable_set` says that the list in memory is the increasing
enumeration of that set after any completed calls, and that a new object on the same
file has the same list.

Two things have to be right for this.  The edits must keep the list strictly increasing,
since `add` looks for duplicates at one place only.  And each string must be a line of
its own when the list is written, or it would not be the same list that is loaded.
-/

namespace AsabruCommons.Authentication.MemoryMappedListFile

open Lines

/-- A call that one thread completes. -/
inductive SetCall where
  | add (value : Str)
  | remove (value : Str)
  | removeList (valuesToRemove : List Str)
deriving DecidableEq

def SetCall.perform (l : MemoryMappedListFile) : SetCall → MemoryMappedListFile
  | add value => l.add value
  | remove value => l.remove value
  | removeList valuesToRemove => l.removeList valuesToRemove

/-- What the call is for. -/
def SetCall.apply (s : Finset Str) : SetCall → Finset Str
  | add value => insert value s
  | remove value => s.erase value
  | removeList valuesToRemove => s \ valuesToRemove.toFinset

/-- The non-empty lines of a file. -/
def fileLines (file : FileState) : List Str :=
  (lines '\n' file.content).filter fun line ↦ !line.isEmpty

/-- The object and its file hold the set `s`. -/
structure Represents (l : MemoryMappedListFile) (s : Finset Str) : Prop where
  increasing : l.list.Pairwise (· < ·)
  elements : l.list.toFinset = s
  isPresent_iff : ∀ value, l.isPresent value = true ↔ value ∈ s
  durable : (construct l.file).list = l.list

/-! ## Lists without duplicates -/

/-- The list in memory, and what its file loads to. -/
structure Saved (l : MemoryMappedListFile) : Prop where
  wellFormed : WellFormed l.list
  nodup : l.list.Nodup
  loads : parseLines l.file.content = l.list

theorem Saved.represents {l : MemoryMappedListFile} (h : Saved l) :
    Represents l l.list.toFinset where
  increasing := (h.wellFormed.sorted.and h.nodup).imp fun hlt ↦ lt_of_le_of_ne hlt.1 hlt.2
  elements := rfl
  isPresent_iff := fun value ↦ by
    rw [isPresent, decide_eq_true_iff, List.mem_toFinset]
  durable := by rw [construct_list, h.loads]

/-- A call writes the edited list and loads the same list again. -/
theorem Saved.update {l : MemoryMappedListFile} {edit : List Str → List Str}
    (hedit : WellFormed (edit l.list)) (hnodup : (edit l.list).Nodup) :
    Saved (l.update edit) ∧ (l.update edit).list = edit l.list := by
  have hcontent : (l.update edit).file.content = unlines '\n' (edit l.list) :=
    loadFromFile_content _
  have hlist : (l.update edit).list = edit l.list := by
    rw [MemoryMappedListFile.update, loadFromFile_list]
    split
    · rfl
    · exact hedit.parseLines_unlines
  refine ⟨⟨hlist ▸ hedit, hlist ▸ hnodup, ?_⟩, hlist⟩
  rw [hcontent, hlist, hedit.parseLines_unlines]

/-- A value is inserted unless it is there. -/
theorem nodup_insertValue {list : List Str} (h : WellFormed list) (hnodup : list.Nodup)
    (value : Str) :
    (insertValue value list).Nodup ∧ (insertValue value list).toFinset =
      insert value list.toFinset := by
  rw [insertValue_eq h.sorted]
  by_cases hmem : value ∈ list
  · rw [if_pos hmem]
    exact ⟨hnodup, (Finset.insert_eq_of_mem (List.mem_toFinset.mpr hmem)).symm⟩
  · rw [if_neg hmem]
    have hperm := List.perm_orderedInsert (· ≤ ·) value list
    refine ⟨hperm.nodup_iff.mpr (List.nodup_cons.mpr ⟨hmem, hnodup⟩), ?_⟩
    rw [List.toFinset_eq_of_perm _ _ hperm, List.toFinset_cons]

/-! ## Runs -/

/-- One call. -/
theorem Saved.perform {l : MemoryMappedListFile} (h : Saved l) (c : SetCall)
    (hadd : ∀ value, c = .add value → Writable value) :
    Saved (c.perform l) ∧ (c.perform l).list.toFinset = c.apply l.list.toFinset := by
  cases c with
  | add value =>
      obtain ⟨hnodup, hset⟩ := nodup_insertValue h.wellFormed h.nodup value
      obtain ⟨hsaved, hlist⟩ := Saved.update (h.wellFormed.insertValue (hadd value rfl)) hnodup
      exact ⟨hsaved, (congrArg List.toFinset hlist).trans hset⟩
  | remove value =>
      have hsub : (eraseValue value l.list).Sublist l.list := List.erase_sublist
      obtain ⟨hsaved, hlist⟩ := Saved.update (h.wellFormed.sublist hsub) (h.nodup.sublist hsub)
      refine ⟨hsaved, (congrArg List.toFinset hlist).trans ?_⟩
      ext v
      rw [SetCall.apply, Finset.mem_erase, List.mem_toFinset, List.mem_toFinset]
      exact h.nodup.mem_erase_iff
  | removeList valuesToRemove =>
      have hsub : (eraseValues valuesToRemove l.list).Sublist l.list := List.filter_sublist
      obtain ⟨hsaved, hlist⟩ := Saved.update (h.wellFormed.sublist hsub) (h.nodup.sublist hsub)
      refine ⟨hsaved, (congrArg List.toFinset hlist).trans ?_⟩
      ext v
      rw [SetCall.apply, Finset.mem_sdiff, List.mem_toFinset, List.mem_toFinset, List.mem_toFinset]
      simp [eraseValues]

/-- The object on a file whose lines are distinct. -/
theorem saved_construct {file : FileState} (h : (fileLines file).Nodup) :
    Saved (construct file) ∧ (construct file).list.toFinset = (fileLines file).toFinset := by
  have hperm : (parseLines file.content).Perm (fileLines file) := List.perm_insertionSort _ _
  refine ⟨⟨?_, ?_, ?_⟩, ?_⟩
  · rw [construct_list]
    exact wellFormed_parseLines _
  · rw [construct_list]
    exact hperm.nodup_iff.mpr h
  · rw [construct_content, construct_list]
  · rw [construct_list, List.toFinset_eq_of_perm _ _ hperm]

theorem Saved.calls {l : MemoryMappedListFile} (h : Saved l) {cs : List SetCall}
    (hadd : ∀ value, .add value ∈ cs → Writable value) :
    Saved (cs.foldl SetCall.perform l) ∧
      (cs.foldl SetCall.perform l).list.toFinset = cs.foldl SetCall.apply l.list.toFinset := by
  induction cs generalizing l with
  | nil => exact ⟨h, rfl⟩
  | cons c cs ih =>
      obtain ⟨hsaved, hset⟩ := h.perform c fun value hc ↦ hadd value (hc ▸ List.mem_cons_self)
      rw [List.foldl_cons, List.foldl_cons, ← hset]
      exact ih hsaved fun value hc ↦ hadd value (List.mem_cons_of_mem c hc)

/-- **A durable set.**  On a file whose non-empty lines are distinct, and with values
that are lines, the object holds after any calls the set that the calls make of the
lines of the file. -/
theorem durable_set (file : FileState) (hfile : (fileLines file).Nodup) (cs : List SetCall)
    (hadd : ∀ value, .add value ∈ cs → Writable value) :
    Represents (cs.foldl SetCall.perform (construct file))
      (cs.foldl SetCall.apply (fileLines file).toFinset) := by
  obtain ⟨hsaved, hset⟩ := saved_construct hfile
  obtain ⟨hsaved', hset'⟩ := hsaved.calls hadd
  rw [← hset, ← hset']
  exact hsaved'.represents

/-- A file with an empty line and an unterminated one; everything is removed in between. -/
theorem durable_set_emptied :
    Represents ([.add ['c'], .removeList [['a'], ['b'], ['c']], .remove ['x'], .add ['b'],
        .add ['a']].foldl SetCall.perform (construct (some "b\n\na".toList)))
      ([.add ['c'], .removeList [['a'], ['b'], ['c']], .remove ['x'], .add ['b'],
        .add ['a']].foldl SetCall.apply (fileLines (some "b\n\na".toList)).toFinset) := by
  refine durable_set _ (by decide) _ fun value hvalue ↦ ?_
  simp only [List.mem_cons, SetCall.add.injEq, reduceCtorEq, List.not_mem_nil, or_false,
    false_or] at hvalue
  rcases hvalue with rfl | rfl | rfl
  · decide
  · decide
  · decide

end AsabruCommons.Authentication.MemoryMappedListFile
