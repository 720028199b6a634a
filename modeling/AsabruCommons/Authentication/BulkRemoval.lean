import AsabruCommons.Authentication.MemoryMappedListFile
import Mathlib.Data.List.Count

/-!
# Removing one by one, and at once

`remove` takes the first occurrence of a value from the list, and `removeList` every
occurrence of every value it is given.  The list is sorted but need not be free of
duplicates: the loader takes the lines of the file as they are.

`removalsAgree_iff` says that the two agree exactly when no value occurs in the file more
often than in the arguments, and when there is something to remove or nothing to
rewrite.  Values that could not be lines do not matter, as they are not in the list.
-/

namespace AsabruCommons.Authentication.MemoryMappedListFile

open Lines

/-- Whatever the order, removing the values one by one leaves the same list and the same file as
removing them at once, and then none of them is present. -/
def RemovalsAgree (file : FileState) (vs : List Str) : Prop :=
  (∀ ws : List Str, ws.Perm vs →
      ws.foldl remove (construct file) = (construct file).removeList vs) ∧
    ∀ v ∈ vs, ((construct file).removeList vs).isPresent v = false

/-! ## What the calls leave -/

/-- The object after `loadFromFile`. -/
theorem loadFromFile_eq (l : MemoryMappedListFile) : l.loadFromFile =
    ⟨if l.file.content = [] then l.list else parseLines l.file.content, some l.file.content⟩ := by
  unfold loadFromFile ensureFileExists
  simp only [FileState.content_some, List.length_eq_zero_iff]
  by_cases hnil : l.file.content = []
  · rw [if_pos hnil, if_pos hnil]
  · rw [if_neg hnil, if_neg hnil]

/-- An edit that leaves a well-formed list is written, and what is loaded is that list. -/
theorem update_eq {l : MemoryMappedListFile} {edit : List Str → List Str}
    (h : WellFormed (edit l.list)) :
    l.update edit = ⟨edit l.list, some (unlines '\n' (edit l.list))⟩ := by
  rw [update, writeToFile, loadFromFile_eq, FileState.content_some, h.parseLines_unlines, ite_self]

theorem construct_eq (file : FileState) :
    construct file = ⟨parseLines file.content, some file.content⟩ := by
  rw [construct, loadFromFile_eq]
  by_cases hnil : file.content = []
  · rw [if_pos hnil, hnil, parseLines_nil]
  · rw [if_neg hnil]

/-- One value takes one occurrence away. -/
theorem remove_eq {l : MemoryMappedListFile} (h : WellFormed l.list) (v : Str) :
    l.remove v = ⟨l.list.erase v, some (unlines '\n' (l.list.erase v))⟩ :=
  update_eq (h.sublist List.erase_sublist)

theorem removeList_eq {l : MemoryMappedListFile} (h : WellFormed l.list) (vs : List Str) :
    l.removeList vs =
      ⟨eraseValues vs l.list, some (unlines '\n' (eraseValues vs l.list))⟩ :=
  update_eq (h.sublist List.filter_sublist)

/-- Each value takes one occurrence away, and the last call has written what is left. -/
theorem foldl_remove_eq {l : MemoryMappedListFile} (h : WellFormed l.list) (v : Str)
    (vs : List Str) :
    (v :: vs).foldl remove l =
      ⟨l.list.diff (v :: vs), some (unlines '\n' (l.list.diff (v :: vs)))⟩ := by
  induction vs generalizing l v with
  | nil => rw [List.foldl_cons, List.foldl_nil, remove_eq h, List.diff_cons, List.diff_nil]
  | cons w vs ih =>
      have hstep := remove_eq h v
      have hformed : WellFormed (l.remove v).list := by
        rw [hstep]
        exact h.sublist List.erase_sublist
      rw [List.foldl_cons, ih hformed, hstep, ← List.diff_cons]

/-! ## How often a value is left -/

theorem count_eraseValues (vs list : List Str) (v : Str) :
    (eraseValues vs list).count v = if v ∈ vs then 0 else list.count v := by
  split
  case isTrue hmem =>
    refine List.count_eq_zero.mpr fun hin ↦ ?_
    simp [eraseValues, hmem] at hin
  case isFalse hno => exact List.count_filter (by simp [hno])

/-- The two ways leave the same list if every value is given often enough. -/
theorem diff_eq_eraseValues_iff {list : List Str} (h : WellFormed list) {vs ws : List Str}
    (hperm : ws.Perm vs) :
    list.diff ws = eraseValues vs list ↔ ∀ v ∈ vs, list.count v ≤ vs.count v := by
  constructor
  · intro heq v hv
    have hcount := congrArg (List.count v) heq
    rw [List.count_diff, count_eraseValues, if_pos hv, hperm.count_eq] at hcount
    exact Nat.sub_eq_zero_iff_le.mp hcount
  · intro hall
    refine WellFormed.ext (h.sublist (List.diff_sublist _ _)) (h.sublist List.filter_sublist) ?_
    intro v
    rw [List.count_diff, count_eraseValues, hperm.count_eq]
    split
    case isTrue hv => exact Nat.sub_eq_zero_of_le (hall v hv)
    case isFalse hv => rw [List.count_eq_zero_of_not_mem hv, Nat.sub_zero]

/-- With something to remove, the file is written either way. -/
theorem foldl_remove_eq_removeList_iff {l : MemoryMappedListFile} (h : WellFormed l.list)
    {vs ws : List Str} (hperm : ws.Perm vs) (hne : vs ≠ []) :
    ws.foldl remove l = l.removeList vs ↔ ∀ v ∈ vs, l.list.count v ≤ vs.count v := by
  obtain ⟨w, us, rfl⟩ := List.exists_cons_of_ne_nil fun hnil : ws = [] ↦
    hne (List.nil_perm.mp (hnil ▸ hperm))
  rw [foldl_remove_eq h, removeList_eq h, ← diff_eq_eraseValues_iff h hperm]
  constructor
  · intro heq
    exact congrArg MemoryMappedListFile.list heq
  · intro heq
    rw [heq]

/-! ## When the two ways agree -/

/-- **Bulk and single removal.**  They agree exactly if no value to be removed occurs in the
file more often than among the arguments, and the file is as the class writes it if there
is no argument. -/
theorem removalsAgree_iff (file : FileState) (vs : List Str) :
    RemovalsAgree file vs ↔
      (∀ v ∈ vs, (parseLines file.content).count v ≤ vs.count v) ∧
        (vs = [] → unlines '\n' (parseLines file.content) = file.content) := by
  have hformed : WellFormed (construct file).list := by
    rw [construct_list]
    exact wellFormed_parseLines _
  have habsent : ∀ v ∈ vs, ((construct file).removeList vs).isPresent v = false := by
    intro v hv
    rw [removeList_eq hformed, isPresent, decide_eq_false_iff_not, ← List.count_eq_zero,
      count_eraseValues, if_pos hv]
  rw [RemovalsAgree, and_iff_left habsent]
  by_cases hvs : vs = []
  · subst hvs
    have hkeep : eraseValues [] (parseLines file.content) = parseLines file.content :=
      List.filter_eq_self.mpr fun _ _ ↦ rfl
    rw [removeList_eq hformed, construct_eq, hkeep]
    simp [eq_comm]
  · rw [and_iff_left fun hnil ↦ absurd hnil hvs, ← construct_list]
    constructor
    · intro hall
      exact (foldl_remove_eq_removeList_iff hformed (.refl vs) hvs).mp (hall vs (.refl vs))
    · intro hall ws hperm
      exact (foldl_remove_eq_removeList_iff hformed hperm hvs).mpr hall

/-- Of a value that is there twice one is left. -/
theorem not_removalsAgree_repeated : ¬ RemovalsAgree (some ['a', '\n', 'a', '\n']) [['a']] := by
  rintro ⟨hagree, -⟩
  exact absurd (hagree [['a']] (.refl _)) (by decide)

end AsabruCommons.Authentication.MemoryMappedListFile
