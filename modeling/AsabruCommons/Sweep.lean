import Mathlib.Data.List.Basic

/-!
# Erasing while going over a list

A loop goes over a list by an index.  It moves on past the elements that it keeps; the others it
erases, and the index then stands for the next one.  Meanwhile elements may be appended.

When `k` elements of the list as it was, with what has been appended, have been gone over, the
list is `swept`, the loop stands at `index`, and `erased` is what it has erased.  For each thing
that can happen there is a lemma that says how the three go on.  Nothing here depends on what
the elements are.
-/

namespace AsabruCommons.Sweep

universe u

variable {α : Type u} {keep : α → Bool} {k : ℕ} {l : List α} {a : α}

/-- The list, when its first `k` elements have been gone over. -/
def swept (keep : α → Bool) (k : ℕ) (l : List α) : List α := (l.take k).filter keep ++ l.drop k

/-- Where the loop then stands. -/
def index (keep : α → Bool) (k : ℕ) (l : List α) : ℕ := ((l.take k).filter keep).length

/-- What it has erased. -/
def erased (keep : α → Bool) (k : ℕ) (l : List α) : List α := (l.take k).filter fun a ↦ !keep a

@[simp] theorem swept_zero (keep : α → Bool) (l : List α) : swept keep 0 l = l := rfl

@[simp] theorem index_zero (keep : α → Bool) (l : List α) : index keep 0 l = 0 := rfl

@[simp] theorem erased_zero (keep : α → Bool) (l : List α) : erased keep 0 l = [] := rfl

/-- At its index the loop finds the next element of the list as it was. -/
theorem getElem?_swept (keep : α → Bool) (k : ℕ) (l : List α) :
    (swept keep k l)[index keep k l]? = l[k]? := by
  rw [swept, index, List.getElem?_append_right (Nat.le_refl _), Nat.sub_self, List.getElem?_drop,
    Nat.add_zero]

/-- The loop is at the end when it has gone over everything. -/
theorem index_eq_length_iff (hk : k ≤ l.length) :
    index keep k l = (swept keep k l).length ↔ k = l.length := by
  rw [swept, List.length_append, List.length_drop, index]
  omega

theorem swept_length (keep : α → Bool) (l : List α) :
    swept keep l.length l = l.filter keep := by
  rw [swept, List.take_length, List.drop_length, List.append_nil]

theorem erased_length (keep : α → Bool) (l : List α) :
    erased keep l.length l = l.filter fun a ↦ !keep a := by
  rw [erased, List.take_length]

/-! ## The next element is kept -/

section

variable (ha : l[k]? = some a)
include ha

theorem take_succ : l.take (k + 1) = l.take k ++ [a] := by
  rw [List.take_add_one, ha, Option.toList_some]

theorem drop_eq_cons : l.drop k = a :: l.drop (k + 1) := by
  rw [List.drop_eq_getElem?_toList_append, ha, Option.toList_some, List.singleton_append]

theorem lt_length : k < l.length := (List.getElem?_eq_some_iff.mp ha).1

theorem swept_succ_of_keep (hkeep : keep a) : swept keep (k + 1) l = swept keep k l := by
  rw [swept, swept, take_succ ha, drop_eq_cons ha, List.filter_append,
    List.filter_cons_of_pos hkeep, List.filter_nil, List.append_assoc, List.singleton_append]

theorem index_succ_of_keep (hkeep : keep a) : index keep (k + 1) l = index keep k l + 1 := by
  rw [index, take_succ ha, List.filter_append, List.filter_cons_of_pos hkeep, List.filter_nil,
    List.length_append]
  rfl

theorem erased_succ_of_keep (hkeep : keep a) : erased keep (k + 1) l = erased keep k l := by
  rw [erased, take_succ ha, List.filter_append,
    List.filter_cons_of_neg (by rw [hkeep]; exact Bool.false_ne_true), List.filter_nil,
    List.append_nil]
  rfl

/-! ## The next element is erased -/

theorem eraseIdx_swept (hkeep : ¬ keep a) :
    (swept keep k l).eraseIdx (index keep k l) = swept keep (k + 1) l := by
  rw [swept, index, List.eraseIdx_append_of_length_le (Nat.le_refl _), Nat.sub_self,
    drop_eq_cons ha, List.eraseIdx_cons_zero, swept, take_succ ha, List.filter_append,
    List.filter_cons_of_neg hkeep, List.filter_nil, List.append_nil]

theorem index_succ_of_erase (hkeep : ¬ keep a) : index keep (k + 1) l = index keep k l := by
  rw [index, take_succ ha, List.filter_append, List.filter_cons_of_neg hkeep, List.filter_nil,
    List.append_nil]
  rfl

theorem erased_succ_of_erase (hkeep : ¬ keep a) :
    erased keep (k + 1) l = erased keep k l ++ [a] := by
  rw [erased, take_succ ha, List.filter_append,
    List.filter_cons_of_pos (by rw [Bool.not_eq_true] at hkeep; rw [hkeep]; rfl), List.filter_nil]
  rfl

end

/-! ## Elements are appended -/

section

variable (hk : k ≤ l.length) (m : List α)
include hk

theorem swept_append : swept keep k (l ++ m) = swept keep k l ++ m := by
  rw [swept, swept, List.take_append_of_le_length hk, List.drop_append_of_le_length hk,
    List.append_assoc]

theorem index_append : index keep k (l ++ m) = index keep k l := by
  rw [index, index, List.take_append_of_le_length hk]

theorem erased_append : erased keep k (l ++ m) = erased keep k l := by
  rw [erased, erased, List.take_append_of_le_length hk]

end

/-- What has been erased is the beginning of what will have been. -/
theorem erased_isPrefix (keep : α → Bool) (k : ℕ) (l : List α) :
    erased keep k l <+: l.filter fun a ↦ !keep a :=
  (List.take_prefix k l).filter _

end AsabruCommons.Sweep
