import Mathlib.Data.List.Basic

/-!
# Fixed arrays

An array of a fixed number of elements, as a function has it on its stack.  Reading and
writing have a value only inside of it.

* `store` and `storeAll` write one element, and several one behind the other;
* `cString` is the string that a pointer into the array stands for: the elements up to the
  first terminator, which has to be in the array.

`written` is an array that was filled with one element before a part of it was written.  If
that element is the terminator, it is a string as long as a terminator is left
(`cString_written_isSome`).
-/

namespace AsabruCommons

universe u

structure CArray (α : Type u) (size : Nat) where
  elems : List α
  length_eq : elems.length = size

namespace CArray

variable {α : Type u} {size : Nat}

@[ext]
theorem ext {a b : CArray α size} (h : a.elems = b.elems) : a = b := by
  cases a
  cases b
  cases h
  rfl

def load (a : CArray α size) (i : Nat) : Option α := a.elems[i]?

def store (a : CArray α size) (i : Nat) (c : α) : Option (CArray α size) :=
  if i < size then some ⟨a.elems.set i c, by rw [List.length_set, a.length_eq]⟩ else none

/-- Store the elements of a list from `i` on. -/
def storeAll (a : CArray α size) (i : Nat) : List α → Option (CArray α size)
  | [] => some a
  | c :: cs => (a.store i c).bind fun a ↦ a.storeAll (i + 1) cs

/-- `memset` over the whole array. -/
def filled (size : Nat) (c : α) : CArray α size := ⟨List.replicate size c, List.length_replicate⟩

/-- An array that was filled with `zero` and then written to from its beginning. -/
def written (size : Nat) (zero : α) (l : List α) : CArray α size :=
  ⟨(l ++ List.replicate size zero).take size, by
    rw [List.length_take, List.length_append, List.length_replicate]
    omega⟩

/-! ## Writing -/

theorem store_of_le {a : CArray α size} {i : Nat} (h : size ≤ i) (c : α) : a.store i c = none :=
  if_neg (Nat.not_lt.mpr h)

/-- The element behind a part of the array is overwritten. -/
theorem store_append {l r : List α} {d : α} (h : (l ++ d :: r).length = size) (c : α) :
    (⟨l ++ d :: r, h⟩ : CArray α size).store l.length c =
      some ⟨l ++ c :: r, by
        rw [← h, List.length_append, List.length_append, List.length_cons, List.length_cons]⟩ := by
  have hlt : l.length < size := by
    rw [← h, List.length_append, List.length_cons]
    omega
  rw [store, if_pos hlt]
  refine congrArg some (ext ?_)
  show (l ++ d :: r).set l.length c = l ++ c :: r
  rw [List.set_append_right _ _ (Nat.le_refl _), Nat.sub_self, List.set_cons_zero]

/-- The element behind a part of the array is read. -/
theorem load_of_elems {a : CArray α size} {l r : List α} {c : α} (h : a.elems = l ++ c :: r) :
    a.load l.length = some c := by
  rw [load, h, List.getElem?_append_right (Nat.le_refl _), Nat.sub_self]
  rfl

/-- It is overwritten, in an array that is given by its elements. -/
theorem store_of_elems {a : CArray α size} {l r : List α} {d : α} (h : a.elems = l ++ d :: r)
    (c : α) : ∃ b, a.store l.length c = some b ∧ b.elems = l ++ c :: r := by
  have hlength : (l ++ d :: r).length = size := by
    rw [← h, a.length_eq]
  obtain rfl : a = ⟨_, hlength⟩ := ext h
  exact ⟨_, store_append hlength c, rfl⟩

/-- **Writing.**  The elements behind a part of the array are overwritten. -/
theorem storeAll_append {l old r : List α} (h : (l ++ (old ++ r)).length = size) {i : Nat}
    (hi : i = l.length) {new : List α} (hlen : new.length = old.length) :
    (⟨l ++ (old ++ r), h⟩ : CArray α size).storeAll i new =
      some ⟨l ++ (new ++ r), by
        rw [← h, List.length_append, List.length_append, List.length_append, List.length_append,
          hlen]⟩ := by
  induction new generalizing l old i with
  | nil =>
      obtain rfl := List.length_eq_zero_iff.mp hlen.symm
      rfl
  | cons c new ih =>
      subst hi
      obtain ⟨d, old, rfl⟩ := List.exists_cons_of_length_eq_add_one hlen.symm
      have hnext : (l ++ [c] ++ (old ++ r)).length = size := by
        rw [← h]
        simp
      have hstep : (⟨l ++ (d :: old ++ r), h⟩ : CArray α size).store l.length c =
          some ⟨l ++ [c] ++ (old ++ r), hnext⟩ := by
        refine (store_append h c).trans (congrArg some (ext ?_))
        exact List.append_cons l c (old ++ r)
      have hlength : l.length + 1 = (l ++ [c]).length := by simp
      rw [storeAll, hstep, Option.bind_some, ih hnext hlength (Nat.succ.inj hlen)]
      refine congrArg some (ext ?_)
      show l ++ [c] ++ (new ++ r) = l ++ (c :: new ++ r)
      rw [List.append_assoc]
      rfl

/-- The front of the array is overwritten. -/
theorem storeAll_front (a : CArray α size) {new : List α} (h : new.length ≤ size) :
    ∃ b, a.storeAll 0 new = some b ∧ b.elems = new ++ a.elems.drop new.length := by
  have hlen : new.length = (a.elems.take new.length).length := by
    rw [List.length_take, a.length_eq, Nat.min_eq_left h]
  have hsplit : ([] ++ (a.elems.take new.length ++ a.elems.drop new.length)).length = size := by
    rw [List.nil_append, List.take_append_drop]
    exact a.length_eq
  have ha : a = ⟨_, hsplit⟩ := ext (List.take_append_drop _ _).symm
  have hstore := storeAll_append hsplit rfl hlen
  rw [← ha] at hstore
  exact ⟨_, hstore, rfl⟩

/-- What does not fit is not written. -/
theorem storeAll_of_lt {a : CArray α size} {i : Nat} {cs : List α} (hi : i ≤ size)
    (h : size < i + cs.length) : a.storeAll i cs = none := by
  induction cs generalizing a i with
  | nil => exact absurd h (Nat.not_lt.mpr hi)
  | cons c cs ih =>
      rw [storeAll]
      cases hstore : a.store i c with
      | none => rfl
      | some b =>
          have hlt : i < size := by
            by_contra hno
            rw [store_of_le (Nat.not_lt.mp hno)] at hstore
            cases hstore
          rw [Option.bind_some]
          refine ih hlt ?_
          rw [List.length_cons] at h
          omega

/-! ### Arrays that are filled first -/

theorem filled_eq_written (size : Nat) (zero : α) : filled size zero = written size zero [] := by
  apply ext
  show List.replicate size zero = ([] ++ List.replicate size zero).take size
  rw [List.nil_append, List.take_of_length_le (Nat.le_of_eq List.length_replicate)]

theorem elems_written {zero : α} {l : List α} (h : l.length ≤ size) :
    (written size zero l).elems = l ++ List.replicate (size - l.length) zero := by
  show (l ++ List.replicate size zero).take size = _
  rw [List.take_append, List.take_of_length_le h, List.take_replicate,
    Nat.min_eq_left (Nat.sub_le _ _)]

/-- One more element. -/
theorem store_written {zero : α} {l : List α} (h : l.length < size) (c : α) :
    (written size zero l).store l.length c = some (written size zero (l ++ [c])) := by
  have hsplit : size - l.length = (size - (l.length + 1)) + 1 := by omega
  rw [store, if_pos h]
  refine congrArg some (ext ?_)
  have hlen : (l ++ [c]).length ≤ size := by
    rw [List.length_append, List.length_singleton]
    exact h
  show (written size zero l).elems.set l.length c = _
  rw [elems_written hlen, elems_written (Nat.le_of_lt h), hsplit, List.replicate_succ,
    List.set_append_right _ _ (Nat.le_refl _), Nat.sub_self, List.set_cons_zero,
    List.length_append, List.length_singleton, List.append_assoc]
  rfl

/-- Several more. -/
theorem storeAll_written {zero : α} {l new : List α} (h : l.length + new.length ≤ size) {i : Nat}
    (hi : i = l.length) :
    (written size zero l).storeAll i new = some (written size zero (l ++ new)) := by
  induction new generalizing l i with
  | nil =>
      rw [List.append_nil]
      rfl
  | cons c new ih =>
      subst hi
      rw [List.length_cons] at h
      have hlt : l.length < size := by omega
      have hnext : (l ++ [c]).length = l.length + 1 := by simp
      rw [storeAll, store_written hlt, Option.bind_some, ih (by omega) hnext.symm,
        List.append_assoc]
      rfl

/-- What was written lies inside of the array. -/
theorem le_of_storeAll {a b : CArray α size} {i : Nat} {cs : List α}
    (h : a.storeAll i cs = some b) (hcs : cs ≠ []) : i + cs.length ≤ size := by
  by_contra hno
  rcases Nat.lt_or_ge i size with hi | hi
  · rw [storeAll_of_lt (Nat.le_of_lt hi) (Nat.not_le.mp hno)] at h
    cases h
  · obtain ⟨c, cs, rfl⟩ := List.exists_cons_of_ne_nil hcs
    rw [storeAll, store_of_le hi] at h
    cases h

/-! ## Strings -/

section

variable [DecidableEq α]

/-- The elements in front of the first terminator. -/
def readString (zero : α) : List α → Option (List α)
  | [] => none
  | c :: s => if c = zero then some [] else (readString zero s).map (c :: ·)

/-- The string at `&a[i]`. -/
def cString (zero : α) (a : CArray α size) (i : Nat) : Option (List α) :=
  readString zero (a.elems.drop i)

theorem readString_of_notMem {zero : α} {s : List α} (h : zero ∉ s) : readString zero s = none := by
  induction s with
  | nil => rfl
  | cons c s ih =>
      rw [List.mem_cons, not_or] at h
      rw [readString, if_neg fun hc ↦ h.1 hc.symm, ih h.2, Option.map_none]

theorem readString_append {zero : α} {s : List α} (h : zero ∉ s) (rest : List α) :
    readString zero (s ++ zero :: rest) = some s := by
  induction s with
  | nil => exact if_pos rfl
  | cons c s ih =>
      rw [List.mem_cons, not_or] at h
      rw [List.cons_append, readString, if_neg fun hc ↦ h.1 hc.symm, ih h.2, Option.map_some]

theorem readString_isSome {zero : α} {s : List α} : (readString zero s).isSome ↔ zero ∈ s := by
  by_cases h : zero ∈ s
  · obtain ⟨t, rest, rfl, ht⟩ := List.eq_append_cons_of_mem h
    rw [readString_append ht]
    exact iff_of_true rfl h
  · rw [readString_of_notMem h]
    exact iff_of_false Bool.false_ne_true h

/-- A string that is followed by the terminators of a filled array. -/
theorem cString_written {zero : α} {l : List α} (h : l.length < size) (hl : zero ∉ l) :
    (written size zero l).cString zero 0 = some l := by
  have hsplit : size - l.length = (size - l.length - 1) + 1 := by omega
  rw [cString, List.drop_zero, elems_written (Nat.le_of_lt h), hsplit, List.replicate_succ]
  exact readString_append hl _

theorem cString_written_isSome {zero : α} {l : List α} (h : l.length ≤ size) :
    ((written size zero l).cString zero 0).isSome ↔ l.length < size ∨ zero ∈ l := by
  rw [cString, List.drop_zero, readString_isSome, elems_written h, List.mem_append,
    List.mem_replicate, or_comm]
  refine or_congr_left ?_
  rw [and_iff_left rfl]
  omega

end

end CArray

end AsabruCommons
