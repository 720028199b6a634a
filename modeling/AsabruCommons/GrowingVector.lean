import Mathlib.Data.List.InsertIdx

/-!
# Vectors that outgrow their storage

A `std::vector` keeps its elements in one block of storage with room for
`capacity` of them.  A `push_back` that finds the block full moves everything to
a larger one, and every iterator into the old block is dangling from then on; a
`push_back` that finds room leaves the iterators to the elements alone.

Blocks are told apart by a counter, so an iterator is an index together with the
block it was taken in, and is valid as long as the vector is still in that
block.  How much larger the next block is differs from one standard library to
the other: it is a parameter.

Nothing here depends on what the elements are.
-/

namespace AsabruCommons

universe u

/-- By what rule a full vector picks its next capacity. -/
structure Growth where
  /-- The capacity after the one given. -/
  next : ℕ → ℕ
  /-- There is room for at least one more. -/
  grows : ∀ n, n < next n

/-- The rule of the usual implementation: twice as much, and one for an empty
vector. -/
def Growth.doubling : Growth where
  next n := n + max n 1
  grows n := Nat.lt_add_of_pos_right (Nat.lt_of_lt_of_le Nat.one_pos (Nat.le_max_right n 1))

/-- A vector: its elements, the room in its block of storage, and which block it
is.  The elements never exceed the room. -/
structure GrowingVector (α : Type u) where
  /-- The elements, in order. -/
  items : List α
  /-- How many elements the block has room for. -/
  capacity : ℕ
  /-- The number of the block. -/
  block : ℕ
  /-- The elements fit the block. -/
  fits : items.length ≤ capacity

namespace GrowingVector

/-- An iterator: a position in a block of storage. -/
structure Iterator where
  /-- The position. -/
  index : ℕ
  /-- The block it points into. -/
  block : ℕ
deriving DecidableEq, Repr

variable {α : Type u} {g : Growth} {v : GrowingVector α}

/-- The vector has not left the block the iterator points into. -/
def Iterator.Valid (it : Iterator) (v : GrowingVector α) : Prop := it.block = v.block

instance (it : Iterator) (v : GrowingVector α) : Decidable (it.Valid v) :=
  inferInstanceAs (Decidable (_ = _))

/-- The iterator to position `index`. -/
def iterator (v : GrowingVector α) (index : ℕ) : Iterator := ⟨index, v.block⟩

/-- A vector without elements, which has no room either. -/
def empty : GrowingVector α := ⟨[], 0, 0, Nat.le_refl 0⟩

/-- `push_back`: in the same block when there is room, else in the next one. -/
def pushBack (g : Growth) (v : GrowingVector α) (a : α) : GrowingVector α :=
  if h : v.items.length < v.capacity then
    { v with items := v.items ++ [a], fits := by rwa [List.length_append] }
  else
    { items := v.items ++ [a]
      capacity := g.next v.capacity
      block := v.block + 1
      fits := by
        rw [List.length_append]
        exact Nat.lt_of_le_of_lt v.fits (g.grows v.capacity) }

/-- Several `push_back`s in a row. -/
def pushAll (g : Growth) (v : GrowingVector α) (as : List α) : GrowingVector α :=
  as.foldl (pushBack g) v

/-- `erase` of the element at a position, which never changes the block. -/
def erase (v : GrowingVector α) (index : ℕ) : GrowingVector α :=
  { v with
    items := v.items.eraseIdx index
    fits := Nat.le_trans (List.length_eraseIdx_le v.items index) v.fits }

@[simp] theorem valid_iterator (v : GrowingVector α) (index : ℕ) :
    (v.iterator index).Valid v := rfl

@[simp] theorem index_iterator (v : GrowingVector α) (index : ℕ) :
    (v.iterator index).index = index := rfl

@[simp] theorem items_erase (v : GrowingVector α) (index : ℕ) :
    (v.erase index).items = v.items.eraseIdx index := rfl

@[simp] theorem items_pushBack (a : α) : (pushBack g v a).items = v.items ++ [a] := by
  unfold pushBack
  split <;> rfl

@[simp] theorem items_pushAll (as : List α) : (pushAll g v as).items = v.items ++ as := by
  induction as generalizing v with
  | nil => exact (List.append_nil _).symm
  | cons a as ih =>
      show (pushAll g (pushBack g v a) as).items = _
      rw [ih, items_pushBack, List.append_assoc, List.singleton_append]

/-! ## Erasing while going over a vector -/

/-- What was erased at a position leaves what is before it. -/
theorem take_items_erase (v : GrowingVector α) (index : ℕ) :
    (v.erase index).items.take index = v.items.take index :=
  List.take_eraseIdx_eq_take_of_le v.items index index (Nat.le_refl index)

/-- What is behind it moves up to the position. -/
theorem drop_items_erase {index : ℕ} (h : index < v.items.length) :
    (v.erase index).items.drop index = v.items.drop (index + 1) := by
  have hlength : (v.items.take index).length = index :=
    List.length_take_of_le (Nat.le_of_lt h)
  rw [items_erase, List.eraseIdx_eq_take_drop_succ]
  exact List.drop_left' hlength

/-! ## When a vector moves -/

/-- With room for one more the vector stays where it is. -/
theorem pushBack_of_lt (a : α) (h : v.items.length < v.capacity) :
    (pushBack g v a).block = v.block ∧ (pushBack g v a).capacity = v.capacity := by
  simp [pushBack, h]

/-- Without room it moves to the next block. -/
theorem block_pushBack_of_eq (a : α) (h : v.items.length = v.capacity) :
    (pushBack g v a).block = v.block + 1 := by
  simp [pushBack, h]

/-- A block that was left is never come back to. -/
theorem block_le_pushAll (as : List α) : v.block ≤ (pushAll g v as).block := by
  induction as generalizing v with
  | nil => exact Nat.le_refl _
  | cons a as ih =>
      have hone : v.block ≤ (pushBack g v a).block := by
        unfold pushBack
        split
        · exact Nat.le_refl _
        · exact Nat.le_succ _
      exact Nat.le_trans hone ih

/-- **Several `push_back`s leave the vector where it is exactly when its block
has room for all of them.** -/
theorem block_pushAll_eq_iff (as : List α) :
    (pushAll g v as).block = v.block ↔ v.items.length + as.length ≤ v.capacity := by
  induction as generalizing v with
  | nil => exact iff_of_true rfl v.fits
  | cons a as ih =>
      show (pushAll g (pushBack g v a) as).block = v.block ↔ _
      rcases Nat.lt_or_eq_of_le v.fits with hroom | hfull
      · obtain ⟨hblock, hcapacity⟩ := pushBack_of_lt (g := g) a hroom
        rw [← hblock, ih, hcapacity, items_pushBack, List.length_append, List.length_cons]
        simp only [List.length_cons, List.length_nil]
        omega
      · have hmoved := block_le_pushAll (g := g) (v := pushBack g v a) as
        rw [block_pushBack_of_eq a hfull] at hmoved
        refine iff_of_false (Nat.ne_of_gt hmoved) ?_
        rw [hfull, List.length_cons]
        omega

/-- An iterator survives several `push_back`s exactly when there was room for
them. -/
theorem valid_pushAll_iff {it : Iterator} (h : it.Valid v) (as : List α) :
    it.Valid (pushAll g v as) ↔ v.items.length + as.length ≤ v.capacity := by
  rw [← block_pushAll_eq_iff (g := g) as, Iterator.Valid, h]
  exact eq_comm

end GrowingVector

end AsabruCommons
