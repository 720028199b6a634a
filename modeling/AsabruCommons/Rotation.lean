import Mathlib.Algebra.GroupWithZero.Nat
import Mathlib.Data.List.Rotate

/-!
# Going round a list

Someone who goes round a list takes its elements in order and starts again from its
front whenever it is used up.  `Follows cycle answers` says that `answers` is what has
been taken so far.

Whoever goes round takes equal shares (`Follows.countP_eq`): as many of each kind as
there are in the list for every full round, and for the rest as many as there are at
its front.  Entering later is going round the rotated list (`Follows.drop`), so any
window of the length of the list contains what the list contains
(`Follows.countP_window`), and an element that the list contains once is taken evenly
(`Follows.countP_even`).

`blocks` repeats each element of a list as often as its share says, in one place.

Nothing here depends on what the elements are.
-/

namespace AsabruCommons

universe u

namespace Rotation

variable {α : Type u}

/-- The elements of `answers` are taken from `cycle` in order, round and round. -/
def Follows (cycle answers : List α) : Prop :=
  ∀ j a, answers[j]? = some a → cycle[j % cycle.length]? = some a

/-- Each element as often as its share says. -/
def blocks (share : α → Nat) (l : List α) : List α :=
  l.flatMap fun a ↦ List.replicate (share a) a

/-! ## Going round -/

section

variable {cycle answers : List α}

theorem Follows.of_isPrefix {out : List α} (h : Follows cycle answers) (hpre : out <+: answers) :
    Follows cycle out := by
  obtain ⟨rest, rfl⟩ := hpre
  intro j a ha
  obtain ⟨hj, -⟩ := List.getElem?_eq_some_iff.mp ha
  exact h j a (by rwa [List.getElem?_append_left hj])

/-- Whoever enters later goes round the rotated list. -/
theorem Follows.drop (h : Follows cycle answers) (n : Nat) :
    Follows (cycle.rotate n) (answers.drop n) := by
  intro j a ha
  rw [List.getElem?_drop] at ha
  have hcycle := h (n + j) a ha
  have hpos : 0 < cycle.length := by
    obtain ⟨hlt, -⟩ := List.getElem?_eq_some_iff.mp hcycle
    omega
  rw [List.length_rotate, List.getElem?_rotate (Nat.mod_lt _ hpos), Nat.mod_add_mod,
    Nat.add_comm j n, hcycle]

/-- Less than one round is the front of the list. -/
theorem Follows.eq_take (h : Follows cycle answers) (hle : answers.length ≤ cycle.length) :
    answers = cycle.take answers.length := by
  refine List.ext_getElem? fun j ↦ ?_
  rw [List.getElem?_take]
  split
  · rename_i hj
    have hanswer := List.getElem?_eq_getElem hj
    have hcycle := h j _ hanswer
    rw [Nat.mod_eq_of_lt (Nat.lt_of_lt_of_le hj hle)] at hcycle
    rw [hanswer, hcycle]
  · rename_i hj
    exact List.getElem?_eq_none (Nat.not_lt.mp hj)

/-- **Shares.**  What has been taken are full rounds and a front part of the list. -/
theorem Follows.countP_eq (h : Follows cycle answers) (p : α → Bool) :
    answers.countP p = answers.length / cycle.length * cycle.countP p +
      (cycle.take (answers.length % cycle.length)).countP p := by
  induction hn : answers.length using Nat.strong_induction_on generalizing answers with
  | _ n ih =>
      rcases Nat.lt_or_ge answers.length cycle.length with hlt | hge
      · rw [← hn, Nat.div_eq_of_lt hlt, Nat.mod_eq_of_lt hlt, Nat.zero_mul, Nat.zero_add,
          ← h.eq_take hlt.le]
      · rcases Nat.eq_zero_or_pos cycle.length with hzero | hpos
        · -- nothing can be taken from the empty list
          have hnil : answers = [] := by
            cases answers with
            | nil => rfl
            | cons a answers =>
                have hcycle := h 0 a rfl
                rw [List.length_eq_zero_iff.mp hzero] at hcycle
                cases hcycle
          rw [hnil, List.length_eq_zero_iff.mp hzero]
          simp
        · have hround := (h.of_isPrefix (List.take_prefix cycle.length answers)).eq_take
            (by rw [List.length_take]; exact Nat.min_le_left _ _)
          rw [List.length_take, Nat.min_eq_left hge, List.take_length] at hround
          have hrest := h.drop cycle.length
          rw [List.rotate_length] at hrest
          have hlen : (answers.drop cycle.length).length = n - cycle.length := by
            rw [List.length_drop, hn]
          have hshare := ih _ (by omega) hrest hlen
          have hle : cycle.length ≤ n := hn ▸ hge
          have hsplit : answers.countP p = (answers.take cycle.length).countP p +
              (answers.drop cycle.length).countP p := by
            rw [← List.countP_append, List.take_append_drop]
          rw [hround, hshare] at hsplit
          rw [hsplit, Nat.mod_eq_sub_mod hle, Nat.div_eq_sub_div hpos hle, Nat.add_one_mul]
          omega

/-- **Windows.**  A window of the length of the list contains what the list contains,
wherever it begins. -/
theorem Follows.countP_window (h : Follows cycle answers) {n : Nat}
    (hle : n + cycle.length ≤ answers.length) (p : α → Bool) :
    ((answers.drop n).take cycle.length).countP p = cycle.countP p := by
  have hround := ((h.drop n).of_isPrefix (List.take_prefix cycle.length _)).eq_take
    (by rw [List.length_take, List.length_rotate]; exact Nat.min_le_left _ _)
  rw [List.length_take, List.length_drop, Nat.min_eq_left (by omega)] at hround
  have hfull : (cycle.rotate n).take cycle.length = cycle.rotate n := by
    rw [← List.length_rotate cycle n, List.take_length]
  rw [hround, hfull]
  exact (List.rotate_perm cycle n).countP_eq p

/-- **Evenness.**  An element that the list contains once is taken as often as there are
full rounds, or as there are rounds begun. -/
theorem Follows.countP_even (h : Follows cycle answers) {p : α → Bool}
    (hone : cycle.countP p = 1) :
    answers.countP p = answers.length / cycle.length ∨
      answers.countP p = (answers.length + cycle.length - 1) / cycle.length := by
  have hshare := h.countP_eq p
  have hpos : 0 < cycle.length := by
    have hle := List.countP_le_length (p := p) (l := cycle)
    omega
  have hrest : (cycle.take (answers.length % cycle.length)).countP p ≤ 1 :=
    hone ▸ (List.take_sublist _ _).countP_le
  rw [hone, Nat.mul_one] at hshare
  rcases Nat.eq_zero_or_pos (answers.length % cycle.length) with hzero | hbegun
  · rw [hzero, List.take_zero, List.countP_nil] at hshare
    exact .inl hshare
  · have hceil : (answers.length + cycle.length - 1) / cycle.length =
        answers.length / cycle.length + 1 := by
      have hsplit := Nat.div_add_mod answers.length cycle.length
      have hlt := Nat.mod_lt answers.length hpos
      rw [Nat.div_eq_iff hpos]
      rw [Nat.add_one_mul, Nat.mul_comm]
      omega
    rw [hceil]
    omega

end

/-! ## Blocks -/

section

variable {share : α → Nat}

theorem blocks_cons (a : α) (l : List α) :
    blocks share (a :: l) = List.replicate (share a) a ++ blocks share l := List.flatMap_cons

theorem blocks_append (l m : List α) :
    blocks share (l ++ m) = blocks share l ++ blocks share m := List.flatMap_append

theorem length_blocks (l : List α) : (blocks share l).length = (l.map share).sum := by
  simp [blocks, List.length_flatMap]

theorem blocks_congr {share' : α → Nat} {l : List α} (h : ∀ a ∈ l, share a = share' a) :
    blocks share l = blocks share' l :=
  List.flatMap_congr fun a ha ↦ by rw [h a ha]

theorem countP_blocks_of_forall_not {p : α → Bool} {l : List α} (h : ∀ a ∈ l, p a = false) :
    (blocks share l).countP p = 0 := by
  rw [List.countP_eq_zero]
  intro a ha
  obtain ⟨b, hb, hab⟩ := List.mem_flatMap.mp ha
  rw [List.eq_of_mem_replicate hab, h b hb]
  exact Bool.false_ne_true

/-- The block of the only element with a property. -/
theorem countP_blocks {p : α → Bool} {a : α} {l m : List α} (ha : p a = true)
    (hl : ∀ b ∈ l, p b = false) (hm : ∀ b ∈ m, p b = false) :
    (blocks share (l ++ a :: m)).countP p = share a := by
  rw [blocks_append, blocks_cons, List.countP_append, List.countP_append,
    countP_blocks_of_forall_not hl, countP_blocks_of_forall_not hm, List.countP_replicate,
    if_pos ha]
  omega

end

end Rotation

end AsabruCommons
