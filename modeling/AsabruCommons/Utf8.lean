import AsabruCommons.Run
import Mathlib.Data.Char

/-!
# Well-formed UTF-8

A text is a list of bytes, each kept as a character of this code.  The automaton that
reads it remembers the ranges in which the following bytes must lie: none between two
code points, and up to three after the first byte of one.

A byte below 128 is a code point of its own, so a text can be cut at such a byte
(`valid_append_cons`).
-/

namespace AsabruCommons

open Run

namespace Utf8

/-- The ranges of the bytes that complete a code point. -/
abbrev Pending := List (Nat × Nat)

/-- The range of a byte that is not the first of its code point. -/
def tail : Nat × Nat := (0x80, 0xBF)

/-- What must follow the first byte of a code point.  Over-long forms, surrogates and
code points beyond the last one are excluded by the range of the second byte. -/
def lead (n : Nat) : Option Pending :=
  if n ≤ 0x7F then some []
  else if n < 0xC2 then none
  else if n ≤ 0xDF then some [tail]
  else if n ≤ 0xEF then
    some [if n = 0xE0 then (0xA0, 0xBF) else if n = 0xED then (0x80, 0x9F) else tail, tail]
  else if n ≤ 0xF4 then
    some [if n = 0xF0 then (0x90, 0xBF) else if n = 0xF4 then (0x80, 0x8F) else tail, tail, tail]
  else none

/-- The next byte. -/
def next : Pending → Char → Option Pending
  | [], c => lead c.toNat
  | range :: ranges, c => if range.1 ≤ c.toNat ∧ c.toNat ≤ range.2 then some ranges else none

/-- The text is a sequence of whole code points. -/
def Valid (s : List Char) : Prop := run next [] s = some []

instance (s : List Char) : Decidable (Valid s) :=
  inferInstanceAs (Decidable (run next [] s = some []))

/-- Every byte that is awaited is at least 128. -/
theorem pending_next {p q : Pending} {c : Char} (hp : ∀ range ∈ p, 0x80 ≤ range.1)
    (h : next p c = some q) : ∀ range ∈ q, 0x80 ≤ range.1 := by
  cases p with
  | nil =>
      rw [next, lead] at h
      intro range hrange
      split_ifs at h
      all_goals
        obtain rfl := Option.some.inj h
        simp only [List.mem_cons, List.not_mem_nil, or_false] at hrange
      · exact hrange ▸ by decide
      all_goals
        rcases hrange with rfl | hrange
        · decide
        · simp_all [tail]
  | cons range ranges =>
      rw [next, Option.ite_none_right_eq_some] at h
      obtain rfl := Option.some.inj h.2
      exact fun r hr ↦ hp r (List.mem_cons_of_mem _ hr)

/-- A byte below 128 ends what is in front of it. -/
theorem valid_append_cons {c : Char} (hc : c.toNat ≤ 0x7F) (l s : List Char) :
    Valid (l ++ c :: s) ↔ Valid l ∧ Valid s := by
  have hnext : ∀ p : Pending, (∀ range ∈ p, 0x80 ≤ range.1) →
      next p c = if p = [] then some [] else none := by
    intro p hp
    cases p with
    | nil => rw [next, lead, if_pos hc, if_pos rfl]
    | cons range ranges =>
        have hlow : 0x80 ≤ range.1 := hp range List.mem_cons_self
        rw [next, if_neg (by omega), if_neg (List.cons_ne_nil range ranges)]
  rw [Valid, Valid, run_append]
  cases hl : run next [] l with
  | none => simp
  | some p =>
      have hp : ∀ range ∈ p, 0x80 ≤ range.1 :=
        run_invariant (I := fun p : Pending ↦ ∀ range ∈ p, 0x80 ≤ range.1)
          (fun _ _ _ hp h ↦ pending_next hp h) (fun range h ↦ by cases h) hl
      rw [Option.bind_some, run, hnext p hp]
      by_cases hnil : p = []
      · simp [hnil, Valid]
      · simp [hnil]

theorem valid_nil : Valid [] := rfl

theorem valid_cons {c : Char} (hc : c.toNat ≤ 0x7F) (s : List Char) : Valid (c :: s) ↔ Valid s :=
  (valid_append_cons hc [] s).trans (and_iff_right valid_nil)

theorem valid_ascii_append {l : List Char} (hl : ∀ c ∈ l, c.toNat ≤ 0x7F) (s : List Char) :
    Valid (l ++ s) ↔ Valid s := by
  induction l with
  | nil => exact Iff.rfl
  | cons c l ih =>
      rw [List.forall_mem_cons] at hl
      rw [List.cons_append, valid_cons hl.1, ih hl.2]

end Utf8

end AsabruCommons
