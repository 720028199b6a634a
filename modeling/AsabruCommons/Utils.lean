import AsabruCommons.Basic
import AsabruCommons.Search

/-!
# Utilities

`Utils::split` cuts a string at the places where a delimiter is found.  Its loop is run
for a number of rounds, so that `none` stands for a loop that has not come to its end.
At a delimiter of one character it ends after at most one round for each character, and
cuts there (`split_singleton`).
-/

namespace AsabruCommons

open Search

namespace Utils

/-- The loop, from `pos_start` on. -/
def splitFrom (s delimiter : Str) : Nat → Nat → Option (List Str)
  | 0, _ => none
  | rounds + 1, pos_start =>
      match findFrom delimiter s pos_start with
      | none => do return [← substr s pos_start none]
      | some pos_end => do
          let token ← substr s pos_start (some (pos_end - pos_start))
          return token :: (← splitFrom s delimiter rounds (pos_end + delimiter.length))

def split (s delimiter : Str) (rounds : Nat) : Option (List Str) := splitFrom s delimiter rounds 0

/-- The loop has passed over `l`. -/
theorem splitFrom_singleton {c : Char} {rounds : Nat} (l s : Str) (h : s.length < rounds) :
    splitFrom (l ++ s) [c] rounds l.length = some (s.splitOn c) := by
  induction rounds generalizing l s with
  | zero => exact absurd h (Nat.not_lt_zero _)
  | succ rounds ih =>
      rw [splitFrom, findFrom_append]
      by_cases hc : c ∈ s
      · obtain ⟨token, s, rfl, htoken⟩ := List.eq_append_cons_of_mem hc
        have hs : s.length < rounds := by
          simp only [List.length_append, List.length_cons] at h
          omega
        have hlength : token.length + l.length + [c].length = (l ++ (token ++ [c])).length := by
          simp
          omega
        have hrest := ih (l ++ (token ++ [c])) s hs
        rw [find_singleton_append htoken, Option.map_some]
        simp only [Nat.add_sub_cancel, substr_middle, Option.pure_def, Option.bind_eq_bind,
          Option.bind_some]
        rw [hlength, List.splitOn_append_cons_self, List.splitOn_eq_singleton htoken]
        rw [List.append_assoc, List.append_assoc, List.singleton_append] at hrest
        rw [hrest]
        rfl
      · rw [find_singleton_of_notMem hc, List.splitOn_eq_singleton hc]
        simp [substr_right]

/-- A delimiter of one character. -/
theorem split_singleton {s : Str} {rounds : Nat} (c : Char) (h : s.length < rounds) :
    split s [c] rounds = some (s.splitOn c) := splitFrom_singleton [] s h

end Utils

end AsabruCommons
