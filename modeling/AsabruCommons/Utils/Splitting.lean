import AsabruCommons.Utils

/-!
# Splitting is exact

The loop of `Utils::split` looks for the delimiter from `pos_start` on and goes on behind
it.  So the tokens are what lies between the occurrences of the delimiter that do not
overlap, counted from the left (`splitFrom_cut`, by induction on the part of the string
that the loop has not passed).

A delimiter without characters is found wherever one looks for it, and the loop never moves
on (`splitFrom_nil`).
-/

namespace AsabruCommons.Utils

open Search

/-- The tokens of a string that is cut at the occurrences of a delimiter. -/
structure Cut (delimiter s : Str) (tokens : List Str) : Prop where
  nonempty : tokens ≠ []
  join : delimiter.intercalate tokens = s
  free : ∀ token ∈ tokens, ¬ delimiter <:+: token
  count : tokens.length = occurrences delimiter s + 1

/-- There is nothing to be cut. -/
theorem Cut.singleton {delimiter s : Str} (h : ¬ delimiter <:+: s) : Cut delimiter s [s] where
  nonempty := List.cons_ne_nil s []
  join := List.intercalate_singleton
  free := by
    intro token htoken
    obtain rfl := List.mem_singleton.mp htoken
    exact h
  count := by
    rw [occurrences_of_not_isInfix h]
    rfl

/-- One more token in front. -/
theorem Cut.cons {delimiter token s : Str} {tokens : List Str} (hdelimiter : delimiter ≠ [])
    (h : find delimiter (token ++ (delimiter ++ s)) = some token.length)
    (hcut : Cut delimiter s tokens) :
    Cut delimiter (token ++ (delimiter ++ s)) (token :: tokens) where
  nonempty := List.cons_ne_nil token tokens
  join := by
    rw [List.intercalate_cons_of_ne_nil hcut.nonempty, hcut.join, List.append_assoc]
  free := by
    intro t ht
    rcases List.mem_cons.mp ht with rfl | ht
    · exact not_isInfix_of_find hdelimiter h
    · exact hcut.free t ht
  count := by
    rw [List.length_cons, hcut.count, occurrences_of_find hdelimiter h]

/-- **The loop.**  When it has passed over `l`, it cuts the rest, and comes to its end after
at most one round for each character. -/
theorem splitFrom_cut {delimiter : Str} (hdelimiter : delimiter ≠ []) (l s : Str) :
    ∃ tokens, (∀ rounds, s.length < rounds →
        splitFrom (l ++ s) delimiter rounds l.length = some tokens) ∧
      Cut delimiter s tokens := by
  induction hlen : s.length using Nat.strong_induction_on generalizing l s with
  | _ n ih =>
      subst hlen
      cases hfind : find delimiter s with
      | none =>
          refine ⟨[s], ?_, .singleton (find_eq_none_iff.mp hfind)⟩
          intro rounds hrounds
          obtain ⟨rounds, rfl⟩ := Nat.exists_eq_succ_of_ne_zero (Nat.ne_zero_of_lt hrounds)
          rw [splitFrom, findFrom_append, hfind]
          show (do return [← substr (l ++ s) l.length none]) = some [s]
          rw [substr_right]
          rfl
      | some n =>
          obtain ⟨⟨token, rest, rfl, rfl⟩, -⟩ := exists_of_find hfind
          have hshort : rest.length < (token ++ (delimiter ++ rest)).length := by
            have hpos := List.length_pos_iff.mpr hdelimiter
            simp only [List.length_append]
            omega
          obtain ⟨tokens, hloop, hcut⟩ := ih rest.length hshort (l ++ (token ++ delimiter)) rest rfl
          refine ⟨token :: tokens, ?_, hcut.cons hdelimiter hfind⟩
          intro rounds hrounds
          obtain ⟨rounds, rfl⟩ := Nat.exists_eq_succ_of_ne_zero (Nat.ne_zero_of_lt hrounds)
          have hnext := hloop rounds (hshort.trans_le (Nat.le_of_lt_succ hrounds))
          have hpos : token.length + l.length + delimiter.length =
              (l ++ (token ++ delimiter)).length := by
            simp only [List.length_append]
            omega
          rw [List.append_assoc, List.append_assoc, ← hpos] at hnext
          rw [splitFrom, findFrom_append, hfind, Option.map_some]
          simp only [Nat.add_sub_cancel, substr_middle, hnext]
          rfl

/-- A string that is joined from tokens without the delimiter is cut into them again. -/
theorem split_intercalate {c : Char} {tokens : List Str} (hne : tokens ≠ [])
    (hfree : ∀ token ∈ tokens, c ∉ token) {rounds : Nat}
    (hrounds : ([c].intercalate tokens).length < rounds) :
    split ([c].intercalate tokens) [c] rounds = some tokens := by
  rw [split_singleton c hrounds, List.splitOn_intercalate c hfree hne]

/-- **Splitting.**  The loop ends, and the tokens are the string cut at its delimiters. -/
theorem split_exact (s : Str) {delimiter : Str} (hdelimiter : delimiter ≠ []) :
    (∃ tokens, (∀ rounds, s.length < rounds → split s delimiter rounds = some tokens) ∧
      delimiter.intercalate tokens = s ∧ (∀ token ∈ tokens, ¬ delimiter <:+: token) ∧
      tokens.length = occurrences delimiter s + 1) ∧
    ∀ c, delimiter = [c] → ∀ tokens : List Str, tokens ≠ [] → (∀ token ∈ tokens, c ∉ token) →
      ∀ rounds, (delimiter.intercalate tokens).length < rounds →
        split (delimiter.intercalate tokens) delimiter rounds = some tokens := by
  constructor
  · obtain ⟨tokens, hloop, hcut⟩ := splitFrom_cut hdelimiter [] s
    exact ⟨tokens, hloop, hcut.join, hcut.free, hcut.count⟩
  · rintro c rfl tokens hne hfree rounds hrounds
    exact split_intercalate hne hfree hrounds

theorem split_exact_hello :
    ∃ tokens, split "Hello,World".toList ",".toList 12 = some tokens ∧
      ",".toList.intercalate tokens = "Hello,World".toList ∧ tokens.length = 2 := by
  obtain ⟨⟨tokens, hsplit, hjoin, -, hlength⟩, -⟩ :=
    split_exact "Hello,World".toList (show ",".toList ≠ [] by decide)
  exact ⟨tokens, hsplit 12 (by decide), hjoin, hlength.trans (by decide)⟩

/-! ## Termination -/

/-- Without characters in the delimiter no round is the last one. -/
theorem splitFrom_nil {s : Str} {pos : Nat} (hpos : pos ≤ s.length) (rounds : Nat) :
    splitFrom s [] rounds pos = none := by
  induction rounds with
  | zero => rfl
  | succ rounds ih =>
      have hfind : findFrom [] s pos = some pos := by
        have hzero := find_self_append [] (s.drop pos)
        rw [List.nil_append] at hzero
        rw [findFrom, if_pos hpos, hzero, Option.map_some, Nat.zero_add]
      rw [splitFrom, hfind]
      show (substr s pos (some (pos - pos)) >>= fun token ↦
        splitFrom s [] rounds pos >>= fun tokens ↦ some (token :: tokens)) = none
      rw [ih]
      cases substr s pos (some (pos - pos)) with
      | none => rfl
      | some token => rfl

/-- **When the loop ends.**  With at most one token more than there are characters. -/
theorem split_terminates_iff (s delimiter : Str) :
    (∃ rounds tokens, split s delimiter rounds = some tokens ∧ tokens.length ≤ s.length + 1) ↔
      delimiter ≠ [] := by
  constructor
  · rintro ⟨rounds, tokens, hsplit, -⟩ rfl
    rw [split, splitFrom_nil (Nat.zero_le _)] at hsplit
    cases hsplit
  · intro hdelimiter
    obtain ⟨tokens, hloop, hcut⟩ := splitFrom_cut hdelimiter [] s
    refine ⟨s.length + 1, tokens, hloop _ (Nat.lt_succ_self _), ?_⟩
    rw [hcut.count]
    exact Nat.succ_le_succ (countFrom_le delimiter 0 s)

/-- No number of rounds is enough. -/
theorem not_split_terminates :
    ¬ ∃ rounds tokens, split "a".toList [] rounds = some tokens ∧ tokens.length ≤ 2 := by
  rintro ⟨rounds, tokens, hsplit, -⟩
  rw [split, splitFrom_nil (Nat.zero_le _)] at hsplit
  cases hsplit

end AsabruCommons.Utils
