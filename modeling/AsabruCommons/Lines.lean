import Mathlib.Data.List.Basic
import Mathlib.Data.List.DropRight

/-!
# Texts as lists of lines

`lines sep s` is what reading `s` line by line yields: the pieces between the
separators, where a separator ends the line before it instead of starting a new
one.  So a text with no separator at its end has an unterminated last line, and
the empty text has no line at all.  `unlines` writes lines, each ended by a
separator.

The two are inverse to each other on lines without separators and on terminated
texts (`lines_unlines`, `unlines_lines`).  A terminated text can be extended
without touching its lines (`lines_append`).  In any other text it is the
`unfinished` line at the end that an extension continues.

The alphabet and the separator are arbitrary.
-/

namespace AsabruCommons

universe u

namespace Lines

variable {α : Type u}

/-- Write each line followed by the separator. -/
def unlines (sep : α) : List (List α) → List α
  | [] => []
  | l :: ls => l ++ sep :: unlines sep ls

@[simp] theorem unlines_nil (sep : α) : unlines sep [] = [] := rfl

@[simp] theorem unlines_cons (sep : α) (l : List α) (ls : List (List α)) :
    unlines sep (l :: ls) = l ++ sep :: unlines sep ls := rfl

@[simp] theorem unlines_append (sep : α) (ls ms : List (List α)) :
    unlines sep (ls ++ ms) = unlines sep ls ++ unlines sep ms := by
  induction ls with
  | nil => rfl
  | cons l ls ih => simp [ih]

/-- Every line of the text is ended by a separator. -/
def Terminated (sep : α) (s : List α) : Prop := ∀ c ∈ s.getLast?, c = sep

variable {sep : α}

theorem terminated_nil : Terminated sep [] := fun _ h ↦ by cases h

theorem Terminated.of_cons {c d : α} {s : List α} (h : Terminated sep (c :: d :: s)) :
    Terminated sep (d :: s) := fun e he ↦ h e (by rwa [List.getLast?_cons_cons])

theorem terminated_unlines (ls : List (List α)) : Terminated sep (unlines sep ls) := by
  induction ls with
  | nil => exact terminated_nil
  | cons l ls ih =>
      intro c hc
      rw [unlines_cons, List.getLast?_append, List.getLast?_cons] at hc
      cases hs : (unlines sep ls).getLast? with
      | none => simpa [hs, eq_comm] using hc
      | some d =>
          have hd : d = sep := ih d (by rw [hs]; rfl)
          simpa [hs, hd, eq_comm] using hc

section

variable [DecidableEq α]

instance (sep : α) (s : List α) : Decidable (Terminated sep s) :=
  inferInstanceAs (Decidable (∀ c ∈ s.getLast?, c = sep))

/-- The successive lines of a text. -/
def lines (sep : α) : List α → List (List α)
  | [] => []
  | c :: s =>
      if c = sep then [] :: lines sep s
      else match lines sep s with
        | [] => [[c]]
        | l :: ls => (c :: l) :: ls

@[simp] theorem lines_nil : lines sep [] = [] := rfl

@[simp] theorem lines_sep_cons (s : List α) : lines sep (sep :: s) = [] :: lines sep s := by
  simp [lines]

/-- No line contains the separator. -/
theorem sep_notMem_of_mem_lines {s l : List α} (h : l ∈ lines sep s) : sep ∉ l := by
  induction s generalizing l with
  | nil => cases h
  | cons c s ih =>
      by_cases hc : c = sep
      · subst hc
        rw [lines_sep_cons] at h
        rcases List.mem_cons.mp h with rfl | h
        · exact List.not_mem_nil
        · exact ih h
      · rw [lines, if_neg hc] at h
        cases hs : lines sep s with
        | nil =>
            rw [hs] at h
            rw [List.mem_singleton.mp h, List.mem_singleton]
            exact Ne.symm hc
        | cons m ms =>
            rw [hs] at h ih
            rcases List.mem_cons.mp h with rfl | h
            · rw [List.mem_cons, not_or]
              exact ⟨Ne.symm hc, ih List.mem_cons_self⟩
            · exact ih (List.mem_cons_of_mem m h)

/-- A separator-free line is peeled off at the separator that ends it. -/
theorem lines_line_append {l : List α} (hl : sep ∉ l) (s : List α) :
    lines sep (l ++ sep :: s) = l :: lines sep s := by
  induction l with
  | nil => simp
  | cons c l ih =>
      rw [List.mem_cons, not_or] at hl
      rw [List.cons_append, lines, if_neg (Ne.symm hl.1), ih hl.2]

/-- A separator-free text is its own and only line, unless it is empty. -/
theorem lines_of_sep_notMem {l : List α} (hl : sep ∉ l) (hne : l ≠ []) : lines sep l = [l] := by
  induction l with
  | nil => exact absurd rfl hne
  | cons c l ih =>
      rw [List.mem_cons, not_or] at hl
      rw [lines, if_neg (Ne.symm hl.1)]
      cases l with
      | nil => rfl
      | cons d l => rw [ih hl.2 (List.cons_ne_nil d l)]

/-- Any other character continues the first line. -/
theorem lines_cons_of_ne {c : α} (h : sep ≠ c) (s : List α) :
    lines sep (c :: s) = (c :: (lines sep s).headD []) :: (lines sep s).tail := by
  rw [lines, if_neg (Ne.symm h)]
  cases lines sep s with
  | nil => rfl
  | cons l ls => rfl

/-- A separator-free text continues the line behind it. -/
theorem lines_append_of_sep_notMem {l : List α} (hl : sep ∉ l) (hne : l ≠ []) (s : List α) :
    lines sep (l ++ s) = (l ++ (lines sep s).headD []) :: (lines sep s).tail := by
  induction l with
  | nil => exact absurd rfl hne
  | cons c l ih =>
      rw [List.mem_cons, not_or] at hl
      rw [List.cons_append, lines_cons_of_ne hl.1]
      cases l with
      | nil => rfl
      | cons d l =>
          rw [ih hl.2 (List.cons_ne_nil d l)]
          rfl

/-- Lines written and read back are the same lines. -/
theorem lines_unlines_append {ls : List (List α)} (h : ∀ l ∈ ls, sep ∉ l) (s : List α) :
    lines sep (unlines sep ls ++ s) = ls ++ lines sep s := by
  induction ls with
  | nil => rfl
  | cons l ls ih =>
      rw [List.forall_mem_cons] at h
      rw [unlines_cons, List.append_assoc, List.cons_append, lines_line_append h.1, ih h.2,
        List.cons_append]

theorem lines_unlines {ls : List (List α)} (h : ∀ l ∈ ls, sep ∉ l) :
    lines sep (unlines sep ls) = ls := by
  simpa using lines_unlines_append h []

/-- A text that is put together from terminated lines. -/
theorem lines_flatten {ls : List (List α)} (h : ∀ l ∈ ls, ∃ m, l = m ++ [sep] ∧ sep ∉ m) :
    lines sep ls.flatten = ls.map List.dropLast := by
  induction ls with
  | nil => rfl
  | cons l ls ih =>
      rw [List.forall_mem_cons] at h
      obtain ⟨⟨m, rfl, hm⟩, hls⟩ := h
      rw [List.flatten_cons, List.append_assoc, List.singleton_append, lines_line_append hm, ih hls,
        List.map_cons, List.dropLast_concat]

/-- A terminated text is what writing its lines gives. -/
theorem unlines_lines {s : List α} (h : Terminated sep s) : unlines sep (lines sep s) = s := by
  induction s with
  | nil => rfl
  | cons c s ih =>
      by_cases hc : c = sep
      · subst hc
        have hs : Terminated c s := by
          cases s with
          | nil => exact terminated_nil
          | cons d s => exact h.of_cons
        rw [lines_sep_cons, unlines_cons, ih hs, List.nil_append]
      · cases s with
        | nil => exact absurd (h c rfl) hc
        | cons d s =>
            have hs := ih h.of_cons
            rw [lines, if_neg hc]
            cases hl : lines sep (d :: s) with
            | nil => simp [hl] at hs
            | cons l ls =>
                rw [hl] at hs
                rw [unlines_cons, List.cons_append, ← unlines_cons, hs]

/-- A text of several lines has a separator behind the first one. -/
theorem exists_eq_append_sep {s : List α} (h : 1 < (lines sep s).length) :
    ∃ l t, s = l ++ sep :: t ∧ sep ∉ l := by
  refine List.eq_append_cons_of_mem ?_
  by_contra hno
  cases s with
  | nil => exact absurd h (Nat.not_lt_zero _)
  | cons c s =>
      rw [lines_of_sep_notMem hno (List.cons_ne_nil c s)] at h
      exact absurd h (Nat.lt_irrefl _)

/-- A line that is not the last one, with the lines in front of it. -/
theorem exists_eq_unlines_append {s : List α} {k : Nat} (h : k + 1 < (lines sep s).length) :
    ∃ ls l t, s = unlines sep ls ++ (l ++ sep :: t) ∧ ls.length = k ∧ (∀ m ∈ ls, sep ∉ m) ∧
      sep ∉ l := by
  induction k generalizing s with
  | zero =>
      obtain ⟨l, t, rfl, hl⟩ := exists_eq_append_sep h
      exact ⟨[], l, t, rfl, rfl, nofun, hl⟩
  | succ k ih =>
      obtain ⟨m, u, rfl, hm⟩ := exists_eq_append_sep (by omega : 1 < (lines sep s).length)
      rw [lines_line_append hm, List.length_cons] at h
      obtain ⟨ls, l, t, rfl, rfl, hls, hl⟩ := ih (s := u) (Nat.lt_of_succ_lt_succ h)
      refine ⟨m :: ls, l, t, ?_, rfl, List.forall_mem_cons.mpr ⟨hm, hls⟩, hl⟩
      rw [unlines_cons, List.append_assoc, List.cons_append]

/-- What follows a terminated text does not disturb its lines. -/
theorem lines_append {s : List α} (h : Terminated sep s) (t : List α) :
    lines sep (s ++ t) = lines sep s ++ lines sep t := by
  conv_lhs => rw [← unlines_lines h]
  exact lines_unlines_append (fun _ ↦ sep_notMem_of_mem_lines) t

/-- Where a line of a text stands: behind the lines before it, and in front of a
separator unless it is the last one. -/
theorem eq_of_lines_eq {s l : List α} {pre post : List (List α)}
    (h : lines sep s = pre ++ l :: post) :
    (s = unlines sep pre ++ l ∧ l ≠ [] ∧ post = []) ∨
      ∃ t, s = unlines sep pre ++ (l ++ sep :: t) ∧ lines sep t = post := by
  induction pre generalizing s with
  | nil =>
      by_cases hsep : sep ∈ s
      · obtain ⟨m, u, rfl, hm⟩ := List.eq_append_cons_of_mem hsep
        rw [lines_line_append hm] at h
        obtain ⟨rfl, rfl⟩ := List.cons.inj h
        exact .inr ⟨u, rfl, rfl⟩
      · cases s with
        | nil => cases h
        | cons c s =>
            rw [lines_of_sep_notMem hsep (List.cons_ne_nil c s)] at h
            obtain ⟨rfl, rfl⟩ := List.cons.inj h
            exact .inl ⟨rfl, List.cons_ne_nil c s, rfl⟩
  | cons p pre ih =>
      have hlen : 1 < (lines sep s).length := by
        rw [h, List.length_append, List.length_cons, List.length_cons]
        omega
      obtain ⟨m, u, rfl, hm⟩ := exists_eq_append_sep hlen
      rw [lines_line_append hm] at h
      obtain ⟨rfl, hu⟩ := List.cons.inj (h.trans (List.cons_append ..))
      rcases ih hu with ⟨rfl, hl, rfl⟩ | ⟨t, rfl, rfl⟩
      · refine .inl ⟨?_, hl, rfl⟩
        rw [unlines_cons, List.append_assoc, List.cons_append]
      · refine .inr ⟨t, ?_, rfl⟩
        rw [unlines_cons, List.append_assoc, List.cons_append]

/-! ## The unfinished line -/

/-- What stands behind the last separator. -/
def unfinished (sep : α) (s : List α) : List α := s.rtakeWhile (· != sep)

theorem sep_notMem_unfinished (s : List α) : sep ∉ unfinished sep s := fun h ↦ by
  simpa using List.mem_rtakeWhile_imp h

theorem unfinished_of_sep_notMem {s : List α} (h : sep ∉ s) : unfinished sep s = s :=
  List.rtakeWhile_eq_self_iff.mpr fun _ hx ↦ bne_iff_ne.mpr fun he ↦ h (he ▸ hx)

theorem terminated_iff_unfinished {s : List α} : Terminated sep s ↔ unfinished sep s = [] := by
  rw [unfinished, List.rtakeWhile_eq_nil_iff]
  cases s using List.reverseRecOn with
  | nil => exact iff_of_true terminated_nil fun h ↦ absurd rfl h
  | append_singleton s c => simp [Terminated]

theorem unfinished_sep_append (s t : List α) :
    unfinished sep (s ++ sep :: t) = unfinished sep t := by
  induction t using List.reverseRecOn with
  | nil =>
      rw [unfinished, List.rtakeWhile_concat_neg _ _ _ (by simp)]
      rfl
  | append_singleton t c ih =>
      rw [← List.cons_append, ← List.append_assoc, unfinished, unfinished, List.rtakeWhile_concat,
        List.rtakeWhile_concat]
      exact if_congr Iff.rfl (congrArg (· ++ [c]) ih) rfl

/-- A text is a terminated one followed by its unfinished line. -/
theorem exists_eq_append_unfinished (sep : α) (s : List α) :
    ∃ t, Terminated sep t ∧ s = t ++ unfinished sep s := by
  refine ⟨s.rdropWhile (· != sep), ?_, List.rdropWhile_append_rtakeWhile.symm⟩
  intro c hc
  have hne : s.rdropWhile (· != sep) ≠ [] := fun h ↦ by simp [h] at hc
  have hlast := List.rdropWhile_last_not (p := (· != sep)) s hne
  rw [List.getLast?_eq_getLast_of_ne_nil hne, Option.mem_some_iff] at hc
  rw [← hc]
  simpa using hlast

theorem unfinished_append {s : List α} (h : Terminated sep s) (t : List α) :
    unfinished sep (s ++ t) = unfinished sep t := by
  cases s using List.reverseRecOn with
  | nil => rfl
  | append_singleton s c =>
      obtain rfl : c = sep := h c (by simp)
      rw [List.append_assoc, List.singleton_append, unfinished_sep_append]

end

end Lines

end AsabruCommons
