import Mathlib.Data.List.DropRight

/-!
# Searching and cutting

The member functions of `std::string` that look for a position and that cut at a
position, over an arbitrary alphabet.  A search returns `none` where the C++
function returns `npos`, and cutting returns `none` where it throws
`std::out_of_range`, which is when the position is past the end.  An optional
count is `none` for the default `npos`, so the result of a search can be passed on
as a count.

Adding one to `npos` gives zero, which is the idiom behind
`str.erase(str.find_last_not_of(c) + 1)`; `afterLast` is that sum.  The two erasing
idioms are dropping from the end and dropping from the front
(`erase_afterLast`, `erase_findFirstNot`).
-/

namespace AsabruCommons

universe u

namespace Search

variable {α : Type u}

/-- The position of the first occurrence of `pat`. -/
def find [DecidableEq α] (pat : List α) : List α → Option Nat
  | [] => if pat.isEmpty then some 0 else none
  | c :: s => if pat.isPrefixOf (c :: s) then some 0 else (find pat s).map (· + 1)

/-- `s.find(pat, pos)` -/
def findFrom [DecidableEq α] (pat s : List α) (pos : Nat) : Option Nat :=
  if pos ≤ s.length then (find pat (s.drop pos)).map (· + pos) else none

/-- The position of the last occurrence of `pat`. -/
def rfind [DecidableEq α] (pat s : List α) : Option Nat :=
  (find pat.reverse s.reverse).map fun i ↦ s.length - i - pat.length

/-- The first position whose element is not one of those that `p` describes. -/
def findFirstNot (p : α → Bool) (s : List α) : Option Nat := s.findIdx? fun c ↦ !p c

/-- The last such position. -/
def findLastNot (p : α → Bool) (s : List α) : Option Nat :=
  (findFirstNot p s.reverse).map fun i ↦ s.length - 1 - i

/-- A position plus one, where `npos + 1` is zero. -/
def afterLast : Option Nat → Nat
  | none => 0
  | some i => i + 1

/-- `s.substr(pos, count)` -/
def substr (s : List α) (pos : Nat) (count : Option Nat) : Option (List α) :=
  if pos ≤ s.length then some ((s.drop pos).take (count.getD s.length)) else none

/-- `s.erase(pos, count)` -/
def erase (s : List α) (pos : Nat) (count : Option Nat) : Option (List α) :=
  if pos ≤ s.length then some (s.take pos ++ (s.drop pos).drop (count.getD s.length)) else none

/-! ## Finding a pattern -/

section

variable [DecidableEq α]

/-- The search passes over everything that is not the first element of the pattern. -/
theorem find_append_of_notMem {c : α} {l : List α} (h : c ∉ l) (pat s : List α) :
    find (c :: pat) (l ++ s) = (find (c :: pat) s).map (· + l.length) := by
  induction l with
  | nil => simp
  | cons d l ih =>
      obtain ⟨hd, hl⟩ := not_or.mp (mt List.mem_cons.mpr h)
      have hno : ¬ (c :: pat).isPrefixOf (d :: (l ++ s)) := by simp [hd]
      rw [List.cons_append, find, if_neg hno, ih hl, Option.map_map]
      congr 1

/-- The search passes over a part that lacks the second element of the pattern. -/
theorem find_append_of_second_notMem {b : α} {l s : List α} (hl : b ∉ l) (hs : s.head? ≠ some b)
    (a : α) (pat : List α) :
    find (a :: b :: pat) (l ++ s) = (find (a :: b :: pat) s).map (· + l.length) := by
  induction l with
  | nil => simp
  | cons d l ih =>
      obtain ⟨-, hl⟩ := not_or.mp (mt List.mem_cons.mpr hl)
      have hno : ¬ (a :: b :: pat).isPrefixOf (d :: (l ++ s)) := by
        rw [List.isPrefixOf_iff_prefix]
        rintro ⟨t, ht⟩
        have hhead : (l ++ s).head? = some b := by
          rw [← List.tail_eq_of_cons_eq ht]
          rfl
        cases l with
        | nil => exact hs hhead
        | cons e l =>
            obtain rfl := Option.some.inj hhead
            exact hl List.mem_cons_self
      rw [List.cons_append, find, if_neg hno, ih hl, Option.map_map]
      congr 1

/-- The pattern is found where the text begins with it. -/
theorem find_self_append (pat s : List α) : find pat (pat ++ s) = some 0 := by
  cases hs : pat ++ s with
  | nil =>
      obtain ⟨rfl, -⟩ := List.append_eq_nil_iff.mp hs
      rfl
  | cons c t =>
      have hpre : pat.isPrefixOf (c :: t) := by
        rw [← hs, List.isPrefixOf_iff_prefix]
        exact List.prefix_append pat s
      rw [find, if_pos hpre]

/-- Searching for a single element. -/
theorem find_singleton_of_notMem {c : α} {s : List α} (h : c ∉ s) : find [c] s = none := by
  have hfind := find_append_of_notMem h [] []
  rwa [List.append_nil] at hfind

theorem find_singleton_append {c : α} {l : List α} (h : c ∉ l) (s : List α) :
    find [c] (l ++ c :: s) = some l.length := by
  have hself : find [c] (c :: s) = some 0 := find_self_append [c] s
  rw [find_append_of_notMem h, hself, Option.map_some, Nat.zero_add]

omit [DecidableEq α] in
/-- The last place of an element that occurs. -/
theorem eq_append_cons_last {c : α} {s : List α} (h : c ∈ s) :
    ∃ l r, s = l ++ c :: r ∧ c ∉ r := by
  obtain ⟨r, l, hreverse, hr⟩ := List.eq_append_cons_of_mem (List.mem_reverse.mpr h)
  refine ⟨l.reverse, r.reverse, ?_, mt List.mem_reverse.mp hr⟩
  rw [← List.reverse_reverse s, hreverse]
  simp

theorem rfind_singleton_of_notMem {c : α} {s : List α} (h : c ∉ s) : rfind [c] s = none := by
  rw [rfind, List.reverse_singleton, find_singleton_of_notMem (mt List.mem_reverse.mp h)]
  rfl

theorem rfind_singleton_append {c : α} {r : List α} (h : c ∉ r) (l : List α) :
    rfind [c] (l ++ c :: r) = some l.length := by
  have hreverse : (l ++ c :: r).reverse = r.reverse ++ c :: l.reverse := by simp
  rw [rfind, List.reverse_singleton, hreverse,
    find_singleton_append (mt List.mem_reverse.mp h), Option.map_some, List.length_append,
    List.length_reverse, List.length_cons, List.length_singleton]
  exact congrArg some (by omega)

/-- Searching from the end of a first part is searching the second part. -/
theorem findFrom_append (pat l s : List α) :
    findFrom pat (l ++ s) l.length = (find pat s).map (· + l.length) := by
  rw [findFrom, if_pos (by simp), List.drop_left]

/-- What is not found is not in the text. -/
theorem find_eq_none_iff {pat s : List α} : find pat s = none ↔ ¬ pat <:+: s := by
  induction s with
  | nil => simp [find]
  | cons c s ih =>
      rw [find, List.infix_cons_iff, ← List.isPrefixOf_iff_prefix]
      by_cases hpre : pat.isPrefixOf (c :: s)
      · simp [hpre]
      · simp [hpre, ih]

theorem exists_of_find {pat s : List α} {n : Nat} (h : find pat s = some n) :
    (∃ l r, s = l ++ (pat ++ r) ∧ l.length = n) ∧
      ∀ l r, s = l ++ (pat ++ r) → n ≤ l.length := by
  induction s generalizing n with
  | nil =>
      rw [find, Option.ite_none_right_eq_some, List.isEmpty_iff] at h
      obtain ⟨rfl, hn⟩ := h
      obtain rfl := Option.some.inj hn
      exact ⟨⟨[], [], rfl, rfl⟩, fun _ _ _ ↦ Nat.zero_le _⟩
  | cons c s ih =>
      by_cases hpre : pat.isPrefixOf (c :: s)
      · rw [find, if_pos hpre] at h
        obtain rfl := Option.some.inj h
        obtain ⟨r, hr⟩ := List.isPrefixOf_iff_prefix.mp hpre
        exact ⟨⟨[], r, hr.symm, rfl⟩, fun _ _ _ ↦ Nat.zero_le _⟩
      · rw [find, if_neg hpre] at h
        obtain ⟨m, hm, rfl⟩ := Option.map_eq_some_iff.mp h
        obtain ⟨⟨l, r, rfl, rfl⟩, hleast⟩ := ih hm
        refine ⟨⟨c :: l, r, rfl, rfl⟩, fun l' r' h' ↦ ?_⟩
        cases l' with
        | nil => exact absurd (List.isPrefixOf_iff_prefix.mpr ⟨r', h'.symm⟩) hpre
        | cons d l' => exact Nat.succ_le_succ (hleast l' r' (List.cons.inj h').2)

/-- The position that is found is the least at which the pattern stands. -/
theorem find_eq_some_iff {pat s : List α} {n : Nat} :
    find pat s = some n ↔ (∃ l r, s = l ++ (pat ++ r) ∧ l.length = n) ∧
      ∀ l r, s = l ++ (pat ++ r) → n ≤ l.length := by
  refine ⟨exists_of_find, fun ⟨⟨l, r, hs, hn⟩, hleast⟩ ↦ ?_⟩
  cases hfind : find pat s with
  | none =>
      refine absurd ?_ (find_eq_none_iff.mp hfind)
      exact ⟨l, r, by rw [hs, List.append_assoc]⟩
  | some m =>
      obtain ⟨⟨l', r', hs', rfl⟩, hleast'⟩ := exists_of_find hfind
      have hle := hleast l' r' hs'
      have hle' := hleast' l r hs
      exact congrArg some (by omega)

/-- In front of the position that is found the pattern does not occur. -/
theorem not_isInfix_of_find {pat l s : List α} (hpat : pat ≠ [])
    (h : find pat (l ++ s) = some l.length) : ¬ pat <:+: l := by
  rintro ⟨a, b, rfl⟩
  have hle := (exists_of_find h).2 a (b ++ s) (by simp only [List.append_assoc])
  have hpos := List.length_pos_iff.mpr hpat
  simp only [List.length_append] at hle
  omega

/-- Searching behind a part in which the pattern does not begin. -/
theorem find_of_find_append {pat l s : List α} {n : Nat}
    (h : find pat (l ++ s) = some (l.length + n)) : find pat s = some n := by
  obtain ⟨⟨l', r, hs, hlen⟩, hleast⟩ := exists_of_find h
  refine find_eq_some_iff.mpr ⟨?_, fun l₂ r₂ h₂ ↦ ?_⟩
  · rcases List.append_eq_append_iff.mp hs with ⟨x, rfl, hx⟩ | ⟨x, rfl, hx⟩
    · rw [List.length_append] at hlen
      exact ⟨x, r, hx, by omega⟩
    · rw [List.length_append] at hlen
      obtain rfl : x = [] := List.length_eq_zero_iff.mp (by omega)
      exact ⟨[], r, hx.symm, by rw [List.length_nil] at hlen ⊢; omega⟩
  · have hle := hleast (l ++ l₂) r₂ (by rw [h₂, List.append_assoc])
    rw [List.length_append] at hle
    omega

/-- A part that shares no element with the pattern keeps what is in front of it apart
from what is behind it. -/
theorem find_append_of_disjoint {pat l x s : List α} {n : Nat} (hl : ¬ pat <:+: l) (hx : x ≠ [])
    (hdisj : ∀ c ∈ x, c ∉ pat) (h : find pat s = some n) :
    find pat (l ++ (x ++ s)) = some (l.length + (x.length + n)) := by
  obtain ⟨⟨l₁, r₁, rfl, rfl⟩, hleast⟩ := exists_of_find h
  have hpat : pat ≠ [] := by
    rintro rfl
    exact hl List.nil_infix
  refine find_eq_some_iff.mpr ⟨⟨l ++ (x ++ l₁), r₁, by simp only [List.append_assoc],
    by simp only [List.length_append]⟩, fun l' r' h' ↦ ?_⟩
  rcases List.append_eq_append_iff.mp h' with ⟨y, rfl, hy⟩ | ⟨y, rfl, hy⟩
  · rcases List.append_eq_append_iff.mp hy with ⟨z, rfl, hz⟩ | ⟨z, rfl, hz⟩
    · have hle := hleast z r' hz
      simp only [List.length_append]
      omega
    · cases z with
      | nil =>
          have hle := hleast [] r' hz.symm
          simp only [List.length_append, List.length_nil] at hle ⊢
          omega
      | cons c z =>
          obtain ⟨d, pat, rfl⟩ := List.exists_cons_of_ne_nil hpat
          obtain rfl := (List.cons.inj hz).1
          exact absurd List.mem_cons_self
            (hdisj d (List.mem_append_right _ List.mem_cons_self))
  · rcases List.append_eq_append_iff.mp hy with ⟨z, rfl, -⟩ | ⟨z, rfl, hz⟩
    · exact absurd ⟨l', z, (List.append_assoc _ _ _)⟩ hl
    · obtain ⟨c, x, rfl⟩ := List.exists_cons_of_ne_nil hx
      cases z with
      | nil => exact absurd ⟨l', [], by simp⟩ hl
      | cons d z =>
          obtain rfl := (List.cons.inj hz).1
          exact absurd (List.mem_append_right _ List.mem_cons_self) (hdisj c List.mem_cons_self)

end

/-! ## Counting a pattern -/

section

variable [DecidableEq α]

/-- The number of occurrences of `pat`, when the first `skip` elements are not looked at. -/
def countFrom (pat : List α) : Nat → List α → Nat
  | _, [] => 0
  | skip + 1, _ :: s => countFrom pat skip s
  | 0, c :: s =>
      if pat.isPrefixOf (c :: s) then countFrom pat (pat.length - 1) s + 1
      else countFrom pat 0 s

/-- The number of occurrences of `pat` that are found from the left and do not overlap. -/
def occurrences (pat s : List α) : Nat := countFrom pat 0 s

theorem countFrom_eq (pat : List α) (skip : Nat) (s : List α) :
    countFrom pat skip s = occurrences pat (s.drop skip) := by
  induction s generalizing skip with
  | nil => simp [occurrences, countFrom]
  | cons c s ih =>
      cases skip with
      | zero => rfl
      | succ skip => exact ih skip

/-- There are no more occurrences than elements. -/
theorem countFrom_le (pat : List α) (skip : Nat) (s : List α) :
    countFrom pat skip s ≤ s.length := by
  induction s generalizing skip with
  | nil => exact Nat.zero_le _
  | cons c s ih =>
      cases skip with
      | succ skip => exact (ih skip).trans (Nat.le_succ _)
      | zero =>
          rw [countFrom]
          split
          · exact Nat.succ_le_succ (ih _)
          · exact (ih 0).trans (Nat.le_succ _)

theorem occurrences_of_not_isInfix {pat s : List α} (h : ¬ pat <:+: s) :
    occurrences pat s = 0 := by
  induction s with
  | nil => rfl
  | cons c s ih =>
      rw [List.infix_cons_iff, not_or] at h
      rw [occurrences, countFrom, if_neg (mt List.isPrefixOf_iff_prefix.mp h.1)]
      exact ih h.2

/-- The one that is found is counted, and then those behind it. -/
theorem occurrences_of_find {pat l r : List α} (hpat : pat ≠ [])
    (h : find pat (l ++ (pat ++ r)) = some l.length) :
    occurrences pat (l ++ (pat ++ r)) = occurrences pat r + 1 := by
  induction l with
  | nil =>
      obtain ⟨c, pat, rfl⟩ := List.exists_cons_of_ne_nil hpat
      have hpre : (c :: pat).isPrefixOf (c :: (pat ++ r)) :=
        List.isPrefixOf_iff_prefix.mpr (List.prefix_append (c :: pat) r)
      show countFrom _ 0 (c :: (pat ++ r)) = _
      rw [countFrom, if_pos hpre, countFrom_eq, List.length_cons, Nat.add_sub_cancel,
        List.drop_left]
  | cons c l ih =>
      have hno : ¬ pat.isPrefixOf (c :: (l ++ (pat ++ r))) := by
        intro hpre
        rw [List.cons_append, find, if_pos hpre] at h
        cases h
      rw [List.cons_append, find, if_neg hno] at h
      obtain ⟨n, hn, hlen⟩ := Option.map_eq_some_iff.mp h
      obtain rfl := Nat.succ.inj hlen
      rw [List.cons_append, occurrences, countFrom, if_neg hno]
      exact ih hn

end

/-! ## Separators

A separator whose first element does not occur again in it can overlap neither itself
nor another separator that begins alike.  So two ways of cutting a text at it are the
same, or the one cuts within a part of the other. -/

/-- A separator at the front of a text, and one later. -/
theorem append_eq_append_sep {c : α} {t : List α} (hc : c ∉ t) {x m m' : List α}
    (h : c :: t ++ m = x ++ (c :: t ++ m')) :
    x = [] ∨ ∃ k, x = c :: t ++ k ∧ m = k ++ (c :: t ++ m') := by
  rcases List.append_eq_append_iff.mp h with ⟨k, hx, hm⟩ | ⟨y, hsep, hm'⟩
  · exact .inr ⟨k, hx, hm⟩
  · cases x with
    | nil => exact .inl rfl
    | cons d x =>
        cases y with
        | nil =>
            rw [List.append_nil] at hsep
            exact .inr ⟨[], by rw [hsep, List.append_nil], hm'.symm⟩
        | cons e y =>
            -- the second separator would begin within the first one
            have he : c = e := (List.cons_eq_cons.mp hm').1
            have hmem : e ∈ t := by
              rw [(List.cons_eq_cons.mp hsep).2]
              exact List.mem_append_right _ List.mem_cons_self
            exact absurd (he ▸ hmem) hc

/-- Cutting a text at a separator in two ways. -/
theorem append_sep_cases {c : α} {t : List α} (hc : c ∉ t) {l m l' m' : List α}
    (h : l ++ (c :: t ++ m) = l' ++ (c :: t ++ m')) :
    (l = l' ∧ m = m') ∨ (∃ k, l' = l ++ (c :: t ++ k) ∧ m = k ++ (c :: t ++ m')) ∨
      ∃ k, l = l' ++ (c :: t ++ k) ∧ m' = k ++ (c :: t ++ m) := by
  rcases List.append_eq_append_iff.mp h with ⟨x, hl, hm⟩ | ⟨x, hl, hm⟩
  · rcases append_eq_append_sep hc hm with rfl | ⟨k, rfl, hk⟩
    · rw [List.append_nil] at hl
      rw [List.nil_append] at hm
      exact .inl ⟨hl.symm, List.append_cancel_left hm⟩
    · exact .inr (.inl ⟨k, hl, hk⟩)
  · rcases append_eq_append_sep hc hm with rfl | ⟨k, rfl, hk⟩
    · rw [List.append_nil] at hl
      rw [List.nil_append] at hm
      exact .inl ⟨hl, (List.append_cancel_left hm).symm⟩
    · exact .inr (.inr ⟨k, hl, hk⟩)

/-- A separator is found behind a part that does not contain it. -/
theorem find_append_sep [DecidableEq α] {c : α} {t l : List α} (hc : c ∉ t)
    (hl : ¬ c :: t <:+: l) (r : List α) :
    find (c :: t) (l ++ (c :: t ++ r)) = some l.length := by
  refine find_eq_some_iff.mpr ⟨⟨l, r, rfl, rfl⟩, fun l' r' h' ↦ ?_⟩
  rcases append_sep_cases hc h' with ⟨rfl, -⟩ | ⟨k, rfl, -⟩ | ⟨k, rfl, -⟩
  · exact Nat.le_refl _
  · rw [List.length_append]
    exact Nat.le_add_right _ _
  · exact absurd ⟨l', k, List.append_assoc _ _ _⟩ hl

/-! ## Leading runs -/

/-- A run of elements with the property `p` ends where an element has it not. -/
theorem takeWhile_append_cons {p : α → Bool} {l : List α} (hl : ∀ c ∈ l, p c) {d : α}
    (hd : p d = false) (s : List α) : (l ++ d :: s).takeWhile p = l := by
  rw [List.takeWhile_append_of_pos hl, List.takeWhile_cons, hd]
  exact List.append_nil l

theorem dropWhile_append_cons {p : α → Bool} {l : List α} (hl : ∀ c ∈ l, p c) {d : α}
    (hd : p d = false) (s : List α) : (l ++ d :: s).dropWhile p = d :: s := by
  rw [List.dropWhile_append_of_pos hl, List.dropWhile_cons, hd]
  rfl

theorem takeWhile_of_forall {p : α → Bool} {l : List α} (hl : ∀ c ∈ l, p c) :
    l.takeWhile p = l := by
  have h : (l ++ []).takeWhile p = l ++ [] := List.takeWhile_append_of_pos hl
  rwa [List.append_nil] at h

theorem dropWhile_of_forall {p : α → Bool} {l : List α} (hl : ∀ c ∈ l, p c) :
    l.dropWhile p = [] := by
  have h : (l ++ []).dropWhile p = [] := List.dropWhile_append_of_pos hl
  rwa [List.append_nil] at h

/-- Nothing is dropped from the front if the first element stays. -/
theorem dropWhile_of_head? {p : α → Bool} {l : List α} (h : ∀ c ∈ l.head?, p c = false) :
    l.dropWhile p = l := by
  cases l with
  | nil => rfl
  | cons c l =>
      rw [List.dropWhile_cons, h c rfl]
      rfl

/-- Nothing is dropped from the end if the last element stays. -/
theorem rdropWhile_of_getLast? {p : α → Bool} {l : List α} (h : ∀ c ∈ l.getLast?, p c = false) :
    l.rdropWhile p = l := by
  rw [List.rdropWhile_eq_self_iff]
  intro hl
  rw [h (l.getLast hl) (List.getLast?_eq_some_getLast hl)]
  exact Bool.false_ne_true

/-! ### Runs of one element -/

section

variable [DecidableEq α] {c : α} {l : List α}

/-- What is dropped from the front is a run of the element. -/
theorem exists_replicate_dropWhile (c : α) (l : List α) :
    ∃ n, l = List.replicate n c ++ l.dropWhile (· = c) := by
  have hrun : l.takeWhile (· = c) = List.replicate (l.takeWhile (· = c)).length c := by
    apply List.eq_replicate_of_mem
    intro d hd
    have hdecide := List.mem_takeWhile_imp hd
    rwa [decide_eq_true_eq] at hdecide
  refine ⟨(l.takeWhile (· = c)).length, ?_⟩
  rw [← hrun]
  exact List.takeWhile_append_dropWhile.symm

/-- And so it is at the end. -/
theorem exists_replicate_rdropWhile (c : α) (l : List α) :
    ∃ n, l = l.rdropWhile (· = c) ++ List.replicate n c := by
  have hrun : l.rtakeWhile (· = c) = List.replicate (l.rtakeWhile (· = c)).length c := by
    apply List.eq_replicate_of_mem
    intro d hd
    have hdecide := List.mem_rtakeWhile_imp hd
    rwa [decide_eq_true_eq] at hdecide
  refine ⟨(l.rtakeWhile (· = c)).length, ?_⟩
  rw [← hrun]
  exact List.rdropWhile_append_rtakeWhile.symm

/-- The whole run is dropped, and nothing else if something else follows it. -/
theorem dropWhile_replicate_append (h : ∀ d ∈ l.head?, d ≠ c) (n : Nat) :
    (List.replicate n c ++ l).dropWhile (· = c) = l := by
  rw [List.dropWhile_append_of_pos]
  · apply dropWhile_of_head?
    intro d hd
    exact decide_eq_false (h d hd)
  · intro d hd
    exact decide_eq_true (List.eq_of_mem_replicate hd)

/-- The same at the end. -/
theorem rdropWhile_append_replicate (h : ∀ d ∈ l.getLast?, d ≠ c) (n : Nat) :
    (l ++ List.replicate n c).rdropWhile (· = c) = l := by
  induction n with
  | zero =>
      rw [List.replicate_zero, List.append_nil]
      apply rdropWhile_of_getLast?
      intro d hd
      exact decide_eq_false (h d hd)
  | succ n ih =>
      have hrun := List.rdropWhile_concat_pos (fun d ↦ decide (d = c)) (l ++ List.replicate n c) c
        (decide_eq_true rfl)
      rw [List.replicate_succ', ← List.append_assoc, hrun]
      exact ih

end

/-- The last element of a text with a run behind it is that of the run. -/
theorem eq_of_mem_getLast?_run {c d : α} {l : List α} {n : Nat}
    (h : d ∈ (l ++ List.replicate (n + 1) c).getLast?) : d = c := by
  rw [List.replicate_succ', ← List.append_assoc, List.getLast?_concat] at h
  exact (Option.some.inj h).symm

/-- Without a run it is that of the text. -/
theorem getLast?_append_replicate {P : α → Prop} {c : α} {l : List α} (hl : ∀ d ∈ l.getLast?, P d)
    (hc : P c) (n : Nat) : ∀ d ∈ (l ++ List.replicate n c).getLast?, P d := by
  cases n with
  | zero =>
      rw [List.replicate_zero, List.append_nil]
      exact hl
  | succ n =>
      intro d hd
      rw [eq_of_mem_getLast?_run hd]
      exact hc

/-! ## Cutting -/

theorem substr_left (l s : List α) : substr (l ++ s) 0 (some l.length) = some l := by
  simp [substr]

theorem substr_middle (l m s : List α) :
    substr (l ++ (m ++ s)) l.length (some m.length) = some m := by
  simp [substr]

theorem substr_right (l s : List α) : substr (l ++ s) l.length none = some s := by
  simp [substr, List.take_of_length_le]

theorem dropWhile_eq_drop (p : α → Bool) (s : List α) :
    s.dropWhile p = s.drop ((findFirstNot p s).getD s.length) := by
  induction s with
  | nil => rfl
  | cons c s ih =>
      by_cases hc : p c
      · rw [List.dropWhile_cons_of_pos hc, ih, findFirstNot, findFirstNot, List.findIdx?_cons]
        cases s.findIdx? fun c ↦ !p c with
        | none => simp [hc]
        | some i => simp [hc]
      · simp [findFirstNot, List.findIdx?_cons, hc]

/-- `str.erase(0, str.find_first_not_of(p))` -/
theorem erase_findFirstNot (p : α → Bool) (s : List α) :
    erase s 0 (findFirstNot p s) = some (s.dropWhile p) := by
  rw [dropWhile_eq_drop]
  simp [erase]

/-- `str.erase(str.find_last_not_of(p) + 1)` -/
theorem erase_afterLast (p : α → Bool) (s : List α) :
    erase s (afterLast (findLastNot p s)) none = some (s.rdropWhile p) := by
  have hdrop := dropWhile_eq_drop p s.reverse
  rw [findLastNot]
  cases h : findFirstNot p s.reverse with
  | none =>
      rw [h] at hdrop
      simp [erase, afterLast, List.rdropWhile, hdrop]
  | some i =>
      rw [h, Option.getD_some, List.drop_reverse] at hdrop
      have hi : i < s.length := by
        obtain ⟨hi, -⟩ := List.findIdx?_eq_some_iff_getElem.mp h
        rwa [List.length_reverse] at hi
      have hpos : s.length - 1 - i + 1 = s.length - i := by omega
      rw [Option.map_some, afterLast, hpos, erase, if_pos (by omega), List.rdropWhile, hdrop,
        List.reverse_reverse]
      simp

end Search

end AsabruCommons
