import AsabruCommons.Http.Message

/-!
# What `trim` leaves at the ends of a text

`trim` erases spaces, line feeds and carriage returns at the end of a text, in this
order and each kind once, and then spaces and line feeds at its front.  Carriage
returns at the front stay: the erasure that is announced for them looks for line feeds
a second time.  Nor is an erasure repeated when a later one has uncovered more of its
kind.

So a text is trimmed as its comment says exactly when its ends are laid out in the
order of the erasures (`trims_iff`): spaces and then line feeds in front, and behind
carriage returns, then line feeds, then spaces.
-/

namespace AsabruCommons.Http

open Search

/-- The characters that `trim` names. -/
def isSurrounding (c : Char) : Bool := c = ' ' || c = '\n' || c = '\r'

/-- There are none of them at either end. -/
structure Bare (s : Str) : Prop where
  head : ∀ c ∈ s.head?, isSurrounding c = false
  last : ∀ c ∈ s.getLast?, isSurrounding c = false

/-- **The purpose of `trim`.**  No erasure is past the end; what is left has none of the
characters at its ends, only such characters were removed, and nothing is left to do. -/
def Trims (s : Str) : Prop :=
  ∃ t, trim s = some t ∧ Bare t ∧
    (∃ l r, s = l ++ t ++ r ∧ (∀ c ∈ l, isSurrounding c) ∧ ∀ c ∈ r, isSurrounding c) ∧
    trim t = some t

/-- A text between runs of the characters, in the order in which they are erased. -/
def padded (a b c d e : Nat) (s : Str) : Str :=
  List.replicate a ' ' ++ (List.replicate b '\n' ++ s) ++ List.replicate c '\r' ++
    List.replicate d '\n' ++ List.replicate e ' '

/-- The ends of a text are laid out in the order of the erasures. -/
def LaidInOrder (s : Str) : Prop := ∃ a b c d e m, s = padded a b c d e m ∧ Bare m

theorem isSurrounding_eq_false_iff {c : Char} :
    isSurrounding c = false ↔ c ≠ ' ' ∧ c ≠ '\n' ∧ c ≠ '\r' := by
  simp [isSurrounding, and_assoc]

/-! ## What the erasures remove -/

/-- `trim` removes these runs, and nothing else. -/
theorem exists_padded (s : Str) : ∃ a b c d e, s = padded a b c d e (trimmed s) := by
  obtain ⟨e, he⟩ := exists_replicate_rdropWhile ' ' s
  obtain ⟨d, hd⟩ := exists_replicate_rdropWhile '\n' (s.rdropWhile (· = ' '))
  obtain ⟨c, hc⟩ := exists_replicate_rdropWhile '\r'
    ((s.rdropWhile (· = ' ')).rdropWhile (· = '\n'))
  obtain ⟨a, ha⟩ := exists_replicate_dropWhile ' '
    (((s.rdropWhile (· = ' ')).rdropWhile (· = '\n')).rdropWhile (· = '\r'))
  obtain ⟨b, hb⟩ := exists_replicate_dropWhile '\n'
    ((((s.rdropWhile (· = ' ')).rdropWhile (· = '\n')).rdropWhile (· = '\r')).dropWhile (· = ' '))
  refine ⟨a, b, c, d, e, ?_⟩
  rw [padded, trimmed, ← hb, ← ha, ← hc, ← hd, ← he]

theorem isSurrounding_of_mem_replicate {c x : Char} {n : Nat} (h : isSurrounding c)
    (hx : x ∈ List.replicate n c) : isSurrounding x := by
  rw [List.eq_of_mem_replicate hx]
  exact h

/-- They are among the characters that it names. -/
theorem exists_removed (s : Str) :
    ∃ l r, s = l ++ trimmed s ++ r ∧ (∀ c ∈ l, isSurrounding c) ∧ ∀ c ∈ r, isSurrounding c := by
  obtain ⟨a, b, c, d, e, hs⟩ := exists_padded s
  refine ⟨List.replicate a ' ' ++ List.replicate b '\n',
    List.replicate c '\r' ++ List.replicate d '\n' ++ List.replicate e ' ', ?_, ?_, ?_⟩
  · simpa only [padded, List.append_assoc] using hs
  · intro x hx
    rcases List.mem_append.mp hx with hx | hx
    · exact isSurrounding_of_mem_replicate rfl hx
    · exact isSurrounding_of_mem_replicate rfl hx
  · intro x hx
    rcases List.mem_append.mp hx with hx | hx
    · rcases List.mem_append.mp hx with hx | hx
      · exact isSurrounding_of_mem_replicate rfl hx
      · exact isSurrounding_of_mem_replicate rfl hx
    · exact isSurrounding_of_mem_replicate rfl hx

/-! ## What is laid out in their order -/

/-- The last character of a run. -/
theorem ne_of_mem_getLast?_replicate {c d : Char} (h : c ≠ d) (n : Nat) :
    ∀ x ∈ (List.replicate n c).getLast?, x ≠ d := by
  intro x hx
  rw [List.eq_of_mem_replicate (List.mem_of_getLast? hx)]
  exact h

/-- Behind a text that does not end in one of the characters, all of them are removed. -/
theorem rdropWhile_runs {l : Str} {c : Nat} (hcr : ∀ x ∈ l.getLast?, x ≠ '\r')
    (hothers : c = 0 → ∀ x ∈ l.getLast?, x ≠ '\n' ∧ x ≠ ' ') (d e : Nat) :
    (((l ++ List.replicate c '\r' ++ List.replicate d '\n' ++ List.replicate e ' ').rdropWhile
      (· = ' ')).rdropWhile (· = '\n')).rdropWhile (· = '\r') = l := by
  have hrun : ∀ x ∈ (l ++ List.replicate c '\r').getLast?, x ≠ '\n' ∧ x ≠ ' ' := by
    cases c with
    | zero =>
        rw [List.replicate_zero, List.append_nil]
        exact hothers rfl
    | succ c =>
        intro x hx
        rw [eq_of_mem_getLast?_run hx]
        decide
  have hspace : ∀ x ∈ (l ++ List.replicate c '\r' ++ List.replicate d '\n').getLast?, x ≠ ' ' :=
    getLast?_append_replicate (fun x hx ↦ (hrun x hx).2) (by decide) d
  rw [rdropWhile_append_replicate hspace,
    rdropWhile_append_replicate fun x hx ↦ (hrun x hx).1, rdropWhile_append_replicate hcr]

/-- Of spaces, line feeds and spaces again only the first may be left. -/
theorem exists_front_spaces (a n e : Nat) :
    ∃ a', (((List.replicate a ' ' ++ List.replicate n '\n' ++ List.replicate e ' ').rdropWhile
      (· = ' ')).rdropWhile (· = '\n')).rdropWhile (· = '\r') = List.replicate a' ' ' := by
  cases n with
  | zero =>
      have hspaces : List.replicate a ' ' ++ List.replicate 0 '\n' ++ List.replicate e ' ' =
          [] ++ List.replicate (a + e) ' ' := by
        rw [List.replicate_zero, List.append_nil, List.replicate_append_replicate,
          List.nil_append]
      refine ⟨0, ?_⟩
      rw [hspaces, rdropWhile_append_replicate nofun]
      rfl
  | succ n =>
      have hlast : ∀ x ∈ (List.replicate a ' ' ++ List.replicate (n + 1) '\n').getLast?,
          x ≠ ' ' := by
        intro x hx
        rw [eq_of_mem_getLast?_run hx]
        decide
      refine ⟨a, ?_⟩
      rw [rdropWhile_append_replicate hlast,
        rdropWhile_append_replicate (ne_of_mem_getLast?_replicate (by decide) a)]
      apply rdropWhile_of_getLast?
      intro x hx
      exact decide_eq_false (ne_of_mem_getLast?_replicate (by decide) a x hx)

/-- Of the end nothing is left.  Without text and carriage returns the front may be taken
for the end, and is removed with it. -/
theorem exists_front {m : Str} (hm : Bare m) (a b c d e : Nat) :
    ∃ a' b', (((padded a b c d e m).rdropWhile (· = ' ')).rdropWhile (· = '\n')).rdropWhile
      (· = '\r') = List.replicate a' ' ' ++ (List.replicate b' '\n' ++ m) := by
  by_cases hempty : m = [] ∧ c = 0
  · obtain ⟨rfl, rfl⟩ := hempty
    have hpadded : padded a b 0 d e [] =
        List.replicate a ' ' ++ List.replicate (b + d) '\n' ++ List.replicate e ' ' := by
      rw [padded, List.append_nil, List.replicate_zero, List.append_nil,
        List.append_assoc (List.replicate a ' '), List.replicate_append_replicate]
    obtain ⟨a', hfront⟩ := exists_front_spaces a (b + d) e
    refine ⟨a', 0, ?_⟩
    rw [hpadded, hfront, List.replicate_zero, List.append_nil, List.append_nil]
  · have hlast : m ≠ [] → ∀ x ∈ (List.replicate a ' ' ++ (List.replicate b '\n' ++ m)).getLast?,
        x ≠ ' ' ∧ x ≠ '\n' ∧ x ≠ '\r' := by
      intro hne x hx
      rw [← List.append_assoc, List.getLast?_append_of_ne_nil _ hne] at hx
      exact isSurrounding_eq_false_iff.mp (hm.last x hx)
    refine ⟨a, b, rdropWhile_runs ?_ ?_ d e⟩
    · rcases eq_or_ne m [] with rfl | hne
      · rw [List.append_nil]
        exact getLast?_append_replicate (ne_of_mem_getLast?_replicate (by decide) a) (by decide) b
      · exact fun x hx ↦ (hlast hne x hx).2.2
    · intro hc x hx
      obtain ⟨hspace, hlf, -⟩ := hlast (fun hnil ↦ hempty ⟨hnil, hc⟩) x hx
      exact ⟨hlf, hspace⟩

/-- The front is removed. -/
theorem trimmed_padded {m : Str} (hm : Bare m) (a b c d e : Nat) :
    trimmed (padded a b c d e m) = m := by
  obtain ⟨a', b', hfront⟩ := exists_front hm a b c d e
  have hlf : ∀ x ∈ m.head?, x ≠ '\n' := fun x hx ↦
    (isSurrounding_eq_false_iff.mp (hm.head x hx)).2.1
  have hspace : ∀ x ∈ (List.replicate b' '\n' ++ m).head?, x ≠ ' ' := by
    cases b' with
    | zero =>
        intro x hx
        exact (isSurrounding_eq_false_iff.mp (hm.head x hx)).1
    | succ b' =>
        rintro x ⟨⟩
        decide
  rw [trimmed, hfront, dropWhile_replicate_append hspace, dropWhile_replicate_append hlf]

/-- Nothing is removed from a text without the characters at its ends. -/
theorem Bare.trimmed_eq {m : Str} (hm : Bare m) : trimmed m = m := by
  have h := trimmed_padded hm 0 0 0 0 0
  simpa [padded] using h

/-- **When a text is trimmed.** -/
theorem trims_iff (s : Str) : Trims s ↔ LaidInOrder s := by
  constructor
  · rintro ⟨t, ht, hbare, -, -⟩
    obtain rfl : trimmed s = t := Option.some.inj ((trim_eq s).symm.trans ht)
    obtain ⟨a, b, c, d, e, hs⟩ := exists_padded s
    exact ⟨a, b, c, d, e, trimmed s, hs, hbare⟩
  · rintro ⟨a, b, c, d, e, m, rfl, hm⟩
    have hremoved := exists_removed (padded a b c d e m)
    rw [trimmed_padded hm] at hremoved
    refine ⟨m, ?_, hm, hremoved, ?_⟩
    · rw [trim_eq, trimmed_padded hm]
    · rw [trim_eq, hm.trimmed_eq]

/-- A carriage return in front stays, and so does a space that a carriage return has
covered. -/
theorem not_trims_return : ¬ Trims "\ra".toList ∧ ¬ Trims "a \r".toList := by
  have hfront : trim "\ra".toList = some "\ra".toList := by decide
  have hend : trim "a \r".toList = some "a ".toList := by decide
  constructor
  · rintro ⟨t, ht, hbare, -⟩
    obtain rfl := Option.some.inj (hfront.symm.trans ht)
    exact absurd (hbare.head '\r' rfl) (by decide)
  · rintro ⟨t, ht, hbare, -⟩
    obtain rfl := Option.some.inj (hend.symm.trans ht)
    exact absurd (hbare.last ' ' rfl) (by decide)

end AsabruCommons.Http
