import AsabruCommons.Basic
import AsabruCommons.CArray
import AsabruCommons.Search

/-!
# Chopping a line

`Utils::ChopLine` copies a line into a local array of 4096 characters, looks there for the
first colon, and puts a terminator in its place.  The copying is done by `strcpy`, which
does not ask how long the array is.  So the function is a cut at the first colon for
every line that fits with its terminator, and undefined for every other.
-/

namespace AsabruCommons.Utils

open CArray

/-- `strcpy(buffer, str.c_str())`: all up to the first terminator, and the terminator. -/
def strcpy {size : Nat} (buffer : CArray Char size) (str : Str) : Option (CArray Char size) :=
  buffer.storeAll 0 (str.takeWhile (· ≠ '\x00') ++ ['\x00'])

/-- Where the pointer stops that starts in front of these characters. -/
def walk : List Char → Nat → Option Nat
  | [], _ => none
  | c :: s, ptr => if c ≠ '\x00' ∧ c ≠ ':' then walk s (ptr + 1) else some ptr

/-- There is no result if something outside of the array is read or written.  What the array
holds at first is not known. -/
def ChopLine (buffer : CArray Char 4096) (str : Str) : Option (Str × Str) := do
  let buffer ← strcpy buffer str
  let ptr ← walk buffer.elems 0
  if (← buffer.load ptr) = '\x00' then
    return ([], [])
  let buffer ← buffer.store ptr '\x00'
  return (← buffer.cString '\x00' 0, ← buffer.cString '\x00' (ptr + 1))

/-- The pair is what lies on either side of the first colon, or empty without a colon. -/
def Chopped (s : Str) (pair : Str × Str) : Prop :=
  (':' ∈ s → s = pair.1 ++ ':' :: pair.2 ∧ ':' ∉ pair.1) ∧ (':' ∉ s → pair = ([], []))

/-- The pointer passes over everything else. -/
theorem walk_append {l : List Char} (hl : '\x00' ∉ l ∧ ':' ∉ l) {c : Char}
    (hc : c = '\x00' ∨ c = ':') (s : List Char) (ptr : Nat) :
    walk (l ++ c :: s) ptr = some (ptr + l.length) := by
  induction l generalizing ptr with
  | nil =>
      have hstop : ¬ (c ≠ '\x00' ∧ c ≠ ':') := by
        rintro ⟨hzero, hcolon⟩
        exact hc.elim hzero hcolon
      rw [List.nil_append, walk, if_neg hstop]
      rfl
  | cons d l ih =>
      obtain ⟨hzero, hcolon⟩ := hl
      rw [List.mem_cons, not_or] at hzero hcolon
      rw [List.cons_append, walk, if_pos ⟨fun h ↦ hzero.1 h.symm, fun h ↦ hcolon.1 h.symm⟩,
        ih ⟨hzero.2, hcolon.2⟩, List.length_cons]
      congr 1
      omega

theorem takeWhile_of_notMem {s : Str} (hs : '\x00' ∉ s) : s.takeWhile (· ≠ '\x00') = s := by
  apply Search.takeWhile_of_forall
  intro c hc
  rw [decide_eq_true_iff]
  rintro rfl
  exact hs hc

/-- A line that fits is copied to the front of the array. -/
theorem strcpy_eq {size : Nat} {s : Str} (hs : '\x00' ∉ s) (hlen : s.length < size)
    (buffer : CArray Char size) :
    ∃ copied, strcpy buffer s = some copied ∧ ∃ rest, copied.elems = s ++ '\x00' :: rest := by
  have hfits : (s ++ ['\x00']).length ≤ size := by
    rw [List.length_append, List.length_singleton]
    exact hlen
  obtain ⟨copied, hcopy, helems⟩ := buffer.storeAll_front hfits
  refine ⟨copied, ?_, buffer.elems.drop (s ++ ['\x00']).length, ?_⟩
  · rw [strcpy, takeWhile_of_notMem hs, hcopy]
  · rw [helems, List.append_assoc]
    rfl

/-- A line that does not fit is not copied. -/
theorem strcpy_eq_none {size : Nat} {s : Str} (hs : '\x00' ∉ s) (hlen : size ≤ s.length)
    (buffer : CArray Char size) : strcpy buffer s = none := by
  rw [strcpy, takeWhile_of_notMem hs]
  apply storeAll_of_lt (Nat.zero_le _)
  rw [Nat.zero_add, List.length_append, List.length_singleton]
  exact Nat.lt_succ_of_le hlen

/-- **Lines that fit.** -/
theorem chopLine_of_lt {s : Str} (hs : '\x00' ∉ s) (hlen : s.length < 4096)
    (buffer : CArray Char 4096) : ∃ pair, ChopLine buffer s = some pair ∧ Chopped s pair := by
  obtain ⟨copied, hcopy, rest, helems⟩ := strcpy_eq hs hlen buffer
  by_cases hcolon : ':' ∈ s
  · obtain ⟨key, value, rfl, hkey⟩ := List.eq_append_cons_of_mem hcolon
    rw [List.mem_append, List.mem_cons, not_or, not_or] at hs
    obtain ⟨hzero, -, hvalue⟩ := hs
    rw [List.append_assoc, List.cons_append] at helems
    have hwalk : walk copied.elems 0 = some key.length := by
      rw [helems, walk_append ⟨hzero, hkey⟩ (.inr rfl), Nat.zero_add]
    have hload := load_of_elems helems
    -- the colon becomes the terminator of the key
    obtain ⟨cut, hstore, hcut⟩ := store_of_elems helems '\x00'
    have hfirst : cut.cString '\x00' 0 = some key := by
      rw [cString, hcut, List.drop_zero, readString_append hzero]
    have hsecond : cut.cString '\x00' (key.length + 1) = some value := by
      have hdrop : (key ++ '\x00' :: (value ++ '\x00' :: rest)).drop (key.length + 1) =
          value ++ '\x00' :: rest := by
        rw [List.append_cons]
        exact List.drop_left' (by simp)
      rw [cString, hcut, hdrop, readString_append hvalue]
    refine ⟨(key, value), ?_, fun _ ↦ ⟨rfl, hkey⟩, fun hno ↦ absurd hcolon hno⟩
    have hne : ¬ (':' = '\x00') := by decide
    simp only [ChopLine, hcopy, hwalk, hload, hstore, hfirst, hsecond, Option.bind_eq_bind,
      Option.bind_some, if_neg hne]
    rfl
  · have hwalk : walk copied.elems 0 = some s.length := by
      rw [helems, walk_append ⟨hs, hcolon⟩ (.inl rfl), Nat.zero_add]
    have hload := load_of_elems helems
    refine ⟨([], []), ?_, fun hyes ↦ absurd hyes hcolon, fun _ ↦ rfl⟩
    simp only [ChopLine, hcopy, hwalk, hload, Option.bind_eq_bind, Option.bind_some]
    rfl

/-- **Chopping a line.**  Whatever the array holds at first. -/
theorem chopLine_iff {s : Str} (hs : '\x00' ∉ s) (buffer : CArray Char 4096) :
    (∃ pair, ChopLine buffer s = some pair ∧ Chopped s pair) ↔ s.length < 4096 := by
  constructor
  · rintro ⟨pair, hpair, -⟩
    by_contra hlen
    rw [ChopLine, strcpy_eq_none hs (Nat.not_lt.mp hlen)] at hpair
    cases hpair
  · intro hlen
    exact chopLine_of_lt hs hlen buffer

theorem chopLine_localhost :
    ∃ pair, ChopLine (filled 4096 'x') "localhost:8123".toList = some pair ∧
      Chopped "localhost:8123".toList pair :=
  (chopLine_iff (by decide) _).mpr (by decide)

/-- A line as long as the array. -/
theorem not_chopLine_long :
    '\x00' ∉ List.replicate 4096 'a' ∧
      ∀ buffer, ChopLine buffer (List.replicate 4096 'a') = none := by
  have hzero : '\x00' ∉ List.replicate 4096 'a' := fun hmem ↦
    absurd (List.eq_of_mem_replicate hmem) (by decide)
  have hlen : 4096 ≤ (List.replicate 4096 'a').length := by
    rw [List.length_replicate]
  refine ⟨hzero, fun buffer ↦ ?_⟩
  rw [ChopLine, strcpy_eq_none hzero hlen]
  rfl

end AsabruCommons.Utils
