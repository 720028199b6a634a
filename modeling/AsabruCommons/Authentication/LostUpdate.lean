import AsabruCommons.Authentication.MemoryMappedListFile
import AsabruCommons.Run

/-!
# Interleaved calls on one `MemoryMappedListFile`

Any number of threads each call `add` or `remove` once on a shared object.  The
three parts of a call are atomic, and other threads may move between them, so a
load can find a file that was written before another thread's edit.  It then
replaces the list by that older state, and since the other thread has its edit
behind it, the edit is gone.

For each thread there are three possibilities (`Status`): its value is as often
in the list and in the file as in the beginning, its edit is in the list only, or
in both.  A thread that has made its edit and is in the first of them has lost it
for good.  That makes the outcome of a run depend on one thing only, whether some
load was harmful (`no_lost_update_iff`).
-/

namespace AsabruCommons.Authentication.MemoryMappedListFile

open Lines Run

/-- The locked part a thread performs next. -/
inductive Phase where
  | edit | writeToFile | loadFromFile | returned
deriving DecidableEq

/-- The object and the threads that call it. -/
structure Shared (ι : Type) where
  object : MemoryMappedListFile
  phase : ι → Phase

variable {ι : Type} [DecidableEq ι]

/-- The object is constructed on its file, and no thread has moved. -/
def Shared.init (file : FileState) : Shared ι := ⟨construct file, fun _ ↦ .edit⟩

/-- The thread `i` performs its next part. -/
def step (calls : ι → Call) (s : Shared ι) (i : ι) : Option (Shared ι) :=
  match s.phase i with
  | .edit => some ⟨{ s.object with list := (calls i).edit s.object.list },
      Function.update s.phase i .writeToFile⟩
  | .writeToFile => some ⟨s.object.writeToFile, Function.update s.phase i .loadFromFile⟩
  | .loadFromFile => some ⟨s.object.loadFromFile, Function.update s.phase i .returned⟩
  | .returned => none

/-- A load finds the file empty, or finds the current list in it. -/
def Harmless (s : Shared ι) (i : ι) : Prop :=
  s.phase i = .loadFromFile →
    s.object.file.content = [] ∨ parseLines s.object.file.content = s.object.list

instance (s : Shared ι) (i : ι) : Decidable (Harmless s i) :=
  inferInstanceAs (Decidable (s.phase i = .loadFromFile → _))

/-- The list holds what was added and nothing that was removed, and of the
initial values those that no call is about. -/
structure NoLostUpdate (calls : ι → Call) (initial list : List Str) : Prop where
  added : ∀ i v, calls i = .add v → v ∈ list
  removed : ∀ i v, calls i = .remove v → v ∉ list
  untouched : ∀ v ∈ initial, (∀ i, (calls i).value ≠ v) → v ∈ list

/-! ## What a step does -/

/-- The values that would be loaded from the file. -/
def Shared.saved (s : Shared ι) : List Str := parseLines s.object.file.content

/-- The three kinds of steps, in terms of the list and of the values in the file. -/
theorem step_cases {calls : ι → Call} {s t : Shared ι} {i : ι} (hs : step calls s i = some t)
    (hwf : WellFormed s.object.list) :
    (s.phase i = .edit ∧ t.phase = Function.update s.phase i .writeToFile ∧
      t.object.list = (calls i).edit s.object.list ∧ t.saved = s.saved) ∨
    (s.phase i = .writeToFile ∧ t.phase = Function.update s.phase i .loadFromFile ∧
      t.object.list = s.object.list ∧ t.saved = s.object.list) ∨
    (s.phase i = .loadFromFile ∧ t.phase = Function.update s.phase i .returned ∧
      t.object.list = (if s.object.file.content = [] then s.object.list else s.saved) ∧
      t.saved = s.saved) := by
  cases hp : s.phase i with
  | edit =>
      simp only [step, hp] at hs
      obtain rfl := Option.some.inj hs
      exact .inl ⟨rfl, rfl, rfl, rfl⟩
  | writeToFile =>
      simp only [step, hp] at hs
      obtain rfl := Option.some.inj hs
      exact .inr (.inl ⟨rfl, rfl, rfl, hwf.parseLines_unlines⟩)
  | loadFromFile =>
      simp only [step, hp] at hs
      obtain rfl := Option.some.inj hs
      refine .inr (.inr ⟨rfl, rfl, loadFromFile_list _, ?_⟩)
      rw [Shared.saved, Shared.saved, loadFromFile_content]
  | returned =>
      simp only [step, hp] at hs
      cases hs

/-- No thread goes back to its edit. -/
theorem ne_edit_of_step {p r : ι → Phase} {i : ι} {q : Phase}
    (hphase : r = Function.update p i q) (hq : q ≠ .edit) {j : ι} (hj : p j ≠ .edit) :
    r j ≠ .edit := by
  rw [hphase]
  by_cases hji : j = i
  · subst hji
    rwa [Function.update_self]
  · rwa [Function.update_of_ne hji]

/-- Before the edit, a step of the thread is its edit. -/
theorem ne_edit_iff_of_step {p r : ι → Phase} {i : ι} {q : Phase}
    (hphase : r = Function.update p i q) (hi : p i ≠ .edit) (hq : q ≠ .edit) (j : ι) :
    r j ≠ .edit ↔ p j ≠ .edit := by
  refine ⟨fun hj ↦ ?_, ne_edit_of_step hphase hq⟩
  by_cases hji : j = i
  · exact hji ▸ hi
  · rwa [hphase, Function.update_of_ne hji] at hj

/-! ## The status of an edit -/

/-- How often the value of a thread occurs in the list and in the file, where
`n` is how often it occurred in the beginning and `m` what the edit makes of it. -/
inductive Status (n m : Nat) : Phase → Nat → Nat → Prop where
  | initial (p : Phase) : Status n m p n n
  | pending : Status n m .writeToFile m n
  | saved {p : Phase} (hp : p ≠ .edit) : Status n m p m m

namespace Status

variable {n m x y : Nat} {p q : Phase}

theorem of_edit (h : Status n m .edit x y) : x = n ∧ y = n := by
  cases h with
  | initial => exact ⟨rfl, rfl⟩
  | saved hp => exact absurd rfl hp

/-- Any write saves the edit if it is in the list. -/
theorem write (h : Status n m p x y) (hq : q = .edit → p = .edit) : Status n m q x x := by
  cases h with
  | initial => exact .initial q
  | pending => exact .saved fun hq' ↦ nomatch hq hq'
  | saved hp => exact .saved fun hq' ↦ hp (hq hq')

/-- Any load makes the list as the file is. -/
theorem load (h : Status n m p x y) : Status n m p y y := by
  cases h with
  | initial => exact .initial p
  | pending => exact .initial _
  | saved hp => exact .saved hp

/-- A thread that has written its edit is not waiting for it to be saved. -/
theorem returns (h : Status n m .loadFromFile x y) : Status n m .returned x y := by
  cases h with
  | initial => exact .initial _
  | saved hp => exact .saved nofun

/-- An edit that is not in the list is nowhere. -/
theorem lost (h : Status n m p x y) (hne : x ≠ m) : x = n ∧ y = n := by
  cases h with
  | initial => exact ⟨rfl, rfl⟩
  | pending => exact absurd rfl hne
  | saved => exact absurd rfl hne

/-- Only the edit of a thread that has yet to write is in the list alone. -/
theorem of_ne (h : Status n m p x y) (hne : x ≠ y) : p = .writeToFile ∧ x = m ∧ y = n := by
  cases h with
  | initial => exact absurd rfl hne
  | pending => exact ⟨rfl, rfl, rfl⟩
  | saved => exact absurd rfl hne

theorem eq_or_eq (h : Status n m p x y) : x = m ∨ x = n := by
  cases h with
  | initial => exact .inr rfl
  | pending => exact .inl rfl
  | saved => exact .inl rfl

end Status

/-! ## The invariant -/

section

variable (calls : ι → Call) (initial : List Str)

structure Tracks (s : Shared ι) : Prop where
  wellFormed : WellFormed s.object.list
  untouched : ∀ v, (∀ i, (calls i).value ≠ v) →
    s.object.list.count v = initial.count v ∧ s.saved.count v = initial.count v
  touched : ∀ i, Status (initial.count (calls i).value)
    ((calls i).target (initial.count (calls i).value)) (s.phase i)
    (s.object.list.count (calls i).value) (s.saved.count (calls i).value)

/-- Every edit that was made is in the list. -/
def Kept (s : Shared ι) : Prop :=
  ∀ i, s.phase i ≠ .edit → s.object.list.count (calls i).value =
    (calls i).target (initial.count (calls i).value)

variable {calls initial}

omit [DecidableEq ι] in
theorem tracks_init (file : FileState) :
    Tracks calls (parseLines file.content) (Shared.init file : Shared ι) := by
  have hlist : (Shared.init file : Shared ι).object.list = parseLines file.content :=
    construct_list file
  have hsaved : (Shared.init file : Shared ι).saved = parseLines file.content := by
    rw [Shared.saved, Shared.init, construct_content]
  constructor
  · rw [hlist]
    exact wellFormed_parseLines _
  · intro v _
    rw [hlist, hsaved]
    exact ⟨rfl, rfl⟩
  · intro i
    rw [hlist, hsaved]
    exact .initial _

omit [DecidableEq ι] in
theorem kept_init (file : FileState) :
    Kept calls (parseLines file.content) (Shared.init file : Shared ι) :=
  fun _ hp ↦ absurd rfl hp

section

variable (hinj : Function.Injective fun i ↦ (calls i).value)
  (hvalue : ∀ i, Writable (calls i).value)
include hinj hvalue

protected theorem Tracks.step {s t : Shared ι} {i : ι} (h : Tracks calls initial s)
    (hs : step calls s i = some t) : Tracks calls initial t := by
  rcases step_cases hs h.wellFormed with ⟨hp, hphase, hlist, hsaved⟩ |
    ⟨hp, hphase, hlist, hsaved⟩ | ⟨hp, hphase, hlist, hsaved⟩
  -- The edit of `i` is now in the list, and the file is as it was.
  · refine ⟨?_, fun v hv ↦ ?_, fun j ↦ ?_⟩
    · rw [hlist]
      exact h.wellFormed.edit _ (hvalue i)
    · rw [hlist, hsaved, count_edit_of_ne h.wellFormed _ (hv i)]
      exact h.untouched v hv
    · have hj := h.touched j
      rw [hlist, hsaved, hphase]
      by_cases hji : j = i
      · subst hji
        rw [hp] at hj
        obtain ⟨hmem, hfile⟩ := hj.of_edit
        rw [Function.update_self, count_edit_self h.wellFormed, hmem, hfile]
        exact .pending
      · rw [Function.update_of_ne hji,
          count_edit_of_ne h.wellFormed _ fun heq ↦ hji (hinj heq.symm)]
        exact hj
  -- The file is now as the list.
  · refine ⟨by rw [hlist]; exact h.wellFormed, fun v hv ↦ ?_, fun j ↦ ?_⟩
    · rw [hlist, hsaved]
      exact ⟨(h.untouched v hv).1, (h.untouched v hv).1⟩
    · rw [hlist, hsaved, hphase]
      refine (h.touched j).write fun hedit ↦ ?_
      by_cases hji : j = i
      · subst hji
        rw [Function.update_self] at hedit
        cases hedit
      · rwa [Function.update_of_ne hji] at hedit
  -- The list is as it was, or as the file.
  · have hstatus : ∀ j, Status (initial.count (calls j).value)
        ((calls j).target (initial.count (calls j).value)) (t.phase j)
        (s.object.list.count (calls j).value) (s.saved.count (calls j).value) := by
      intro j
      rw [hphase]
      by_cases hji : j = i
      · subst hji
        rw [Function.update_self]
        have hj := h.touched j
        rw [hp] at hj
        exact hj.returns
      · rw [Function.update_of_ne hji]
        exact h.touched j
    by_cases hempty : s.object.file.content = []
    · rw [if_pos hempty] at hlist
      refine ⟨?_, fun v hv ↦ ?_, fun j ↦ ?_⟩
      · rw [hlist]
        exact h.wellFormed
      · rw [hlist, hsaved]
        exact h.untouched v hv
      · rw [hlist, hsaved]
        exact hstatus j
    · rw [if_neg hempty] at hlist
      refine ⟨?_, fun v hv ↦ ?_, fun j ↦ ?_⟩
      · rw [hlist]
        exact wellFormed_parseLines _
      · rw [hlist, hsaved]
        exact ⟨(h.untouched v hv).2, (h.untouched v hv).2⟩
      · rw [hlist, hsaved]
        exact (hstatus j).load

/-- An edit in the list stays there unless a harmful load takes it off. -/
theorem Tracks.kept_iff {s t : Shared ι} {i : ι} (h : Tracks calls initial s)
    (hkept : Kept calls initial s) (hs : step calls s i = some t) :
    Kept calls initial t ↔ Harmless s i := by
  rcases step_cases hs h.wellFormed with ⟨hp, hphase, hlist, hsaved⟩ |
    ⟨hp, hphase, hlist, hsaved⟩ | ⟨hp, hphase, hlist, hsaved⟩
  · refine iff_of_true (fun j hj ↦ ?_) fun hload ↦ nomatch hp.symm.trans hload
    rw [hlist]
    by_cases hji : j = i
    · subst hji
      have hstatus := h.touched j
      rw [hp] at hstatus
      rw [count_edit_self h.wellFormed, hstatus.of_edit.1]
    · rw [hphase, Function.update_of_ne hji] at hj
      rw [count_edit_of_ne h.wellFormed _ fun heq ↦ hji (hinj heq.symm)]
      exact hkept j hj
  · refine iff_of_true (fun j hj ↦ ?_) fun hload ↦ nomatch hp.symm.trans hload
    rw [hlist]
    exact hkept j ((ne_edit_iff_of_step hphase (by rw [hp]; exact nofun) nofun j).mp hj)
  · have hpast := ne_edit_iff_of_step hphase (by rw [hp]; exact nofun) nofun
    have hharmless : Harmless s i ↔ t.object.list = s.object.list := by
      rw [hlist]
      constructor
      · intro hload
        rcases hload hp with hempty | heq
        · rw [if_pos hempty]
        · split
          · rfl
          · exact heq
      · intro heq _
        by_cases hempty : s.object.file.content = []
        · exact .inl hempty
        · rw [if_neg hempty] at heq
          exact .inr heq
    rw [hharmless]
    constructor
    · intro hkept'
      have ht := h.step hinj hvalue hs
      refine ht.wellFormed.ext h.wellFormed fun v ↦ ?_
      by_cases hv : ∀ j, (calls j).value ≠ v
      · rw [(ht.untouched v hv).1, (h.untouched v hv).1]
      · obtain ⟨j, rfl⟩ : ∃ j, (calls j).value = v := by simpa using hv
        by_cases hj : s.phase j = .edit
        · have hstatus := h.touched j
          have hstatus' := ht.touched j
          have hj' : t.phase j = .edit := by
            by_contra hne
            exact (hpast j).mp hne hj
          rw [hj] at hstatus
          rw [hj'] at hstatus'
          rw [hstatus.of_edit.1, hstatus'.of_edit.1]
        · rw [hkept' j ((hpast j).mpr hj), hkept j hj]
    · intro heq j hj
      rw [heq]
      exact hkept j ((hpast j).mp hj)

omit hvalue in
/-- No step brings a lost edit back. -/
theorem Tracks.not_kept {s t : Shared ι} {i : ι} (h : Tracks calls initial s)
    (hlost : ¬ Kept calls initial s) (hs : step calls s i = some t) :
    ¬ Kept calls initial t := by
  intro hkept
  apply hlost
  intro j hj
  by_contra hne
  obtain ⟨hmem, hfile⟩ := (h.touched j).lost hne
  rcases step_cases hs h.wellFormed with ⟨hp, hphase, hlist, hsaved⟩ |
    ⟨hp, hphase, hlist, hsaved⟩ | ⟨hp, hphase, hlist, hsaved⟩
  · have hji : j ≠ i := fun heq ↦ hj (heq ▸ hp)
    have hcount := hkept j (ne_edit_of_step hphase nofun hj)
    rw [hlist, count_edit_of_ne h.wellFormed _ fun heq ↦ hji (hinj heq.symm)] at hcount
    exact hne hcount
  · have hcount := hkept j (ne_edit_of_step hphase nofun hj)
    rw [hlist] at hcount
    exact hne hcount
  · have hcount := hkept j (ne_edit_of_step hphase nofun hj)
    rw [hlist] at hcount
    split at hcount
    · exact hne hcount
    · exact hne (hmem.trans (hfile.symm.trans hcount))

end

/-! ## The outcome of a run -/

omit [DecidableEq ι] in
/-- When all calls have returned, the file holds the list. -/
theorem Tracks.saved_eq {s : Shared ι} (h : Tracks calls initial s)
    (hdone : ∀ i, s.phase i = .returned) : s.saved = s.object.list := by
  refine (wellFormed_parseLines _).ext h.wellFormed fun v ↦ ?_
  change s.saved.count v = _
  by_cases hv : ∀ i, (calls i).value ≠ v
  · rw [(h.untouched v hv).1, (h.untouched v hv).2]
  · obtain ⟨i, rfl⟩ : ∃ i, (calls i).value = v := by simpa using hv
    by_contra hne
    obtain ⟨hp, -, -⟩ := (h.touched i).of_ne (Ne.symm hne)
    rw [hdone i] at hp
    cases hp

omit [DecidableEq ι] in
/-- What a call wanted is what became of its value, if the value was not there
twice. -/
theorem Tracks.noLostUpdate_iff {s : Shared ι} (h : Tracks calls initial s)
    (hdone : ∀ i, s.phase i = .returned) :
    NoLostUpdate calls initial s.object.list ↔
      Kept calls initial s ∧ ∀ i v, calls i = .remove v → initial.count v ≤ 1 := by
  constructor
  · intro hno
    refine ⟨fun i _ ↦ ?_, fun i v hv ↦ ?_⟩
    · have heq := (h.touched i).eq_or_eq
      cases hc : calls i with
      | add v =>
          have hpos : 0 < s.object.list.count v := List.count_pos_iff.mpr (hno.added i v hc)
          rw [hc] at heq
          change s.object.list.count v = max 1 (initial.count v) ∨
            s.object.list.count v = initial.count v at heq
          change s.object.list.count v = max 1 (initial.count v)
          omega
      | remove v =>
          have hzero : s.object.list.count v = 0 :=
            List.count_eq_zero.mpr (hno.removed i v hc)
          rw [hc] at heq
          change s.object.list.count v = initial.count v - 1 ∨
            s.object.list.count v = initial.count v at heq
          change s.object.list.count v = initial.count v - 1
          omega
    · have hzero : s.object.list.count v = 0 := List.count_eq_zero.mpr (hno.removed i v hv)
      have heq := (h.touched i).eq_or_eq
      rw [hv] at heq
      change s.object.list.count v = initial.count v - 1 ∨
        s.object.list.count v = initial.count v at heq
      omega
  · rintro ⟨hkept, honce⟩
    refine ⟨fun i v hv ↦ ?_, fun i v hv ↦ ?_, fun v hv hother ↦ ?_⟩
    · have hcount := hkept i (by rw [hdone i]; exact nofun)
      rw [hv] at hcount
      change s.object.list.count v = max 1 (initial.count v) at hcount
      apply List.count_pos_iff.mp
      omega
    · have hcount := hkept i (by rw [hdone i]; exact nofun)
      have hle := honce i v hv
      rw [hv] at hcount
      change s.object.list.count v = initial.count v - 1 at hcount
      apply List.count_eq_zero.mp
      omega
    · apply List.count_pos_iff.mp
      rw [(h.untouched v hother).1]
      exact List.count_pos_iff.mpr hv

end

/-- **When no update is lost.**  The calls are on distinct values, and all of
them have returned.  Then the list and a fresh load of the file are as they
should be exactly when every load was harmless and no removed value was listed
twice in the beginning. -/
theorem no_lost_update_iff (calls : ι → Call)
    (hinj : Function.Injective fun i ↦ (calls i).value)
    (hvalue : ∀ i, Writable (calls i).value) (file : FileState) (es : List ι) (s : Shared ι)
    (hrun : run (step calls) (Shared.init file) es = some s)
    (hdone : ∀ i, s.phase i = .returned) :
    (NoLostUpdate calls (construct file).list s.object.list ∧
        NoLostUpdate calls (construct file).list (construct s.object.file).list) ↔
      Along (step calls) Harmless (Shared.init file) es ∧
        ∀ i v, calls i = .remove v → (construct file).list.count v ≤ 1 := by
  have htracks : Tracks calls (parseLines file.content) s :=
    run_invariant (fun _ _ _ h hs ↦ h.step hinj hvalue hs) (tracks_init file) hrun
  have halong : Along (step calls) Harmless (Shared.init file) es ↔
      Kept calls (parseLines file.content) s :=
    along_iff_end (I := Tracks calls (parseLines file.content))
      (fun _ _ _ h hs ↦ h.step hinj hvalue hs)
      (fun _ _ _ h hkept hs ↦ h.kept_iff hinj hvalue hkept hs)
      (fun _ _ _ h hlost hs ↦ h.not_kept hinj hlost hs) (tracks_init file) (kept_init file) hrun
  have hfresh : (construct s.object.file).list = s.object.list := by
    rw [construct_list]
    exact htracks.saved_eq hdone
  rw [hfresh, and_self, construct_list, halong]
  exact htracks.noLostUpdate_iff hdone

/-- Two threads, which add `"a"` and `"b"`. -/
def twoAdds : Bool → Call
  | false => .add "a".toList
  | true => .add "b".toList

theorem twoAdds_injective : Function.Injective fun i ↦ (twoAdds i).value := by
  intro i j
  revert i j
  decide

/-- One thread after the other. -/
theorem no_lost_update_sequential :
    ∃ s, run (step twoAdds) (Shared.init none) [false, false, false, true, true, true] = some s ∧
      NoLostUpdate twoAdds (construct none).list s.object.list ∧
      NoLostUpdate twoAdds (construct none).list (construct s.object.file).list := by
  refine ⟨_, rfl, ?_⟩
  refine (no_lost_update_iff twoAdds twoAdds_injective (by decide) none
    [false, false, false, true, true, true] _ rfl (by decide)).mpr ⟨by decide, ?_⟩
  rintro (_ | _) v hv
  · cases hv
  · cases hv

/-- The second thread edits between the write and the load of the first. -/
theorem no_lost_update_interleaved :
    ∃ s, run (step twoAdds) (Shared.init none) [false, false, true, false, true, true] = some s ∧
      (∀ i, s.phase i = .returned) ∧ s.object.list = ["a".toList] ∧
      ¬ NoLostUpdate twoAdds (construct none).list s.object.list := by
  refine ⟨_, rfl, by decide, by decide, fun h ↦ ?_⟩
  have hmem := h.added true _ rfl
  revert hmem
  decide

end AsabruCommons.Authentication.MemoryMappedListFile
