import AsabruCommons.Authentication.SortedSet
import AsabruCommons.Run
import AsabruCommons.WorkingCopy
import Mathlib.Logic.Function.Basic

/-!
# A list file that several threads use

Any number of threads call `add`, `remove` and `removeList` on one `MemoryMappedListFile`, any
number of times and with any values.  The three locked parts of a call are steps of their own.
The process may also stop between two of them, and a new object be made on the file.

The list in memory is the working copy of a set, and the file the saved one: a call is an
action on the list, `writeToFile` saves, and `loadFromFile` loads unless the file is empty
(`moves_of_run`).  So whatever the threads do, the object holds what some of the calls make of
the lines of the first file, and nothing else (`some_of_the_edits`).  Of a call that is not
among them it can be told when it was lost: the file was loaded before it was written
(`first_access_decides`).
-/

namespace AsabruCommons.Authentication.MemoryMappedListFile

open Lines Run WorkingCopy

/-- The locked part of a call that changes the list. -/
def SetCall.edit : SetCall → List Str → List Str
  | add value => insertValue value
  | remove value => eraseValue value
  | removeList valuesToRemove => eraseValues valuesToRemove

theorem SetCall.perform_eq (l : MemoryMappedListFile) (c : SetCall) :
    c.perform l = l.update c.edit := by
  cases c <;> rfl

/-- What the call makes of a value, if it is about it. -/
def SetCall.decides (v : Str) : SetCall → Option Bool
  | add value => if v = value then some true else none
  | remove value => if v = value then some false else none
  | removeList valuesToRemove => if valuesToRemove.contains v then some false else none

/-- The locked part of its call that a thread comes to next. -/
inductive Place where
  | outside
  | writing
  | loading
deriving DecidableEq

structure SharedSet (ι : Type) where
  object : MemoryMappedListFile
  places : ι → Place

namespace SharedSet

variable {ι : Type}

/-- The object just constructed on its file. -/
def start (ι : Type) (file : FileState) : SharedSet ι := ⟨construct file, fun _ ↦ .outside⟩

inductive Event (ι : Type) where
  | edit (i : ι) (c : SetCall)
  | writeToFile (i : ι)
  | loadFromFile (i : ι)
  /-- The process stops, and there is a new object on the file. -/
  | restart

def step [DecidableEq ι] (s : SharedSet ι) : Event ι → Option (SharedSet ι)
  | .edit i c =>
      if s.places i = .outside then
        some ⟨{ s.object with list := c.edit s.object.list },
          Function.update s.places i .writing⟩
      else none
  | .writeToFile i =>
      if s.places i = .writing then
        some ⟨s.object.writeToFile, Function.update s.places i .loading⟩
      else none
  | .loadFromFile i =>
      if s.places i = .loading then
        some ⟨s.object.loadFromFile, Function.update s.places i .outside⟩
      else none
  | .restart => some (start ι s.object.file)

/-- The call of which this is the first part. -/
def Event.call? : Event ι → Option SetCall
  | .edit _ c => some c
  | .writeToFile _ | .loadFromFile _ | .restart => none

/-- The calls, in the order in which they change the list. -/
def edits (es : List (Event ι)) : List SetCall := es.filterMap Event.call?

/-- What is added is a line. -/
def Event.Writable (e : Event ι) : Prop :=
  ∀ value, e.call? = some (.add value) → MemoryMappedListFile.Writable value

/-- The list is the set, in increasing order. -/
def Enumerates (list : List Str) (s : Finset Str) : Prop :=
  list.Pairwise (· < ·) ∧ list.toFinset = s

/-- The values in memory, and those that a new object would have. -/
def copies (s : SharedSet ι) : Copies (Finset Str) :=
  ⟨s.object.list.toFinset, (construct s.object.file).list.toFinset⟩

/-- What a step does to the copies, if this is the file. -/
def Event.moves (content : Str) : Event ι → List (Move SetCall)
  | .edit _ c => [.act c]
  | .writeToFile _ => [.save]
  | .loadFromFile _ => if content = [] then [] else [.load]
  | .restart => [.load]

/-! ## One call on the list -/

theorem edit_spec {list : List Str} (h : WellFormed list) (hnodup : list.Nodup) (c : SetCall)
    (hadd : ∀ value, c = .add value → MemoryMappedListFile.Writable value) :
    WellFormed (c.edit list) ∧ (c.edit list).Nodup ∧
      (c.edit list).toFinset = c.apply list.toFinset := by
  have hedit : WellFormed (c.edit list) ∧ (c.edit list).Nodup := by
    cases c with
    | add value => exact ⟨h.insertValue (hadd value rfl), (nodup_insertValue h hnodup value).1⟩
    | remove value => exact ⟨h.sublist List.erase_sublist, hnodup.sublist List.erase_sublist⟩
    | removeList values =>
        exact ⟨h.sublist List.filter_sublist, hnodup.sublist List.filter_sublist⟩
  have hsaved : Saved ⟨list, some (unlines '\n' list)⟩ := ⟨h, hnodup, h.parseLines_unlines⟩
  have hset := (hsaved.perform c hadd).2
  rw [SetCall.perform_eq, (Saved.update hedit.1 hedit.2).2] at hset
  exact ⟨hedit.1, hedit.2, hset⟩

theorem mem_apply_of_decides {c : SetCall} {v : Str} {b : Bool} (h : c.decides v = some b)
    (s : Finset Str) : v ∈ c.apply s ↔ b = true := by
  cases c with
  | add value =>
      obtain ⟨rfl, hb⟩ := Option.ite_none_right_eq_some.mp h
      obtain rfl := Option.some.inj hb
      exact iff_of_true (Finset.mem_insert_self _ _) rfl
  | remove value =>
      obtain ⟨rfl, hb⟩ := Option.ite_none_right_eq_some.mp h
      obtain rfl := Option.some.inj hb
      exact iff_of_false (Finset.notMem_erase _ _) Bool.false_ne_true
  | removeList values =>
      obtain ⟨hv, hb⟩ := Option.ite_none_right_eq_some.mp h
      obtain rfl := Option.some.inj hb
      refine iff_of_false (fun hmem ↦ ?_) Bool.false_ne_true
      exact (Finset.mem_sdiff.mp hmem).2 (List.mem_toFinset.mpr (List.contains_iff_mem.mp hv))

/-- A call that is not about a value leaves it alone. -/
theorem leaves_of_decides {c : SetCall} {v : Str} (h : c.decides v = none) :
    Leaves SetCall.apply (v ∈ ·) c := by
  intro s
  cases c with
  | add value =>
      have hv : v ≠ value := fun heq ↦ by simp [SetCall.decides, heq] at h
      exact ⟨fun hmem ↦ (Finset.mem_insert.mp hmem).resolve_left hv, Finset.mem_insert_of_mem⟩
  | remove value =>
      have hv : v ≠ value := fun heq ↦ by simp [SetCall.decides, heq] at h
      exact ⟨Finset.mem_of_mem_erase, Finset.mem_erase_of_ne_of_mem hv⟩
  | removeList values =>
      have hv : v ∉ values := fun hmem ↦ by simp [SetCall.decides, hmem] at h
      show v ∈ s \ values.toFinset ↔ v ∈ s
      rw [Finset.mem_sdiff, List.mem_toFinset]
      exact and_iff_left hv

/-! ## What a step does -/

/-- Both copies are lists without duplicates, and they are the same unless some thread has yet
to write its edit. -/
structure Sound (s : SharedSet ι) : Prop where
  wellFormed : WellFormed s.object.list
  nodup : s.object.list.Nodup
  stored : (construct s.object.file).list.Nodup
  settled : (∀ i, s.places i ≠ .writing) → (construct s.object.file).list = s.object.list

theorem sound_start {file : FileState} (h : (fileLines file).Nodup) :
    Sound (start ι file) ∧
      (start ι file).copies = ⟨(fileLines file).toFinset, (fileLines file).toFinset⟩ := by
  obtain ⟨hsaved, hset⟩ := saved_construct h
  have hfresh : (construct (construct file).file).list = (construct file).list :=
    hsaved.represents.durable
  refine ⟨⟨hsaved.wellFormed, hsaved.nodup, ?_, fun _ ↦ hfresh⟩, ?_⟩
  · exact hfresh ▸ hsaved.nodup
  · show Copies.mk (construct file).list.toFinset
      (construct (construct file).file).list.toFinset = _
    rw [hfresh, hset]

section

variable [DecidableEq ι] {s t : SharedSet ι} {e : Event ι}

/-- The steps, one constructor each. -/
inductive Step : SharedSet ι → Event ι → SharedSet ι → Prop
  | edit {s : SharedSet ι} {i c} (hi : s.places i = .outside) :
      Step s (.edit i c)
        ⟨{ s.object with list := c.edit s.object.list }, Function.update s.places i .writing⟩
  | writeToFile {s : SharedSet ι} {i} (hi : s.places i = .writing) :
      Step s (.writeToFile i) ⟨s.object.writeToFile, Function.update s.places i .loading⟩
  | loadFromFile {s : SharedSet ι} {i} (hi : s.places i = .loading) :
      Step s (.loadFromFile i) ⟨s.object.loadFromFile, Function.update s.places i .outside⟩
  | restart {s : SharedSet ι} : Step s .restart (start ι s.object.file)

theorem step_cases (h : step s e = some t) : Step s e t := by
  cases e with
  | edit i c =>
      obtain ⟨hi, ht⟩ := Option.ite_none_right_eq_some.mp h
      obtain rfl := Option.some.inj ht
      exact .edit hi
  | writeToFile i =>
      obtain ⟨hi, ht⟩ := Option.ite_none_right_eq_some.mp h
      obtain rfl := Option.some.inj ht
      exact .writeToFile hi
  | loadFromFile i =>
      obtain ⟨hi, ht⟩ := Option.ite_none_right_eq_some.mp h
      obtain rfl := Option.some.inj ht
      exact .loadFromFile hi
  | restart =>
      obtain rfl := Option.some.inj h
      exact .restart

/-- What the file holds after `loadFromFile` is what it held. -/
theorem construct_loadFromFile (l : MemoryMappedListFile) :
    (construct l.loadFromFile.file).list = (construct l.file).list := by
  rw [construct_list, construct_list, loadFromFile_content]

/-- A thread that moves out of the way of no other one. -/
theorem not_writing_of_update {places : ι → Place} {i : ι} {p : Place}
    (hi : places i ≠ .writing) (h : ∀ j, Function.update places i p j ≠ .writing) (j : ι) :
    places j ≠ .writing := by
  by_cases hji : j = i
  · rwa [hji]
  · have hj := h j
    rwa [Function.update_of_ne hji] at hj

theorem Sound.step (h : Sound s) (he : e.Writable) (hs : Step s e t) :
    Sound t ∧ t.copies = s.copies.moves SetCall.apply (e.moves s.object.file.content) := by
  cases hs with
  | @edit i c hi =>
      obtain ⟨hwf, hnodup, hset⟩ :=
        edit_spec h.wellFormed h.nodup c fun value hc ↦ he value (congrArg some hc)
      refine ⟨⟨hwf, hnodup, h.stored, fun hno ↦ absurd (Function.update_self ..) (hno i)⟩, ?_⟩
      exact congrArg (Copies.mk · _) hset
  | @writeToFile i hi =>
      have hfresh : (construct s.object.writeToFile.file).list = s.object.list := by
        rw [construct_list]
        exact h.wellFormed.parseLines_unlines
      refine ⟨⟨h.wellFormed, h.nodup, hfresh ▸ h.nodup, fun _ ↦ hfresh⟩, ?_⟩
      exact congrArg (fun l : List Str ↦ Copies.mk _ l.toFinset) hfresh
  | @loadFromFile i hi =>
      have hfresh := construct_loadFromFile s.object
      have hlist := loadFromFile_list s.object
      rw [← construct_list] at hlist
      by_cases hempty : s.object.file.content = []
      · rw [if_pos hempty] at hlist
        refine ⟨⟨hlist ▸ h.wellFormed, hlist ▸ h.nodup, hfresh ▸ h.stored, fun hno ↦ ?_⟩, ?_⟩
        · rw [hfresh, hlist]
          exact h.settled (not_writing_of_update (by rw [hi]; exact nofun) hno)
        · rw [Event.moves, if_pos hempty]
          show Copies.mk _ _ = Copies.mk _ _
          rw [hfresh, hlist]
      · rw [if_neg hempty] at hlist
        have hwf : WellFormed (construct s.object.file).list := by
          rw [construct_list]
          exact wellFormed_parseLines _
        refine ⟨⟨hlist ▸ hwf, hlist ▸ h.stored, hfresh ▸ h.stored, fun _ ↦ ?_⟩, ?_⟩
        · rw [hfresh, hlist]
        · rw [Event.moves, if_neg hempty]
          show Copies.mk _ _ = Copies.mk _ _
          rw [hfresh, hlist]
          rfl
  | restart =>
      have hfresh : (construct (construct s.object.file).file).list =
          (construct s.object.file).list := by
        rw [construct_list, construct_list, construct_content]
      have hwf : WellFormed (construct s.object.file).list := by
        rw [construct_list]
        exact wellFormed_parseLines _
      refine ⟨⟨hwf, h.stored, hfresh ▸ h.stored, fun _ ↦ hfresh⟩, ?_⟩
      exact congrArg (fun l : List Str ↦ Copies.mk _ l.toFinset) hfresh

/-! ## What a run does -/

omit [DecidableEq ι] in
theorem actions_moves (content : Str) (e : Event ι) :
    actions (e.moves content) = e.call?.toList := by
  cases e with
  | loadFromFile i =>
      rw [Event.moves]
      split <;> rfl
  | _ => rfl

omit [DecidableEq ι] in
theorem edits_cons (e : Event ι) (es : List (Event ι)) :
    edits (e :: es) = e.call?.toList ++ edits es := by
  rw [edits, List.filterMap_cons]
  cases e.call? with
  | none => rfl
  | some c => rfl

/-- **The file of a set.**  A run does the calls on the copies, and it saves and loads. -/
theorem moves_of_run {es : List (Event ι)} (h : Sound s) (hes : ∀ e ∈ es, e.Writable)
    (hrun : run step s es = some t) :
    Sound t ∧ ∃ ms, actions ms = edits es ∧ t.copies = s.copies.moves SetCall.apply ms := by
  induction es generalizing s with
  | nil =>
      obtain rfl := Option.some.inj hrun
      exact ⟨h, [], rfl, rfl⟩
  | cons e es ih =>
      obtain ⟨u, hu, hrun⟩ := run_cons_eq_some.mp hrun
      rw [List.forall_mem_cons] at hes
      obtain ⟨hsound, hcopies⟩ := h.step hes.1 (step_cases hu)
      obtain ⟨hend, ms, hms, ht⟩ := ih hsound hes.2 hrun
      refine ⟨hend, e.moves s.object.file.content ++ ms, ?_, ?_⟩
      · rw [actions_append, actions_moves, hms, edits_cons]
      · rw [moves_append, ht, hcopies]

/-- The step saves or loads. -/
def Event.Accesses (content : Str) : Event ι → Prop
  | .edit _ _ => False
  | .writeToFile _ | .restart => True
  | .loadFromFile _ => content ≠ []

omit [DecidableEq ι] in
theorem moves_of_not_accesses {content : Str} (h : ¬ e.Accesses content) :
    e.moves content = e.call?.toList.map Move.act := by
  cases e with
  | edit i c => rfl
  | writeToFile i => exact absurd trivial h
  | loadFromFile i => exact if_pos (not_not.mp h)
  | restart => exact absurd trivial h

theorem content_of_not_accesses (h : ¬ e.Accesses s.object.file.content) (hs : Step s e t) :
    t.object.file.content = s.object.file.content := by
  cases hs with
  | edit hi => rfl
  | writeToFile hi => exact absurd trivial h
  | loadFromFile hi => exact loadFromFile_content _
  | restart => exact absurd trivial h

/-- As long as nothing is saved or loaded, the calls are done on the list. -/
theorem moves_of_idle {es : List (Event ι)} (h : Sound s) (hes : ∀ e ∈ es, e.Writable)
    (hidle : ∀ e ∈ es, ¬ e.Accesses s.object.file.content) (hrun : run step s es = some t) :
    Sound t ∧ t.object.file.content = s.object.file.content ∧
      t.copies = s.copies.moves SetCall.apply ((edits es).map Move.act) := by
  induction es generalizing s with
  | nil =>
      obtain rfl := Option.some.inj hrun
      exact ⟨h, rfl, rfl⟩
  | cons e es ih =>
      obtain ⟨u, hu, hrun⟩ := run_cons_eq_some.mp hrun
      rw [List.forall_mem_cons] at hes hidle
      obtain ⟨hsound, hcopies⟩ := h.step hes.1 (step_cases hu)
      have hcontent := content_of_not_accesses hidle.1 (step_cases hu)
      rw [← hcontent] at hidle
      obtain ⟨hend, hsame, ht⟩ := ih hsound hes.2 hidle.2 hrun
      refine ⟨hend, hsame.trans hcontent, ?_⟩
      rw [hcontent] at hidle
      rw [ht, hcopies, moves_of_not_accesses hidle.1, ← moves_append, ← List.map_append,
        edits_cons]

/-! ## The outcome -/

omit [DecidableEq ι] in
theorem Sound.enumerates (h : Sound s) : Enumerates s.object.list s.copies.working :=
  ⟨(h.wellFormed.sorted.and h.nodup).imp fun hlt ↦ lt_of_le_of_ne hlt.1 hlt.2, rfl⟩

omit [DecidableEq ι] in
theorem Sound.enumerates_fresh (h : Sound s) :
    Enumerates (construct s.object.file).list s.copies.saved := by
  have hwf : WellFormed (construct s.object.file).list := by
    rw [construct_list]
    exact wellFormed_parseLines _
  exact ⟨(hwf.sorted.and h.stored).imp fun hlt ↦ lt_of_le_of_ne hlt.1 hlt.2, rfl⟩

/-- **Some of the calls.**  On a file whose non-empty lines are distinct, and whatever the
threads do: the list in memory is the set that some of the calls make of the lines of the file,
in the order of their edits; so is the list of a new object on the file as it is now; and these
two are the same unless some thread has edited the list and not yet written it. -/
theorem some_of_the_edits (file : FileState) (hfile : (fileLines file).Nodup)
    (es : List (Event ι)) (hes : ∀ e ∈ es, e.Writable) (s : SharedSet ι)
    (hrun : run step (start ι file) es = some s) :
    (∃ kept : List SetCall, kept.Sublist (edits es) ∧
        Enumerates s.object.list (kept.foldl SetCall.apply (fileLines file).toFinset)) ∧
      (∃ stored : List SetCall, stored.Sublist (edits es) ∧
        Enumerates (construct s.object.file).list
          (stored.foldl SetCall.apply (fileLines file).toFinset)) ∧
      ((∀ i, s.places i ≠ .writing) → (construct s.object.file).list = s.object.list) := by
  obtain ⟨hstart, hcopies⟩ := sound_start (ι := ι) hfile
  obtain ⟨hsound, ms, hms, hs⟩ := moves_of_run hstart hes hrun
  obtain ⟨kept, stored, hkept, hstored, hmoves⟩ :=
    exists_sublists SetCall.apply (fileLines file).toFinset ms
  rw [hcopies, hmoves] at hs
  rw [hms] at hkept hstored
  have hlist := hsound.enumerates
  have hfresh := hsound.enumerates_fresh
  rw [hs] at hlist hfresh
  exact ⟨⟨kept, hkept, hlist⟩, ⟨stored, hstored, hfresh⟩, hsound.settled⟩

/-- A thread loads the file between the edit and the write of another one, and the process stops
before this one has loaded it. -/
def overtakenRun : List (Event Bool) :=
  [.edit false (.add ['a']), .writeToFile false, .edit true (.removeList [['b'], ['c']]),
    .loadFromFile false, .writeToFile true, .edit false (.add ['d']), .restart]

theorem writable_overtakenRun : ∀ e ∈ overtakenRun, e.Writable := by
  simp [overtakenRun, Event.Writable, Event.call?, MemoryMappedListFile.Writable]

theorem some_of_the_edits_overtaken :
    ∃ s, run step (start Bool (some "c\nb".toList)) overtakenRun = some s ∧
      s.object.list = [['a'], ['b'], ['c']] ∧
      ∃ kept : List SetCall, kept.Sublist (edits overtakenRun) ∧
        Enumerates s.object.list (kept.foldl SetCall.apply {['c'], ['b']}) :=
  ⟨_, rfl, rfl, (some_of_the_edits (some "c\nb".toList) (by decide) overtakenRun
    writable_overtakenRun _ rfl).1⟩

/-- **What comes first.**  A call has edited the list.  If the file is then written before it is
loaded, by whichever threads, what the call says of a value is so in memory and in the file
until another call says something else.  If it is loaded first, or the process stops, the value
is as it was in the file. -/
theorem first_access_decides (file : FileState) (hfile : (fileLines file).Nodup)
    (before idle after : List (Event ι)) (i : ι) (c : SetCall) (e : Event ι)
    (hwritable : ∀ x ∈ before ++ .edit i c :: idle ++ e :: after, x.Writable)
    (r u s : SharedSet ι) (hbefore : run step (start ι file) before = some r)
    (hidle : run step r (.edit i c :: idle) = some u)
    (hafter : run step u (e :: after) = some s)
    (hno : ∀ x ∈ idle, ¬ x.Accesses r.object.file.content)
    (he : e.Accesses r.object.file.content) (v : Str) (b : Bool) (hc : c.decides v = some b)
    (hothers : ∀ d ∈ edits (idle ++ after), d.decides v = none) :
    ((∃ j, e = .writeToFile j) →
        (v ∈ s.object.list ↔ b = true) ∧ (v ∈ (construct s.object.file).list ↔ b = true)) ∧
      ((∀ j, e ≠ .writeToFile j) →
        (v ∈ s.object.list ↔ v ∈ (construct r.object.file).list) ∧
          (v ∈ (construct s.object.file).list ↔ v ∈ (construct r.object.file).list)) := by
  rw [List.forall_mem_append, List.forall_mem_append, List.forall_mem_cons,
    List.forall_mem_cons] at hwritable
  obtain ⟨⟨hwbefore, hwc, hwidle⟩, hwe, hwafter⟩ := hwritable
  obtain ⟨hr, -, -, -⟩ := moves_of_run (sound_start hfile).1 hwbefore hbefore
  obtain ⟨hu, hcontent, hcopies⟩ := moves_of_idle hr
    (List.forall_mem_cons.mpr ⟨hwc, hwidle⟩) (List.forall_mem_cons.mpr ⟨id, hno⟩) hidle
  obtain ⟨w, hw, hrest⟩ := run_cons_eq_some.mp hafter
  obtain ⟨hsound, hfirst⟩ := hu.step hwe (step_cases hw)
  obtain ⟨-, ms, hms, hs⟩ := moves_of_run hsound hwafter hrest
  have hleaves : (∀ d ∈ edits idle, Leaves SetCall.apply (v ∈ ·) d) ∧
      ∀ d ∈ actions ms, Leaves SetCall.apply (v ∈ ·) d := by
    rw [hms]
    rw [edits, List.filterMap_append, List.forall_mem_append] at hothers
    exact ⟨fun d hd ↦ leaves_of_decides (hothers.1 d hd),
      fun d hd ↦ leaves_of_decides (hothers.2 d hd)⟩
  have hmem : (v ∈ s.object.list ↔ v ∈ s.copies.working) ∧
      (v ∈ (construct s.object.file).list ↔ v ∈ s.copies.saved) :=
    ⟨List.mem_toFinset.symm, List.mem_toFinset.symm⟩
  rw [hfirst, hcopies, hcontent, ← moves_append, ← moves_append] at hs
  rw [hmem.1, hmem.2, hs]
  constructor
  · rintro ⟨j, rfl⟩
    exact of_save (c := r.copies) (mem_apply_of_decides hc) hleaves.1 hleaves.2
  · intro hload
    have hmoves : e.moves r.object.file.content = [.load] := by
      cases e with
      | edit i c => exact he.elim
      | writeToFile i => exact absurd rfl (hload i)
      | loadFromFile i => exact if_neg he
      | restart => rfl
    rw [hmoves, List.singleton_append]
    have hloaded := of_load (c := r.copies) (edits (.edit i c :: idle)) hleaves.2
    have hold : v ∈ r.copies.saved ↔ v ∈ (construct r.object.file).list := List.mem_toFinset
    rw [hold] at hloaded
    exact hloaded

/-- The first call of the run is written first, and its string is there.  The second is overtaken
by a load, and the string that it was to remove is there again. -/
theorem first_access_decides_overtaken :
    ∃ s, run step (start Bool (some "c\nb".toList)) overtakenRun = some s ∧
      ['a'] ∈ s.object.list ∧ ['a'] ∈ (construct s.object.file).list ∧ ['b'] ∈ s.object.list := by
  have hfirst := (first_access_decides (some "c\nb".toList) (by decide) [] []
    (overtakenRun.drop 2) false (.add ['a']) (.writeToFile false) writable_overtakenRun
    _ _ _ rfl rfl rfl nofun trivial ['a'] true rfl (by decide)).1 ⟨false, rfl⟩
  have hsecond := (first_access_decides (some "c\nb".toList) (by decide) (overtakenRun.take 2) []
    (overtakenRun.drop 4) true (.removeList [['b'], ['c']]) (.loadFromFile false)
    writable_overtakenRun _ _ _ rfl rfl rfl nofun (List.cons_ne_nil _ _) ['b'] false rfl
    (by decide)).2 nofun
  exact ⟨_, rfl, hfirst.1.mpr rfl, hfirst.2.mpr rfl, hsecond.1.mpr (by decide)⟩

end

end SharedSet

end AsabruCommons.Authentication.MemoryMappedListFile
