import AsabruCommons.Run
import AsabruCommons.Scheduler
import Mathlib.Order.Basic

/-!
# Tasks run once, on time and in order

A history of a scheduler: which tasks were added, and after how many passes; what
the clock read in each pass; and which tasks were run, in order.  A task is known
by the number of the `addTask` that added it: two tasks may agree in all they
have.

Of every history, `runs_once_on_time` says that no task is run twice; that a task
is run in the first pass after it was added whose reading is at or behind its
time, and in no other; that within a pass the tasks are run in the order they
were added; and that those which were not run are still there in that order.  The
clock may go back from one pass to the next: nothing asks that the readings be
ordered.

The invariant is `Kept`.  A pass keeps it because it finds the tasks that were not
run, of which it runs those that are due: for such a task there was no earlier
pass that reached its time, so this one is the first (`firstReached_snoc`).
-/

namespace AsabruCommons.Scheduler

open Run

universe u v

variable {T : Type u} {φ : Type v}

/-! ## The first pass that reaches a time -/

section FirstReached

variable [LinearOrder T] {readings : List T} {since p q : ℕ} {time now : T}

/-- Of the passes from `since` on, `p` is the first whose reading is at or behind
`time`. -/
def FirstReached (readings : List T) (since : ℕ) (time : T) (p : ℕ) : Prop :=
  since ≤ p ∧ (∃ now, readings[p]? = some now ∧ time ≤ now) ∧
    ∀ q, since ≤ q → q < p → ∀ now, readings[q]? = some now → now < time

theorem FirstReached.lt_length (h : FirstReached readings since time p) : p < readings.length := by
  obtain ⟨-, ⟨now, hnow, -⟩, -⟩ := h
  exact (List.getElem?_eq_some_iff.mp hnow).1

/-- There is one first pass. -/
theorem FirstReached.unique (hp : FirstReached readings since time p)
    (hq : FirstReached readings since time q) : p = q := by
  obtain ⟨hp₁, ⟨a, ha, hat⟩, hp₂⟩ := hp
  obtain ⟨hq₁, ⟨b, hb, hbt⟩, hq₂⟩ := hq
  rcases lt_trichotomy p q with hlt | heq | hgt
  · exact absurd hat (not_le.mpr (hq₂ p hp₁ hlt a ha))
  · exact heq
  · exact absurd hbt (not_le.mpr (hp₂ q hq₁ hgt b hb))

/-- As long as no pass was the first to reach a time, none has reached it. -/
theorem lt_of_not_firstReached (h : ∀ p, ¬ FirstReached readings since time p) (hq : since ≤ q)
    (hnow : readings[q]? = some now) : now < time := by
  induction q using Nat.strong_induction_on generalizing now with
  | h q ih =>
      by_contra hreached
      refine h q ⟨hq, ⟨now, hnow, not_lt.mp hreached⟩, ?_⟩
      intro r hr hrq before hbefore
      exact ih r hrq hr hbefore

/-- **One more reading.**  It is the first for the times that were not reached
before. -/
theorem firstReached_snoc (hsince : since ≤ readings.length) :
    FirstReached (readings ++ [now]) since time p ↔
      FirstReached readings since time p ∨
        p = readings.length ∧ time ≤ now ∧ ∀ q, ¬ FirstReached readings since time q := by
  constructor
  · rintro ⟨hp, ⟨at', hat, hle⟩, hfirst⟩
    have hbefore : ∀ q, since ≤ q → q < p → ∀ b, readings[q]? = some b → b < time := by
      intro q hq hqp b hb
      refine hfirst q hq hqp b ?_
      rw [List.getElem?_append_left (List.getElem?_eq_some_iff.mp hb).1, hb]
    rcases Nat.lt_or_ge p readings.length with hlt | hge
    · rw [List.getElem?_append_left hlt] at hat
      exact Or.inl ⟨hp, ⟨at', hat, hle⟩, hbefore⟩
    · -- the reading is the new one
      have hlast : p = readings.length := by
        have hbound := (List.getElem?_eq_some_iff.mp hat).1
        rw [List.length_append, List.length_singleton] at hbound
        exact Nat.le_antisymm (Nat.le_of_lt_succ hbound) hge
      subst hlast
      obtain rfl : now = at' := by
        rw [List.getElem?_concat_length] at hat
        exact Option.some.inj hat
      refine Or.inr ⟨rfl, hle, ?_⟩
      intro q hq
      obtain ⟨b, hb, hreached⟩ := hq.2.1
      exact absurd hreached (not_le.mpr (hbefore q hq.1 hq.lt_length b hb))
  · rintro (h | ⟨rfl, hle, hnone⟩)
    · obtain ⟨hp, ⟨at', hat, hle⟩, hfirst⟩ := id h
      refine ⟨hp, ⟨at', ?_, hle⟩, ?_⟩
      · rw [List.getElem?_append_left h.lt_length, hat]
      · intro q hq hqp b hb
        rw [List.getElem?_append_left (Nat.lt_trans hqp h.lt_length)] at hb
        exact hfirst q hq hqp b hb
    · refine ⟨hsince, ⟨now, List.getElem?_concat_length, hle⟩, ?_⟩
      intro q hq hqp b hb
      rw [List.getElem?_append_left hqp] at hb
      exact lt_of_not_firstReached hnone hq hb

end FirstReached

/-! ## Histories -/

/-- A call of `addTask`, and how many passes there had been. -/
structure Addition (T : Type u) (φ : Type v) where
  task : ITask T φ
  pass : ℕ

/-- A scheduler with what has happened to it.  Its tasks carry, with their
functions, the number of their addition. -/
structure History (T : Type u) (φ : Type v) where
  scheduler : SimpleScheduler T (ℕ × φ)
  /-- The additions, in order. -/
  added : List (Addition T φ)
  /-- What the clock read in each pass. -/
  readings : List T
  /-- The tasks that were run, in order: the pass, and the number of the task. -/
  ran : List (ℕ × ℕ)

/-- What can happen between two passes, and a pass.  A `stop` from within a task
is one after the pass: `running` is read between passes only. -/
inductive Event (T : Type u) (φ : Type v) where
  | addTask (name : String) (time : T) (func : φ)
  | pass (now : T)
  | stop

namespace History

/-- Before anything has happened. -/
def start : History T φ := ⟨SimpleScheduler.new, [], [], []⟩

def addTask (g : Growth) (h : History T φ) (name : String) (time : T) (func : φ) : History T φ :=
  { h with
    scheduler := h.scheduler.addTask g name time (h.added.length, func)
    added := h.added ++ [⟨⟨name, time, func⟩, h.readings.length⟩] }

def stop (h : History T φ) : History T φ := { h with scheduler := h.scheduler.stop }

/-- The numbers of the tasks that were run. -/
def done (h : History T φ) : List ℕ := h.ran.map Prod.snd

/-- How the task of an addition stands in the vector. -/
def entry (x : Addition T φ × ℕ) : ITask T (ℕ × φ) :=
  ⟨x.1.task.name, x.1.task.time, (x.2, x.1.task.function)⟩

/-- The tasks that were added and not run, in the order of their additions. -/
def waiting (h : History T φ) : List (ITask T (ℕ × φ)) :=
  (h.added.zipIdx.filter fun x ↦ x.2 ∉ h.done).map entry

/-- The order in which tasks are run: pass by pass, and in a pass by number. -/
def Before (x y : ℕ × ℕ) : Prop := x.1 < y.1 ∨ x.1 = y.1 ∧ x.2 < y.2

variable {h : History T φ} {i p : ℕ}

theorem mem_done : i ∈ h.done ↔ ∃ p, (p, i) ∈ h.ran := by
  simp [done]

/-- The tasks wait in the order of their numbers. -/
theorem numbers_pairwise : (h.waiting.map fun t ↦ t.function.1).Pairwise (· < ·) := by
  have hindices : (h.added.zipIdx.map Prod.snd).Pairwise (· < ·) := by
    rw [List.zipIdx_map_snd]
    exact List.pairwise_lt_range'
  have hsub : (h.waiting.map fun t ↦ t.function.1).Sublist (h.added.zipIdx.map Prod.snd) := by
    unfold waiting
    rw [List.map_map]
    exact List.filter_sublist.map _
  exact hindices.sublist hsub

variable [LinearOrder T]

def pass (now : T) (h : History T φ) : History T φ :=
  { h with
    scheduler := (h.scheduler.pass now).2
    readings := h.readings ++ [now]
    ran := h.ran ++ (h.scheduler.pass now).1.map fun t ↦ (h.readings.length, t.function.1) }

/-- Task `i` is due in pass `p`: the first one after it was added whose reading is
at or behind its time. -/
def RunsIn (h : History T φ) (i p : ℕ) : Prop :=
  ∃ a, h.added[i]? = some a ∧ FirstReached h.readings a.pass a.task.time p

end History

/-- What an event adds to a history.  There are no passes after `stop`. -/
def step [LinearOrder T] (g : Growth) (h : History T φ) : Event T φ → Option (History T φ)
  | .addTask name time func => some (h.addTask g name time func)
  | .pass now => if h.scheduler.running then some (h.pass now) else none
  | .stop => some h.stop

namespace History

variable [LinearOrder T] {h : History T φ} {i p : ℕ}

/-! ## The invariant -/

/-- What holds of every history. -/
structure Kept (h : History T φ) : Prop where
  /-- Tasks were added between passes that there have been. -/
  known : ∀ a ∈ h.added, a.pass ≤ h.readings.length
  /-- What was run was due, and what was due was run. -/
  runs : ∀ p i, (p, i) ∈ h.ran ↔ h.RunsIn i p
  /-- In order. -/
  ordered : h.ran.Pairwise Before
  /-- The vector holds what was not run. -/
  waits : h.scheduler.tasks.items = h.waiting

theorem kept_start : (start : History T φ).Kept where
  known a ha := absurd ha List.not_mem_nil
  runs p i := by
    refine iff_of_false List.not_mem_nil ?_
    rintro ⟨a, ha, -⟩
    exact absurd ha (by simp [start])
  ordered := List.Pairwise.nil
  waits := rfl

theorem RunsIn.lt_length (hr : h.RunsIn i p) : p < h.readings.length := by
  obtain ⟨a, -, hfirst⟩ := hr
  exact hfirst.lt_length

/-- A task was not run as long as its time was not reached. -/
theorem Kept.not_mem_done (hk : h.Kept) {a : Addition T φ} (ha : h.added[i]? = some a) :
    i ∉ h.done ↔ ∀ p, ¬ FirstReached h.readings a.pass a.task.time p := by
  rw [mem_done, not_exists]
  refine forall_congr' fun p ↦ not_congr ?_
  rw [hk.runs, RunsIn]
  constructor
  · rintro ⟨b, hb, hfirst⟩
    obtain rfl : a = b := Option.some.inj (ha.symm.trans hb)
    exact hfirst
  · intro hfirst
    exact ⟨a, ha, hfirst⟩

/-! ### An addition -/

/-- A new task has had no pass yet. -/
theorem runsIn_addTask (g : Growth) (name : String) (time : T) (func : φ) :
    (h.addTask g name time func).RunsIn i p ↔ h.RunsIn i p := by
  show (∃ a, (h.added ++ [_])[i]? = some a ∧ FirstReached h.readings a.pass a.task.time p) ↔ _
  constructor
  · rintro ⟨a, ha, hfirst⟩
    rcases Nat.lt_or_ge i h.added.length with hlt | hge
    · rw [List.getElem?_append_left hlt] at ha
      exact ⟨a, ha, hfirst⟩
    · rw [List.getElem?_append_right hge] at ha
      obtain rfl := List.mem_singleton.mp (List.mem_of_getElem? ha)
      exact absurd hfirst.lt_length (Nat.not_lt.mpr hfirst.1)
  · rintro ⟨a, ha, hfirst⟩
    refine ⟨a, ?_, hfirst⟩
    rw [List.getElem?_append_left (List.getElem?_eq_some_iff.mp ha).1, ha]

/-- It waits behind all others. -/
theorem waiting_addTask (hk : h.Kept) (g : Growth) (name : String) (time : T) (func : φ) :
    (h.addTask g name time func).waiting =
      h.waiting ++ [⟨name, time, (h.added.length, func)⟩] := by
  have hnew : h.added.length ∉ h.done := by
    intro hdone
    obtain ⟨p, hp⟩ := mem_done.mp hdone
    obtain ⟨a, ha, -⟩ := (hk.runs p _).mp hp
    exact absurd (List.getElem?_eq_some_iff.mp ha).1 (Nat.lt_irrefl _)
  show ((h.added ++ [_]).zipIdx.filter fun x : Addition T φ × ℕ ↦ x.2 ∉ h.done).map entry = _
  rw [List.zipIdx_append, List.filter_append, List.map_append, Nat.zero_add]
  simp [hnew, waiting, entry]

theorem Kept.addTask (hk : h.Kept) (g : Growth) (name : String) (time : T) (func : φ) :
    (h.addTask g name time func).Kept := by
  refine ⟨?_, ?_, hk.ordered, ?_⟩
  · intro a ha
    rcases List.mem_append.mp ha with hold | hnew
    · exact hk.known a hold
    · rw [List.mem_singleton.mp hnew]
      exact Nat.le_refl _
  · intro p i
    rw [runsIn_addTask]
    exact hk.runs p i
  · rw [waiting_addTask hk, ← hk.waits]
    exact GrowingVector.items_pushBack _

/-! ### A pass -/

/-- A pass runs the tasks which were not run and are due. -/
theorem number_mem_executed {now : T} :
    i ∈ (h.waiting.filter fun t ↦ t.time ≤ now).map (fun t ↦ t.function.1) ↔
      ∃ a, h.added[i]? = some a ∧ a.task.time ≤ now ∧ i ∉ h.done := by
  simp only [waiting, List.mem_map, List.mem_filter, decide_eq_true_eq]
  constructor
  · rintro ⟨t, ⟨⟨⟨a, j⟩, ⟨hmem, hnew⟩, rfl⟩, hdue⟩, rfl⟩
    exact ⟨a, List.mk_mem_zipIdx_iff_getElem?.mp hmem, hdue, hnew⟩
  · rintro ⟨a, ha, hdue, hnew⟩
    exact ⟨entry (a, i), ⟨⟨(a, i), ⟨List.mk_mem_zipIdx_iff_getElem?.mpr ha, hnew⟩, rfl⟩, hdue⟩, rfl⟩

/-- What it adds to the tasks that were run. -/
theorem ran_pass (hk : h.Kept) (now : T) :
    (h.pass now).ran = h.ran ++
      (h.waiting.filter fun t ↦ t.time ≤ now).map fun t ↦ (h.readings.length, t.function.1) := by
  show h.ran ++ (executeDue now h.scheduler.tasks 0).1.map _ = _
  rw [executeDue_fst, List.drop_zero, hk.waits]

theorem mem_ran_pass (hk : h.Kept) (now : T) :
    (p, i) ∈ (h.pass now).ran ↔ (p, i) ∈ h.ran ∨ p = h.readings.length ∧
      ∃ a, h.added[i]? = some a ∧ a.task.time ≤ now ∧ i ∉ h.done := by
  rw [ran_pass hk, List.mem_append, ← number_mem_executed]
  refine or_congr_right ?_
  simp only [List.mem_map, Prod.mk.injEq]
  constructor
  · rintro ⟨t, ht, rfl, rfl⟩
    exact ⟨rfl, t, ht, rfl⟩
  · rintro ⟨rfl, t, ht, rfl⟩
    exact ⟨t, ht, rfl, rfl⟩

/-- The tasks that are due in the new pass are those it runs. -/
theorem runsIn_pass (hk : h.Kept) (now : T) :
    (h.pass now).RunsIn i p ↔ h.RunsIn i p ∨ p = h.readings.length ∧
      ∃ a, h.added[i]? = some a ∧ a.task.time ≤ now ∧ i ∉ h.done := by
  show (∃ a, h.added[i]? = some a ∧ FirstReached (h.readings ++ [now]) _ _ _) ↔ _
  constructor
  · rintro ⟨a, ha, hfirst⟩
    have hknown := hk.known a (List.mem_of_getElem? ha)
    rcases (firstReached_snoc hknown).mp hfirst with hold | ⟨hp, hdue, hnone⟩
    · exact Or.inl ⟨a, ha, hold⟩
    · exact Or.inr ⟨hp, a, ha, hdue, (hk.not_mem_done ha).mpr hnone⟩
  · rintro (⟨a, ha, hfirst⟩ | ⟨hp, a, ha, hdue, hnew⟩)
    · have hknown := hk.known a (List.mem_of_getElem? ha)
      exact ⟨a, ha, (firstReached_snoc hknown).mpr (Or.inl hfirst)⟩
    · have hknown := hk.known a (List.mem_of_getElem? ha)
      have hnone := (hk.not_mem_done ha).mp hnew
      exact ⟨a, ha, (firstReached_snoc hknown).mpr (Or.inr ⟨hp, hdue, hnone⟩)⟩

/-- The others go on waiting. -/
theorem waiting_pass (hk : h.Kept) (now : T) :
    (h.pass now).waiting = h.waiting.filter fun t ↦ now < t.time := by
  have hdone : ∀ a i, h.added[i]? = some a →
      (i ∉ (h.pass now).done ↔ now < a.task.time ∧ i ∉ h.done) := by
    intro a i ha
    have hmem : i ∈ (h.pass now).done ↔ i ∈ h.done ∨ a.task.time ≤ now ∧ i ∉ h.done := by
      simp only [mem_done (h := h.pass now), mem_ran_pass hk, exists_or, ← mem_done]
      refine or_congr_right ⟨?_, ?_⟩
      · rintro ⟨-, -, b, hb, hdue, hnew⟩
        obtain rfl : a = b := Option.some.inj (ha.symm.trans hb)
        exact ⟨hdue, hnew⟩
      · rintro ⟨hdue, hnew⟩
        exact ⟨_, rfl, a, ha, hdue, hnew⟩
    rw [hmem, ← not_le]
    tauto
  unfold waiting
  rw [List.filter_map, List.filter_filter]
  refine congrArg (List.map entry) (List.filter_congr ?_)
  rintro ⟨a, i⟩ hmem
  have ha := List.mk_mem_zipIdx_iff_getElem?.mp hmem
  rw [Function.comp_apply, ← Bool.decide_and]
  exact decide_eq_decide.mpr (hdone a i ha)

/-- **A pass keeps the invariant.** -/
theorem Kept.pass (hk : h.Kept) (now : T) : (h.pass now).Kept := by
  refine ⟨?_, ?_, ?_, ?_⟩
  · intro a ha
    show a.pass ≤ (h.readings ++ [now]).length
    rw [List.length_append]
    exact Nat.le_add_right_of_le (hk.known a ha)
  · intro p i
    rw [mem_ran_pass hk, runsIn_pass hk, hk.runs]
  · rw [ran_pass hk, List.pairwise_append]
    refine ⟨hk.ordered, ?_, ?_⟩
    · -- within the pass the numbers increase
      have hnumbers := List.pairwise_map.mp h.numbers_pairwise
      refine List.pairwise_map.mpr ((hnumbers.filter _).imp ?_)
      intro x y hxy
      exact Or.inr ⟨rfl, hxy⟩
    · rintro ⟨p, i⟩ hx y hy
      obtain ⟨t, -, rfl⟩ := List.mem_map.mp hy
      exact Or.inl ((hk.runs p i).mp hx).lt_length
  · rw [waiting_pass hk, ← hk.waits]
    show (executeDue now h.scheduler.tasks 0).2.items = _
    rw [items_executeDue]
    rfl

/-! ## Every history -/

/-- **What one event adds keeps the invariant.** -/
theorem Kept.step (g : Growth) (e : Event T φ) {h h' : History T φ} (hk : h.Kept)
    (hs : step g h e = some h') : h'.Kept := by
  cases e with
  | addTask name time func =>
      obtain rfl := Option.some.inj hs
      exact hk.addTask g name time func
  | pass now =>
      obtain ⟨-, hs⟩ := Option.ite_none_right_eq_some.mp hs
      obtain rfl := Option.some.inj hs
      exact hk.pass now
  | stop =>
      obtain rfl := Option.some.inj hs
      exact ⟨hk.known, hk.runs, hk.ordered, hk.waits⟩

theorem kept_of_run {g : Growth} {es : List (Event T φ)} (hrun : run (step g) start es = some h) :
    h.Kept :=
  run_invariant (fun _ e _ hk hs ↦ Kept.step g e hk hs) kept_start hrun

/-- A task is run once, since there is only one first pass. -/
theorem Kept.nodup_done (hk : h.Kept) : h.done.Nodup := by
  refine List.pairwise_map.mpr (hk.ordered.imp_of_mem ?_)
  rintro ⟨p, i⟩ ⟨q, j⟩ hx hy hbefore heq
  obtain rfl : i = j := heq
  obtain ⟨a, ha, hp⟩ := (hk.runs p i).mp hx
  obtain ⟨b, hb, hq⟩ := (hk.runs q i).mp hy
  obtain rfl : a = b := Option.some.inj (ha.symm.trans hb)
  obtain rfl := hp.unique hq
  rcases hbefore with hlt | ⟨-, hlt⟩
  · exact Nat.lt_irrefl p hlt
  · exact Nat.lt_irrefl i hlt

end History

open History

variable [LinearOrder T]

/-- **Tasks run once, on time and in order.**  However tasks are added between the
passes and whatever the clock reads in them: no task is run twice; a task is run
in a pass exactly when that pass is the first after its addition whose reading is
at or behind its time; passes run their tasks in the order of addition; and the
tasks that were not run are still in the vector, in that order. -/
theorem runs_once_on_time (g : Growth) (es : List (Event T φ)) (h : History T φ)
    (hrun : run (step g) start es = some h) :
    (h.ran.map Prod.snd).Nodup ∧ (∀ p i, (p, i) ∈ h.ran ↔ h.RunsIn i p) ∧
      h.ran.Pairwise Before ∧ h.scheduler.tasks.items = h.waiting := by
  have hk := kept_of_run hrun
  exact ⟨hk.nodup_done, hk.runs, hk.ordered, hk.waits⟩

/-- The clock goes back between the first two passes.  The third is the first that
reaches the time of the first task. -/
theorem runs_once_on_time_back : ∃ h : History ℕ Unit,
    run (step .doubling) start [.addTask "a" 5 (), .addTask "b" 2 (), .pass 4,
      .addTask "c" 1 (), .pass 2, .pass 6, .stop] = some h ∧
    h.readings = [4, 2, 6] ∧ (2, 0) ∈ h.ran ∧ (h.ran.map Prod.snd).Nodup := by
  have hrun : run (step .doubling) (start : History ℕ Unit) [.addTask "a" 5 (), .addTask "b" 2 (),
      .pass 4, .addTask "c" 1 (), .pass 2, .pass 6, .stop] = some _ := rfl
  obtain ⟨honce, hruns, -⟩ := runs_once_on_time .doubling _ _ hrun
  refine ⟨_, hrun, rfl, (hruns 2 0).mpr ⟨⟨⟨"a", 5, ()⟩, 0⟩, rfl, ?_⟩, honce⟩
  refine ⟨Nat.zero_le 2, ⟨6, rfl, Nat.le_succ 5⟩, ?_⟩
  intro q _ hq now hnow
  match q, hq with
  | 0, _ =>
      obtain rfl : 4 = now := Option.some.inj hnow
      exact Nat.lt_succ_self 4
  | 1, _ =>
      obtain rfl : 2 = now := Option.some.inj hnow
      exact Nat.lt_of_sub_ne_zero (by decide)

end AsabruCommons.Scheduler
