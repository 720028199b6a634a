import AsabruCommons.ThreadPool.Basic

/-!
# Shutting the thread pool down

The destructor pushes the `Stop` meant for thread `i` and joins that thread
before it pushes the next one.  But the `Stop`s go through the queue that all
threads share, and nothing makes thread `i` the one that pops it.  If another
thread does, thread `i` finds the queue empty for good and the destructor waits
for it for ever.

`shutdown_deadlock` says when this cannot happen.  In a run in which every
`Stop` is popped by the very thread the destructor is joining, no state is
deadlocked.  Over all runs, none is deadlocked exactly when there is at most one
thread more than the clients pushed `Stop` tasks of their own: with `Execute`
tasks only, when there is a single thread.
-/

namespace AsabruCommons.ThreadPool

open Run

variable {Fn Param : Type} {n : Nat}

/-- The destructor waits for a thread, the queue is empty, and every thread that
has not returned is in `pop`. -/
def Pool.Deadlocked (s : Pool Fn Param n) : Prop :=
  ∃ i, s.destructor = .joining i ∧ s.workers i ≠ .returned ∧ s.queue = [] ∧
    ∀ w, s.workers w ≠ .returned → s.workers w = .popping

/-! ## Threads, counted -/

theorem returnedWorkers_setWorker_of_ne {s : Pool Fn Param n} {w : Fin n} {p : Worker Fn Param}
    (hw : s.workers w ≠ .returned) (hp : p ≠ .returned) :
    (s.setWorker w p).returnedWorkers = s.returnedWorkers := by
  ext v
  rw [mem_returnedWorkers, mem_returnedWorkers]
  by_cases hv : v = w
  · subst hv
    simp [Pool.setWorker, hw, hp]
  · simp [Pool.setWorker, hv]

theorem card_returnedWorkers_setWorker {s : Pool Fn Param n} {w : Fin n}
    (hw : s.workers w ≠ .returned) :
    (s.setWorker w .returned).returnedWorkers.card = s.returnedWorkers.card + 1 := by
  have h : (s.setWorker w .returned).returnedWorkers = insert w s.returnedWorkers := by
    ext v
    rw [mem_returnedWorkers, Finset.mem_insert, mem_returnedWorkers]
    by_cases hv : v = w
    · subst hv
      simp [Pool.setWorker]
    · simp [Pool.setWorker, hv]
  rw [h, Finset.card_insert_of_notMem (mt mem_returnedWorkers.mp hw)]

/-- A thread stays returned. -/
theorem Step.returned {s t : Pool Fn Param n} {e : Event n} (h : Step s e t) {w : Fin n}
    (hw : s.workers w = .returned) : t.workers w = .returned := by
  cases h with
  | push | beginDestructor | pushStop | join | endDestructor => exact hw
  | @popExecute v _ _ hv | @popStop v _ _ hv | @taskReturns v _ hv =>
      have hne : w ≠ v := by
        rintro rfl
        rw [hw] at hv
        cases hv
      simpa [Pool.setWorker, hne] using hw

/-- Each returned thread has consumed one `Stop`, and no `Stop` is lost. -/
structure Accounted (tasks : List (Task Fn Param)) (s : Pool Fn Param n) : Prop where
  count : s.returnedWorkers.card + stopCount s.queue + stopCount s.toPush =
    stopCount tasks + s.destructor.pushed
  joined : ∀ w, s.destructor.joined w → s.workers w = .returned
  begun : s.destructor ≠ .notBegun → s.toPush = []
  bound : ∀ i, s.destructor = .loop i → i ≤ n

theorem stopCount_append (ts us : List (Task Fn Param)) :
    stopCount (ts ++ us) = stopCount ts + stopCount us := List.countP_append

theorem stopCount_singleton_of_stop {t : Task Fn Param} (h : t.type = .Stop) :
    stopCount [t] = 1 := by
  simp [stopCount, h]

theorem stopCount_cons (t : Task Fn Param) (ts : List (Task Fn Param)) :
    stopCount (t :: ts) = stopCount [t] + stopCount ts := stopCount_append [t] ts

theorem stopCount_cons_of_execute {t : Task Fn Param} (h : t.type = .Execute)
    (ts : List (Task Fn Param)) : stopCount (t :: ts) = stopCount ts := by
  simp [stopCount, h]

theorem accounted_construct (tasks : List (Task Fn Param)) :
    Accounted tasks (Pool.construct n tasks) where
  count := by
    have h : (Pool.construct n tasks).returnedWorkers = ∅ := by
      ext w
      simp [mem_returnedWorkers, Pool.construct]
    rw [h]
    simp [Pool.construct, stopCount, Destructor.pushed]
  joined := fun _ h ↦ h.elim
  begun := fun h ↦ absurd rfl h
  bound := nofun

theorem Accounted.step {tasks : List (Task Fn Param)} {s t : Pool Fn Param n} {e : Event n}
    (h : Accounted tasks s) (hs : Step s e t) : Accounted tasks t := by
  obtain ⟨hcount, hjoined, hbegun, hbound⟩ := h
  have hret : ∀ w, s.workers w = .returned → t.workers w = .returned := fun w ↦ hs.returned
  cases hs with
  | @push a ts hp =>
      refine ⟨?_, hjoined, fun hne ↦ ?_, hbound⟩
      · rw [hp, stopCount_cons] at hcount
        change s.returnedWorkers.card + stopCount (s.queue ++ [a]) + stopCount ts =
          stopCount tasks + s.destructor.pushed
        rw [stopCount_append]
        omega
      · rw [hbegun hne] at hp
        cases hp
  | @popExecute w elem queue hw hq he =>
      refine ⟨?_, fun v hv ↦ hret v (hjoined v hv), hbegun, hbound⟩
      have hset := returnedWorkers_setWorker_of_ne (s := s) (w := w) (p := .executing elem)
        (by rw [hw]; exact nofun) nofun
      rw [hq, stopCount_cons_of_execute he] at hcount
      change (s.setWorker w (.executing elem)).returnedWorkers.card + stopCount queue + _ = _
      rw [hset]
      exact hcount
  | @popStop w elem queue hw hq he =>
      refine ⟨?_, fun v hv ↦ hret v (hjoined v hv), hbegun, hbound⟩
      have hset := card_returnedWorkers_setWorker (s := s) (w := w) (by rw [hw]; exact nofun)
      rw [hq, stopCount_cons, stopCount_singleton_of_stop he] at hcount
      change (s.setWorker w .returned).returnedWorkers.card + stopCount queue +
        stopCount s.toPush = stopCount tasks + s.destructor.pushed
      rw [hset]
      omega
  | @taskReturns w elem hw =>
      refine ⟨?_, fun v hv ↦ hret v (hjoined v hv), hbegun, hbound⟩
      have hset := returnedWorkers_setWorker_of_ne (s := s) (w := w) (p := .popping)
        (by rw [hw]; exact nofun) nofun
      change (s.setWorker w .popping).returnedWorkers.card + _ + _ = _
      rw [hset]
      exact hcount
  | beginDestructor hd hp =>
      rw [hd] at hcount
      refine ⟨hcount, fun w hw ↦ absurd hw (Nat.not_lt_zero _), fun _ ↦ hp, ?_⟩
      rintro i hi
      cases hi
      exact Nat.zero_le n
  | @pushStop i hd =>
      rw [hd] at hcount hjoined hbegun
      refine ⟨?_, hjoined, fun _ ↦ hbegun nofun, nofun⟩
      change s.returnedWorkers.card + stopCount (s.queue ++ [stopTask]) + stopCount s.toPush =
        stopCount tasks + (i + 1)
      rw [stopCount_append, stopCount_singleton_of_stop (t := stopTask) rfl]
      change _ = stopCount tasks + i.val at hcount
      omega
  | @join i hd hw =>
      rw [hd] at hcount hjoined hbegun
      refine ⟨hcount, fun w hlt ↦ ?_, fun _ ↦ hbegun nofun, ?_⟩
      · rcases Nat.lt_succ_iff_lt_or_eq.mp hlt with hlt | heq
        · exact hjoined w hlt
        · rw [Fin.ext heq]
          exact hw
      · rintro j hj
        cases hj
        exact i.isLt
  | @endDestructor i hd hi =>
      obtain rfl : i = n := Nat.le_antisymm (hbound i hd) hi
      rw [hd] at hcount hjoined hbegun
      exact ⟨hcount, fun w _ ↦ hjoined w w.isLt, fun _ ↦ hbegun nofun, nofun⟩

theorem accounted_of_run {tasks : List (Task Fn Param)} {es : List (Event n)} {s : Pool Fn Param n}
    (h : run step (.construct n tasks) es = some s) : Accounted tasks s :=
  run_invariant (fun _ _ _ ha hs ↦ ha.step (step_iff.mp hs)) (accounted_construct tasks) h

/-- A deadlock needs a thread for each `Stop` the clients pushed, one for the
`Stop` that went astray, and the one that is waited for. -/
theorem Accounted.not_deadlocked {tasks : List (Task Fn Param)} {s : Pool Fn Param n}
    (h : Accounted tasks s) (hn : n ≤ stopCount tasks + 1) : ¬ s.Deadlocked := by
  rintro ⟨i, hd, hi, hq, -⟩
  have hcount := h.count
  rw [hq, h.begun (by rw [hd]; exact nofun), hd] at hcount
  have hlt : s.returnedWorkers.card < n := by
    have hne : s.returnedWorkers ≠ Finset.univ := fun heq ↦
      hi (mem_returnedWorkers.mp (heq ▸ Finset.mem_univ i))
    simpa using Finset.card_lt_card (Finset.ssubset_univ_iff.mpr hne)
  change s.returnedWorkers.card + 0 + 0 = stopCount tasks + (i.val + 1) at hcount
  omega

/-! ## Runs in which no `Stop` goes astray -/

/-- A thread that pops a `Stop` is the one the destructor is joining. -/
def TakenByJoined (s : Pool Fn Param n) : Event n → Prop
  | .pop w => ∀ elem queue, s.queue = elem :: queue → elem.type = .Stop →
      s.destructor = .joining w
  | _ => True

/-- The `Stop` for the thread that is joined is still in the queue. -/
def StopWaits (s : Pool Fn Param n) : Prop :=
  ∀ i, s.destructor = .joining i → s.workers i ≠ .returned → ∃ t ∈ s.queue, t.type = .Stop

theorem StopWaits.step {s t : Pool Fn Param n} {e : Event n} (h : StopWaits s)
    (htaken : TakenByJoined s e) (hs : Step s e t) : StopWaits t := by
  intro i hd hi
  cases hs with
  | push =>
      obtain ⟨u, hu, hstop⟩ := h i hd hi
      exact ⟨u, List.mem_append_left _ hu, hstop⟩
  | @popExecute w elem queue hw hq he =>
      have hi' : s.workers i ≠ .returned := fun hr ↦ hi (Step.returned (.popExecute hw hq he) hr)
      obtain ⟨u, hu, hstop⟩ := h i hd hi'
      rw [hq] at hu
      rcases List.mem_cons.mp hu with rfl | hu
      · rw [he] at hstop
        cases hstop
      · exact ⟨u, hu, hstop⟩
  | @popStop w elem queue hw hq he =>
      have hw' : s.destructor = .joining w := htaken elem queue hq he
      obtain rfl : i = w := Destructor.joining.inj (hd.symm.trans hw')
      exact absurd (by simp [Pool.setWorker]) hi
  | @taskReturns w elem hw =>
      exact h i hd fun hr ↦ hi (Step.returned (.taskReturns hw) hr)
  | beginDestructor => cases hd
  | pushStop => exact ⟨stopTask, List.mem_append_right _ (List.mem_singleton_self _), rfl⟩
  | join => cases hd
  | endDestructor => cases hd

theorem StopWaits.not_deadlocked {s : Pool Fn Param n} (h : StopWaits s) : ¬ s.Deadlocked := by
  rintro ⟨i, hd, hi, hq, -⟩
  obtain ⟨t, ht, -⟩ := h i hd hi
  rw [hq] at ht
  cases ht

/-! ## A schedule that deadlocks -/

/-- Threads 1 to `j` have returned and the others are in `pop`. -/
def returnedUpTo (n j : Nat) : Fin n → Worker Fn Param := fun w ↦
  if 1 ≤ w.val ∧ w.val ≤ j then .returned else .popping

theorem returnedUpTo_of_lt {j : Nat} {w : Fin n} (h : j < w.val) :
    (returnedUpTo n j : Fin n → Worker Fn Param) w = .popping := by
  rw [returnedUpTo, if_neg (by omega)]

theorem update_returnedUpTo {j : Nat} (h : j + 1 < n) :
    Function.update (returnedUpTo n j : Fin n → Worker Fn Param) ⟨j + 1, h⟩ .returned =
      returnedUpTo n (j + 1) := by
  funext w
  by_cases hw : w = ⟨j + 1, h⟩
  · subst hw
    simp [returnedUpTo]
  · have hne : w.val ≠ j + 1 := fun he ↦ hw (Fin.ext he)
    rw [Function.update_of_ne hw, returnedUpTo, returnedUpTo]
    exact if_congr (by omega) rfl rfl

/-- Thread `j + 1` works off everything the clients push, and its neighbour goes
on when it pops a `Stop`. -/
theorem reachable_workedOff {s₀ : Pool Fn Param n} (ts : List (Task Fn Param)) (j : Nat)
    (s : Pool Fn Param n) (hs : Reachable step s₀ s) (hj : j + stopCount ts + 1 < n)
    (hpush : s.toPush = ts) (hqueue : s.queue = []) (hworkers : s.workers = returnedUpTo n j)
    (hd : s.destructor = .notBegun) :
    ∃ t, Reachable step s₀ t ∧ t.toPush = [] ∧ t.queue = [] ∧
      t.workers = returnedUpTo n (j + stopCount ts) ∧ t.destructor = .notBegun := by
  induction ts generalizing j s with
  | nil => exact ⟨s, hs, hpush, hqueue, hworkers, hd⟩
  | cons a ts ih =>
      have hlt : j + 1 < n := by omega
      have hw : s.workers ⟨j + 1, hlt⟩ = .popping := by
        rw [hworkers]
        exact returnedUpTo_of_lt (Nat.lt_succ_self j)
      have h₁ := hs.tail (step_iff.mpr (.push hpush))
      have hq : s.queue ++ [a] = [a] := by rw [hqueue, List.nil_append]
      cases ha : a.type with
      | Execute =>
          rw [stopCount_cons_of_execute ha] at hj ⊢
          have h₂ := h₁.tail (step_iff.mpr (.popExecute (w := ⟨j + 1, hlt⟩) hw hq ha))
          have hexec : Function.update s.workers ⟨j + 1, hlt⟩ (.executing a) ⟨j + 1, hlt⟩ =
              .executing a := Function.update_self ..
          have h₃ := h₂.tail (step_iff.mpr (.taskReturns hexec))
          refine ih j _ h₃ hj rfl rfl ?_ hd
          simp only [Pool.setWorker, Function.update_idem]
          rw [← hworkers, ← hw, Function.update_eq_self]
      | Stop =>
          rw [stopCount_cons, stopCount_singleton_of_stop ha, ← Nat.add_assoc] at hj ⊢
          have h₂ := h₁.tail (step_iff.mpr (.popStop (w := ⟨j + 1, hlt⟩) hw hq ha))
          refine ih (j + 1) _ h₂ hj rfl rfl ?_ hd
          simp only [Pool.setWorker, hworkers]
          exact update_returnedUpTo hlt

/-- With two threads left the destructor's first `Stop` can be popped by the
wrong one. -/
theorem reachable_deadlocked (tasks : List (Task Fn Param)) (hn : stopCount tasks + 1 < n) :
    ∃ s, Reachable step (Pool.construct n tasks) s ∧ s.Deadlocked := by
  have h₀ : (fun _ ↦ .popping : Fin n → Worker Fn Param) = returnedUpTo n 0 := by
    funext w
    rw [returnedUpTo, if_neg (by omega)]
  obtain ⟨s, hs, hpush, hqueue, hworkers, hd⟩ := reachable_workedOff tasks 0
    (Pool.construct n tasks) (.refl _) (by omega) rfl rfl h₀ rfl
  rw [Nat.zero_add] at hworkers
  have hzero : 0 < n := by omega
  have hw : s.workers ⟨stopCount tasks + 1, hn⟩ = .popping := by
    rw [hworkers]
    exact returnedUpTo_of_lt (Nat.lt_succ_self _)
  have h₁ := hs.tail (step_iff.mpr (.beginDestructor hd hpush))
  have h₂ := h₁.tail (step_iff.mpr (.pushStop (i := ⟨0, hzero⟩) rfl))
  have hq : s.queue ++ [stopTask] = [stopTask] := by rw [hqueue, List.nil_append]
  have h₃ := h₂.tail (step_iff.mpr (.popStop hw hq rfl))
  have hworkers' : Function.update s.workers ⟨stopCount tasks + 1, hn⟩ .returned =
      returnedUpTo n (stopCount tasks + 1) := by
    rw [hworkers]
    exact update_returnedUpTo hn
  refine ⟨_, h₃, ⟨0, hzero⟩, rfl, ?_, rfl, fun w hw ↦ ?_⟩
  · simp only [Pool.setWorker, hworkers']
    rw [returnedUpTo, if_neg (by simp)]
    exact nofun
  · simp only [Pool.setWorker, hworkers'] at hw ⊢
    rw [returnedUpTo] at hw ⊢
    split at hw
    · exact absurd rfl hw
    · rename_i hno
      rw [if_neg hno]

/-- **When the destructor can deadlock.**  Never in a run in which each `Stop` is
popped by the thread that is being joined; and in no run at all exactly when
there is at most one thread more than `Stop` tasks pushed by clients. -/
theorem shutdown_deadlock (n : Nat) (tasks : List (Task Fn Param)) :
    (∀ es s, run step (Pool.construct n tasks) es = some s →
      Along step TakenByJoined (Pool.construct n tasks) es → ¬ s.Deadlocked) ∧
    ((∀ es s, run step (Pool.construct n tasks) es = some s → ¬ s.Deadlocked) ↔
      n ≤ stopCount tasks + 1) := by
  constructor
  · intro es s hrun htaken
    have hwaits : StopWaits s := run_invariant_along
      (fun _ _ _ h ht hs ↦ StopWaits.step h ht (step_iff.mp hs)) (by intro i hi; cases hi)
      htaken hrun
    exact hwaits.not_deadlocked
  · constructor
    · intro h
      by_contra hn
      obtain ⟨s, ⟨es, hes⟩, hdead⟩ := reachable_deadlocked tasks (Nat.lt_of_not_le hn)
      exact h es s hes hdead
    · intro hn es s hrun
      exact (accounted_of_run hrun).not_deadlocked hn

/-- One thread and one task: the destructor returns. -/
theorem shutdown_deadlock_single :
    ¬ ∃ s, run step (Pool.construct 1 [⟨.Execute, some (), []⟩] : Pool Unit Unit 1)
      [.push, .beginDestructor, .pushStop, .pop 0, .taskReturns 0] = some s ∧ s.Deadlocked := by
  rintro ⟨s, hrun, hdead⟩
  exact (shutdown_deadlock 1 [⟨.Execute, some (), []⟩]).2.mpr (by decide) _ s hrun hdead

/-- Two threads, nothing pushed: thread 1 pops the `Stop` meant for thread 0. -/
theorem shutdown_deadlock_two :
    ∃ s, run step (Pool.construct 2 [] : Pool Unit Unit 2)
      [.beginDestructor, .pushStop, .pop 1] = some s ∧ s.Deadlocked :=
  ⟨_, rfl, 0, rfl, by decide, rfl, by decide⟩

end AsabruCommons.ThreadPool
