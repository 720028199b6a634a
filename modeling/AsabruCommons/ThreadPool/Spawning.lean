import AsabruCommons.ThreadPool.ExactlyOnce

/-!
# Tasks that push tasks

A task has the pool at hand when it runs, so it may push further tasks, also while the
destructor is at work.  Here clients push what they like before the destructor begins, and the
task that a thread runs pushes what it likes at any time (`Spawning.step`).

`push` tells nobody whether the task will be run.  The queue is first in, first out, and a
thread that has popped a `Stop` pops nothing more, so it depends on one thing only: when the
destructor returns, what was pushed ahead of its last `Stop` has been executed, and what was
pushed behind it is left in the queue (`executes_ahead_of_last_stop`).  The tasks that are lost
are those pushed by tasks that the last thread runs after the destructor has come to it.
-/

namespace AsabruCommons.ThreadPool

open Run

namespace Spawning

variable {Fn Param : Type} {n : Nat}

inductive Event (Fn Param : Type) (n : Nat) where
  /-- A client calls `push`. -/
  | push (task : Task Fn Param)
  /-- The task that the thread runs calls `push`. -/
  | spawn (w : Fin n) (task : Task Fn Param)
  | inside (e : ThreadPool.Event n)

/-- The tasks are not fixed in advance: `toPush` stays empty. -/
def step (s : Pool Fn Param n) : Event Fn Param n → Option (Pool Fn Param n)
  | .push task =>
      match s.destructor with
      | .notBegun => some { s with queue := ThreadSafeQueue.push s.queue task }
      | _ => none
  | .spawn w task =>
      match s.workers w with
      | .executing _ => some { s with queue := ThreadSafeQueue.push s.queue task }
      | _ => none
  | .inside e => ThreadPool.step s e

/-- What the event puts in the queue. -/
def Event.pushed? : Event Fn Param n → Option (Task Fn Param)
  | .push task | .spawn _ task => some task
  | .inside .pushStop => some stopTask
  | .inside _ => none

/-- Everything that is pushed in the run, in order. -/
def pushes (es : List (Event Fn Param n)) : List (Task Fn Param) := es.filterMap Event.pushed?

/-- Clients and tasks push no `Stop`. -/
def Event.Executes : Event Fn Param n → Prop
  | .push task | .spawn _ task => task.type = .Execute
  | .inside _ => True

instance : ∀ e : Event Fn Param n, Decidable e.Executes
  | .push task | .spawn _ task => inferInstanceAs (Decidable (task.type = .Execute))
  | .inside _ => .isTrue trivial

/-! ## What a step can do -/

/-- The steps: a task that is pushed goes to the end of the queue, and the others are those of
the pool. -/
theorem step_cases {s t : Pool Fn Param n} {e : Event Fn Param n} (he : e.Executes)
    (hs : step s e = some t) :
    (∃ task, e.pushed? = some task ∧ task.type = .Execute ∧
        t = { s with queue := s.queue ++ [task] }) ∨
      ∃ f, e = .inside f ∧ Step s f t := by
  cases e with
  | push task =>
      simp only [step] at hs
      split at hs
      · exact .inl ⟨task, rfl, he, (Option.some.inj hs).symm⟩
      · cases hs
  | spawn w task =>
      simp only [step] at hs
      split at hs
      · exact .inl ⟨task, rfl, he, (Option.some.inj hs).symm⟩
      · cases hs
  | inside f => exact .inr ⟨f, rfl, step_iff.mp hs⟩

/-! ## The invariant -/

/-- The queue is what was pushed and not popped.  The last thread to return has popped the last
of what was popped, and that was a `Stop`. -/
structure Fifo (pushed : List (Task Fn Param)) (s : Pool Fn Param n) : Prop where
  popped : ∃ popped, popped ++ s.queue = pushed ∧
    ((∀ w, s.workers w = .returned) → ∃ ahead stop, popped = ahead ++ [stop] ∧ stop.type = .Stop)

structure Open (pushed : List (Task Fn Param)) (s : Pool Fn Param n) : Prop
    extends Fifo pushed s where
  toPush : s.toPush = []
  accounted : Accounted [] s
  placed : s.placed = .ofList (executes pushed)

theorem open_construct (hn : 0 < n) : Open [] (Pool.construct n [] : Pool Fn Param n) where
  popped := ⟨[], rfl, fun hall ↦ by cases hall ⟨0, hn⟩⟩
  toPush := rfl
  accounted := accounted_construct []
  placed := (once_construct []).placed

section

variable {pushed : List (Task Fn Param)} {s t : Pool Fn Param n}

/-- A pushed task waits behind all others. -/
theorem Open.push (h : Open pushed s) {task : Task Fn Param} (htask : task.type = .Execute) :
    Open (pushed ++ [task]) { s with queue := s.queue ++ [task] } where
  popped := by
    obtain ⟨popped, hpushed, hlast⟩ := h.popped
    exact ⟨popped, by rw [← List.append_assoc, hpushed], hlast⟩
  toPush := h.toPush
  accounted := by
    refine ⟨?_, h.accounted.joined, h.accounted.begun, h.accounted.bound⟩
    have hcount := h.accounted.count
    change s.returnedWorkers.card + stopCount (s.queue ++ [task]) + _ = _
    rwa [stopCount_append, stopCount_cons_of_execute htask]
  placed := by
    have hplaced := h.placed
    rw [Pool.placed, h.toPush] at hplaced ⊢
    change _ + _ + Multiset.ofList (executes (s.queue ++ [task])) + _ = _
    rw [executes_append, executes_append, executes_cons_of_execute htask, ← Multiset.coe_add,
      ← Multiset.coe_add, ← hplaced]
    change _ + _ + (_ + Multiset.ofList [task]) + 0 = _ + _ + _ + 0 + Multiset.ofList [task]
    simp only [Pool.inHands]
    abel

/-- A thread that has just moved and not returned. -/
theorem not_all_returned {w : Fin n} {p : Worker Fn Param} (hp : p ≠ .returned)
    (hall : ∀ v, (s.setWorker w p).workers v = .returned) : False :=
  hp ((workers_setWorker_self s w p).symm.trans (hall w))

theorem Fifo.step (h : Fifo pushed s) (hto : s.toPush = []) {e : ThreadPool.Event n}
    (hs : Step s e t) : Fifo (pushed ++ (Event.inside e).pushed?.toList) t := by
  obtain ⟨popped, hpushed, hlast⟩ := h.popped
  constructor
  cases hs with
  | push hp =>
      rw [hto] at hp
      cases hp
  | @popExecute w elem queue hw hq he =>
      refine ⟨popped ++ [elem], ?_, fun hall ↦ ?_⟩
      · rw [List.append_assoc, List.singleton_append, ← hq, hpushed]
        exact (List.append_nil _).symm
      · exact (not_all_returned (p := .executing elem) (fun hno ↦ by cases hno) hall).elim
  | @popStop w elem queue hw hq he =>
      refine ⟨popped ++ [elem], ?_, fun _ ↦ ⟨popped, elem, rfl, he⟩⟩
      rw [List.append_assoc, List.singleton_append, ← hq, hpushed]
      exact (List.append_nil _).symm
  | @taskReturns w elem hw =>
      refine ⟨popped, hpushed.trans (List.append_nil _).symm, fun hall ↦ ?_⟩
      exact (not_all_returned (p := .popping) (fun hno ↦ by cases hno) hall).elim
  | pushStop hd => exact ⟨popped, by rw [← hpushed, List.append_assoc]; rfl, hlast⟩
  | beginDestructor | join | endDestructor =>
      exact ⟨popped, hpushed.trans (List.append_nil _).symm, hlast⟩

theorem executes_pushed? (e : ThreadPool.Event n) :
    executes ((Event.inside e : Event Fn Param n).pushed?.toList) = [] := by
  cases e <;> rfl

theorem Open.step (h : Open pushed s) {e : Event Fn Param n} (he : e.Executes)
    (hs : step s e = some t) : Open (pushed ++ e.pushed?.toList) t := by
  rcases step_cases he hs with ⟨task, hpushed, htask, rfl⟩ | ⟨f, rfl, hf⟩
  · rw [hpushed]
    exact h.push htask
  · have hnone : ∀ a ∈ s.toPush, a.type = .Execute := by
      rw [h.toPush]
      exact fun a ha ↦ absurd ha List.not_mem_nil
    refine ⟨h.toFifo.step h.toPush hf, ?_, h.accounted.step hf, ?_⟩
    · cases hf with
      | push hp =>
          rw [h.toPush] at hp
          cases hp
      | _ => exact h.toPush
    · rw [hf.placed hnone, h.placed, executes_append, executes_pushed?, List.append_nil]

theorem pushes_cons (e : Event Fn Param n) (es : List (Event Fn Param n)) :
    pushes (e :: es) = e.pushed?.toList ++ pushes es := by
  rw [pushes, List.filterMap_cons]
  cases e.pushed? with
  | none => rfl
  | some task => rfl

theorem open_of_run {es : List (Event Fn Param n)} (h : Open pushed s) (hes : ∀ e ∈ es, e.Executes)
    (hrun : run step s es = some t) : Open (pushed ++ pushes es) t := by
  induction es generalizing s pushed with
  | nil =>
      obtain rfl := Option.some.inj hrun
      rw [pushes, List.filterMap_nil, List.append_nil]
      exact h
  | cons e es ih =>
      obtain ⟨u, hu, hrun⟩ := run_cons_eq_some.mp hrun
      rw [List.forall_mem_cons] at hes
      rw [pushes_cons, ← List.append_assoc]
      exact ih (h.step hes.1 hu) hes.2 hrun

/-! ## What is executed -/

/-- Nothing is begun more often than it was pushed. -/
theorem Open.started_subperm (h : Open pushed s) : s.started.Subperm (executes pushed) := by
  rw [← Multiset.coe_le, ← h.placed, Pool.placed, Pool.started, ← Multiset.coe_add, add_assoc]
  exact Multiset.le_add_right _ _

/-- When all threads have returned and have been joined, no `Stop` is left. -/
theorem Open.execute_of_mem_queue (h : Open pushed s) (hd : s.destructor = .returned)
    (hall : ∀ w, s.workers w = .returned) {task : Task Fn Param} (htask : task ∈ s.queue) :
    task.type = .Execute := by
  have hcard : s.returnedWorkers.card = n := by
    have huniv : s.returnedWorkers = Finset.univ := by
      ext w
      exact iff_of_true (mem_returnedWorkers.mpr (hall w)) (Finset.mem_univ w)
    rw [huniv, Finset.card_univ, Fintype.card_fin]
  have hcount := h.accounted.count
  rw [hcard, hd, h.toPush] at hcount
  have hzero : stopCount s.queue = 0 := by
    change n + stopCount s.queue + 0 = 0 + n at hcount
    omega
  rw [stopCount, List.countP_eq_zero] at hzero
  cases htype : task.type with
  | Execute => rfl
  | Stop => exact absurd (decide_eq_true htype) (hzero task htask)

/-- When the destructor has returned, what was popped ended with a `Stop`. -/
theorem Open.split_of_returned (h : Open pushed s) (hd : s.destructor = .returned) :
    ∃ ahead stop, stop.type = .Stop ∧ pushed = ahead ++ stop :: s.queue ∧
      (∀ task ∈ s.queue, task.type = .Execute) ∧ s.executed.Perm (executes ahead) := by
  have hall : ∀ w, s.workers w = .returned :=
    fun w ↦ h.accounted.joined w (by rw [hd]; trivial)
  obtain ⟨popped, hpushed, hlast⟩ := h.popped
  obtain ⟨ahead, stop, rfl, hstop⟩ := hlast hall
  have hsplit : pushed = ahead ++ stop :: s.queue := by
    rw [← hpushed, List.append_assoc, List.singleton_append]
  refine ⟨ahead, stop, hstop, hsplit, fun task ↦ h.execute_of_mem_queue hd hall, ?_⟩
  have hplaced := h.placed
  rw [Pool.placed, inHands_eq_nil fun w ↦ by rw [hall w]; rfl, h.toPush, hsplit, executes_append,
    executes_cons_of_stop hstop, ← Multiset.coe_add, Multiset.coe_nil, add_zero, add_zero,
    add_left_inj] at hplaced
  exact Multiset.coe_eq_coe.mp hplaced

end

/-- The only `Stop`s are those of the destructor. -/
theorem eq_stopTask_of_mem {es : List (Event Fn Param n)} (hes : ∀ e ∈ es, e.Executes)
    {task : Task Fn Param} (htask : task ∈ pushes es) (hstop : task.type = .Stop) :
    task = stopTask := by
  obtain ⟨e, he, hpushed⟩ := List.mem_filterMap.mp htask
  have hexecutes := hes e he
  cases e with
  | push a | spawn w a =>
      obtain rfl : a = task := Option.some.inj hpushed
      exact absurd (hexecutes.symm.trans hstop) (fun hno ↦ by cases hno)
  | inside f =>
      cases f with
      | pushStop => exact (Option.some.inj hpushed).symm
      | _ => cases hpushed

/-- **What is run and what is lost.**  Whatever clients and running tasks push, no task is begun
more often than it was pushed; and when the destructor has returned, the tasks that were pushed
ahead of the last `Stop` have been executed, as often as they were pushed, and those that were
pushed behind it are in the queue and have not been begun. -/
theorem executes_ahead_of_last_stop (hn : 0 < n) (es : List (Event Fn Param n))
    (hes : ∀ e ∈ es, e.Executes) (s : Pool Fn Param n)
    (hrun : run step (Pool.construct n []) es = some s) :
    s.started.Subperm (executes (pushes es)) ∧
      (s.destructor = .returned →
        ∃ ahead behind, pushes es = ahead ++ stopTask :: behind ∧
          (∀ task ∈ behind, task.type = .Execute) ∧ s.executed.Perm (executes ahead) ∧
          s.queue = behind) := by
  have hopen : Open (pushes es) s := open_of_run (open_construct hn) hes hrun
  refine ⟨hopen.started_subperm, fun hd ↦ ?_⟩
  obtain ⟨ahead, stop, hstop, hsplit, hbehind, hexecuted⟩ := hopen.split_of_returned hd
  have hmem : stop ∈ pushes es := by
    rw [hsplit]
    exact List.mem_append_right _ List.mem_cons_self
  obtain rfl := eq_stopTask_of_mem hes hmem hstop
  exact ⟨ahead, s.queue, hsplit, hbehind, hexecuted, rfl⟩

/-- A task pushes one task before the destructor has come to its thread, and one after that. -/
def spawningRun : List (Event Nat Unit 1) :=
  let w := Fin.last 0
  [.push ⟨.Execute, some 1, []⟩, .inside (.pop w), .spawn w ⟨.Execute, some 2, []⟩,
    .inside .beginDestructor, .inside .pushStop, .spawn w ⟨.Execute, some 3, []⟩,
    .inside (.taskReturns w), .inside (.pop w), .inside (.taskReturns w), .inside (.pop w),
    .inside .join, .inside .endDestructor]

theorem executes_ahead_of_last_stop_spawning :
    ∃ s : Pool Nat Unit 1, run step (Pool.construct 1 []) spawningRun = some s ∧
      s.executed = [⟨.Execute, some 1, []⟩, ⟨.Execute, some 2, []⟩] ∧
      s.queue = [⟨.Execute, some 3, []⟩] ∧
      ∃ ahead behind, pushes spawningRun = ahead ++ stopTask :: behind ∧
        (∀ task ∈ behind, task.type = .Execute) ∧ s.executed.Perm (executes ahead) ∧
        s.queue = behind :=
  ⟨_, rfl, rfl, rfl,
    (executes_ahead_of_last_stop Nat.one_pos spawningRun (by decide) _ rfl).2 rfl⟩

end Spawning

end AsabruCommons.ThreadPool
