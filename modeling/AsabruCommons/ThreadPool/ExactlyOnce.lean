import AsabruCommons.ThreadPool.Shutdown
import Mathlib.Algebra.Order.Group.Multiset
import Mathlib.Data.List.FinRange
import Mathlib.Tactic.Abel

/-!
# Every task is run exactly once

Whatever the schedule, a task that was pushed is in one place at any time: still
to be pushed, in the queue, in the hands of one thread, or done.  That is the
first half of the invariant `Once`, an equation between multisets, so two tasks
that happen to be equal are counted twice.

The second half is about the order in the queue.  All `Stop`s are pushed by the
destructor, after the last task, so a `Stop` at the front of the queue means
that no task is left behind it (`Once.drained`).  Hence a destructor that
returns, having seen all threads return, leaves no task unrun.  Whether it does
return is another matter (`shutdown_deadlock`).
-/

namespace AsabruCommons.ThreadPool

open Run

variable {Fn Param : Type} {n : Nat}

/-- The task a thread is running. -/
def Worker.hand : Worker Fn Param → Option (Task Fn Param)
  | .executing elem => some elem
  | _ => none

/-- The tasks the threads are running. -/
def Pool.inHands (s : Pool Fn Param n) : List (Task Fn Param) :=
  (List.finRange n).filterMap fun w ↦ (s.workers w).hand

/-- The tasks whose execution has begun. -/
def Pool.started (s : Pool Fn Param n) : List (Task Fn Param) := s.executed ++ s.inHands

/-- The `Execute` tasks of a list. -/
def executes (tasks : List (Task Fn Param)) : List (Task Fn Param) :=
  tasks.filter fun t ↦ t.type = .Execute

/-! ## The tasks in hand -/

/-- Collecting the values of a function that is changed at one point. -/
theorem filterMap_finRange_update {T : Type} (f : Fin n → Option T) (w : Fin n) (o : Option T) :
    ((List.finRange n).filterMap (Function.update f w o)).Perm
      (o.toList ++ ((List.finRange n).erase w).filterMap f) := by
  have hperm := (List.perm_cons_erase (List.mem_finRange w)).filterMap (Function.update f w o)
  have hrest : ((List.finRange n).erase w).filterMap (Function.update f w o) =
      ((List.finRange n).erase w).filterMap f := by
    refine List.filterMap_congr fun v hv ↦ ?_
    have hne : v ≠ w := by
      rintro rfl
      exact (List.nodup_finRange n).not_mem_erase hv
    exact Function.update_of_ne hne o f
  rw [List.filterMap_cons, Function.update_self, hrest] at hperm
  cases o with
  | none => exact hperm
  | some a => exact hperm

/-- The tasks in hand, before and after the thread `w` moves on. -/
theorem inHands_setWorker (s : Pool Fn Param n) (w : Fin n) (p : Worker Fn Param) :
    Multiset.ofList (s.setWorker w p).inHands + Multiset.ofList (s.workers w).hand.toList =
      Multiset.ofList s.inHands + Multiset.ofList p.hand.toList := by
  have hafter := filterMap_finRange_update (fun v ↦ (s.workers v).hand) w p.hand
  have hbefore := filterMap_finRange_update (fun v ↦ (s.workers v).hand) w (s.workers w).hand
  rw [Function.update_eq_self] at hbefore
  have hset : (s.setWorker w p).inHands =
      (List.finRange n).filterMap (Function.update (fun v ↦ (s.workers v).hand) w p.hand) := by
    refine List.filterMap_congr fun v _ ↦ ?_
    by_cases hv : v = w
    · subst hv
      simp [Pool.setWorker]
    · simp [Pool.setWorker, hv]
  rw [hset, Multiset.coe_eq_coe.mpr hafter, Pool.inHands, Multiset.coe_eq_coe.mpr hbefore,
    ← Multiset.coe_add, ← Multiset.coe_add]
  abel

/-! ## The invariant -/

/-- All places a task can be in. -/
def Pool.placed (s : Pool Fn Param n) : Multiset (Task Fn Param) :=
  .ofList s.executed + .ofList s.inHands + .ofList (executes s.queue) + .ofList s.toPush

structure Once (tasks : List (Task Fn Param)) (s : Pool Fn Param n) : Prop where
  placed : s.placed = .ofList tasks
  sorted : s.queue.Pairwise fun a b ↦ a.type = .Stop → b.type = .Stop
  quiet : s.destructor = .notBegun →
    (∀ t ∈ s.queue, t.type = .Execute) ∧ ∀ w, s.workers w ≠ .returned
  drained : ∀ w, s.workers w = .returned → executes s.queue = []
  stops : ∀ w, s.stops w = if s.workers w matches .returned then 1 else 0

theorem executes_append (ts us : List (Task Fn Param)) :
    executes (ts ++ us) = executes ts ++ executes us := List.filter_append ..

theorem executes_cons_of_execute {t : Task Fn Param} (h : t.type = .Execute)
    (ts : List (Task Fn Param)) : executes (t :: ts) = t :: executes ts :=
  List.filter_cons_of_pos (by simp [h])

theorem executes_cons_of_stop {t : Task Fn Param} (h : t.type = .Stop)
    (ts : List (Task Fn Param)) : executes (t :: ts) = executes ts :=
  List.filter_cons_of_neg (by simp [h])

theorem executes_eq_nil {ts : List (Task Fn Param)} (h : ∀ t ∈ ts, t.type = .Stop) :
    executes ts = [] := by
  rw [executes, List.filter_eq_nil_iff]
  intro t ht
  simp [h t ht]

theorem inHands_eq_nil {s : Pool Fn Param n} (h : ∀ w, (s.workers w).hand = none) :
    s.inHands = [] := by
  rw [Pool.inHands, List.filterMap_eq_nil_iff]
  exact fun w _ ↦ h w

theorem once_construct (tasks : List (Task Fn Param)) : Once tasks (Pool.construct n tasks) where
  placed := by
    rw [Pool.placed, inHands_eq_nil fun _ ↦ rfl]
    simp [Pool.construct, executes]
  sorted := List.Pairwise.nil
  quiet := fun _ ↦ ⟨fun _ h ↦ (List.not_mem_nil h).elim, fun _ ↦ nofun⟩
  drained := fun _ ↦ nofun
  stops := fun _ ↦ rfl

/-! ## What a step preserves -/

/-- **No step loses or duplicates a task.** -/
theorem Step.placed {s t : Pool Fn Param n} {e : Event n} (hs : Step s e t)
    (hpush : ∀ a ∈ s.toPush, a.type = .Execute) : t.placed = s.placed := by
  cases hs with
  | @push a ts hp =>
      have ha : a.type = .Execute := hpush a (by rw [hp]; exact List.mem_cons_self)
      rw [Pool.placed, Pool.placed, hp, executes_append, executes_cons_of_execute ha,
        ← Multiset.coe_add, ← Multiset.cons_coe a ts, ← Multiset.singleton_add]
      change _ + (_ + ({a} : Multiset (Task Fn Param))) + _ = _
      simp only [Pool.inHands]
      abel
  | @popExecute w elem queue hw hq he =>
      have hin := inHands_setWorker s w (.executing elem)
      rw [hw] at hin
      change Multiset.ofList _ + 0 = _ + ({elem} : Multiset (Task Fn Param)) at hin
      rw [add_zero] at hin
      change Multiset.ofList s.executed +
        Multiset.ofList (s.setWorker w (.executing elem)).inHands +
        Multiset.ofList (executes queue) + Multiset.ofList s.toPush = s.placed
      rw [Pool.placed, hq, executes_cons_of_execute he, ← Multiset.cons_coe,
        ← Multiset.singleton_add, hin]
      abel
  | @popStop w elem queue hw hq he =>
      have hin := inHands_setWorker s w .returned
      rw [hw] at hin
      change Multiset.ofList _ + 0 = _ + 0 at hin
      rw [add_zero, add_zero] at hin
      change Multiset.ofList s.executed + Multiset.ofList (s.setWorker w .returned).inHands +
        Multiset.ofList (executes queue) + Multiset.ofList s.toPush = s.placed
      rw [Pool.placed, hq, executes_cons_of_stop he, hin]
  | @taskReturns w elem hw =>
      have hin := inHands_setWorker s w .popping
      rw [hw] at hin
      change _ + ({elem} : Multiset (Task Fn Param)) = _ + 0 at hin
      rw [add_zero] at hin
      change Multiset.ofList (s.executed ++ [elem]) +
        Multiset.ofList (s.setWorker w .popping).inHands + Multiset.ofList (executes s.queue) +
        Multiset.ofList s.toPush = s.placed
      rw [Pool.placed, ← hin, ← Multiset.coe_add]
      change _ + ({elem} : Multiset (Task Fn Param)) + _ + _ + _ = _
      abel
  | @pushStop i hd =>
      have hnone : executes (s.queue ++ [stopTask]) = executes s.queue := by
        rw [executes_append, executes_cons_of_stop (t := stopTask) rfl]
        exact List.append_nil _
      rw [Pool.placed, Pool.placed, hnone]
      rfl
  | beginDestructor | join | endDestructor => rfl

/-- A client still pushes only before the destructor has begun. -/
theorem Accounted.notBegun {tasks ts : List (Task Fn Param)} {s : Pool Fn Param n}
    (h : Accounted tasks s) {a : Task Fn Param} (hp : s.toPush = a :: ts) :
    s.destructor = .notBegun := by
  by_contra hne
  rw [h.begun hne] at hp
  cases hp

/-- The count of a thread that has not returned stays as it is. -/
theorem Once.stops_setWorker {tasks : List (Task Fn Param)} {s : Pool Fn Param n}
    (h : Once tasks s) {w : Fin n} {p : Worker Fn Param} (hw : s.workers w ≠ .returned)
    (hp : p ≠ .returned) (v : Fin n) :
    s.stops v = if (s.setWorker w p).workers v matches .returned then 1 else 0 := by
  rw [h.stops v]
  by_cases hvw : v = w
  · subst hvw
    rw [workers_setWorker_self]
    simp
  · rw [workers_setWorker_of_ne s hvw]

section

variable {tasks : List (Task Fn Param)} {s t : Pool Fn Param n} {e : Event n}
  (h : Once tasks s) (hs : Step s e t)
include h hs

/-- A client finds no `Stop` in the queue, and the destructor pushes nothing else. -/
theorem Once.sorted_step (hacc : Accounted tasks s) :
    t.queue.Pairwise fun a b ↦ a.type = .Stop → b.type = .Stop := by
  cases hs with
  | @push a ts hp =>
      refine List.pairwise_append.mpr ⟨h.sorted, List.pairwise_singleton _ _, ?_⟩
      intro b hb c _ hstop
      rw [(h.quiet (hacc.notBegun hp)).1 b hb] at hstop
      cases hstop
  | popExecute hw hq | popStop hw hq =>
      have hsorted := h.sorted
      rw [hq] at hsorted
      exact hsorted.of_cons
  | pushStop hd =>
      refine List.pairwise_append.mpr ⟨h.sorted, List.pairwise_singleton _ _, ?_⟩
      intro b _ c hc _
      rw [List.mem_singleton.mp hc]
      rfl
  | taskReturns | beginDestructor | join | endDestructor => exact h.sorted

/-- Before the destructor begins, a client pushes an `Execute`, and no thread
finds a `Stop` to pop. -/
theorem Once.quiet_step (hpush : ∀ a ∈ s.toPush, a.type = .Execute)
    (hd : t.destructor = .notBegun) :
    (∀ a ∈ t.queue, a.type = .Execute) ∧ ∀ w, t.workers w ≠ .returned := by
  cases hs with
  | @push a ts hp =>
      obtain ⟨hexec, hno⟩ := h.quiet hd
      refine ⟨fun b hb ↦ ?_, hno⟩
      rcases List.mem_append.mp hb with hb | hb
      · exact hexec b hb
      · rw [List.mem_singleton.mp hb]
        exact hpush a (by rw [hp]; exact List.mem_cons_self)
  | @popExecute w elem queue hw hq he =>
      obtain ⟨hexec, hno⟩ := h.quiet hd
      refine ⟨fun b hb ↦ ?_, fun v hv ↦ ?_⟩
      · apply hexec b
        rw [hq]
        exact List.mem_cons_of_mem _ hb
      · exact hno v (returned_of_setWorker (p := .executing elem) (by simp) hv)
  | popStop hw hq he =>
      have hexec := (h.quiet hd).1 _ (by rw [hq]; exact List.mem_cons_self)
      rw [he] at hexec
      cases hexec
  | @taskReturns w elem hw =>
      obtain ⟨hexec, hno⟩ := h.quiet hd
      exact ⟨hexec, fun v hv ↦ hno v (returned_of_setWorker (p := .popping) (by simp) hv)⟩
  | beginDestructor | pushStop | join | endDestructor => cases hd

/-- Once a thread has returned there is nothing left to run: it popped a `Stop`,
and only `Stop`s come after one. -/
theorem Once.drained_step (hacc : Accounted tasks s) {w : Fin n}
    (hw : t.workers w = .returned) : executes t.queue = [] := by
  cases hs with
  | push hp => exact absurd hw ((h.quiet (hacc.notBegun hp)).2 w)
  | @popExecute v elem queue hv hq he =>
      have hnil := h.drained w (returned_of_setWorker (p := .executing elem) (by simp) hw)
      rw [hq, executes_cons_of_execute he] at hnil
      cases hnil
  | @popStop v elem queue hv hq he =>
      have hsorted := h.sorted
      rw [hq, List.pairwise_cons] at hsorted
      exact executes_eq_nil fun b hb ↦ hsorted.1 b hb he
  | taskReturns hv =>
      exact h.drained w (returned_of_setWorker (p := .popping) (by simp) hw)
  | pushStop hd =>
      rw [executes_append, h.drained w hw]
      rfl
  | beginDestructor | join | endDestructor => exact h.drained w hw

/-- A thread counts a `Stop` when it returns. -/
theorem Once.stops_step (w : Fin n) :
    t.stops w = if t.workers w matches .returned then 1 else 0 := by
  cases hs with
  | @popExecute v elem queue hv hq he =>
      refine h.stops_setWorker ?_ (by simp) w
      rw [hv]
      simp
  | @popStop v elem queue hv hq he =>
      have hw := h.stops w
      by_cases hwv : w = v
      · subst hwv
        rw [hv] at hw
        simpa [Pool.setWorker] using hw
      · simpa [Pool.setWorker, hwv] using hw
  | @taskReturns v elem hv =>
      refine h.stops_setWorker ?_ (by simp) w
      rw [hv]
      simp
  | push | beginDestructor | pushStop | join | endDestructor => exact h.stops w

end

section

variable {tasks : List (Task Fn Param)} (htasks : ∀ t ∈ tasks, t.type = .Execute)
include htasks

theorem Once.execute_of_mem_toPush {s : Pool Fn Param n} (h : Once tasks s) {t : Task Fn Param}
    (ht : t ∈ s.toPush) : t.type = .Execute := by
  apply htasks
  rw [← Multiset.mem_coe, ← h.placed]
  exact Multiset.mem_add.mpr (.inr ht)

theorem Once.step {s t : Pool Fn Param n} {e : Event n} (h : Once tasks s)
    (hacc : Accounted tasks s) (hs : Step s e t) : Once tasks t where
  placed := (hs.placed fun _ ↦ h.execute_of_mem_toPush htasks).trans h.placed
  sorted := h.sorted_step hs hacc
  quiet := h.quiet_step hs fun _ ↦ h.execute_of_mem_toPush htasks
  drained := fun _ ↦ h.drained_step hs hacc
  stops := h.stops_step hs

theorem once_of_run {es : List (Event n)} {s : Pool Fn Param n}
    (hrun : run step (.construct n tasks) es = some s) : Once tasks s :=
  (run_invariant (I := fun s ↦ Once tasks s ∧ Accounted tasks s)
    (fun _ _ _ h hs ↦ ⟨h.1.step htasks h.2 (step_iff.mp hs), h.2.step (step_iff.mp hs)⟩)
    ⟨once_construct tasks, accounted_construct tasks⟩ hrun).1

end

/-- A destructor that has returned leaves nothing anywhere. -/
theorem Once.executed_of_returned {tasks : List (Task Fn Param)} {s : Pool Fn Param n}
    (h : Once tasks s) (hacc : Accounted tasks s) (hn : 0 < n) (hd : s.destructor = .returned) :
    s.executed.Perm tasks ∧ ∀ w, s.stops w = 1 := by
  have hall : ∀ w, s.workers w = .returned := fun w ↦ hacc.joined w (by rw [hd]; trivial)
  constructor
  · have hplaced := h.placed
    rw [Pool.placed, inHands_eq_nil fun w ↦ by rw [hall w]; rfl, h.drained ⟨0, hn⟩ (hall _),
      hacc.begun (by rw [hd]; exact nofun)] at hplaced
    exact Multiset.coe_eq_coe.mp (by simpa using hplaced)
  · intro w
    rw [h.stops w, hall w]
    rfl

/-- **Exactly once.**  No task is begun more often than it was pushed, and when
the destructor has returned each task has been executed to its end as often as
it was pushed and each thread has consumed one `Stop`. -/
theorem executed_exactly_once (hn : 0 < n) (tasks : List (Task Fn Param))
    (htasks : ∀ t ∈ tasks, t.type = .Execute) (es : List (Event n)) (s : Pool Fn Param n)
    (hrun : run step (.construct n tasks) es = some s) :
    s.started.Subperm tasks ∧
      (s.destructor = .returned → s.executed.Perm tasks ∧ ∀ w, s.stops w = 1) := by
  have honce := once_of_run htasks hrun
  constructor
  · rw [← Multiset.coe_le, ← honce.placed, Pool.placed, Pool.started, ← Multiset.coe_add, add_assoc]
    exact Multiset.le_add_right _ _
  · exact honce.executed_of_returned (accounted_of_run hrun) hn

/-- Two threads run one task each, and the second task is finished first. -/
def crossedRun : List (Event 2) :=
  [.push, .push, .pop 0, .pop 1, .taskReturns 1, .beginDestructor, .pushStop, .taskReturns 0,
    .pop 0, .join, .pushStop, .pop 1, .join, .endDestructor]

theorem executed_exactly_once_crossed :
    let tasks : List (Task Nat Unit) := [⟨.Execute, some 1, []⟩, ⟨.Execute, some 2, []⟩]
    ∃ s, run step (Pool.construct 2 tasks) crossedRun = some s ∧
      s.executed = tasks.reverse ∧ s.executed.Perm tasks ∧ ∀ w, s.stops w = 1 := by
  intro tasks
  refine ⟨_, rfl, rfl, ?_⟩
  exact (executed_exactly_once (by decide) tasks (by decide) crossedRun _ rfl).2 rfl

end AsabruCommons.ThreadPool
