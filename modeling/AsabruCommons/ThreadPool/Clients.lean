import AsabruCommons.ThreadPool.Refinement
import Mathlib.Algebra.Order.BigOperators.Group.Finset

/-!
# The clients of the pool

A client makes its calls of `push` one after the other, so its tasks are in the queue in the
order in which it has them (`ofClient_step`), and the tasks of different clients may be mixed in
any way.  `refines` has both halves of what a run looks like: the mixture is one of the tasks
of the clients in their own order, and for it there is a run of the pool with the atomic queue.

What was proved of the atomic pool then holds for the clients.  `executed_over_queue` is that
every task of every client has been executed exactly once by the time the destructor returns,
whatever the lock, the condition variable and the spurious wake-ups do.
-/

namespace AsabruCommons.ThreadPool.OverQueue

open Run

variable {Fn Param κ : Type} {n : Nat} [DecidableEq κ] {s t : State Fn Param κ n}
  {e : Event Fn Param κ n}

/-! ## The tasks of one client -/

/-- What a client has put in, what it is putting in and what it has still to push. -/
def State.ofClient (s : State Fn Param κ n) (c : κ) : List (Task Fn Param) :=
  s.queue.effects.filterMap (pushedBy c) ++
    (Place.toPut (s.queue.places (.client c)) ++ s.todo c)

/-- A step that is not of this client. -/
theorem ofClient_congr {c : κ} (heffects : t.queue.effects = s.queue.effects)
    (hplace : Place.toPut (t.queue.places (.client c)) =
      Place.toPut (s.queue.places (.client c)))
    (htodo : t.todo c = s.todo c) : t.ofClient c = s.ofClient c := by
  rw [State.ofClient, State.ofClient, heffects, hplace, htodo]

/-- An operation that is not a `push` of this client. -/
theorem pushedBy_snoc_of_none {c : κ}
    {effects : List (Thread κ n × ThreadSafeQueue.Operation (Task Fn Param))}
    {op : Thread κ n × ThreadSafeQueue.Operation (Task Fn Param)} (h : pushedBy c op = none) :
    (effects ++ [op]).filterMap (pushedBy c) = effects.filterMap (pushedBy c) := by
  rw [List.filterMap_append, List.filterMap_cons_none h, List.filterMap_nil, List.append_nil]

omit [DecidableEq κ] in
theorem todo_leave (queue : ThreadSafeQueue.State (Thread κ n) (Task Fn Param))
    (u : Thread κ n) : (s.leave queue u).todo = s.todo := by
  cases u with
  | client c => rfl
  | worker w =>
      simp only [State.leave]
      split <;> rfl
  | destructor =>
      simp only [State.leave]
      split <;> rfl

/-- A step inside of the queue takes the client's task from its hand to the queue. -/
theorem ofClient_inside {e : ThreadSafeQueue.Event (Thread κ n) (Task Fn Param)}
    {queue : ThreadSafeQueue.State (Thread κ n) (Task Fn Param)} (he : Stays e)
    (hq : ThreadSafeQueue.Step s.queue e queue) (c : κ) :
    State.ofClient { s with queue } c = s.ofClient c := by
  have hunseen : Unseen e → State.ofClient { s with queue } c = s.ofClient c := by
    intro hno
    obtain ⟨hview, -, heffects⟩ := view_of_step hq hno
    apply ofClient_congr
    · exact heffects
    · exact congrArg (fun v ↦ v.2.2) (hview _)
    · rfl
  cases hq with
  | callPush val hu => exact he.elim
  | callPop hu => exact he.elim
  | unlockPush hu => exact he.elim
  | unlockPop hu => exact he.elim
  | lockPush hm hu => exact hunseen trivial
  | lockPop hm hu => exact hunseen trivial
  | notifyOne hu hv => exact hunseen trivial
  | notifyNobody hu hv => exact hunseen trivial
  | testFalse hu hq => exact hunseen trivial
  | testTrue hu hq => exact hunseen trivial
  | block hu => exact hunseen trivial
  | wake hu => exact hunseen trivial
  | @pushBack u val hu =>
      by_cases huc : u = .client c
      · subst huc
        have hval : pushedBy (n := n) c (.client c, .push val) = some val := if_pos rfl
        show (s.queue.effects ++ [_]).filterMap _ ++
          (Place.toPut ((s.queue.setPlace _ _).places _) ++ s.todo c) =
            s.queue.effects.filterMap _ ++ (Place.toPut (s.queue.places _) ++ s.todo c)
        rw [List.filterMap_append, List.filterMap_cons_some hval, List.filterMap_nil,
          ThreadSafeQueue.places_setPlace_self, hu, List.append_assoc]
        rfl
      · have hnone : pushedBy c (u, .push val) = none := by
          cases u with
          | client d => exact if_neg fun hdc ↦ huc (congrArg _ hdc)
          | worker w => rfl
          | destructor => rfl
        show (s.queue.effects ++ [_]).filterMap _ ++
          (Place.toPut ((s.queue.setPlace _ _).places _) ++ s.todo c) = _
        rw [pushedBy_snoc_of_none hnone, ThreadSafeQueue.places_setPlace_of_ne _ (Ne.symm huc)]
        rfl
  | @popFront u ret queue hu hqueue =>
      show (s.queue.effects ++ [_]).filterMap _ ++ (Place.toPut ((s.queue.setPlace _ _).places _) ++
        s.todo c) = _
      rw [pushedBy_snoc_of_none (by cases u <;> rfl),
        view_setPlace (q := s.queue) Place.toPut (by rw [hu]; rfl)]
      rfl

/-- No task of a client is lost or overtaken on its way into the queue. -/
theorem ofClient_step (hs : Step s e t) (c : κ) : t.ofClient c = s.ofClient c := by
  cases hs with
  | @push d task tasks queue hd hq =>
      cases hq with
      | callPush val hu =>
          by_cases hdc : c = d
          · subst hdc
            show _ ++ (Place.toPut ((s.queue.setPlace _ _).places _) ++
              Function.update s.todo c _ c) = _ ++ (Place.toPut (s.queue.places _) ++ _)
            rw [ThreadSafeQueue.places_setPlace_self, Function.update_self, hu, hd]
            rfl
          · apply ofClient_congr
            · rfl
            · exact congrArg _ (ThreadSafeQueue.places_setPlace_of_ne _
                (fun heq ↦ hdc (Thread.client.inj heq)) _)
            · exact Function.update_of_ne hdc ..
  | @pop w queue hw hq =>
      cases hq with
      | callPop hu =>
          apply ofClient_congr
          · rfl
          · exact view_setPlace (q := s.queue) Place.toPut (by rw [hu]; rfl) _
          · rfl
  | inside he hq => exact ofClient_inside he hq c
  | @leave u queue hq =>
      apply ofClient_congr
      · rw [queue_leave, (kept_of_unlock hq).2]
      · rw [queue_leave]
        cases hq with
        | unlockPush hu => exact view_setPlace (q := s.queue) Place.toPut (by rw [hu]; rfl) _
        | unlockPop hu => exact view_setPlace (q := s.queue) Place.toPut (by rw [hu]; rfl) _
      · rw [todo_leave]
  | @pushStop i queue hd hq =>
      cases hq with
      | callPush val hu =>
          apply ofClient_congr
          · rfl
          · refine congrArg _ (ThreadSafeQueue.places_setPlace_of_ne s.queue ?_ _)
            exact nofun
          · rfl
  | taskReturns | beginDestructor | join | endDestructor => rfl

/-! ## All clients -/

section

variable [Fintype κ]

theorem ofClient_of_run {todo : κ → List (Task Fn Param)} {es : List (Event Fn Param κ n)}
    (hrun : run step (.construct n todo) es = some t) (c : κ) : t.ofClient c = todo c :=
  run_invariant (I := fun s ↦ s.ofClient c = todo c)
    (fun _ _ _ h hs ↦ (ofClient_step (step_cases hs) c).trans h) rfl hrun

omit [DecidableEq κ] [Fintype κ] in
theorem ofList_filterMap_cons {α β : Type} (f : α → Option β) (a : α) (as : List α) :
    Multiset.ofList ((a :: as).filterMap f) =
      Multiset.ofList (f a).toList + Multiset.ofList (as.filterMap f) := by
  cases h : f a with
  | none => rw [List.filterMap_cons_none h, Option.toList_none, Multiset.coe_nil, zero_add]
  | some b => rw [List.filterMap_cons_some h, Option.toList_some, Multiset.coe_add,
      List.singleton_append]

/-- An operation that puts a task in is one of exactly one client. -/
theorem pushedByClient_eq_sum (op : Thread κ n × ThreadSafeQueue.Operation (Task Fn Param)) :
    Multiset.ofList (pushedByClient op).toList =
      ∑ c : κ, Multiset.ofList (pushedBy c op).toList := by
  obtain ⟨u, o⟩ := op
  have hnone : (∀ c : κ, pushedBy c (u, o) = none) →
      ∑ c : κ, Multiset.ofList (pushedBy c (u, o)).toList = 0 := by
    intro h
    refine Finset.sum_eq_zero fun c _ ↦ ?_
    rw [h c]
    rfl
  cases u with
  | client d =>
      cases o with
      | push val =>
          refine (Eq.trans (Finset.sum_eq_single d (fun c _ hc ↦ ?_) ?_) ?_).symm
          · rw [pushedBy, if_neg (Ne.symm hc)]
            rfl
          · exact fun h ↦ absurd (Finset.mem_univ d) h
          · rw [pushedBy, if_pos rfl]
            rfl
      | pop ret => exact (hnone fun c ↦ rfl).symm
  | worker w => exact (hnone fun c ↦ rfl).symm
  | destructor => exact (hnone fun c ↦ rfl).symm

/-- What was put in is what the one client put in and what the other did. -/
theorem pushed_eq_sum
    (effects : List (Thread κ n × ThreadSafeQueue.Operation (Task Fn Param))) :
    Multiset.ofList (effects.filterMap pushedByClient) =
      ∑ c : κ, Multiset.ofList (effects.filterMap (pushedBy c)) := by
  induction effects with
  | nil => exact (Finset.sum_eq_zero fun _ _ ↦ rfl).symm
  | cons op effects ih =>
      rw [ofList_filterMap_cons, ih, pushedByClient_eq_sum, ← Finset.sum_add_distrib]
      exact Finset.sum_congr rfl fun c _ ↦ (ofList_filterMap_cons _ op effects).symm

section

variable {todo : κ → List (Task Fn Param)} {es : List (Event Fn Param κ n)}
  (hrun : run step (.construct n todo) es = some t)
include hrun

/-- A client puts its tasks in in its order. -/
theorem pushedBy_isPrefix (c : κ) : t.queue.effects.filterMap (pushedBy c) <+: todo c := by
  rw [← ofClient_of_run hrun c]
  exact List.prefix_append _ _

theorem pushed_le : Multiset.ofList t.pushed ≤ ∑ c, Multiset.ofList (todo c) := by
  rw [State.pushed, pushed_eq_sum]
  refine Finset.sum_le_sum fun c _ ↦ ?_
  exact Multiset.coe_le.mpr (pushedBy_isPrefix hrun c).sublist.subperm

/-- The destructor begins when the clients have put all of them in. -/
theorem pushed_eq (hd : t.destructor ≠ .notBegun) :
    Multiset.ofList t.pushed = ∑ c, Multiset.ofList (todo c) := by
  rw [State.pushed, pushed_eq_sum]
  refine Finset.sum_congr rfl fun c _ ↦ congrArg _ ?_
  obtain ⟨htodo, hcall⟩ := (shaped_of_run hrun).begun hd c
  have hput : Place.toPut (t.queue.places (.client c)) = [] := by
    cases hplace : t.queue.places (.client c) with
    | outside => rfl
    | _ =>
        rw [hplace] at hcall
        cases hcall
  have hall := ofClient_of_run hrun c
  rwa [State.ofClient, htodo, hput, List.append_nil, List.append_nil] at hall

end

/-- **What a run looks like.**  The tasks of each client are put in in its order, and there is
a run of the pool with the atomic queue, for the tasks in the order in which they are put in,
that looks the same at the end. -/
theorem refines (todo : κ → List (Task Fn Param)) (es : List (Event Fn Param κ n))
    (t : State Fn Param κ n) (hrun : run step (.construct n todo) es = some t) :
    (∀ c, t.queue.effects.filterMap (pushedBy c) <+: todo c) ∧
      ∃ fs, run ThreadPool.step (Pool.construct n t.pushed) fs = some (t.pool []) := by
  exact ⟨pushedBy_isPrefix hrun, exists_atomic_run hrun⟩

/-- The one thread of the pool. -/
def only : Fin 1 := Fin.last 0

/-- Two clients and one thread, which is blocked, woken for no reason and blocked again before
the task of the second client is there. -/
def wokenRun : List (Event Nat Unit Bool 1) :=
  [.pop only, .inside (.lock (.worker only)), .inside (.test (.worker only)),
    .inside (.block (.worker only)), .inside (.wake (.worker only)), .push false, .push true,
    .inside (.lock (.worker only)), .inside (.test (.worker only)), .inside (.block (.worker only)),
    .inside (.lock (.client true)), .inside (.pushBack (.client true)),
    .inside (.notifyOne (.client true) (some (.worker only))), .inside (.unlock (.client true)),
    .inside (.lock (.client false)), .inside (.pushBack (.client false)),
    .inside (.notifyOne (.client false) none), .inside (.unlock (.client false)),
    .inside (.lock (.worker only)), .inside (.test (.worker only)),
    .inside (.popFront (.worker only))]

/-- The thread goes on, and the pool is destroyed. -/
def wokenRunEnd : List (Event Nat Unit Bool 1) :=
  [.inside (.unlock (.worker only)), .taskReturns only, .beginDestructor, .pushStop, .pop only,
    .inside (.lock (.worker only)), .inside (.test (.worker only)),
    .inside (.popFront (.worker only)), .inside (.unlock (.worker only)),
    .inside (.lock .destructor), .inside (.pushBack .destructor),
    .inside (.notifyOne .destructor none), .taskReturns only, .pop only,
    .inside (.unlock .destructor), .inside (.lock (.worker only)), .inside (.test (.worker only)),
    .inside (.popFront (.worker only)), .inside (.unlock (.worker only)), .join, .endDestructor]

/-- The task of the one client and that of the other. -/
def wokenTodo : Bool → List (Task Nat Unit) := fun c ↦ [⟨.Execute, some c.toNat, []⟩]

theorem refines_woken :
    ∃ t, run step (.construct 1 wokenTodo) wokenRun = some t ∧
      t.pushed = [⟨.Execute, some 1, []⟩, ⟨.Execute, some 0, []⟩] ∧
      ∃ fs, run ThreadPool.step (Pool.construct 1 t.pushed) fs = some (t.pool []) :=
  ⟨_, rfl, rfl, (refines wokenTodo wokenRun _ rfl).2⟩

/-- **Exactly once, over the queue.**  At any time nothing has been executed more often than it
was pushed, and nothing was pushed but the tasks of the clients.  When the destructor has
returned each task of each client has been executed as often as the client has it, and each
thread has been handed one `Stop`. -/
theorem executed_over_queue (hn : 0 < n) (todo : κ → List (Task Fn Param))
    (htodo : ∀ c, ∀ task ∈ todo c, task.type = .Execute) (es : List (Event Fn Param κ n))
    (t : State Fn Param κ n) (hrun : run step (.construct n todo) es = some t) :
    Multiset.ofList t.executed ≤ Multiset.ofList t.pushed ∧
      Multiset.ofList t.pushed ≤ ∑ c, Multiset.ofList (todo c) ∧
      (t.destructor = .returned →
        Multiset.ofList t.executed = ∑ c, Multiset.ofList (todo c) ∧
          ∀ w, t.queue.effects.countP (stops w) = 1) := by
  obtain ⟨fs, hfs⟩ := exists_atomic_run hrun
  have htasks : ∀ task ∈ t.pushed, task.type = .Execute := by
    intro task htask
    obtain ⟨c, -, hc⟩ := Multiset.mem_sum.mp (Multiset.mem_of_le (pushed_le hrun) htask)
    exact htodo c task hc
  have honce := once_of_run htasks hfs
  refine ⟨?_, pushed_le hrun, fun hd ↦ ?_⟩
  · rw [← honce.placed, Pool.placed, add_assoc, add_assoc]
    exact Multiset.le_add_right _ _
  · have hseen : (t.pool []).destructor = .returned := by
      rw [State.pool, State.destructorSeen, hd]
    obtain ⟨hperm, hstops⟩ := honce.executed_of_returned (accounted_of_run hfs) hn hseen
    refine ⟨?_, hstops⟩
    rw [← pushed_eq hrun (by rw [hd]; exact fun hno ↦ by cases hno)]
    exact Multiset.coe_eq_coe.mpr hperm

/-- One of the two tasks has been executed, and then both. -/
theorem executed_over_queue_woken :
    (∃ t, run step (.construct 1 wokenTodo) (wokenRun ++ wokenRunEnd.take 2) = some t ∧
      t.executed.length = 1 ∧ t.pushed.length = 2 ∧
      Multiset.ofList t.executed ≤ Multiset.ofList t.pushed) ∧
    ∃ t, run step (.construct 1 wokenTodo) (wokenRun ++ wokenRunEnd) = some t ∧
      t.destructor = .returned ∧
      Multiset.ofList t.executed = ∑ c, Multiset.ofList (wokenTodo c) := by
  have htodo : ∀ c, ∀ task ∈ wokenTodo c, task.type = .Execute := by
    intro c task htask
    rw [List.mem_singleton.mp htask]
  constructor
  · have hlengths : (run step (.construct 1 wokenTodo) (wokenRun ++ wokenRunEnd.take 2)).map
        (fun t ↦ (t.executed.length, t.pushed.length)) = some (1, 2) := rfl
    obtain ⟨t, hrun, heq⟩ := Option.map_eq_some_iff.mp hlengths
    obtain ⟨hexecuted, hpushed⟩ := Prod.mk.inj heq
    exact ⟨t, hrun, hexecuted, hpushed,
      (executed_over_queue Nat.one_pos wokenTodo htodo _ t hrun).1⟩
  · have hend : (run step (.construct 1 wokenTodo) (wokenRun ++ wokenRunEnd)).map
        (fun t ↦ t.destructor) = some .returned := rfl
    obtain ⟨t, hrun, hd⟩ := Option.map_eq_some_iff.mp hend
    obtain ⟨-, -, hreturned⟩ := executed_over_queue Nat.one_pos wokenTodo htodo _ t hrun
    exact ⟨t, hrun, hd, (hreturned hd).1⟩

end

end AsabruCommons.ThreadPool.OverQueue
