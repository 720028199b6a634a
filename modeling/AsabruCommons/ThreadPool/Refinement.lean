import AsabruCommons.ThreadPool.OverQueue

/-!
# The pool is the pool with the atomic queue

Every run of the pool over its queue has a run of the pool with the atomic queue that looks the
same at the end, for the tasks of the clients in the order in which they were put in
(`exists_atomic_run`).  That order is known at the end of the run only, so the run is followed
backwards (`Run.exists_run_of_backward`): a task that is put in is one that was still to be
pushed.
-/

namespace AsabruCommons.ThreadPool.OverQueue

open Run

variable {Fn Param κ : Type} {n : Nat}

/-! ## Who calls what -/

/-- The call that the destructor is in. -/
def DestructorAt.call : DestructorAt n → Option (Option (Task Fn Param))
  | .pushing _ => some (some stopTask)
  | _ => none

/-- Clients and destructor push, and workers pop; a worker that runs a task or has returned is
not in the queue; and the destructor begins after the clients. -/
structure Shaped (s : State Fn Param κ n) : Prop where
  client : ∀ c, Place.call (s.queue.places (.client c)) ≠ some none
  worker : ∀ w, Place.call (s.queue.places (.worker w)) = none ∨
    (s.workers w = .popping ∧ Place.call (s.queue.places (.worker w)) = some none)
  destructor : Place.call (s.queue.places .destructor) = s.destructor.call
  begun : s.destructor ≠ .notBegun → ∀ c, s.todo c = [] ∧
    Place.call (s.queue.places (.client c)) = none

theorem shaped_construct (todo : κ → List (Task Fn Param)) : Shaped (State.construct n todo) where
  client := fun _ ↦ nofun
  worker := fun _ ↦ .inl rfl
  destructor := rfl
  begun := fun h ↦ absurd rfl h

variable {s t : State Fn Param κ n} {e : Event Fn Param κ n}

/-- A worker that leaves `pop` does what its element says. -/
theorem leave_worker {w : Fin n} {elem : Task Fn Param}
    (hw : s.queue.places (.worker w) = .popUnlocking elem)
    (queue : ThreadSafeQueue.State (Thread κ n) (Task Fn Param)) :
    s.leave queue (.worker w) =
      { s with queue, workers := Function.update s.workers w (take elem) } := by
  simp only [State.leave, hw, Place.handed]

/-- The destructor that leaves `push` joins. -/
theorem leave_destructor {i : Fin n} (hd : s.destructor = .pushing i)
    (queue : ThreadSafeQueue.State (Thread κ n) (Task Fn Param)) :
    s.leave queue .destructor = { s with queue, destructor := .joining i } := by
  simp only [State.leave, hd]

/-- The destructor is in `push` when it says so, and in no other call. -/
theorem Shaped.pushing (h : Shaped s) {val : Option (Task Fn Param)}
    (hcall : Place.call (s.queue.places .destructor) = some val) :
    val = some stopTask ∧ ∃ i, s.destructor = .pushing i := by
  have hd := h.destructor
  rw [hcall] at hd
  cases hat : s.destructor with
  | pushing i =>
      rw [hat] at hd
      exact ⟨Option.some.inj hd, i, rfl⟩
  | notBegun | loop i | joining i | returned =>
      rw [hat] at hd
      cases hd

/-- A worker is in `pop` when it is popping, and in no other call. -/
theorem Shaped.popping (h : Shaped s) {w : Fin n} {val : Option (Task Fn Param)}
    (hcall : Place.call (s.queue.places (.worker w)) = some val) :
    val = none ∧ s.workers w = .popping := by
  rcases h.worker w with hno | ⟨hw, hpop⟩
  · rw [hno] at hcall
    cases hcall
  · exact ⟨Option.some.inj (hcall.symm.trans hpop), hw⟩

/-! ## Steps that cannot be seen -/

/-- Two states that look the same. -/
theorem pool_congr (hqueue : t.queue.queue = s.queue.queue) (hworker : ∀ w, t.worker w = s.worker w)
    (hdestructor : t.destructorSeen = s.destructorSeen) (hexecuted : t.executed = s.executed)
    (heffects : t.queue.effects = s.queue.effects) (toPush : List (Task Fn Param)) :
    t.pool toPush = s.pool toPush := by
  apply Pool.ext
  · rfl
  · exact hqueue
  · exact funext hworker
  · exact hdestructor
  · exact hexecuted
  · show (fun w ↦ t.queue.effects.countP (stops w)) = _
    rw [heffects]
    rfl

/-- A worker looks as its place and its state say. -/
theorem worker_congr {w : Fin n} (hworkers : t.workers w = s.workers w)
    (hplace : Place.handed (t.queue.places (.worker w)) =
      Place.handed (s.queue.places (.worker w))) : t.worker w = s.worker w := by
  rw [State.worker, State.worker, hworkers, hplace]

theorem destructorSeen_congr (hdestructor : t.destructor = s.destructor)
    (hplace : Place.done (t.queue.places .destructor) = Place.done (s.queue.places .destructor)) :
    t.destructorSeen = s.destructorSeen := by
  rw [State.destructorSeen, State.destructorSeen, hdestructor, hplace]

/-- The destructor has put its task in, or not yet. -/
theorem destructorSeen_of_pushing {i : Fin n} (hd : s.destructor = .pushing i)
    {p : ThreadSafeQueue.Place (Task Fn Param)} (hp : s.queue.places .destructor = p) :
    s.destructorSeen = if Place.done p then .joining i else .loop i := by
  rw [State.destructorSeen, hd, ← hp]

/-- A worker that is not `popping` is not in the queue. -/
theorem Shaped.outside (h : Shaped s) {w : Fin n} (hw : s.workers w ≠ .popping) :
    s.queue.places (.worker w) = .outside := by
  have hcall := (h.worker w).resolve_right fun hno ↦ hw hno.1
  cases hplace : s.queue.places (.worker w) with
  | outside => rfl
  | _ =>
      rw [hplace] at hcall
      cases hcall

/-- It looks as it is. -/
theorem Shaped.worker_eq (h : Shaped s) {w : Fin n} (hw : s.workers w ≠ .popping) :
    s.worker w = s.workers w := by
  rw [State.worker, h.outside hw]
  rfl

theorem stops_snoc (effects : List (Thread κ n × ThreadSafeQueue.Operation (Task Fn Param)))
    (op : Thread κ n × ThreadSafeQueue.Operation (Task Fn Param)) (w : Fin n) :
    (effects ++ [op]).countP (stops w) =
      effects.countP (stops w) + if stops w op then 1 else 0 := by
  rw [List.countP_append, List.countP_singleton]

/-! ## Following a run backwards -/

/-- `pushed` is all that the clients put in during the run.  What has not been put in yet is
still to be pushed, and the destructor begins when this is nothing. -/
def Looks (pushed : List (Task Fn Param)) (s : State Fn Param κ n) (p : Pool Fn Param n) : Prop :=
  ∃ toPush, p = s.pool toPush ∧ s.pushed ++ toPush = pushed ∧
    (s.destructor ≠ .notBegun → toPush = [])

/-- A step that cannot be seen. -/
theorem looks_unseen {pushed : List (Task Fn Param)} {p : Pool Fn Param n}
    (hpool : ∀ toPush, t.pool toPush = s.pool toPush) (hpushed : t.pushed = s.pushed)
    (hbegun : s.destructor ≠ .notBegun → t.destructor ≠ .notBegun) (ht : Looks pushed t p) :
    ∃ p' fs, Looks pushed s p' ∧ run ThreadPool.step p' fs = some p := by
  obtain ⟨toPush, rfl, hall, hnone⟩ := ht
  refine ⟨s.pool toPush, [], ⟨toPush, rfl, ?_, fun hno ↦ hnone (hbegun hno)⟩, ?_⟩
  · rw [← hpushed, hall]
  · rw [run_nil, hpool]

/-- A step that is one of the atomic pool. -/
theorem looks_seen {pushed : List (Task Fn Param)} {p : Pool Fn Param n} {e : ThreadPool.Event n}
    (hstep : ∀ toPush, (t.destructor ≠ .notBegun → toPush = []) →
      ThreadPool.Step (s.pool toPush) e (t.pool toPush))
    (hpushed : t.pushed = s.pushed)
    (hbegun : s.destructor ≠ .notBegun → t.destructor ≠ .notBegun) (ht : Looks pushed t p) :
    ∃ p' fs, Looks pushed s p' ∧ run ThreadPool.step p' fs = some p := by
  obtain ⟨toPush, rfl, hall, hnone⟩ := ht
  refine ⟨s.pool toPush, [e], ⟨toPush, rfl, ?_, fun hno ↦ hnone (hbegun hno)⟩, ?_⟩
  · rw [← hpushed, hall]
  · exact run_cons_eq_some.mpr ⟨_, step_iff.mpr (hstep toPush hnone), rfl⟩

/-! ## What calls keep -/

variable [DecidableEq κ]

theorem Shaped.step (h : Shaped s) (hs : Step s e t) : Shaped t := by
  cases hs with
  | @push c task tasks queue hc hq =>
      have hbegun : s.destructor = .notBegun := by
        by_contra hno
        rw [(h.begun hno c).1] at hc
        cases hc
      cases hq with
      | callPush val ht =>
          refine ⟨fun d ↦ ?_, fun w ↦ ?_, ?_, fun hno ↦ absurd hbegun hno⟩
          · rw [call_setPlace]
            split
            · exact nofun
            · exact h.client d
          · rw [call_setPlace, if_neg nofun]
            exact h.worker w
          · rw [call_setPlace, if_neg nofun]
            exact h.destructor
  | @pop w queue hw hq =>
      cases hq with
      | callPop ht =>
          refine ⟨fun d ↦ ?_, fun v ↦ ?_, ?_, fun hno d ↦ ?_⟩
          · rw [call_setPlace, if_neg nofun]
            exact h.client d
          · rw [call_setPlace]
            split
            · rename_i hv
              cases hv
              exact .inr ⟨hw, rfl⟩
            · exact h.worker v
          · rw [call_setPlace, if_neg nofun]
            exact h.destructor
          · rw [call_setPlace, if_neg nofun]
            exact h.begun hno d
  | inside he hq =>
      have hcall := call_of_step hq he
      refine ⟨fun d ↦ ?_, fun v ↦ ?_, ?_, fun hno d ↦ ?_⟩
      · rw [hcall]
        exact h.client d
      · rw [hcall]
        exact h.worker v
      · rw [hcall]
        exact h.destructor
      · rw [hcall]
        exact h.begun hno d
  | @leave u queue hq =>
      have hcall := call_of_unlock hq
      cases u with
      | client c =>
          refine ⟨fun d ↦ ?_, fun v ↦ ?_, ?_, fun hno d ↦ ?_⟩
          · show Place.call (queue.places (.client d)) ≠ _
            rw [hcall]
            split
            · exact nofun
            · exact h.client d
          · show Place.call (queue.places (.worker v)) = _ ∨ _ ∧ Place.call (queue.places _) = _
            rw [hcall, if_neg nofun]
            exact h.worker v
          · show Place.call (queue.places .destructor) = _
            rw [hcall, if_neg nofun]
            exact h.destructor
          · obtain ⟨htodo, hidle⟩ := h.begun hno d
            refine ⟨htodo, ?_⟩
            show Place.call (queue.places (.client d)) = _
            rw [hcall]
            split
            · rfl
            · exact hidle
      | worker w =>
          cases hq with
          | unlockPush hw => cases (h.popping (by rw [hw]; rfl)).1
          | @unlockPop _ elem hw =>
              rw [leave_worker hw]
              refine ⟨fun d ↦ ?_, fun v ↦ ?_, ?_, fun hno d ↦ ?_⟩
              · rw [hcall, if_neg nofun]
                exact h.client d
              · rw [hcall]
                by_cases hv : v = w
                · subst hv
                  rw [if_pos rfl]
                  exact .inl rfl
                · rw [if_neg fun heq ↦ hv (Thread.worker.inj heq)]
                  show _ ∨ Function.update s.workers w (take elem) v = _ ∧ _
                  rw [Function.update_of_ne hv]
                  exact h.worker v
              · rw [hcall, if_neg nofun]
                exact h.destructor
              · rw [hcall, if_neg nofun]
                exact h.begun hno d
      | destructor =>
          cases hq with
          | unlockPop hd => cases (h.pushing (by rw [hd]; rfl)).1
          | @unlockPush _ val hd =>
              obtain ⟨-, i, hi⟩ := h.pushing (by rw [hd]; rfl)
              rw [leave_destructor hi]
              refine ⟨fun d ↦ ?_, fun v ↦ ?_, ?_, fun _ d ↦ ?_⟩
              · rw [hcall, if_neg nofun]
                exact h.client d
              · rw [hcall, if_neg nofun]
                exact h.worker v
              · rw [hcall, if_pos rfl]
                rfl
              · rw [hcall, if_neg nofun]
                exact h.begun (by rw [hi]; exact nofun) d
  | @taskReturns w elem hw =>
      refine ⟨h.client, fun v ↦ ?_, h.destructor, h.begun⟩
      show _ ∨ (Function.update s.workers w .popping v = .popping ∧ _)
      by_cases hv : v = w
      · subst hv
        refine .inl ((h.worker v).resolve_right fun hno ↦ ?_)
        rw [hw] at hno
        cases hno.1
      · rw [Function.update_of_ne hv]
        exact h.worker v
  | beginDestructor hd hc =>
      refine ⟨h.client, h.worker, ?_, fun _ ↦ hc⟩
      rw [h.destructor, hd]
      rfl
  | @pushStop i queue hd hq =>
      have hbegun := h.begun (by rw [hd]; exact nofun)
      cases hq with
      | callPush val ht =>
          refine ⟨fun d ↦ ?_, fun w ↦ ?_, ?_, fun _ d ↦ ?_⟩
          · rw [call_setPlace, if_neg nofun]
            exact h.client d
          · rw [call_setPlace, if_neg nofun]
            exact h.worker w
          · rw [call_setPlace, if_pos rfl]
            rfl
          · rw [call_setPlace, if_neg nofun]
            exact hbegun d
  | join hd hw =>
      refine ⟨h.client, h.worker, ?_, fun _ ↦ h.begun (by rw [hd]; exact nofun)⟩
      rw [h.destructor, hd]
      rfl
  | endDestructor hd hi =>
      refine ⟨h.client, h.worker, ?_, fun _ ↦ h.begun (by rw [hd]; exact nofun)⟩
      rw [h.destructor, hd]
      rfl

/-! ## Steps that can be seen -/

/-- One thread moves to another place of its call, or out of it. -/
theorem worker_setPlace {u : Thread κ n} {p : ThreadSafeQueue.Place (Task Fn Param)}
    (hworkers : t.workers = s.workers)
    (hplaces : t.queue.places = (s.queue.setPlace u p).places)
    (hp : Place.handed p = Place.handed (s.queue.places u)) (w : Fin n) :
    t.worker w = s.worker w := by
  apply worker_congr
  · rw [hworkers]
  · rw [hplaces]
    exact view_setPlace Place.handed hp _

theorem destructorSeen_setPlace {u : Thread κ n} {p : ThreadSafeQueue.Place (Task Fn Param)}
    (hdestructor : t.destructor = s.destructor)
    (hplaces : t.queue.places = (s.queue.setPlace u p).places)
    (hp : u = .destructor → Place.done p = Place.done (s.queue.places u)) :
    t.destructorSeen = s.destructorSeen := by
  apply destructorSeen_congr hdestructor
  rw [hplaces]
  by_cases hu : u = .destructor
  · exact view_setPlace Place.done (hp hu) _
  · rw [ThreadSafeQueue.places_setPlace_of_ne _ (Ne.symm hu)]

/-- A client puts its value in. -/
theorem pool_push {c : κ} {val : Task Fn Param} (hc : s.queue.places (.client c) = .pushing val)
    (toPush : List (Task Fn Param)) :
    ThreadPool.Step (s.pool (val :: toPush)) .push
      (State.pool { s with queue := { s.queue.setPlace (.client c) (.notifying val) with
        queue := s.queue.queue ++ [val]
        effects := s.queue.effects ++ [(.client c, .push val)] } } toPush) := by
  have hpool : State.pool { s with queue := { s.queue.setPlace (.client c) (.notifying val) with
        queue := s.queue.queue ++ [val]
        effects := s.queue.effects ++ [(.client c, .push val)] } } toPush =
      { s.pool (val :: toPush) with toPush, queue := s.queue.queue ++ [val] } := by
    apply Pool.ext
    · rfl
    · rfl
    · exact funext (worker_setPlace rfl rfl (by rw [hc]; rfl))
    · exact destructorSeen_setPlace rfl rfl nofun
    · rfl
    · funext w
      exact stops_snoc _ _ w
  rw [hpool]
  exact .push rfl

/-- The destructor puts its task in. -/
theorem pool_pushStop {i : Fin n} (hd : s.queue.places .destructor = .pushing stopTask)
    (hi : s.destructor = .pushing i) (toPush : List (Task Fn Param)) :
    ThreadPool.Step (s.pool toPush) .pushStop
      (State.pool { s with queue := { s.queue.setPlace .destructor (.notifying stopTask) with
        queue := s.queue.queue ++ [stopTask]
        effects := s.queue.effects ++ [(.destructor, .push stopTask)] } } toPush) := by
  have hbefore : s.destructorSeen = .loop i := by
    rw [destructorSeen_of_pushing hi hd]
    rfl
  have hpool : State.pool { s with queue := { s.queue.setPlace .destructor (.notifying stopTask)
        with
        queue := s.queue.queue ++ [stopTask]
        effects := s.queue.effects ++ [(.destructor, .push stopTask)] } } toPush =
      { s.pool toPush with queue := s.queue.queue ++ [stopTask], destructor := .joining i } := by
    apply Pool.ext
    · rfl
    · rfl
    · exact funext (worker_setPlace rfl rfl (by rw [hd]; rfl))
    · show State.destructorSeen _ = _
      refine Eq.trans (destructorSeen_of_pushing (i := i) ?_
        (ThreadSafeQueue.places_setPlace_self s.queue .destructor (.notifying stopTask))) ?_
      · exact hi
      · rfl
    · rfl
    · funext w
      exact stops_snoc _ _ w
  rw [hpool]
  exact .pushStop hbefore

omit [DecidableEq κ] in
/-- The count of a worker goes up when it is handed a `Stop`. -/
theorem stops_pop (ret : Task Fn Param) (v w : Fin n) :
    (if stops (κ := κ) v (.worker w, .pop ret) then 1 else 0) =
      if v = w ∧ ret.type = .Stop then 1 else 0 := by
  simp only [stops, decide_eq_true_eq, eq_comm (a := w)]

/-- A worker takes an element out. -/
theorem pool_popFront {w : Fin n} {ret : Task Fn Param} {queue : List (Task Fn Param)}
    (hw : s.queue.places (.worker w) = .taking) (hworkers : s.workers w = .popping)
    (hq : s.queue.queue = ret :: queue) (toPush : List (Task Fn Param)) :
    ThreadPool.Step (s.pool toPush) (.pop w)
      (State.pool { s with queue := { s.queue.setPlace (.worker w) (.popUnlocking ret) with
        queue := queue
        effects := s.queue.effects ++ [(.worker w, .pop ret)] } } toPush) := by
  have hbefore : s.worker w = .popping := by
    rw [State.worker, hw]
    exact hworkers
  have hpool : State.pool { s with queue := { s.queue.setPlace (.worker w) (.popUnlocking ret) with
        queue := queue
        effects := s.queue.effects ++ [(.worker w, .pop ret)] } } toPush =
      { (s.pool toPush).setWorker w (take ret) with
        queue := queue
        stops := fun v ↦ (s.pool toPush).stops v + if v = w ∧ ret.type = .Stop then 1 else 0 } := by
    apply Pool.ext
    · rfl
    · rfl
    · funext v
      by_cases hv : v = w
      · subst hv
        show State.worker _ v = Function.update s.worker v (take ret) v
        rw [Function.update_self, State.worker]
        simp only [ThreadSafeQueue.places_setPlace_self, Place.handed]
      · show State.worker _ v = Function.update s.worker w (take ret) v
        rw [Function.update_of_ne hv, State.worker, State.worker]
        simp only
        rw [ThreadSafeQueue.places_setPlace_of_ne _ fun heq ↦ hv (Thread.worker.inj heq)]
    · exact destructorSeen_setPlace rfl rfl nofun
    · rfl
    · funext v
      exact (stops_snoc _ _ v).trans (by rw [stops_pop]; rfl)
  rw [hpool]
  cases htype : ret.type with
  | Execute =>
      have htake : take ret = .executing ret := by rw [take, htype]
      simp only [reduceCtorEq, and_false, if_false, Nat.add_zero, htake]
      exact .popExecute hbefore hq htype
  | Stop =>
      have htake : take ret = .returned := by rw [take, htype]
      have hstops : (fun v ↦ (s.pool toPush).stops v + if v = w ∧ TaskType.Stop = .Stop then 1
          else 0) = Function.update (s.pool toPush).stops w ((s.pool toPush).stops w + 1) := by
        funext v
        by_cases hv : v = w
        · subst hv
          rw [Function.update_self, if_pos ⟨rfl, rfl⟩]
        · rw [Function.update_of_ne hv, if_neg fun h ↦ hv h.1, Nat.add_zero]
      rw [htake, hstops]
      exact .popStop hbefore hq htype

omit [DecidableEq κ] in
/-- A task returns. -/
theorem pool_taskReturns (h : Shaped s) {w : Fin n} {elem : Task Fn Param}
    (hw : s.workers w = .executing elem) (toPush : List (Task Fn Param)) :
    ThreadPool.Step (s.pool toPush) (.taskReturns w)
      (State.pool { s with
        workers := Function.update s.workers w .popping
        executed := s.executed ++ [elem] } toPush) := by
  have hseen : s.worker w = .executing elem := by
    rw [h.worker_eq (by rw [hw]; exact nofun), hw]
  have hpool : State.pool { s with
        workers := Function.update s.workers w .popping
        executed := s.executed ++ [elem] } toPush =
      { (s.pool toPush).setWorker w .popping with executed := s.executed ++ [elem] } := by
    apply Pool.ext
    · rfl
    · rfl
    · funext v
      by_cases hv : v = w
      · subst hv
        show State.worker _ v = Function.update s.worker v .popping v
        rw [Function.update_self]
        simp only [State.worker, h.outside (w := v) (by rw [hw]; exact nofun), Place.handed,
          Function.update_self]
      · show State.worker _ v = Function.update s.worker w .popping v
        rw [Function.update_of_ne hv]
        exact worker_congr (Function.update_of_ne hv ..) rfl
    · rfl
    · rfl
    · rfl
  rw [hpool]
  exact .taskReturns hseen

omit [DecidableEq κ] in
theorem queue_leave (queue : ThreadSafeQueue.State (Thread κ n) (Task Fn Param))
    (u : Thread κ n) : (s.leave queue u).queue = queue := by
  cases u with
  | client c => rfl
  | worker w =>
      simp only [State.leave]
      split <;> rfl
  | destructor =>
      simp only [State.leave]
      split <;> rfl

omit [DecidableEq κ] in
theorem begun_leave (queue : ThreadSafeQueue.State (Thread κ n) (Task Fn Param))
    (u : Thread κ n) (h : s.destructor ≠ .notBegun) :
    (s.leave queue u).destructor ≠ .notBegun := by
  cases u with
  | client c => exact h
  | worker w =>
      simp only [State.leave]
      split <;> exact h
  | destructor =>
      simp only [State.leave]
      split
      · exact nofun
      · exact h

/-- Nothing is put in or taken out on the way out. -/
theorem kept_of_unlock {u : Thread κ n}
    {queue : ThreadSafeQueue.State (Thread κ n) (Task Fn Param)}
    (hq : ThreadSafeQueue.Step s.queue (.unlock u) queue) :
    queue.queue = s.queue.queue ∧ queue.effects = s.queue.effects := by
  cases hq with
  | unlockPush hu => exact ⟨rfl, rfl⟩
  | unlockPop hu => exact ⟨rfl, rfl⟩

/-- A thread leaves the queue, and what it did there has been seen before. -/
theorem pool_leave (h : Shaped s) {u : Thread κ n}
    {queue : ThreadSafeQueue.State (Thread κ n) (Task Fn Param)}
    (hq : ThreadSafeQueue.Step s.queue (.unlock u) queue) (toPush : List (Task Fn Param)) :
    (s.leave queue u).pool toPush = s.pool toPush := by
  have hothers : ∀ v, v ≠ u → queue.places v = s.queue.places v := by
    intro v hv
    cases hq with
    | unlockPush | unlockPop => exact ThreadSafeQueue.places_setPlace_of_ne _ hv _
  have hkept := kept_of_unlock hq
  cases u with
  | client c =>
      apply pool_congr
      · exact hkept.1
      · exact fun w ↦ worker_congr rfl (congrArg _ (hothers _ nofun))
      · exact destructorSeen_congr rfl (congrArg _ (hothers _ nofun))
      · rfl
      · exact hkept.2
  | worker w =>
      cases hq with
      | unlockPush hw => cases (h.popping (by rw [hw]; rfl)).1
      | @unlockPop _ elem hw =>
          rw [leave_worker hw]
          apply pool_congr
          · exact hkept.1
          · intro v
            by_cases hv : v = w
            · subst hv
              simp only [State.worker, ThreadSafeQueue.places_setPlace_self, hw, Place.handed,
                Function.update_self]
            · apply worker_congr
              · exact Function.update_of_ne hv ..
              · exact congrArg _ (hothers _ fun heq ↦ hv (Thread.worker.inj heq))
          · exact destructorSeen_congr rfl (congrArg _ (hothers _ nofun))
          · rfl
          · exact hkept.2
  | destructor =>
      cases hq with
      | unlockPop hd => cases (h.pushing (by rw [hd]; rfl)).1
      | @unlockPush _ val hd =>
          obtain ⟨-, i, hi⟩ := h.pushing (by rw [hd]; rfl)
          rw [leave_destructor hi]
          apply pool_congr
          · exact hkept.1
          · exact fun v ↦ worker_congr rfl (congrArg _ (hothers _ nofun))
          · rw [destructorSeen_of_pushing hi hd]
            rfl
          · rfl
          · exact hkept.2

/-! ## The refinement -/

/-- A step that only changes places, and these so that they look the same. -/
theorem pool_inside {e : ThreadSafeQueue.Event (Thread κ n) (Task Fn Param)}
    {queue : ThreadSafeQueue.State (Thread κ n) (Task Fn Param)}
    (hq : ThreadSafeQueue.Step s.queue e queue) (he : Unseen e) (toPush : List (Task Fn Param)) :
    State.pool { s with queue } toPush = s.pool toPush := by
  obtain ⟨hview, hqueue, heffects⟩ := view_of_step hq he
  apply pool_congr
  · exact hqueue
  · exact fun w ↦ worker_congr rfl (congrArg (fun v ↦ v.1) (hview _))
  · exact destructorSeen_congr rfl (congrArg (fun v ↦ v.2.1) (hview _))
  · rfl
  · exact heffects

/-- A thread begins a call, and maybe the destructor does. -/
theorem pool_call {u : Thread κ n} {p : ThreadSafeQueue.Place (Task Fn Param)}
    (hu : s.queue.places u = .outside) (hp : Place.handed p = none)
    (hqueue : t.queue = s.queue.setPlace u p) (hworkers : t.workers = s.workers)
    (hdestructor : t.destructorSeen = s.destructorSeen) (hexecuted : t.executed = s.executed)
    (toPush : List (Task Fn Param)) : t.pool toPush = s.pool toPush := by
  apply pool_congr
  · rw [hqueue]
    rfl
  · exact worker_setPlace hworkers (by rw [hqueue]) (by rw [hu, hp]; rfl)
  · exact hdestructor
  · exact hexecuted
  · rw [hqueue]
    rfl

omit [DecidableEq κ] in
/-- What the clients have put in, after one more operation. -/
theorem pushed_snoc (effects : List (Thread κ n × ThreadSafeQueue.Operation (Task Fn Param)))
    (op : Thread κ n × ThreadSafeQueue.Operation (Task Fn Param)) :
    (effects ++ [op]).filterMap pushedByClient =
      effects.filterMap pushedByClient ++ (pushedByClient op).toList := by
  rw [List.filterMap_append]
  cases h : pushedByClient op with
  | none => rw [List.filterMap_cons_none h, List.filterMap_nil, Option.toList_none]
  | some val => rw [List.filterMap_cons_some h, List.filterMap_nil, Option.toList_some]

/-- A step inside of the queue. -/
theorem looks_of_inside (h : Shaped s)
    {e : ThreadSafeQueue.Event (Thread κ n) (Task Fn Param)}
    {queue : ThreadSafeQueue.State (Thread κ n) (Task Fn Param)} (he : Stays e)
    (hq : ThreadSafeQueue.Step s.queue e queue) {pushed : List (Task Fn Param)}
    {p : Pool Fn Param n} (ht : Looks pushed { s with queue } p) :
    ∃ p' fs, Looks pushed s p' ∧ run ThreadPool.step p' fs = some p := by
  have hunseen : Unseen e → ∃ p' fs, Looks pushed s p' ∧ run ThreadPool.step p' fs = some p := by
    intro hno
    refine looks_unseen (pool_inside hq hno) ?_ id ht
    show queue.effects.filterMap _ = _
    rw [(view_of_step hq hno).2.2]
    rfl
  cases hq with
  | callPush val hu => exact he.elim
  | callPop hu => exact he.elim
  | unlockPush hu => exact he.elim
  | unlockPop hu => exact he.elim
  | lockPush hm hu => exact hunseen trivial
  | lockPop hm hu => exact hunseen trivial
  | notifyOne hu hv => exact hunseen trivial
  | notifyNobody hu hv => exact hunseen trivial
  | testFalse hu hq => exact hunseen trivial
  | testTrue hu hq => exact hunseen trivial
  | block hu => exact hunseen trivial
  | wake hu => exact hunseen trivial
  | @pushBack u val hu =>
      cases u with
      | client c =>
          -- the value is the next that was still to be pushed
          obtain ⟨toPush, rfl, hall, hnone⟩ := ht
          refine ⟨s.pool (val :: toPush), [.push], ⟨val :: toPush, rfl, ?_, fun hno ↦ ?_⟩, ?_⟩
          · rw [← hall]
            show _ = (s.queue.effects ++ [_]).filterMap _ ++ _
            rw [pushed_snoc, List.append_assoc]
            rfl
          · have hidle := (h.begun hno c).2
            rw [hu] at hidle
            cases hidle
          · exact run_cons_eq_some.mpr ⟨_, step_iff.mpr (pool_push hu toPush), rfl⟩
      | worker w => cases (h.popping (by rw [hu]; rfl)).1
      | destructor =>
          obtain ⟨hval, i, hi⟩ := h.pushing (by rw [hu]; rfl)
          cases hval
          refine looks_seen (fun toPush _ ↦ pool_pushStop hu hi toPush) ?_ id ht
          exact (pushed_snoc _ _).trans (List.append_nil _)
  | @popFront u ret queue hu hqueue =>
      cases u with
      | client c => exact absurd (by rw [hu]; rfl) (h.client c)
      | worker w =>
          have hw := (h.popping (by rw [hu]; rfl)).2
          refine looks_seen (fun toPush _ ↦ pool_popFront hu hw hqueue toPush) ?_ id ht
          exact (pushed_snoc _ _).trans (List.append_nil _)
      | destructor => cases (h.pushing (by rw [hu]; rfl)).1

/-- **Every step is none or one of the atomic pool.** -/
theorem looks_of_step (h : Shaped s) (hs : Step s e t) {pushed : List (Task Fn Param)}
    {p : Pool Fn Param n} (ht : Looks pushed t p) :
    ∃ p' fs, Looks pushed s p' ∧ run ThreadPool.step p' fs = some p := by
  cases hs with
  | @push c task tasks queue hc hq =>
      cases hq with
      | callPush val hu =>
          refine looks_unseen (fun toPush ↦ ?_) ?_ ?_ ht
          · apply pool_call (p := .pushLocking task) hu rfl
            · rfl
            · rfl
            · exact destructorSeen_setPlace rfl rfl nofun
            · rfl
          · rfl
          · exact id
  | @pop w queue hw hq =>
      cases hq with
      | callPop hu =>
          refine looks_unseen (fun toPush ↦ ?_) ?_ ?_ ht
          · apply pool_call (p := .popLocking) hu rfl
            · rfl
            · rfl
            · exact destructorSeen_setPlace rfl rfl nofun
            · rfl
          · rfl
          · exact id
  | inside he hq => exact looks_of_inside h he hq ht
  | @leave u queue hq =>
      refine looks_unseen (pool_leave h hq) ?_ (begun_leave queue u) ht
      rw [State.pushed, queue_leave, (kept_of_unlock hq).2]
      rfl
  | @taskReturns w elem hw =>
      refine looks_seen (e := .taskReturns w) (fun toPush _ ↦ ?_) ?_ ?_ ht
      · exact pool_taskReturns h hw toPush
      · rfl
      · exact id
  | beginDestructor hd hc =>
      refine looks_seen (e := .beginDestructor) (fun toPush hnone ↦ ?_) ?_ ?_ ht
      · apply ThreadPool.Step.beginDestructor
        · rw [State.pool, State.destructorSeen, hd]
        · exact hnone nofun
      · rfl
      · exact fun _ ↦ nofun
  | @pushStop i queue hd hq =>
      cases hq with
      | callPush val hu =>
          refine looks_unseen (fun toPush ↦ ?_) ?_ ?_ ht
          · apply pool_call (p := .pushLocking stopTask) hu rfl
            · rfl
            · rfl
            · refine Eq.trans (destructorSeen_of_pushing (i := i) rfl
                (ThreadSafeQueue.places_setPlace_self ..)) ?_
              rw [State.destructorSeen, hd]
              rfl
            · rfl
          · rfl
          · exact fun _ ↦ nofun
  | @join i hd hw =>
      refine looks_seen (e := .join) (fun toPush _ ↦ ?_) ?_ ?_ ht
      · apply ThreadPool.Step.join (i := i)
        · rw [State.pool, State.destructorSeen, hd]
        · show s.worker i = _
          rw [h.worker_eq (by rw [hw]; exact nofun), hw]
      · rfl
      · exact fun _ ↦ nofun
  | @endDestructor i hd hi =>
      refine looks_seen (e := .endDestructor) (fun toPush _ ↦ ?_) ?_ ?_ ht
      · apply ThreadPool.Step.endDestructor (i := i)
        · rw [State.pool, State.destructorSeen, hd]
        · exact hi
      · rfl
      · exact fun _ ↦ nofun

section

variable [Fintype κ]

theorem shaped_of_run {todo : κ → List (Task Fn Param)} {es : List (Event Fn Param κ n)}
    (hrun : run step (.construct n todo) es = some t) : Shaped t :=
  run_invariant (fun _ _ _ h hs ↦ h.step (step_cases hs)) (shaped_construct todo) hrun

/-- A run of the pool with the atomic queue, for the tasks in the order in which the clients
put them in, that looks the same at the end. -/
theorem exists_atomic_run {todo : κ → List (Task Fn Param)} {es : List (Event Fn Param κ n)}
    (hrun : run step (.construct n todo) es = some t) :
    ∃ fs, run ThreadPool.step (Pool.construct n t.pushed) fs = some (t.pool []) := by
  obtain ⟨p, fs, ⟨toPush, rfl, hall, -⟩, hfs⟩ := exists_run_of_backward
    (I := Shaped) (R := Looks t.pushed) (fun _ _ _ h hs ↦ h.step (step_cases hs))
    (fun _ _ _ h hs _ ht ↦ looks_of_step h (step_cases hs) ht) (shaped_construct todo) hrun
    ⟨[], rfl, List.append_nil _, fun _ ↦ rfl⟩
  refine ⟨fs, ?_⟩
  rw [← hfs, ← hall]
  rfl

end

end AsabruCommons.ThreadPool.OverQueue
