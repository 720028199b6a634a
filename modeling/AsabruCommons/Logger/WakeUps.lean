import AsabruCommons.Logger.Worker

/-!
# No wake-up of the worker is missed

Three invariants of the logger with its worker, each kept with the help of those before it:

* `Exclusive`: the threads that are at a place under the lock are the owner of the mutex;
* `Attentive`: the worker blocks on an empty queue only, and whoever has put an
  entry there since has still to notify it;
* `InOrder`: what was written and what is queued are the entries of the calls in the order
  in which they took the mutex, up to the call that holds it and the entry that is just
  being written.

The test of the predicate and the blocking are two steps, with the mutex held in between,
so that no push fits in; the notification comes after the unlocking, and is still to
come when the worker blocks in between.
-/

namespace AsabruCommons.Logger

open Run Mutex

variable {ι : Type} [DecidableEq ι] {strategy : LogStrategy} {s t : WorkerState ι}
  {e : WorkerEvent ι}

/-! ## The mutex -/

/-- The places under the lock. -/
def Caller.Holds : Caller → Prop
  | .logging _ | .unlocking => True
  | .outside | .locking _ | .notifying => False

def Worker.Holds : Worker → Prop
  | .testing | .waiting | .checking | .flushing | .popping | .writing _ | .unlocking => True
  | .locking | .blocked | .woken | .returned => False

def WorkerState.Holds (s : WorkerState ι) : Thread ι → Prop
  | .worker => s.worker.Holds
  | .caller i => (s.callers i).Holds

def Exclusive (s : WorkerState ι) : Prop := Excludes s.Holds s.mutex

theorem Worker.holds_notified (p : Worker) : p.notified.Holds ↔ p.Holds := by
  cases p <;> exact Iff.rfl

omit [DecidableEq ι] in
theorem holds_caller_of_eq {i : ι} {p : Caller} (hi : s.callers i = p) (hp : p.Holds) :
    s.Holds (.caller i) := by
  show (s.callers i).Holds
  rw [hi]
  exact hp

/-- A step of a thread in `Log` is none of another thread. -/
theorem holds_of_caller {i : ι} {p : Caller} (hc : t.callers = Function.update s.callers i p)
    (hw : t.worker.Holds ↔ s.worker.Holds) (u : Thread ι) (hu : u ≠ .caller i) :
    t.Holds u ↔ s.Holds u := by
  cases u with
  | worker => exact hw
  | caller j =>
      have hj : j ≠ i := fun heq ↦ hu (congrArg Thread.caller heq)
      show (t.callers j).Holds ↔ (s.callers j).Holds
      rw [hc, Function.update_of_ne hj]

theorem holds_caller_self {i : ι} {p : Caller} (hc : t.callers = Function.update s.callers i p) :
    t.Holds (.caller i) ↔ p.Holds := by
  show (t.callers i).Holds ↔ p.Holds
  rw [hc, Function.update_self]

theorem holds_setCaller (s : WorkerState ι) (i : ι) (p : Caller) :
    (s.setCaller i p).Holds (.caller i) ↔ p.Holds := holds_caller_self rfl

omit [DecidableEq ι] in
/-- A step of the worker is none of a thread in `Log`. -/
theorem holds_of_worker (hc : t.callers = s.callers) (u : Thread ι) (hu : u ≠ .worker) :
    t.Holds u ↔ s.Holds u := by
  cases u with
  | worker => exact absurd rfl hu
  | caller j =>
      show (t.callers j).Holds ↔ (s.callers j).Holds
      rw [hc]

/-- A step of a thread that neither takes nor releases the mutex. -/
theorem Exclusive.keep_caller (h : Exclusive s) {i : ι} {p : Caller} (hm : t.mutex = s.mutex)
    (hc : t.callers = Function.update s.callers i p) (hw : t.worker.Holds ↔ s.worker.Holds)
    (hp : p.Holds ↔ (s.callers i).Holds) : Exclusive t := by
  rw [Exclusive, hm]
  refine Excludes.keep h fun u ↦ ?_
  by_cases hu : u = .caller i
  · subst hu
    exact (holds_caller_self hc).trans hp
  · exact holds_of_caller hc hw u hu

theorem Exclusive.keep_worker (h : Exclusive s) (hm : t.mutex = s.mutex)
    (hc : t.callers = s.callers) (hw : t.worker.Holds ↔ s.worker.Holds) : Exclusive t := by
  rw [Exclusive, hm]
  refine Excludes.keep h fun u ↦ ?_
  by_cases hu : u = .worker
  · subst hu
    exact hw
  · exact holds_of_worker hc u hu

omit [DecidableEq ι] in
/-- The worker releases the mutex. -/
theorem Exclusive.release_worker (h : Exclusive s) (hown : s.worker.Holds) (hm : t.mutex = none)
    (hc : t.callers = s.callers) (hw : ¬ t.worker.Holds) : Exclusive t := by
  rw [Exclusive, hm]
  exact Excludes.release (t := Thread.worker) h hown hw (holds_of_worker hc)

theorem Exclusive.step (h : Exclusive s) (hstep : WorkerStep strategy s e t) : Exclusive t := by
  cases hstep with
  | enter call hi => exact h.keep_caller rfl rfl Iff.rfl (by rw [hi]; exact Iff.rfl)
  | @lock i call hi hm =>
      rw [Exclusive, hm] at h
      have hown : (s.setCaller i (.logging call)).Holds (.caller i) :=
        (holds_setCaller s i _).mpr trivial
      exact Excludes.acquire h hown (holds_of_caller rfl Iff.rfl)
  | log hi he => exact h.keep_caller rfl rfl Iff.rfl (by rw [hi]; exact Iff.rfl)
  | @unlock i hi =>
      have hown : s.Holds (.caller i) := holds_caller_of_eq hi trivial
      have hleft : ¬ (s.setCaller i .notifying).Holds (.caller i) := (holds_setCaller s i _).mp
      exact Excludes.release h hown hleft (holds_of_caller rfl Iff.rfl)
  | notify hi =>
      exact h.keep_caller rfl rfl s.worker.holds_notified (by rw [hi]; exact Iff.rfl)
  | workerLock hw hm =>
      rw [Exclusive, hm] at h
      exact Excludes.acquire (t := Thread.worker) h trivial (holds_of_worker rfl)
  | testTrue hw hq => exact h.keep_worker rfl rfl (by rw [hw]; exact Iff.rfl)
  | testFalse hw hq hs => exact h.keep_worker rfl rfl (by rw [hw]; exact Iff.rfl)
  | block hw => exact h.release_worker (by rw [hw]; trivial) rfl rfl id
  | wake hw => exact h.keep_worker rfl rfl (by rw [hw]; exact Iff.rfl)
  | checkReturn hw hq hs => exact h.release_worker (by rw [hw]; trivial) rfl rfl id
  | checkFlush hw hq => exact h.keep_worker rfl rfl (by rw [hw]; exact Iff.rfl)
  | testEmptyDone hw hq => exact h.keep_worker rfl rfl (by rw [hw]; exact Iff.rfl)
  | testEmptyMore hw hq => exact h.keep_worker rfl rfl (by rw [hw]; exact Iff.rfl)
  | pop hw hq => exact h.keep_worker rfl rfl (by rw [hw]; exact Iff.rfl)
  | writeToMedia hw => exact h.keep_worker rfl rfl (by rw [hw]; exact Iff.rfl)
  | workerUnlock hw => exact h.release_worker (by rw [hw]; trivial) rfl rfl id

/-! ## The notification that is still to come -/

/-- The call has pushed its entry and has not yet notified. -/
def Caller.OwesNotify : Caller → Prop
  | .unlocking | .notifying => True
  | .outside | .locking _ | .logging _ => False

/-- The worker blocks on an empty queue, and as long as it is blocked each push is followed by
a notification.  It never pops from an empty queue. -/
structure Attentive (s : WorkerState ι) : Prop where
  waiting : s.worker = .waiting → s.queue = []
  blocked : s.worker = .blocked → s.queue ≠ [] → ∃ i, (s.callers i).OwesNotify
  popping : s.worker = .popping → s.queue ≠ []

omit [DecidableEq ι] in
/-- Nothing is asked of the worker elsewhere. -/
theorem attentive_of_ne (hwaiting : s.worker ≠ .waiting) (hblocked : s.worker ≠ .blocked)
    (hpopping : s.worker ≠ .popping) : Attentive s :=
  ⟨fun h ↦ absurd h hwaiting, fun h ↦ absurd h hblocked, fun h ↦ absurd h hpopping⟩

/-- A thread that moves on in `Log` goes on owing the notification that it owes. -/
theorem owesNotify_setCaller {i : ι} {p : Caller} (h : ∃ j, (s.callers j).OwesNotify)
    (hp : (s.callers i).OwesNotify → p.OwesNotify) :
    ∃ j, ((s.setCaller i p).callers j).OwesNotify := by
  obtain ⟨j, hj⟩ := h
  refine ⟨j, ?_⟩
  by_cases hji : j = i
  · subst hji
    rw [callers_setCaller_self]
    exact hp hj
  · rwa [callers_setCaller_of_ne s hji]

theorem Attentive.step (h : Attentive s) (hex : Exclusive s) (hstep : WorkerStep strategy s e t) :
    Attentive t := by
  cases hstep with
  | enter call hi =>
      refine ⟨h.waiting, fun hw hq ↦ owesNotify_setCaller (h.blocked hw hq) ?_, h.popping⟩
      rw [hi]
      exact False.elim
  | lock hi hm =>
      refine ⟨h.waiting, fun hw hq ↦ owesNotify_setCaller (h.blocked hw hq) ?_, h.popping⟩
      rw [hi]
      exact False.elim
  | @log i call item hi he =>
      refine ⟨fun hw ↦ ?_, fun _ _ ↦ ⟨i, ?_⟩, fun _ ↦ by simp⟩
      · -- the worker has the mutex, so the call has not
        have hworker : s.Holds .worker := by
          show s.worker.Holds
          rw [show s.worker = .waiting from hw]
          trivial
        cases Excludes.unique hex hworker (holds_caller_of_eq hi trivial)
      · show ((s.setCaller i .unlocking).callers i).OwesNotify
        rw [callers_setCaller_self]
        trivial
  | unlock hi =>
      exact ⟨h.waiting, fun hw hq ↦ owesNotify_setCaller (h.blocked hw hq) fun _ ↦ trivial,
        h.popping⟩
  | notify hi =>
      refine ⟨fun hw ↦ h.waiting (Worker.eq_of_notified hw nofun), fun hw ↦ ?_,
        fun hw ↦ h.popping (Worker.eq_of_notified hw nofun)⟩
      exact absurd hw s.worker.notified_ne_blocked
  | workerLock hw hm => exact attentive_of_ne nofun nofun nofun
  | testTrue hw hq => exact attentive_of_ne nofun nofun nofun
  | testFalse hw hq hs => exact ⟨fun _ ↦ hq, nofun, nofun⟩
  | block hw => exact ⟨nofun, fun _ hq ↦ absurd (h.waiting hw) hq, nofun⟩
  | wake hw => exact attentive_of_ne nofun nofun nofun
  | checkReturn hw hq hs => exact attentive_of_ne nofun nofun nofun
  | checkFlush hw hq => exact attentive_of_ne nofun nofun nofun
  | testEmptyDone hw hq => exact attentive_of_ne nofun nofun nofun
  | testEmptyMore hw hq => exact ⟨nofun, nofun, fun _ ↦ hq⟩
  | pop hw hq => exact attentive_of_ne nofun nofun nofun
  | writeToMedia hw => exact attentive_of_ne nofun nofun nofun
  | workerUnlock hw => exact attentive_of_ne nofun nofun nofun

/-! ## The order of the entries -/

/-- The call that has the mutex and has not yet pushed. -/
def Caller.pending : Caller → List LogCall
  | .logging call => [call]
  | _ => []

def WorkerState.pending (s : WorkerState ι) : List LogCall :=
  match s.mutex with
  | some (.caller i) => (s.callers i).pending
  | _ => []

/-- The entry that has left the queue and is not yet written. -/
def Worker.inFlight : Worker → List Str
  | .writing content => [content]
  | _ => []

/-- The entries of the calls that have pushed, from the first that was written to the last that
is queued. -/
def InOrder (strategy : LogStrategy) (s : WorkerState ι) : Prop :=
  ∃ done, s.taken = done ++ s.pending ∧
    done.map strategy.entry = (s.written ++ s.worker.inFlight ++ s.queue).map some

omit [DecidableEq ι] in
theorem pending_of_mutex (hm : s.mutex = none ∨ s.mutex = some .worker) : s.pending = [] := by
  rcases hm with hm | hm
  · rw [WorkerState.pending, hm]
  · rw [WorkerState.pending, hm]

/-- A thread without the mutex is not the one whose entry is still to come. -/
theorem Exclusive.pending_setCaller (h : Exclusive s) {i : ι} (hi : ¬ (s.callers i).Holds)
    (p : Caller) : (s.setCaller i p).pending = s.pending := by
  show (match s.mutex with | some (.caller j) => _ | _ => []) = _
  rw [WorkerState.pending]
  cases hm : s.mutex with
  | none => rfl
  | some u =>
      cases u with
      | worker => rfl
      | caller j =>
          have hj : s.Holds (.caller j) := (h (.caller j)).mpr hm
          have hji : j ≠ i := fun heq ↦ hi (heq ▸ hj)
          show ((s.setCaller i p).callers j).pending = _
          rw [callers_setCaller_of_ne s hji]

omit [DecidableEq ι] in
/-- A step that only moves entries on. -/
theorem InOrder.keep (h : InOrder strategy s) (htaken : t.taken = s.taken)
    (hpending : t.pending = s.pending)
    (hmoved : t.written ++ t.worker.inFlight ++ t.queue =
      s.written ++ s.worker.inFlight ++ s.queue) : InOrder strategy t := by
  rw [InOrder, htaken, hpending, hmoved]
  exact h

omit [DecidableEq ι] in
/-- A step of the worker under the lock, or one that takes or releases it. -/
theorem InOrder.keep_worker (h : InOrder strategy s)
    (hs : s.mutex = none ∨ s.mutex = some .worker) (ht : t.mutex = none ∨ t.mutex = some .worker)
    (htaken : t.taken = s.taken)
    (hmoved : t.written ++ t.worker.inFlight ++ t.queue =
      s.written ++ s.worker.inFlight ++ s.queue) : InOrder strategy t := by
  refine h.keep htaken ?_ hmoved
  rw [pending_of_mutex hs, pending_of_mutex ht]

omit [DecidableEq ι] in
/-- What is still to come of the thread that has the mutex. -/
theorem pending_of_caller {i : ι} (hm : s.mutex = some (.caller i)) :
    s.pending = (s.callers i).pending := by
  rw [WorkerState.pending, hm]

theorem Worker.inFlight_notified (p : Worker) : p.notified.inFlight = p.inFlight := by
  cases p <;> rfl

omit [DecidableEq ι] in
/-- The worker has the mutex wherever it is under the lock. -/
theorem Exclusive.mutex_worker (h : Exclusive s) (hw : s.worker.Holds) :
    s.mutex = none ∨ s.mutex = some .worker := .inr ((h .worker).mp hw)

theorem InOrder.step (h : InOrder strategy s) (hex : Exclusive s)
    (hstep : WorkerStep strategy s e t) : InOrder strategy t := by
  cases hstep with
  | enter call hi => exact h.keep rfl (hex.pending_setCaller (by rw [hi]; exact id) _) rfl
  | @lock i call hi hm =>
      obtain ⟨done, htaken, hdone⟩ := h
      refine ⟨done, ?_, hdone⟩
      have hpending : (s.setCaller i (.logging call)).callers i = .logging call :=
        callers_setCaller_self s i _
      rw [pending_of_mutex (.inl hm), List.append_nil] at htaken
      rw [pending_of_caller rfl, hpending, ← htaken]
      rfl
  | @log i call item hi he =>
      obtain ⟨done, htaken, hdone⟩ := h
      have hown : s.Holds (.caller i) := holds_caller_of_eq hi trivial
      have hm : s.mutex = some (.caller i) := (hex (.caller i)).mp hown
      have hpending : (s.setCaller i .unlocking).pending = [] := by
        rw [pending_of_caller (s := s.setCaller i .unlocking) hm, callers_setCaller_self]
        rfl
      rw [pending_of_caller hm, hi] at htaken
      refine ⟨done ++ [call], ?_, ?_⟩
      · show s.taken = done ++ [call] ++ (s.setCaller i .unlocking).pending
        rw [hpending, List.append_nil]
        exact htaken
      · show _ = (s.written ++ s.worker.inFlight ++ (s.queue ++ [item])).map some
        rw [List.map_append, hdone, List.map_singleton, he]
        simp only [List.map_append, List.map_singleton, List.append_assoc]
  | @unlock i hi =>
      have hown : s.Holds (.caller i) := holds_caller_of_eq hi trivial
      have hm : s.mutex = some (.caller i) := (hex (.caller i)).mp hown
      refine h.keep rfl ?_ rfl
      rw [pending_of_mutex (.inl rfl), pending_of_caller hm, hi]
      rfl
  | notify hi =>
      refine h.keep rfl (hex.pending_setCaller (by rw [hi]; exact id) _) ?_
      rw [Worker.inFlight_notified]
      rfl
  | workerLock hw hm =>
      refine h.keep_worker (.inl hm) (.inr rfl) rfl ?_
      rcases hw with hw | hw <;> rw [hw] <;> rfl
  | testTrue hw hq => exact h.keep rfl rfl (by rw [hw]; rfl)
  | testFalse hw hq hs => exact h.keep rfl rfl (by rw [hw]; rfl)
  | block hw =>
      have hm := hex.mutex_worker (by rw [hw]; trivial)
      exact h.keep_worker hm (.inl rfl) rfl (by rw [hw]; rfl)
  | wake hw => exact h.keep rfl rfl (by rw [hw]; rfl)
  | checkReturn hw hq hs =>
      have hm := hex.mutex_worker (by rw [hw]; trivial)
      exact h.keep_worker hm (.inl rfl) rfl (by rw [hw]; rfl)
  | checkFlush hw hq => exact h.keep rfl rfl (by rw [hw]; rfl)
  | testEmptyDone hw hq => exact h.keep rfl rfl (by rw [hw]; rfl)
  | testEmptyMore hw hq => exact h.keep rfl rfl (by rw [hw]; rfl)
  | @pop content queue hw hq =>
      refine h.keep rfl rfl ?_
      rw [hw, hq]
      simp [Worker.inFlight]
  | @writeToMedia content hw =>
      refine h.keep rfl rfl ?_
      rw [hw]
      simp [Worker.inFlight]
  | workerUnlock hw =>
      have hm := hex.mutex_worker (by rw [hw]; trivial)
      exact h.keep_worker hm (.inl rfl) rfl (by rw [hw]; rfl)

/-! ## Every run -/

/-- The three invariants. -/
structure KeepsUp (strategy : LogStrategy) (s : WorkerState ι) : Prop where
  exclusive : Exclusive s
  attentive : Attentive s
  inOrder : InOrder strategy s

omit [DecidableEq ι] in
theorem keepsUp_init : KeepsUp strategy (.init ι) where
  exclusive := by
    intro u
    refine iff_of_false ?_ nofun
    cases u with
    | worker => exact id
    | caller i => exact id
  attentive := attentive_of_ne nofun nofun nofun
  inOrder := ⟨[], rfl, rfl⟩

theorem KeepsUp.step (h : KeepsUp strategy s) (hstep : workerStep strategy s e = some t) :
    KeepsUp strategy t :=
  have hcases := workerStep_cases hstep
  ⟨h.exclusive.step hcases, h.attentive.step h.exclusive hcases, h.inOrder.step h.exclusive hcases⟩

/-- **The log worker.**  In every state that is reached, if the worker is blocked while there
is something in the queue, a call that has pushed its entry has still to notify.  While
the mutex is free, what was written, followed by what is queued, is the entries of the
calls in the order in which they took the mutex. -/
theorem worker_keeps_up {es : List (WorkerEvent ι)}
    (h : run (workerStep strategy) (.init ι) es = some s) :
    (s.worker = .blocked → s.queue ≠ [] →
        ∃ i, s.callers i = .unlocking ∨ s.callers i = .notifying) ∧
      (s.mutex = none → (s.written ++ s.queue).map some = s.taken.map strategy.entry) := by
  have hkeeps : KeepsUp strategy s :=
    run_invariant (I := KeepsUp strategy) (fun _ _ _ ↦ KeepsUp.step) keepsUp_init h
  constructor
  · intro hw hq
    obtain ⟨i, hi⟩ := hkeeps.attentive.blocked hw hq
    refine ⟨i, ?_⟩
    cases hp : s.callers i with
    | unlocking => exact .inl rfl
    | notifying => exact .inr rfl
    | outside => rw [hp] at hi; exact hi.elim
    | locking call => rw [hp] at hi; exact hi.elim
    | logging call => rw [hp] at hi; exact hi.elim
  · intro hm
    obtain ⟨done, htaken, hdone⟩ := hkeeps.inOrder
    have hidle : s.worker.inFlight = [] := by
      have hfree : ¬ s.worker.Holds := fun hw ↦ by
        cases hm.symm.trans ((hkeeps.exclusive .worker).mp hw)
      cases hw : s.worker with
      | writing content =>
          rw [hw] at hfree
          exact absurd trivial hfree
      | _ => rfl
    rw [pending_of_mutex (.inl hm), List.append_nil] at htaken
    rw [hidle, List.append_nil] at hdone
    rw [htaken, hdone]

/-- An entry is written; then there are two calls while the worker blocks again, and it is
blocked before either notifies. -/
def blockedRun : List (WorkerEvent Bool) :=
  [.workerLock, .test, .block, .enter true ⟨['a'], ['b'], ['c']⟩, .lock true, .log true,
    .unlock true, .notify true, .workerLock, .test, .check, .testEmpty, .pop, .writeToMedia,
    .testEmpty, .workerUnlock, .workerLock, .test, .block, .enter true ⟨['d'], ['e'], ['f']⟩,
    .lock true, .log true, .unlock true, .enter false ⟨['g'], ['h'], ['i']⟩, .lock false,
    .log false, .unlock false]

theorem worker_keeps_up_blocked :
    ∃ s, run (workerStep .DB) (.init Bool) blockedRun = some s ∧ s.worker = .blocked ∧
      s.written.length = 1 ∧ s.queue.length = 2 ∧
      (∃ i, s.callers i = .unlocking ∨ s.callers i = .notifying) ∧
      (s.written ++ s.queue).map some = s.taken.map LogStrategy.DB.entry := by
  have hrun : run (workerStep .DB) (.init Bool) blockedRun = some _ := rfl
  obtain ⟨hnotify, horder⟩ := worker_keeps_up hrun
  exact ⟨_, rfl, rfl, rfl, rfl, hnotify rfl (by decide), horder rfl⟩

end AsabruCommons.Logger
