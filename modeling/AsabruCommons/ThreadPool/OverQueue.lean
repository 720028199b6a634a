import AsabruCommons.ThreadPool.ExactlyOnce
import AsabruCommons.ThreadPool.Queue
import Mathlib.Data.Fintype.Sum
import Mathlib.Tactic.DeriveFintype

/-!
# The thread pool over its queue

`ThreadPool.Basic` is a pool whose queue is atomic, and `ThreadPool.Queue` the queue with its
lock and its condition variable.  Here the threads of the first call the methods of the second:
any number of clients with the tasks that each is going to push, the threads of the pool, and
the destructor, in any order and with spurious wake-ups.

The pool with the atomic queue is what this one looks like from outside (`State.pool`): a
thread has taken an element as soon as it is out of the `std::queue`, also while it is still
about to leave `pop`.  `ThreadPool.Refinement` is about the relation between the two.
-/

namespace AsabruCommons.ThreadPool.OverQueue

open Run

variable {Fn Param κ : Type} {n : Nat}

/-! ## The calls of a thread -/

namespace Place

open ThreadSafeQueue

variable {T : Type}

/-- The call that a thread is in: of `push` with a value, or of `pop`. -/
def call : Place T → Option (Option T)
  | .outside => none
  | .pushLocking val | .pushing val | .notifying val | .pushUnlocking val => some (some val)
  | .popLocking | .testing | .waiting | .blocked | .woken | .taking | .popUnlocking _ => some none

/-- The element that it has taken out and not yet returned. -/
def handed : Place T → Option T
  | .popUnlocking ret => some ret
  | _ => none

/-- It has put its value in. -/
def done : Place T → Bool
  | .notifying _ | .pushUnlocking _ => true
  | _ => false

/-- The value that it is going to put in. -/
def toPut : Place T → List T
  | .pushLocking val | .pushing val => [val]
  | _ => []

end Place

/-- The threads that use the queue. -/
inductive Thread (κ : Type) (n : Nat) where
  | client (c : κ)
  | worker (w : Fin n)
  | destructor
deriving DecidableEq, Fintype

/-- Where the destructor is; `pushing` is in `push`. -/
inductive DestructorAt (n : Nat) where
  | notBegun
  | loop (i : Nat)
  | pushing (i : Fin n)
  | joining (i : Fin n)
  | returned
deriving DecidableEq, Repr

/-- `todo` are the tasks that the clients have still to push.  A worker that is `popping` is
about to call `pop`, or in it. -/
structure State (Fn Param κ : Type) (n : Nat) where
  todo : κ → List (Task Fn Param)
  queue : ThreadSafeQueue.State (Thread κ n) (Task Fn Param)
  workers : Fin n → Worker Fn Param
  destructor : DestructorAt n
  executed : List (Task Fn Param)

def State.construct (n : Nat) (todo : κ → List (Task Fn Param)) : State Fn Param κ n where
  todo := todo
  queue := .construct (Thread κ n) (Task Fn Param)
  workers := fun _ ↦ .popping
  destructor := .notBegun
  executed := []

/-- `inside` is a step of a thread inside of `push` or `pop`. -/
inductive Event (Fn Param κ : Type) (n : Nat) where
  | push (c : κ)
  | pop (w : Fin n)
  | inside (e : ThreadSafeQueue.Event (Thread κ n) (Task Fn Param))
  | taskReturns (w : Fin n)
  | beginDestructor
  | pushStop
  | join
  | endDestructor

/-- What a worker does with the element that it got. -/
def take (elem : Task Fn Param) : Worker Fn Param :=
  match elem.type with
  | .Execute => .executing elem
  | .Stop => .returned

section

variable [DecidableEq κ] [Fintype κ]

/-- The state after a thread has left the queue, in which it had this place. -/
def State.leave (s : State Fn Param κ n)
    (queue : ThreadSafeQueue.State (Thread κ n) (Task Fn Param)) : Thread κ n → State Fn Param κ n
  | .client _ => { s with queue }
  | .worker w =>
      match Place.handed (s.queue.places (.worker w)) with
      | some elem => { s with queue, workers := Function.update s.workers w (take elem) }
      | none => { s with queue }
  | .destructor =>
      match s.destructor with
      | .pushing i => { s with queue, destructor := .joining i }
      | _ => { s with queue }

/-- All clients have made their calls. -/
def State.clientsDone (s : State Fn Param κ n) : Bool :=
  ∀ c, (s.todo c).isEmpty ∧ (Place.call (s.queue.places (.client c))).isNone

def step (s : State Fn Param κ n) : Event Fn Param κ n → Option (State Fn Param κ n)
  | .push c =>
      match s.todo c with
      | [] => none
      | task :: tasks =>
          (ThreadSafeQueue.step s.queue (.callPush (.client c) task)).map fun queue ↦
            { s with queue, todo := Function.update s.todo c tasks }
  | .pop w =>
      match s.workers w with
      | .popping =>
          (ThreadSafeQueue.step s.queue (.callPop (.worker w))).map fun queue ↦ { s with queue }
      | _ => none
  | .inside e =>
      match e with
      | .callPush _ _ | .callPop _ => none
      | .unlock t => (ThreadSafeQueue.step s.queue (.unlock t)).map fun queue ↦ s.leave queue t
      | e => (ThreadSafeQueue.step s.queue e).map fun queue ↦ { s with queue }
  | .taskReturns w =>
      match s.workers w with
      | .executing elem =>
          some { s with
            workers := Function.update s.workers w .popping, executed := s.executed ++ [elem] }
      | _ => none
  | .beginDestructor =>
      match s.destructor with
      | .notBegun => if s.clientsDone then some { s with destructor := .loop 0 } else none
      | _ => none
  | .pushStop =>
      match s.destructor with
      | .loop i =>
          if h : i < n then
            (ThreadSafeQueue.step s.queue (.callPush .destructor stopTask)).map fun queue ↦
              { s with queue, destructor := .pushing ⟨i, h⟩ }
          else none
      | _ => none
  | .join =>
      match s.destructor with
      | .joining i =>
          match s.workers i with
          | .returned => some { s with destructor := .loop (i + 1) }
          | _ => none
      | _ => none
  | .endDestructor =>
      match s.destructor with
      | .loop i => if i < n then none else some { s with destructor := .returned }
      | _ => none

end

/-! ## What it looks like from outside -/

/-- What the operation puts in, if it is one of a client. -/
def pushedByClient : Thread κ n × ThreadSafeQueue.Operation (Task Fn Param) →
    Option (Task Fn Param)
  | (.client _, .push val) => some val
  | _ => none

/-- What it puts in, if it is one of this client. -/
def pushedBy [DecidableEq κ] (c : κ) :
    Thread κ n × ThreadSafeQueue.Operation (Task Fn Param) → Option (Task Fn Param)
  | (.client d, .push val) => if d = c then some val else none
  | _ => none

/-- The operation hands this worker a `Stop`. -/
def stops (w : Fin n) : Thread κ n × ThreadSafeQueue.Operation (Task Fn Param) → Bool
  | (.worker v, .pop ret) => v = w ∧ ret.type = .Stop
  | _ => false

namespace State

/-- The tasks that the clients have put in, in this order. -/
def pushed (s : State Fn Param κ n) : List (Task Fn Param) :=
  s.queue.effects.filterMap pushedByClient

def worker (s : State Fn Param κ n) (w : Fin n) : Worker Fn Param :=
  match Place.handed (s.queue.places (.worker w)) with
  | some elem => take elem
  | none => s.workers w

def destructorSeen (s : State Fn Param κ n) : Destructor n :=
  match s.destructor with
  | .notBegun => .notBegun
  | .loop i => .loop i
  | .pushing i => if Place.done (s.queue.places .destructor) then .joining i else .loop i
  | .joining i => .joining i
  | .returned => .returned

/-- The atomic pool, with these tasks still to be pushed. -/
def pool (s : State Fn Param κ n) (toPush : List (Task Fn Param)) : Pool Fn Param n where
  toPush := toPush
  queue := s.queue.queue
  workers := s.worker
  destructor := s.destructorSeen
  executed := s.executed
  stops := fun w ↦ s.queue.effects.countP (stops w)

end State

attribute [ext] Pool

/-! ## Steps inside of the queue -/

section

variable {τ T : Type}

/-- A step that neither begins nor ends a call. -/
def Stays : ThreadSafeQueue.Event τ T → Prop
  | .callPush _ _ | .callPop _ | .unlock _ => False
  | _ => True

/-- One that does not touch the `std::queue` either. -/
def Unseen : ThreadSafeQueue.Event τ T → Prop
  | .lock _ | .notifyOne _ _ | .test _ | .block _ | .wake _ => True
  | _ => False

variable [DecidableEq τ] [Fintype τ] {q q' : ThreadSafeQueue.State τ T}
  {e : ThreadSafeQueue.Event τ T}

omit [Fintype τ] in
/-- A thread moves to a place that looks the same. -/
theorem view_setPlace {β : Type} (view : ThreadSafeQueue.Place T → β) {t : τ}
    {p : ThreadSafeQueue.Place T} (h : view p = view (q.places t)) (u : τ) :
    view ((q.setPlace t p).places u) = view (q.places u) := by
  by_cases hu : u = t
  · subst hu
    rw [ThreadSafeQueue.places_setPlace_self, h]
  · rw [ThreadSafeQueue.places_setPlace_of_ne q hu]

omit [Fintype τ] in
/-- Whatever happens inside of a call, the thread stays in it. -/
theorem call_of_step (hs : ThreadSafeQueue.Step q e q') (he : Stays e) (u : τ) :
    Place.call (q'.places u) = Place.call (q.places u) := by
  cases hs with
  | callPush val ht => exact he.elim
  | callPop ht => exact he.elim
  | unlockPush ht => exact he.elim
  | unlockPop ht => exact he.elim
  | lockPush hm ht => exact view_setPlace Place.call (by rw [ht]; rfl) u
  | lockPop hm ht =>
      exact view_setPlace Place.call (by rcases ht with ht | ht <;> rw [ht] <;> rfl) u
  | pushBack ht => exact view_setPlace Place.call (by rw [ht]; rfl) u
  | @notifyOne t v val ht hv =>
      have hvt : v ≠ t := fun heq ↦ by
        rw [heq, ht] at hv
        cases hv
      refine (view_setPlace Place.call ?_ u).trans (view_setPlace Place.call (by rw [ht]; rfl) u)
      rw [ThreadSafeQueue.places_setPlace_of_ne q hvt, hv]
      rfl
  | notifyNobody ht hu => exact view_setPlace Place.call (by rw [ht]; rfl) u
  | testFalse ht hq => exact view_setPlace Place.call (by rw [ht]; rfl) u
  | testTrue ht hq => exact view_setPlace Place.call (by rw [ht]; rfl) u
  | block ht => exact view_setPlace Place.call (by rw [ht]; rfl) u
  | wake ht => exact view_setPlace Place.call (by rw [ht]; rfl) u
  | popFront ht hq => exact view_setPlace Place.call (by rw [ht]; rfl) u

omit [Fintype τ] in
/-- One thread moves. -/
theorem call_setPlace (q : ThreadSafeQueue.State τ T) (t u : τ) (p : ThreadSafeQueue.Place T) :
    Place.call ((q.setPlace t p).places u) =
      if u = t then Place.call p else Place.call (q.places u) := by
  by_cases hu : u = t
  · subst hu
    rw [if_pos rfl, ThreadSafeQueue.places_setPlace_self]
  · rw [if_neg hu, ThreadSafeQueue.places_setPlace_of_ne q hu]

omit [Fintype τ] in
/-- A thread returns. -/
theorem call_of_unlock {t : τ} (hs : ThreadSafeQueue.Step q (.unlock t) q') (u : τ) :
    Place.call (q'.places u) = if u = t then none else Place.call (q.places u) := by
  cases hs with
  | unlockPush ht => exact call_setPlace q t u .outside
  | unlockPop ht => exact call_setPlace q t u .outside

/-- What can be seen of a place from outside. -/
def Place.view (p : ThreadSafeQueue.Place T) : Option T × Bool × List T :=
  (Place.handed p, Place.done p, Place.toPut p)

omit [Fintype τ] in
/-- Only three of the steps can be seen. -/
theorem view_of_step (hs : ThreadSafeQueue.Step q e q') (he : Unseen e) :
    (∀ u, Place.view (q'.places u) = Place.view (q.places u)) ∧ q'.queue = q.queue ∧
      q'.effects = q.effects := by
  cases hs with
  | callPush val ht => exact he.elim
  | callPop ht => exact he.elim
  | pushBack ht => exact he.elim
  | popFront ht hq => exact he.elim
  | unlockPush ht => exact he.elim
  | unlockPop ht => exact he.elim
  | lockPush hm ht => exact ⟨view_setPlace Place.view (by rw [ht]; rfl), rfl, rfl⟩
  | lockPop hm ht =>
      refine ⟨view_setPlace Place.view ?_, rfl, rfl⟩
      rcases ht with ht | ht <;> rw [ht] <;> rfl
  | @notifyOne t v val ht hv =>
      have hvt : v ≠ t := fun heq ↦ by
        rw [heq, ht] at hv
        cases hv
      refine ⟨fun u ↦ (view_setPlace Place.view ?_ u).trans
        (view_setPlace Place.view (by rw [ht]; rfl) u), rfl, rfl⟩
      rw [ThreadSafeQueue.places_setPlace_of_ne q hvt, hv]
      rfl
  | notifyNobody ht hu => exact ⟨view_setPlace Place.view (by rw [ht]; rfl), rfl, rfl⟩
  | testFalse ht hq => exact ⟨view_setPlace Place.view (by rw [ht]; rfl), rfl, rfl⟩
  | testTrue ht hq => exact ⟨view_setPlace Place.view (by rw [ht]; rfl), rfl, rfl⟩
  | block ht => exact ⟨view_setPlace Place.view (by rw [ht]; rfl), rfl, rfl⟩
  | wake ht => exact ⟨view_setPlace Place.view (by rw [ht]; rfl), rfl, rfl⟩

end

/-! ## What a step can do -/

section

variable [DecidableEq κ] [Fintype κ] {s t : State Fn Param κ n} {e : Event Fn Param κ n}

/-- The steps by what they do: a call, a step inside of a call, a return, or a step that does
not touch the queue. -/
inductive Step : State Fn Param κ n → Event Fn Param κ n → State Fn Param κ n → Prop
  | push {s : State Fn Param κ n} {c task tasks queue} (hc : s.todo c = task :: tasks)
      (hq : ThreadSafeQueue.Step s.queue (.callPush (.client c) task) queue) :
      Step s (.push c) { s with queue, todo := Function.update s.todo c tasks }
  | pop {s : State Fn Param κ n} {w queue} (hw : s.workers w = .popping)
      (hq : ThreadSafeQueue.Step s.queue (.callPop (.worker w)) queue) :
      Step s (.pop w) { s with queue }
  | inside {s : State Fn Param κ n} {e queue}
      (he : Stays e) (hq : ThreadSafeQueue.Step s.queue e queue) :
      Step s (.inside e) { s with queue }
  | leave {s : State Fn Param κ n} {t queue}
      (hq : ThreadSafeQueue.Step s.queue (.unlock t) queue) :
      Step s (.inside (.unlock t)) (s.leave queue t)
  | taskReturns {s : State Fn Param κ n} {w elem} (hw : s.workers w = .executing elem) :
      Step s (.taskReturns w) { s with
        workers := Function.update s.workers w .popping, executed := s.executed ++ [elem] }
  | beginDestructor {s : State Fn Param κ n} (hd : s.destructor = .notBegun)
      (hc : ∀ c, s.todo c = [] ∧ Place.call (s.queue.places (.client c)) = none) :
      Step s .beginDestructor { s with destructor := .loop 0 }
  | pushStop {s : State Fn Param κ n} {i : Fin n} {queue} (hd : s.destructor = .loop i)
      (hq : ThreadSafeQueue.Step s.queue (.callPush .destructor stopTask) queue) :
      Step s .pushStop { s with queue, destructor := .pushing i }
  | join {s : State Fn Param κ n} {i : Fin n} (hd : s.destructor = .joining i)
      (hw : s.workers i = .returned) : Step s .join { s with destructor := .loop (i + 1) }
  | endDestructor {s : State Fn Param κ n} {i : Nat} (hd : s.destructor = .loop i) (hi : n ≤ i) :
      Step s .endDestructor { s with destructor := .returned }

theorem step_cases (h : step s e = some t) : Step s e t := by
  cases e with
  | push c =>
      simp only [step] at h
      split at h
      · cases h
      · rename_i hc
        obtain ⟨queue, hq, rfl⟩ := Option.map_eq_some_iff.mp h
        exact .push hc (ThreadSafeQueue.step_cases hq)
  | pop w =>
      simp only [step] at h
      split at h
      · rename_i hw
        obtain ⟨queue, hq, rfl⟩ := Option.map_eq_some_iff.mp h
        exact .pop hw (ThreadSafeQueue.step_cases hq)
      · cases h
  | inside e =>
      cases e with
      | callPush u val => cases h
      | callPop u => cases h
      | unlock u =>
          obtain ⟨queue, hq, rfl⟩ := Option.map_eq_some_iff.mp h
          exact .leave (ThreadSafeQueue.step_cases hq)
      | lock u | pushBack u | notifyOne u v | test u | block u | wake u | popFront u =>
          obtain ⟨queue, hq, rfl⟩ := Option.map_eq_some_iff.mp h
          exact .inside trivial (ThreadSafeQueue.step_cases hq)
  | taskReturns w =>
      simp only [step] at h
      split at h
      · rename_i hw
        cases h
        exact .taskReturns hw
      · cases h
  | beginDestructor =>
      simp only [step] at h
      split at h
      · rename_i hd
        split at h
        · rename_i hc
          cases h
          refine .beginDestructor hd fun c ↦ ?_
          obtain ⟨htodo, hcall⟩ := of_decide_eq_true hc c
          exact ⟨List.isEmpty_iff.mp htodo, Option.isNone_iff_eq_none.mp hcall⟩
        · cases h
      · cases h
  | pushStop =>
      simp only [step] at h
      split at h
      · rename_i i hd
        split at h
        · rename_i hi
          obtain ⟨queue, hq, rfl⟩ := Option.map_eq_some_iff.mp h
          exact .pushStop (i := ⟨i, hi⟩) hd (ThreadSafeQueue.step_cases hq)
        · cases h
      · cases h
  | join =>
      simp only [step] at h
      split at h
      · rename_i hd
        split at h
        · rename_i hw
          cases h
          exact .join hd hw
        · cases h
      · cases h
  | endDestructor =>
      simp only [step] at h
      split at h
      · rename_i hd
        split at h
        · cases h
        · rename_i hi
          cases h
          exact .endDestructor hd (Nat.le_of_not_lt hi)
      · cases h

end

end AsabruCommons.ThreadPool.OverQueue
