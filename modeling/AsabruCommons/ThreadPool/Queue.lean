import AsabruCommons.Mutex
import AsabruCommons.ThreadPool.Basic

/-!
# The queue of the thread pool, lock by lock

`ThreadPool.Basic` takes `push` and `pop` for one step each, and a thread in `pop` on an
empty queue for one that has no step.  The class has a mutex and a condition variable
instead, and this file takes them apart: each acquisition, each access to the
`std::queue`, the test of the predicate, blocking, waking and notifying is a step of its
own, for any number of threads that call both methods in any order.  `notify_one` wakes
whichever blocked thread it likes, and a blocked thread may wake for no reason.

`linearizes` says that nothing is lost by taking them for one step.  The effects of the
calls, in the order in which they happen, are a run of the atomic queue (`Replays`); each
thread sees the effects of its own calls, in the order in which it makes them; and what
is handed out is what was put in, in that order.

A pop from an empty `std::queue` is undefined and has no step here.  That it does not
happen is a part of the invariant (`Guarded`), and what it means for progress is in
`ThreadPool.QueueProgress`.
-/

namespace AsabruCommons.ThreadPool.ThreadSafeQueue

open Run Mutex

variable {τ T : Type}

/-- Where a thread is: in neither method; in `push`, before the lock, at `_queue.push`, at
`notify_one`, at the end of the scope; in `pop`, before the lock, in `wait` testing the
predicate, about to block, blocked, or woken and without the mutex; at `front` and
`_queue.pop`, or at the end of the scope. -/
inductive Place (T : Type) where
  | outside
  | pushLocking (val : T)
  | pushing (val : T)
  | notifying (val : T)
  | pushUnlocking (val : T)
  | popLocking
  | testing
  | waiting
  | blocked
  | woken
  | taking
  | popUnlocking (ret : T)
deriving DecidableEq, Repr

/-- A call with what it did. -/
inductive Operation (T : Type) where
  | push (val : T)
  | pop (ret : T)
deriving DecidableEq, Repr

/-- `effects` and `returned` are history: what was done to the `std::queue` and by whom, and
the calls that have returned. -/
structure State (τ T : Type) where
  mutex : Option τ
  queue : List T
  places : τ → Place T
  effects : List (τ × Operation T)
  returned : List (τ × Operation T)

/-- The queue just constructed. -/
def State.construct (τ T : Type) : State τ T where
  mutex := none
  queue := []
  places := fun _ ↦ .outside
  effects := []
  returned := []

/-- `woken` is the thread that `notify_one` wakes, if one is blocked. -/
inductive Event (τ T : Type) where
  | callPush (t : τ) (val : T)
  | callPop (t : τ)
  | lock (t : τ)
  | pushBack (t : τ)
  | notifyOne (t : τ) (woken : Option τ)
  | test (t : τ)
  | block (t : τ)
  | wake (t : τ)
  | popFront (t : τ)
  | unlock (t : τ)
deriving DecidableEq, Repr

def Place.isBlocked : Place T → Bool
  | .blocked => true
  | _ => false

section

variable [DecidableEq τ]

def State.setPlace (s : State τ T) (t : τ) (p : Place T) : State τ T :=
  { s with places := Function.update s.places t p }

theorem places_setPlace_self (s : State τ T) (t : τ) (p : Place T) :
    (s.setPlace t p).places t = p := Function.update_self ..

theorem places_setPlace_of_ne (s : State τ T) {t u : τ} (h : u ≠ t) (p : Place T) :
    (s.setPlace t p).places u = s.places u := Function.update_of_ne h ..

def step [Fintype τ] (s : State τ T) : Event τ T → Option (State τ T)
  | .callPush t val =>
      match s.places t with
      | .outside => some (s.setPlace t (.pushLocking val))
      | _ => none
  | .callPop t =>
      match s.places t with
      | .outside => some (s.setPlace t .popLocking)
      | _ => none
  | .lock t =>
      match s.mutex, s.places t with
      | none, .pushLocking val => some { s.setPlace t (.pushing val) with mutex := some t }
      | none, .popLocking => some { s.setPlace t .testing with mutex := some t }
      | none, .woken => some { s.setPlace t .testing with mutex := some t }
      | _, _ => none
  | .pushBack t =>
      match s.places t with
      | .pushing val =>
          some { s.setPlace t (.notifying val) with
            queue := push s.queue val, effects := s.effects ++ [(t, .push val)] }
      | _ => none
  | .notifyOne t woken =>
      match s.places t, woken with
      | .notifying val, some u =>
          if (s.places u).isBlocked then
            some ((s.setPlace t (.pushUnlocking val)).setPlace u .woken)
          else none
      | .notifying val, none =>
          if ∀ u, (s.places u).isBlocked = false then some (s.setPlace t (.pushUnlocking val))
          else none
      | _, _ => none
  | .test t =>
      match s.places t with
      | .testing =>
          if s.queue = [] then some (s.setPlace t .waiting) else some (s.setPlace t .taking)
      | _ => none
  | .block t =>
      match s.places t with
      | .waiting => some { s.setPlace t .blocked with mutex := none }
      | _ => none
  | .wake t =>
      match s.places t with
      | .blocked => some (s.setPlace t .woken)
      | _ => none
  | .popFront t =>
      match s.places t, pop s.queue with
      | .taking, some (ret, queue) =>
          some { s.setPlace t (.popUnlocking ret) with
            queue := queue, effects := s.effects ++ [(t, .pop ret)] }
      | _, _ => none
  | .unlock t =>
      match s.places t with
      | .pushUnlocking val =>
          some { s.setPlace t .outside with
            mutex := none, returned := s.returned ++ [(t, .push val)] }
      | .popUnlocking ret =>
          some { s.setPlace t .outside with
            mutex := none, returned := s.returned ++ [(t, .pop ret)] }
      | _ => none

/-! ## What a step can do -/

/-- The steps as a relation: each constructor has the guard of its event and the state after
it. -/
inductive Step : State τ T → Event τ T → State τ T → Prop
  | callPush {s : State τ T} {t} (val) (ht : s.places t = .outside) :
      Step s (.callPush t val) (s.setPlace t (.pushLocking val))
  | callPop {s : State τ T} {t} (ht : s.places t = .outside) :
      Step s (.callPop t) (s.setPlace t .popLocking)
  | lockPush {s : State τ T} {t val} (hm : s.mutex = none) (ht : s.places t = .pushLocking val) :
      Step s (.lock t) { s.setPlace t (.pushing val) with mutex := some t }
  | lockPop {s : State τ T} {t} (hm : s.mutex = none)
      (ht : s.places t = .popLocking ∨ s.places t = .woken) :
      Step s (.lock t) { s.setPlace t .testing with mutex := some t }
  | pushBack {s : State τ T} {t val} (ht : s.places t = .pushing val) :
      Step s (.pushBack t) { s.setPlace t (.notifying val) with
        queue := s.queue ++ [val], effects := s.effects ++ [(t, .push val)] }
  | notifyOne {s : State τ T} {t u val} (ht : s.places t = .notifying val)
      (hu : s.places u = .blocked) :
      Step s (.notifyOne t (some u)) ((s.setPlace t (.pushUnlocking val)).setPlace u .woken)
  | notifyNobody {s : State τ T} {t val} (ht : s.places t = .notifying val)
      (hu : ∀ u, s.places u ≠ .blocked) :
      Step s (.notifyOne t none) (s.setPlace t (.pushUnlocking val))
  | testFalse {s : State τ T} {t} (ht : s.places t = .testing) (hq : s.queue = []) :
      Step s (.test t) (s.setPlace t .waiting)
  | testTrue {s : State τ T} {t} (ht : s.places t = .testing) (hq : s.queue ≠ []) :
      Step s (.test t) (s.setPlace t .taking)
  | block {s : State τ T} {t} (ht : s.places t = .waiting) :
      Step s (.block t) { s.setPlace t .blocked with mutex := none }
  | wake {s : State τ T} {t} (ht : s.places t = .blocked) :
      Step s (.wake t) (s.setPlace t .woken)
  | popFront {s : State τ T} {t ret queue} (ht : s.places t = .taking)
      (hq : s.queue = ret :: queue) :
      Step s (.popFront t) { s.setPlace t (.popUnlocking ret) with
        queue := queue, effects := s.effects ++ [(t, .pop ret)] }
  | unlockPush {s : State τ T} {t val} (ht : s.places t = .pushUnlocking val) :
      Step s (.unlock t) { s.setPlace t .outside with
        mutex := none, returned := s.returned ++ [(t, .push val)] }
  | unlockPop {s : State τ T} {t ret} (ht : s.places t = .popUnlocking ret) :
      Step s (.unlock t) { s.setPlace t .outside with
        mutex := none, returned := s.returned ++ [(t, .pop ret)] }

omit [DecidableEq τ] in
theorem isBlocked_iff {p : Place T} : p.isBlocked = true ↔ p = .blocked := by
  cases p <;> simp [Place.isBlocked]

variable [Fintype τ] {s s' : State τ T} {e : Event τ T}

theorem step_cases (h : step s e = some s') : Step s e s' := by
  cases e with
  | callPush t val =>
      simp only [step] at h
      split at h
      · rename_i ht
        cases h
        exact .callPush val ht
      · cases h
  | callPop t =>
      simp only [step] at h
      split at h
      · rename_i ht
        cases h
        exact .callPop ht
      · cases h
  | lock t =>
      simp only [step] at h
      split at h
      · rename_i hm ht
        cases h
        exact .lockPush hm ht
      · rename_i hm ht
        cases h
        exact .lockPop hm (.inl ht)
      · rename_i hm ht
        cases h
        exact .lockPop hm (.inr ht)
      · cases h
  | pushBack t =>
      simp only [step] at h
      split at h
      · rename_i ht
        cases h
        exact .pushBack ht
      · cases h
  | notifyOne t woken =>
      simp only [step] at h
      split at h
      · rename_i ht
        split at h
        · rename_i hu
          cases h
          exact .notifyOne ht (isBlocked_iff.mp hu)
        · cases h
      · rename_i ht
        split at h
        · rename_i hu
          cases h
          refine .notifyNobody ht fun u heq ↦ ?_
          have hno := hu u
          rw [heq] at hno
          cases hno
        · cases h
      · cases h
  | test t =>
      simp only [step] at h
      split at h
      · rename_i ht
        split at h
        · rename_i hq
          cases h
          exact .testFalse ht hq
        · rename_i hq
          cases h
          exact .testTrue ht hq
      · cases h
  | block t =>
      simp only [step] at h
      split at h
      · rename_i ht
        cases h
        exact .block ht
      · cases h
  | wake t =>
      simp only [step] at h
      split at h
      · rename_i ht
        cases h
        exact .wake ht
      · cases h
  | popFront t =>
      simp only [step] at h
      split at h
      · rename_i ret queue ht hq
        cases h
        refine .popFront ht ?_
        cases hs : s.queue with
        | nil =>
            rw [hs] at hq
            cases hq
        | cons a q =>
            rw [hs] at hq
            cases hq
            rfl
      · cases h
  | unlock t =>
      simp only [step] at h
      split at h
      · rename_i ht
        cases h
        exact .unlockPush ht
      · rename_i ht
        cases h
        exact .unlockPop ht
      · cases h

/-! ## The invariant -/

/-- The places under the lock. -/
def Place.Holds : Place T → Prop
  | .pushing _ | .notifying _ | .pushUnlocking _ => True
  | .testing | .waiting | .taking | .popUnlocking _ => True
  | .outside | .pushLocking _ | .popLocking | .blocked | .woken => False

/-- What the call has done and not yet returned. -/
def Place.pending (t : τ) : Place T → List (τ × Operation T)
  | .notifying val | .pushUnlocking val => [(t, .push val)]
  | .popUnlocking ret => [(t, .pop ret)]
  | _ => []

/-- The mutex excludes, `front` finds an element, and a thread that is about to block has
seen the queue empty. -/
structure Guarded (s : State τ T) : Prop where
  exclusive : Excludes (fun t ↦ (s.places t).Holds) s.mutex
  taking : ∀ t, s.places t = .taking → s.queue ≠ []
  waiting : ∀ t, s.places t = .waiting → s.queue = []

omit [DecidableEq τ] [Fintype τ] in
theorem guarded_construct : Guarded (State.construct τ T) where
  exclusive := fun _ ↦ iff_of_false id nofun
  taking := nofun
  waiting := nofun

omit [Fintype τ] in
/-- Where the other threads are does not change. -/
theorem holds_setPlace_of_ne (s : State τ T) {t : τ} (p : Place T) (u : τ) (hu : u ≠ t) :
    ((s.setPlace t p).places u).Holds ↔ (s.places u).Holds := by
  rw [places_setPlace_of_ne s hu]

omit [Fintype τ] in
theorem holds_setPlace (s : State τ T) (t : τ) (p : Place T) :
    ((s.setPlace t p).places t).Holds ↔ p.Holds := by
  rw [places_setPlace_self]

omit [Fintype τ] in
/-- A thread that moves without taking or releasing the mutex. -/
theorem Guarded.exclusive_setPlace (h : Guarded s) {t : τ} {p : Place T}
    (hp : p.Holds ↔ (s.places t).Holds) :
    Excludes (fun u ↦ ((s.setPlace t p).places u).Holds) s.mutex := by
  refine h.exclusive.keep fun u ↦ ?_
  by_cases hu : u = t
  · subst hu
    exact (holds_setPlace s u p).trans hp
  · exact holds_setPlace_of_ne s p u hu

omit [Fintype τ] in
/-- A thread is at a place it has just come to, or was there before. -/
theorem places_setPlace_eq {t u : τ} {p q : Place T} (h : (s.setPlace t p).places u = q) :
    (u = t ∧ p = q) ∨ s.places u = q := by
  by_cases hu : u = t
  · subst hu
    exact .inl ⟨rfl, (places_setPlace_self s u p).symm.trans h⟩
  · exact .inr ((places_setPlace_of_ne s hu p).symm.trans h)

omit [Fintype τ] in
/-- The threads that test and take stay where they are, and the queue as it is. -/
theorem Guarded.setPlace (h : Guarded s) {t : τ} {p : Place T}
    (hp : p.Holds ↔ (s.places t).Holds) (htaking : p = .taking → s.queue ≠ [])
    (hwaiting : p = .waiting → s.queue = []) : Guarded (s.setPlace t p) where
  exclusive := h.exclusive_setPlace hp
  taking u hu := by
    rcases places_setPlace_eq hu with ⟨-, heq⟩ | hold
    · exact htaking heq
    · exact h.taking u hold
  waiting u hu := by
    rcases places_setPlace_eq hu with ⟨-, heq⟩ | hold
    · exact hwaiting heq
    · exact h.waiting u hold

omit [Fintype τ] in
/-- A thread takes the mutex. -/
theorem Guarded.acquire (h : Guarded s) {t : τ} {p : Place T} (hm : s.mutex = none)
    (hp : p.Holds) (htaking : p ≠ .taking) (hwaiting : p ≠ .waiting) :
    Guarded { s.setPlace t p with mutex := some t } where
  exclusive := by
    have hfree := h.exclusive
    rw [hm] at hfree
    exact hfree.acquire ((holds_setPlace s t p).mpr hp) (holds_setPlace_of_ne s p)
  taking u hu := by
    rcases places_setPlace_eq hu with ⟨-, heq⟩ | hold
    · exact absurd heq htaking
    · exact h.taking u hold
  waiting u hu := by
    rcases places_setPlace_eq hu with ⟨-, heq⟩ | hold
    · exact absurd heq hwaiting
    · exact h.waiting u hold

omit [Fintype τ] in
/-- The owner of the mutex leaves the lock; what it leaves behind besides does not
matter. -/
theorem Guarded.release (h : Guarded s) {t : τ} {p : Place T} (ht : (s.places t).Holds)
    (hp : ¬ p.Holds) (htaking : p ≠ .taking) (hwaiting : p ≠ .waiting)
    (returned : List (τ × Operation T)) :
    Guarded { s.setPlace t p with mutex := none, returned := returned } where
  exclusive :=
    h.exclusive.release ht (fun hin ↦ hp ((holds_setPlace s t p).mp hin))
      (holds_setPlace_of_ne s p)
  taking u hu := by
    rcases places_setPlace_eq hu with ⟨-, heq⟩ | hold
    · exact absurd heq htaking
    · exact h.taking u hold
  waiting u hu := by
    rcases places_setPlace_eq hu with ⟨-, heq⟩ | hold
    · exact absurd heq hwaiting
    · exact h.waiting u hold

omit [Fintype τ] in
/-- The owner of the mutex changes the queue, which no other thread is looking at. -/
theorem Guarded.access (h : Guarded s) {t : τ} {p : Place T} (ht : (s.places t).Holds)
    (hp : p.Holds) (htaking : p ≠ .taking) (hwaiting : p ≠ .waiting) (queue : List T)
    (effects : List (τ × Operation T)) :
    Guarded { s.setPlace t p with queue := queue, effects := effects } where
  exclusive := h.exclusive_setPlace (iff_of_true hp ht)
  taking u hu := by
    rcases places_setPlace_eq hu with ⟨-, heq⟩ | hold
    · exact absurd heq htaking
    · have hut := h.exclusive.unique (t := u) (u := t) (hold ▸ trivial) ht
      subst hut
      exact absurd ((places_setPlace_self s u p).symm.trans hu) htaking
  waiting u hu := by
    rcases places_setPlace_eq hu with ⟨-, heq⟩ | hold
    · exact absurd heq hwaiting
    · have hut := h.exclusive.unique (t := u) (u := t) (hold ▸ trivial) ht
      subst hut
      exact absurd ((places_setPlace_self s u p).symm.trans hu) hwaiting

omit [Fintype τ] in
theorem Guarded.step (h : Guarded s) (hs : Step s e s') : Guarded s' := by
  cases hs with
  | callPush val ht => exact h.setPlace (by rw [ht]; exact Iff.rfl) nofun nofun
  | callPop ht => exact h.setPlace (by rw [ht]; exact Iff.rfl) nofun nofun
  | lockPush hm ht => exact h.acquire hm trivial nofun nofun
  | lockPop hm ht => exact h.acquire hm trivial nofun nofun
  | @pushBack t val ht =>
      exact h.access (p := .notifying val) (by rw [ht]; trivial) trivial nofun nofun _ _
  | @notifyOne t u val ht hu =>
      have hmoved : Guarded (s.setPlace t (.pushUnlocking val)) :=
        h.setPlace (by rw [ht]; exact Iff.rfl) nofun nofun
      have hut : u ≠ t := fun heq ↦ by
        rw [heq, ht] at hu
        cases hu
      refine hmoved.setPlace (p := .woken) ?_ nofun nofun
      rw [places_setPlace_of_ne s hut, hu]
      exact Iff.rfl
  | notifyNobody ht hu => exact h.setPlace (by rw [ht]; exact Iff.rfl) nofun nofun
  | testFalse ht hq => exact h.setPlace (by rw [ht]; exact Iff.rfl) nofun fun _ ↦ hq
  | testTrue ht hq => exact h.setPlace (by rw [ht]; exact Iff.rfl) (fun _ ↦ hq) nofun
  | block ht => exact h.release (p := .blocked) (by rw [ht]; trivial) id nofun nofun _
  | wake ht => exact h.setPlace (by rw [ht]; exact Iff.rfl) nofun nofun
  | @popFront t ret queue ht hq =>
      exact h.access (p := .popUnlocking ret) (by rw [ht]; trivial) trivial nofun nofun _ _
  | unlockPush ht => exact h.release (p := .outside) (by rw [ht]; trivial) id nofun nofun _
  | unlockPop ht => exact h.release (p := .outside) (by rw [ht]; trivial) id nofun nofun _

theorem guarded_of_run {es : List (Event τ T)} (h : run step (State.construct τ T) es = some s) :
    Guarded s :=
  run_invariant (fun _ _ _ h hs ↦ h.step (step_cases hs)) guarded_construct h

/-! ## The atomic queue -/

/-- These operations, performed one after the other on a new queue, leave this one. -/
inductive Replays : List (τ × Operation T) → List T → Prop
  | nil : Replays [] []
  | push {ops : List (τ × Operation T)} {queue : List T} (t : τ) (val : T)
      (h : Replays ops queue) : Replays (ops ++ [(t, .push val)]) (push queue val)
  | pop {ops : List (τ × Operation T)} {queue rest : List T} {ret : T} (t : τ)
      (h : Replays ops queue) (hpop : pop queue = some (ret, rest)) :
      Replays (ops ++ [(t, .pop ret)]) rest

def Operation.pushed : Operation T → Option T
  | .push val => some val
  | .pop _ => none

def Operation.popped : Operation T → Option T
  | .push _ => none
  | .pop ret => some ret

omit [DecidableEq τ] [Fintype τ] in
/-- What has been put in is what has been handed out, followed by what is left. -/
theorem Replays.fifo {ops : List (τ × Operation T)} {queue : List T} (h : Replays ops queue) :
    ops.filterMap (fun op ↦ op.2.pushed) = ops.filterMap (fun op ↦ op.2.popped) ++ queue := by
  induction h with
  | nil => rfl
  | push t val _ ih =>
      rw [List.filterMap_append, List.filterMap_append, ih, ThreadSafeQueue.push]
      show _ ++ [val] = _ ++ [] ++ _
      rw [List.append_nil, List.append_assoc]
  | @pop ops queue rest ret t _ hpop ih =>
      have hqueue : queue = ret :: rest := by
        cases queue with
        | nil => cases hpop
        | cons front queue =>
            cases hpop
            rfl
      rw [List.filterMap_append, List.filterMap_append, ih, hqueue]
      show _ ++ [] = _ ++ [ret] ++ rest
      rw [List.append_nil, List.append_assoc, List.singleton_append]

/-- The operations of one thread. -/
def ofThread (t : τ) (ops : List (τ × Operation T)) : List (τ × Operation T) :=
  ops.filter fun op ↦ op.1 = t

omit [Fintype τ] in
theorem ofThread_snoc (t u : τ) (ops : List (τ × Operation T)) (op : Operation T) :
    ofThread t (ops ++ [(u, op)]) = ofThread t ops ++ if u = t then [(u, op)] else [] := by
  rw [ofThread, List.filter_append, List.filter_singleton]
  by_cases h : u = t
  · simp [h, ofThread]
  · simp [h, ofThread]

/-- The effects are a run of the atomic queue, and the effects of a thread are the calls it has
returned from, with what the call under way has done. -/
structure Linearized (s : State τ T) : Prop where
  replays : Replays s.effects s.queue
  threads : ∀ t, ofThread t s.effects = ofThread t s.returned ++ (s.places t).pending t

omit [Fintype τ] in
/-- A step that is neither the effect nor the return of a call. -/
theorem Linearized.keep (h : Linearized s) {t : τ} {p : Place T}
    (hp : p.pending t = (s.places t).pending t) (heffects : s'.effects = s.effects)
    (hreturned : s'.returned = s.returned) (hqueue : s'.queue = s.queue)
    (hplaces : s'.places = Function.update s.places t p) : Linearized s' := by
  refine ⟨?_, fun u ↦ ?_⟩
  · rw [heffects, hqueue]
    exact h.replays
  · rw [heffects, hreturned, h.threads u, hplaces]
    by_cases hu : u = t
    · subst hu
      rw [Function.update_self, hp]
    · rw [Function.update_of_ne hu]

omit [Fintype τ] in
/-- The effect of a call. -/
theorem Linearized.effect (h : Linearized s) {t : τ} {p : Place T} {op : Operation T}
    {queue : List T} (hbefore : (s.places t).pending t = []) (hp : p.pending t = [(t, op)])
    (hreplays : Replays (s.effects ++ [(t, op)]) queue) :
    Linearized { s.setPlace t p with queue := queue, effects := s.effects ++ [(t, op)] } := by
  refine ⟨hreplays, fun u ↦ ?_⟩
  show ofThread u (s.effects ++ [(t, op)]) =
    ofThread u s.returned ++ ((s.setPlace t p).places u).pending u
  rw [ofThread_snoc, h.threads u]
  by_cases hu : u = t
  · subst hu
    rw [if_pos rfl, hbefore, List.append_nil, places_setPlace_self, hp]
  · rw [if_neg (Ne.symm hu), List.append_nil, places_setPlace_of_ne s hu]

omit [Fintype τ] in
/-- The return of a call. -/
theorem Linearized.ret (h : Linearized s) {t : τ} {op : Operation T}
    (hbefore : (s.places t).pending t = [(t, op)]) :
    Linearized { s.setPlace t .outside with
      mutex := none, returned := s.returned ++ [(t, op)] } := by
  refine ⟨h.replays, fun u ↦ ?_⟩
  show ofThread u s.effects =
    ofThread u (s.returned ++ [(t, op)]) ++ ((s.setPlace t .outside).places u).pending u
  rw [ofThread_snoc, h.threads u]
  by_cases hu : u = t
  · subst hu
    rw [if_pos rfl, hbefore, places_setPlace_self]
    exact (List.append_nil _).symm
  · rw [if_neg (Ne.symm hu), List.append_nil, places_setPlace_of_ne s hu]

omit [Fintype τ] in
theorem Linearized.step (h : Linearized s) (hs : Step s e s') : Linearized s' := by
  cases hs with
  | callPush val ht => exact h.keep (by rw [ht]; rfl) rfl rfl rfl rfl
  | callPop ht => exact h.keep (by rw [ht]; rfl) rfl rfl rfl rfl
  | lockPush hm ht => exact h.keep (by rw [ht]; rfl) rfl rfl rfl rfl
  | lockPop hm ht => exact h.keep (by rcases ht with ht | ht <;> rw [ht] <;> rfl) rfl rfl rfl rfl
  | pushBack ht => exact h.effect (by rw [ht]; rfl) rfl (.push _ _ h.replays)
  | @notifyOne t u val ht hu =>
      have hmoved : Linearized (s.setPlace t (.pushUnlocking val)) :=
        h.keep (by rw [ht]; rfl) rfl rfl rfl rfl
      have hut : u ≠ t := fun heq ↦ by
        rw [heq, ht] at hu
        cases hu
      refine hmoved.keep (p := .woken) ?_ rfl rfl rfl rfl
      rw [places_setPlace_of_ne s hut, hu]
      rfl
  | notifyNobody ht hu => exact h.keep (by rw [ht]; rfl) rfl rfl rfl rfl
  | testFalse ht hq => exact h.keep (by rw [ht]; rfl) rfl rfl rfl rfl
  | testTrue ht hq => exact h.keep (by rw [ht]; rfl) rfl rfl rfl rfl
  | block ht => exact h.keep (by rw [ht]; rfl) rfl rfl rfl rfl
  | wake ht => exact h.keep (by rw [ht]; rfl) rfl rfl rfl rfl
  | popFront ht hq =>
      refine h.effect (by rw [ht]; rfl) rfl (.pop _ h.replays ?_)
      rw [hq]
      rfl
  | unlockPush ht => exact h.ret (by rw [ht]; rfl)
  | unlockPop ht => exact h.ret (by rw [ht]; rfl)

omit [Fintype τ] in
/-- The record of the effects grows at its end. -/
theorem Step.effects (hs : Step s e s') : s.effects <+: s'.effects := by
  cases hs with
  | pushBack ht => exact List.prefix_append _ _
  | popFront ht hq => exact List.prefix_append _ _
  | _ => exact List.prefix_refl _

omit [Fintype τ] in
theorem linearized_construct : Linearized (State.construct τ T) := ⟨.nil, fun _ ↦ rfl⟩

/-- **Each call is one step of the atomic queue.**  In every run, and in every continuation
of it: the effects are a run of the atomic queue that leaves the queue there is; they are
those before the continuation and then others; each thread has had the effects of the
calls it has returned from, in order, and then at most that of the call it is in; and what
was pushed is what was popped, in order, followed by what is left. -/
theorem linearizes (before after : List (Event τ T))
    (hs : run step (State.construct τ T) before = some s) (hs' : run step s after = some s') :
    Replays s'.effects s'.queue ∧ s.effects <+: s'.effects ∧
      (∀ t, ofThread t s'.effects = ofThread t s'.returned ++ (s'.places t).pending t) ∧
      s'.effects.filterMap (fun op ↦ op.2.pushed) =
        s'.effects.filterMap (fun op ↦ op.2.popped) ++ s'.queue := by
  have hlin : ∀ {s s' : State τ T} {es}, Linearized s → run step s es = some s' →
      Linearized s' :=
    fun h hrun ↦ run_invariant (fun _ _ _ h hs ↦ h.step (step_cases hs)) h hrun
  have hend := hlin (hlin linearized_construct hs) hs'
  refine ⟨hend.replays, ?_, hend.threads, hend.replays.fifo⟩
  exact run_invariant (I := fun u : State τ T ↦ s.effects <+: u.effects)
    (fun _ _ _ h hs ↦ h.trans (step_cases hs).effects) (List.prefix_refl _) hs'

/-- A consumer blocks, a producer wakes it, and another consumer comes between. -/
theorem linearizes_overtaken :
    let es : List (Event (Fin 3) Nat) :=
      [.callPop 0, .lock 0, .test 0, .block 0, .callPush 1 7, .lock 1, .pushBack 1,
       .notifyOne 1 (some 0), .unlock 1]
    let fs : List (Event (Fin 3) Nat) :=
      [.callPop 2, .lock 2, .test 2, .popFront 2, .unlock 2, .lock 0, .test 0, .block 0]
    ∃ s s', run step (.construct (Fin 3) Nat) es = some s ∧ run step s fs = some s' ∧
      s'.returned = [(1, .push 7), (2, .pop 7)] ∧ s'.places 0 = .blocked ∧
      Replays s'.effects s'.queue := by
  intro es fs
  exact ⟨_, _, rfl, rfl, rfl, rfl, (linearizes es fs rfl rfl).1⟩

end

end AsabruCommons.ThreadPool.ThreadSafeQueue
