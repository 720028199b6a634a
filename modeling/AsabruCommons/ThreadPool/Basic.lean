import AsabruCommons.Run
import Mathlib.Logic.Function.Basic
import Mathlib.Data.Fintype.Card

/-!
# The thread pool

`ThreadPool` starts `n` threads that pop tasks from one `ThreadSafeQueue`.  A
thread runs the `Execute` tasks it pops and returns when it pops a `Stop`.  The
destructor goes through the threads in the order of their indices and, for each
of them, pushes one `Stop` and then waits for that thread to return.

`push` and `pop` hold the queue's mutex, so each is one step, and a thread in
`pop` on an empty queue has no step: it is blocked.  A task is assumed to
return, and its run is the time between two steps of its thread.

The tasks that clients push are a list fixed in advance, `toPush`, whose pushes
interleave with the steps of the threads; the destructor begins when all of
them have been made.  `executed` and `stops` are history.
-/

namespace AsabruCommons.ThreadPool

open Run

inductive TaskType where
  | Execute
  | Stop
deriving DecidableEq, Repr

/-- `task` is the stored function, which a default-constructed one lacks. -/
structure Task (Fn Param : Type) where
  type : TaskType
  task : Option Fn
  arguments : List Param
deriving DecidableEq, Repr

namespace ThreadSafeQueue

variable {T : Type}

def push (queue : List T) (val : T) : List T := queue ++ [val]

/-- `none` when the caller blocks. -/
def pop : List T → Option (T × List T)
  | [] => none
  | front :: queue => some (front, queue)

end ThreadSafeQueue

/-- Where a thread is in the loop of `make_thread_handler`. -/
inductive Worker (Fn Param : Type) where
  | popping
  | executing (elem : Task Fn Param)
  | returned
deriving DecidableEq, Repr

/-- Where the destructor is: not begun, at the loop test for `i`, in `join` of
thread `i`, or done. -/
inductive Destructor (n : Nat) where
  | notBegun
  | loop (i : Nat)
  | joining (i : Fin n)
  | returned
deriving DecidableEq, Repr

variable {Fn Param : Type} {n : Nat}

structure Pool (Fn Param : Type) (n : Nat) where
  toPush : List (Task Fn Param)
  queue : List (Task Fn Param)
  workers : Fin n → Worker Fn Param
  destructor : Destructor n
  executed : List (Task Fn Param)
  stops : Fin n → Nat

/-- The pool just constructed. -/
def Pool.construct (n : Nat) (tasks : List (Task Fn Param)) : Pool Fn Param n where
  toPush := tasks
  queue := []
  workers := fun _ ↦ .popping
  destructor := .notBegun
  executed := []
  stops := fun _ ↦ 0

def stopTask : Task Fn Param := ⟨.Stop, none, []⟩

def Pool.setWorker (s : Pool Fn Param n) (w : Fin n) (p : Worker Fn Param) : Pool Fn Param n :=
  { s with workers := Function.update s.workers w p }

theorem workers_setWorker_self (s : Pool Fn Param n) (w : Fin n) (p : Worker Fn Param) :
    (s.setWorker w p).workers w = p := Function.update_self ..

theorem workers_setWorker_of_ne (s : Pool Fn Param n) {v w : Fin n} (h : v ≠ w)
    (p : Worker Fn Param) : (s.setWorker w p).workers v = s.workers v :=
  Function.update_of_ne h ..

/-- A thread that is seen to have returned had done so before, unless it just did. -/
theorem returned_of_setWorker {s : Pool Fn Param n} {v w : Fin n} {p : Worker Fn Param}
    (hp : p ≠ .returned) (h : (s.setWorker w p).workers v = .returned) :
    s.workers v = .returned := by
  by_cases hvw : v = w
  · subst hvw
    exact absurd ((workers_setWorker_self s v p).symm.trans h) hp
  · exact (workers_setWorker_of_ne s hvw p).symm.trans h

inductive Event (n : Nat) where
  | push
  | pop (w : Fin n)
  | taskReturns (w : Fin n)
  | beginDestructor
  | pushStop
  | join
  | endDestructor
deriving DecidableEq, Repr

def step (s : Pool Fn Param n) : Event n → Option (Pool Fn Param n)
  | .push =>
      match s.toPush with
      | [] => none
      | t :: ts => some { s with toPush := ts, queue := ThreadSafeQueue.push s.queue t }
  | .pop w =>
      match s.workers w, ThreadSafeQueue.pop s.queue with
      | .popping, some (elem, queue) =>
          match elem.type with
          | .Execute => some { s.setWorker w (.executing elem) with queue := queue }
          | .Stop =>
              some { s.setWorker w .returned with
                queue := queue, stops := Function.update s.stops w (s.stops w + 1) }
      | _, _ => none
  | .taskReturns w =>
      match s.workers w with
      | .executing elem =>
          some { s.setWorker w .popping with executed := s.executed ++ [elem] }
      | _ => none
  | .beginDestructor =>
      match s.destructor, s.toPush with
      | .notBegun, [] => some { s with destructor := .loop 0 }
      | _, _ => none
  | .pushStop =>
      match s.destructor with
      | .loop i =>
          if h : i < n then
            some { s with
              queue := ThreadSafeQueue.push s.queue stopTask, destructor := .joining ⟨i, h⟩ }
          else none
      | _ => none
  | .join =>
      match s.destructor with
      | .joining i =>
          match s.workers i with
          | .returned => some { s with destructor := .loop (i + 1) }
          | _ => none
      | _ => none
  | .endDestructor =>
      match s.destructor with
      | .loop i => if i < n then none else some { s with destructor := .returned }
      | _ => none

/-! ## What a step can do -/

/-- The steps again, as a relation: each constructor has the guard of its event
and the state after it. -/
inductive Step : Pool Fn Param n → Event n → Pool Fn Param n → Prop
  | push {s : Pool Fn Param n} {t ts} (h : s.toPush = t :: ts) :
      Step s .push { s with toPush := ts, queue := s.queue ++ [t] }
  | popExecute {s : Pool Fn Param n} {w elem queue} (hw : s.workers w = .popping)
      (hq : s.queue = elem :: queue) (he : elem.type = .Execute) :
      Step s (.pop w) { s.setWorker w (.executing elem) with queue := queue }
  | popStop {s : Pool Fn Param n} {w elem queue} (hw : s.workers w = .popping)
      (hq : s.queue = elem :: queue) (he : elem.type = .Stop) :
      Step s (.pop w) { s.setWorker w .returned with
        queue := queue, stops := Function.update s.stops w (s.stops w + 1) }
  | taskReturns {s : Pool Fn Param n} {w elem} (hw : s.workers w = .executing elem) :
      Step s (.taskReturns w) { s.setWorker w .popping with executed := s.executed ++ [elem] }
  | beginDestructor {s : Pool Fn Param n} (hd : s.destructor = .notBegun) (h : s.toPush = []) :
      Step s .beginDestructor { s with destructor := .loop 0 }
  | pushStop {s : Pool Fn Param n} {i : Fin n} (hd : s.destructor = .loop i) :
      Step s .pushStop { s with queue := s.queue ++ [stopTask], destructor := .joining i }
  | join {s : Pool Fn Param n} {i : Fin n} (hd : s.destructor = .joining i)
      (hw : s.workers i = .returned) : Step s .join { s with destructor := .loop (i + 1) }
  | endDestructor {s : Pool Fn Param n} {i : Nat} (hd : s.destructor = .loop i) (hi : n ≤ i) :
      Step s .endDestructor { s with destructor := .returned }

theorem step_iff {s t : Pool Fn Param n} {e : Event n} : step s e = some t ↔ Step s e t := by
  constructor
  · intro h
    cases e with
    | push =>
        simp only [step] at h
        split at h
        · cases h
        · rename_i heq
          cases h
          exact .push heq
    | pop w =>
        simp only [step] at h
        split at h
        · rename_i elem queue hw hq
          have hq' : s.queue = elem :: queue := by
            cases hs : s.queue with
            | nil =>
                rw [hs] at hq
                cases hq
            | cons a q =>
                rw [hs] at hq
                cases hq
                rfl
          split at h
          · rename_i he
            cases h
            exact .popExecute hw hq' he
          · rename_i he
            cases h
            exact .popStop hw hq' he
        · cases h
    | taskReturns w =>
        simp only [step] at h
        split at h
        · rename_i hw
          cases h
          exact .taskReturns hw
        · cases h
    | beginDestructor =>
        simp only [step] at h
        split at h
        · rename_i hd hp
          cases h
          exact .beginDestructor hd hp
        · cases h
    | pushStop =>
        simp only [step] at h
        split at h
        · rename_i i hd
          split at h
          · rename_i hi
            cases h
            exact .pushStop (i := ⟨i, hi⟩) hd
          · cases h
        · cases h
    | join =>
        simp only [step] at h
        split at h
        · rename_i hd
          split at h
          · rename_i hw
            cases h
            exact .join hd hw
          · cases h
        · cases h
    | endDestructor =>
        simp only [step] at h
        split at h
        · rename_i hd
          split at h
          · cases h
          · rename_i hi
            cases h
            exact .endDestructor hd (Nat.le_of_not_lt hi)
        · cases h
  · intro h
    cases h with
    | push h => simp only [step, h, ThreadSafeQueue.push]
    | popExecute hw hq he => simp only [step, hw, hq, he, ThreadSafeQueue.pop]
    | popStop hw hq he => simp only [step, hw, hq, he, ThreadSafeQueue.pop]
    | taskReturns hw => simp only [step, hw]
    | beginDestructor hd h => simp only [step, hd, h]
    | @pushStop i hd => simp only [step, hd, i.isLt, ThreadSafeQueue.push, dif_pos]
    | join hd hw => simp only [step, hd, hw]
    | endDestructor hd hi => simp only [step, hd, Nat.not_lt.mpr hi, if_false]

/-! ## Counting -/

/-- The threads that have returned. -/
def Pool.returnedWorkers (s : Pool Fn Param n) : Finset (Fin n) :=
  Finset.univ.filter fun w ↦ s.workers w matches .returned

theorem mem_returnedWorkers {s : Pool Fn Param n} {w : Fin n} :
    w ∈ s.returnedWorkers ↔ s.workers w = .returned := by
  rw [Pool.returnedWorkers, Finset.mem_filter]
  cases s.workers w <;> simp

/-- The number of `Stop` tasks in a list. -/
def stopCount (tasks : List (Task Fn Param)) : Nat := tasks.countP fun t ↦ t.type = .Stop

/-- The number of `Stop` tasks the destructor has pushed. -/
def Destructor.pushed : Destructor n → Nat
  | .notBegun => 0
  | .loop i => i
  | .joining i => i + 1
  | .returned => n

/-- The threads the destructor has joined. -/
def Destructor.joined (w : Fin n) : Destructor n → Prop
  | .notBegun => False
  | .loop i => w < i
  | .joining i => w < i
  | .returned => True

end AsabruCommons.ThreadPool
