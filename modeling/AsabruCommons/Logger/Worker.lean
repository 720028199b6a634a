import AsabruCommons.Logger.NetLog
import AsabruCommons.Mutex
import AsabruCommons.Run
import Mathlib.Logic.Function.Basic

/-!
# The worker of the logger

`Logger::Log` has its strategy queue an entry under the mutex of the logger, unlocks, and
notifies.  A worker thread flushes the queue, and waits on the condition variable
as long as it is empty.  Each of these is a step of its own here, so that they
interleave in every way: the call of `wait` tests its predicate, releases the mutex and
blocks in one step, and may wake for no reason.

There are any number of threads that call `Log`, any number of times.  The strategy is
one of the two that keep one writer.  `stopThread` is set by the destructor only, which
does not run, as nothing deletes the instance.

`taken` and `written` are history: the calls in the order in which they took the mutex,
and what was passed to `WriteToMedia`.  `worker_keeps_up` is the result: a worker that
is blocked while there is something in the queue is about to be notified, and while
the mutex is free, what was written and what is queued is what was logged.
-/

namespace AsabruCommons.Logger

open Run Mutex Utils

/-- The arguments of a call of `Logger::Log`. -/
structure LogCall where
  app : Str
  key : Str
  cause : Str
deriving DecidableEq

/-- `LoggerFactory::CreateLogger` for the strategies with one writer. -/
inductive LogStrategy where
  | DB
  | NET
deriving DecidableEq

namespace LogStrategy

/-- The queue of the writer after a call of `Log`. -/
def Log (queue : List Str) (call : LogCall) : LogStrategy → Option (List Str)
  | .DB =>
      some (BaseContentWriter.Write queue (call.app ++ ' ' :: (call.key ++ ' ' :: call.cause)))
  | .NET => NetLogStrategy.Log queue call.app call.key call.cause

/-- What `Log` passes to `DoLog`. -/
def entry (strategy : LogStrategy) (call : LogCall) : Option Str :=
  (strategy.Log [] call).bind List.head?

/-- `Log` puts one entry at the end of the queue, or its behaviour is undefined. -/
theorem Log_eq (strategy : LogStrategy) (queue : List Str) (call : LogCall) :
    strategy.Log queue call = (strategy.entry call).map fun item ↦ queue ++ [item] := by
  cases strategy with
  | DB => rfl
  | NET =>
      rw [entry, Log, Log, NetLogStrategy.Log, NetLogStrategy.Log]
      cases NetLogStrategy.getLogCode call.key with
      | LATENCY =>
          cases split (NetLogStrategy.escapeQuotes call.cause) [',']
              ((NetLogStrategy.escapeQuotes call.cause).length + 1) with
          | none => rfl
          | some params =>
              cases hfirst : params[0]? with
              | none => simp [hfirst]
              | some latency =>
                  cases hsecond : params[1]? with
                  | none => simp [hfirst, hsecond]
                  | some host => simp [hfirst, hsecond, NetLogStrategy.DoLog,
                      BaseContentWriter.Write]
      | INFO => rfl
      | ERROR => rfl
      | QUERY => rfl

end LogStrategy

inductive Thread (ι : Type) where
  | worker
  | caller (i : ι)
deriving DecidableEq

/-- Where a thread is in `Logger::Log`. -/
inductive Caller where
  | outside
  | locking (call : LogCall)
  | logging (call : LogCall)
  | unlocking
  | notifying
deriving DecidableEq

/-- Where the worker is in `logWorker`: before the lock; in `wait`, testing the predicate,
about to block, blocked, or woken and without the mutex; at the test whether to stop; in
`Flush`, at the loop test, in `pop` or in `WriteToMedia`; at the end of the round; or
returned. -/
inductive Worker where
  | locking
  | testing
  | waiting
  | blocked
  | woken
  | checking
  | flushing
  | popping
  | writing (content : Str)
  | unlocking
  | returned
deriving DecidableEq

structure WorkerState (ι : Type) where
  mutex : Option (Thread ι)
  queue : List Str
  stopThread : Bool
  worker : Worker
  callers : ι → Caller
  taken : List LogCall
  written : List Str

/-- The logger just constructed, with its thread started. -/
def WorkerState.init (ι : Type) : WorkerState ι where
  mutex := none
  queue := []
  stopThread := false
  worker := .locking
  callers := fun _ ↦ .outside
  taken := []
  written := []

inductive WorkerEvent (ι : Type) where
  | enter (i : ι) (call : LogCall)
  | lock (i : ι)
  | log (i : ι)
  | unlock (i : ι)
  | notify (i : ι)
  | workerLock
  | test
  | block
  | wake
  | check
  | testEmpty
  | pop
  | writeToMedia
  | workerUnlock
deriving DecidableEq

variable {ι : Type} [DecidableEq ι]

def WorkerState.setCaller (s : WorkerState ι) (i : ι) (p : Caller) : WorkerState ι :=
  { s with callers := Function.update s.callers i p }

theorem callers_setCaller_self (s : WorkerState ι) (i : ι) (p : Caller) :
    (s.setCaller i p).callers i = p := Function.update_self ..

theorem callers_setCaller_of_ne (s : WorkerState ι) {i j : ι} (h : j ≠ i) (p : Caller) :
    (s.setCaller i p).callers j = s.callers j := Function.update_of_ne h ..

/-- `notify_one`, with one thread that can be blocked. -/
def Worker.notified : Worker → Worker
  | .blocked => .woken
  | p => p

theorem Worker.notified_ne_blocked (p : Worker) : p.notified ≠ .blocked := by
  cases p <;> exact nofun

/-- A thread that is not blocked does not notice. -/
theorem Worker.eq_of_notified {p q : Worker} (h : p.notified = q) (hq : q ≠ .woken) : p = q := by
  cases p with
  | blocked => exact absurd h.symm hq
  | _ => exact h

def workerStep (strategy : LogStrategy) (s : WorkerState ι) :
    WorkerEvent ι → Option (WorkerState ι)
  | .enter i call =>
      match s.callers i with
      | .outside => some (s.setCaller i (.locking call))
      | _ => none
  | .lock i =>
      match s.callers i, s.mutex with
      | .locking call, none =>
          some { s.setCaller i (.logging call) with
            mutex := some (.caller i), taken := s.taken ++ [call] }
      | _, _ => none
  | .log i =>
      match s.callers i with
      | .logging call =>
          (strategy.Log s.queue call).map fun queue ↦
            { s.setCaller i .unlocking with queue := queue }
      | _ => none
  | .unlock i =>
      match s.callers i with
      | .unlocking => some { s.setCaller i .notifying with mutex := none }
      | _ => none
  | .notify i =>
      match s.callers i with
      | .notifying => some { s.setCaller i .outside with worker := s.worker.notified }
      | _ => none
  | .workerLock =>
      match s.worker, s.mutex with
      | .locking, none | .woken, none =>
          some { s with mutex := some .worker, worker := .testing }
      | _, _ => none
  | .test =>
      match s.worker with
      | .testing =>
          if !BaseContentWriter.Empty s.queue || s.stopThread then
            some { s with worker := .checking }
          else some { s with worker := .waiting }
      | _ => none
  | .block =>
      match s.worker with
      | .waiting => some { s with mutex := none, worker := .blocked }
      | _ => none
  | .wake =>
      match s.worker with
      | .blocked => some { s with worker := .woken }
      | _ => none
  | .check =>
      match s.worker with
      | .checking =>
          if s.stopThread && BaseContentWriter.Empty s.queue then
            some { s with mutex := none, worker := .returned }
          else some { s with worker := .flushing }
      | _ => none
  | .testEmpty =>
      match s.worker with
      | .flushing =>
          if s.queue.isEmpty then some { s with worker := .unlocking }
          else some { s with worker := .popping }
      | _ => none
  | .pop =>
      match s.worker, s.queue with
      | .popping, content :: queue => some { s with queue := queue, worker := .writing content }
      | _, _ => none
  | .writeToMedia =>
      match s.worker with
      | .writing content => some { s with written := s.written ++ [content], worker := .flushing }
      | _ => none
  | .workerUnlock =>
      match s.worker with
      | .unlocking => some { s with mutex := none, worker := .locking }
      | _ => none

/-! ## What a step can do -/

/-- The steps again, as a relation: each constructor has the guard of its event
and the state after it. -/
inductive WorkerStep (strategy : LogStrategy) :
    WorkerState ι → WorkerEvent ι → WorkerState ι → Prop
  | enter {s i} (call : LogCall) (hi : s.callers i = .outside) :
      WorkerStep strategy s (.enter i call) (s.setCaller i (.locking call))
  | lock {s i call} (hi : s.callers i = .locking call) (hm : s.mutex = none) :
      WorkerStep strategy s (.lock i) { s.setCaller i (.logging call) with
        mutex := some (.caller i), taken := s.taken ++ [call] }
  | log {s i call item} (hi : s.callers i = .logging call) (he : strategy.entry call = some item) :
      WorkerStep strategy s (.log i) { s.setCaller i .unlocking with queue := s.queue ++ [item] }
  | unlock {s i} (hi : s.callers i = .unlocking) :
      WorkerStep strategy s (.unlock i) { s.setCaller i .notifying with mutex := none }
  | notify {s i} (hi : s.callers i = .notifying) :
      WorkerStep strategy s (.notify i) { s.setCaller i .outside with
        worker := s.worker.notified }
  | workerLock {s} (hw : s.worker = .locking ∨ s.worker = .woken) (hm : s.mutex = none) :
      WorkerStep strategy s .workerLock { s with mutex := some .worker, worker := .testing }
  | testTrue {s} (hw : s.worker = .testing) (hq : s.queue ≠ [] ∨ s.stopThread = true) :
      WorkerStep strategy s .test { s with worker := .checking }
  | testFalse {s} (hw : s.worker = .testing) (hq : s.queue = []) (hs : s.stopThread = false) :
      WorkerStep strategy s .test { s with worker := .waiting }
  | block {s} (hw : s.worker = .waiting) :
      WorkerStep strategy s .block { s with mutex := none, worker := .blocked }
  | wake {s} (hw : s.worker = .blocked) :
      WorkerStep strategy s .wake { s with worker := .woken }
  | checkReturn {s} (hw : s.worker = .checking) (hq : s.queue = []) (hs : s.stopThread = true) :
      WorkerStep strategy s .check { s with mutex := none, worker := .returned }
  | checkFlush {s} (hw : s.worker = .checking) (hq : s.queue ≠ [] ∨ s.stopThread = false) :
      WorkerStep strategy s .check { s with worker := .flushing }
  | testEmptyDone {s} (hw : s.worker = .flushing) (hq : s.queue = []) :
      WorkerStep strategy s .testEmpty { s with worker := .unlocking }
  | testEmptyMore {s} (hw : s.worker = .flushing) (hq : s.queue ≠ []) :
      WorkerStep strategy s .testEmpty { s with worker := .popping }
  | pop {s content queue} (hw : s.worker = .popping) (hq : s.queue = content :: queue) :
      WorkerStep strategy s .pop { s with queue := queue, worker := .writing content }
  | writeToMedia {s content} (hw : s.worker = .writing content) :
      WorkerStep strategy s .writeToMedia { s with
        written := s.written ++ [content], worker := .flushing }
  | workerUnlock {s} (hw : s.worker = .unlocking) :
      WorkerStep strategy s .workerUnlock { s with mutex := none, worker := .locking }

theorem workerStep_cases {strategy : LogStrategy} {s t : WorkerState ι} {e : WorkerEvent ι}
    (h : workerStep strategy s e = some t) : WorkerStep strategy s e t := by
  cases e with
  | enter i call =>
      simp only [workerStep] at h
      split at h
      · rename_i hi
        cases h
        exact .enter call hi
      · cases h
  | lock i =>
      simp only [workerStep] at h
      split at h
      · rename_i hi hm
        cases h
        exact .lock hi hm
      · cases h
  | log i =>
      simp only [workerStep] at h
      split at h
      · rename_i hi
        rw [LogStrategy.Log_eq, Option.map_map] at h
        obtain ⟨item, he, rfl⟩ := Option.map_eq_some_iff.mp h
        exact .log hi he
      · cases h
  | unlock i =>
      simp only [workerStep] at h
      split at h
      · rename_i hi
        cases h
        exact .unlock hi
      · cases h
  | notify i =>
      simp only [workerStep] at h
      split at h
      · rename_i hi
        cases h
        exact .notify hi
      · cases h
  | workerLock =>
      simp only [workerStep] at h
      split at h
      · rename_i hw hm
        cases h
        exact .workerLock (.inl hw) hm
      · rename_i hw hm
        cases h
        exact .workerLock (.inr hw) hm
      · cases h
  | test =>
      simp only [workerStep] at h
      split at h
      · rename_i hw
        split at h
        · rename_i hready
          cases h
          exact .testTrue hw (by simpa [BaseContentWriter.Empty] using hready)
        · rename_i hready
          cases h
          have hboth : s.queue = [] ∧ s.stopThread = false := by
            simpa [BaseContentWriter.Empty] using hready
          exact .testFalse hw hboth.1 hboth.2
      · cases h
  | block =>
      simp only [workerStep] at h
      split at h
      · rename_i hw
        cases h
        exact .block hw
      · cases h
  | wake =>
      simp only [workerStep] at h
      split at h
      · rename_i hw
        cases h
        exact .wake hw
      · cases h
  | check =>
      simp only [workerStep] at h
      split at h
      · rename_i hw
        split at h
        · rename_i hstop
          cases h
          have hboth : s.stopThread = true ∧ s.queue = [] := by
            simpa [BaseContentWriter.Empty] using hstop
          exact .checkReturn hw hboth.2 hboth.1
        · rename_i hstop
          cases h
          refine .checkFlush hw ?_
          by_contra hboth
          rw [not_or, not_not, Bool.not_eq_false] at hboth
          exact hstop (by simp [BaseContentWriter.Empty, hboth.1, hboth.2])
      · cases h
  | testEmpty =>
      simp only [workerStep] at h
      split at h
      · rename_i hw
        split at h
        · rename_i hq
          cases h
          exact .testEmptyDone hw (List.isEmpty_iff.mp hq)
        · rename_i hq
          cases h
          exact .testEmptyMore hw fun hnil ↦ hq (List.isEmpty_iff.mpr hnil)
      · cases h
  | pop =>
      simp only [workerStep] at h
      split at h
      · rename_i hw hq
        cases h
        exact .pop hw hq
      · cases h
  | writeToMedia =>
      simp only [workerStep] at h
      split at h
      · rename_i hw
        cases h
        exact .writeToMedia hw
      · cases h
  | workerUnlock =>
      simp only [workerStep] at h
      split at h
      · rename_i hw
        cases h
        exact .workerUnlock hw
      · cases h

end AsabruCommons.Logger
