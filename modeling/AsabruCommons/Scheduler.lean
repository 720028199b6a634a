import AsabruCommons.GrowingVector
import Mathlib.Order.Lattice
import Mathlib.Order.Defs.LinearOrder

/-!
# The scheduler and its passes

`SimpleScheduler` keeps the tasks it is to run in a vector.  `addTask` puts one
at the end.  `start` goes over the vector again and again, until `stop` is
called: it reads the clock, and every task whose time has come by that reading
is run and erased from the vector it goes over.

`executeDue` is one such pass, for tasks whose functions return and leave the
scheduler alone: the loop with its iterator, which moves on past a task that is
not due, and stays where it is when the task there is erased.  The tasks it runs
are those that are due, and the vector it leaves has the others, each in the order
of the vector before (`executeDue_fst`, `items_executeDue`).

What the functions themselves do to a scheduler is the subject of
`AsabruCommons.Scheduler.Reentrant`.  The line that is printed for every task and
the second that is slept between passes are not modelled.
-/

namespace AsabruCommons.Scheduler

universe u v

/-- A task: its name, when it is to run, and its function. -/
structure ITask (T : Type u) (φ : Type v) where
  name : String
  time : T
  function : φ
deriving DecidableEq, Repr

/-- The members of a scheduler. -/
structure SimpleScheduler (T : Type u) (φ : Type v) where
  tasks : GrowingVector (ITask T φ)
  running : Bool

variable {T : Type u} {φ : Type v}

/-- A scheduler that was just constructed. -/
def SimpleScheduler.new : SimpleScheduler T φ := ⟨GrowingVector.empty, true⟩

def SimpleScheduler.addTask (g : Growth) (s : SimpleScheduler T φ) (name : String) (time : T)
    (func : φ) : SimpleScheduler T φ :=
  { s with tasks := s.tasks.pushBack g ⟨name, time, func⟩ }

def SimpleScheduler.stop (s : SimpleScheduler T φ) : SimpleScheduler T φ :=
  { s with running := false }

variable [LinearOrder T]

/-- The loop of one pass of `start`, from the position `it` on: the tasks it
runs, in order, and the vector it leaves. -/
def executeDue (now : T) (v : GrowingVector (ITask T φ)) (it : ℕ) :
    List (ITask T φ) × GrowingVector (ITask T φ) :=
  if h : it < v.items.length then
    if v.items[it].time ≤ now then
      -- `it = tasks.erase(it)`: the next task has moved to the same position
      let rest := executeDue now (v.erase it) it
      (v.items[it] :: rest.1, rest.2)
    else executeDue now v (it + 1)
  else ([], v)
termination_by v.items.length - it
decreasing_by
  · rw [GrowingVector.items_erase, List.length_eraseIdx_of_lt h]
    omega
  · omega

/-- One turn of the outer loop of `start`, at the clock reading `now`. -/
def SimpleScheduler.pass (now : T) (s : SimpleScheduler T φ) :
    List (ITask T φ) × SimpleScheduler T φ :=
  ((executeDue now s.tasks 0).1, { s with tasks := (executeDue now s.tasks 0).2 })

/-! ## What a pass runs and what it leaves -/

/-- **A pass runs the tasks that are due, in the order of the vector.** -/
theorem executeDue_fst (now : T) (v : GrowingVector (ITask T φ)) (it : ℕ) :
    (executeDue now v it).1 = (v.items.drop it).filter fun t ↦ t.time ≤ now := by
  fun_induction executeDue now v it with
  | case1 v it h hdue rest ih =>
      have hcons : v.items.drop it = v.items[it] :: v.items.drop (it + 1) :=
        List.drop_eq_getElem_cons h
      show v.items[it] :: rest.1 = _
      rw [hcons, List.filter_cons_of_pos (by simpa using hdue), ih,
        GrowingVector.drop_items_erase h]
  | case2 v it h hdue ih =>
      rw [ih, List.drop_eq_getElem_cons h, List.filter_cons_of_neg (by simpa using hdue)]
  | case3 v it h =>
      rw [List.drop_eq_nil_of_le (Nat.not_lt.mp h)]
      rfl

/-- **And leaves the others, in the order of the vector.** -/
theorem items_executeDue (now : T) (v : GrowingVector (ITask T φ)) (it : ℕ) :
    (executeDue now v it).2.items =
      v.items.take it ++ (v.items.drop it).filter fun t ↦ now < t.time := by
  fun_induction executeDue now v it with
  | case1 v it h hdue rest ih =>
      have hcons : v.items.drop it = v.items[it] :: v.items.drop (it + 1) :=
        List.drop_eq_getElem_cons h
      show rest.2.items = _
      rw [ih, hcons, List.filter_cons_of_neg (by simpa using hdue),
        GrowingVector.take_items_erase, GrowingVector.drop_items_erase h]
  | case2 v it h hdue ih =>
      have hcons : v.items.drop it = v.items[it] :: v.items.drop (it + 1) :=
        List.drop_eq_getElem_cons h
      rw [ih, hcons, List.filter_cons_of_pos (by simpa using hdue),
        List.take_succ_eq_append_getElem h, List.append_assoc]
      rfl
  | case3 v it h =>
      rw [List.drop_eq_nil_of_le (Nat.not_lt.mp h), List.take_of_length_le (Nat.not_lt.mp h)]
      exact (List.append_nil _).symm

end AsabruCommons.Scheduler
