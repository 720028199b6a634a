import AsabruCommons.Run
import AsabruCommons.Scheduler

/-!
# Tasks that add tasks

`start` holds an iterator into the vector of tasks while it calls their functions,
and a function may call `addTask`.  Here `start` is taken step by step: it tests
`running`, reads the clock, tests its iterator against the end, calls the function
of a task that is due, erases that task, or moves on.  Which tasks a function adds
is for the environment to say, each time it is called.  An iterator that the vector
has moved away from cannot be used: no step goes on from there.

The iterator is one that was moved away from exactly when some function, on its
way, has added more tasks than the vector had room for
(`iteratorNeverDangles_iff`).  Room is what is left of the capacity, and the task
that is running still takes its place.  Functions that add nothing are safe, and
`start` then makes the passes of `AsabruCommons.Scheduler` (`quiet_pass`).
-/

namespace AsabruCommons.Scheduler

open Run GrowingVector

universe u v

/-- Where `start` stands. -/
inductive Point (T : Type u) where
  /-- At `while (running)`. -/
  | whileTest
  /-- At `it != tasks.end()`. -/
  | forTest (now : T) (it : Iterator)
  /-- The function of a task has returned: at `tasks.erase(it)`. -/
  | erase (now : T) (it : Iterator)
  /-- It has returned. -/
  | left
deriving DecidableEq, Repr

/-- A scheduler and the call of `start` on it. -/
structure Start (T : Type u) (φ : Type v) where
  scheduler : SimpleScheduler T φ
  point : Point T

/-- What makes `start` go on. -/
inductive Move (T : Type u) (φ : Type v) where
  /-- The clock is read, and a pass begins. -/
  | clock (now : T)
  /-- The function of the task at the iterator is called, adds some tasks, and
  returns. -/
  | call (added : List (ITask T φ))
  /-- The loops do what comes next. -/
  | next
  /-- Someone adds a task between two passes. -/
  | addTask (name : String) (time : T) (func : φ)
  /-- Someone, or the function of a task, calls `stop`. -/
  | stop

variable {T : Type u} {φ : Type v}

namespace Start

/-- `start` is called on a scheduler with the tasks of a vector. -/
def begin (v : GrowingVector (ITask T φ)) : Start T φ := ⟨⟨v, true⟩, .whileTest⟩

/-- The vector of tasks. -/
abbrev tasks (s : Start T φ) : GrowingVector (ITask T φ) := s.scheduler.tasks

/-- Go on with another vector, at another point. -/
def goTo (s : Start T φ) (v : GrowingVector (ITask T φ)) (point : Point T) : Start T φ :=
  ⟨{ s.scheduler with tasks := v }, point⟩

/-- The iterator that `start` is about to use, if it is, is one the vector has not
moved away from. -/
def IteratorValid (s : Start T φ) : Prop :=
  match s.point with
  | .forTest _ it => it.Valid s.tasks
  | .erase _ it => it.Valid s.tasks
  | _ => True

/-- What the function of a task adds fits the room there is in the vector. -/
def Fits (s : Start T φ) : Move T φ → Prop
  | .call added => s.tasks.items.length + added.length ≤ s.tasks.capacity
  | _ => True

instance (s : Start T φ) : (m : Move T φ) → Decidable (s.Fits m)
  | .call _ => inferInstanceAs (Decidable (_ ≤ _))
  | .clock _ | .next | .addTask .. | .stop => isTrue trivial

variable [LinearOrder T]

/-- One step of `start`. -/
def step (g : Growth) (s : Start T φ) : Move T φ → Option (Start T φ)
  | .clock now =>
      match s.point with
      | .whileTest =>
          if s.scheduler.running then
            some (s.goTo s.tasks (.forTest now (s.tasks.iterator 0)))
          else none
      | _ => none
  | .call added =>
      match s.point with
      | .forTest now it =>
          if it.Valid s.tasks then
            (s.tasks.items[it.index]?).bind fun t ↦
              if t.time ≤ now then some (s.goTo (s.tasks.pushAll g added) (.erase now it))
              else none
          else none
      | _ => none
  | .next =>
      match s.point with
      | .whileTest => if s.scheduler.running then none else some (s.goTo s.tasks .left)
      | .forTest now it =>
          if it.Valid s.tasks then
            if it.index = s.tasks.items.length then some (s.goTo s.tasks .whileTest)
            else (s.tasks.items[it.index]?).bind fun t ↦
              if t.time ≤ now then none
              else some (s.goTo s.tasks (.forTest now (s.tasks.iterator (it.index + 1))))
          else none
      | .erase now it =>
          if it.Valid s.tasks then
            let v := s.tasks.erase it.index
            some (s.goTo v (.forTest now (v.iterator it.index)))
          else none
      | .left => none
  | .addTask name time func =>
      match s.point with
      | .whileTest => some { s with scheduler := s.scheduler.addTask g name time func }
      | _ => none
  | .stop => some { s with scheduler := s.scheduler.stop }

/-- Nowhere on the way does `start` come to use a dangling iterator. -/
def IteratorNeverDangles (g : Growth) (s : Start T φ) (ms : List (Move T φ)) : Prop :=
  ∀ before t, before <+: ms → run (step g) s before = some t → t.IteratorValid

/-! ## What a step does to the iterator -/

variable {g : Growth} {s t : Start T φ} {m : Move T φ} {ms : List (Move T φ)}

/-- A call finds a valid iterator, and what it adds comes into the vector; a `stop`
changes no iterator; and every other step finds a valid iterator, if it uses one,
and leaves a fresh one or none. -/
theorem step_cases (hm : step g s m = some t) :
    (∃ added now it, m = .call added ∧ s.point = .forTest now it ∧ it.Valid s.tasks ∧
        t = s.goTo (s.tasks.pushAll g added) (.erase now it)) ∨
      m = .stop ∧ t = { s with scheduler := s.scheduler.stop } ∨
      s.IteratorValid ∧ s.Fits m ∧ t.IteratorValid := by
  obtain ⟨scheduler, point⟩ := s
  cases m with
  | call added =>
      cases point with
      | forTest now it =>
          obtain ⟨hvalid, hm⟩ := Option.ite_none_right_eq_some.mp hm
          obtain ⟨task, -, hm⟩ := Option.bind_eq_some_iff.mp hm
          obtain ⟨-, hm⟩ := Option.ite_none_right_eq_some.mp hm
          exact Or.inl ⟨added, now, it, rfl, rfl, hvalid, (Option.some.inj hm).symm⟩
      | whileTest => cases hm
      | erase now it => cases hm
      | left => cases hm
  | stop => exact Or.inr (Or.inl ⟨rfl, (Option.some.inj hm).symm⟩)
  | clock now =>
      refine Or.inr (Or.inr ?_)
      cases point with
      | whileTest =>
          obtain ⟨-, hm⟩ := Option.ite_none_right_eq_some.mp hm
          obtain rfl := Option.some.inj hm
          exact ⟨trivial, trivial, valid_iterator _ _⟩
      | forTest now it => cases hm
      | erase now it => cases hm
      | left => cases hm
  | next =>
      refine Or.inr (Or.inr ?_)
      cases point with
      | whileTest =>
          obtain ⟨-, hm⟩ := Option.ite_none_left_eq_some.mp hm
          obtain rfl := Option.some.inj hm
          exact ⟨trivial, trivial, trivial⟩
      | forTest now it =>
          obtain ⟨hvalid, hm⟩ := Option.ite_none_right_eq_some.mp hm
          refine ⟨hvalid, trivial, ?_⟩
          split at hm
          · obtain rfl := Option.some.inj hm
            trivial
          · obtain ⟨task, -, hm⟩ := Option.bind_eq_some_iff.mp hm
            obtain ⟨-, hm⟩ := Option.ite_none_left_eq_some.mp hm
            obtain rfl := Option.some.inj hm
            exact valid_iterator _ _
      | erase now it =>
          obtain ⟨hvalid, hm⟩ := Option.ite_none_right_eq_some.mp hm
          obtain rfl := Option.some.inj hm
          exact ⟨hvalid, trivial, valid_iterator _ _⟩
      | left => cases hm
  | addTask name time func =>
      refine Or.inr (Or.inr ?_)
      cases point with
      | whileTest =>
          obtain rfl := Option.some.inj hm
          exact ⟨trivial, trivial, trivial⟩
      | forTest now it => cases hm
      | erase now it => cases hm
      | left => cases hm

/-- **One step.**  A call leaves the iterator valid exactly when what it adds fits;
every other step leaves it valid. -/
theorem iteratorValid_step_iff (hs : s.IteratorValid) (hm : step g s m = some t) :
    t.IteratorValid ↔ s.Fits m := by
  rcases step_cases hm with ⟨added, now, it, rfl, -, hvalid, rfl⟩ | ⟨rfl, rfl⟩ | ⟨-, hfits, ht⟩
  · exact valid_pushAll_iff hvalid added
  · exact iff_of_true hs trivial
  · exact iff_of_true ht hfits

/-- A dangling iterator stays one: only `stop` can still be called. -/
theorem not_iteratorValid_step (hs : ¬ s.IteratorValid) (hm : step g s m = some t) :
    ¬ t.IteratorValid := by
  rcases step_cases hm with ⟨added, now, it, -, hpoint, hvalid, -⟩ | ⟨-, rfl⟩ | ⟨hs', -, -⟩
  · refine absurd ?_ hs
    rw [IteratorValid, hpoint]
    exact hvalid
  · exact hs
  · exact absurd hs' hs

/-- **A whole run** ends with a valid iterator exactly when every call on the way
has fitted. -/
theorem along_fits_iff (hs : s.IteratorValid) (hrun : run (step g) s ms = some t) :
    Along (step g) Fits s ms ↔ t.IteratorValid :=
  along_iff_end (I := fun _ ↦ True) (fun _ _ _ _ _ ↦ trivial)
    (fun _ _ _ _ hs hm ↦ iteratorValid_step_iff hs hm)
    (fun _ _ _ _ hs hm ↦ not_iteratorValid_step hs hm) trivial hs hrun

/-- Where all calls fit, no iterator dangles on the way. -/
theorem iteratorNeverDangles_of_along (hs : s.IteratorValid)
    (hfits : Along (step g) Fits s ms) : IteratorNeverDangles g s ms := by
  rintro before t ⟨rest, rfl⟩ hrun
  exact (along_fits_iff hs hrun).mp (along_of_append hfits)

/-! ## Functions that add nothing -/

/-- The moves of a pass whose functions add nothing. -/
def Quiet (m : Move T φ) : Prop := m = .call [] ∨ m = .next

/-- **Functions that add nothing leave the iterator valid**, in whichever run: the
tasks of a vector fit it. -/
theorem iteratorNeverDangles_of_quiet (g : Growth) (v : GrowingVector (ITask T φ))
    (hquiet : ∀ added, Move.call added ∈ ms → added = []) :
    IteratorNeverDangles g (begin v) ms := by
  have hbegin : (begin v).IteratorValid := trivial
  refine iteratorNeverDangles_of_along hbegin (along_of_forall ?_ _)
  intro m hm s
  cases m with
  | call added =>
      obtain rfl := hquiet added hm
      exact s.tasks.fits
  | clock now => trivial
  | next => trivial
  | addTask name time func => trivial
  | stop => trivial

/-- The loop of a pass, from the position `it` on, makes the moves of `start`. -/
theorem run_executeDue (g : Growth) (running : Bool) (now : T) (v : GrowingVector (ITask T φ))
    (it : ℕ) (hit : it ≤ v.items.length) :
    ∃ ms, (∀ m ∈ ms, Quiet m) ∧
      run (step g) ⟨⟨v, running⟩, .forTest now (v.iterator it)⟩ ms =
        some ⟨⟨(executeDue now v it).2, running⟩, .whileTest⟩ := by
  fun_induction executeDue now v it with
  | case1 v it h hdue rest ih =>
      have hbound : it ≤ (v.erase it).items.length := by
        rw [items_erase, List.length_eraseIdx_of_lt h]
        exact Nat.le_sub_one_of_lt h
      obtain ⟨ms, hquiet, hrun⟩ := ih hbound
      refine ⟨.call [] :: .next :: ms, ?_, ?_⟩
      · intro m hm
        rcases List.mem_cons.mp hm with rfl | hm
        · exact Or.inl rfl
        rcases List.mem_cons.mp hm with rfl | hm
        · exact Or.inr rfl
        · exact hquiet m hm
      · have hcall : step g ⟨⟨v, running⟩, .forTest now (v.iterator it)⟩ (.call []) =
            some ⟨⟨v, running⟩, .erase now (v.iterator it)⟩ := by
          simp [step, goTo, h, hdue, pushAll]
        refine run_cons_eq_some.mpr ⟨_, hcall, run_cons_eq_some.mpr ⟨_, ?_, hrun⟩⟩
        exact if_pos rfl
  | case2 v it h hdue ih =>
      obtain ⟨ms, hquiet, hrun⟩ := ih h
      refine ⟨.next :: ms, ?_, ?_⟩
      · intro m hm
        rcases List.mem_cons.mp hm with rfl | hm
        · exact Or.inr rfl
        · exact hquiet m hm
      · have hnext : step g ⟨⟨v, running⟩, .forTest now (v.iterator it)⟩ .next =
            some ⟨⟨v, running⟩, .forTest now (v.iterator (it + 1))⟩ := by
          simp [step, goTo, h, hdue, Nat.ne_of_lt h]
        exact run_cons_eq_some.mpr ⟨_, hnext, hrun⟩
  | case3 v it h =>
      obtain rfl : it = v.items.length := Nat.le_antisymm hit (Nat.not_lt.mp h)
      refine ⟨[.next], ?_, ?_⟩
      · intro m hm
        exact Or.inr (List.mem_singleton.mp hm)
      · simp [run, step, goTo]

/-- **`start` makes the passes of the scheduler**, when the functions of its tasks
add nothing. -/
theorem quiet_pass (g : Growth) (s : SimpleScheduler T φ) (now : T) (hrunning : s.running) :
    ∃ ms, (∀ m ∈ ms, Quiet m) ∧
      run (step g) ⟨s, .whileTest⟩ (.clock now :: ms) = some ⟨(s.pass now).2, .whileTest⟩ := by
  obtain ⟨ms, hquiet, hrun⟩ := run_executeDue g s.running now s.tasks 0 (Nat.zero_le _)
  exact ⟨ms, hquiet, run_cons_eq_some.mpr ⟨_, if_pos hrunning, hrun⟩⟩

end Start

open Start

variable [LinearOrder T]

/-! ## Functions that add tasks -/

/-- **When the iterator of `start` dangles.**  For every vector of tasks and every run
on it, whichever tasks their functions add: `start` never comes to use an iterator
which a `push_back` has invalidated exactly when all that the functions add, each
time one is called, fits the room that the vector has then. -/
theorem iteratorNeverDangles_iff (g : Growth) (v : GrowingVector (ITask T φ))
    (ms : List (Move T φ)) (t : Start T φ) (hrun : run (Start.step g) (begin v) ms = some t) :
    IteratorNeverDangles g (begin v) ms ↔ Along (Start.step g) Fits (begin v) ms := by
  have hbegin : (begin v).IteratorValid := trivial
  constructor
  · intro hnever
    exact (along_fits_iff hbegin hrun).mpr (hnever ms t (List.prefix_refl ms) hrun)
  · exact iteratorNeverDangles_of_along hbegin

/-- Of two tasks in a vector with room for four, the first repeats itself. -/
theorem iteratorNeverDangles_four :
    IteratorNeverDangles .doubling
      (begin (⟨[⟨"a", 1, ()⟩, ⟨"b", 9, ()⟩], 4, 0, Nat.le.step (Nat.le.step Nat.le.refl)⟩ :
        GrowingVector (ITask ℕ Unit)))
      [.clock 3, .call [⟨"a", 5, ()⟩], .next, .next, .next, .next, .stop, .next] :=
  (iteratorNeverDangles_iff .doubling _ _ _ rfl).mpr (by decide)

/-- **A task that repeats itself.**  It is the only one there is, and the vector has
room for no other: what it adds makes the vector move. -/
theorem not_iteratorNeverDangles : ¬ ∀ (g : Growth) (v : GrowingVector (ITask ℕ Unit))
    (ms : List (Move ℕ Unit)) (t : Start ℕ Unit), run (Start.step g) (begin v) ms = some t →
      IteratorNeverDangles g (begin v) ms := by
  intro hall
  have hdangles := hall .doubling (GrowingVector.empty.pushBack .doubling ⟨"repeat", 0, ()⟩)
    [.clock 0, .call [⟨"repeat", 1, ()⟩]] _ rfl _ _ (List.prefix_refl _) rfl
  -- the vector was in its first block when the function was called, and is in its second
  have hblocks : 1 = 2 := hdangles
  exact absurd hblocks (by decide)

end AsabruCommons.Scheduler
