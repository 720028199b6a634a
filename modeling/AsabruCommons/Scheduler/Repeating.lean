import AsabruCommons.Scheduler.OnTime
import AsabruCommons.Scheduler.Reentrant
import AsabruCommons.Sweep

/-!
# Tasks that repeat themselves

Here `start` is taken step by step, as in `AsabruCommons.Scheduler.Reentrant`, on a new scheduler
whose tasks may add tasks; and what happens is written down, as in
`AsabruCommons.Scheduler.OnTime`.  As long as no iterator dangles, tasks that add tasks are run
once, on time and in order like all others (`repeats_once_on_time`).

A pass goes over the tasks that there were when it began and then over those which the functions
it called have added.  So it does what it would have done had these been added right before it
(`Halfway`), and that is a pass of `AsabruCommons.Scheduler.OnTime`.  In particular a task that
adds itself for a time that has come is run again in the same pass.
-/

namespace AsabruCommons.Scheduler

open Run GrowingVector Sweep

universe u v

variable {T : Type u} {φ : Type v}

/-! ## The steps of `start` -/

section Steps

variable [LinearOrder T]

/-- What the steps do, without what they need of the iterator. -/
inductive Start.Step (g : Growth) : Start T φ → Move T φ → Start T φ → Prop
  | clock {v now} :
      Step g ⟨⟨v, true⟩, .whileTest⟩ (.clock now) ⟨⟨v, true⟩, .forTest now (v.iterator 0)⟩
  | call {v running now it added t} (ht : v.items[it.index]? = some t) (hdue : t.time ≤ now) :
      Step g ⟨⟨v, running⟩, .forTest now it⟩ (.call added)
        ⟨⟨v.pushAll g added, running⟩, .erase now it⟩
  | leave {v running} : Step g ⟨⟨v, running⟩, .whileTest⟩ .next ⟨⟨v, running⟩, .left⟩
  | endPass {v running now it} (hend : it.index = v.items.length) :
      Step g ⟨⟨v, running⟩, .forTest now it⟩ .next ⟨⟨v, running⟩, .whileTest⟩
  | moveOn {v running now it t} (ht : v.items[it.index]? = some t) (hlater : now < t.time) :
      Step g ⟨⟨v, running⟩, .forTest now it⟩ .next
        ⟨⟨v, running⟩, .forTest now (v.iterator (it.index + 1))⟩
  | erase {v running now it} :
      Step g ⟨⟨v, running⟩, .erase now it⟩ .next
        ⟨⟨v.erase it.index, running⟩, .forTest now ((v.erase it.index).iterator it.index)⟩
  | addTask {s name time func} :
      Step g ⟨s, .whileTest⟩ (.addTask name time func) ⟨s.addTask g name time func, .whileTest⟩
  | stop {s point} : Step g ⟨s, point⟩ .stop ⟨s.stop, point⟩

theorem Start.step_of_eq_some {g : Growth} {s t : Start T φ} {m : Move T φ}
    (hm : Start.step g s m = some t) : Start.Step g s m t := by
  obtain ⟨⟨v, running⟩, point⟩ := s
  cases m with
  | clock now =>
      cases point with
      | whileTest =>
          obtain ⟨hrunning, hm⟩ := Option.ite_none_right_eq_some.mp hm
          obtain rfl : running = true := hrunning
          obtain rfl := Option.some.inj hm
          exact .clock
      | forTest now it => cases hm
      | erase now it => cases hm
      | left => cases hm
  | call added =>
      cases point with
      | forTest now it =>
          obtain ⟨-, hm⟩ := Option.ite_none_right_eq_some.mp hm
          obtain ⟨task, ht, hm⟩ := Option.bind_eq_some_iff.mp hm
          obtain ⟨hdue, hm⟩ := Option.ite_none_right_eq_some.mp hm
          obtain rfl := Option.some.inj hm
          exact .call ht hdue
      | whileTest => cases hm
      | erase now it => cases hm
      | left => cases hm
  | next =>
      cases point with
      | whileTest =>
          obtain ⟨-, hm⟩ := Option.ite_none_left_eq_some.mp hm
          obtain rfl := Option.some.inj hm
          exact .leave
      | forTest now it =>
          obtain ⟨-, hm⟩ := Option.ite_none_right_eq_some.mp hm
          split at hm
          · next hend =>
            obtain rfl := Option.some.inj hm
            exact .endPass hend
          · obtain ⟨task, ht, hm⟩ := Option.bind_eq_some_iff.mp hm
            obtain ⟨hlater, hm⟩ := Option.ite_none_left_eq_some.mp hm
            obtain rfl := Option.some.inj hm
            exact .moveOn ht (not_le.mp hlater)
      | erase now it =>
          obtain ⟨-, hm⟩ := Option.ite_none_right_eq_some.mp hm
          obtain rfl := Option.some.inj hm
          exact .erase
      | left => cases hm
  | addTask name time func =>
      cases point with
      | whileTest =>
          obtain rfl := Option.some.inj hm
          exact .addTask
      | forTest now it => cases hm
      | erase now it => cases hm
      | left => cases hm
  | stop =>
      obtain rfl := Option.some.inj hm
      exact .stop

end Steps

/-! ## What is written down -/

namespace Repeating

/-- A call of `start`, and what has happened to the scheduler.  Its tasks carry the numbers of
their additions. -/
structure Log (T : Type u) (φ : Type v) where
  history : History T φ
  point : Point T

namespace Log

/-- `start` is called on a new scheduler. -/
def begin : Log T φ := ⟨History.start, .whileTest⟩

def start (l : Log T φ) : Start T (ℕ × φ) := ⟨l.history.scheduler, l.point⟩

/-- The number of the pass that has begun last. -/
def pass (l : Log T φ) : ℕ := l.history.readings.length - 1

/-- The number of the task at the iterator. -/
def atIterator (l : Log T φ) : Option ℕ :=
  match l.point with
  | .forTest _ it => (l.history.scheduler.tasks.items[it.index]?).map fun t ↦ t.function.1
  | _ => none

end Log

/-- The tasks that a function adds, numbered from `n` on. -/
def numbered (n : ℕ) (added : List (ITask T φ)) : List (ITask T (ℕ × φ)) :=
  (added.zipIdx n).map fun x ↦ ⟨x.1.name, x.1.time, (x.2, x.1.function)⟩

/-- The same move, with the numbers of what is added. -/
def Log.move (l : Log T φ) : Move T φ → Move T (ℕ × φ)
  | .clock now => .clock now
  | .call added => .call (numbered l.history.added.length added)
  | .next => .next
  | .addTask name time func => .addTask name time (l.history.added.length, func)
  | .stop => .stop

/-- What is written down of a move, when `start` has come to `s`.  What a function adds is added
in the pass that calls it. -/
def Log.record (l : Log T φ) (s : Start T (ℕ × φ)) : Move T φ → Log T φ
  | .clock now =>
      ⟨{ l.history with
          scheduler := s.scheduler
          readings := l.history.readings ++ [now] }, s.point⟩
  | .call added =>
      ⟨{ l.history with
          scheduler := s.scheduler
          added := l.history.added ++ added.map fun t ↦ ⟨t, l.pass⟩
          ran := l.history.ran ++ l.atIterator.toList.map fun i ↦ (l.pass, i) }, s.point⟩
  | .addTask name time func =>
      ⟨{ l.history with
          scheduler := s.scheduler
          added := l.history.added ++ [⟨⟨name, time, func⟩, l.history.readings.length⟩] }, s.point⟩
  | .next | .stop => ⟨{ l.history with scheduler := s.scheduler }, s.point⟩

def step [LinearOrder T] (g : Growth) (l : Log T φ) (m : Move T φ) : Option (Log T φ) :=
  (Start.step g l.start (l.move m)).map fun s ↦ l.record s m

/-! ## Additions in a row -/

/-- Several tasks are added before the next pass. -/
def addAll (g : Growth) (h : History T φ) (added : List (ITask T φ)) : History T φ :=
  added.foldl (fun h t ↦ h.addTask g t.name t.time t.function) h

theorem numbered_cons (n : ℕ) (t : ITask T φ) (added : List (ITask T φ)) :
    numbered n (t :: added) = ⟨t.name, t.time, (n, t.function)⟩ :: numbered (n + 1) added := by
  rw [numbered, List.zipIdx_cons, List.map_cons]
  rfl

theorem frame_addAll (g : Growth) (h : History T φ) (added : List (ITask T φ)) :
    (addAll g h added).readings = h.readings ∧ (addAll g h added).ran = h.ran ∧
      (addAll g h added).added = h.added ++ added.map fun t ↦ ⟨t, h.readings.length⟩ := by
  induction added generalizing h with
  | nil => exact ⟨rfl, rfl, (List.append_nil _).symm⟩
  | cons t added ih =>
      obtain ⟨hreadings, hran, hadded⟩ := ih (h.addTask g t.name t.time t.function)
      refine ⟨hreadings, hran, hadded.trans ?_⟩
      rw [List.map_cons, List.append_cons]
      rfl

variable [LinearOrder T]

/-- They wait behind all others. -/
theorem kept_addAll (g : Growth) {h : History T φ} (hk : h.Kept) (added : List (ITask T φ)) :
    (addAll g h added).Kept ∧
      (addAll g h added).waiting = h.waiting ++ numbered h.added.length added := by
  induction added generalizing h with
  | nil => exact ⟨hk, (List.append_nil _).symm⟩
  | cons t added ih =>
      obtain ⟨hkept, hwaiting⟩ := ih (hk.addTask g t.name t.time t.function)
      refine ⟨hkept, hwaiting.trans ?_⟩
      have hlength : (h.addTask g t.name t.time t.function).added.length = h.added.length + 1 :=
        List.length_append
      rw [History.waiting_addTask hk, numbered_cons, hlength, List.append_assoc,
        List.singleton_append]

/-- The invariant says nothing of where the tasks are kept. -/
theorem kept_congr {h h' : History T φ} (hk : h.Kept) (hadded : h'.added = h.added)
    (hreadings : h'.readings = h.readings) (hran : h'.ran = h.ran)
    (hitems : h'.scheduler.tasks.items = h.waiting) : h'.Kept := by
  obtain ⟨scheduler, added, readings, ran⟩ := h'
  obtain rfl : added = h.added := hadded
  obtain rfl : readings = h.readings := hreadings
  obtain rfl : ran = h.ran := hran
  exact ⟨hk.known, hk.runs, hk.ordered, hitems⟩

/-! ## Halfway through a pass -/

/-- The task is not due. -/
def later (now : T) (t : ITask T (ℕ × φ)) : Bool := decide (now < t.time)

/-- The pass whose clock read `now` is at the iterator `it`.  All that its functions have added
taken as added before it, it began in the history `h`; of the tasks that waited there, `k` have
been gone over, and of the first `r` those that are due have been run. -/
structure Halfway (h : History T φ) (now : T) (k r it : ℕ) (l : History T φ) : Prop where
  kept : h.Kept
  bound : k ≤ h.waiting.length
  added : l.added = h.added
  readings : l.readings = h.readings ++ [now]
  items : l.scheduler.tasks.items = swept (later now) k h.waiting
  ran : l.ran = h.ran ++
    (erased (later now) r h.waiting).map fun t ↦ (h.readings.length, t.function.1)
  iterator : it = index (later now) k h.waiting

theorem halfway_clock {h l : History T φ} (hk : h.Kept) {now : T} (hadded : l.added = h.added)
    (hreadings : l.readings = h.readings ++ [now]) (hran : l.ran = h.ran)
    (hitems : l.scheduler.tasks.items = h.scheduler.tasks.items) : Halfway h now 0 0 0 l where
  kept := hk
  bound := Nat.zero_le _
  added := hadded
  readings := hreadings
  items := by rw [hitems, hk.waits, swept_zero]
  ran := by rw [hran, erased_zero, List.map_nil, List.append_nil]
  iterator := (index_zero _ _).symm

section

variable {h l l' : History T φ} {now : T} {k r it : ℕ} {t : ITask T (ℕ × φ)}

theorem erased_later (now : T) (tasks : List (ITask T (ℕ × φ))) :
    (tasks.filter fun t ↦ !later now t) = tasks.filter fun t ↦ t.time ≤ now := by
  refine List.filter_congr fun t _ ↦ ?_
  rw [later, ← decide_not]
  exact decide_eq_decide.mpr not_lt

/-- What has been run is the beginning of what the pass will have run. -/
theorem Halfway.ran_isPrefix (hl : Halfway h now k r it l) : l.ran <+: (h.pass now).ran := by
  rw [hl.ran, History.ran_pass hl.kept, List.prefix_append_right_inj, ← erased_later]
  exact (erased_isPrefix _ _ _).map _

/-- The iterator is at the next task that waited. -/
theorem Halfway.getElem? (hl : Halfway h now k r it l)
    (ht : l.scheduler.tasks.items[it]? = some t) : h.waiting[k]? = some t := by
  rwa [hl.items, hl.iterator, getElem?_swept] at ht

/-- **The end of the pass.**  It has done what a pass does. -/
theorem Halfway.kept_of_end (hl : Halfway h now k k it l)
    (hend : it = l.scheduler.tasks.items.length) : l.Kept := by
  rw [hl.items, hl.iterator, index_eq_length_iff hl.bound] at hend
  subst hend
  apply kept_congr (hl.kept.pass now) hl.added hl.readings
  · rw [hl.ran, History.ran_pass hl.kept, erased_length, erased_later]
  · rw [hl.items, swept_length, History.waiting_pass hl.kept]
    rfl

/-- A task that is not due stays. -/
theorem Halfway.moveOn (hl : Halfway h now k k it l)
    (ht : l.scheduler.tasks.items[it]? = some t) (hlater : now < t.time) :
    Halfway h now (k + 1) (k + 1) (it + 1) l := by
  have htask := hl.getElem? ht
  have hkeep : later now t := decide_eq_true hlater
  exact
    { hl with
      bound := lt_length htask
      items := by rw [hl.items, swept_succ_of_keep htask hkeep]
      ran := by rw [hl.ran, erased_succ_of_keep htask hkeep]
      iterator := by rw [hl.iterator, index_succ_of_keep htask hkeep] }

theorem not_later (hdue : t.time ≤ now) : ¬ later now t := by
  rw [later, decide_eq_true_eq]
  exact not_lt.mpr hdue

/-- The task at the iterator waits for the same pass when more are added before it. -/
theorem getElem?_waiting_addAll (hk : h.Kept) (htask : h.waiting[k]? = some t) (g : Growth)
    (added : List (ITask T φ)) : (addAll g h added).waiting[k]? = some t := by
  rw [(kept_addAll g hk added).2, List.getElem?_append_left (lt_length htask), htask]

/-- The function of a task that is due is called.  What it adds could have been added before the
pass. -/
theorem Halfway.call (hl : Halfway h now k k it l)
    (ht : l.scheduler.tasks.items[it]? = some t) (hdue : t.time ≤ now) (g : Growth)
    (added : List (ITask T φ))
    (hadded : l'.added = l.added ++ added.map fun a ↦ ⟨a, h.readings.length⟩)
    (hreadings : l'.readings = l.readings)
    (hran : l'.ran = l.ran ++ [(h.readings.length, t.function.1)])
    (hitems : l'.scheduler.tasks.items =
      l.scheduler.tasks.items ++ numbered l.added.length added) :
    Halfway (addAll g h added) now k (k + 1) it l' := by
  have htask := getElem?_waiting_addAll hl.kept (hl.getElem? ht) g added
  obtain ⟨hframe, hframeRan, hframeAdded⟩ := frame_addAll g h added
  obtain ⟨hkept, hwaiting⟩ := kept_addAll g hl.kept added
  refine ⟨hkept, Nat.le_of_lt (lt_length htask), ?_, ?_, ?_, ?_, ?_⟩
  · rw [hadded, hl.added, hframeAdded]
  · rw [hreadings, hl.readings, hframe]
  · rw [hitems, hl.items, hl.added, hwaiting, swept_append hl.bound]
  · rw [hran, hl.ran, hframeRan, hframe, erased_succ_of_erase htask (not_later hdue), hwaiting,
      erased_append hl.bound, List.map_append, List.append_assoc]
    rfl
  · rw [hl.iterator, hwaiting, index_append hl.bound]

/-- It is erased, and the iterator is at the next one. -/
theorem Halfway.erase (hl : Halfway h now k (k + 1) it l) (htask : h.waiting[k]? = some t)
    (hdue : t.time ≤ now) (hadded : l'.added = l.added) (hreadings : l'.readings = l.readings)
    (hran : l'.ran = l.ran)
    (hitems : l'.scheduler.tasks.items = l.scheduler.tasks.items.eraseIdx it) :
    Halfway h now (k + 1) (k + 1) it l' where
  kept := hl.kept
  bound := lt_length htask
  added := hadded.trans hl.added
  readings := hreadings.trans hl.readings
  items := by rw [hitems, hl.items, hl.iterator, eraseIdx_swept htask (not_later hdue)]
  ran := hran.trans hl.ran
  iterator := by rw [hl.iterator, index_succ_of_erase htask (not_later hdue)]

/-- A `stop` is seen after the pass. -/
theorem Halfway.stop (hl : Halfway h now k r it l) :
    Halfway h now k r it { l with scheduler := l.scheduler.stop } :=
  ⟨hl.kept, hl.bound, hl.added, hl.readings, hl.items, hl.ran, hl.iterator⟩

end

/-! ## The invariant -/

/-- Between two passes everything is as it should be, and within a pass it will be. -/
def Sound (l : Log T φ) : Prop :=
  match l.point with
  | .whileTest | .left => l.history.Kept
  | .forTest now it => ∃ h k, Halfway h now k k it.index l.history
  | .erase now it => ∃ h k t, h.waiting[k]? = some t ∧ t.time ≤ now ∧
      Halfway h now k (k + 1) it.index l.history

theorem Sound.step {g : Growth} {l l' : Log T φ} {m : Move T φ} (hl : Sound l)
    (hs : step g l m = some l') : Sound l' := by
  obtain ⟨⟨⟨v, running⟩, added, readings, ran⟩, point⟩ := l
  obtain ⟨s, hstart, rfl⟩ := Option.map_eq_some_iff.mp hs
  have hmove := Start.step_of_eq_some hstart
  cases m with
  | clock now =>
      cases hmove with
      | clock => exact ⟨_, 0, halfway_clock hl rfl rfl rfl rfl⟩
  | call tasks =>
      cases hmove with
      | @call _ _ now it _ t ht hdue =>
          obtain ⟨h, k, hhalf⟩ := hl
          have hpass : readings.length - 1 = h.readings.length := by
            have hreadings : readings = _ := hhalf.readings
            rw [hreadings, List.length_append]
            rfl
          refine ⟨addAll g h tasks, k, t, getElem?_waiting_addAll hhalf.kept (hhalf.getElem? ht) g
            tasks, hdue, hhalf.call ht hdue g tasks ?_ rfl ?_ (items_pushAll _)⟩
          · show added ++ tasks.map (fun a ↦ ⟨a, readings.length - 1⟩) = _
            rw [hpass]
          · show ran ++ ((v.items[it.index]?).map fun t ↦ t.function.1).toList.map
              (fun i ↦ (readings.length - 1, i)) = _
            rw [hpass, ht]
            rfl
  | next =>
      cases hmove with
      | leave => exact hl
      | endPass hend =>
          obtain ⟨h, k, hhalf⟩ := hl
          exact hhalf.kept_of_end hend
      | moveOn ht hlater =>
          obtain ⟨h, k, hhalf⟩ := hl
          exact ⟨h, k + 1, hhalf.moveOn ht hlater⟩
      | erase =>
          obtain ⟨h, k, t, ht, hdue, hhalf⟩ := hl
          exact ⟨h, k + 1, hhalf.erase ht hdue rfl rfl rfl rfl⟩
  | addTask name time func =>
      cases hmove with
      | addTask => exact History.Kept.addTask hl g name time func
  | stop =>
      cases hmove with
      | stop =>
          cases point with
          | whileTest | left => exact kept_congr hl rfl rfl rfl hl.waits
          | forTest now it =>
              obtain ⟨h, k, hhalf⟩ := hl
              exact ⟨h, k, hhalf.stop⟩
          | erase now it =>
              obtain ⟨h, k, t, ht, hdue, hhalf⟩ := hl
              exact ⟨h, k, t, ht, hdue, hhalf.stop⟩

/-- What was run was due, and all of it is once and in order. -/
theorem Halfway.safe {h l : History T φ} {now : T} {k r it : ℕ} (hl : Halfway h now k r it l) :
    l.done.Nodup ∧ (∀ p i, (p, i) ∈ l.ran → l.RunsIn i p) ∧ l.ran.Pairwise History.Before := by
  have hk := hl.kept.pass now
  have hbegins := hl.ran_isPrefix
  refine ⟨hk.nodup_done.sublist (hbegins.sublist.map _), fun p i hp ↦ ?_,
    hk.ordered.sublist hbegins.sublist⟩
  obtain ⟨a, ha, hfirst⟩ := (hk.runs p i).mp (hbegins.subset hp)
  exact ⟨a, by rw [hl.added]; exact ha, by rw [hl.readings]; exact hfirst⟩

/-! ## Every run -/

/-- **Tasks that repeat themselves.**  Functions may add tasks each time they are called, and
others add some between the passes; the clock reads what it will.  As far as `start` comes, with
iterators that do not dangle: no task is run twice; a task is only run in the first pass, from
the one in which it was added on, whose reading is at or behind its time; and passes run their
tasks in the order of addition.  Between two passes, and when `start` has returned, nothing is
missing either: every task was run in its pass, if there has been one, and the others are in the
vector, in the order of addition. -/
theorem repeats_once_on_time (g : Growth) (ms : List (Move T φ)) (l : Log T φ)
    (hrun : run (step g) .begin ms = some l) :
    (l.history.ran.map Prod.snd).Nodup ∧
      (∀ p i, (p, i) ∈ l.history.ran → l.history.RunsIn i p) ∧
      l.history.ran.Pairwise History.Before ∧
      (l.point = .whileTest ∨ l.point = .left →
        (∀ p i, l.history.RunsIn i p → (p, i) ∈ l.history.ran) ∧
          l.history.scheduler.tasks.items = l.history.waiting) := by
  have hbegin : Sound (.begin : Log T φ) := History.kept_start
  have hsound : Sound l := run_invariant (fun _ _ _ hl hs ↦ hl.step hs) hbegin hrun
  obtain ⟨history, point⟩ := l
  cases point with
  | whileTest | left =>
      have hk : history.Kept := hsound
      exact ⟨hk.nodup_done, fun p i ↦ (hk.runs p i).mp, hk.ordered,
        fun _ ↦ ⟨fun p i ↦ (hk.runs p i).mpr, hk.waits⟩⟩
  | forTest now it =>
      obtain ⟨h, k, hhalf⟩ := hsound
      obtain ⟨honce, hdue, horder⟩ := hhalf.safe
      exact ⟨honce, hdue, horder, fun hno ↦ by rcases hno with hno | hno <;> cases hno⟩
  | erase now it =>
      obtain ⟨h, k, t, -, -, hhalf⟩ := hsound
      obtain ⟨honce, hdue, horder⟩ := hhalf.safe
      exact ⟨honce, hdue, horder, fun hno ↦ by rcases hno with hno | hno <;> cases hno⟩

/-- Of three tasks the first adds itself again for a time that has come, and is run again in the
same pass; then it adds itself for a later time. -/
def repeatingRun : List (Move ℕ Unit) :=
  [.addTask "a" 1 (), .addTask "b" 5 (), .addTask "c" 9 (), .clock 2, .call [⟨"a", 2, ()⟩], .next,
    .next, .next, .call [⟨"a", 8, ()⟩], .next, .next, .next, .clock 8, .call [], .next, .next,
    .call [], .next, .next, .stop, .next]

theorem repeats_once_on_time_again :
    ∃ l : Log ℕ Unit, run (step .doubling) .begin repeatingRun = some l ∧
      l.history.ran = [(0, 0), (0, 3), (1, 1), (1, 4)] ∧
      (l.history.ran.map Prod.snd).Nodup ∧ (1, 4) ∈ l.history.ran ∧
      l.history.scheduler.tasks.items = l.history.waiting := by
  have hrun : run (step .doubling) (.begin : Log ℕ Unit) repeatingRun = some _ := rfl
  obtain ⟨honce, -, -, hrest⟩ := repeats_once_on_time .doubling _ _ hrun
  exact ⟨_, hrun, rfl, honce, by decide, (hrest (.inr rfl)).2⟩

end Repeating

end AsabruCommons.Scheduler
