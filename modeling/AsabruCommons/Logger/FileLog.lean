import AsabruCommons.Run
import AsabruCommons.Logger.ContentWriter
import Mathlib.Algebra.Order.Group.Multiset
import Mathlib.Data.Char
import Mathlib.Data.List.Lex

/-!
# Logging to dated files

`FileLogStrategy` writes to a file that is named after the current date.  When
`DoLog` finds that the date has changed it overwrites the pointer to its content writer
by one to a new writer, for the new file.  The old writer is left behind with its queue, and
what the worker thread has not flushed yet is never flushed.

`Logger` calls `Log` and `Flush` under one mutex, so each of them is one step, and
the run of the logger is any sequence of the two.  What is logged is lost in exactly
those runs in which a call of `Log` finds another date and items in the queue
(`rollover_iff`).

The file system is the list of the records that have been appended to some file, in
the order of the writes, which are taken to succeed.
-/

namespace AsabruCommons.Logger

open Run BaseContentWriter

/-- What has been appended to which file. -/
abbrev Files := List (Str × Str)

/-- `content << "\r\n"` -/
def record (content : Str) : Str := content ++ ['\r', '\n']

/-- The writer of one log file: its file name and its queue. -/
structure FileContentWriter where
  fileName : Str
  queue : List Str
deriving DecidableEq

def FileContentWriter.WriteToMedia (fileName content : Str) (files : Files) : Bool × Files :=
  (true, files ++ [(fileName, record content)])

structure FileLogStrategy where
  fileName : Str
  wt : FileContentWriter
deriving DecidableEq

/-- The name of the log file of a day. -/
def logFileName (date : Str) : Str := "asabru-log-".toList ++ date ++ ".txt".toList

namespace FileLogStrategy

/-- Here `now` is what `getCurrentDate` returns. -/
def initFileContentWriter (now : Str) : FileLogStrategy := ⟨now, ⟨logFileName now, []⟩⟩

/-- The two dates are what the two calls of `getCurrentDate` return; the second is
made when the first returns another date than before. -/
def DoLog (lf : FileLogStrategy) (logItem now again : Str) : FileLogStrategy :=
  let lf := if lf.fileName ≠ now then initFileContentWriter again else lf
  { lf with wt := { lf.wt with queue := Write lf.wt.queue logItem } }

/-- `LogStrategy::Log` -/
def Log (lf : FileLogStrategy) (app key cause now again : Str) : FileLogStrategy :=
  lf.DoLog (app ++ ' ' :: (key ++ ' ' :: cause)) now again

end FileLogStrategy

/-- The logger, the date that `getCurrentDate` returned last, and what was logged. -/
structure State where
  lf : FileLogStrategy
  files : Files
  clock : Str
  logged : List Str
deriving DecidableEq

inductive Event where
  | log (app key cause now again : Str)
  | flush
deriving DecidableEq

/-- The logger just constructed. -/
def State.init (now : Str) : State := ⟨.initFileContentWriter now, [], now, []⟩

/-- The worker passes its wait when the queue is not empty. -/
def step (s : State) : Event → Option State
  | .log app key cause now again =>
      if s.clock ≤ now ∧ now ≤ again then
        some { s with
          lf := s.lf.Log app key cause now again
          clock := if s.lf.fileName ≠ now then again else now
          logged := s.logged ++ [app ++ ' ' :: (key ++ ' ' :: cause)] }
      else none
  | .flush =>
      if Empty s.lf.wt.queue then none
      else
        let (queue, files) :=
          Flush (FileContentWriter.WriteToMedia s.lf.wt.fileName) s.lf.wt.queue s.files
        some { s with lf := { s.lf with wt := { s.lf.wt with queue := queue } }, files := files }

/-- Each item that was logged is, once, in one of the dated files or in the queue. -/
structure NothingLost (s : State) : Prop where
  once : Multiset.ofList (s.files.map Prod.snd) + .ofList (s.lf.wt.queue.map record) =
    .ofList (s.logged.map record)
  dated : ∀ w ∈ s.files, ∃ date, w.1 = logFileName date

/-- A call of `Log` that finds another date finds an empty queue. -/
def Drained (s : State) : Event → Prop
  | .log _ _ _ now _ => s.lf.fileName ≠ now → s.lf.wt.queue = []
  | .flush => True

instance (s : State) : ∀ e : Event, Decidable (Drained s e)
  | .log _ _ _ now _ => inferInstanceAs (Decidable (s.lf.fileName ≠ now → s.lf.wt.queue = []))
  | .flush => isTrue trivial

/-! ## One step -/

/-- Every item of the queue is appended to the file of the writer. -/
theorem Flush_WriteToMedia (fileName : Str) (queue : List Str) (files : Files) :
    Flush (FileContentWriter.WriteToMedia fileName) queue files =
      ([], files ++ queue.map fun content ↦ (fileName, record content)) := by
  induction queue generalizing files with
  | nil => rw [Flush, List.map_nil, List.append_nil]
  | cons content queue ih =>
      rw [Flush, FileContentWriter.WriteToMedia, ih, List.map_cons, List.append_assoc]
      rfl

namespace FileLogStrategy

/-- On the same day the item is queued behind the others. -/
theorem DoLog_of_eq {lf : FileLogStrategy} {now : Str} (h : lf.fileName = now)
    (logItem again : Str) :
    lf.DoLog logItem now again = ⟨lf.fileName, ⟨lf.wt.fileName, lf.wt.queue ++ [logItem]⟩⟩ := by
  unfold DoLog
  rw [if_neg (not_not_intro h)]
  rfl

/-- On another day there is a new writer with a new queue. -/
theorem DoLog_of_ne {lf : FileLogStrategy} {now : Str} (h : lf.fileName ≠ now)
    (logItem again : Str) :
    lf.DoLog logItem now again = ⟨again, ⟨logFileName again, [logItem]⟩⟩ := by
  unfold DoLog
  rw [if_pos h]
  rfl

end FileLogStrategy

/-- What a step does to the writer, the files and the log. -/
theorem step_cases {s t : State} {e : Event} (hs : step s e = some t) :
    (∃ app key cause now again, e = .log app key cause now again ∧
      t.lf = s.lf.DoLog (app ++ ' ' :: (key ++ ' ' :: cause)) now again ∧ t.files = s.files ∧
        t.logged = s.logged ++ [app ++ ' ' :: (key ++ ' ' :: cause)]) ∨
      e = .flush ∧ t.lf = ⟨s.lf.fileName, ⟨s.lf.wt.fileName, []⟩⟩ ∧
        t.files = s.files ++ s.lf.wt.queue.map (fun content ↦
          (s.lf.wt.fileName, record content)) ∧ t.logged = s.logged := by
  cases e with
  | log app key cause now again =>
      rw [step, Option.ite_none_right_eq_some] at hs
      obtain rfl := Option.some.inj hs.2
      exact .inl ⟨app, key, cause, now, again, rfl, rfl, rfl, rfl⟩
  | flush =>
      rw [step, Option.ite_none_left_eq_some, Flush_WriteToMedia] at hs
      obtain rfl := Option.some.inj hs.2
      exact .inr ⟨rfl, rfl, rfl, rfl⟩

/-- What is still there, as texts of records. -/
def State.kept (s : State) : Multiset Str :=
  .ofList (s.files.map Prod.snd) + .ofList (s.lf.wt.queue.map record)

/-- What a step adds to the log. -/
def Event.added : Event → Multiset Str
  | .log app key cause _ _ => {record (app ++ ' ' :: (key ++ ' ' :: cause))}
  | .flush => 0

/-- What a step loses: the queue of the writer that is replaced. -/
def State.dropped (s : State) : Event → Multiset Str
  | .log _ _ _ now _ => if s.lf.fileName ≠ now then .ofList (s.lf.wt.queue.map record) else 0
  | .flush => 0

theorem dropped_eq_zero_iff {s : State} {e : Event} : s.dropped e = 0 ↔ Drained s e := by
  cases e with
  | log app key cause now again =>
      by_cases hdate : s.lf.fileName = now
      · simp [State.dropped, Drained, hdate]
      · simp [State.dropped, Drained, hdate]
  | flush => exact iff_of_true rfl trivial

/-- The writer is the one for the day that the strategy remembers. -/
def State.Named (s : State) : Prop := s.lf.wt.fileName = logFileName s.lf.fileName

/-- A step keeps what is there and what it adds, but for what it drops. -/
theorem kept_step {s t : State} {e : Event} (hs : step s e = some t) :
    t.kept + s.dropped e = s.kept + e.added := by
  rcases step_cases hs with ⟨app, key, cause, now, again, rfl, hlf, hfiles, -⟩ |
    ⟨rfl, hlf, hfiles, -⟩
  · by_cases hdate : s.lf.fileName = now
    · have hdropped : s.dropped (.log app key cause now again) = 0 :=
        if_neg (not_not_intro hdate)
      rw [hdropped, add_zero, State.kept, State.kept, hlf, hfiles,
        FileLogStrategy.DoLog_of_eq hdate, List.map_append, ← Multiset.coe_add, ← add_assoc]
      rfl
    · have hdropped : s.dropped (.log app key cause now again) =
          .ofList (s.lf.wt.queue.map record) := if_pos hdate
      rw [hdropped, State.kept, State.kept, hlf, hfiles, FileLogStrategy.DoLog_of_ne hdate]
      -- the new item takes the place of the old queue
      exact add_right_comm _ _ _
  · have hrecords : (s.lf.wt.queue.map fun content ↦ (s.lf.wt.fileName, record content)).map
        Prod.snd = s.lf.wt.queue.map record := by
      rw [List.map_map]
      rfl
    rw [State.kept, State.kept, hlf, hfiles, List.map_append, hrecords, ← Multiset.coe_add]
    exact congrArg (· + 0) (add_zero _)

theorem logged_step {s t : State} {e : Event} (hs : step s e = some t) :
    Multiset.ofList (t.logged.map record) = .ofList (s.logged.map record) + e.added := by
  rcases step_cases hs with ⟨app, key, cause, now, again, rfl, -, -, hlogged⟩ |
    ⟨rfl, -, -, hlogged⟩
  · rw [hlogged, List.map_append, ← Multiset.coe_add]
    rfl
  · rw [hlogged]
    exact (add_zero _).symm

/-! ## Every run -/

/-- Nothing appears that was not logged, and the files are those of some days. -/
structure Sound (s : State) : Prop where
  named : s.Named
  dated : ∀ w ∈ s.files, ∃ date, w.1 = logFileName date
  atMost : s.kept ≤ .ofList (s.logged.map record)

theorem sound_init (now : Str) : Sound (State.init now) where
  named := rfl
  dated := fun w hw ↦ by cases hw
  atMost := le_rfl

theorem Sound.step {s t : State} {e : Event} (h : Sound s) (hs : Logger.step s e = some t) :
    Sound t := by
  have hatMost : t.kept ≤ .ofList (t.logged.map record) := by
    rw [logged_step hs]
    calc t.kept ≤ t.kept + s.dropped e := Multiset.le_add_right _ _
      _ = s.kept + e.added := kept_step hs
      _ ≤ .ofList (s.logged.map record) + e.added := add_le_add_left h.atMost _
  rcases step_cases hs with ⟨app, key, cause, now, again, rfl, hlf, hfiles, -⟩ |
    ⟨rfl, hlf, hfiles, -⟩
  · refine ⟨?_, by rw [hfiles]; exact h.dated, hatMost⟩
    by_cases hdate : s.lf.fileName = now
    · rw [State.Named, hlf, FileLogStrategy.DoLog_of_eq hdate]
      exact h.named
    · rw [State.Named, hlf, FileLogStrategy.DoLog_of_ne hdate]
  · refine ⟨?_, fun w hw ↦ ?_, hatMost⟩
    · rw [State.Named, hlf]
      exact h.named
    · rw [hfiles] at hw
      rcases List.mem_append.mp hw with hw | hw
      · exact h.dated w hw
      · obtain ⟨content, -, rfl⟩ := List.mem_map.mp hw
        exact ⟨s.lf.fileName, h.named⟩

/-- **What rollover loses.**  A run of the logger loses nothing exactly when each of
its calls of `Log` that find another date find an empty queue. -/
theorem rollover_iff (now : Str) (es : List Event) (s : State)
    (hrun : run step (State.init now) es = some s) :
    Along step Drained (State.init now) es ↔ NothingLost s := by
  have hsound : Sound s := run_invariant (fun _ _ _ h hs ↦ h.step hs) (sound_init now) hrun
  have hend := along_iff_end (I := Sound) (K := fun s ↦ s.kept = .ofList (s.logged.map record))
    (P := Drained) (fun _ _ _ h hs ↦ h.step hs)
    (fun s e t _ hkept hs ↦ ?_) (fun s e t h hlost hs hkept ↦ hlost ?_) (sound_init now) rfl hrun
  · exact hend.trans ⟨fun h ↦ ⟨h, hsound.dated⟩, NothingLost.once⟩
  · rw [← dropped_eq_zero_iff, logged_step hs, ← hkept, ← kept_step hs]
    exact left_eq_add
  · apply le_antisymm h.atMost
    have hle : t.kept ≤ s.kept + e.added := (Multiset.le_add_right _ _).trans_eq (kept_step hs)
    rw [hkept, logged_step hs] at hle
    exact le_of_add_le_add_right hle

/-- An item is logged before midnight, and the next one after it. -/
def midnightRun : List Event :=
  [.log "app".toList "INFO".toList "a".toList "2024-01-01".toList "2024-01-01".toList,
   .log "app".toList "INFO".toList "b".toList "2024-01-02".toList "2024-01-02".toList, .flush]

theorem rollover_lossy :
    ∃ s, run step (State.init "2024-01-01".toList) midnightRun = some s ∧ ¬ NothingLost s := by
  refine ⟨_, rfl, fun h ↦ ?_⟩
  have hcard := congrArg Multiset.card h.once
  revert hcard
  decide

/-- The same with a flush before midnight. -/
def flushedRun : List Event :=
  [.log "app".toList "INFO".toList "a".toList "2024-01-01".toList "2024-01-01".toList, .flush,
   .log "app".toList "INFO".toList "b".toList "2024-01-02".toList "2024-01-02".toList]

theorem rollover_flushed :
    ∃ s, run step (State.init "2024-01-01".toList) flushedRun = some s ∧ NothingLost s :=
  ⟨_, rfl, (rollover_iff "2024-01-01".toList flushedRun _ rfl).mp (by decide)⟩

end AsabruCommons.Logger
