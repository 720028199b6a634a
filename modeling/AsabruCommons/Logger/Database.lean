import AsabruCommons.Logger.Collector
import AsabruCommons.Logger.DbLog

/-!
# What the database of the log executes

`Logger.Worker` has the threads that log and the worker that flushes the queue, and
`Logger.DbLog` what `DbContentWriter` has SQLite execute for one entry.  Here the worker writes
to the database, where each execution may fail; `Flush` goes on all the same.

`database_executes` is about both together.  Behind the text that creates the table, the
database is given one text for each call, in the order in which the calls took the mutex; and
whether anything but the insertion of their lines is executed depends on the calls only.
-/

namespace AsabruCommons.Logger

open Run Sql DbContentWriter

variable {ι : Type}

/-- The logger, and the database of its `DbContentWriter`. -/
structure DbLogger (ι : Type) where
  logger : WorkerState ι
  access : SQLAccess

/-- The logger just constructed, with its writer. -/
def DbLogger.init (ι : Type) (access : SQLAccess) (ok : Bool) : DbLogger ι :=
  ⟨.init ι, DbContentWriter.construct access ok⟩

/-- `write` is the call of `WriteToMedia`, with whether the execution succeeds. -/
inductive DbLogEvent (ι : Type) where
  | logger (e : WorkerEvent ι)
  | write (content : Str) (ok : Bool)

def dbLogStep [DecidableEq ι] (s : DbLogger ι) : DbLogEvent ι → Option (DbLogger ι)
  | .logger .writeToMedia => none
  | .logger e => (workerStep .DB s.logger e).map fun logger ↦ { s with logger }
  | .write content ok =>
      if s.logger.worker = .writing content then
        (workerStep .DB s.logger .writeToMedia).map fun logger ↦
          ⟨logger, (WriteToMedia content s.access ok).2⟩
      else none

/-- The line of a call. -/
def LogCall.logcontent (call : LogCall) : Str := call.app ++ ' ' :: (call.key ++ ' ' :: call.cause)

/-! ## What a step executes -/

section

variable [DecidableEq ι] {s t : DbLogger ι} {e : DbLogEvent ι} {texts : List Str}

/-- Behind the texts of before there is one for each entry that was written. -/
structure Executed (texts : List Str) (s : DbLogger ι) : Prop where
  keepsUp : KeepsUp .DB s.logger
  db : s.access.db = some (texts ++ s.logger.written.map fun content ↦ cStr (insertQuery content))

omit [DecidableEq ι] in
theorem executed_init (texts : List Str) (ok : Bool) :
    Executed (texts ++ [createQuery]) (.init ι ⟨some texts⟩ ok) where
  keepsUp := keepsUp_init
  db := by
    have hquery : cStr createQuery = createQuery := cStr_of_notMem (by decide)
    show some (texts ++ [cStr createQuery]) = some (texts ++ [createQuery] ++ [])
    rw [hquery, List.append_nil]

theorem Executed.step (h : Executed texts s) (hs : dbLogStep s e = some t) : Executed texts t := by
  cases e with
  | write content ok =>
      obtain ⟨hw, hs⟩ := Option.ite_none_right_eq_some.mp hs
      obtain ⟨logger, hlogger, rfl⟩ := Option.map_eq_some_iff.mp hs
      refine ⟨h.keepsUp.step hlogger, ?_⟩
      have hwrite : (WriteToMedia content s.access ok).2.db =
          some (texts ++ s.logger.written.map (fun content ↦ cStr (insertQuery content)) ++
            [cStr (insertQuery content)]) := by
        rw [WriteToMedia, SQLAccess.Open, h.db]
        simp only [Option.isSome_some, if_true, SQLAccess.executeQuery, h.db]
        rfl
      rw [hwrite, written_of_write hw hlogger, List.map_append, List.append_assoc]
      rfl
  | logger e =>
      by_cases he : e = .writeToMedia
      · subst he
        cases hs
      · have hmap : (workerStep .DB s.logger e).map (fun logger ↦ { s with logger }) = some t := by
          cases e with
          | writeToMedia => exact absurd rfl he
          | _ => exact hs
        obtain ⟨logger, hlogger, rfl⟩ := Option.map_eq_some_iff.mp hmap
        refine ⟨h.keepsUp.step hlogger, ?_⟩
        rw [written_of_step hlogger he]
        exact h.db

end

/-! ## Every run -/

/-- The entries that were written are the lines of the first calls. -/
theorem exists_written_calls {s : WorkerState ι} (h : InOrder .DB s) :
    ∃ calls, calls <+: s.taken ∧ s.written = calls.map LogCall.logcontent := by
  obtain ⟨done, htaken, hdone⟩ := h
  have hlines : done.map LogCall.logcontent = s.written ++ s.worker.inFlight ++ s.queue := by
    have hinj : Function.Injective (some : Str → Option Str) := Option.some_injective _
    refine hinj.list_map ?_
    rw [← hdone, List.map_map]
    rfl
  refine ⟨done.take s.written.length, ?_, ?_⟩
  · rw [htaken]
    exact (List.take_prefix _ _).trans (List.prefix_append _ _)
  · rw [List.map_take, hlines, List.append_assoc, List.take_left]

/-- **The database.**  On a database that could be opened, and for calls without zero bytes:
what is executed are the texts of some first ones of the calls, in the order in which these took
the mutex.  They are what is meant, one insertion of its line for each call and nothing else,
exactly if no single quote is in these calls.  While the mutex is free, all other calls are
queued. -/
theorem database_executes [DecidableEq ι] (texts : List Str) (created : Bool)
    (es : List (DbLogEvent ι)) (t : DbLogger ι)
    (hrun : run dbLogStep (.init ι ⟨some texts⟩ created) es = some t)
    (hnul : ∀ call ∈ t.logger.taken, '\x00' ∉ call.logcontent) :
    ∃ calls, calls <+: t.logger.taken ∧
      t.access.db =
        some (texts ++ createQuery :: calls.map fun call ↦ insertQuery call.logcontent) ∧
      ((calls.map fun call ↦ statements (insertQuery call.logcontent)) =
          calls.map (fun call ↦ [insertLogs call.logcontent]) ↔
        ∀ call ∈ calls, '\'' ∉ call.logcontent) ∧
      (t.logger.mutex = none → calls.length + t.logger.queue.length = t.logger.taken.length) := by
  have h : Executed (texts ++ [createQuery]) t :=
    run_invariant (fun _ _ _ h hs ↦ h.step hs) (executed_init texts created) hrun
  obtain ⟨calls, hbegins, hwritten⟩ := exists_written_calls h.keepsUp.inOrder
  refine ⟨calls, hbegins, ?_, ?_, fun hm ↦ ?_⟩
  · have hqueries : calls.map (fun call ↦ cStr (insertQuery call.logcontent)) =
        calls.map fun call ↦ insertQuery call.logcontent :=
      List.map_congr_left fun call hcall ↦ cStr_insertQuery (hnul call (hbegins.subset hcall))
    rw [h.db, hwritten, List.map_map, List.append_assoc, List.singleton_append]
    exact congrArg (fun queries ↦ some (texts ++ createQuery :: queries)) hqueries
  · rw [List.map_inj_left]
    exact forall₂_congr fun call _ ↦ statements_iff call.logcontent
  · obtain ⟨done, htaken, hdone⟩ := h.keepsUp.inOrder
    have hlength := congrArg List.length hdone
    rw [inFlight_of_mutex h.keepsUp.exclusive hm, List.append_nil, List.length_map, List.length_map,
      List.length_append, hwritten, List.length_map] at hlength
    rw [htaken, pending_of_mutex (.inl hm), List.append_nil, hlength]

/-- One call is written, and one with a quote is still queued. -/
def quoteRun : List (DbLogEvent Unit) :=
  let log (call : LogCall) : List (DbLogEvent Unit) :=
    [.logger (.enter () call), .logger (.lock ()), .logger (.log ()), .logger (.unlock ()),
      .logger (.notify ())]
  log ⟨['4'], ['I'], ['a', ';']⟩ ++
    [.logger .workerLock, .logger .test, .logger .check, .logger .testEmpty, .logger .pop,
      .write "4 I a;".toList false, .logger .testEmpty, .logger .workerUnlock] ++
    log ⟨['4'], ['I'], ['\'']⟩

theorem database_executes_quote :
    ∃ t, run dbLogStep (.init Unit ⟨some []⟩ true) quoteRun = some t ∧
      t.logger.taken.length = 2 ∧
      ∃ calls, calls <+: t.logger.taken ∧
        t.access.db = some (createQuery :: calls.map fun call ↦ insertQuery call.logcontent) ∧
        calls.length + 1 = 2 := by
  have hnul : ∀ call ∈ [⟨['4'], ['I'], ['a', ';']⟩, ⟨['4'], ['I'], ['\'']⟩],
      '\x00' ∉ LogCall.logcontent call := by decide
  obtain ⟨calls, hbegins, hdb, -, hrest⟩ := database_executes [] true quoteRun _ rfl hnul
  exact ⟨_, rfl, rfl, calls, hbegins, hdb, hrest rfl⟩

end AsabruCommons.Logger
