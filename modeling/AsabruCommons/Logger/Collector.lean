import AsabruCommons.Lines
import AsabruCommons.Logger.WakeUps
import AsabruCommons.Network.Delivery
import Mathlib.Data.Bool.AllAny
import Mathlib.Data.List.Forall2

/-!
# What the collector of the log reads

`Logger.Worker` has the threads that log and the worker that flushes the queue, and
`Network.Delivery` the `TcpClient`.  Here the worker writes with the client: each
`WriteToMedia` is a `sendTcpMessage`, which may fail, and then makes a new connection or throws.
Nothing in the thread of the worker catches the exception, so it ends the process.

At the other end of the connections there is a collector that reads lines.  `collector_reads`
is about all of this together: if no send is cut short, each line that is read tells one of the
calls of `Log`, in the order in which these took the mutex; and as many calls are not told as
there were new connections.
-/

namespace AsabruCommons.Logger

open Run Json Lines Network

variable {ι : Type}

/-- The logger, and the client of its `NetworkContentWriter`. -/
structure NetLogger (ι : Type) where
  logger : WorkerState ι
  client : World
  terminated : Bool

/-- The logger just constructed, with the client connected. -/
def NetLogger.init (ι : Type) : NetLogger ι := ⟨.init ι, .init, false⟩

/-- `write` is the call of `WriteToMedia`, with what the environment does in it. -/
inductive NetLogEvent (ι : Type) where
  | logger (e : WorkerEvent ι)
  | write (content : Str) (r : SendResult content.length) (re : Reconnection)

/-- The send is not cut short. -/
def NetLogEvent.Whole : NetLogEvent ι → Prop
  | .logger _ => True
  | .write content (.accepts count _ _) _ => count = content.length
  | .write _ .fails _ => True

def netLogStep [DecidableEq ι] (s : NetLogger ι) (e : NetLogEvent ι) : Option (NetLogger ι) :=
  if s.terminated then none
  else
    match e with
    | .logger .writeToMedia => none
    | .logger e => (workerStep .NET s.logger e).map fun logger ↦ { s with logger }
    | .write content r re =>
        if s.logger.worker = .writing content then
          match NetworkContentWriter.WriteToMedia s.client content r re with
          | (.error _, client) => some { s with client, terminated := true }
          | (.ok _, client) =>
              (workerStep .NET s.logger .writeToMedia).map fun logger ↦ { s with logger, client }
        else none

/-- The lines that have arrived, on one connection after the other. -/
def NetLogger.received (s : NetLogger ι) : List Str :=
  (List.range s.client.net.next).flatMap fun i ↦ lines '\n' (s.client.net.accepted i)

/-- How often the client has connected again. -/
def NetLogger.reconnections (s : NetLogger ι) : Nat := s.client.net.next - 1

/-- The line is a JSON object with the members that the record of the call should have. -/
def Tells (line : Str) (call : LogCall) : Prop :=
  ∃ members ms, NetLogStrategy.expected call.app call.key call.cause = some members ∧
    IsText line (.object ms) ∧ ∀ p ∈ members, HasMember ms p.1 p.2

/-! ## One call of `Log` -/

theorem records_of_recordable {app key cause : Str}
    (h : NetLogStrategy.Recordable app key cause) : NetLogStrategy.Records [] app key cause := by
  unfold NetLogStrategy.Recordable at h
  split at h
  · rename_i hkey
    exact (NetLogStrategy.records_query hkey).mpr h
  · rename_i hkey
    exact (NetLogStrategy.records_latency hkey).mpr h
  · rename_i hquery hlatency
    exact (NetLogStrategy.records_application hquery hlatency).mpr h

/-- The entry of a call is one line, and it tells the call. -/
theorem tells_of_entry {call : LogCall}
    (h : NetLogStrategy.Recordable call.app call.key call.cause) {item : Str}
    (hitem : LogStrategy.NET.entry call = some item) :
    ∃ line, item = line ++ ['\n'] ∧ '\n' ∉ line ∧ Tells line call := by
  obtain ⟨item', members, hlog, hmembers, line, ms, rfl, hline, htext, hms⟩ :=
    records_of_recordable h
  have hentry : LogStrategy.NET.entry call = some (line ++ ['\n']) := by
    show (NetLogStrategy.Log [] _ _ _).bind _ = _
    rw [hlog]
    rfl
  obtain rfl := Option.some.inj (hentry.symm.trans hitem)
  exact ⟨line, rfl, hline, members, ms, hmembers, htext, hms⟩

/-! ## One call of `WriteToMedia` -/

/-- The content is sent whole, or there is a new connection, or the process ends. -/
theorem writeToMedia_cases {w : World} {i : Nat} (hw : w.s_ = some i) {content : Str}
    {r : SendResult content.length} (re : Reconnection)
    (hwhole : (NetLogEvent.write (ι := ι) content r re).Whole) :
    NetworkContentWriter.WriteToMedia w content r re =
        (.ok true, ⟨w.net.append i content, some i⟩) ∨
      NetworkContentWriter.WriteToMedia w content r re =
        (.ok true, ⟨{ w.net with next := w.net.next + 1 }, some w.net.next⟩) ∨
      ∃ error,
        NetworkContentWriter.WriteToMedia w content r re = (.error error, ⟨w.net, none⟩) := by
  rw [NetworkContentWriter.WriteToMedia_eq]
  cases r with
  | accepts count hle hpos =>
      obtain rfl : count = content.length := hwhole
      left
      unfold TcpClient.sendTcpMessage send
      rw [hw]
      simp only [List.take_length]
      exact if_neg (by omega)
  | fails =>
      right
      unfold TcpClient.sendTcpMessage send
      rw [hw]
      cases re with
      | noSocket => exact .inr ⟨_, rfl⟩
      | refused error => exact .inr ⟨_, rfl⟩
      | connected => exact .inl rfl

/-! ## What a step can do -/

section

variable [DecidableEq ι] {s t : NetLogger ι} {e : NetLogEvent ι}

/-- The steps: one of the logger that writes nothing, and one that writes or ends the process. -/
inductive NetLogStep : NetLogger ι → NetLogEvent ι → NetLogger ι → Prop
  | logger {s : NetLogger ι} {e logger} (he : e ≠ .writeToMedia)
      (hs : workerStep .NET s.logger e = some logger) : NetLogStep s (.logger e) { s with logger }
  | write {s : NetLogger ι} {content} {r : SendResult content.length} {re ok logger client}
      (hw : s.logger.worker = .writing content) (hlive : s.terminated = false)
      (hsend : NetworkContentWriter.WriteToMedia s.client content r re = (.ok ok, client))
      (hs : workerStep .NET s.logger .writeToMedia = some logger) :
      NetLogStep s (.write content r re) { s with logger, client }
  | terminate {s : NetLogger ι} {content} {r : SendResult content.length} {re error client}
      (hlive : s.terminated = false)
      (hsend : NetworkContentWriter.WriteToMedia s.client content r re = (.error error, client)) :
      NetLogStep s (.write content r re) { s with client, terminated := true }

theorem netLogStep_cases (h : netLogStep s e = some t) : NetLogStep s e t := by
  unfold netLogStep at h
  split at h
  · cases h
  · rename_i hlive
    rw [Bool.not_eq_true] at hlive
    split at h
    · cases h
    · rename_i e he
      obtain ⟨logger, hs, rfl⟩ := Option.map_eq_some_iff.mp h
      exact .logger (fun heq ↦ he heq) hs
    · split at h
      · rename_i hw
        split at h
        · rename_i hsend
          cases h
          exact .terminate hlive hsend
        · rename_i hsend
          obtain ⟨logger, hs, rfl⟩ := Option.map_eq_some_iff.mp h
          exact .write hw hlive hsend hs
      · cases h

/-- No other step of the logger writes. -/
theorem written_of_step {s t : WorkerState ι} {e : WorkerEvent ι} {strategy : LogStrategy}
    (hs : workerStep strategy s e = some t) (he : e ≠ .writeToMedia) : t.written = s.written := by
  cases workerStep_cases hs with
  | writeToMedia hw => exact absurd rfl he
  | _ => rfl

theorem written_of_write {s t : WorkerState ι} {content : Str} {strategy : LogStrategy}
    (hw : s.worker = .writing content) (hs : workerStep strategy s .writeToMedia = some t) :
    t.written = s.written ++ [content] := by
  cases workerStep_cases hs with
  | writeToMedia hw' =>
      rw [hw] at hw'
      cases hw'
      rfl

/-! ## What the connections have accepted -/

/-- What was sent whole on the connections, one after the other. -/
def sentOn (items : Nat → List Str) (next : Nat) : List Str := (List.range next).flatMap items

theorem sentOn_succ (items : Nat → List Str) (i : Nat) :
    sentOn items (i + 1) = sentOn items i ++ items i := by
  rw [sentOn, List.range_succ, List.flatMap_append, List.flatMap_singleton]
  rfl

/-- More is sent on the last connection. -/
theorem sentOn_update (items : Nat → List Str) (i : Nat) (content : Str) :
    sentOn (Function.update items i (items i ++ [content])) (i + 1) =
      sentOn items (i + 1) ++ [content] := by
  rw [sentOn_succ, sentOn_succ, Function.update_self, List.append_assoc]
  refine congrArg (· ++ _) (List.flatMap_congr fun j hj ↦ ?_)
  exact Function.update_of_ne (Nat.ne_of_lt (List.mem_range.mp hj)) ..

/-- What was written was sent on some connection or, once for each but the first connection,
lost; while the process lives it has the last connection. -/
structure Received (items : Nat → List Str) (s : NetLogger ι) : Prop where
  accepted : ∀ i, s.client.net.accepted i = (items i).flatten
  sublist : (sentOn items s.client.net.next).Sublist s.logger.written
  count : (sentOn items s.client.net.next).length + s.client.net.next =
    s.logger.written.length + 1
  pos : 0 < s.client.net.next
  unused : ∀ i, s.client.net.next ≤ i → items i = []
  connected : s.terminated = false → ∃ i, s.client.s_ = some i ∧ s.client.net.next = i + 1

omit [DecidableEq ι] in
theorem received_init : Received (fun _ ↦ []) (.init ι) where
  accepted := fun _ ↦ rfl
  sublist := List.Sublist.refl []
  count := rfl
  pos := Nat.one_pos
  unused := fun _ _ ↦ rfl
  connected := fun _ ↦ ⟨0, rfl, rfl⟩

theorem Received.step {items : Nat → List Str} (h : Received items s) (hs : NetLogStep s e t)
    (hwhole : e.Whole) : ∃ items', Received items' t := by
  cases hs with
  | logger he hs =>
      have hwritten := written_of_step hs he
      refine ⟨items, h.accepted, ?_, ?_, h.pos, h.unused, h.connected⟩
      · rw [hwritten]
        exact h.sublist
      · rw [hwritten]
        exact h.count
  | @write content r re ok logger client hw hlive hsend hs =>
      have hwritten := written_of_write hw hs
      obtain ⟨i, hi, hnext⟩ := h.connected hlive
      rcases writeToMedia_cases hi re hwhole with hcall | hcall | ⟨error, hcall⟩
      · cases hsend.symm.trans hcall
        have hsent : sentOn (Function.update items i (items i ++ [content])) s.client.net.next =
            sentOn items s.client.net.next ++ [content] := by
          rw [hnext, sentOn_update]
        refine ⟨Function.update items i (items i ++ [content]), fun j ↦ ?_, ?_, ?_, h.pos,
          fun j hj ↦ ?_, fun _ ↦ ⟨i, rfl, hnext⟩⟩
        · by_cases hj : j = i
          · subst hj
            rw [append_accepted_self, Function.update_self, List.flatten_append, h.accepted,
              List.flatten_singleton]
          · rw [Function.update_of_ne hj, ← h.accepted]
            exact Function.update_of_ne hj ..
        · show (sentOn _ s.client.net.next).Sublist _
          rw [hsent, hwritten]
          exact h.sublist.append_right [content]
        · show (sentOn _ s.client.net.next).length + s.client.net.next = _
          rw [hsent, hwritten, List.length_append, List.length_append, List.length_singleton,
            Nat.add_right_comm, h.count]
        · have hji : j ≠ i := fun heq ↦ by
            subst heq
            exact absurd (hnext.symm.trans_le hj) (Nat.not_succ_le_self j)
          rw [Function.update_of_ne hji]
          exact h.unused j hj
      · cases hsend.symm.trans hcall
        have hsent : sentOn items (s.client.net.next + 1) = sentOn items s.client.net.next := by
          rw [sentOn_succ, h.unused _ (Nat.le_refl _), List.append_nil]
        refine ⟨items, h.accepted, ?_, ?_, Nat.succ_pos _, fun j hj ↦ ?_, fun _ ↦ ⟨_, rfl, rfl⟩⟩
        · show (sentOn items (s.client.net.next + 1)).Sublist _
          rw [hsent, hwritten]
          exact h.sublist.trans (List.sublist_append_left _ _)
        · show (sentOn items (s.client.net.next + 1)).length + (s.client.net.next + 1) = _
          rw [hsent, hwritten, List.length_append, ← Nat.add_assoc, h.count]
          rfl
        · exact h.unused j (Nat.le_of_succ_le hj)
      · cases hsend.symm.trans hcall
  | @terminate content r re error client hlive hsend =>
      obtain ⟨i, hi, hnext⟩ := h.connected hlive
      rcases writeToMedia_cases hi re hwhole with hcall | hcall | ⟨error, hcall⟩
      · cases hsend.symm.trans hcall
      · cases hsend.symm.trans hcall
      · cases hsend.symm.trans hcall
        exact ⟨items, h.accepted, h.sublist, h.count, h.pos, h.unused, nofun⟩

/-- The invariants of the logger, and that of the client. -/
def Collects (s : NetLogger ι) : Prop :=
  KeepsUp .NET s.logger ∧ ∃ items, Received items s

theorem Collects.step (h : Collects s) (hwhole : e.Whole) (hs : NetLogStep s e t) :
    Collects t := by
  obtain ⟨hkeeps, items, hitems⟩ := h
  refine ⟨?_, hitems.step hs hwhole⟩
  cases hs with
  | logger he hs => exact hkeeps.step hs
  | write hw hlive hsend hs => exact hkeeps.step hs
  | terminate hlive hsend => exact hkeeps

theorem collects_of_run {es : List (NetLogEvent ι)} (hrun : run netLogStep (.init ι) es = some t)
    (hwhole : ∀ e ∈ es, e.Whole) : Collects t :=
  run_invariant_along (I := Collects) (G := fun _ e ↦ e.Whole) (fun _ _ _ h hG hs ↦
      h.step hG (netLogStep_cases hs))
    ⟨keepsUp_init, _, received_init⟩ (along_of_forall (fun e he _ ↦ hwhole e he) _) hrun

end

/-! ## Reading the lines -/

/-- The lines are those that were sent. -/
theorem Received.lines_eq {items : Nat → List Str} {s : NetLogger ι} (h : Received items s)
    (hlines : ∀ item ∈ sentOn items s.client.net.next,
      ∃ line, item = line ++ ['\n'] ∧ '\n' ∉ line) :
    s.received = (sentOn items s.client.net.next).map List.dropLast := by
  rw [NetLogger.received, sentOn, List.map_flatMap]
  refine List.flatMap_congr fun i hi ↦ ?_
  rw [h.accepted]
  exact lines_flatten fun item hitem ↦ hlines item (List.mem_flatMap.mpr ⟨i, hi, hitem⟩)

/-- The entries that were sent are those of some of the calls. -/
theorem entries_of_sublist {items written rest : List Str} {done : List LogCall}
    (hsub : items.Sublist written)
    (hdone : done.map LogStrategy.NET.entry = (written ++ rest).map some) :
    ∃ calls, calls.Sublist done ∧
      List.Forall₂ (fun item call ↦ LogStrategy.NET.entry call = some item) items calls := by
  have hall : (items.map some).Sublist (done.map LogStrategy.NET.entry) := by
    rw [hdone]
    exact (hsub.trans (List.sublist_append_left _ _)).map some
  obtain ⟨calls, hcalls, heq⟩ := List.sublist_map_iff.mp hall
  refine ⟨calls, hcalls, ?_⟩
  have hforall : List.Forall₂ (· = ·) (items.map some) (calls.map LogStrategy.NET.entry) :=
    List.forall₂_eq_eq_eq ▸ heq
  rw [List.forall₂_map_left_iff, List.forall₂_map_right_iff] at hforall
  exact hforall.imp fun _ _ h ↦ h.symm

/-- Each of the entries is one line, which tells its call. -/
theorem tells_of_entries {items : List Str} {calls : List LogCall}
    (h : List.Forall₂ (fun item call ↦ LogStrategy.NET.entry call = some item) items calls)
    (hcalls : ∀ call ∈ calls, NetLogStrategy.Recordable call.app call.key call.cause) :
    (∀ item ∈ items, ∃ line, item = line ++ ['\n'] ∧ '\n' ∉ line) ∧
      List.Forall₂ Tells (items.map List.dropLast) calls := by
  induction h with
  | nil => exact ⟨fun _ hitem ↦ absurd hitem List.not_mem_nil, .nil⟩
  | @cons item call items calls hitem _ ih =>
      rw [List.forall_mem_cons] at hcalls
      obtain ⟨line, rfl, hline, htells⟩ := tells_of_entry hcalls.1 hitem
      obtain ⟨hlines, hall⟩ := ih hcalls.2
      refine ⟨List.forall_mem_cons.mpr ⟨⟨line, rfl, hline⟩, hlines⟩, ?_⟩
      rw [List.map_cons, List.dropLast_concat]
      exact .cons htells hall

section

variable [DecidableEq ι] {t : NetLogger ι}

omit [DecidableEq ι] in
/-- While the mutex is free the worker is not writing. -/
theorem inFlight_of_mutex {s : WorkerState ι} (h : Exclusive s) (hm : s.mutex = none) :
    s.worker.inFlight = [] := by
  cases hw : s.worker with
  | writing content =>
      have hown : s.Holds .worker := by
        show s.worker.Holds
        rw [hw]
        trivial
      cases hm.symm.trans ((h .worker).mp hown)
  | _ => rfl

/-- **The collector.**  If no send is cut short, each line that the collector reads tells one of
the calls, in the order in which they took the mutex.  The lines that it does not read are as
many as the client has connected again; while the mutex is free, all others of the calls are
told or still in the queue. -/
theorem collector_reads (es : List (NetLogEvent ι)) (t : NetLogger ι)
    (hrun : run netLogStep (.init ι) es = some t) (hwhole : ∀ e ∈ es, e.Whole)
    (hcalls : ∀ call ∈ t.logger.taken, NetLogStrategy.Recordable call.app call.key call.cause) :
    List.SublistForall₂ Tells t.received t.logger.taken ∧
      t.received.length + t.reconnections = t.logger.written.length ∧
      (t.logger.mutex = none →
        t.received.length + t.reconnections + t.logger.queue.length = t.logger.taken.length) := by
  obtain ⟨hkeeps, items, hitems⟩ := collects_of_run hrun hwhole
  obtain ⟨done, htaken, hdone⟩ := hkeeps.inOrder
  rw [List.append_assoc] at hdone
  obtain ⟨calls, hsub, hentries⟩ := entries_of_sublist hitems.sublist hdone
  have htold : calls.Sublist t.logger.taken := by
    rw [htaken]
    exact hsub.trans (List.sublist_append_left _ _)
  obtain ⟨hlines, htells⟩ := tells_of_entries hentries fun call h ↦ hcalls call (htold.subset h)
  have hreceived := hitems.lines_eq hlines
  have hcount : t.received.length + t.reconnections = t.logger.written.length := by
    have hsent := hitems.count
    have hpos := hitems.pos
    rw [hreceived, List.length_map, NetLogger.reconnections]
    omega
  refine ⟨?_, hcount, fun hm ↦ ?_⟩
  · rw [hreceived]
    exact List.sublistForall₂_iff.mpr ⟨calls, htells, htold⟩
  · have hlength := congrArg List.length hdone
    rw [inFlight_of_mutex hkeeps.exclusive hm, List.nil_append, List.length_map, List.length_map,
      List.length_append] at hlength
    rw [hcount, htaken, pending_of_mutex (.inl hm), List.append_nil, hlength]

/-- A query and its latency. -/
def queryCall : LogCall := ⟨"42".toList, "QUERY".toList, "SELECT \"a\"".toList⟩

def latencyCall : LogCall := ⟨"42".toList, "LATENCY".toList, "7,10.0.0.1".toList⟩

/-- The send of the first is answered with an error, and that of the second is not. -/
def reconnectedRun : List (NetLogEvent Unit) :=
  let log (call : LogCall) : List (NetLogEvent Unit) :=
    [.logger (.enter () call), .logger (.lock ()), .logger (.log ()), .logger (.unlock ()),
      .logger (.notify ())]
  let pop : List (NetLogEvent Unit) :=
    [.logger .workerLock, .logger .test, .logger .check, .logger .testEmpty, .logger .pop]
  let item (call : LogCall) : Str := (LogStrategy.NET.entry call).getD []
  log queryCall ++ pop ++ [.write (item queryCall) .fails .connected, .logger .testEmpty,
      .logger .workerUnlock] ++
    log latencyCall ++ pop ++ [.write (item latencyCall) (.accepts _ (Nat.le_refl _) id) .noSocket,
      .logger .testEmpty, .logger .workerUnlock]

theorem collector_reads_reconnected :
    ∃ t, run netLogStep (.init Unit) reconnectedRun = some t ∧
      t.logger.taken = [queryCall, latencyCall] ∧
      List.SublistForall₂ Tells t.received t.logger.taken ∧
      t.received.length + t.reconnections = 2 := by
  have hwhole : ∀ e ∈ reconnectedRun, e.Whole := by
    simp [reconnectedRun, NetLogEvent.Whole]
  have hcalls : ∀ call ∈ [queryCall, latencyCall],
      NetLogStrategy.Recordable call.app call.key call.cause := by
    refine List.forall_mem_cons.mpr ⟨?_, List.forall_mem_singleton.mpr ?_⟩
    · exact ⟨⟨List.all_iff_forall_prop.mp rfl, by decide⟩,
        ⟨List.all_iff_forall_prop.mp rfl, by decide⟩⟩
    · exact ⟨"7".toList, "10.0.0.1".toList, [], rfl,
        ⟨List.all_iff_forall_prop.mp rfl, by decide⟩,
        ⟨List.all_iff_forall_prop.mp rfl, by decide⟩,
        ⟨List.all_iff_forall_prop.mp rfl, by decide⟩⟩
  obtain ⟨htells, hcount, -⟩ := collector_reads reconnectedRun _ rfl hwhole hcalls
  exact ⟨_, rfl, rfl, htells, hcount⟩

end

end AsabruCommons.Logger
