import AsabruCommons.Authentication.Acceptance

/-!
# What the background thread takes off the blacklist

`compactThreadFunction` takes a snapshot of the blacklist, removes from it each token
that does not verify, and compacts the file, while clients go on adding tokens.

* `leaves_unverified`: whatever is interleaved with it, restarts included, a token leaves
  the blacklist only if it failed to verify meanwhile.
* `compaction_pass`: a pass that nothing is interleaved with leaves exactly the tokens
  that verify, in memory and, in their old order, in the file.

Both are about tokens that are lines (`Plain`).  They rest on `Consistent`, which every
step keeps then.
-/

namespace AsabruCommons.Authentication

open Lines Run

variable {Client : Type} {J : Jwt} {s s' : State Client} {e : Event Client}

/-- Cache and file agree, and the calls under way will not change that. -/
structure InOrder (s : State Client) : Prop where
  consistent : Consistent s.blacklist
  removing : ∀ c token, s.clients c = some (.removeAuthentication token) → Plain token

theorem inOrder_start (env : Config) (clock : Int) {disk : Disk} (hdisk : WellKept disk.file)
    (minted : List Str) (revoked : Finset Str) (answers : List Answer) :
    InOrder (State.start env clock disk minted revoked answers : State Client) where
  consistent := consistent_construct hdisk
  removing := fun _ _ hc ↦ by cases hc

/-- A token is taken off a list that agrees with its file. -/
theorem Consistent.remove_mem {l : CachedFileList} (h : Consistent l) (token : Str) :
    Consistent (l.remove token true) := by
  by_cases hmem : token ∈ l.cache
  · exact h.remove (plain_of_mem_liveLines ((h.mem_cache token).mp hmem)) true
  · rwa [CachedFileList.remove_of_notMem hmem]

section

variable [DecidableEq Client]

/-- The tokens of the calls are lines. -/
def SubmitsPlain (_ : State Client) : Event Client → Prop
  | .removeAuthentication _ token => Plain token
  | _ => True

theorem InOrder.step (h : InOrder s) (he : SubmitsPlain s e) (hs : step J s e = some s') :
    InOrder s' := by
  refine ⟨?_, ?_⟩
  · rcases step_blacklist hs with
      heq | ⟨c, token, hc, heq⟩ | ⟨token, -, heq⟩ | heq | heq <;> rw [heq]
    · exact h.consistent
    · exact h.consistent.add (h.removing c token hc) true
    · exact h.consistent.remove_mem token
    · exact h.consistent.compactFile true true
    · exact consistent_construct h.consistent.wellKept
  · intro c token hc
    rcases step_removing hs hc with hold | rfl
    · exact h.removing c token hold
    · exact he

/-- One step takes a token off the blacklist only if it does not verify. -/
theorem unverified_of_left (h : InOrder s) (hs : step J s e = some s') {token : Str}
    (hmem : token ∈ s.blacklist.cache) (hno : token ∉ s'.blacklist.cache) :
    J.verify token s.clock = false := by
  rcases step_blacklist hs with
    heq | ⟨c, t, -, heq⟩ | ⟨t, hverify, heq⟩ | heq | heq <;> rw [heq] at hno
  · exact absurd hmem hno
  · exact absurd (CachedFileList.mem_cache_add.mpr (.inr hmem)) hno
  · by_cases ht : token = t
    · exact ht ▸ hverify
    · exact absurd (CachedFileList.mem_cache_remove_of_ne hmem ht) hno
  · rw [CachedFileList.cache_compactFile] at hno
    exact absurd hmem hno
  · refine absurd ?_ hno
    rw [CachedFileList.construct, h.consistent.agrees]
    exact hmem

omit [DecidableEq Client] in
theorem submitsPlain_of_mem {es : List (Event Client)} (h : ∀ token ∈ submitted es, Plain token)
    {e : Event Client} (he : e ∈ es) (s : State Client) : SubmitsPlain s e := by
  cases e with
  | removeAuthentication c token => exact h token (mem_submitted he)
  | tick now | authenticate username password | isAuthenticated c token | findToken c
  | verifyToken c | addToken c | returnRemoval c | getAll result | verifyThenRemove
  | compactFile | restart env => trivial

/-- What is submitted in a run with ordinary tokens keeps the process in order. -/
theorem inOrder_run {es : List (Event Client)} (h : InOrder s)
    (hplain : ∀ token ∈ submitted es, Plain token) (hrun : run (step J) s es = some s') :
    InOrder s' :=
  run_invariant_along (fun _ _ _ h he hs ↦ h.step he hs) h
    (along_of_forall (fun _ he s ↦ submitsPlain_of_mem hplain he s) s) hrun

theorem clock_le_of_reachable (h : Reachable (step J) s s') : s.clock ≤ s'.clock := by
  obtain ⟨es, hrun⟩ := h
  exact run_invariant (I := fun u ↦ s.clock ≤ u.clock)
    (fun _ _ _ hle hs ↦ hle.trans (step_clock hs)) le_rfl hrun

/-- **Only tokens that do not verify leave the blacklist**, in whatever order the clients,
the background thread and restarts move. -/
theorem leaves_unverified (J : Jwt) (env : Config) (clock : Int) (disk : Disk)
    (hdisk : WellKept disk.file) (minted : List Str) (revoked : Finset Str)
    (answers : List Answer) (es fs : List (Event Client)) (s t : State Client)
    (hplain : ∀ token ∈ submitted (es ++ fs), Plain token)
    (hs : run (step J) (.start env clock disk minted revoked answers) es = some s)
    (ht : run (step J) s fs = some t) :
    ∀ token ∈ s.blacklist.cache, token ∉ t.blacklist.cache →
      ∃ now, s.clock ≤ now ∧ now ≤ t.clock ∧ J.verify token now = false := by
  rw [submitted, List.filterMap_append] at hplain
  have hes : ∀ token ∈ submitted es, Plain token := fun token htoken ↦
    hplain token (List.mem_append_left _ htoken)
  have hfs : ∀ token ∈ submitted fs, Plain token := fun token htoken ↦
    hplain token (List.mem_append_right _ htoken)
  have horder : InOrder s :=
    inOrder_run (inOrder_start env clock hdisk minted revoked answers) hes hs
  intro token hmem hno
  obtain ⟨u, e, v, hu, horderu, hmemu, huv, hnov, hv⟩ :=
    exists_step_lost (K := fun u ↦ token ∈ u.blacklist.cache) (fun _ _ _ h he hs ↦ h.step he hs)
      horder hmem (along_of_forall (fun _ he s ↦ submitsPlain_of_mem hfs he s) s) ht hno
  refine ⟨u.clock, clock_le_of_reachable hu, ?_, unverified_of_left horderu huv hmemu hnov⟩
  exact (step_clock huv).trans (clock_le_of_reachable hv)

/-- A token is minted, revoked, expires, and is taken off the list. -/
theorem leaves_unverified_sample :
    ∃ s t : State Unit, run (step sampleJwt) (.boot sampleEnv 0 none)
        (orderlyRun.take 7) = some s ∧
      run (step sampleJwt) s ((orderlyRun.drop 7).take 4) = some t ∧
      sampleToken ∈ s.blacklist.cache ∧ sampleToken ∉ t.blacklist.cache ∧
      ∃ now, s.clock ≤ now ∧ now ≤ t.clock ∧ sampleJwt.verify sampleToken now = false := by
  refine ⟨_, _, rfl, rfl, by decide, by decide, ?_⟩
  exact leaves_unverified sampleJwt sampleEnv 0 ⟨none, none⟩ ⟨by decide, by decide⟩ [] ∅ []
    (orderlyRun.take 7) ((orderlyRun.drop 7).take 4) _ _ (by decide) rfl rfl _ (by decide)
    (by decide)

end

/-! ## An undisturbed pass, on the list alone -/

/-- What the class would leave of its file when told to keep only these tokens. -/
def Disk.swept (keeps : Str → Bool) (d : Disk) : Disk :=
  match d.file with
  | none => d
  | some content =>
      ⟨some (unlines '\n' ((keptLines content).filter fun line ↦ line.isEmpty || keeps line)), none⟩

/-- The loop of `compactThreadFunction` over the tokens, on its own. -/
def removeUnverified (J : Jwt) (now : Int) (tokens : List Str) (l : CachedFileList) :
    CachedFileList :=
  tokens.foldl (fun l token ↦ if J.verify token now then l else l.remove token true) l

theorem mem_keptLines_iff {content line : Str} :
    line ∈ keptLines content ↔ line ∈ lines '\n' content ∧ firstByte line ≠ tombstone := by
  simp [keptLines]

/-- What is kept and not blank is in memory. -/
theorem Consistent.mem_cache_of_kept {l : CachedFileList} (h : Consistent l) {line : Str}
    (hline : line ∈ keptLines l.disk.file.content) (hne : line ≠ []) : line ∈ l.cache := by
  rw [mem_keptLines_iff] at hline
  rw [h.mem_cache, mem_liveLines, isLive_iff]
  exact ⟨hline.1, hne, hline.2⟩

/-- Removing a token takes its line from those that are kept, and no other. -/
theorem Consistent.keptLines_remove {l : CachedFileList} (h : Consistent l) (token : Str) :
    keptLines (l.remove token true).disk.file.content =
      (keptLines l.disk.file.content).filter fun line ↦ line.isEmpty || line != token := by
  by_cases hmem : token ∈ l.cache
  swap
  · rw [CachedFileList.remove_of_notMem hmem]
    refine (List.filter_eq_self.mpr fun line hline ↦ ?_).symm
    by_cases hne : line = []
    · simp [hne]
    · have hcache := h.mem_cache_of_kept hline hne
      have htoken : line ≠ token := fun heq ↦ hmem (heq ▸ hcache)
      simp [htoken]
  have hlive := (h.mem_cache token).mp hmem
  have hplain := plain_of_mem_liveLines hlive
  cases hfile : l.disk.file with
  | none =>
      rw [hfile] at hlive
      exact absurd hlive List.not_mem_nil
  | some content =>
      rw [CachedFileList.remove_of_mem hmem hfile]
      have hwell := h.wellKept
      rw [hfile, FileState.content_some] at hlive
      rw [hfile] at hwell
      simp only [FileState.content_some]
      obtain ⟨c, tl, rfl⟩ := List.exists_cons_of_ne_nil hplain.ne_nil
      rcases @markRemoved_cases c tl _ hwell.terminated with
        ⟨hno, -⟩ | ⟨pre, post, hls, hpre, hmark, -⟩
      · exact absurd (mem_liveLines.mp hlive).1 hno
      rw [FileState.content_some] at hls hmark
      have hpost : c :: tl ∉ post := by
        intro hin
        have hnodup := hwell.nodup
        rw [FileState.content_some, liveLines, hls, List.filter_append,
          List.filter_cons_of_pos hplain.isLive, List.nodup_middle, List.nodup_cons] at hnodup
        refine hnodup.1 (List.mem_append_right _ ?_)
        exact List.mem_filter.mpr ⟨hin, hplain.isLive⟩
      have hother : ∀ {ls : List Str}, c :: tl ∉ ls →
          (ls.filter fun line ↦ firstByte line != tombstone) =
            (ls.filter fun line ↦ firstByte line != tombstone).filter
              fun line ↦ line.isEmpty || line != c :: tl := by
        intro ls hls
        refine (List.filter_eq_self.mpr fun line hline ↦ ?_).symm
        have hne : line ≠ c :: tl := fun heq ↦ hls (heq ▸ List.mem_of_mem_filter hline)
        simp [hne]
      rw [keptLines, hmark, keptLines, hls, List.filter_append, List.filter_append,
        List.filter_append, List.filter_cons_of_neg (by simp [firstByte]),
        List.filter_cons_of_pos (by simpa using hplain.not_marked),
        List.filter_cons_of_neg (by simp), ← hother hpre, ← hother hpost]

/-- Removing changes neither the other path nor whether there is a file. -/
theorem CachedFileList.remove_paths (l : CachedFileList) (token : Str) :
    (l.remove token true).disk.temp = l.disk.temp ∧
      ((l.remove token true).disk.file = none ↔ l.disk.file = none) := by
  unfold CachedFileList.remove
  split
  · split
    · next hfile => exact ⟨rfl, Iff.rfl⟩
    · next content hfile => simp [hfile]
  · exact ⟨rfl, Iff.rfl⟩

/-- What the loop leaves, by induction on the tokens. -/
theorem Consistent.removeUnverified {l : CachedFileList} (h : Consistent l) (now : Int)
    (tokens : List Str) :
    let m := Authentication.removeUnverified J now tokens l
    Consistent m ∧ m.disk.temp = l.disk.temp ∧ (m.disk.file = none ↔ l.disk.file = none) ∧
      keptLines m.disk.file.content = (keptLines l.disk.file.content).filter
        fun line ↦ line.isEmpty || J.verify line now || !tokens.contains line := by
  induction tokens generalizing l with
  | nil =>
      refine ⟨h, rfl, Iff.rfl, (List.filter_eq_self.mpr fun line _ ↦ ?_).symm⟩
      simp
  | cons token tokens ih =>
      by_cases hv : J.verify token now
      · have hstep : Authentication.removeUnverified J now (token :: tokens) l =
            Authentication.removeUnverified J now tokens l := by
          rw [Authentication.removeUnverified, List.foldl_cons, if_pos hv]
          rfl
        obtain ⟨hm, htemp, hfile, hkept⟩ := ih h
        rw [hstep]
        refine ⟨hm, htemp, hfile, hkept.trans (List.filter_congr fun line _ ↦ ?_)⟩
        by_cases heq : line = token
        · simp [heq, hv]
        · simp [heq]
      · have hstep : Authentication.removeUnverified J now (token :: tokens) l =
            Authentication.removeUnverified J now tokens (l.remove token true) := by
          rw [Authentication.removeUnverified, List.foldl_cons, if_neg hv]
          rfl
        obtain ⟨hm, htemp, hfile, hkept⟩ := ih (h.remove_mem token)
        obtain ⟨htemp', hfile'⟩ := l.remove_paths token
        rw [hstep]
        refine ⟨hm, htemp.trans htemp', hfile.trans hfile', hkept.trans ?_⟩
        rw [h.keptLines_remove, List.filter_filter]
        refine List.filter_congr fun line _ ↦ ?_
        by_cases hne : line = []
        · simp [hne]
        by_cases heq : line = token
        · subst heq
          simp [hne, hv]
        · simp [heq]

/-- **The list after a pass** over all its tokens. -/
theorem Consistent.compactFile_removeUnverified {l : CachedFileList} (h : Consistent l)
    (now : Int) {tokens : List Str} (hall : l.GetAll tokens) :
    (Authentication.removeUnverified J now tokens l).compactFile true true =
      ⟨l.cache.filter fun token ↦ J.verify token now = true,
        l.disk.swept fun token ↦ J.verify token now⟩ := by
  obtain ⟨hm, htemp, hfile, hkept⟩ := h.removeUnverified (J := J) now tokens
  set m := Authentication.removeUnverified J now tokens l
  have hall' : ∀ line ∈ l.cache, line ∈ tokens := fun line hline ↦ by
    rwa [← hall.2, List.mem_toFinset] at hline
  have hlines : keptLines m.disk.file.content = (keptLines l.disk.file.content).filter
      fun line ↦ line.isEmpty || J.verify line now := by
    refine hkept.trans (List.filter_congr fun line hline ↦ ?_)
    by_cases hne : line = []
    · simp [hne]
    · simp [hall' line (h.mem_cache_of_kept hline hne)]
  have hcache : m.cache = l.cache.filter fun token ↦ J.verify token now = true := by
    have hmem : ∀ {l : CachedFileList}, Consistent l → ∀ line,
        line ∈ l.cache ↔ line ∈ keptLines l.disk.file.content ∧ line ≠ [] := by
      intro l h line
      refine ⟨fun hline ↦ ?_, fun hline ↦ h.mem_cache_of_kept hline.1 hline.2⟩
      rw [h.mem_cache, mem_liveLines, isLive_iff] at hline
      exact ⟨mem_keptLines_iff.mpr ⟨hline.1, hline.2.2⟩, hline.2.1⟩
    ext line
    rw [Finset.mem_filter, hmem hm, hmem h, hlines, List.mem_filter]
    by_cases hne : line = []
    · simp [hne]
    · simp [hne]
  cases hold : l.disk.file with
  | none =>
      have hnone := hfile.mpr hold
      have hdisk : m.disk = l.disk := by
        show Disk.mk m.disk.file m.disk.temp = _
        rw [hnone, htemp, ← hold]
      rw [CachedFileList.compactFile, hnone, Disk.swept, hold]
      exact congrArg₂ CachedFileList.mk hcache hdisk
  | some content =>
      obtain ⟨content', hsome⟩ := Option.ne_none_iff_exists'.mp (mt hfile.mp (by simp [hold]))
      rw [hold, hsome, FileState.content_some, FileState.content_some] at hlines
      rw [CachedFileList.compactFile_of_present hsome, Disk.swept, hold, compacted, hlines, hcache]

/-! ## The pass of the thread -/

section

variable [DecidableEq Client]

/-- The steps of one turn of `compactThreadFunction`. -/
def compactionTurn (tokens : List Str) : List (Event Client) :=
  .getAll tokens :: (List.replicate tokens.length .verifyThenRemove ++ [.compactFile])

/-- The loop over the snapshot. -/
theorem run_verifyThenRemove (tokens : List Str) (s : State Client)
    (hs : s.allTokens = some tokens) :
    run (step J) s (List.replicate tokens.length .verifyThenRemove) =
      some { s with
        allTokens := some [],
        blacklist := removeUnverified J s.clock tokens s.blacklist } := by
  induction tokens generalizing s with
  | nil =>
      rw [List.length_nil, List.replicate_zero, run_nil, ← hs]
      rfl
  | cons token tokens ih =>
      rw [List.length_cons, List.replicate_succ, run_cons_eq_some]
      by_cases hv : J.verify token s.clock
      · refine ⟨{ s with allTokens := some tokens }, ?_, ?_⟩
        · simp only [step, hs, if_pos hv]
        · rw [ih _ rfl, removeUnverified, removeUnverified, List.foldl_cons, if_pos hv]
      · refine ⟨{ s with
            allTokens := some tokens, blacklist := s.blacklist.remove token true }, ?_, ?_⟩
        · simp only [step, hs, if_neg hv]
        · rw [ih _ rfl, removeUnverified, removeUnverified, List.foldl_cons, if_neg hv]

/-- **An undisturbed pass** leaves exactly the tokens that verify, in memory and in the
file, whatever the order of the hash table, and changes nothing else. -/
theorem compaction_pass (J : Jwt) (env : Config) (clock : Int) (disk : Disk)
    (hdisk : WellKept disk.file) (minted : List Str) (revoked : Finset Str)
    (answers : List Answer) (es : List (Event Client)) (s : State Client)
    (hplain : ∀ token ∈ submitted es, Plain token)
    (hs : run (step J) (.start env clock disk minted revoked answers) es = some s)
    (hidle : s.allTokens = none) (tokens : List Str) (hall : s.blacklist.GetAll tokens) :
    run (step J) s (compactionTurn tokens) =
      some { s with
        blacklist :=
          ⟨s.blacklist.cache.filter fun token ↦ J.verify token s.clock = true,
            s.blacklist.disk.swept fun token ↦ J.verify token s.clock⟩ } := by
  have horder : InOrder s :=
    inOrder_run (inOrder_start env clock hdisk minted revoked answers) hplain hs
  rw [compactionTurn, run_cons_eq_some]
  refine ⟨{ s with allTokens := some tokens }, if_pos ⟨hidle, hall⟩, ?_⟩
  rw [run_append, run_verifyThenRemove tokens _ rfl, Option.bind_some, run_cons_eq_some]
  refine ⟨_, rfl, ?_⟩
  rw [run_nil, horder.consistent.compactFile_removeUnverified s.clock hall, ← hidle]

/-- Of three revoked tokens one is still valid when the thread passes. -/
theorem compaction_pass_sample :
    let early := sampleJwt.mint sampleEnv.username 0 1
    let late := sampleJwt.mint sampleEnv.username 0 9
    let es : List (Event Unit) :=
      [.removeAuthentication () early, .addToken (), .returnRemoval (),
       .removeAuthentication () late, .addToken (), .returnRemoval (),
       .removeAuthentication () ['x'], .addToken (), .returnRemoval (), .tick 5]
    ∃ s t, run (step sampleJwt) (.boot sampleEnv 0 none) es = some s ∧
      run (step sampleJwt) s (compactionTurn [['x'], late, early]) = some t ∧
      t.blacklist = ⟨{late}, ⟨some (late ++ ['\n']), none⟩⟩ := by
  intro early late es
  refine ⟨_, _, rfl, compaction_pass sampleJwt sampleEnv 0 ⟨none, none⟩ ⟨by decide, by decide⟩
    [] ∅ [] es _ (by decide) rfl rfl _ (by decide), by decide⟩

end

end AsabruCommons.Authentication
