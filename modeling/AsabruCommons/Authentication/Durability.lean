import AsabruCommons.Authentication.CachedFileList

/-!
# Cache and file of a `CachedFileList`

A blacklist is worth having only if it survives a restart, that is, if loading
the file again gives the set the process had in memory.

* `calls_agree`: it does after any sequence of calls, whichever files fail to
  open, when the arguments are ordinary lines and the file the sequence starts
  from is terminated and lists nothing twice (`WellKept`).  The invariant
  carried is `Consistent`.
* `interrupted_load_iff`: a process that dies inside `compactFile` restarts with
  the set it had unless it dies between `std::remove` and `std::rename`.  In
  that window the only copy of the list is under the temporary name, which
  nothing reads.
-/

namespace AsabruCommons.Authentication

open Lines

/-! ## Sequences of calls -/

/-- A call of a mutating method, with the outcomes of the file opens in it. -/
inductive Call where
  | add (str : Str) (opens : Bool)
  | remove (str : Str) (opens : Bool)
  | compactFile (inOpens tempOpens : Bool)
deriving DecidableEq, Repr

namespace CachedFileList

def call (l : CachedFileList) : Call → CachedFileList
  | .add str opens => l.add str opens
  | .remove str opens => l.remove str opens
  | .compactFile inOpens tempOpens => l.compactFile inOpens tempOpens

def calls (l : CachedFileList) (cs : List Call) : CachedFileList := cs.foldl call l

end CachedFileList

/-- A string that, written as a line, is loaded again as that string. -/
structure Plain (str : Str) : Prop where
  ne_nil : str ≠ []
  no_newline : '\n' ∉ str
  not_marked : firstByte str ≠ tombstone

instance (str : Str) : Decidable (Plain str) :=
  decidable_of_iff (str ≠ [] ∧ '\n' ∉ str ∧ firstByte str ≠ tombstone)
    ⟨fun h ↦ ⟨h.1, h.2.1, h.2.2⟩, fun h ↦ ⟨h.1, h.2, h.3⟩⟩

theorem Plain.isLive {str : Str} (h : Plain str) : isLive str := isLive_iff.mpr ⟨h.1, h.3⟩

/-- The arguments of the call are ordinary lines. -/
def Call.Plain : Call → Prop
  | .add str _ | .remove str _ => Authentication.Plain str
  | .compactFile _ _ => True

instance (c : Call) : Decidable c.Plain := by
  cases c <;> unfold Call.Plain <;> infer_instance

/-- The form of file that the methods can work on: each line terminated, no
string listed twice.  An absent file has it. -/
structure WellKept (file : FileState) : Prop where
  terminated : Terminated '\n' file.content
  nodup : (liveLines file.content).Nodup

/-- A list whose file is well kept and loads to what is in memory. -/
structure Consistent (l : CachedFileList) : Prop where
  wellKept : WellKept l.disk.file
  agrees : populateCacheFromFile l.disk.file = l.cache

theorem Consistent.mem_cache {l : CachedFileList} (h : Consistent l) (str : Str) :
    str ∈ l.cache ↔ str ∈ liveLines l.disk.file.content := by
  rw [← h.agrees, populateCacheFromFile_eq, List.mem_toFinset]

theorem consistent_construct {disk : Disk} (h : WellKept disk.file) :
    Consistent (CachedFileList.construct disk) := ⟨h, rfl⟩

/-! ## What each method preserves -/

section

variable {l : CachedFileList} (h : Consistent l)
include h

theorem Consistent.add {str : Str} (hstr : Plain str) (opens : Bool) :
    Consistent (l.add str opens) := by
  by_cases hmem : str ∈ l.cache
  · rwa [CachedFileList.add_of_mem hmem]
  cases opens with
  | false => rwa [CachedFileList.add, if_neg hmem]
  | true =>
      rw [CachedFileList.add_of_notMem hmem]
      have hlive : liveLines (l.disk.file.content ++ str ++ ['\n']) =
          liveLines l.disk.file.content ++ [str] := by
        rw [liveLines, lines_append_line h.wellKept.terminated hstr.no_newline, List.filter_append,
          List.filter_singleton, hstr.isLive]
        rfl
      refine ⟨⟨terminated_append_newline str, ?_⟩, ?_⟩
      · change (liveLines (l.disk.file.content ++ str ++ ['\n'])).Nodup
        rw [hlive, ← List.concat_eq_append]
        exact h.wellKept.nodup.concat (mt (h.mem_cache str).mpr hmem)
      · change populateCacheFromFile (some (l.disk.file.content ++ str ++ ['\n'])) =
          insert str l.cache
        rw [populateCacheFromFile_eq, FileState.content_some, hlive, List.toFinset_append,
          ← populateCacheFromFile_eq, h.agrees]
        exact Finset.union_comm _ _

/-- The first line equal to `str` is the only one, so marking it removes `str`
from what is loaded. -/
theorem Consistent.remove {str : Str} (hstr : Plain str) (opens : Bool) :
    Consistent (l.remove str opens) := by
  by_cases hmem : str ∈ l.cache
  swap
  · rwa [CachedFileList.remove_of_notMem hmem]
  cases hfile : l.disk.file with
  | none => rwa [CachedFileList.remove_of_absent hfile]
  | some content =>
      cases opens with
      | false => rwa [CachedFileList.remove, if_pos hmem, hfile]
      | true =>
          rw [CachedFileList.remove_of_mem hmem hfile]
          have hlive := (h.mem_cache str).mp hmem
          obtain ⟨⟨hterm, hnodup⟩, hagrees⟩ := h
          rw [hfile, FileState.content_some] at hterm hnodup hlive
          rw [hfile, populateCacheFromFile_eq, FileState.content_some] at hagrees
          obtain ⟨c, tl, rfl⟩ := List.exists_cons_of_ne_nil hstr.ne_nil
          rcases markRemoved_cases hterm with ⟨hno, -⟩ | ⟨pre, post, hls, -, hmark, hterm'⟩
          · exact absurd (mem_liveLines.mp hlive).1 hno
          have hbefore : liveLines content =
              pre.filter isLive ++ (c :: tl) :: post.filter isLive := by
            rw [liveLines, hls, List.filter_append, List.filter_cons_of_pos hstr.isLive]
          have hafter : liveLines (markRemoved (c :: tl) content) =
              pre.filter isLive ++ post.filter isLive := by
            rw [liveLines, hmark, List.filter_append,
              List.filter_cons_of_neg (by rw [isLive_tombstone_cons]; exact Bool.false_ne_true)]
          rw [hbefore] at hnodup hagrees
          refine ⟨⟨hterm', ?_⟩, ?_⟩
          · change (liveLines (markRemoved (c :: tl) content)).Nodup
            rw [hafter]
            exact hnodup.sublist ((List.sublist_cons_self _ _).append_left _)
          · change populateCacheFromFile (some (markRemoved (c :: tl) content)) =
              l.cache.erase (c :: tl)
            have hnot := List.nodup_middle.mp hnodup
            rw [populateCacheFromFile_eq, FileState.content_some, hafter, ← hagrees,
              (List.toFinset_eq_of_perm _ _ List.perm_middle), List.toFinset_cons,
              Finset.erase_insert]
            rw [List.mem_toFinset]
            exact (List.nodup_cons.mp hnot).1

theorem Consistent.compactFile (inOpens tempOpens : Bool) :
    Consistent (l.compactFile inOpens tempOpens) := by
  cases hfile : l.disk.file with
  | none => rwa [CachedFileList.compactFile, hfile]
  | some content =>
      rcases inOpens with - | - <;> rcases tempOpens with - | -
      · rwa [CachedFileList.compactFile, hfile]
      · rwa [CachedFileList.compactFile, hfile]
      · rwa [CachedFileList.compactFile, hfile]
      · rw [CachedFileList.compactFile_of_present hfile]
        obtain ⟨⟨-, hnodup⟩, hagrees⟩ := h
        rw [hfile, FileState.content_some] at hnodup
        rw [hfile, populateCacheFromFile_eq, FileState.content_some] at hagrees
        refine ⟨⟨terminated_compacted content, ?_⟩, ?_⟩
        · rwa [FileState.content_some, liveLines_compacted]
        · rwa [populateCacheFromFile_eq, FileState.content_some, liveLines_compacted]

theorem Consistent.call {c : Call} (hc : c.Plain) : Consistent (l.call c) := by
  cases c with
  | add str opens => exact h.add hc opens
  | remove str opens => exact h.remove hc opens
  | compactFile inOpens tempOpens => exact h.compactFile inOpens tempOpens

theorem Consistent.calls {cs : List Call} (hcs : ∀ c ∈ cs, c.Plain) : Consistent (l.calls cs) := by
  induction cs generalizing l with
  | nil => exact h
  | cons c cs ih =>
      rw [List.forall_mem_cons] at hcs
      exact ih (h.call hcs.1) hcs.2

end

/-- **Cache and file agree.**  After any sequence of calls on ordinary lines, and
whichever opens fail in it, loading the file again gives the set in memory. -/
theorem calls_agree (disk : Disk) (hdisk : WellKept disk.file) (cs : List Call)
    (hcs : ∀ c ∈ cs, c.Plain) :
    populateCacheFromFile ((CachedFileList.construct disk).calls cs).disk.file =
      ((CachedFileList.construct disk).calls cs).cache :=
  ((consistent_construct hdisk).calls hcs).agrees

/-- A list that is filled, shrunk, compacted with and without success and
filled again. -/
theorem calls_agree_refilled :
    let cs := [Call.add ['a'] true, .add ['b'] true, .add ['c'] false, .remove ['a'] true,
      .compactFile true false, .compactFile true true, .add ['a'] true]
    let l := (CachedFileList.construct ⟨some "x\n\x0bold\n\n".toList, none⟩).calls cs
    l.cache = {['x'], ['b'], ['a']} ∧ populateCacheFromFile l.disk.file = l.cache := by
  refine ⟨by decide, calls_agree _ ⟨by decide, by decide⟩ _ (by decide)⟩

/-! ## Crashes inside `compactFile` -/

/-- How a compaction may end early: the process stops after the first `k`
steps, or the last step fails. -/
inductive Interruption where
  | stopAfter (k : Nat)
  | renameFails
deriving DecidableEq, Repr

/-- The disk that the interrupted compaction of a file leaves. -/
def Interruption.disk (content : Str) (temp : FileState) : Interruption → Disk
  | .stopAfter k => performAll ((compactSteps content).take k) ⟨some content, temp⟩
  | .renameFails => performAll (compactSteps content).dropLast ⟨some content, temp⟩

/-- The original file is removed and the new one not yet renamed. -/
def Interruption.BetweenRemoveAndRename (content : Str) : Interruption → Prop
  | .stopAfter k => k + 1 = (compactSteps content).length
  | .renameFails => True

/-- The steps that fill the temporary file leave the original alone. -/
theorem performAll_file_of_mem_copySteps {content : Str} {steps : List CompactStep}
    (h : ∀ step ∈ steps, step ∈ copySteps content) (d : Disk) :
    (performAll steps d).file = d.file := by
  induction steps generalizing d with
  | nil => rfl
  | cons step steps ih =>
      rw [List.forall_mem_cons] at h
      refine (ih h.2 (step.perform d)).trans ?_
      cases step with
      | openInput | openTemp | writeLine | closeInput | closeTemp => rfl
      | removeFile | renameTemp => simp [copySteps] at h

theorem interrupted_file_of_between {content : Str} {i : Interruption}
    (h : i.BetweenRemoveAndRename content) (temp : FileState) :
    (i.disk content temp).file = none := by
  have hlost : performAll (copySteps content ++ [.removeFile]) ⟨some content, temp⟩ =
      ⟨none, some (compacted content)⟩ := by
    rw [performAll_append, performAll_copySteps]
    rfl
  have hsteps : compactSteps content = (copySteps content ++ [.removeFile]) ++ [.renameTemp] := by
    simp [compactSteps]
  cases i with
  | renameFails => rw [Interruption.disk, hsteps, List.dropLast_concat, hlost]
  | stopAfter k =>
      have hk : k = (copySteps content ++ [CompactStep.removeFile]).length := by
        simpa [Interruption.BetweenRemoveAndRename, hsteps] using h
      rw [Interruption.disk, hsteps, hk, List.take_left, hlost]

/-- Anywhere else the file is either untouched or completely rewritten, and both
load to the same set. -/
theorem interrupted_load_of_not_between {content : Str} {i : Interruption}
    (h : ¬ i.BetweenRemoveAndRename content) (temp : FileState) :
    populateCacheFromFile (i.disk content temp).file = populateCacheFromFile (some content) := by
  cases i with
  | renameFails => exact absurd trivial h
  | stopAfter k =>
      have hlen : (compactSteps content).length = (copySteps content).length + 2 := by
        simp [compactSteps]
      have hne : k + 1 ≠ (copySteps content).length + 2 := fun hk ↦ h (hk.trans hlen.symm)
      rcases Nat.lt_or_ge k (compactSteps content).length with hlt | hge
      · have hle : k ≤ (copySteps content).length := by omega
        rw [Interruption.disk, compactSteps, List.take_append_of_le_length hle,
          performAll_file_of_mem_copySteps fun _ ↦ List.mem_of_mem_take]
      · rw [Interruption.disk, List.take_of_length_le hge, performAll_compactSteps,
          populateCacheFromFile_eq, populateCacheFromFile_eq, FileState.content_some,
          FileState.content_some, liveLines_compacted]

/-- **When an interrupted compaction is safe.**  What is loaded afterwards is
what the original file would have loaded exactly if the process is not stopped
between `std::remove` and `std::rename`, or if there was nothing to load. -/
theorem interrupted_load_iff (content : Str) (temp : FileState) (i : Interruption) :
    populateCacheFromFile (i.disk content temp).file = populateCacheFromFile (some content) ↔
      ¬ i.BetweenRemoveAndRename content ∨ populateCacheFromFile (some content) = ∅ := by
  constructor
  · intro h
    by_cases hb : i.BetweenRemoveAndRename content
    · rw [interrupted_file_of_between hb] at h
      exact .inr h.symm
    · exact .inl hb
  · rintro (h | h)
    · exact interrupted_load_of_not_between h temp
    · by_cases hb : i.BetweenRemoveAndRename content
      · rw [interrupted_file_of_between hb, h]
        rfl
      · exact interrupted_load_of_not_between hb temp

/-- A one-token blacklist is lost when the process stops right after
`std::remove`. -/
theorem interrupted_load_lost :
    populateCacheFromFile ((Interruption.stopAfter 6).disk "token\n".toList none).file ≠
      populateCacheFromFile (some "token\n".toList) := by
  decide

end AsabruCommons.Authentication
