import AsabruCommons.Authentication.Independence

/-!
# A blacklist that is loaded

A `CachedFileList` may be constructed on any file, and an operator may have written
it.  Then the last line may lack its newline, and a line may be there twice, which the
class itself does not bring about.

* `add` appends what it is given to an unterminated line, and the restarted process knows
  neither the old string nor the new one (`load_add_iff`);
* `remove` marks the first line only, and the restarted process has the string again
  (`load_remove_iff`);
* `compactFile` does not mind (`compactFile_normalises`).
-/

namespace AsabruCommons.Authentication

open Lines

/-! ## Adding -/

/-- A line that continues an unfinished one is lost. -/
theorem notMem_liveLines_append {content str : Str} (hstr : Plain str)
    (hnew : str ∉ liveLines content) (hc : ¬ Terminated '\n' content) :
    str ∉ liveLines (content ++ str ++ ['\n']) := by
  obtain ⟨done, hdone, heq⟩ := exists_eq_append_unfinished '\n' content
  have hlines : lines '\n' (content ++ str ++ ['\n']) =
      lines '\n' done ++ [unfinished '\n' content ++ str] := by
    have hfree : '\n' ∉ unfinished '\n' content ++ str := by
      rw [List.mem_append, not_or]
      exact ⟨sep_notMem_unfinished content, hstr.no_newline⟩
    conv_lhs => rw [heq]
    rw [List.append_assoc, List.append_assoc, lines_append hdone, ← List.append_assoc,
      lines_line_append hfree, lines_nil]
  have hold : lines '\n' done ⊆ lines '\n' content := by
    conv_rhs => rw [heq]
    rw [lines_append hdone]
    exact List.subset_append_left _ _
  intro hmem
  obtain ⟨hline, hlive⟩ := mem_liveLines.mp hmem
  rw [hlines, List.mem_append, List.mem_singleton] at hline
  rcases hline with hline | hline
  · exact hnew (mem_liveLines.mpr ⟨hold hline, hlive⟩)
  · rw [terminated_iff_unfinished] at hc
    exact hc (List.self_eq_append_left.mp hline)

/-- **Adding to a loaded list.**  Loading the file again gives the string and what was
loaded before exactly if the string had been loaded already or the file is terminated. -/
theorem load_add_iff {str : Str} (hstr : Plain str) (disk : Disk) :
    populateCacheFromFile ((CachedFileList.construct disk).add str true).disk.file =
        insert str (populateCacheFromFile disk.file) ↔
      str ∈ populateCacheFromFile disk.file ∨ Terminated '\n' disk.file.content := by
  by_cases hmem : str ∈ populateCacheFromFile disk.file
  · rw [CachedFileList.add_of_mem (l := CachedFileList.construct disk) hmem]
    exact iff_of_true (Finset.insert_eq_of_mem hmem).symm (.inl hmem)
  rw [CachedFileList.add_of_notMem (l := CachedFileList.construct disk) hmem, or_iff_right hmem]
  rw [populateCacheFromFile_eq, List.mem_toFinset] at hmem
  change populateCacheFromFile (some (disk.file.content ++ str ++ ['\n'])) = _ ↔ _
  rw [populateCacheFromFile_eq, populateCacheFromFile_eq, FileState.content_some]
  constructor
  · intro heq
    by_contra hc
    refine notMem_liveLines_append hstr hmem hc ?_
    rw [← List.mem_toFinset, heq]
    exact Finset.mem_insert_self str _
  · intro hc
    have hlive : liveLines (disk.file.content ++ str ++ ['\n']) =
        liveLines disk.file.content ++ [str] := by
      rw [liveLines, lines_append_line hc hstr.no_newline, List.filter_append,
        List.filter_singleton, hstr.isLive]
      rfl
    rw [hlive, List.toFinset_append, Finset.union_comm]
    rfl

/-- A file with a marked line among others. -/
def markedContent : Str := "ab\n\x0bd\nef\ngh\n".toList

/-- The marked line stays out, and the others stay in. -/
theorem load_add_marked :
    let l := (CachedFileList.construct ⟨some markedContent, none⟩).add "cd".toList true
    populateCacheFromFile l.disk.file =
        insert "cd".toList (populateCacheFromFile (some markedContent)) ∧
      populateCacheFromFile l.disk.file =
        {"ab".toList, "cd".toList, "ef".toList, "gh".toList} :=
  ⟨(load_add_iff ⟨by decide, by decide, by decide⟩ ⟨some markedContent, none⟩).mpr
    (.inr (by decide)), by decide⟩

/-- Two tokens become one. -/
theorem load_add_unterminated :
    let l := (CachedFileList.construct ⟨some ['a'], none⟩).add ['b'] true
    populateCacheFromFile l.disk.file = {['a', 'b']} ∧
      populateCacheFromFile l.disk.file ≠ insert ['b'] (populateCacheFromFile (some ['a'])) := by
  decide

/-! ## Removing -/

/-- **Removing from a loaded list.**  Loading a terminated file again gives what was loaded
before without the string exactly if the string was on one line only. -/
theorem load_remove_iff {content str : Str} (hc : Terminated '\n' content)
    (hstr : str ∈ populateCacheFromFile (some content)) (temp : FileState) :
    populateCacheFromFile
        ((CachedFileList.construct ⟨some content, temp⟩).remove str true).disk.file =
        (populateCacheFromFile (some content)).erase str ↔
      (lines '\n' content).count str = 1 := by
  rw [CachedFileList.remove_of_mem (l := CachedFileList.construct ⟨some content, temp⟩) hstr rfl]
  rw [populateCacheFromFile_eq, List.mem_toFinset] at hstr
  have hplain := plain_of_mem_liveLines hstr
  have hsettled : Settled content := by
    rw [Settled, terminated_iff_unfinished.mp hc]
    rfl
  have hcount : (lines '\n' content).count str = (liveLines content).count str :=
    (List.count_filter hplain.isLive).symm
  have hpos : 0 < (liveLines content).count str := List.count_pos_iff.mpr hstr
  change populateCacheFromFile (some (markRemoved str content)) = _ ↔ _
  rw [populateCacheFromFile_eq, populateCacheFromFile_eq, FileState.content_some,
    FileState.content_some, hsettled.liveLines_markRemoved hplain.ne_nil, Finset.ext_iff, hcount]
  simp only [List.mem_toFinset, Finset.mem_erase]
  rw [mem_erase_iff_ne]
  omega

/-- The lines before and behind the one that is marked stay in. -/
theorem load_remove_marked :
    let l := (CachedFileList.construct ⟨some markedContent, none⟩).remove "ef".toList true
    populateCacheFromFile l.disk.file =
        (populateCacheFromFile (some markedContent)).erase "ef".toList ∧
      populateCacheFromFile l.disk.file = {"ab".toList, "gh".toList} :=
  ⟨(load_remove_iff (by decide) (by decide) none).mpr (by decide), by decide⟩

/-- The second line is not marked. -/
theorem load_remove_repeated :
    let content := ['a', '\n', 'a', '\n']
    let l := (CachedFileList.construct ⟨some content, none⟩).remove ['a'] true
    populateCacheFromFile l.disk.file = {['a']} ∧
      populateCacheFromFile l.disk.file ≠ (populateCacheFromFile (some content)).erase ['a'] := by
  decide

/-! ## Compacting -/

theorem firstByte_of_mem_keptLines {content line : Str} (h : line ∈ keptLines content) :
    firstByte line ≠ tombstone := by
  simpa using List.of_mem_filter h

/-- There is nothing to be dropped from a file that has been compacted. -/
theorem compacted_compacted (content : Str) :
    compacted (compacted content) = compacted content := by
  rw [compacted, keptLines, lines_compacted, keptLines, List.filter_filter]
  simp only [Bool.and_self]
  rfl

/-- **Compaction.**  Whatever the file, compacting it keeps what is loaded, line by
line, leaves no marked and no unterminated line, and need not be done twice. -/
theorem compactFile_normalises (cache : Finset Str) (content : Str) (temp : FileState) :
    let l := (CachedFileList.mk cache ⟨some content, temp⟩).compactFile true true
    populateCacheFromFile l.disk.file = populateCacheFromFile (some content) ∧
      liveLines l.disk.file.content = liveLines content ∧
      (∀ line ∈ lines '\n' l.disk.file.content, firstByte line ≠ tombstone) ∧
      Terminated '\n' l.disk.file.content ∧
      l.compactFile true true = l := by
  have hcompact := CachedFileList.compactFile_of_present
    (l := ⟨cache, ⟨some content, temp⟩⟩) rfl
  intro l
  have hl : l = ⟨cache, ⟨some (compacted content), none⟩⟩ := hcompact
  rw [hl, populateCacheFromFile_eq, populateCacheFromFile_eq]
  simp only [FileState.content_some]
  refine ⟨?_, liveLines_compacted content, ?_, terminated_compacted content, ?_⟩
  · rw [liveLines_compacted]
  · intro line hline
    rw [lines_compacted] at hline
    exact firstByte_of_mem_keptLines hline
  · rw [CachedFileList.compactFile_of_present rfl, compacted_compacted]

end AsabruCommons.Authentication
