import AsabruCommons.Authentication.Durability

/-!
# The strings of a blacklist are independent of each other

A token is blacklisted by a call that names it, and by no other call.  Since the
arguments are whatever a client sends, this is about all strings, while the file
holds only those that are lines (`Plain`).

The memory of a `CachedFileList` is right about every string
(`mem_cache_edited`), so a fate is changed only on the way through the file, and
there are three ways in which it is:

* an added string with a newline in it is written as several lines, each of which
  the loader takes for a string of its own;
* removing the empty string overwrites the newline of an empty line, not its first
  byte, so that the marker ends up in front of the line after it, whether that is
  there or still to be added;
* removing a string marks one line, and there may be more of it by the first way.

`Edit.Harmless` says of a call and the state it finds that none of these happens.
`independent_iff` says that the condition is exact: after every call of a run the
file has the strings that were last added, if and only if every call of it was
harmless.
-/

namespace AsabruCommons.Authentication

open Lines

/-- A call of `add` or `remove` whose file opens. -/
inductive Edit where
  | add (str : Str)
  | remove (str : Str)
deriving DecidableEq, Repr

namespace Edit

def str : Edit → Str
  | add str | remove str => str

def call : Edit → Call
  | add str => .add str true
  | remove str => .remove str true

end Edit

/-- The last call of the sequence with the argument `t` is an `add`. -/
def LastAdds (t : Str) (es : List Edit) : Prop :=
  (es.filter fun e ↦ e.str = t).getLast? = some (.add t)

instance (t : Str) (es : List Edit) : Decidable (LastAdds t es) :=
  inferInstanceAs (Decidable (_ = _))

/-- The object after the calls, on a path where there was no file. -/
def edited (temp : FileState) (es : List Edit) : CachedFileList :=
  (CachedFileList.construct ⟨none, temp⟩).calls (es.map Edit.call)

/-- What is loaded of a token is what the last call with this token says. -/
def Independent (temp : FileState) (es : List Edit) : Prop :=
  ∀ t, Plain t → (t ∈ populateCacheFromFile (edited temp es).disk.file ↔ LastAdds t es)

theorem lastAdds_snoc (t : Str) (es : List Edit) (e : Edit) :
    LastAdds t (es ++ [e]) ↔ if e.str = t then e = .add t else LastAdds t es := by
  unfold LastAdds
  rw [List.filter_append]
  split
  · next h => simp [h]
  · next h => simp [h]

theorem edited_snoc (temp : FileState) (es : List Edit) (e : Edit) :
    edited temp (es ++ [e]) = (edited temp es).call e.call := by
  rw [edited, CachedFileList.calls, List.map_append, List.foldl_append]
  rfl

/-! ## The memory -/

/-- Nothing is in memory that could not have been written. -/
def FileBacked (l : CachedFileList) : Prop := l.disk.file = none → l.cache = ∅

theorem FileBacked.call {l : CachedFileList} (h : FileBacked l) (e : Edit) :
    FileBacked (l.call e.call) := by
  cases e with
  | add str =>
      show FileBacked (l.add str true)
      by_cases hmem : str ∈ l.cache
      · rwa [CachedFileList.add_of_mem hmem]
      · rw [CachedFileList.add_of_notMem hmem]
        exact fun hnone ↦ absurd hnone (Option.some_ne_none _)
  | remove str =>
      show FileBacked (l.remove str true)
      by_cases hmem : str ∈ l.cache
      swap
      · rwa [CachedFileList.remove_of_notMem hmem]
      cases hfile : l.disk.file with
      | none => rwa [CachedFileList.remove_of_absent hfile]
      | some content =>
          rw [CachedFileList.remove_of_mem hmem hfile]
          exact fun hnone ↦ absurd hnone (Option.some_ne_none _)

theorem FileBacked.mem_cache_call {l : CachedFileList} (h : FileBacked l) (e : Edit) (t : Str) :
    t ∈ (l.call e.call).cache ↔ if e.str = t then e = .add t else t ∈ l.cache := by
  cases e with
  | add str =>
      show t ∈ (l.add str true).cache ↔ if str = t then Edit.add str = .add t else t ∈ l.cache
      by_cases hmem : str ∈ l.cache
      · rw [CachedFileList.add_of_mem hmem]
        split
        · next heq => exact iff_of_true (heq ▸ hmem) (congrArg _ heq)
        · exact Iff.rfl
      · rw [CachedFileList.add_of_notMem hmem, Finset.mem_insert]
        split
        · next heq => exact iff_of_true (.inl heq.symm) (congrArg _ heq)
        · next hne => exact or_iff_right (Ne.symm hne)
  | remove str =>
      show t ∈ (l.remove str true).cache ↔ if str = t then Edit.remove str = .add t else t ∈ l.cache
      by_cases hmem : str ∈ l.cache
      · cases hfile : l.disk.file with
        | none => exact absurd (h hfile ▸ hmem) (Finset.notMem_empty str)
        | some content =>
            rw [CachedFileList.remove_of_mem hmem hfile, Finset.mem_erase]
            split
            · next heq => exact iff_of_false (fun hin ↦ hin.1 heq.symm) nofun
            · next hne => exact and_iff_right (Ne.symm hne)
      · rw [CachedFileList.remove_of_notMem hmem]
        split
        · next heq => exact iff_of_false (heq ▸ hmem) nofun
        · exact Iff.rfl

theorem fileBacked_edited (temp : FileState) (es : List Edit) : FileBacked (edited temp es) := by
  induction es using List.reverseRecOn with
  | nil => exact fun _ ↦ rfl
  | append_singleton es e ih =>
      rw [edited_snoc]
      exact ih.call e

/-- The memory is right about every string, whatever the calls are. -/
theorem mem_cache_edited (temp : FileState) (es : List Edit) (t : Str) :
    t ∈ (edited temp es).cache ↔ LastAdds t es := by
  induction es using List.reverseRecOn with
  | nil => exact iff_of_false (Finset.notMem_empty t) nofun
  | append_singleton es e ih =>
      rw [edited_snoc, (fileBacked_edited temp es).mem_cache_call, lastAdds_snoc, ih]

/-! ## The file -/

theorem isLive_of_plain_iff {t : Str} (h : '\n' ∉ t) : isLive t ↔ Plain t :=
  ⟨fun hl ↦ ⟨(isLive_iff.mp hl).1, h, (isLive_iff.mp hl).2⟩, Plain.isLive⟩

/-- What is loaded is always a line. -/
theorem plain_of_mem_liveLines {content t : Str} (h : t ∈ liveLines content) : Plain t :=
  (isLive_of_plain_iff (sep_notMem_of_mem_lines (mem_liveLines.mp h).1)).mp (mem_liveLines.mp h).2

/-- A file whose last line, if it has no newline, is not loaded. -/
def Settled (content : Str) : Prop := isLive (unfinished '\n' content) = false

/-- A dead line that is continued stays dead; the first line of what is added continues
the unfinished one. -/
theorem Settled.liveLines_append {content : Str} (h : Settled content) (str : Str) :
    liveLines (content ++ str ++ ['\n']) = liveLines content ++
      (lines '\n' (unfinished '\n' content ++ str ++ ['\n'])).filter isLive := by
  obtain ⟨done, hdone, heq⟩ := exists_eq_append_unfinished '\n' content
  have hold : (lines '\n' (unfinished '\n' content)).filter isLive = [] := by
    by_cases hnil : unfinished '\n' content = []
    · rw [hnil, lines_nil, List.filter_nil]
    · rw [lines_of_sep_notMem (sep_notMem_unfinished content) hnil, List.filter_singleton, h]
      rfl
  have hlive : liveLines content = (lines '\n' done).filter isLive := by
    conv_lhs => rw [liveLines, heq]
    rw [lines_append hdone, List.filter_append, hold, List.append_nil]
  rw [hlive, ← List.filter_append, ← lines_append hdone, liveLines]
  conv_lhs => rw [heq]
  simp only [List.append_assoc]

/-- The line that follows the first empty line. -/
def lineAfterEmpty (content : Str) : Option Str :=
  ((lines '\n' content).dropWhile fun line ↦ line != []).tail.head?

theorem lineAfterEmpty_of_lines {content : Str} {pre post : List Str}
    (h : lines '\n' content = pre ++ [] :: post) (hpre : [] ∉ pre) :
    lineAfterEmpty content = post.head? := by
  rw [lineAfterEmpty, h, List.dropWhile_append_of_pos]
  · rw [List.dropWhile_cons_of_neg (by simp), List.tail_cons]
  · exact fun line hline ↦ bne_iff_ne.mpr fun heq ↦ hpre (heq ▸ hline)

theorem lineAfterEmpty_of_notMem {content : Str} (h : [] ∉ lines '\n' content) :
    lineAfterEmpty content = none := by
  have hall : (lines '\n' content).dropWhile (fun line ↦ line != []) = [] :=
    List.dropWhile_eq_nil_iff.mpr fun line hline ↦ bne_iff_ne.mpr fun heq ↦ h (heq ▸ hline)
  rw [lineAfterEmpty, hall]
  rfl

section

variable {content : Str} (h : Settled content)
include h

/-- The unfinished line is dead before and after. -/
theorem Settled.markRemoved (str : Str) : Settled (markRemoved str content) := by
  unfold Settled at h ⊢
  cases str with
  | nil =>
      rcases markRemoved_eq [] content with ⟨hsame, -⟩ | ⟨pre, rest, -, -, hcontent, hmark⟩
      · rwa [hsame]
      have hset : ([] ++ '\n' :: rest).set 0 tombstone = tombstone :: rest := rfl
      rw [hcontent, unfinished_append (terminated_unlines pre), unfinished_sep_append] at h
      rw [hmark, unfinished_append (terminated_unlines pre), hset]
      by_cases hsep : '\n' ∈ rest
      · obtain ⟨line, t, rfl, -⟩ := List.eq_append_cons_of_mem hsep
        rwa [← List.cons_append, unfinished_sep_append, ← unfinished_sep_append line]
      · rw [unfinished_of_sep_notMem, isLive_tombstone_cons]
        rw [List.mem_cons, not_or]
        exact ⟨tombstone_ne_newline.symm, hsep⟩
  | cons c tl =>
      rcases markRemoved_cons c tl content with ⟨hsame, -⟩ | ⟨-, -, -, -, -, hunf⟩
      · rwa [hsame]
      · rwa [hunf]

theorem Settled.notMem_liveLines {str : Str}
    (hstr : str ∉ lines '\n' content ∨ str = unfinished '\n' content) :
    str ∉ liveLines content := fun hmem ↦ by
  rcases hstr with hno | heq
  · exact hno (mem_liveLines.mp hmem).1
  · have hlive := (mem_liveLines.mp hmem).2
    rw [heq, show isLive _ = false from h] at hlive
    exact Bool.false_ne_true hlive

/-- Marking a string that is not empty takes it from what is loaded, once. -/
theorem Settled.liveLines_markRemoved {str : Str} (hstr : str ≠ []) :
    liveLines (Authentication.markRemoved str content) = (liveLines content).erase str := by
  obtain ⟨c, tl, rfl⟩ := List.exists_cons_of_ne_nil hstr
  rcases markRemoved_cons c tl content with ⟨hsame, hno⟩ | ⟨pre, post, hls, hpre, hmark, -⟩
  · rw [hsame, List.erase_of_not_mem (h.notMem_liveLines hno)]
  have hpre' : c :: tl ∉ pre.filter isLive := fun hmem ↦ hpre (List.mem_of_mem_filter hmem)
  rw [liveLines, hmark, liveLines, hls, List.filter_append, List.filter_append,
    List.erase_append_right _ hpre', List.filter_cons_of_neg (by simp)]
  congr 1
  by_cases hlive : isLive (c :: tl)
  · rw [List.filter_cons_of_pos hlive, List.erase_cons_head]
  · rw [List.filter_cons_of_neg hlive, List.erase_of_not_mem]
    exact fun hmem ↦ hlive (List.of_mem_filter hmem)

end

/-- Marking the empty string takes the next line instead. -/
theorem liveLines_markRemoved_nil (content : Str) :
    (liveLines (markRemoved [] content)).Perm
      ((lineAfterEmpty content).elim (liveLines content) (liveLines content).erase) := by
  rcases markRemoved_eq [] content with ⟨hsame, hno⟩ | ⟨pre, rest, hpre, hls, -, hmark⟩
  · rw [hsame, lineAfterEmpty_of_notMem (hno.resolve_right fun hne ↦ hne.1 rfl)]
    rfl
  have hfree : ∀ line ∈ pre, '\n' ∉ line := fun line hline ↦
    sep_notMem_of_mem_lines (hls ▸ List.mem_append_left _ hline)
  have hset : ([] ++ '\n' :: rest).set 0 tombstone = tombstone :: rest := rfl
  have hmerged : (lines '\n' (tombstone :: rest)).filter isLive =
      (lines '\n' rest).tail.filter isLive := by
    rw [lines_cons_of_ne tombstone_ne_newline.symm]
    exact List.filter_cons_of_neg (by simp)
  rw [hmark, hset, liveLines, lines_unlines_append hfree, List.filter_append, hmerged,
    lineAfterEmpty_of_lines hls hpre, liveLines, hls, List.filter_append,
    List.filter_cons_of_neg (by simp [isLive])]
  cases lines '\n' rest with
  | nil => rfl
  | cons next ls =>
      show (pre.filter isLive ++ ls.filter isLive).Perm
        ((pre.filter isLive ++ (next :: ls).filter isLive).erase next)
      by_cases hlive : isLive next
      · rw [List.filter_cons_of_pos hlive]
        exact (List.perm_middle.erase next |>.trans (by rw [List.erase_cons_head])).symm
      · rw [List.filter_cons_of_neg hlive, List.erase_of_not_mem]
        rw [← List.filter_append]
        exact fun hmem ↦ hlive (List.of_mem_filter hmem)

/-! ## One call -/

/-- What is loaded is what is in memory, as far as it can be loaded at all. -/
def Loads (l : CachedFileList) : Prop :=
  ∀ t, t ∈ liveLines l.disk.file.content ↔ Plain t ∧ t ∈ l.cache

/-- The call changes the fate of no token but its own.  Either it does not come to the file,
or what it does there is:

* a token that is added is not a continuation of an unfinished line, and of another string
  that is added each line that would be loaded is in memory already;
* a string that is removed is on one line at most, and if it is empty, the line behind the
  first empty one is not the only one to be loaded of its kind. -/
def Edit.Harmless (l : CachedFileList) : Edit → Prop
  | add str => str ∈ l.cache ∨
      if Plain str then Terminated '\n' l.disk.file.content
      else ∀ line ∈ lines '\n' (unfinished '\n' l.disk.file.content ++ str ++ ['\n']),
        isLive line → line ∈ l.cache
  | remove str => str ∈ l.cache →
      if str = [] then
        ∀ next ∈ lineAfterEmpty l.disk.file.content,
          (liveLines l.disk.file.content).count next ≠ 1
      else (liveLines l.disk.file.content).count str ≤ 1

theorem Settled.call {l : CachedFileList} (h : Settled l.disk.file.content) (e : Edit) :
    Settled (l.call e.call).disk.file.content := by
  cases e with
  | add str =>
      show Settled (l.add str true).disk.file.content
      by_cases hmem : str ∈ l.cache
      · rwa [CachedFileList.add_of_mem hmem]
      · rw [CachedFileList.add_of_notMem hmem]
        show isLive (unfinished '\n' (l.disk.file.content ++ str ++ ['\n'])) = false
        rw [terminated_iff_unfinished.mp (terminated_append_newline str)]
        rfl
  | remove str =>
      show Settled (l.remove str true).disk.file.content
      by_cases hmem : str ∈ l.cache
      swap
      · rwa [CachedFileList.remove_of_notMem hmem]
      cases hfile : l.disk.file with
      | none => rwa [CachedFileList.remove_of_absent hfile]
      | some content =>
          rw [CachedFileList.remove_of_mem hmem hfile]
          rw [hfile] at h
          exact Settled.markRemoved h str

/-- A token that is written behind an unfinished line is lost in it. -/
theorem Settled.added_of_plain {content str : Str} (h : Settled content) (hstr : Plain str) :
    (lines '\n' (unfinished '\n' content ++ str ++ ['\n'])).filter isLive =
      if Terminated '\n' content then [str] else [] := by
  have hfree : '\n' ∉ unfinished '\n' content ++ str := by
    rw [List.mem_append, not_or]
    exact ⟨sep_notMem_unfinished content, hstr.no_newline⟩
  rw [lines_line_append hfree, lines_nil, List.filter_singleton]
  split
  · next hterm => rw [terminated_iff_unfinished.mp hterm, List.nil_append, hstr.isLive, cond_true]
  · next hterm =>
      rw [terminated_iff_unfinished] at hterm
      obtain ⟨c, tl, hunf⟩ := List.exists_cons_of_ne_nil hterm
      have hdead : isLive (unfinished '\n' content) = false := h
      rw [hunf] at hdead ⊢
      have hc : isLive (c :: tl ++ str) = false := hdead
      rw [hc, cond_false]

theorem Loads.add_iff {l : CachedFileList} (h : Loads l) (hset : Settled l.disk.file.content)
    (str : Str) : Loads (l.call (Edit.add str).call) ↔ (Edit.add str).Harmless l := by
  show Loads (l.add str true) ↔ _
  by_cases hmem : str ∈ l.cache
  · rw [CachedFileList.add_of_mem hmem]
    exact iff_of_true h (.inl hmem)
  rw [CachedFileList.add_of_notMem hmem, Edit.Harmless, or_iff_right hmem]
  unfold Loads
  simp only [FileState.content_some, Finset.mem_insert]
  have hlive := hset.liveLines_append str
  split
  · next hplain =>
      rw [hlive, hset.added_of_plain hplain]
      have hno : str ∉ liveLines l.disk.file.content := fun hin ↦ hmem ((h str).mp hin).2
      split
      · next hterm =>
          refine iff_of_true (fun t ↦ ?_) hterm
          rw [List.mem_append, List.mem_singleton, h t]
          constructor
          · rintro (⟨ht, hin⟩ | rfl)
            · exact ⟨ht, .inr hin⟩
            · exact ⟨hplain, .inl rfl⟩
          · rintro ⟨ht, rfl | hin⟩
            · exact .inr rfl
            · exact .inl ⟨ht, hin⟩
      · next hterm =>
          refine iff_of_false (fun hall ↦ ?_) hterm
          have hin := (hall str).mpr ⟨hplain, .inl rfl⟩
          rw [List.append_nil] at hin
          exact hno hin
  · next hplain =>
      constructor
      · intro hall line hline hl
        have hin : line ∈ liveLines (l.disk.file.content ++ str ++ ['\n']) := by
          rw [hlive]
          exact List.mem_append_right _ (List.mem_filter.mpr ⟨hline, hl⟩)
        obtain ⟨ht, rfl | hcache⟩ := (hall line).mp hin
        · exact absurd ht hplain
        · exact hcache
      · intro hall t
        constructor
        · intro hin
          refine ⟨plain_of_mem_liveLines hin, .inr ?_⟩
          rw [hlive, List.mem_append] at hin
          rcases hin with hin | hin
          · exact ((h t).mp hin).2
          · exact hall t (List.mem_of_mem_filter hin) (List.of_mem_filter hin)
        · rintro ⟨ht, rfl | hin⟩
          · exact absurd ht hplain
          · rw [hlive]
            exact List.mem_append_left _ ((h t).mpr ⟨ht, hin⟩)

/-- Taking out one copy of an element changes what is in a list exactly if it is the
only one. -/
theorem mem_erase_iff_mem {L : List Str} {a : Str} :
    (∀ t, t ∈ L.erase a ↔ t ∈ L) ↔ L.count a ≠ 1 := by
  constructor
  · intro hall hone
    have hin : a ∈ L.erase a := (hall a).mpr (List.count_pos_iff.mp (hone ▸ Nat.one_pos))
    rw [← List.count_pos_iff, List.count_erase_self, hone] at hin
    exact Nat.lt_irrefl 0 hin
  · intro hne t
    by_cases ht : t = a
    · rw [ht, ← List.count_pos_iff, ← List.count_pos_iff, List.count_erase_self]
      omega
    · exact List.mem_erase_of_ne ht

/-- It takes the element out exactly if there is no other copy. -/
theorem mem_erase_iff_ne {L : List Str} {a : Str} :
    (∀ t, t ∈ L.erase a ↔ t ≠ a ∧ t ∈ L) ↔ L.count a ≤ 1 := by
  constructor
  · intro hall
    have hno : a ∉ L.erase a := fun hin ↦ ((hall a).mp hin).1 rfl
    rw [← List.count_pos_iff, List.count_erase_self] at hno
    omega
  · intro hle t
    by_cases ht : t = a
    · refine iff_of_false ?_ fun h ↦ h.1 ht
      rw [ht, ← List.count_pos_iff, List.count_erase_self]
      omega
    · rw [List.mem_erase_of_ne ht, and_iff_right ht]

theorem Loads.remove_iff {l : CachedFileList} (h : Loads l) (hset : Settled l.disk.file.content)
    (hback : FileBacked l) (str : Str) :
    Loads (l.call (Edit.remove str).call) ↔ (Edit.remove str).Harmless l := by
  show Loads (l.remove str true) ↔ _
  by_cases hmem : str ∈ l.cache
  swap
  · rw [CachedFileList.remove_of_notMem hmem]
    exact iff_of_true h fun hin ↦ absurd hin hmem
  cases hfile : l.disk.file with
  | none => exact absurd (hback hfile ▸ hmem) (Finset.notMem_empty str)
  | some content =>
      rw [CachedFileList.remove_of_mem hmem hfile, Edit.Harmless, forall_prop_of_true hmem, hfile]
      unfold Loads at h ⊢
      rw [hfile, FileState.content_some] at h hset
      simp only [FileState.content_some, Finset.mem_erase]
      have hleft : ∀ t, Plain t ∧ t ≠ str ∧ t ∈ l.cache ↔ t ≠ str ∧ t ∈ liveLines content :=
        fun t ↦ by rw [h t, and_left_comm]
      simp only [hleft]
      split
      · next hnil =>
          subst hnil
          have hall : ∀ t, t ≠ [] ∧ t ∈ liveLines content ↔ t ∈ liveLines content := fun t ↦
            and_iff_right_of_imp fun hin ↦ (plain_of_mem_liveLines hin).ne_nil
          simp only [(liveLines_markRemoved_nil content).mem_iff, hall]
          cases lineAfterEmpty content with
          | none => exact iff_of_true (fun t ↦ Iff.rfl) nofun
          | some next =>
              simp only [Option.elim_some, Option.mem_some_iff, forall_eq']
              exact mem_erase_iff_mem
      · next hne =>
          rw [hset.liveLines_markRemoved hne]
          exact mem_erase_iff_ne

/-- One call keeps what is loaded right exactly if it is harmless. -/
theorem Loads.call_iff {l : CachedFileList} (h : Loads l) (hset : Settled l.disk.file.content)
    (hback : FileBacked l) (e : Edit) : Loads (l.call e.call) ↔ e.Harmless l := by
  cases e with
  | add str => exact h.add_iff hset str
  | remove str => exact h.remove_iff hset hback str

/-! ## Runs -/

theorem settled_edited (temp : FileState) (es : List Edit) :
    Settled (edited temp es).disk.file.content := by
  induction es using List.reverseRecOn with
  | nil => exact rfl
  | append_singleton es e ih =>
      rw [edited_snoc]
      exact ih.call e

theorem independent_iff_loads (temp : FileState) (es : List Edit) :
    Independent temp es ↔ Loads (edited temp es) := by
  unfold Independent Loads
  simp only [populateCacheFromFile_eq, List.mem_toFinset, ← mem_cache_edited temp es]
  refine forall_congr' fun t ↦ ?_
  constructor
  · intro h
    by_cases ht : Plain t
    · rw [h ht, and_iff_right ht]
    · exact iff_of_false (fun hin ↦ ht (plain_of_mem_liveLines hin)) fun hin ↦ ht hin.1
  · intro h ht
    rw [h, and_iff_right ht]

/-- **When the fates are independent.**  After every call of the sequence the file loads
exactly the tokens that were last added, if and only if every call was harmless in the
state it found. -/
theorem independent_iff (temp : FileState) (es : List Edit) :
    (∀ before, before <+: es → Independent temp before) ↔
      ∀ before e, before ++ [e] <+: es → e.Harmless (edited temp before) := by
  constructor
  · intro h before e hbefore
    have hnow := h before ((List.prefix_append before [e]).trans hbefore)
    have hnext := h (before ++ [e]) hbefore
    rw [independent_iff_loads] at hnow hnext
    rw [edited_snoc] at hnext
    exact (hnow.call_iff (settled_edited temp before) (fileBacked_edited temp before) e).mp hnext
  · intro h before
    induction before using List.reverseRecOn with
    | nil => exact fun _ t _ ↦ iff_of_false (Finset.notMem_empty t) nofun
    | append_singleton before e ih =>
        intro hbefore
        have hnow := ih ((List.prefix_append before [e]).trans hbefore)
        rw [independent_iff_loads] at hnow ⊢
        rw [edited_snoc]
        exact (hnow.call_iff (settled_edited temp before) (fileBacked_edited temp before) e).mpr
          (h before e hbefore)

/-- Blacklisting a string of two lines blacklists the token on the second one, and taking
the empty string from the blacklist takes the token added after it as well. -/
theorem not_independent :
    ¬ Independent none [.add "a\nb".toList] ∧
      ¬ Independent none [.add [], .add ['b'], .remove []] := by
  have hplain : Plain ['b'] := by decide
  exact ⟨fun h ↦ absurd ((h ['b'] hplain).mp (by decide)) (by decide),
    fun h ↦ absurd ((h ['b'] hplain).mpr (by decide)) (by decide)⟩

end AsabruCommons.Authentication
