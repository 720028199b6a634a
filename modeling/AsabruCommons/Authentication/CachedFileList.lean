import AsabruCommons.Basic
import AsabruCommons.Lines
import Mathlib.Data.Finset.Basic
import Mathlib.Data.Finset.Lattice.Lemmas

/-!
# The token blacklist: `CachedFileList`

A `CachedFileList` keeps a set of strings twice: in memory (`cache`) and, one
string a line, in a file.  A removed string is not cut out of the file: the
first byte of its line is overwritten by a vertical tab, and `compactFile`
later rewrites the file without the lines so marked.

This file translates the class and gives one lemma for each operation that says
what it does to the lines of the file.  They are simplest for files whose last
line is terminated, which is the form in which the class leaves its own file as
long as it is not asked to remove the empty string; what `remove` does to any
other file is in `markRemoved_eq`.

Two details of the C++ streams matter below.

* `getline` on an unterminated last line yields that line and sets `eofbit`, so
  the `put` that would mark it writes nothing (`markRemoved`).
* `line[0]` of an empty `std::string` is the zero byte, so `compactFile` keeps
  empty lines although the loader skips them.
-/

namespace AsabruCommons.Authentication

open Lines

/-- The marker `'\v'` of a removed line. -/
def tombstone : Char := '\x0b'

/-- `line[0]`, which is the zero byte when the line is empty. -/
def firstByte (line : Str) : Char := line.headD '\x00'

/-- The two paths the class uses: its file and `filename + ".temp"`. -/
structure Disk where
  file : FileState
  temp : FileState
deriving DecidableEq

structure CachedFileList where
  cache : Finset Str
  disk : Disk
deriving DecidableEq

/-- The loop body of `populateCacheFromFile` inserts exactly these lines. -/
def isLive (line : Str) : Bool := !line.isEmpty && firstByte line != tombstone

def populateCacheFromFile (file : FileState) : Finset Str :=
  match file with
  | none => ∅
  | some content => (lines '\n' content).foldl
      (fun cache line ↦ if isLive line then insert line cache else cache) ∅

namespace CachedFileList

/-- The constructor. -/
def construct (disk : Disk) : CachedFileList := ⟨populateCacheFromFile disk.file, disk⟩

/-- `opens` is the outcome of opening the output file, which creates it when it
is absent. -/
def add (l : CachedFileList) (str : Str) (opens : Bool) : CachedFileList :=
  if str ∈ l.cache then l
  else if opens then
    { cache := insert str l.cache
      disk := { l.disk with file := some (l.disk.file.content ++ str ++ ['\n']) } }
  else l

end CachedFileList

/-- The offset at which `remove` stops: that of the first line equal to `str`,
the lines before it counting one more than their length. -/
def seekLine (str : Str) : Nat → List Str → Option Nat
  | _, [] => none
  | pos, line :: rest =>
      if line = str then some pos else seekLine str (pos + (line.length + 1)) rest

/-- The file content after the loop of `remove`. -/
def markRemoved (str content : Str) : Str :=
  match seekLine str 0 (lines '\n' content) with
  | none => content
  | some pos =>
      -- an unterminated last line leaves `eofbit` set, and `put` then does nothing
      if pos + str.length < content.length then content.set pos tombstone else content

/-- A step of `compactFile` on the file system. -/
inductive CompactStep where
  | openInput
  | openTemp
  | writeLine (line : Str)
  | closeInput
  | closeTemp
  | removeFile
  | renameTemp
deriving DecidableEq, Repr

def CompactStep.perform : CompactStep → Disk → Disk
  | .openInput, d => d
  | .openTemp, d => { d with temp := some [] }
  | .writeLine line, d => { d with temp := d.temp.map (· ++ line ++ ['\n']) }
  | .closeInput, d => d
  | .closeTemp, d => d
  | .removeFile, d => { d with file := none }
  | .renameTemp, d =>
      match d.temp with
      | none => d
      | some t => { file := some t, temp := none }

/-- The lines `compactFile` copies. -/
def keptLines (content : Str) : List Str :=
  (lines '\n' content).filter fun line ↦ firstByte line != tombstone

/-- The steps of `compactFile` that fill the temporary file, both files opening. -/
def copySteps (content : Str) : List CompactStep :=
  [.openInput, .openTemp] ++ (keptLines content).map .writeLine ++ [.closeInput, .closeTemp]

/-- The steps of `compactFile`, both files opening, on a file with this content. -/
def compactSteps (content : Str) : List CompactStep :=
  copySteps content ++ [.removeFile, .renameTemp]

def performAll (steps : List CompactStep) (d : Disk) : Disk :=
  steps.foldl (fun d step ↦ step.perform d) d

namespace CachedFileList

/-- Opening with `in | out` fails when the file is absent; `opens` is the
outcome otherwise. -/
def remove (l : CachedFileList) (str : Str) (opens : Bool) : CachedFileList :=
  if str ∈ l.cache then
    match l.disk.file with
    | none => l
    | some content =>
        if opens then
          { cache := l.cache.erase str
            disk := { l.disk with file := some (markRemoved str content) } }
        else l
  else l

def find (l : CachedFileList) (str : Str) : Bool := decide (str ∈ l.cache)

/-- `getAll` lists the cache in the order of the hash table, which is any order. -/
def GetAll (l : CachedFileList) (result : List Str) : Prop :=
  result.Nodup ∧ result.toFinset = l.cache

instance (l : CachedFileList) (result : List Str) : Decidable (l.GetAll result) :=
  inferInstanceAs (Decidable (_ ∧ _))

/-- `inOpens` and `tempOpens` are the outcomes of opening the two files. -/
def compactFile (l : CachedFileList) (inOpens tempOpens : Bool) : CachedFileList :=
  match l.disk.file with
  | none => l
  | some content =>
      if inOpens then
        if tempOpens then { l with disk := performAll (compactSteps content) l.disk } else l
      else l

end CachedFileList

/-! ## What is loaded -/

/-- The lines of a content that the loader keeps. -/
def liveLines (content : Str) : List Str := (lines '\n' content).filter isLive

theorem foldl_insert_filter (ls : List Str) (s : Finset Str) :
    ls.foldl (fun cache line ↦ if isLive line then insert line cache else cache) s =
      s ∪ (ls.filter isLive).toFinset := by
  induction ls generalizing s with
  | nil => simp
  | cons l ls ih =>
      rw [List.foldl_cons, ih]
      by_cases h : isLive l
      · rw [if_pos h, List.filter_cons_of_pos h, List.toFinset_cons, Finset.insert_union,
          Finset.union_insert]
      · rw [if_neg h, List.filter_cons_of_neg h]

/-- The loader keeps the live lines of the content; an absent file has none. -/
theorem populateCacheFromFile_eq (file : FileState) :
    populateCacheFromFile file = (liveLines file.content).toFinset := by
  cases file with
  | none => rfl
  | some content => exact (foldl_insert_filter _ ∅).trans (Finset.empty_union _)

theorem isLive_iff {line : Str} : isLive line ↔ line ≠ [] ∧ firstByte line ≠ tombstone := by
  simp [isLive]

@[simp] theorem isLive_tombstone_cons (line : Str) : isLive (tombstone :: line) = false := by
  simp [isLive, firstByte]

theorem mem_liveLines {content line : Str} :
    line ∈ liveLines content ↔ line ∈ lines '\n' content ∧ isLive line := List.mem_filter

theorem tombstone_ne_newline : tombstone ≠ '\n' := by decide

/-! ## The branches of `add` and `remove` -/

namespace CachedFileList

variable {l : CachedFileList} {str : Str}

theorem add_of_mem (h : str ∈ l.cache) (opens : Bool) : l.add str opens = l := if_pos h

theorem add_of_notMem (h : str ∉ l.cache) :
    l.add str true =
      { cache := insert str l.cache
        disk := { l.disk with file := some (l.disk.file.content ++ str ++ ['\n']) } } := by
  rw [add, if_neg h, if_pos rfl]

theorem remove_of_notMem (h : str ∉ l.cache) (opens : Bool) : l.remove str opens = l := if_neg h

theorem remove_of_absent (h : l.disk.file = none) (str : Str) (opens : Bool) :
    l.remove str opens = l := by
  rw [remove, h]
  exact ite_self l

theorem remove_of_mem {content : Str} (h : str ∈ l.cache) (hfile : l.disk.file = some content) :
    l.remove str true =
      { cache := l.cache.erase str
        disk := { l.disk with file := some (markRemoved str content) } } := by
  rw [remove, if_pos h, hfile]
  exact if_pos rfl

end CachedFileList

/-! ## What they do to the lines of the file -/

section

variable {content : Str} (hc : Terminated '\n' content)
include hc

/-- `add` appends one line. -/
theorem lines_append_line {str : Str} (hstr : '\n' ∉ str) :
    lines '\n' (content ++ str ++ ['\n']) = lines '\n' content ++ [str] := by
  rw [List.append_assoc, lines_append hc, lines_line_append hstr, lines_nil]

/-- Whatever is added, newlines included, the lines there were stay where they
are and the file stays terminated. -/
theorem lines_prefix_append (str : Str) :
    lines '\n' content <+: lines '\n' (content ++ str ++ ['\n']) :=
  ⟨lines '\n' (str ++ ['\n']), by rw [List.append_assoc, lines_append hc]⟩

omit hc in
theorem terminated_append_newline (str : Str) : Terminated '\n' (content ++ str ++ ['\n']) := by
  intro c hc
  simpa [eq_comm] using hc

end

/-- `seekLine` finds the first line equal to `str`, at the length of what is
written before it. -/
theorem seekLine_eq_some {str : Str} {ls : List Str} {pos n : Nat}
    (h : seekLine str n ls = some pos) :
    ∃ pre post, ls = pre ++ str :: post ∧ str ∉ pre ∧ pos = n + (unlines '\n' pre).length := by
  induction ls generalizing n with
  | nil => cases h
  | cons line rest ih =>
      by_cases hl : line = str
      · rw [seekLine, if_pos hl] at h
        exact ⟨[], rest, by rw [hl, List.nil_append], List.not_mem_nil,
          (Option.some.inj h).symm⟩
      · rw [seekLine, if_neg hl] at h
        obtain ⟨pre, post, hls, hpre, hpos⟩ := ih h
        refine ⟨line :: pre, post, by rw [hls, List.cons_append], ?_, ?_⟩
        · rw [List.mem_cons, not_or]
          exact ⟨Ne.symm hl, hpre⟩
        · rw [hpos, unlines_cons, List.length_append, List.length_cons]
          omega

theorem seekLine_eq_none {str : Str} {ls : List Str} {n : Nat}
    (h : seekLine str n ls = none) : str ∉ ls := by
  induction ls generalizing n with
  | nil => exact List.not_mem_nil
  | cons line rest ih =>
      by_cases hl : line = str
      · rw [seekLine, if_pos hl] at h
        cases h
      · rw [seekLine, if_neg hl] at h
        rw [List.mem_cons, not_or]
        exact ⟨Ne.symm hl, ih h⟩

/-- What marking a string does to any file: nothing if the string is not on a line
that is ended, and otherwise the byte at the start of the first such line is overwritten. -/
theorem markRemoved_eq (str content : Str) :
    (markRemoved str content = content ∧
        (str ∉ lines '\n' content ∨ str ≠ [] ∧ str = unfinished '\n' content)) ∨
      ∃ pre rest, str ∉ pre ∧ lines '\n' content = pre ++ str :: lines '\n' rest ∧
        content = unlines '\n' pre ++ (str ++ '\n' :: rest) ∧
        markRemoved str content = unlines '\n' pre ++ (str ++ '\n' :: rest).set 0 tombstone := by
  cases hseek : seekLine str 0 (lines '\n' content) with
  | none => exact .inl ⟨by rw [markRemoved, hseek], .inl (seekLine_eq_none hseek)⟩
  | some pos =>
      obtain ⟨pre, post, hls, hpre, hpos⟩ := seekLine_eq_some hseek
      rw [Nat.zero_add] at hpos
      rcases eq_of_lines_eq hls with ⟨hcontent, hne, -⟩ | ⟨rest, hcontent, rfl⟩
      · refine .inl ⟨?_, .inr ⟨hne, ?_⟩⟩
        · rw [markRemoved, hseek]
          refine if_neg ?_
          rw [hcontent, hpos, List.length_append]
          exact Nat.lt_irrefl _
        · rw [hcontent, unfinished_append (terminated_unlines pre), unfinished_of_sep_notMem]
          exact sep_notMem_of_mem_lines (hls ▸ List.mem_append_right pre List.mem_cons_self)
      · refine .inr ⟨pre, rest, hpre, hls, hcontent, ?_⟩
        have hlt : pos + str.length < content.length := by
          rw [hcontent, hpos, List.length_append, List.length_append, List.length_cons]
          omega
        rw [markRemoved, hseek]
        refine (if_pos hlt).trans ?_
        rw [hpos]
        conv_lhs => rw [hcontent]
        rw [List.set_append_right _ _ (Nat.le_refl _), Nat.sub_self]

/-- Marking a string that is not empty: the first line that is the string gets the marker
for its first byte, and all other lines stay as they are. -/
theorem markRemoved_cons (c : Char) (tl content : Str) :
    (markRemoved (c :: tl) content = content ∧
        (c :: tl ∉ lines '\n' content ∨ c :: tl = unfinished '\n' content)) ∨
      ∃ pre post, lines '\n' content = pre ++ (c :: tl) :: post ∧ c :: tl ∉ pre ∧
        lines '\n' (markRemoved (c :: tl) content) = pre ++ (tombstone :: tl) :: post ∧
        unfinished '\n' (markRemoved (c :: tl) content) = unfinished '\n' content := by
  rcases markRemoved_eq (c :: tl) content with
    ⟨hsame, hno⟩ | ⟨pre, rest, hpre, hls, hcontent, hmark⟩
  · exact .inl ⟨hsame, hno.imp_right And.right⟩
  have hfree : ∀ line ∈ pre, '\n' ∉ line := fun line hline ↦
    sep_notMem_of_mem_lines (hls ▸ List.mem_append_left _ hline)
  have hline : '\n' ∉ c :: tl :=
    sep_notMem_of_mem_lines (hls ▸ List.mem_append_right pre List.mem_cons_self)
  have hdead : '\n' ∉ tombstone :: tl := by
    rw [List.mem_cons, not_or] at hline ⊢
    exact ⟨tombstone_ne_newline.symm, hline.2⟩
  have hset : (c :: tl ++ '\n' :: rest).set 0 tombstone = tombstone :: tl ++ '\n' :: rest := rfl
  rw [hset] at hmark
  refine .inr ⟨pre, lines '\n' rest, hls, hpre, ?_, ?_⟩
  · rw [hmark, lines_unlines_append hfree, lines_line_append hdead]
  · rw [hmark, hcontent, unfinished_append (terminated_unlines pre), unfinished_sep_append,
      unfinished_append (terminated_unlines pre), unfinished_sep_append]

/-- On a terminated file a string that is not marked is on no line, and marking another
one leaves the file terminated. -/
theorem markRemoved_cases {c : Char} {tl content : Str} (hc : Terminated '\n' content) :
    (c :: tl ∉ lines '\n' content ∧ markRemoved (c :: tl) content = content) ∨
    ∃ pre post, lines '\n' content = pre ++ (c :: tl) :: post ∧ c :: tl ∉ pre ∧
      lines '\n' (markRemoved (c :: tl) content) = pre ++ (tombstone :: tl) :: post ∧
      Terminated '\n' (markRemoved (c :: tl) content) := by
  rw [terminated_iff_unfinished] at hc
  rcases markRemoved_cons c tl content with ⟨hsame, hno⟩ | ⟨pre, post, hls, hpre, hmark, hunf⟩
  · refine .inl ⟨hno.resolve_right fun heq ↦ ?_, hsame⟩
    rw [hc] at heq
    exact List.cons_ne_nil c tl heq
  · exact .inr ⟨pre, post, hls, hpre, hmark, terminated_iff_unfinished.mpr (hunf.trans hc)⟩

/-- The temporary file after the copying loop. -/
theorem performAll_writeLine (ls : List Str) (file : FileState) (t : Str) :
    performAll (ls.map .writeLine) ⟨file, some t⟩ = ⟨file, some (t ++ unlines '\n' ls)⟩ := by
  induction ls generalizing t with
  | nil => simp [performAll]
  | cons l ls ih =>
      have := ih (t ++ l ++ ['\n'])
      simpa [performAll, CompactStep.perform] using this

theorem performAll_append (ss ts : List CompactStep) (d : Disk) :
    performAll (ss ++ ts) d = performAll ts (performAll ss d) := List.foldl_append

/-- The content `compactFile` leaves. -/
def compacted (content : Str) : Str := unlines '\n' (keptLines content)

theorem performAll_copySteps (content : Str) (file temp : FileState) :
    performAll (copySteps content) ⟨file, temp⟩ = ⟨file, some (compacted content)⟩ := by
  rw [copySteps, performAll_append, performAll_append]
  change performAll _ (performAll _ ⟨file, some []⟩) = _
  rw [performAll_writeLine]
  rfl

/-- `compactFile` performed to its end. -/
theorem performAll_compactSteps (content : Str) (file temp : FileState) :
    performAll (compactSteps content) ⟨file, temp⟩ = ⟨some (compacted content), none⟩ := by
  rw [compactSteps, performAll_append, performAll_copySteps]
  rfl

theorem CachedFileList.compactFile_of_present {l : CachedFileList} {content : Str}
    (h : l.disk.file = some content) :
    l.compactFile true true = { l with disk := ⟨some (compacted content), none⟩ } := by
  rw [compactFile, h]
  exact congrArg (CachedFileList.mk l.cache) (performAll_compactSteps content _ _)

theorem lines_compacted (content : Str) : lines '\n' (compacted content) = keptLines content :=
  lines_unlines fun _ hl ↦ sep_notMem_of_mem_lines (List.mem_of_mem_filter hl)

theorem terminated_compacted (content : Str) : Terminated '\n' (compacted content) :=
  terminated_unlines _

/-- Compaction drops no live line. -/
theorem liveLines_compacted (content : Str) :
    liveLines (compacted content) = liveLines content := by
  rw [liveLines, lines_compacted, keptLines, List.filter_filter, liveLines]
  refine List.filter_congr fun line _ ↦ ?_
  simp only [isLive]
  cases line.isEmpty <;> simp

end AsabruCommons.Authentication
