import AsabruCommons.LineGrabber
import Mathlib.Data.List.Infix

/-!
# The lines of a text

`getNextLine` moves the cursor by two characters at a carriage return, as if a line feed
followed.  If something else does, it is taken along: another carriage return or a line
feed is no loss, but a character of the text is.

Read from the left, each carriage return that is not itself taken along takes the
character behind it: `taken` are these characters, with `none` for a carriage return at
the end, behind which the cursor leaves the buffer, and `kept` is the text that is left over.
`kept` is what the lines have (`kept_of_linesFrom`, `exists_linesFrom`), so no text is lost
exactly if none is taken (`dropsNoText_iff`).
-/

namespace AsabruCommons.LineGrabber

open CArray CInt Search

/-! ## Text that is taken along -/

/-- What the carriage returns take along. -/
def taken : Str → List (Option Char)
  | [] => []
  | [c] => if c = '\r' then [none] else []
  | c :: d :: s => if c = '\r' then some d :: taken s else taken (d :: s)

/-- The text that is not taken along. -/
def kept : Str → Str
  | [] => []
  | [c] => if isText c then [c] else []
  | c :: d :: s =>
      if c = '\r' then kept s
      else if isText c then c :: kept (d :: s)
      else kept (d :: s)

theorem ne_return {c : Char} (hc : isText c) : c ≠ '\r' := (isText_iff.mp hc).1

theorem taken_cons {c : Char} (hc : c ≠ '\r') (s : Str) : taken (c :: s) = taken s := by
  cases s with
  | nil => exact if_neg hc
  | cons d s => exact if_neg hc

theorem kept_cons {c : Char} (hc : isText c) (s : Str) : kept (c :: s) = c :: kept s := by
  cases s with
  | nil => exact if_pos hc
  | cons d s => rw [kept, if_neg (ne_return hc), if_pos hc]

theorem kept_lineFeed (s : Str) : kept ('\n' :: s) = kept s := by
  cases s with
  | nil => rfl
  | cons d s => rfl

theorem taken_append {line : Str} (hline : ∀ c ∈ line, isText c) (s : Str) :
    taken (line ++ s) = taken s := by
  induction line with
  | nil => rfl
  | cons c line ih =>
      obtain ⟨hc, hline⟩ := List.forall_mem_cons.mp hline
      rw [List.cons_append, taken_cons (ne_return hc), ih hline]

theorem kept_append {line : Str} (hline : ∀ c ∈ line, isText c) (s : Str) :
    kept (line ++ s) = line ++ kept s := by
  induction line with
  | nil => rfl
  | cons c line ih =>
      obtain ⟨hc, hline⟩ := List.forall_mem_cons.mp hline
      rw [List.cons_append, kept_cons hc, ih hline, List.cons_append]

/-- There is nothing in it but text. -/
theorem length_kept_le (s : Str) : (kept s).length ≤ (s.filter isText).length := by
  induction s using kept.induct with
  | case1 => exact Nat.le_refl _
  | case2 c hc => rw [kept, if_pos hc, List.filter_cons_of_pos hc, List.filter_nil]
  | case3 c hc =>
      rw [kept, if_neg hc]
      exact Nat.zero_le _
  | case4 d s ih =>
      rw [kept, if_pos rfl]
      refine ih.trans (List.Sublist.length_le (List.Sublist.filter _ ?_))
      exact (List.sublist_cons_self d s).trans (List.sublist_cons_self _ _)
  | case5 c d s hreturn hc ih =>
      rw [kept, if_neg hreturn, if_pos hc, List.filter_cons_of_pos hc]
      exact Nat.succ_le_succ ih
  | case6 c d s hreturn hc ih =>
      rw [kept, if_neg hreturn, if_neg hc, List.filter_cons_of_neg hc]
      exact ih

/-- All the text is kept exactly if none of it is taken along. -/
theorem kept_eq_iff (s : Str) :
    kept s = s.filter isText ↔ ∀ c, some c ∈ taken s → isText c = false := by
  induction s using kept.induct with
  | case1 => simp [kept, taken]
  | case2 c hc =>
      refine iff_of_true ?_ fun d hd ↦ ?_
      · rw [kept, if_pos hc, List.filter_cons_of_pos hc, List.filter_nil]
      · rw [taken, if_neg (ne_return hc)] at hd
        cases hd
  | case3 c hc =>
      refine iff_of_true ?_ fun d hd ↦ ?_
      · rw [kept, if_neg hc, List.filter_cons_of_neg hc, List.filter_nil]
      · rw [taken] at hd
        split at hd
        · cases List.mem_singleton.mp hd
        · cases hd
  | case4 d s ih =>
      have hreturn : isText '\r' = false := rfl
      rw [kept, if_pos rfl, taken, if_pos rfl, List.filter_cons_of_neg (by rw [hreturn]; simp)]
      cases hd : isText d with
      | false =>
          rw [List.filter_cons_of_neg (by rw [hd]; simp), ih]
          constructor
          · intro h c hc
            rcases List.mem_cons.mp hc with heq | hc
            · rw [Option.some.inj heq, hd]
            · exact h c hc
          · intro h c hc
            exact h c (List.mem_cons_of_mem _ hc)
      | true =>
          -- one character of the text is missing
          refine iff_of_false (fun heq ↦ ?_) fun h ↦ ?_
          · have hlen := length_kept_le s
            rw [heq, List.filter_cons_of_pos hd, List.length_cons] at hlen
            exact absurd hlen (Nat.not_succ_le_self _)
          · rw [h d List.mem_cons_self] at hd
            cases hd
  | case5 c d s hreturn hc ih =>
      rw [kept, if_neg hreturn, if_pos hc, List.filter_cons_of_pos hc, List.cons_inj_right, ih,
        taken_cons hreturn]
  | case6 c d s hreturn hc ih =>
      rw [kept, if_neg hreturn, if_neg hc, List.filter_cons_of_neg hc, ih, taken_cons hreturn]

/-! ## One line -/

/-- The cursor behind a terminator. -/
theorem behindLine_lineFeed {g : LineGrabber} {s : Str} (h : g.text = '\n' :: s) :
    behindLine g ('\n' :: s) = some (g.moved 1) := by
  have hne : g.text ≠ [] := by
    rw [h]
    exact List.cons_ne_nil _ _
  have hindex := index_add_length hne
  have hsize := g.size_le
  rw [h, List.length_cons, m_size] at hindex
  rw [behindLine, if_neg (by decide)]
  apply advance_of_le
  omega

theorem behindLine_return {g : LineGrabber} {c : Char} {s : Str} (h : g.text = '\r' :: c :: s) :
    behindLine g ('\r' :: c :: s) = some (g.moved 2) := by
  have hne : g.text ≠ [] := by
    rw [h]
    exact List.cons_ne_nil _ _
  have hindex := index_add_length hne
  have hsize := g.size_le
  rw [h, List.length_cons, List.length_cons, m_size] at hindex
  rw [behindLine, if_pos rfl]
  apply advance_of_le
  omega

/-- **A line that fits.** -/
theorem getNextLine_line {g : LineGrabber} {line rest : Str} (htext : g.text = line ++ rest)
    (hline : ∀ c ∈ line, isText c) (hrest : ∀ c ∈ rest.head?, isText c = false)
    (hne : line ++ rest ≠ []) (hlen : line.length < 1024) (hzero : '\x00' ∉ line) :
    g.getNextLine = .ok (line, behindLine (g.moved line.length) rest) := by
  rw [getNextLine_eq htext hline hrest hne, if_pos (Nat.le_of_lt hlen), toStdString,
    cString_written hlen hzero]
  rfl

/-! ## All lines -/

/-- The lines that `getNextLine` returns until `isEof`, if at most this many calls get there. -/
def linesFrom : Nat → LineGrabber → Option (List Str)
  | 0, g => if g.isEof then some [] else none
  | rounds + 1, g =>
      if g.isEof then some []
      else
        match g.getNextLine with
        | .ok (line, some g) => (linesFrom rounds g).map (line :: ·)
        | _ => none

/-- Any 1023 consecutive characters contain a carriage return or a line feed. -/
def ShortLines (s : Str) : Prop :=
  ∀ window, window <:+: s → window.length = 1023 → ∃ c ∈ window, isText c = false

theorem ShortLines.drop {s : Str} (h : ShortLines s) (n : Nat) : ShortLines (s.drop n) :=
  fun window hwindow ↦ h window (hwindow.trans (List.drop_suffix n s).isInfix)

theorem ShortLines.length_lt {s : Str} (h : ShortLines s) : (s.takeWhile isText).length < 1023 := by
  by_contra hlen
  have hwindow : (s.takeWhile isText).take 1023 <:+: s :=
    ((List.take_prefix _ _).trans (List.takeWhile_prefix _)).isInfix
  have hlength : ((s.takeWhile isText).take 1023).length = 1023 :=
    List.length_take_of_le (Nat.not_lt.mp hlen)
  obtain ⟨c, hc, hno⟩ := h _ hwindow hlength
  have hyes := List.mem_takeWhile_imp (List.mem_of_mem_take hc)
  rw [hno] at hyes
  cases hyes

/-- A carriage return at the very end does not take the cursor out of its range. -/
def InRange (g : LineGrabber) : Prop := none ∈ taken g.text → (g.m_size : Int) < intMax

/-- A line does not change what becomes of the end. -/
theorem inRange_moved_iff {g : LineGrabber} {line rest : Str} (htext : g.text = line ++ rest)
    (hline : ∀ c ∈ line, isText c) : (g.moved line.length).InRange ↔ g.InRange := by
  rw [InRange, InRange, text_moved, htext, List.drop_left, taken_append hline]
  rfl

/-- **Behind a line.**  The cursor goes on behind the terminator and what it takes along, if
there is any; or it leaves its range. -/
theorem behindLine_cases {g : LineGrabber} {rest : Str} (htext : g.text = rest)
    (hhead : ∀ c ∈ rest.head?, isText c = false) :
    behindLine g rest = none ∧ ¬ g.InRange ∨
      ∃ n, (rest ≠ [] → 0 < n) ∧ behindLine g rest = some (g.moved n) ∧
        kept rest = kept (g.moved n).text ∧ ((g.moved n).InRange ↔ g.InRange) := by
  cases rest with
  | nil =>
      refine .inr ⟨0, fun hne ↦ absurd rfl hne, rfl, ?_, Iff.rfl⟩
      rw [text_moved, htext]
      rfl
  | cons c rest =>
      have hc := hhead c rfl
      by_cases hreturn : c = '\r'
      · subst hreturn
        cases rest with
        | nil =>
            -- the cursor goes one behind the end
            have hindex : g.m_index + 1 = g.m_size := by
              have hsum := index_add_length (g := g) (htext ▸ List.cons_ne_nil _ _)
              rw [htext] at hsum
              exact hsum
            by_cases hrange : (g.m_size : Int) < intMax
            · refine .inr ⟨2, fun _ ↦ Nat.succ_pos _, ?_, ?_, ?_⟩
              · rw [behindLine, if_pos rfl]
                apply advance_of_le
                omega
              · rw [text_moved, htext]
                rfl
              · exact iff_of_true (fun _ ↦ hrange) fun _ ↦ hrange
            · refine .inl ⟨?_, fun h ↦ hrange (h ?_)⟩
              · rw [behindLine, if_pos rfl]
                apply advance_of_lt
                omega
              · rw [htext]
                exact List.mem_singleton_self none
        | cons d rest =>
            refine .inr ⟨2, fun _ ↦ Nat.succ_pos _, behindLine_return htext, ?_, ?_⟩
            · rw [text_moved, htext]
              rfl
            · rw [InRange, InRange, text_moved, htext]
              show (none ∈ taken rest → _) ↔ (none ∈ some d :: taken rest → _)
              rw [List.mem_cons, or_iff_right (Option.some_ne_none d).symm]
              rfl
      · have hfeed : c = '\n' := by
          by_contra hno
          rw [isText_iff.mpr ⟨hreturn, hno⟩] at hc
          cases hc
        subst hfeed
        refine .inr ⟨1, fun _ ↦ Nat.one_pos, behindLine_lineFeed htext, ?_, ?_⟩
        · rw [text_moved, htext, kept_lineFeed]
          rfl
        · rw [InRange, InRange, text_moved, htext, taken_cons hreturn]
          rfl

/-- **One call.**  It returns the text up to where the cursor goes, without what is taken along;
or the cursor leaves its range. -/
theorem getNextLine_cases {g : LineGrabber} (hne : g.text ≠ []) (hshort : ShortLines g.text)
    (hzero : '\x00' ∉ g.text) :
    ∃ line, g.getNextLine = .ok (line, none) ∧ ¬ g.InRange ∨
      ∃ n, 0 < n ∧ g.getNextLine = .ok (line, some (g.moved n)) ∧
        kept g.text = line ++ kept (g.moved n).text ∧ ((g.moved n).InRange ↔ g.InRange) := by
  obtain ⟨line, hline⟩ : ∃ line, line = g.text.takeWhile isText := ⟨_, rfl⟩
  obtain ⟨rest, hrest⟩ : ∃ rest, rest = g.text.dropWhile isText := ⟨_, rfl⟩
  have htext : g.text = line ++ rest := by
    rw [hline, hrest]
    exact List.takeWhile_append_dropWhile.symm
  have hisText : ∀ c ∈ line, isText c := by
    rw [hline]
    exact fun c hc ↦ List.mem_takeWhile_imp hc
  have hlen : line.length < 1024 := by
    rw [hline]
    exact hshort.length_lt.trans (Nat.lt_succ_self _)
  have hhead : ∀ c ∈ rest.head?, isText c = false := by
    rw [hrest]
    exact head?_dropWhile_isText g.text
  have hnext := getNextLine_line htext hisText hhead (htext ▸ hne) hlen
    (fun hmem ↦ hzero (htext ▸ List.mem_append_left _ hmem))
  have hmoved : (g.moved line.length).text = rest := by
    rw [text_moved, htext, List.drop_left]
  refine ⟨line, ?_⟩
  rcases behindLine_cases hmoved hhead with ⟨hnone, hout⟩ | ⟨n, hpos, hsome, hkept, hrange⟩
  · refine .inl ⟨hnext.trans (by rw [hnone]), ?_⟩
    rwa [inRange_moved_iff htext hisText] at hout
  · rw [moved_moved] at hsome hkept hrange
    refine .inr ⟨line.length + n, ?_, hnext.trans (by rw [hsome]), ?_, ?_⟩
    · rcases eq_or_ne rest [] with rfl | hrest
      · have hline : line ≠ [] := by
          rintro rfl
          exact hne htext
        exact Nat.add_pos_left (List.length_pos_iff.mpr hline) n
      · exact Nat.add_pos_right _ (hpos hrest)
    · rw [htext, kept_append hisText, hkept]
    · exact hrange.trans (inRange_moved_iff htext hisText)

/-! ### Until the end -/

/-- **What the lines have.**  If the calls get to the end, the lines are the text that is kept. -/
theorem kept_of_linesFrom {rounds : Nat} {g : LineGrabber} {lines : List Str}
    (hshort : ShortLines g.text) (hzero : '\x00' ∉ g.text)
    (hlines : linesFrom rounds g = some lines) : lines.flatten = kept g.text ∧ g.InRange := by
  induction rounds generalizing g lines with
  | zero =>
      rw [linesFrom, Option.ite_none_right_eq_some, isEof_iff] at hlines
      obtain ⟨hnil, hlines⟩ := hlines
      obtain rfl := Option.some.inj hlines
      rw [InRange, hnil]
      exact ⟨rfl, nofun⟩
  | succ rounds ih =>
      rw [linesFrom] at hlines
      by_cases hnil : g.text = []
      · rw [if_pos (g.isEof_iff.mpr hnil)] at hlines
        obtain rfl := Option.some.inj hlines
        rw [InRange, hnil]
        exact ⟨rfl, nofun⟩
      · rw [if_neg (mt g.isEof_iff.mp hnil)] at hlines
        obtain ⟨line, ⟨hnext, -⟩ | ⟨n, -, hnext, hkept, hrange⟩⟩ :=
          getNextLine_cases hnil hshort hzero
        · rw [hnext] at hlines
          cases hlines
        · rw [hnext] at hlines
          obtain ⟨rest, hrest, rfl⟩ := Option.map_eq_some_iff.mp hlines
          have hdrop : (g.moved n).text = g.text.drop n := g.text_moved n
          obtain ⟨hflatten, hinrange⟩ := ih (hdrop ▸ hshort.drop n)
            (fun hmem ↦ hzero (List.mem_of_mem_drop (hdrop ▸ hmem))) hrest
          rw [List.flatten_cons, hflatten, hkept]
          exact ⟨rfl, hrange.mp hinrange⟩

/-- The calls get to the end, with at most one call for each character. -/
theorem exists_linesFrom {rounds : Nat} {g : LineGrabber} (hlen : g.text.length ≤ rounds)
    (hshort : ShortLines g.text) (hzero : '\x00' ∉ g.text) (hrange : g.InRange) :
    ∃ lines, linesFrom rounds g = some lines := by
  induction rounds generalizing g with
  | zero =>
      have hnil := List.length_eq_zero_iff.mp (Nat.le_zero.mp hlen)
      exact ⟨[], if_pos (g.isEof_iff.mpr hnil)⟩
  | succ rounds ih =>
      rw [linesFrom]
      by_cases hnil : g.text = []
      · exact ⟨[], if_pos (g.isEof_iff.mpr hnil)⟩
      · rw [if_neg (mt g.isEof_iff.mp hnil)]
        obtain ⟨line, ⟨-, hno⟩ | ⟨n, hpos, hnext, -, hiff⟩⟩ := getNextLine_cases hnil hshort hzero
        · exact absurd hrange hno
        · have hdrop : (g.moved n).text = g.text.drop n := g.text_moved n
          have hless : (g.moved n).text.length ≤ rounds := by
            rw [hdrop, List.length_drop]
            omega
          obtain ⟨lines, hlines⟩ := ih hless (hdrop ▸ hshort.drop n)
            (fun hmem ↦ hzero (List.mem_of_mem_drop (hdrop ▸ hmem))) (hiff.mpr hrange)
          refine ⟨line :: lines, ?_⟩
          rw [hnext]
          show (linesFrom rounds (g.moved n)).map (line :: ·) = _
          rw [hlines]
          rfl

/-- The calls come to an end, and the lines one behind the other are the text without its
carriage returns and line feeds. -/
def DropsNoText (g : LineGrabber) : Prop :=
  ∃ rounds lines, linesFrom rounds g = some lines ∧ lines.flatten = g.m_buffer.filter isText

/-- **No text is dropped.**  Exactly if no carriage return takes text along, and none at the end
takes the cursor out of its range. -/
theorem dropsNoText_iff {pbuffer : Str} (hsize : (pbuffer.length : Int) ≤ intMax)
    (hshort : ShortLines pbuffer) (hzero : '\x00' ∉ pbuffer) :
    (ofBuffer pbuffer hsize).DropsNoText ↔
      (∀ c, some c ∈ taken pbuffer → isText c = false) ∧
        (none ∈ taken pbuffer → (pbuffer.length : Int) < intMax) := by
  have htext : (ofBuffer pbuffer hsize).text = pbuffer := rfl
  rw [← kept_eq_iff]
  constructor
  · rintro ⟨rounds, lines, hlines, hflatten⟩
    obtain ⟨hkept, hrange⟩ := kept_of_linesFrom (htext.symm ▸ hshort) (htext.symm ▸ hzero) hlines
    exact ⟨hkept.symm.trans hflatten, hrange⟩
  · rintro ⟨hkept, hrange⟩
    obtain ⟨lines, hlines⟩ := exists_linesFrom (g := ofBuffer pbuffer hsize) (Nat.le_refl _)
      hshort hzero hrange
    obtain ⟨hflatten, -⟩ := kept_of_linesFrom (htext.symm ▸ hshort) (htext.symm ▸ hzero) hlines
    exact ⟨_, lines, hlines, hflatten.trans hkept⟩

theorem shortLines_of_length {s : Str} (h : s.length < 1023) : ShortLines s := by
  intro window hwindow hlen
  have hle := hwindow.length_le
  omega

theorem dropsNoText_mixed :
    (ofBuffer "a\r\nb\n\r\nc\r".toList (by decide)).DropsNoText := by
  have htaken : taken "a\r\nb\n\r\nc\r".toList = [some '\n', some '\n', none] := by decide
  refine (dropsNoText_iff _ (shortLines_of_length (by decide)) (by decide)).mpr ⟨?_, ?_⟩
  · rw [htaken]
    simp [isText]
  · exact fun _ ↦ by decide

/-- A carriage return alone. -/
theorem not_dropsNoText_return :
    ShortLines "a\rb".toList ∧ ¬ (ofBuffer "a\rb".toList (by decide)).DropsNoText := by
  have hshort := shortLines_of_length (s := "a\rb".toList) (by decide)
  refine ⟨hshort, ?_⟩
  rintro ⟨rounds, lines, hlines, hflatten⟩
  have hkept := (kept_of_linesFrom (g := ofBuffer "a\rb".toList (by decide)) hshort (by decide)
    hlines).1
  rw [hflatten] at hkept
  revert hkept
  decide

/-! ## Well-formed text -/

/-- What ends a line. -/
inductive Terminator where
  | crlf
  | lf
deriving DecidableEq

def Terminator.text : Terminator → Str
  | .crlf => ['\r', '\n']
  | .lf => ['\n']

/-- Lines with their terminators. -/
def laidOut (lines : List (Str × Terminator)) : Str := lines.flatMap fun l ↦ l.1 ++ l.2.text

theorem laidOut_eq_nil_iff {lines : List (Str × Terminator)} : laidOut lines = [] ↔ lines = [] := by
  cases lines with
  | nil => exact iff_of_true rfl rfl
  | cons l lines =>
      refine iff_of_false ?_ (List.cons_ne_nil l lines)
      rw [laidOut, List.flatMap_cons, List.append_eq_nil_iff, List.append_eq_nil_iff]
      rintro ⟨⟨-, hterminator⟩, -⟩
      revert hterminator
      cases l.2 with
      | crlf => exact List.cons_ne_nil _ _
      | lf => exact List.cons_ne_nil _ _

/-- The lines that the first calls return, and the object behind them. -/
def grabLines : Nat → LineGrabber → Option (List Str × LineGrabber)
  | 0, g => some ([], g)
  | k + 1, g =>
      match g.getNextLine with
      | .ok (line, some g) => (grabLines k g).map fun r ↦ (line :: r.1, r.2)
      | _ => none

/-- A line as it may stand in a well-formed text. -/
structure PlainLine (line : Str) : Prop where
  length_le : line.length ≤ 1023
  isText : ∀ c ∈ line, isText c
  no_zero : '\x00' ∉ line

/-- One call on a well-formed line. -/
theorem getNextLine_terminator {g : LineGrabber} {line rest : Str} (hline : PlainLine line)
    (terminator : Terminator) (htext : g.text = line ++ (terminator.text ++ rest)) :
    ∃ n, g.getNextLine = .ok (line, some (g.moved n)) ∧ (g.moved n).text = rest := by
  have hmoved : (g.moved line.length).text = terminator.text ++ rest := by
    rw [text_moved, htext, List.drop_left]
  have hlen := Nat.lt_succ_of_le hline.length_le
  cases terminator with
  | crlf =>
      refine ⟨line.length + 2, ?_, ?_⟩
      · rw [getNextLine_line htext hline.isText (by rintro c ⟨⟩; rfl) (by simp [Terminator.text])
          hlen hline.no_zero]
        have htail : (g.moved line.length).text = '\r' :: '\n' :: rest := hmoved
        show Except.ok (line, behindLine _ ('\r' :: '\n' :: rest)) = _
        rw [behindLine_return htail, moved_moved]
      · rw [← moved_moved, text_moved, hmoved]
        rfl
  | lf =>
      refine ⟨line.length + 1, ?_, ?_⟩
      · rw [getNextLine_line htext hline.isText (by rintro c ⟨⟩; rfl) (by simp [Terminator.text])
          hlen hline.no_zero]
        have htail : (g.moved line.length).text = '\n' :: rest := hmoved
        show Except.ok (line, behindLine _ ('\n' :: rest)) = _
        rw [behindLine_lineFeed htail, moved_moved]
      · rw [← moved_moved, text_moved, hmoved]
        rfl

/-- The first calls return the first lines. -/
theorem grabLines_laidOut {lines : List (Str × Terminator)} (hlines : ∀ l ∈ lines, PlainLine l.1)
    {g : LineGrabber} {rest : Str} (htext : g.text = laidOut lines ++ rest) {k : Nat}
    (hk : k ≤ lines.length) :
    ∃ n, grabLines k g = some ((lines.take k).map Prod.fst, g.moved n) ∧
      (g.moved n).text = laidOut (lines.drop k) ++ rest := by
  induction k generalizing g lines with
  | zero => exact ⟨0, rfl, htext⟩
  | succ k ih =>
      cases lines with
      | nil => exact absurd hk (Nat.not_succ_le_zero k)
      | cons l lines =>
          obtain ⟨hl, hlines⟩ := List.forall_mem_cons.mp hlines
          rw [laidOut, List.flatMap_cons, List.append_assoc, List.append_assoc] at htext
          obtain ⟨n, hnext, hmoved⟩ := getNextLine_terminator hl l.2 htext
          obtain ⟨m, hgrab, hrest⟩ := ih hlines hmoved (Nat.le_of_succ_le_succ hk)
          refine ⟨n + m, ?_, ?_⟩
          · rw [grabLines, hnext]
            show (grabLines k (g.moved n)).map _ = _
            rw [hgrab, moved_moved]
            rfl
          · rw [← moved_moved]
            exact hrest

/-- What fits with a zero byte is returned as it is. -/
theorem getContentTillEof_rest {g : LineGrabber} (hlen : g.text.length ≤ 1023)
    (hzero : '\x00' ∉ g.text) :
    ∃ g', g.getContentTillEof = .ok (g.text, some g') ∧ g'.isEof = true := by
  by_cases hnil : g.text = []
  · have heof := g.isEof_iff.mpr hnil
    refine ⟨g, ?_, heof⟩
    rw [hnil]
    exact if_pos heof
  · have hlt := Nat.lt_succ_of_le hlen
    refine ⟨g.moved g.text.length, ?_, ?_⟩
    · rw [getContentTillEof_eq hnil, if_pos (Nat.le_of_lt hlt), toStdString,
        cString_written hlt hzero]
      rfl
    · rw [isEof_iff, text_moved, List.drop_length]

/-- **Well-formed text.**  The first calls return the first lines; the end is reached exactly if
nothing remains; and behind the lines the rest is returned as it is. -/
theorem grabs_exactly {lines : List (Str × Terminator)} {rest : Str}
    (hlines : ∀ l ∈ lines, PlainLine l.1) (hrest : rest.length ≤ 1023) (hzero : '\x00' ∉ rest)
    (hsize : ((laidOut lines ++ rest).length : Int) ≤ intMax) {k : Nat} (hk : k ≤ lines.length) :
    ∃ g, grabLines k (ofBuffer (laidOut lines ++ rest) hsize) =
        some ((lines.take k).map Prod.fst, g) ∧
      (g.isEof = true ↔ lines.drop k = [] ∧ rest = []) ∧
      (k = lines.length →
        ∃ g', g.getContentTillEof = .ok (rest, some g') ∧ g'.isEof = true) := by
  obtain ⟨n, hgrab, htext⟩ := grabLines_laidOut (g := ofBuffer (laidOut lines ++ rest) hsize)
    hlines rfl hk
  refine ⟨_, hgrab, ?_, ?_⟩
  · rw [isEof_iff, htext, List.append_eq_nil_iff]
    exact and_congr_left fun _ ↦ laidOut_eq_nil_iff
  · rintro rfl
    rw [List.drop_length] at htext
    have hall : ((ofBuffer (laidOut lines ++ rest) hsize).moved n).text = rest := htext
    obtain ⟨g', hcall, heof⟩ := getContentTillEof_rest
      (hall.symm ▸ hrest) (hall.symm ▸ hzero)
    rw [hall] at hcall
    exact ⟨g', hcall, heof⟩

/-- Two lines, an empty one between them, and a rest without a terminator. -/
theorem grabs_exactly_three :
    ∃ g, grabLines 3 (ofBuffer "a\r\n\nbc\r\nd".toList (by decide)) =
        some (["a".toList, [], "bc".toList], g) ∧ g.isEof = false ∧
      ∃ g', g.getContentTillEof = .ok ("d".toList, some g') ∧ g'.isEof = true := by
  have hlines : ∀ l ∈ [("a".toList, Terminator.crlf), ([], .lf), ("bc".toList, .crlf)],
      PlainLine l.1 := by
    intro l hl
    simp only [List.mem_cons, List.not_mem_nil, or_false] at hl
    rcases hl with rfl | rfl | rfl
    · exact ⟨by decide, List.all_eq_true.mp rfl, by decide⟩
    · exact ⟨by decide, List.all_eq_true.mp rfl, by decide⟩
    · exact ⟨by decide, List.all_eq_true.mp rfl, by decide⟩
  obtain ⟨g, hgrab, heof, hrest⟩ := @grabs_exactly _ "d".toList hlines (by decide) (by decide)
    (by decide) 3 (Nat.le_refl _)
  refine ⟨g, hgrab, ?_, hrest rfl⟩
  rw [Bool.eq_false_iff, Ne, heof]
  exact fun h ↦ absurd h.2 (by decide)

end AsabruCommons.LineGrabber
