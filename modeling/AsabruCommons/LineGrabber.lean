import AsabruCommons.Basic
import AsabruCommons.CArray
import AsabruCommons.CInt
import AsabruCommons.Run
import AsabruCommons.Search

/-!
# Grabbing lines

A `LineGrabber` has a cursor in a buffer.  `getNextLine` copies what is in front of the next
carriage return or line feed into a local array of 1024 characters, and moves the cursor
behind it: by two characters at a carriage return, whatever the second one is, and by
one at a line feed.  `getContentTillEof` copies all that is left.

The guard of `getNextLine` lets the character with the number 1024 be written, which is the
first behind the array, and `getContentTillEof` has none.  An array that is full without a
zero byte in it is not a string either.  `callsStayInside_iff` says that nothing else goes
wrong.

Each call is given by the text that the cursor stands in front of; `getNextLine_eq` and
`getContentTillEof_eq` are the two specifications.
-/

namespace AsabruCommons

open CArray CInt Search

/-- The size of a buffer is an `int`. -/
structure LineGrabber where
  m_buffer : Str
  m_index : Nat
  size_le : (m_buffer.length : Int) ≤ intMax

namespace LineGrabber

/-! ## The calls -/

/-- What can go wrong with a local array: a write behind it, or no zero byte in it when it
is turned into a string. -/
inductive ArrayFault where
  | outside
  | unterminated
deriving DecidableEq

/-- `LineGrabber(pbuffer, size)` -/
def ofBuffer (pbuffer : Str) (h : (pbuffer.length : Int) ≤ intMax) : LineGrabber := ⟨pbuffer, 0, h⟩

def m_size (g : LineGrabber) : Nat := g.m_buffer.length

def isEof (g : LineGrabber) : Bool := g.m_size ≤ g.m_index

/-- What the cursor stands in front of. -/
def text (g : LineGrabber) : Str := g.m_buffer.drop g.m_index

/-- `m_index += n`; there is no cursor any more if the sum overflows. -/
def advance (g : LineGrabber) (n : Nat) : Option LineGrabber :=
  (checked (g.m_index + n)).map fun m_index ↦ { g with m_index := m_index.toNat }

/-- `std::string(buffer)` -/
def toStdString (buffer : CArray Char 1024) : Except ArrayFault Str :=
  match buffer.cString '\x00' 0 with
  | some s => .ok s
  | none => .error .unterminated

/-- The loop of `getNextLine`, with the text from `m_index` on.  Where a character is copied,
`m_index` is below `m_size` and does not overflow. -/
def nextLineLoop (buffer : CArray Char 1024) (ptr curr_buffer_size : Nat) (g : LineGrabber) :
    Str → Except ArrayFault (Str × Option LineGrabber)
  | [] => do return (← toStdString buffer, some g)
  | c :: text =>
      if 1024 < curr_buffer_size then .ok ([], some g)
      else if c ≠ '\r' ∧ c ≠ '\n' then
        match buffer.store ptr c with
        | none => .error .outside
        | some buffer =>
            nextLineLoop buffer (ptr + 1) (curr_buffer_size + 1)
              { g with m_index := g.m_index + 1 } text
      else if c = '\r' then do return (← toStdString buffer, g.advance 2)
      else do return (← toStdString buffer, g.advance 1)

def getNextLine (g : LineGrabber) : Except ArrayFault (Str × Option LineGrabber) :=
  if g.isEof then .ok ([], some g) else nextLineLoop (filled 1024 '\x00') 0 0 g g.text

/-- The loop of `getContentTillEof`. -/
def contentLoop (buffer : CArray Char 1024) (ptr : Nat) (g : LineGrabber) :
    Str → Except ArrayFault (Str × Option LineGrabber)
  | [] => do return (← toStdString buffer, some g)
  | c :: text =>
      match buffer.store ptr c with
      | none => .error .outside
      | some buffer => contentLoop buffer (ptr + 1) { g with m_index := g.m_index + 1 } text

def getContentTillEof (g : LineGrabber) : Except ArrayFault (Str × Option LineGrabber) :=
  if g.isEof then .ok ([], some g) else contentLoop (filled 1024 '\x00') 0 g g.text

/-! ## The cursor -/

theorem isEof_iff (g : LineGrabber) : g.isEof = true ↔ g.text = [] := by
  rw [isEof, decide_eq_true_iff]
  exact List.drop_eq_nil_iff.symm

/-- A cursor that has been moved forward. -/
def moved (g : LineGrabber) (n : Nat) : LineGrabber := { g with m_index := g.m_index + n }

theorem moved_moved (g : LineGrabber) (n k : Nat) : (g.moved n).moved k = g.moved (n + k) := by
  rw [moved, moved, moved, Nat.add_assoc]

theorem text_moved (g : LineGrabber) (n : Nat) : (g.moved n).text = g.text.drop n :=
  List.drop_drop.symm

/-- The cursor moves on, if it stays in the range of its type. -/
theorem advance_of_le {g : LineGrabber} {n : Nat} (h : ((g.m_index + n : Nat) : Int) ≤ intMax) :
    g.advance n = some (g.moved n) := by
  have hmin : intMin ≤ ((g.m_index + n : Nat) : Int) := by
    unfold intMin
    omega
  have hchecked := checked_of_mem hmin h
  rw [Int.natCast_add] at hchecked
  rw [advance, hchecked]
  rfl

theorem advance_of_lt {g : LineGrabber} {n : Nat} (h : intMax < ((g.m_index + n : Nat) : Int)) :
    g.advance n = none := by
  rw [Int.natCast_add] at h
  rw [advance, checked, if_neg fun hmem ↦ absurd h (Int.not_lt.mpr hmem.2)]
  rfl

/-- In front of a text the cursor is in the buffer. -/
theorem index_add_length {g : LineGrabber} (h : g.text ≠ []) :
    g.m_index + g.text.length = g.m_size := by
  have hlt : g.m_index < g.m_size := Nat.not_le.mp (mt List.drop_eq_nil_iff.mpr h)
  rw [text, List.length_drop, ← m_size]
  omega

/-! ## What a call does -/

/-- Neither a carriage return nor a line feed. -/
def isText (c : Char) : Bool := c ≠ '\r' && c ≠ '\n'

theorem isText_iff {c : Char} : isText c = true ↔ c ≠ '\r' ∧ c ≠ '\n' := by
  simp [isText]

/-- What is left of a text behind its first line. -/
theorem head?_dropWhile_isText (s : Str) : ∀ c ∈ (s.dropWhile isText).head?, isText c = false := by
  intro c hc
  have hhead := List.head?_dropWhile_not isText s
  rw [show (s.dropWhile isText).head? = some c from hc] at hhead
  exact hhead

/-- The cursor behind a line and its terminator. -/
def behindLine (g : LineGrabber) : Str → Option LineGrabber
  | [] => some g
  | c :: _ => if c = '\r' then g.advance 2 else g.advance 1

/-- The end of a loop: the string, and where the cursor goes. -/
theorem returned_eq (buffer : CArray Char 1024) (next : Option LineGrabber) :
    (do return (← toStdString buffer, next)) = (toStdString buffer).map ((·, next)) := by
  cases toStdString buffer with
  | error e => rfl
  | ok s => rfl

/-- A character is copied as long as there is room for it. -/
theorem nextLineLoop_cons {c : Char} (hc : isText c) {done : Str} (h : done.length < 1024)
    (g : LineGrabber) (text : Str) :
    nextLineLoop (written 1024 '\x00' done) done.length done.length g (c :: text) =
      nextLineLoop (written 1024 '\x00' (done ++ [c])) (done ++ [c]).length (done ++ [c]).length
        (g.moved 1) text := by
  have hguard : ¬ 1024 < done.length := Nat.not_lt.mpr (Nat.le_of_lt h)
  rw [nextLineLoop, if_neg hguard, if_pos (isText_iff.mp hc), store_written h,
    List.length_append, List.length_singleton]
  rfl

/-- A line that is too long is written past the end of the array. -/
theorem nextLineLoop_full {c : Char} (hc : isText c) {done : Str} (h : done.length = 1024)
    (g : LineGrabber) (text : Str) :
    nextLineLoop (written 1024 '\x00' done) done.length done.length g (c :: text) =
      .error .outside := by
  have hguard : ¬ 1024 < done.length := Nat.not_lt.mpr (Nat.le_of_eq h)
  rw [nextLineLoop, if_neg hguard, if_pos (isText_iff.mp hc), store_of_le (Nat.le_of_eq h.symm)]

/-- The loop on a line and what follows it. -/
theorem nextLineLoop_append {line rest : Str} (hline : ∀ c ∈ line, isText c)
    (hrest : ∀ c ∈ rest.head?, isText c = false) {done : Str} (hdone : done.length ≤ 1024)
    (g : LineGrabber) :
    nextLineLoop (written 1024 '\x00' done) done.length done.length g (line ++ rest) =
      if done.length + line.length ≤ 1024 then
        (toStdString (written 1024 '\x00' (done ++ line))).map
          ((·, behindLine (g.moved line.length) rest))
      else .error .outside := by
  induction line generalizing done g with
  | nil =>
      rw [List.nil_append, List.append_nil, List.length_nil, Nat.add_zero, if_pos hdone]
      have hguard : ¬ 1024 < done.length := Nat.not_lt.mpr hdone
      cases rest with
      | nil =>
          rw [nextLineLoop]
          exact returned_eq _ _
      | cons c rest =>
          have hc : ¬ (c ≠ '\r' ∧ c ≠ '\n') := by
            rw [← isText_iff, hrest c rfl]
            exact Bool.false_ne_true
          rw [nextLineLoop, if_neg hguard, if_neg hc, behindLine]
          by_cases hreturn : c = '\r'
          · rw [if_pos hreturn, if_pos hreturn]
            exact returned_eq _ _
          · rw [if_neg hreturn, if_neg hreturn]
            exact returned_eq _ _
  | cons c line ih =>
      obtain ⟨hc, hline⟩ := List.forall_mem_cons.mp hline
      rw [List.cons_append]
      by_cases hroom : done.length < 1024
      · have hnext : (done ++ [c]).length ≤ 1024 := by
          rw [List.length_append, List.length_singleton]
          exact hroom
        rw [nextLineLoop_cons hc hroom, ih hline hnext, List.append_assoc, moved_moved,
          List.length_append, List.length_singleton, List.length_cons, Nat.add_assoc,
          Nat.add_comm 1]
        rfl
      · have hfull : done.length = 1024 := Nat.le_antisymm hdone (Nat.not_lt.mp hroom)
        rw [nextLineLoop_full hc hfull, if_neg]
        rw [List.length_cons]
        omega

/-- **The next line.**  It is what is in front of the next carriage return or line feed, if it
fits into the array. -/
theorem getNextLine_eq {g : LineGrabber} {line rest : Str} (htext : g.text = line ++ rest)
    (hline : ∀ c ∈ line, isText c) (hrest : ∀ c ∈ rest.head?, isText c = false)
    (hne : line ++ rest ≠ []) :
    g.getNextLine =
      if line.length ≤ 1024 then
        (toStdString (written 1024 '\x00' line)).map ((·, behindLine (g.moved line.length) rest))
      else .error .outside := by
  have heof : ¬ g.isEof = true := by
    rw [isEof_iff, htext]
    exact hne
  have hloop := @nextLineLoop_append line rest hline hrest [] (Nat.zero_le _) g
  rw [List.length_nil, Nat.zero_add, List.nil_append] at hloop
  rw [getNextLine, if_neg heof, htext, filled_eq_written]
  exact hloop

theorem contentLoop_eq {text done : Str} (hdone : done.length ≤ 1024) (g : LineGrabber) :
    contentLoop (written 1024 '\x00' done) done.length g text =
      if done.length + text.length ≤ 1024 then
        (toStdString (written 1024 '\x00' (done ++ text))).map ((·, some (g.moved text.length)))
      else .error .outside := by
  induction text generalizing done g with
  | nil =>
      rw [List.append_nil, List.length_nil, Nat.add_zero, if_pos hdone, contentLoop]
      exact returned_eq _ _
  | cons c text ih =>
      rw [contentLoop]
      by_cases hroom : done.length < 1024
      · have hnext : (done ++ [c]).length ≤ 1024 := by
          rw [List.length_append, List.length_singleton]
          exact hroom
        have hrest := ih hnext (g.moved 1)
        rw [List.append_assoc, moved_moved, List.length_append, List.length_singleton] at hrest
        rw [store_written hroom]
        refine Eq.trans hrest ?_
        rw [List.length_cons, Nat.add_assoc, Nat.add_comm 1]
        rfl
      · have hfull : done.length = 1024 := Nat.le_antisymm hdone (Nat.not_lt.mp hroom)
        rw [store_of_le (Nat.le_of_eq hfull.symm), if_neg]
        rw [List.length_cons]
        omega

/-- **The rest.** -/
theorem getContentTillEof_eq {g : LineGrabber} (hne : g.text ≠ []) :
    g.getContentTillEof =
      if g.text.length ≤ 1024 then
        (toStdString (written 1024 '\x00' g.text)).map ((·, some (g.moved g.text.length)))
      else .error .outside := by
  have heof : ¬ g.isEof = true := mt g.isEof_iff.mp hne
  have hloop := @contentLoop_eq g.text [] (Nat.zero_le _) g
  rw [List.length_nil, Nat.zero_add, List.nil_append] at hloop
  rw [getContentTillEof, if_neg heof, filled_eq_written]
  exact hloop

/-! ## Every sequence of calls -/

inductive Call where
  | getNextLine
  | getContentTillEof
deriving DecidableEq

def call (g : LineGrabber) : Call → Except ArrayFault (Str × Option LineGrabber)
  | .getNextLine => g.getNextLine
  | .getContentTillEof => g.getContentTillEof

/-- The object after a call that went well. -/
def step (g : LineGrabber) (c : Call) : Option LineGrabber :=
  match g.call c with
  | .ok (_, next) => next
  | .error _ => none

/-- The call writes inside of its array, and finds a zero byte in it. -/
def StaysInside (g : LineGrabber) (c : Call) : Prop := ∃ result, g.call c = .ok result

/-- The text and a zero byte fit into the array, or the text fills it and has one. -/
def Storable (s : Str) : Prop := s.length < 1024 ∨ s.length = 1024 ∧ '\x00' ∈ s

instance (s : Str) : Decidable (Storable s) :=
  inferInstanceAs (Decidable (s.length < 1024 ∨ s.length = 1024 ∧ '\x00' ∈ s))

/-- What the call copies can be stored. -/
def Fits (g : LineGrabber) : Call → Prop
  | .getNextLine => Storable (g.text.takeWhile isText)
  | .getContentTillEof => Storable g.text

instance (g : LineGrabber) : ∀ c, Decidable (g.Fits c)
  | .getNextLine => inferInstanceAs (Decidable (Storable (g.text.takeWhile isText)))
  | .getContentTillEof => inferInstanceAs (Decidable (Storable g.text))

theorem toStdString_ok_iff {s : Str} (h : s.length ≤ 1024) :
    (∃ t, toStdString (written 1024 '\x00' s) = .ok t) ↔ Storable s := by
  have hsome : ((written 1024 '\x00' s).cString '\x00' 0).isSome ↔ _ := cString_written_isSome h
  rw [toStdString]
  cases hread : (written 1024 '\x00' s).cString '\x00' 0 with
  | none =>
      rw [hread] at hsome
      refine iff_of_false (by rintro ⟨t, ⟨⟩⟩) ?_
      rintro (hlt | ⟨-, hmem⟩)
      · exact Bool.false_ne_true (hsome.mpr (.inl hlt))
      · exact Bool.false_ne_true (hsome.mpr (.inr hmem))
  | some t =>
      rw [hread] at hsome
      refine iff_of_true ⟨t, rfl⟩ ?_
      rcases hsome.mp rfl with hlt | hmem
      · exact .inl hlt
      · exact (Nat.lt_or_eq_of_le h).imp_right fun heq ↦ ⟨heq, hmem⟩

/-- Storing a text that the array may be too small for. -/
theorem stored_ok_iff (s : Str) (next : Option LineGrabber) :
    (∃ result, (if s.length ≤ 1024 then
        (toStdString (written 1024 '\x00' s)).map ((·, next)) else .error .outside) = .ok result) ↔
      Storable s := by
  by_cases hlen : s.length ≤ 1024
  · rw [if_pos hlen, ← toStdString_ok_iff hlen]
    cases toStdString (written 1024 '\x00' s) with
    | error e => exact iff_of_false (by rintro ⟨t, ⟨⟩⟩) (by rintro ⟨t, ⟨⟩⟩)
    | ok t => exact iff_of_true ⟨_, rfl⟩ ⟨t, rfl⟩
  · rw [if_neg hlen]
    refine iff_of_false (by rintro ⟨t, ⟨⟩⟩) ?_
    rintro (hlt | ⟨heq, -⟩)
    · exact hlen (Nat.le_of_lt hlt)
    · exact hlen (Nat.le_of_eq heq)

/-- **One call.** -/
theorem staysInside_call_iff (g : LineGrabber) (c : Call) : g.StaysInside c ↔ g.Fits c := by
  by_cases hne : g.text = []
  · have heof := g.isEof_iff.mpr hne
    cases c with
    | getNextLine =>
        refine iff_of_true ⟨_, if_pos heof⟩ ?_
        rw [Fits, hne]
        exact .inl (Nat.zero_lt_succ _)
    | getContentTillEof =>
        refine iff_of_true ⟨_, if_pos heof⟩ ?_
        rw [Fits, hne]
        exact .inl (Nat.zero_lt_succ _)
  · cases c with
    | getNextLine =>
        have hsplit := (List.takeWhile_append_dropWhile (p := isText) (l := g.text)).symm
        rw [StaysInside, call, getNextLine_eq hsplit (fun c hc ↦ List.mem_takeWhile_imp hc)
          (head?_dropWhile_isText g.text) (hsplit ▸ hne)]
        exact stored_ok_iff _ _
    | getContentTillEof =>
        rw [StaysInside, call, getContentTillEof_eq hne]
        exact stored_ok_iff _ _

/-- **The local arrays.**  Every call of a sequence stays inside of its array exactly if all
that the calls copy can be stored. -/
theorem callsStayInside_iff (pbuffer : Str) (hsize : (pbuffer.length : Int) ≤ intMax)
    (calls : List Call) :
    Run.Along step StaysInside (ofBuffer pbuffer hsize) calls ↔
      Run.Along step Fits (ofBuffer pbuffer hsize) calls :=
  Run.along_congr (I := fun _ ↦ True) (fun _ _ _ _ _ _ ↦ trivial)
    (fun g c _ _ ↦ g.staysInside_call_iff c) trivial (Run.along_true _ _)

theorem callsStayInside_lines :
    Run.Along step StaysInside (ofBuffer "a\r\nbc\nd".toList (by decide))
      [.getNextLine, .getNextLine, .getContentTillEof] :=
  (callsStayInside_iff _ _ _).mpr (by decide +kernel)

/-- The array is too small for a line of as many characters, and for a longer one. -/
theorem not_along_replicate {n : Nat} (hn : 1024 ≤ n)
    (hsize : ((List.replicate n 'a').length : Int) ≤ intMax) :
    ¬ Run.Along step StaysInside (ofBuffer (List.replicate n 'a') hsize) [.getNextLine] := by
  rintro ⟨hinside, -⟩
  have hline : ∀ c ∈ List.replicate n 'a', isText c := by
    intro c hc
    rw [List.eq_of_mem_replicate hc]
    rfl
  have htext : (ofBuffer (List.replicate n 'a') hsize).text = List.replicate n 'a' := rfl
  rw [staysInside_call_iff, Fits, htext, takeWhile_of_forall hline, Storable,
    List.length_replicate] at hinside
  rcases hinside with hlt | ⟨-, hzero⟩
  · exact absurd hlt (Nat.not_lt.mpr hn)
  · exact absurd (List.eq_of_mem_replicate hzero) (by decide)

/-- A line of as many characters as the array has, and one of one more. -/
theorem not_callsStayInside_long :
    (∃ hsize : ((List.replicate 1024 'a').length : Int) ≤ intMax,
      ¬ Run.Along step StaysInside (ofBuffer (List.replicate 1024 'a') hsize) [.getNextLine]) ∧
    ∃ hsize : ((List.replicate 1025 'a').length : Int) ≤ intMax,
      ¬ Run.Along step StaysInside (ofBuffer (List.replicate 1025 'a') hsize) [.getNextLine] := by
  have hsize : ∀ n, n ≤ 1025 → ((List.replicate n 'a').length : Int) ≤ intMax := by
    intro n hn
    rw [List.length_replicate]
    unfold intMax
    omega
  exact ⟨⟨hsize 1024 (Nat.le_succ 1024), not_along_replicate (Nat.le_refl 1024) _⟩,
    ⟨hsize 1025 (Nat.le_refl 1025), not_along_replicate (Nat.le_succ 1024) _⟩⟩

end LineGrabber

end AsabruCommons
