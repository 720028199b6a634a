import AsabruCommons.Network.WireIntegers

/-!
# Which bytes a reader touches

A reader of an integer cuts its bytes out with `substr`, which throws for an offset past
the end and returns fewer bytes than it was asked for near the end, and then copies as many
as it was asked for.  `readByte` and `readCString` index the buffer and check nothing.

A `Reading` is what a reader touches: the positions in a string, and how many bytes that
string has.  The zero byte that ends a `std::string` can be read, but it is none of its
bytes; whether it counts as one is a parameter of the results.  `readersStayInside_iff` says
which offsets are good, and `hasValue_iff` connects readings with what the readers return:
they have a value exactly if they touch nothing behind the zero byte.
-/

namespace AsabruCommons.Network

open Endian Search CInt

/-! ## The remaining readers -/

/-- `buffer[start]` -/
def readByte (buffer : List UInt8) (start : Int) : Option UInt8 := (buffer ++ [0])[toSize start]?

/-- The loop of `readCString`, with the bytes from `buffer[i]` to the zero byte that ends the
string. -/
def cStringFrom : Int → List UInt8 → Option (List UInt8)
  | _, [] => none
  | i, b :: bytes =>
      if b = 0 then some []
      else (checked (i + 1)).bind fun i ↦ (cStringFrom i bytes).map (b :: ·)

def readCString (buffer : List UInt8) (start : Int) : Option (List UInt8) :=
  cStringFrom start ((buffer ++ [0]).drop (toSize start))

/-! ## Readings -/

/-- What a reader touches. -/
inductive Reading where
  /-- It throws `std::out_of_range`. -/
  | outOfRange
  /-- The index overflows. -/
  | overflow
  /-- It touches these positions of a string of this size. -/
  | touches (size : Nat) (positions : List Nat)

/-- `substr(start, asked)`, behind which the reader sets some bytes, and a copy of the first
`copied` bytes. -/
def copyReading (buffer : List UInt8) (start : Int) (asked set copied : Nat) : Reading :=
  match substr buffer (toSize start) (some asked) with
  | none => .outOfRange
  | some bytes => .touches (bytes.length + set) (List.range copied)

/-- The positions that the loop of `readCString` looks at, if its index does not overflow. -/
def cStringPositions : Int → List UInt8 → Option (List Nat)
  | i, [] => some [toSize i]
  | i, b :: bytes =>
      if b = 0 then some [toSize i]
      else (checked (i + 1)).bind fun next ↦
        (cStringPositions next bytes).map (toSize i :: ·)

/-- The readers of `ProtocolHelper.h`. -/
inductive Reader where
  | readInt32 (length : Nat)
  | readCString
  | readByte
  | readLEInt16
  | readLEInt24
  | readLEInt64
  | readBEInt16
  | readBEInt32
  | readBEInt64
deriving DecidableEq

namespace Reader

def reading (buffer : List UInt8) (start : Int) : Reader → Reading
  | .readInt32 length => copyReading buffer start (toSize length) 0 (toSize length)
  | .readCString =>
      match cStringPositions start ((buffer ++ [0]).drop (toSize start)) with
      | none => .overflow
      | some positions => .touches buffer.length positions
  | .readByte => .touches buffer.length [toSize start]
  | .readLEInt16 => copyReading buffer start 2 0 2
  | .readLEInt24 => copyReading buffer start 3 1 4
  | .readLEInt64 => copyReading buffer start 8 0 8
  | .readBEInt16 => copyReading buffer start 2 0 2
  | .readBEInt32 => copyReading buffer start 4 0 4
  | .readBEInt64 => copyReading buffer start 8 0 8

/-- `readInt32` is called for one to four bytes. -/
def Callable : Reader → Prop
  | .readInt32 length => 1 ≤ length ∧ length ≤ 4
  | _ => True

/-- Whether the reader returns a value. -/
def HasValue (host : ByteOrder) (buffer : List UInt8) (start : Int) : Reader → Prop
  | .readInt32 length => (Network.readInt32 host buffer start length).isSome
  | .readCString => (Network.readCString buffer start).isSome
  | .readByte => (Network.readByte buffer start).isSome
  | .readLEInt16 => (Network.readLEInt16 host buffer start).isSome
  | .readLEInt24 => (Network.readLEInt24 host buffer start).isSome
  | .readLEInt64 => (Network.readLEInt64 host buffer start).isSome
  | .readBEInt16 => (Network.readBEInt16 host buffer start).isSome
  | .readBEInt32 => (Network.readBEInt32 host buffer start).isSome
  | .readBEInt64 => (Network.readBEInt64 host buffer start).isSome

end Reader

/-- One if the zero byte behind a string counts as one of its bytes. -/
def ending (counts : Bool) : Nat := counts.toNat

/-- The reader throws, or it touches bytes of the string only. -/
def Reading.StaysInside (counts : Bool) : Reading → Prop
  | .outOfRange => True
  | .overflow => False
  | .touches size positions => ∀ p ∈ positions, p < size + ending counts

/-- As many bytes as this are asked for behind the offset. -/
def Available (counts : Bool) (buffer : List UInt8) (start n : Nat) : Prop :=
  buffer.length < start ∨ start + n ≤ buffer.length + ending counts

/-- What a reader needs. -/
def Reader.Needs (counts : Bool) (buffer : List UInt8) (start : Nat) : Reader → Prop
  | .readInt32 length => Available counts buffer start length
  | .readCString => ∃ i, start ≤ i ∧ (i : Int) ≤ intMax ∧ i < buffer.length + ending counts ∧
      (buffer ++ [0])[i]? = some 0
  | .readByte => start < buffer.length + ending counts
  | .readLEInt16 | .readBEInt16 => Available counts buffer start 2
  | .readLEInt24 => Available counts buffer start 3
  | .readBEInt32 => Available counts buffer start 4
  | .readLEInt64 | .readBEInt64 => Available counts buffer start 8

theorem ending_le (counts : Bool) : ending counts ≤ 1 := Bool.toNat_le counts

/-! ## Copies -/

/-- What `substr` returns. -/
theorem substr_eq_some {buffer : List UInt8} {start : Nat} (h : start ≤ buffer.length)
    (asked : Nat) :
    substr buffer start (some asked) = some ((buffer.drop start).take asked) := if_pos h

theorem substr_eq_none {buffer : List UInt8} {start : Nat} (h : buffer.length < start)
    (asked : Nat) : substr buffer start (some asked) = none := if_neg (Nat.not_le.mpr h)

/-- **Copies.**  A copy of what was asked for, and of what was set behind it. -/
theorem copyReading_staysInside_iff (counts : Bool) (buffer : List UInt8) {start : Int} {n : Nat}
    (hstart : toSize start = n) {asked : Nat} (hasked : 0 < asked) (set : Nat) :
    (copyReading buffer start asked set (asked + set)).StaysInside counts ↔
      Available counts buffer n asked := by
  have hending := ending_le counts
  rw [copyReading, hstart, Available]
  rcases Nat.lt_or_ge buffer.length n with hlt | hge
  · rw [substr_eq_none hlt]
    exact iff_of_true trivial (.inl hlt)
  · rw [substr_eq_some hge, or_iff_right (Nat.not_lt.mpr hge)]
    show (∀ p ∈ List.range (asked + set), p < _) ↔ _
    rw [List.length_take, List.length_drop]
    constructor
    · intro h
      have hlast := h (asked + set - 1) (List.mem_range.mpr (by omega))
      omega
    · intro h p hp
      have hlt := List.mem_range.mp hp
      omega

/-- The positions of a copy, when the zero byte counts. -/
theorem dataOf_isSome {bytes : List UInt8} {length : Nat} :
    (dataOf bytes length).isSome ↔ length ≤ bytes.length + 1 := by
  rw [dataOf]
  split
  · exact iff_of_true rfl ‹_›
  · exact iff_of_false Bool.false_ne_true ‹_›

/-- A copy into a variable that is wide enough. -/
theorem packetLengthNw_isSome (host : ByteOrder) {width length : Nat} (h : length ≤ width)
    (bytes : List UInt8) :
    (packetLengthNw host width bytes length).isSome ↔ length ≤ bytes.length + 1 := by
  rw [← dataOf_isSome, packetLengthNw]
  cases hdata : dataOf bytes length with
  | none => exact Iff.rfl
  | some copied =>
      have hlen : copied.length ≤ width := by
        rw [dataOf, Option.ite_none_right_eq_some] at hdata
        obtain ⟨-, hcopied⟩ := hdata
        obtain rfl := Option.some.inj hcopied
        exact (List.length_take_le _ _).trans h
      rw [Option.bind_some, memcpy, if_pos hlen]
      exact Iff.rfl

/-- A position in a copy, when the zero byte counts. -/
theorem range_inside_iff {copied size : Nat} (h : 0 < copied) :
    (∀ p ∈ List.range copied, p < size + ending true) ↔ copied ≤ size + 1 := by
  constructor
  · intro hall
    have hlast : copied - 1 < size + 1 := hall (copied - 1) (List.mem_range.mpr (by omega))
    omega
  · intro hle p hp
    exact (List.mem_range.mp hp).trans_le hle

/-- **Values.**  A reader that copies has a value if it does not throw and its copy ends at the
zero byte at the latest. -/
theorem copy_isSome_iff (host : ByteOrder) (toHost : Nat → Nat) (buffer : List UInt8) (start : Int)
    (asked : Nat) (more : List UInt8) {width : Nat} (hwidth : asked + more.length ≤ width)
    (hasked : 0 < asked) :
    ((substr buffer (toSize start) (some asked)).bind fun bytes ↦
        (packetLengthNw host width (bytes ++ more) (asked + more.length)).map toHost).isSome ↔
      copyReading buffer start asked more.length (asked + more.length) ≠ .outOfRange ∧
        (copyReading buffer start asked more.length (asked + more.length)).StaysInside true := by
  rw [copyReading]
  cases substr buffer (toSize start) (some asked) with
  | none => exact iff_of_false Bool.false_ne_true fun h ↦ h.1 rfl
  | some bytes =>
      rw [Option.bind_some, Option.isSome_map, packetLengthNw_isSome host hwidth,
        List.length_append]
      refine (range_inside_iff (by omega)).symm.trans (and_iff_right ?_).symm
      nofun

/-! ## Strings -/

/-- The distance to the next zero byte. -/
def zeroAt (bytes : List UInt8) : Nat := bytes.findIdx (· == 0)

theorem zeroAt_zero {b : UInt8} (hb : b = 0) (bytes : List UInt8) : zeroAt (b :: bytes) = 0 := by
  rw [zeroAt, List.findIdx_cons, hb]
  rfl

theorem zeroAt_cons {b : UInt8} (hb : b ≠ 0) (bytes : List UInt8) :
    zeroAt (b :: bytes) = zeroAt bytes + 1 := by
  rw [zeroAt, List.findIdx_cons, beq_eq_false_iff_ne.mpr hb]
  rfl

/-- The next index, as long as it is one of `int`. -/
theorem checked_succ {i : Int} (h0 : 0 ≤ i) :
    checked (i + 1) = if i + 1 ≤ intMax then some (i + 1) else none := by
  have hmin : intMin ≤ i + 1 := by
    unfold intMin
    omega
  rw [checked]
  exact if_congr (and_iff_right hmin) rfl rfl

/-- The loop looks at every position up to that of the next zero byte. -/
theorem cStringPositions_eq {i : Int} (h0 : 0 ≤ i) (hmax : i ≤ intMax) (bytes : List UInt8) :
    cStringPositions i bytes =
      if i + zeroAt bytes ≤ intMax then some (List.range' i.toNat (zeroAt bytes + 1))
      else none := by
  have hsize := toSize_of_nonneg h0 hmax
  induction bytes generalizing i with
  | nil =>
      rw [cStringPositions, hsize]
      exact (if_pos (by simpa [zeroAt] using hmax)).symm
  | cons b bytes ih =>
      rw [cStringPositions, hsize]
      by_cases hb : b = 0
      · rw [if_pos hb, zeroAt_zero hb]
        exact (if_pos (by simpa using hmax)).symm
      · rw [if_neg hb, zeroAt_cons hb, checked_succ h0]
        have hsum : i + 1 + (zeroAt bytes : Int) = i + ((zeroAt bytes + 1 : Nat) : Int) := by omega
        by_cases hnext : i + 1 ≤ intMax
        · have hrest := ih (by omega) hnext (toSize_of_nonneg (by omega) hnext)
          rw [if_pos hnext, Option.bind_some, hrest, hsum, Int.toNat_add h0 (by decide)]
          by_cases hrange : i + ((zeroAt bytes + 1 : Nat) : Int) ≤ intMax
          · rw [if_pos hrange, if_pos hrange, Option.map_some]
            exact congrArg some List.range'_succ.symm
          · rw [if_neg hrange, if_neg hrange, Option.map_none]
        · rw [if_neg hnext, Option.bind_none, if_neg]
          omega

/-- What the loop returns. -/
theorem cStringFrom_eq {i : Int} (h0 : 0 ≤ i) (bytes : List UInt8) (hmax : i ≤ intMax) :
    cStringFrom i bytes =
      if i + zeroAt bytes ≤ intMax ∧ zeroAt bytes < bytes.length then
        some (bytes.take (zeroAt bytes))
      else none := by
  induction bytes generalizing i with
  | nil => exact (if_neg fun h ↦ Nat.not_lt_zero _ h.2).symm
  | cons b bytes ih =>
      rw [cStringFrom]
      by_cases hb : b = 0
      · rw [if_pos hb, zeroAt_zero hb, if_pos]
        · rfl
        · exact ⟨by simpa using hmax, Nat.succ_pos _⟩
      · rw [if_neg hb, zeroAt_cons hb, checked_succ h0]
        have hsum : i + 1 + (zeroAt bytes : Int) = i + ((zeroAt bytes + 1 : Nat) : Int) := by omega
        by_cases hnext : i + 1 ≤ intMax
        · rw [if_pos hnext, Option.bind_some, ih (by omega) hnext, hsum, List.length_cons]
          by_cases hboth : i + ((zeroAt bytes + 1 : Nat) : Int) ≤ intMax ∧
              zeroAt bytes < bytes.length
          · rw [if_pos hboth, if_pos ⟨hboth.1, Nat.succ_lt_succ hboth.2⟩]
            rfl
          · rw [if_neg hboth, if_neg fun h ↦ hboth ⟨h.1, Nat.lt_of_succ_lt_succ h.2⟩]
            rfl
        · rw [if_neg hnext, Option.bind_none, if_neg]
          omega

/-- The string that is read stays inside of the buffer. -/
theorem cString_staysInside_iff (counts : Bool) (buffer : List UInt8) {start : Nat}
    (hmax : (start : Int) ≤ intMax) :
    (Reader.readCString.reading buffer start).StaysInside counts ↔
      ((start + zeroAt ((buffer ++ [0]).drop start) : Nat) : Int) ≤ intMax ∧
        start + zeroAt ((buffer ++ [0]).drop start) < buffer.length + ending counts := by
  have h0 : (0 : Int) ≤ start := Int.natCast_nonneg start
  have hsize : toSize start = start := toSize_of_nonneg h0 hmax
  rw [Reader.reading, cStringPositions_eq h0 hmax, hsize, Int.natCast_add]
  by_cases hrange : (start : Int) + zeroAt ((buffer ++ [0]).drop start) ≤ intMax
  · rw [if_pos hrange, and_iff_right hrange]
    show (∀ p ∈ List.range' start (zeroAt ((buffer ++ [0]).drop start) + 1), p < _) ↔ _
    constructor
    · intro h
      exact h _ (List.mem_range'_1.mpr ⟨by omega, by omega⟩)
    · intro h p hp
      have hp := (List.mem_range'_1.mp hp).2
      omega
  · rw [if_neg hrange]
    exact iff_of_false id fun h ↦ hrange h.1

/-- There is a zero byte that the loop gets to. -/
theorem cString_needs_iff (counts : Bool) (buffer : List UInt8) (start : Nat) :
    Reader.readCString.Needs counts buffer start ↔
      ((start + zeroAt ((buffer ++ [0]).drop start) : Nat) : Int) ≤ intMax ∧
        start + zeroAt ((buffer ++ [0]).drop start) < buffer.length + ending counts := by
  have hending := ending_le counts
  constructor
  · rintro ⟨i, hle, hmax, hlt, hzero⟩
    have hfirst : zeroAt ((buffer ++ [0]).drop start) ≤ i - start := by
      by_contra hno
      have hget : ((buffer ++ [0]).drop start)[i - start]? = some 0 := by
        rw [List.getElem?_drop, Nat.add_sub_cancel' hle, hzero]
      obtain ⟨hbound, hvalue⟩ := List.getElem?_eq_some_iff.mp hget
      have hnot := List.not_of_lt_findIdx (p := (· == 0)) (Nat.not_le.mp hno)
      rw [hvalue] at hnot
      cases hnot
    omega
  · rintro ⟨hmax, hlt⟩
    refine ⟨_, Nat.le_add_right _ _, hmax, hlt, ?_⟩
    have hbound : zeroAt ((buffer ++ [0]).drop start) < ((buffer ++ [0]).drop start).length := by
      rw [List.length_drop, List.length_append, List.length_singleton]
      omega
    have hzero := List.findIdx_getElem (p := (· == (0 : UInt8))) (w := hbound)
    rw [← List.getElem?_drop, List.getElem?_eq_getElem hbound]
    exact congrArg some (beq_iff_eq.mp hzero)

/-! ## All readers -/

theorem toSize_natCast {n : Nat} (h : (n : Int) ≤ intMax) : toSize n = n :=
  toSize_of_nonneg (Int.natCast_nonneg n) h

/-- A length that `readInt32` may be called with is not changed by the conversion. -/
theorem toSize_length {length : Nat} (hr : (Reader.readInt32 length).Callable) :
    toSize length = length := by
  apply toSize_natCast
  have hfour := hr.2
  unfold intMax
  omega

/-- **Wire readers.**  For both readings of what the bytes of a string are, a reader stays inside
exactly if what it needs is there. -/
theorem readersStayInside_iff (counts : Bool) {r : Reader} (hr : r.Callable) (buffer : List UInt8)
    {start : Nat} (hstart : (start : Int) ≤ intMax) :
    (r.reading buffer start).StaysInside counts ↔ r.Needs counts buffer start := by
  have hsize := toSize_natCast hstart
  cases r with
  | readInt32 length =>
      have hlength := toSize_length hr
      rw [Reader.reading, hlength]
      exact copyReading_staysInside_iff counts buffer hsize hr.1 0
  | readCString =>
      exact (cString_staysInside_iff counts buffer hstart).trans
        (cString_needs_iff counts buffer start).symm
  | readByte =>
      rw [Reader.reading, hsize]
      exact List.forall_mem_singleton
  | readLEInt16 => exact copyReading_staysInside_iff counts buffer hsize (by decide) 0
  | readLEInt24 => exact copyReading_staysInside_iff counts buffer hsize (by decide) 1
  | readLEInt64 => exact copyReading_staysInside_iff counts buffer hsize (by decide) 0
  | readBEInt16 => exact copyReading_staysInside_iff counts buffer hsize (by decide) 0
  | readBEInt32 => exact copyReading_staysInside_iff counts buffer hsize (by decide) 0
  | readBEInt64 => exact copyReading_staysInside_iff counts buffer hsize (by decide) 0

/-- A reader that copies has a value if it throws nothing and reads no further than the zero
byte. -/
theorem readInteger_isSome_iff (host : ByteOrder) {width : Nat} (toHost : Nat → Nat)
    (buffer : List UInt8) (start : Int) {length : Int} (hpos : 0 < toSize length)
    (hwidth : toSize length ≤ width) :
    (readInteger host width toHost buffer start length).isSome ↔
      copyReading buffer start (toSize length) 0 (toSize length) ≠ .outOfRange ∧
        (copyReading buffer start (toSize length) 0 (toSize length)).StaysInside true := by
  refine Iff.trans ?_ (copy_isSome_iff host toHost buffer start (toSize length) [] hwidth hpos)
  rw [readInteger]
  simp only [List.append_nil]
  rfl

/-- `readCString` has one if a zero byte ends what it reads before the index overflows. -/
theorem readCString_isSome_iff (buffer : List UInt8) {start : Nat}
    (hstart : (start : Int) ≤ intMax) :
    (readCString buffer start).isSome ↔
      (Reader.readCString.reading buffer start).StaysInside true := by
  rw [cString_staysInside_iff true buffer hstart, readCString,
    cStringFrom_eq (Int.natCast_nonneg start) _ hstart, toSize_natCast hstart, List.length_drop,
    List.length_append, List.length_singleton, Int.natCast_add]
  show _ ↔ _ ∧ _ < buffer.length + 1
  split
  · rename_i hboth
    exact iff_of_true rfl ⟨hboth.1, by omega⟩
  · rename_i hboth
    exact iff_of_false Bool.false_ne_true fun h ↦ hboth ⟨h.1, by omega⟩

/-- `readByte` has one up to the zero byte behind the buffer. -/
theorem readByte_isSome_iff (buffer : List UInt8) {start : Nat}
    (hstart : (start : Int) ≤ intMax) :
    (readByte buffer start).isSome ↔ (Reader.readByte.reading buffer start).StaysInside true := by
  rw [Reader.reading, readByte, toSize_natCast hstart, isSome_getElem?, List.length_append,
    List.length_singleton]
  show _ ↔ ∀ p ∈ [start], p < buffer.length + 1
  exact ⟨fun h p hp ↦ List.mem_singleton.mp hp ▸ h,
    fun h ↦ h start (List.mem_singleton_self start)⟩

/-- **Values.**  Every reader has a value exactly if it throws nothing and touches nothing behind
the zero byte of its string. -/
theorem hasValue_iff (host : ByteOrder) {r : Reader} (hr : r.Callable) (buffer : List UInt8)
    {start : Nat} (hstart : (start : Int) ≤ intMax) :
    r.HasValue host buffer start ↔
      r.reading buffer start ≠ .outOfRange ∧ (r.reading buffer start).StaysInside true := by
  cases r with
  | readInt32 length =>
      have hlength := toSize_length hr
      refine readInteger_isSome_iff host _ buffer start ?_ ?_
      · exact hlength.symm ▸ hr.1
      · exact hlength.symm ▸ hr.2
  | readCString =>
      have hne : Reader.readCString.reading buffer start ≠ .outOfRange := by
        rw [Reader.reading]
        split
        · nofun
        · nofun
      exact (readCString_isSome_iff buffer hstart).trans (and_iff_right hne).symm
  | readByte =>
      have hne : Reader.readByte.reading buffer start ≠ .outOfRange := nofun
      exact (readByte_isSome_iff buffer hstart).trans (and_iff_right hne).symm
  | readLEInt16 =>
      refine Iff.trans ?_ (@readInteger_isSome_iff host 4 (le16toh host) buffer start 2
        (by decide) (by decide))
      rw [Reader.HasValue, readLEInt16, Option.isSome_map]
  | readLEInt24 =>
      exact copy_isSome_iff host (le32toh host) buffer start 3 [0] (by decide) (by decide)
  | readLEInt64 => exact readInteger_isSome_iff host _ buffer start (by decide) (by decide)
  | readBEInt16 => exact readInteger_isSome_iff host _ buffer start (by decide) (by decide)
  | readBEInt32 => exact readInteger_isSome_iff host _ buffer start (by decide) (by decide)
  | readBEInt64 => exact readInteger_isSome_iff host _ buffer start (by decide) (by decide)

/-- Four bytes at the last offset at which there are as many. -/
theorem readersStayInside_last :
    (Reader.readBEInt32.reading [1, 2, 3, 4, 5] (1 : Nat)).StaysInside false :=
  (@readersStayInside_iff false .readBEInt32 trivial [1, 2, 3, 4, 5] 1 (by decide)).mpr
    (.inr (by decide))

/-- A packet that was cut off, and an offset behind the end. -/
theorem not_readersStayInside_truncated :
    ¬ (Reader.readBEInt32.reading [1] 0).StaysInside true ∧
      ¬ (Reader.readLEInt16.reading [1] 0).StaysInside false ∧
      ¬ (Reader.readByte.reading [1] 2).StaysInside true ∧
      ¬ (Reader.readCString.reading [1] 2).StaysInside true := by
  refine ⟨fun h ↦ ?_, fun h ↦ ?_, fun h ↦ ?_, fun h ↦ ?_⟩
  · exact absurd (h 3 (by decide)) (by decide)
  · exact absurd (h 1 (by decide)) (by decide)
  · exact absurd (h 2 (by decide)) (by decide)
  · exact absurd (h 2 (by decide)) (by decide)

end AsabruCommons.Network
