import AsabruCommons.CInt
import AsabruCommons.Endian
import AsabruCommons.Search

/-!
# Integers in a packet

The readers of `ProtocolHelper.h` cut a number of bytes out of a buffer, copy them into
a zero variable and convert its value from the byte order of the data to that of the
host.  What the variable holds in between depends on the host.

`readLEInt16` copies two bytes into a variable of four and converts it as one of two.
On a big-endian host the two bytes are the ones that this conversion drops, and
the reader returns zero whatever they are (`readLEInt16_big`); the other readers convert
the width of their variable.  `decodesOnHost_iff` is the whole account.
-/

namespace AsabruCommons.Network

open Endian Search CInt

/-! ## The conversions -/

def le16toh (host : ByteOrder) (x : Nat) : Nat := leToHost host 2 x

def le32toh (host : ByteOrder) (x : Nat) : Nat := leToHost host 4 x

def le64toh (host : ByteOrder) (x : Nat) : Nat := leToHost host 8 x

def be16toh (host : ByteOrder) (x : Nat) : Nat := beToHost host 2 x

def be32toh (host : ByteOrder) (x : Nat) : Nat := beToHost host 4 x

def be64toh (host : ByteOrder) (x : Nat) : Nat := beToHost host 8 x

/-! ## The readers

A reader has no value when `substr` throws, or when `memcpy` would read past the zero byte
that ends the string or write past the variable. -/

/-- The first bytes at `&s[0]`, up to the zero byte that ends the string. -/
def dataOf (s : List UInt8) (length : Nat) : Option (List UInt8) :=
  if length ≤ s.length + 1 then some ((s ++ [0]).take length) else none

/-- Copy bytes of a string into a zero variable of `width` bytes. -/
def packetLengthNw (host : ByteOrder) (width : Nat) (packetLengthNwBytes : List UInt8)
    (length : Nat) : Option Nat :=
  (dataOf packetLengthNwBytes length).bind (memcpy host width 0)

/-- What the readers share. -/
def readInteger (host : ByteOrder) (width : Nat) (toHost : Nat → Nat) (buffer : List UInt8)
    (start length : Int) : Option Nat :=
  (substr buffer (toSize start) (some (toSize length))).bind fun packetLengthNwBytes ↦
    (packetLengthNw host width packetLengthNwBytes (toSize length)).map toHost

def readInt32 (host : ByteOrder) (buffer : List UInt8) (start length : Int) : Option Nat :=
  readInteger host 4 (le32toh host) buffer start length

/-- The variable has four bytes. -/
def readLEInt16 (host : ByteOrder) (buffer : List UInt8) (start : Int) : Option Nat :=
  (readInteger host 4 (le16toh host) buffer start 2).map (· % 65536)

/-- A zero byte is put behind the three that were cut out, and all four are copied. -/
def readLEInt24 (host : ByteOrder) (buffer : List UInt8) (start : Int) : Option Nat :=
  (substr buffer (toSize start) (some 3)).bind fun packetLengthNwBytes ↦
    (packetLengthNw host 4 (packetLengthNwBytes ++ [0]) 4).map (le32toh host)

def readLEInt64 (host : ByteOrder) (buffer : List UInt8) (start : Int) : Option Nat :=
  readInteger host 8 (le64toh host) buffer start 8

def readBEInt16 (host : ByteOrder) (buffer : List UInt8) (start : Int) : Option Nat :=
  readInteger host 2 (be16toh host) buffer start 2

def readBEInt32 (host : ByteOrder) (buffer : List UInt8) (start : Int) : Option Nat :=
  readInteger host 4 (be32toh host) buffer start 4

def readBEInt64 (host : ByteOrder) (buffer : List UInt8) (start : Int) : Option Nat :=
  readInteger host 8 (be64toh host) buffer start 8

/-! ## Offsets with enough bytes after them -/

/-- The offset is one of `int`, and `n` bytes of the buffer follow it. -/
structure InBuffer (buffer : List UInt8) (start : Int) (n : Nat) : Prop where
  nonneg : 0 ≤ start
  le_intMax : start ≤ intMax
  fits : start.toNat + n ≤ buffer.length

/-- The `n` bytes of the buffer at an offset. -/
def bytesAt (buffer : List UInt8) (start : Int) (n : Nat) : List UInt8 :=
  (buffer.drop start.toNat).take n

namespace InBuffer

variable {buffer : List UInt8} {start : Int} {n : Nat}

theorem length_bytesAt (h : InBuffer buffer start n) : (bytesAt buffer start n).length = n := by
  have hfits := h.fits
  rw [bytesAt, List.length_take, List.length_drop]
  omega

theorem substr_eq (h : InBuffer buffer start n) :
    substr buffer (toSize start) (some n) = some (bytesAt buffer start n) := by
  have hfits := h.fits
  rw [toSize_of_nonneg h.nonneg h.le_intMax, substr, if_pos (by omega)]
  rfl

end InBuffer

/-- A string that is copied as a whole, and no more. -/
theorem packetLengthNw_length (host : ByteOrder) {width : Nat} {bytes : List UInt8}
    (h : bytes.length ≤ width) :
    packetLengthNw host width bytes bytes.length =
      some (load host (bytes ++ List.replicate (width - bytes.length) 0)) := by
  rw [packetLengthNw, dataOf, if_pos (by omega), List.take_left, Option.bind_some]
  exact memcpy_zero h

/-- **What is converted.**  With enough bytes in the buffer, a reader converts the value
of a variable that begins with them and is zero behind them. -/
theorem readInteger_eq {buffer : List UInt8} {start : Int} {n width : Nat}
    (h : InBuffer buffer start n) (hn : n ≤ width) (hwidth : width ≤ 8) (host : ByteOrder)
    (toHost : Nat → Nat) :
    readInteger host width toHost buffer start n =
      some (toHost (load host (bytesAt buffer start n ++ List.replicate (width - n) 0))) := by
  have hsize : toSize n = n :=
    toSize_of_nonneg (Int.natCast_nonneg n) (by unfold intMax; omega)
  have hlen := h.length_bytesAt
  have hcopy := packetLengthNw_length host (hlen.le.trans hn)
  rw [hlen] at hcopy
  rw [readInteger, hsize, h.substr_eq, Option.bind_some, hcopy, Option.map_some]

/-- A reader of little-endian data that converts the width of its variable. -/
theorem readInteger_le {buffer : List UInt8} {start : Int} {n width : Nat}
    (h : InBuffer buffer start n) (hn : n ≤ width) (hwidth : width ≤ 8) (host : ByteOrder) :
    readInteger host width (leToHost host width) buffer start n =
      some (leValue (bytesAt buffer start n)) := by
  have hpad := leToHost_load_pad host (bytesAt buffer start n) (width - n)
  rw [h.length_bytesAt, Nat.add_sub_cancel' hn] at hpad
  rw [readInteger_eq h hn hwidth, hpad]

/-- A reader of big-endian data that fills its variable. -/
theorem readInteger_be {buffer : List UInt8} {start : Int} {n : Nat}
    (h : InBuffer buffer start n) (hn : n ≤ 8) (host : ByteOrder) :
    readInteger host n (beToHost host n) buffer start n =
      some (beValue (bytesAt buffer start n)) := by
  have hfull := beToHost_load host (bytesAt buffer start n)
  rw [h.length_bytesAt] at hfull
  rw [readInteger_eq h le_rfl hn, Nat.sub_self, List.replicate_zero, List.append_nil, hfull]

theorem readLEInt24_eq {buffer : List UInt8} {start : Int} (h : InBuffer buffer start 3)
    (host : ByteOrder) :
    readLEInt24 host buffer start = some (leValue (bytesAt buffer start 3)) := by
  have hlen : (bytesAt buffer start 3 ++ [0]).length = 4 := by
    rw [List.length_append, h.length_bytesAt]
    rfl
  have hcopy := packetLengthNw_length host hlen.le
  have hpad := leToHost_load_pad host (bytesAt buffer start 3 ++ [0]) 0
  have hzero := leValue_append_zeros (bytesAt buffer start 3) 1
  rw [hlen] at hcopy hpad
  have hsubstr : substr buffer (toSize start) (some 3) = some (bytesAt buffer start 3) :=
    h.substr_eq
  rw [readLEInt24, hsubstr, Option.bind_some, hcopy, Option.map_some]
  exact congrArg some (hpad.trans hzero)

/-! ## The reader of two little-endian bytes -/

/-- What the conversion is applied to, and the return type. -/
theorem readLEInt16_eq {buffer : List UInt8} {start : Int} (h : InBuffer buffer start 2)
    (host : ByteOrder) :
    readLEInt16 host buffer start =
      some (leToHost host 2 (load host (bytesAt buffer start 2 ++ List.replicate 2 0)) %
        65536) := by
  have hread := readInteger_eq h (by decide) (by decide : 4 ≤ 8) host (le16toh host)
  exact congrArg (Option.map (· % 65536)) hread

theorem readLEInt16_little {buffer : List UInt8} {start : Int} (h : InBuffer buffer start 2) :
    readLEInt16 .little buffer start = some (leValue (bytesAt buffer start 2)) := by
  have hlt := leValue_lt (bytesAt buffer start 2)
  rw [h.length_bytesAt] at hlt
  rw [readLEInt16_eq h, load, leValue_append_zeros, leToHost, Nat.mod_eq_of_lt hlt]
  exact congrArg some (Nat.mod_eq_of_lt hlt)

/-- A big-endian host puts the two bytes where the conversion does not look. -/
theorem readLEInt16_big {buffer : List UInt8} {start : Int} (h : InBuffer buffer start 2) :
    readLEInt16 .big buffer start = some 0 := by
  rw [readLEInt16_eq h, leToHost_load_pad_big, Nat.zero_mod]

/-! ## All readers -/

/-- Every reader for which there are enough bytes returns what these stand for. -/
structure DecodesOnHost (host : ByteOrder) (buffer : List UInt8) (start : Int) : Prop where
  readInt32 : ∀ length : Nat, 1 ≤ length → length ≤ 4 → InBuffer buffer start length →
    readInt32 host buffer start length = some (leValue (bytesAt buffer start length))
  readLEInt16 : InBuffer buffer start 2 →
    readLEInt16 host buffer start = some (leValue (bytesAt buffer start 2))
  readLEInt24 : InBuffer buffer start 3 →
    readLEInt24 host buffer start = some (leValue (bytesAt buffer start 3))
  readLEInt64 : InBuffer buffer start 8 →
    readLEInt64 host buffer start = some (leValue (bytesAt buffer start 8))
  readBEInt16 : InBuffer buffer start 2 →
    readBEInt16 host buffer start = some (beValue (bytesAt buffer start 2))
  readBEInt32 : InBuffer buffer start 4 →
    readBEInt32 host buffer start = some (beValue (bytesAt buffer start 4))
  readBEInt64 : InBuffer buffer start 8 →
    readBEInt64 host buffer start = some (beValue (bytesAt buffer start 8))

/-- All but one of the readers decode on both kinds of host. -/
theorem decodesOnHost_iff_readLEInt16 {host : ByteOrder} {buffer : List UInt8} {start : Int} :
    DecodesOnHost host buffer start ↔ (InBuffer buffer start 2 →
      readLEInt16 host buffer start = some (leValue (bytesAt buffer start 2))) := by
  refine ⟨fun h ↦ h.readLEInt16, fun hread ↦ ?_⟩
  constructor
  · intro length _ hlength h
    exact readInteger_le h hlength (by decide) host
  · exact hread
  · intro h
    exact readLEInt24_eq h host
  · intro h
    exact readInteger_le h le_rfl le_rfl host
  · intro h
    exact readInteger_be h (by decide) host
  · intro h
    exact readInteger_be h (by decide) host
  · intro h
    exact readInteger_be h le_rfl host

/-- **Wire integers.**  A little-endian host decodes everything.  A big-endian one decodes
everything unless there are two bytes at the offset that are not both zero. -/
theorem decodesOnHost_iff (host : ByteOrder) (buffer : List UInt8) (start : Int) :
    DecodesOnHost host buffer start ↔
      (host = .big → InBuffer buffer start 2 → ∀ b ∈ bytesAt buffer start 2, b = 0) := by
  rw [decodesOnHost_iff_readLEInt16]
  cases host with
  | little => exact iff_of_true readLEInt16_little (fun hhost ↦ nomatch hhost)
  | big =>
      rw [forall_prop_of_true rfl]
      refine forall_congr' fun h ↦ ?_
      rw [readLEInt16_big h, Option.some_inj, eq_comm, leValue_eq_zero_iff]

/-- The two bytes of the number one. -/
theorem not_decodesOnHost_one : ¬ DecodesOnHost .big [1, 0] 0 := by
  intro h
  have hread := h.readLEInt16 ⟨by decide, by decide, by decide⟩
  rw [readLEInt16_big ⟨by decide, by decide, by decide⟩] at hread
  exact absurd hread (by decide)

end AsabruCommons.Network
