import AsabruCommons.CInt
import AsabruCommons.Utils.ChopLine

/-!
# The packet that announces a file

`MakeFileMeta` puts the name and the size of a file into a packet of fixed fields, and
`ComputeFileSize` finds the size as the position at the end of the file.

The name is copied by `strcpy`, which does not know how large the field is, so it may
have 254 bytes at most.  The position has 64 bits, like the field of the packet; but it
passes through a local variable of type `int`, which keeps what is less than `2 ^ 31`.
`fileMeta_iff` says that there are no other limits.
-/

namespace AsabruCommons.FileTransfer

open CArray CInt Utils

/-- `Payload.h`, the kinds of packets. -/
inductive PacketType where
  | CHISTA_NULL
  | CHISTA_HAND_SHAKE
  | CHISTA_ACK
  | CHISTA_META_DATA
  | CHISTA_FILE_CONTENT
  | CHISTA_META_EOF
  | CHISTA_META_FATAL_ERROR
deriving DecidableEq, Repr

/-- Their numbers. -/
def PacketType.toInt : PacketType → Int
  | .CHISTA_NULL => -1
  | .CHISTA_HAND_SHAKE => 1
  | .CHISTA_ACK => 2
  | .CHISTA_META_DATA => 3
  | .CHISTA_FILE_CONTENT => 4
  | .CHISTA_META_EOF => 5
  | .CHISTA_META_FATAL_ERROR => 6

structure T_FILE_META where
  packet_type : Int
  file_name : CArray Char 255
  size : Int
  padding : CArray Char 1

/-- `memset(&return_value, 0, sizeof(T_FILE_META))` -/
def T_FILE_META.zero : T_FILE_META := ⟨0, filled 255 '\x00', 0, filled 1 '\x00'⟩

/-- There is no packet if `strcpy` writes past the end of the field.  Nothing else can go
wrong: a name is never rejected. -/
def MakeFileMeta (file_name : Str) (size : Int) : Option T_FILE_META := do
  let return_value := { T_FILE_META.zero with packet_type := PacketType.CHISTA_META_DATA.toInt }
  let copied ← strcpy return_value.file_name file_name
  return { return_value with file_name := copied, size }

/-- `tellg` is the position at the end of the file of a name. -/
def ComputeFileSize (tellg : Str → Int) (file_name : Str) : Int :=
  let file_size := ofLong (tellg file_name)
  file_size

/-- The packet says that it is about a file, and what the name and the size are. -/
structure T_FILE_META.Announces (packet : T_FILE_META) (name : Str) (n : Nat) : Prop where
  packet_type : packet.packet_type = PacketType.CHISTA_META_DATA.toInt
  file_name : packet.file_name.cString '\x00' 0 = some name
  size : packet.size = n

/-- A packet has the size that it was made with. -/
theorem size_of_makeFileMeta {name : Str} {size : Int} {packet : T_FILE_META}
    (h : MakeFileMeta name size = some packet) : packet.size = size := by
  obtain ⟨copied, -, hpacket⟩ := Option.bind_eq_some_iff.mp h
  obtain rfl := Option.some.inj hpacket
  rfl

/-- **A name that fits.**  The size is not looked at. -/
theorem makeFileMeta_of_lt {name : Str} (hname : '\x00' ∉ name) (hlen : name.length < 255)
    (size : Int) :
    ∃ packet, MakeFileMeta name size = some packet ∧
      packet.packet_type = PacketType.CHISTA_META_DATA.toInt ∧
      packet.file_name.cString '\x00' 0 = some name := by
  obtain ⟨copied, hcopy, rest, helems⟩ := strcpy_eq hname hlen (filled 255 '\x00')
  refine ⟨⟨PacketType.CHISTA_META_DATA.toInt, copied, size, filled 1 '\x00'⟩, ?_, rfl, ?_⟩
  · show (strcpy (filled 255 '\x00') name >>= _) = _
    rw [hcopy]
    rfl
  · show copied.cString '\x00' 0 = some name
    rw [cString, helems, List.drop_zero, readString_append hname]

/-- A name that does not fit is written past the end of the field. -/
theorem makeFileMeta_of_le {name : Str} (hname : '\x00' ∉ name) (hlen : 255 ≤ name.length)
    (size : Int) : MakeFileMeta name size = none := by
  show (strcpy (filled 255 '\x00') name >>= _) = none
  rw [strcpy_eq_none hname hlen]
  rfl

/-- **The packet of a file.** -/
theorem fileMeta_iff {name : Str} (hname : '\x00' ∉ name) {n : Nat} {tellg : Str → Int}
    (htellg : tellg name = n) :
    (∃ packet, MakeFileMeta name (ComputeFileSize tellg name) = some packet ∧
        packet.Announces name n) ↔
      name.length < 255 ∧ (n : Int) ≤ intMax := by
  have hsize : ComputeFileSize tellg name = n ↔ (n : Int) ≤ intMax := by
    rw [ComputeFileSize, htellg, ofLong_eq_self_iff]
    refine and_iff_right ?_
    exact Int.le_trans (by decide) (Int.natCast_nonneg n)
  rw [← hsize]
  constructor
  · rintro ⟨packet, hpacket, hannounces⟩
    have hlen : name.length < 255 := by
      by_contra hno
      rw [makeFileMeta_of_le hname (Nat.not_lt.mp hno)] at hpacket
      cases hpacket
    exact ⟨hlen, (size_of_makeFileMeta hpacket).symm.trans hannounces.size⟩
  · rintro ⟨hlen, hcomputed⟩
    obtain ⟨packet, hpacket, htype, hstring⟩ :=
      makeFileMeta_of_lt hname hlen (ComputeFileSize tellg name)
    exact ⟨packet, hpacket, htype, hstring, (size_of_makeFileMeta hpacket).trans hcomputed⟩

/-- The largest file with the right size. -/
theorem fileMeta_dump :
    ∃ packet, MakeFileMeta "dump.sql".toList
        (ComputeFileSize (fun _ ↦ 2147483647) "dump.sql".toList) = some packet ∧
      packet.Announces "dump.sql".toList 2147483647 :=
  (fileMeta_iff (by decide) rfl).mpr (by decide)

/-- The next larger ones have a negative size, and a file of `2 ^ 32` bytes has none.  A
name of 255 bytes has no room for its terminator. -/
theorem not_fileMeta_large :
    ComputeFileSize (fun _ ↦ 2147483648) "dump.sql".toList = -2147483648 ∧
      ComputeFileSize (fun _ ↦ 4294967296) "dump.sql".toList = 0 ∧
      (¬ ∃ packet, MakeFileMeta "dump.sql".toList
          (ComputeFileSize (fun _ ↦ 2147483648) "dump.sql".toList) = some packet ∧
        packet.Announces "dump.sql".toList 2147483648) ∧
      MakeFileMeta (List.replicate 255 'a') 1 = none := by
  refine ⟨by decide, by decide, ?_, ?_⟩
  · rintro ⟨packet, hpacket, hannounces⟩
    have hsize := (size_of_makeFileMeta hpacket).symm.trans hannounces.size
    exact absurd hsize (by decide)
  · apply makeFileMeta_of_le
    · exact fun hmem ↦ absurd (List.eq_of_mem_replicate hmem) (by decide)
    · rw [List.length_replicate]

end AsabruCommons.FileTransfer
