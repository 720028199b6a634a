import AsabruCommons.Endian
import AsabruCommons.FileTransfer.Payload

/-!
# The other packets

The packets of a transfer are fixed records, but for the one with a part of the file: that is
a block of `malloc` with the part behind three numbers.

`MakeBufferPack` takes the size of the block through a variable of type `int` and the size of
the part as one of `std::size_t`.  `makeBufferPack_iff` is when all of this fits together: the
length may not be negative, nor so large that twenty more do not fit an `int`.
`MakeErrorPack` is told the length of the text that it copies, and looks at nothing else
(`makeErrorPack_iff`).
-/

namespace AsabruCommons.FileTransfer

open CArray CInt Endian Utils

/-! ## The records -/

structure T_HAND_SHAKE where
  packet_type : Int
  hello_str : CArray Char 6
  padding : CArray Char 2

structure T_ACK where
  packet_type : Int
  hello_str : CArray Char 6
  padding : CArray Char 2

structure T_FILE_EOF where
  packet_type : Int
  eof_str : CArray Char 4

structure T_FILE_FATAL_ERROR where
  packet_type : Int
  err_msg : CArray Char 1020

/-- The block that the pointer points to.  Its first twelve bytes are `packet_type`,
`packet_seq_num` and `buffer_size`, and `buffer` begins behind them. -/
structure T_FILE_CHUNK where
  size : Nat
  memory : CArray UInt8 size

def T_HAND_SHAKE.zero : T_HAND_SHAKE := ⟨0, filled 6 '\x00', filled 2 '\x00'⟩

def T_ACK.zero : T_ACK := ⟨0, filled 6 '\x00', filled 2 '\x00'⟩

def T_FILE_EOF.zero : T_FILE_EOF := ⟨0, filled 4 '\x00'⟩

def T_FILE_FATAL_ERROR.zero : T_FILE_FATAL_ERROR := ⟨0, filled 1020 '\x00'⟩

/-- `sizeof(T_FILE_CHUNK)`: the three numbers, one character, and what aligns the next. -/
def sizeofChunk : Nat := 16

/-- Whether there is a block of this size.  None is larger than a pointer difference. -/
structure Malloc where
  gives : Nat → Bool
  le_of_gives : ∀ n, gives n → n ≤ 9223372036854775807

/-- Blocks up to a size. -/
def Malloc.upTo (size : Nat) (h : size ≤ 9223372036854775807) : Malloc where
  gives n := n ≤ size
  le_of_gives _ hn := (of_decide_eq_true hn).trans h

/-- The bytes in memory of a variable of type `int`. -/
def intBytes (host : ByteOrder) (z : Int) : List UInt8 := store host 4 (z % 4294967296).toNat

/-! ## Making them -/

def MakeHandShake : Option T_HAND_SHAKE := do
  let ret_val := { T_HAND_SHAKE.zero with packet_type := PacketType.CHISTA_HAND_SHAKE.toInt }
  let copied ← strcpy ret_val.hello_str "hello".toList
  return { ret_val with hello_str := copied }

def MakeAck : Option T_ACK := do
  let ret_val := { T_ACK.zero with packet_type := PacketType.CHISTA_ACK.toInt }
  let copied ← strcpy ret_val.hello_str "olleh".toList
  return { ret_val with hello_str := copied }

def MakeEof : Option T_FILE_EOF := do
  let ret_val := { T_FILE_EOF.zero with packet_type := PacketType.CHISTA_META_EOF.toInt }
  let copied ← strcpy ret_val.eof_str "EOF".toList
  return { ret_val with eof_str := copied }

/-- `memcpy` reads from a buffer that holds these bytes.  There is no packet if it reads or
writes outside, if a field lies outside of the block, or if there is no block. -/
def MakeBufferPack (host : ByteOrder) (malloc : Malloc) (buffer : List UInt8)
    (length seq_num : Int) : Option T_FILE_CHUNK :=
  let actual_buffer_size :=
    ofSize ((sizeofChunk + toSize length + 4) % 18446744073709551616)
  if malloc.gives (toSize actual_buffer_size) then do
    let memory := filled (toSize actual_buffer_size) 0
    let memory ← memory.storeAll 0 (intBytes host PacketType.CHISTA_FILE_CONTENT.toInt)
    let memory ← memory.storeAll 4 (intBytes host seq_num)
    let memory ← memory.storeAll 8 (intBytes host length)
    if toSize length ≤ buffer.length then
      let memory ← memory.storeAll 12 (buffer.take (toSize length))
      return ⟨_, memory⟩
    else none
  else none

def MakeErrorPack (buffer : Str) (len : Int) : Option T_FILE_FATAL_ERROR := do
  let return_value :=
    { T_FILE_FATAL_ERROR.zero with packet_type := PacketType.CHISTA_META_FATAL_ERROR.toInt }
  if len < 1020 then
    let copied ← strcpy return_value.err_msg buffer
    return { return_value with err_msg := copied }
  else
    let copied ← strcpy return_value.err_msg "Error Message Too Long...".toList
    return { return_value with err_msg := copied }

/-! ## Strings in fields -/

/-- A string that fits, and zero bytes up to the end of the field. -/
theorem strcpy_filled {size : Nat} {s : Str} (hs : '\x00' ∉ s) (hlen : s.length < size) :
    strcpy (filled size '\x00') s = some (written size '\x00' s) := by
  have hfits : ([] : Str).length + (s ++ ['\x00']).length ≤ size := by
    rw [List.length_append, List.length_singleton, List.length_nil, Nat.zero_add]
    exact hlen
  rw [strcpy, takeWhile_of_notMem hs, filled_eq_written,
    storeAll_written (l := []) hfits List.length_nil.symm]
  refine congrArg some (ext ?_)
  have hterminated : (s ++ ['\x00']).length ≤ size := by
    rw [List.length_append, List.length_singleton]
    exact hlen
  have hsplit : size - s.length = (size - (s.length + 1)) + 1 := by omega
  rw [List.nil_append, elems_written hterminated, elems_written hlen.le, hsplit,
    List.replicate_succ, List.length_append, List.length_singleton, List.append_assoc]
  rfl

/-- Nothing else is put into a field. -/
theorem of_strcpy_filled {size : Nat} {s : Str} (hs : '\x00' ∉ s) {copied : CArray Char size}
    (h : strcpy (filled size '\x00') s = some copied) :
    s.length < size ∧ copied = written size '\x00' s := by
  have hlen : s.length < size := by
    by_contra hno
    rw [strcpy_eq_none hs (Nat.not_lt.mp hno)] at h
    cases h
  rw [strcpy_filled hs hlen] at h
  exact ⟨hlen, (Option.some.inj h).symm⟩

theorem makeHandShake_eq : MakeHandShake =
    some ⟨PacketType.CHISTA_HAND_SHAKE.toInt, written 6 '\x00' "hello".toList,
      filled 2 '\x00'⟩ := by
  show (strcpy (filled 6 '\x00') "hello".toList >>= _) = _
  rw [strcpy_filled (by decide) (by decide)]
  rfl

theorem makeAck_eq : MakeAck =
    some ⟨PacketType.CHISTA_ACK.toInt, written 6 '\x00' "olleh".toList, filled 2 '\x00'⟩ := by
  show (strcpy (filled 6 '\x00') "olleh".toList >>= _) = _
  rw [strcpy_filled (by decide) (by decide)]
  rfl

theorem makeEof_eq : MakeEof =
    some ⟨PacketType.CHISTA_META_EOF.toInt, written 4 '\x00' "EOF".toList⟩ := by
  show (strcpy (filled 4 '\x00') "EOF".toList >>= _) = _
  rw [strcpy_filled (by decide) (by decide)]
  rfl

/-- The text that an error packet gets. -/
def errorText (buffer : Str) (len : Int) : Str :=
  if len < 1020 then buffer else "Error Message Too Long...".toList

theorem makeErrorPack_eq (buffer : Str) (len : Int) : MakeErrorPack buffer len =
    (strcpy (filled 1020 '\x00') (errorText buffer len)).map
      (⟨PacketType.CHISTA_META_FATAL_ERROR.toInt, ·⟩) := by
  rw [Option.map_eq_bind]
  rcases lt_or_ge len 1020 with hlen | hlen
  · rw [MakeErrorPack, errorText, if_pos hlen, if_pos hlen]
    rfl
  · rw [MakeErrorPack, errorText, if_neg (Int.not_lt.mpr hlen), if_neg (Int.not_lt.mpr hlen)]
    rfl

/-- **Error texts.**  A text that is said to be too long for the field is replaced, and every
other is copied, however long it is. -/
theorem makeErrorPack_iff {buffer : Str} (hbuffer : '\x00' ∉ buffer) (len : Int) :
    (∃ packet, MakeErrorPack buffer len = some packet) ↔
      1020 ≤ len ∨ buffer.length < 1020 := by
  rw [makeErrorPack_eq]
  rcases lt_or_ge len 1020 with hlen | hlen
  · rw [or_iff_right (Int.not_le.mpr hlen), errorText, if_pos hlen]
    constructor
    · rintro ⟨packet, hpacket⟩
      obtain ⟨copied, hcopied, -⟩ := Option.map_eq_some_iff.mp hpacket
      exact (of_strcpy_filled hbuffer hcopied).1
    · intro hfits
      rw [strcpy_filled hbuffer hfits]
      exact ⟨_, rfl⟩
  · rw [errorText, if_neg (Int.not_lt.mpr hlen), strcpy_filled (by decide) (by decide)]
    exact iff_of_true ⟨_, rfl⟩ (.inl hlen)

/-! ## A part of the file -/

@[simp] theorem length_intBytes (host : ByteOrder) (z : Int) : (intBytes host z).length = 4 :=
  length_store host 4 _

/-- A variable is told by its bytes. -/
theorem intBytes_inj {host : ByteOrder} {y z : Int} (hy : intMin ≤ y ∧ y ≤ intMax)
    (hz : intMin ≤ z ∧ z ≤ intMax) (h : intBytes host y = intBytes host z) : y = z := by
  unfold intMin intMax at hy hz
  have hbytes := store_inj (by omega) (by omega) h
  omega

/-- What precedes the part. -/
def chunkHeader (host : ByteOrder) (seq_num length : Int) : List UInt8 :=
  intBytes host PacketType.CHISTA_FILE_CONTENT.toInt ++ intBytes host seq_num ++
    intBytes host length

@[simp] theorem length_chunkHeader (host : ByteOrder) (seq_num length : Int) :
    (chunkHeader host seq_num length).length = 12 := by
  rw [chunkHeader, List.length_append, List.length_append, length_intBytes, length_intBytes,
    length_intBytes]

/-- The size of the block. -/
theorem actual_buffer_size {length : Int} (hnonneg : 0 ≤ length) (hmax : length + 20 ≤ intMax) :
    toSize (ofSize ((sizeofChunk + toSize length + 4) % 18446744073709551616)) =
      length.toNat + 20 := by
  have hsize : toSize length = length.toNat :=
    toSize_of_nonneg hnonneg (Int.le_trans (by omega) hmax)
  have hmod : (sizeofChunk + length.toNat + 4) % 18446744073709551616 = length.toNat + 20 := by
    unfold sizeofChunk
    unfold intMax at hmax
    omega
  have hle : ((length.toNat + 20 : Nat) : Int) ≤ intMax := by
    rw [Nat.cast_add, Int.toNat_of_nonneg hnonneg]
    exact hmax
  rw [hsize, hmod, ofSize_of_le hle, toSize_of_nonneg (Int.natCast_nonneg _) hle]
  exact Int.toNat_natCast _

/-- **The block.**  Behind the header and the part there are eight zero bytes. -/
theorem makeBufferPack_eq {host : ByteOrder} {malloc : Malloc} {buffer : List UInt8}
    {length : Int} (hnonneg : 0 ≤ length) (hmax : length + 20 ≤ intMax)
    (hmalloc : malloc.gives (length.toNat + 20)) (hread : length.toNat ≤ buffer.length)
    (seq_num : Int) :
    ∃ packet, MakeBufferPack host malloc buffer length seq_num = some packet ∧
      packet.memory.elems = chunkHeader host seq_num length ++ buffer.take length.toNat ++
        List.replicate 8 0 := by
  have hsize : toSize length = length.toNat :=
    toSize_of_nonneg hnonneg (Int.le_trans (by omega) hmax)
  have hall : (chunkHeader host seq_num length ++ buffer.take length.toNat).length =
      length.toNat + 12 := by
    rw [List.length_append, length_chunkHeader, List.length_take, Nat.min_eq_left hread,
      Nat.add_comm]
  have hblock : length.toNat + 20 - (length.toNat + 12) = 8 := by omega
  have hheader {l : List UInt8} {z : Int} (hl : l.length ≤ 8) :
      l.length + (intBytes host z).length ≤ length.toNat + 20 := by
    rw [length_intBytes]
    omega
  refine ⟨⟨length.toNat + 20,
    written _ 0 (chunkHeader host seq_num length ++ buffer.take length.toNat)⟩, ?_, ?_⟩
  · rw [MakeBufferPack, actual_buffer_size hnonneg hmax]
    simp only [if_pos hmalloc, hsize, if_pos hread, Option.bind_eq_bind]
    rw [filled_eq_written, storeAll_written (l := []) (i := 0) (hheader (by simp)) rfl,
      Option.bind_some, storeAll_written (hheader (by simp)) (by simp), Option.bind_some,
      storeAll_written (hheader (by simp)) (by simp), Option.bind_some,
      storeAll_written ?_ (by simp)]
    · rfl
    · rw [List.nil_append]
      show (chunkHeader host seq_num length).length + (buffer.take length.toNat).length ≤ _
      rw [← List.length_append, hall]
      exact Nat.add_le_add_left (by decide) _
  · show (written _ 0 _).elems = _
    rw [elems_written (hall.le.trans (Nat.add_le_add_left (by decide) _)), hall, hblock]

/-- What a packet says about the call that made it. -/
theorem of_makeBufferPack {host : ByteOrder} {malloc : Malloc} {buffer : List UInt8}
    {length seq_num : Int} (hmin : intMin ≤ length) (hmax : length ≤ intMax)
    {packet : T_FILE_CHUNK}
    (h : MakeBufferPack host malloc buffer length seq_num = some packet) :
    0 ≤ length ∧ length + 20 ≤ intMax ∧ malloc.gives (length.toNat + 20) ∧
      length.toNat ≤ buffer.length := by
  rw [MakeBufferPack] at h
  dsimp only at h
  split at h
  case isFalse => cases h
  case isTrue hmalloc =>
    obtain ⟨first, -, h⟩ := Option.bind_eq_some_iff.mp h
    obtain ⟨second, -, h⟩ := Option.bind_eq_some_iff.mp h
    obtain ⟨third, -, h⟩ := Option.bind_eq_some_iff.mp h
    split at h
    case isFalse => cases h
    case isTrue hread =>
      obtain ⟨fourth, hcopy, -⟩ := Option.bind_eq_some_iff.mp h
      have hle := malloc.le_of_gives _ hmalloc
      unfold intMin at hmin
      have hnonneg : 0 ≤ length := by
        by_contra hneg
        -- the part would be larger than any block
        have hlarge : 9223372036854775807 < toSize length := by
          unfold toSize
          unfold intMax at hmax
          omega
        have htake : (buffer.take (toSize length)).length = toSize length := by
          rw [List.length_take, Nat.min_eq_left hread]
        have hfits := le_of_storeAll hcopy (List.ne_nil_of_length_pos (by omega))
        omega
      have hsize : toSize length = length.toNat := toSize_of_nonneg hnonneg hmax
      have hint : length + 20 ≤ intMax := by
        by_contra hwraps
        -- the size of the block would be negative
        have hwrapped : ofSize ((sizeofChunk + toSize length + 4) % 18446744073709551616) =
            length + 20 - 4294967296 := by
          rw [hsize]
          unfold ofSize sizeofChunk
          unfold intMax at hmax hwraps
          rw [Int.bmod_def]
          omega
        rw [hwrapped] at hle
        unfold toSize at hle
        unfold intMax at hmax hwraps
        omega
      rw [actual_buffer_size hnonneg hint] at hmalloc
      rw [hsize] at hread
      exact ⟨hnonneg, hint, hmalloc, hread⟩

/-- **When there is a block.** -/
theorem makeBufferPack_iff {host : ByteOrder} {malloc : Malloc} {buffer : List UInt8}
    {length seq_num : Int} (hmin : intMin ≤ length) (hmax : length ≤ intMax) :
    (∃ packet, MakeBufferPack host malloc buffer length seq_num = some packet) ↔
      0 ≤ length ∧ length + 20 ≤ intMax ∧ malloc.gives (length.toNat + 20) ∧
        length.toNat ≤ buffer.length := by
  constructor
  · rintro ⟨packet, hpacket⟩
    exact of_makeBufferPack hmin hmax hpacket
  · rintro ⟨hnonneg, hint, hmalloc, hread⟩
    obtain ⟨packet, hpacket, -⟩ := makeBufferPack_eq hnonneg hint hmalloc hread seq_num
    exact ⟨packet, hpacket⟩

end AsabruCommons.FileTransfer
