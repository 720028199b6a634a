import AsabruCommons.FileTransfer.Packets
import AsabruCommons.SelfDelimiting
import Mathlib.Data.Bool.AllAny

/-!
# Packets one behind the other

A packet is sent as it lies in memory, so a stream of packets is a stream of bytes.  There is
nothing between two packets, and they differ in size.

Each `Make` function is called for a purpose, and a `Message` is what the packet is to tell:
the name and the size of a file, the number and the content of a part, the text of an error.
The kind of a packet is its first number, the size of a part its third, and all other packets
have a fixed size.  So the messages can be read off the bytes, one after the other, and a
connection that breaks in the middle of a packet has still delivered those before it
(`messages_isPrefix`).  The bytes between the fields of `T_FILE_META` do not matter; they
need not be the zeros of `memset` in the copy that a function returns.  `transfer_iff` is when
there are such packets at all.
-/

namespace AsabruCommons.FileTransfer

open CArray CInt Endian Utils

/-! ## Memory -/

/-- The byte of a `char`. -/
def charByte (c : Char) : UInt8 := UInt8.ofNat c.toNat

def charBytes (s : List Char) : List UInt8 := s.map charByte

/-- The bytes in memory of a variable of type `long`. -/
def longBytes (host : ByteOrder) (z : Int) : List UInt8 :=
  store host 8 (z % 18446744073709551616).toNat

def T_HAND_SHAKE.bytes (host : ByteOrder) (packet : T_HAND_SHAKE) : List UInt8 :=
  intBytes host packet.packet_type ++
    (charBytes packet.hello_str.elems ++ charBytes packet.padding.elems)

def T_ACK.bytes (host : ByteOrder) (packet : T_ACK) : List UInt8 :=
  intBytes host packet.packet_type ++
    (charBytes packet.hello_str.elems ++ charBytes packet.padding.elems)

def T_FILE_EOF.bytes (host : ByteOrder) (packet : T_FILE_EOF) : List UInt8 :=
  intBytes host packet.packet_type ++ charBytes packet.eof_str.elems

def T_FILE_FATAL_ERROR.bytes (host : ByteOrder) (packet : T_FILE_FATAL_ERROR) : List UInt8 :=
  intBytes host packet.packet_type ++ charBytes packet.err_msg.elems

def T_FILE_CHUNK.bytes (packet : T_FILE_CHUNK) : List UInt8 := packet.memory.elems

/-- There are five bytes in front of the size, which is aligned, and seven at the end, and
they have no value of their own. -/
def T_FILE_META.Bytes (host : ByteOrder) (packet : T_FILE_META) (x : List UInt8) : Prop :=
  ∃ gap tail : List UInt8, gap.length = 5 ∧ tail.length = 7 ∧
    x = intBytes host packet.packet_type ++ (charBytes packet.file_name.elems ++
      (gap ++ (longBytes host packet.size ++ (charBytes packet.padding.elems ++ tail))))

/-! ## What is told -/

inductive Message where
  | handShake
  | ack
  | fileMeta (file_name : Str) (size : Int)
  | fileContent (seq_num : Int) (content : List UInt8)
  | eof
  | fatalError (err_msg : Str)

def Message.packetType : Message → PacketType
  | .handShake => .CHISTA_HAND_SHAKE
  | .ack => .CHISTA_ACK
  | .fileMeta _ _ => .CHISTA_META_DATA
  | .fileContent _ _ => .CHISTA_FILE_CONTENT
  | .eof => .CHISTA_META_EOF
  | .fatalError _ => .CHISTA_META_FATAL_ERROR

/-- A call of one of the functions. -/
inductive Call where
  | MakeFileMeta (file_name : Str) (size : Int)
  | MakeHandShake
  | MakeAck
  | MakeEof
  | MakeBufferPack (buffer : List UInt8) (length seq_num : Int)
  | MakeErrorPack (buffer : Str) (len : Int)

/-- What it is made for. -/
def Call.message : Call → Message
  | .MakeFileMeta file_name size => .fileMeta file_name size
  | .MakeHandShake => .handShake
  | .MakeAck => .ack
  | .MakeEof => .eof
  | .MakeBufferPack buffer length seq_num => .fileContent seq_num (buffer.take length.toNat)
  | .MakeErrorPack buffer len => .fatalError (errorText buffer len)

/-- The bytes of the packet that it returns, if it returns one. -/
def Call.Bytes (host : ByteOrder) (malloc : Malloc) : Call → List UInt8 → Prop
  | .MakeFileMeta file_name size, x => ∃ packet, FileTransfer.MakeFileMeta file_name size =
      some packet ∧ packet.Bytes host x
  | .MakeHandShake, x => ∃ packet, FileTransfer.MakeHandShake = some packet ∧
      x = packet.bytes host
  | .MakeAck, x => ∃ packet, FileTransfer.MakeAck = some packet ∧ x = packet.bytes host
  | .MakeEof, x => ∃ packet, FileTransfer.MakeEof = some packet ∧ x = packet.bytes host
  | .MakeBufferPack buffer length seq_num, x => ∃ packet,
      FileTransfer.MakeBufferPack host malloc buffer length seq_num = some packet ∧
      x = packet.bytes
  | .MakeErrorPack buffer len, x => ∃ packet,
      FileTransfer.MakeErrorPack buffer len = some packet ∧ x = packet.bytes host

/-- The characters in front of the terminator of a string. -/
def IsCString (s : Str) : Prop := ∀ c ∈ s, c ≠ '\x00' ∧ c.toNat < 256

/-- A value of type `int`. -/
def IsInt (z : Int) : Prop := intMin ≤ z ∧ z ≤ intMax

/-- A value of type `long`. -/
def IsLong (z : Int) : Prop := -9223372036854775808 ≤ z ∧ z ≤ 9223372036854775807

/-- The arguments are of their types. -/
def Call.Typed : Call → Prop
  | .MakeFileMeta file_name size => IsCString file_name ∧ IsLong size
  | .MakeHandShake => True
  | .MakeAck => True
  | .MakeEof => True
  | .MakeBufferPack _ length seq_num => IsInt length ∧ IsInt seq_num
  | .MakeErrorPack buffer _ => IsCString buffer

/-! ## Fields -/

@[simp] theorem length_charBytes (s : List Char) : (charBytes s).length = s.length :=
  List.length_map _

@[simp] theorem length_longBytes (host : ByteOrder) (z : Int) : (longBytes host z).length = 8 :=
  length_store host 8 _

theorem longBytes_inj {host : ByteOrder} {y z : Int} (hy : IsLong y) (hz : IsLong z)
    (h : longBytes host y = longBytes host z) : y = z := by
  obtain ⟨hymin, hymax⟩ := hy
  obtain ⟨hzmin, hzmax⟩ := hz
  have hbytes := store_inj (by omega) (by omega) h
  omega

theorem charByte_inj {c d : Char} (hc : c.toNat < 256) (hd : d.toNat < 256)
    (h : charByte c = charByte d) : c = d := by
  have hnat := congrArg UInt8.toNat h
  unfold charByte at hnat
  rw [UInt8.toNat_ofNat', UInt8.toNat_ofNat', Nat.mod_eq_of_lt hc, Nat.mod_eq_of_lt hd] at hnat
  exact Char.toNat_inj.mp hnat

namespace IsCString

variable {s t : Str}

theorem zero_notMem (hs : IsCString s) : '\x00' ∉ s := fun hmem ↦ (hs _ hmem).1 rfl

theorem cons {c : Char} (hs : IsCString (c :: s)) : IsCString s :=
  fun d hd ↦ hs d (List.mem_cons_of_mem c hd)

/-- A string in a field is told by the bytes of the field. -/
theorem eq_of_charBytes (hs : IsCString s) (ht : IsCString t) {m n : Nat}
    (h : charBytes (s ++ List.replicate m '\x00') = charBytes (t ++ List.replicate n '\x00')) :
    s = t := by
  have hzero {c : Char} {u : Str} (hu : IsCString (c :: u)) : charByte '\x00' ≠ charByte c := by
    intro heq
    obtain ⟨hne, hlt⟩ := hu c List.mem_cons_self
    exact hne (charByte_inj (by decide) hlt heq).symm
  induction s generalizing t with
  | nil =>
      cases t with
      | nil => rfl
      | cons d t =>
          cases m with
          | zero => cases h
          | succ m => exact absurd (List.cons.inj h).1 (hzero ht)
  | cons c s ih =>
      cases t with
      | nil =>
          cases n with
          | zero => cases h
          | succ n => exact absurd (List.cons.inj h).1.symm (hzero hs)
      | cons d t =>
          obtain ⟨hhead, htail⟩ := List.cons.inj h
          have hcd := charByte_inj (hs c List.mem_cons_self).2 (ht d List.mem_cons_self).2 hhead
          rw [hcd, ih hs.cons ht.cons htail]

end IsCString

/-- The bytes of a field of characters that holds a string. -/
def field (n : Nat) (s : Str) : List UInt8 := charBytes (written n '\x00' s).elems

@[simp] theorem length_field (n : Nat) (s : Str) : (field n s).length = n := by
  rw [field, length_charBytes, (written n '\x00' s).length_eq]

theorem field_inj {n : Nat} {s t : Str} (hs : IsCString s) (ht : IsCString t)
    (hslen : s.length ≤ n) (htlen : t.length ≤ n) (h : field n s = field n t) : s = t := by
  rw [field, field, elems_written hslen, elems_written htlen] at h
  exact hs.eq_of_charBytes ht h

/-! ## The layout of a message -/

/-- What follows the kind of the packet. -/
def Message.Body (host : ByteOrder) : Message → List UInt8 → Prop
  | .handShake, w => w = field 6 "hello".toList ++ field 2 []
  | .ack, w => w = field 6 "olleh".toList ++ field 2 []
  | .fileMeta file_name size, w => IsCString file_name ∧ file_name.length < 255 ∧ IsLong size ∧
      ∃ gap tail : List UInt8, gap.length = 5 ∧ tail.length = 7 ∧
        w = field 255 file_name ++ (gap ++ (longBytes host size ++ (field 1 [] ++ tail)))
  | .fileContent seq_num content, w => IsInt seq_num ∧ (content.length : Int) ≤ intMax ∧
      w = intBytes host seq_num ++ (intBytes host content.length ++
        (content ++ List.replicate 8 0))
  | .eof, w => w = field 4 "EOF".toList
  | .fatalError err_msg, w => IsCString err_msg ∧ err_msg.length < 1020 ∧ w = field 1020 err_msg

def Message.header (host : ByteOrder) (message : Message) : List UInt8 :=
  intBytes host message.packetType.toInt

def Message.Bytes (host : ByteOrder) (message : Message) (x : List UInt8) : Prop :=
  ∃ w, x = message.header host ++ w ∧ message.Body host w

theorem Message.length_header (host : ByteOrder) (message : Message) :
    (message.header host).length = 4 := length_intBytes host _

/-- The number of a kind tells the kind. -/
theorem Message.packetType_eq {host : ByteOrder} {a b : Message}
    (h : a.header host = b.header host) : a.packetType = b.packetType := by
  have hint (kind : PacketType) : intMin ≤ kind.toInt ∧ kind.toInt ≤ intMax := by
    cases kind <;> decide
  have htoInt := intBytes_inj (hint _) (hint _) h
  revert htoInt
  cases a.packetType <;> cases b.packetType <;> decide

/-- **Behind equal headers.** -/
theorem Message.body_inj {host : ByteOrder} {a b : Message} {x y r s : List UInt8}
    (hkind : a.packetType = b.packetType) (hx : a.Body host x) (hy : b.Body host y)
    (h : x ++ r = y ++ s) : a = b ∧ r = s := by
  cases a with
  | handShake =>
      cases b with
      | handShake =>
          rw [hx, hy] at h
          exact ⟨rfl, List.append_cancel_left h⟩
      | _ => cases hkind
  | ack =>
      cases b with
      | ack =>
          rw [hx, hy] at h
          exact ⟨rfl, List.append_cancel_left h⟩
      | _ => cases hkind
  | fileMeta file_name size =>
      cases b with
      | fileMeta file_name' size' =>
          obtain ⟨hname, hlen, hsize, gap, tail, hgap, htail, rfl⟩ := hx
          obtain ⟨hname', hlen', hsize', gap', tail', hgap', htail', rfl⟩ := hy
          simp only [List.append_assoc] at h
          obtain ⟨hfield, h⟩ := append_inj_of_length (length_field _ _) (length_field _ _) h
          obtain ⟨-, h⟩ := append_inj_of_length hgap hgap' h
          obtain ⟨hlong, h⟩ :=
            append_inj_of_length (length_longBytes _ _) (length_longBytes _ _) h
          obtain ⟨-, hrest⟩ := append_inj_of_length htail htail' (List.append_cancel_left h)
          obtain rfl := field_inj hname hname' hlen.le hlen'.le hfield
          obtain rfl := longBytes_inj hsize hsize' hlong
          exact ⟨rfl, hrest⟩
      | _ => cases hkind
  | fileContent seq_num content =>
      cases b with
      | fileContent seq_num' content' =>
          obtain ⟨hseq, hlen, rfl⟩ := hx
          obtain ⟨hseq', hlen', rfl⟩ := hy
          simp only [List.append_assoc] at h
          obtain ⟨hnum, h⟩ := append_inj_of_length (length_intBytes _ _) (length_intBytes _ _) h
          obtain ⟨hsize, hcontent⟩ :=
            append_inj_of_length (length_intBytes _ _) (length_intBytes _ _) h
          have hlength {l : List UInt8} (hl : (l.length : Int) ≤ intMax) :
              intMin ≤ (l.length : Int) ∧ (l.length : Int) ≤ intMax :=
            ⟨Int.le_trans (by decide) (Int.natCast_nonneg _), hl⟩
          have hsame := Int.ofNat_inj.mp (intBytes_inj (hlength hlen) (hlength hlen') hsize)
          obtain rfl := intBytes_inj hseq hseq' hnum
          obtain ⟨rfl, hrest⟩ := append_inj_of_length hsame rfl hcontent
          exact ⟨rfl, List.append_cancel_left hrest⟩
      | _ => cases hkind
  | eof =>
      cases b with
      | eof =>
          rw [hx, hy] at h
          exact ⟨rfl, List.append_cancel_left h⟩
      | _ => cases hkind
  | fatalError err_msg =>
      cases b with
      | fatalError err_msg' =>
          obtain ⟨htext, hlen, rfl⟩ := hx
          obtain ⟨htext', hlen', rfl⟩ := hy
          obtain ⟨hfield, hrest⟩ := append_inj_of_length (length_field _ _) (length_field _ _) h
          obtain rfl := field_inj htext htext' hlen.le hlen'.le hfield
          exact ⟨rfl, hrest⟩
      | _ => cases hkind

/-- No message begins like another one. -/
theorem Message.selfDelimiting (host : ByteOrder) : SelfDelimiting (Message.Bytes host) := by
  apply SelfDelimiting.of_header (Message.length_header host)
  · intro message x hx
    exact hx
  · intro a b x y r s hheader hx hy h
    exact Message.body_inj (Message.packetType_eq hheader) hx hy h

theorem Message.not_bytes_nil {host : ByteOrder} (message : Message) :
    ¬ message.Bytes host [] := by
  rintro ⟨w, hw, -⟩
  have hlen := congrArg List.length hw
  rw [List.length_append, message.length_header] at hlen
  exact absurd hlen (by rw [List.length_nil]; omega)

/-! ## Whether there are packets -/

/-- The texts fit their fields, and there is a block for the part. -/
def Call.Fits (malloc : Malloc) : Call → Prop
  | .MakeFileMeta file_name _ => file_name.length < 255
  | .MakeHandShake => True
  | .MakeAck => True
  | .MakeEof => True
  | .MakeBufferPack buffer length _ => 0 ≤ length ∧ length + 20 ≤ intMax ∧
      malloc.gives (length.toNat + 20) ∧ length.toNat ≤ buffer.length
  | .MakeErrorPack buffer len => 1020 ≤ len ∨ buffer.length < 1020

theorem exists_bytes_iff {host : ByteOrder} {malloc : Malloc} {call : Call} (h : call.Typed) :
    (∃ x, call.Bytes host malloc x) ↔ call.Fits malloc := by
  cases call with
  | MakeFileMeta file_name size =>
      constructor
      · rintro ⟨x, packet, hpacket, -⟩
        obtain ⟨copied, hcopied, -⟩ := Option.bind_eq_some_iff.mp hpacket
        exact (of_strcpy_filled h.1.zero_notMem hcopied).1
      · intro hlen
        obtain ⟨packet, hpacket, -⟩ := makeFileMeta_of_lt h.1.zero_notMem hlen size
        exact ⟨_, packet, hpacket, List.replicate 5 0, List.replicate 7 0, rfl, rfl, rfl⟩
  | MakeHandShake => exact iff_of_true ⟨_, _, makeHandShake_eq, rfl⟩ trivial
  | MakeAck => exact iff_of_true ⟨_, _, makeAck_eq, rfl⟩ trivial
  | MakeEof => exact iff_of_true ⟨_, _, makeEof_eq, rfl⟩ trivial
  | MakeBufferPack buffer length seq_num =>
      have hblock := @makeBufferPack_iff host malloc buffer length seq_num h.1.1 h.1.2
      refine Iff.trans ⟨?_, ?_⟩ hblock
      · rintro ⟨x, packet, hpacket, -⟩
        exact ⟨packet, hpacket⟩
      · rintro ⟨packet, hpacket⟩
        exact ⟨_, packet, hpacket, rfl⟩
  | MakeErrorPack buffer len =>
      refine Iff.trans ⟨?_, ?_⟩ (makeErrorPack_iff h.zero_notMem len)
      · rintro ⟨x, packet, hpacket, -⟩
        exact ⟨packet, hpacket⟩
      · rintro ⟨packet, hpacket⟩
        exact ⟨_, packet, hpacket, rfl⟩

/-- **A transfer.**  Calls one after the other have packets exactly if each text fits its field,
by the length that is told of it, and each part fits into a block. -/
theorem transfer_iff {host : ByteOrder} {malloc : Malloc} {calls : List Call}
    (h : ∀ call ∈ calls, call.Typed) :
    (∃ s, Stream (Call.Bytes host malloc) calls s) ↔ ∀ call ∈ calls, call.Fits malloc := by
  rw [exists_stream_iff]
  exact forall₂_congr fun call hcall ↦ exists_bytes_iff (h call hcall)

/-- The length that is told is not the length of the text. -/
theorem transfer_iff_untrue :
    ¬ ∃ s, Stream (Call.Bytes .little (.upTo 4096 (by decide)))
      [.MakeHandShake, .MakeErrorPack (List.replicate 1020 'x') 5] s := by
  rw [transfer_iff]
  · intro hfits
    rcases hfits _ (List.mem_pair.mpr (.inr rfl)) with hlen | hlen
    · exact absurd hlen (by decide)
    · rw [List.length_replicate] at hlen
      exact absurd hlen (by decide)
  · have htext : IsCString (List.replicate 1020 'x') := fun c hc ↦ by
      rw [List.eq_of_mem_replicate hc]
      decide
    intro call hcall
    rcases List.mem_pair.mp hcall with rfl | rfl
    · trivial
    · exact htext

/-! ## The packets have this layout -/

theorem message_bytes {host : ByteOrder} {malloc : Malloc} {call : Call} (h : call.Typed)
    {x : List UInt8} (hx : call.Bytes host malloc x) : call.message.Bytes host x := by
  cases call with
  | MakeFileMeta file_name size =>
      obtain ⟨packet, hpacket, gap, tail, hgap, htail, rfl⟩ := hx
      obtain ⟨hname, hsize⟩ := h
      obtain ⟨copied, hcopied, hpacket⟩ := Option.bind_eq_some_iff.mp hpacket
      obtain rfl := Option.some.inj hpacket
      obtain ⟨hlen, rfl⟩ := of_strcpy_filled hname.zero_notMem hcopied
      exact ⟨_, rfl, hname, hlen, hsize, gap, tail, hgap, htail, rfl⟩
  | MakeHandShake =>
      obtain ⟨packet, hpacket, rfl⟩ := hx
      obtain rfl := Option.some.inj (makeHandShake_eq.symm.trans hpacket)
      exact ⟨_, rfl, rfl⟩
  | MakeAck =>
      obtain ⟨packet, hpacket, rfl⟩ := hx
      obtain rfl := Option.some.inj (makeAck_eq.symm.trans hpacket)
      exact ⟨_, rfl, rfl⟩
  | MakeEof =>
      obtain ⟨packet, hpacket, rfl⟩ := hx
      obtain rfl := Option.some.inj (makeEof_eq.symm.trans hpacket)
      exact ⟨_, rfl, rfl⟩
  | MakeBufferPack buffer length seq_num =>
      obtain ⟨packet, hpacket, rfl⟩ := hx
      obtain ⟨⟨hmin, hmax⟩, hseq⟩ := h
      obtain ⟨hnonneg, hint, hmalloc, hread⟩ := of_makeBufferPack hmin hmax hpacket
      obtain ⟨packet', hpacket', helems⟩ := makeBufferPack_eq hnonneg hint hmalloc hread seq_num
      obtain rfl := Option.some.inj (hpacket.symm.trans hpacket')
      have hlength : ((buffer.take length.toNat).length : Int) = length := by
        rw [List.length_take, Nat.min_eq_left hread, Int.toNat_of_nonneg hnonneg]
      refine ⟨_, ?_, hseq, hlength.le.trans hmax, rfl⟩
      rw [hlength]
      show packet.memory.elems = _
      rw [helems, chunkHeader]
      simp only [List.append_assoc]
      rfl
  | MakeErrorPack buffer len =>
      obtain ⟨packet, hpacket, rfl⟩ := hx
      have htext : IsCString (errorText buffer len) := by
        rw [errorText]
        split
        · exact h
        · unfold IsCString
          exact List.all_iff_forall_prop.mp rfl
      rw [makeErrorPack_eq] at hpacket
      obtain ⟨copied, hcopied, rfl⟩ := Option.map_eq_some_iff.mp hpacket
      obtain ⟨hlen, rfl⟩ := of_strcpy_filled htext.zero_notMem hcopied
      exact ⟨_, rfl, htext, hlen, rfl⟩

/-- **Messages in a stream.**  What is a prefix of the bytes of some packets tells a prefix of
their messages. -/
theorem messages_isPrefix {host : ByteOrder} {malloc malloc' : Malloc} {calls calls' : List Call}
    (hcalls : ∀ call ∈ calls, call.Typed) (hcalls' : ∀ call ∈ calls', call.Typed)
    {s t : List UInt8} (hs : Stream (Call.Bytes host malloc) calls s)
    (ht : Stream (Call.Bytes host malloc') calls' t) (hst : s <+: t) :
    calls.map Call.message <+: calls'.map Call.message := by
  have hsmap := hs.map (f := Call.message) fun call hcall x ↦ message_bytes (hcalls call hcall)
  have htmap := ht.map (f := Call.message) fun call hcall x ↦ message_bytes (hcalls' call hcall)
  exact (Message.selfDelimiting host).isPrefix Message.not_bytes_nil hsmap htmap hst

/-- A connection that breaks before the end of the file. -/
theorem messages_isPrefix_broken : ∃ s t : List UInt8,
    Stream (Call.Bytes .little (.upTo 4096 (by decide)))
      [.MakeHandShake, .MakeBufferPack [104, 105] 2 1] s ∧
    Stream (Call.Bytes .little (.upTo 4096 (by decide)))
      [.MakeHandShake, .MakeBufferPack [104, 105] 2 1, .MakeEof] t ∧
    [Call.MakeHandShake, .MakeBufferPack [104, 105] 2 1].map Call.message <+:
      [Call.MakeHandShake, .MakeBufferPack [104, 105] 2 1, .MakeEof].map Call.message := by
  obtain ⟨packet, hpacket, -⟩ := @makeBufferPack_eq .little (.upTo 4096 (by decide)) [104, 105] 2
    (by decide) (by decide) (by decide) (by decide) 1
  have hfirst : Call.Bytes .little (.upTo 4096 (by decide)) .MakeHandShake _ :=
    ⟨_, makeHandShake_eq, rfl⟩
  have hsecond : Call.Bytes .little (.upTo 4096 (by decide))
      (.MakeBufferPack [104, 105] 2 1) packet.bytes := ⟨packet, hpacket, rfl⟩
  have hthird : Call.Bytes .little (.upTo 4096 (by decide)) .MakeEof _ := ⟨_, makeEof_eq, rfl⟩
  have hs := Stream.cons hfirst (.cons hsecond .nil)
  have ht := Stream.cons hfirst (.cons hsecond (.cons hthird .nil))
  refine ⟨_, _, hs, ht, messages_isPrefix ?_ ?_ hs ht ?_⟩
  · simp [Call.Typed, IsInt, intMin, intMax]
  · simp [Call.Typed, IsInt, intMin, intMax]
  · rw [List.append_nil, List.append_nil, ← List.append_assoc]
    exact List.prefix_append _ _

end AsabruCommons.FileTransfer
