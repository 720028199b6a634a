import Mathlib.Data.Nat.Digits.Lemmas
import Mathlib.Algebra.GroupWithZero.Nat

/-!
# Byte orders

A variable of an unsigned type of `k` bytes holds a number below `256 ^ k`.  Its bytes
lie in memory from the least significant on, or the other way round, and the host
decides which (`ByteOrder`).  Arithmetic cannot tell; only copying bytes into a
variable can (`memcpy`).

The conversions `le..toh` and `be..toh` reorder the bytes of a number where the host
and the data disagree.  After a copy that fills the variable they give the number that
was meant, on every host (`leToHost_load`, `beToHost_load`).  A shorter copy into a
zero variable leaves the bytes that follow zero, which the little-endian conversion
of the whole variable does not mind (`leToHost_load_pad`).
-/

namespace AsabruCommons

/-- Where the least significant byte of a variable lies. -/
inductive ByteOrder where
  | little
  | big
deriving DecidableEq

namespace Endian

/-! ## Numbers and their bytes -/

/-- The number with these bytes, the least significant first. -/
def leValue (bytes : List UInt8) : Nat := (bytes.mapIdx fun i b ↦ b.toNat * 256 ^ i).sum

/-- The number with these bytes, the most significant first. -/
def beValue (bytes : List UInt8) : Nat := leValue bytes.reverse

/-- The `k` low bytes of a number, the least significant first. -/
def leBytes : Nat → Nat → List UInt8
  | 0, _ => []
  | k + 1, n => UInt8.ofNat n :: leBytes k (n / 256)

theorem leValue_eq_ofDigits (bytes : List UInt8) :
    leValue bytes = Nat.ofDigits 256 (bytes.map UInt8.toNat) := by
  rw [Nat.ofDigits_eq_sum_mapIdx, leValue]
  refine congrArg List.sum (List.mapIdx_eq_iff.mpr fun i ↦ ?_)
  rw [List.getElem?_mapIdx, List.getElem?_map, Option.map_map]
  rfl

@[simp] theorem leValue_nil : leValue [] = 0 := rfl

theorem leValue_cons (b : UInt8) (bytes : List UInt8) :
    leValue (b :: bytes) = b.toNat + 256 * leValue bytes := by
  rw [leValue_eq_ofDigits, leValue_eq_ofDigits, List.map_cons, Nat.ofDigits_cons]

/-- Zero bytes at the significant end do not count. -/
theorem leValue_append_zeros (bytes : List UInt8) (n : Nat) :
    leValue (bytes ++ List.replicate n 0) = leValue bytes := by
  rw [leValue_eq_ofDigits, leValue_eq_ofDigits, List.map_append, List.map_replicate]
  exact Nat.ofDigits_append_replicate_zero _

/-- Zero bytes at the other end shift the number. -/
theorem leValue_zeros_append (n : Nat) (bytes : List UInt8) :
    leValue (List.replicate n 0 ++ bytes) = 256 ^ n * leValue bytes := by
  induction n with
  | zero => rw [List.replicate_zero, List.nil_append, pow_zero, one_mul]
  | succ n ih =>
      rw [List.replicate_succ, List.cons_append, leValue_cons, ih, UInt8.toNat_zero, zero_add,
        pow_succ', mul_assoc]

theorem leValue_eq_zero_iff {bytes : List UInt8} : leValue bytes = 0 ↔ ∀ b ∈ bytes, b = 0 := by
  induction bytes with
  | nil => simp
  | cons b bytes ih =>
      rw [leValue_cons, List.forall_mem_cons, ← ih, ← UInt8.toNat_inj, UInt8.toNat_zero]
      omega

@[simp] theorem length_leBytes (k n : Nat) : (leBytes k n).length = k := by
  induction k generalizing n with
  | zero => rfl
  | succ k ih => rw [leBytes, List.length_cons, ih]

theorem leBytes_zero (k : Nat) : leBytes k 0 = List.replicate k 0 := by
  induction k with
  | zero => rfl
  | succ k ih => rw [leBytes, Nat.zero_div, ih, List.replicate_succ]; rfl

/-- A shifted number has zero bytes below the shift. -/
theorem leBytes_pow_mul (k n : Nat) : leBytes k (256 ^ k * n) = List.replicate k 0 := by
  induction k with
  | zero => rfl
  | succ k ih =>
      have hdiv : 256 ^ (k + 1) * n / 256 = 256 ^ k * n := by
        rw [pow_succ', mul_assoc, Nat.mul_div_cancel_left _ (by decide)]
      have hhead : UInt8.ofNat (256 ^ (k + 1) * n) = 0 := by
        rw [← UInt8.toNat_inj, UInt8.toNat_ofNat', pow_succ', mul_assoc]
        exact Nat.mul_mod_right _ _
      rw [leBytes, hdiv, hhead, ih, List.replicate_succ]

/-- The bytes of a number determine it, as far as they go. -/
theorem leValue_leBytes (k n : Nat) : leValue (leBytes k n) = n % 256 ^ k := by
  induction k generalizing n with
  | zero => rw [pow_zero, Nat.mod_one]; rfl
  | succ k ih =>
      rw [leBytes, leValue_cons, ih, pow_succ', Nat.mod_mul]
      rfl

/-- Every sequence of bytes is that of its number. -/
theorem leBytes_leValue (bytes : List UInt8) :
    leBytes bytes.length (leValue bytes) = bytes := by
  induction bytes with
  | nil => rfl
  | cons b bytes ih =>
      have hb : b.toNat < 256 := b.toNat_lt
      have hdiv : leValue (b :: bytes) / 256 = leValue bytes := by
        rw [leValue_cons, Nat.add_mul_div_left _ _ (by decide), Nat.div_eq_of_lt hb, Nat.zero_add]
      have hhead : UInt8.ofNat (leValue (b :: bytes)) = b := by
        rw [← UInt8.toNat_inj, UInt8.toNat_ofNat', leValue_cons, Nat.add_mul_mod_self_left]
        exact Nat.mod_eq_of_lt hb
      rw [List.length_cons, leBytes, hdiv, ih, hhead]

/-- A number is smaller than the first one that needs more bytes. -/
theorem leValue_lt (bytes : List UInt8) : leValue bytes < 256 ^ bytes.length := by
  have h := leValue_leBytes bytes.length (leValue bytes)
  rw [leBytes_leValue] at h
  rw [h]
  exact Nat.mod_lt _ (Nat.pow_pos (by decide))

/-! ## Variables -/

/-- The number that a variable with these bytes in memory holds. -/
def load : ByteOrder → List UInt8 → Nat
  | .little, bytes => leValue bytes
  | .big, bytes => beValue bytes

/-- The bytes in memory of a variable of `k` bytes that holds this number. -/
def store : ByteOrder → Nat → Nat → List UInt8
  | .little, k, n => leBytes k n
  | .big, k, n => (leBytes k n).reverse

@[simp] theorem length_store (host : ByteOrder) (k n : Nat) : (store host k n).length = k := by
  cases host with
  | little => exact length_leBytes k n
  | big => exact List.length_reverse.trans (length_leBytes k n)

/-- Numbers that fit are told apart by their bytes. -/
theorem store_inj {host : ByteOrder} {k m n : Nat} (hm : m < 256 ^ k) (hn : n < 256 ^ k)
    (h : store host k m = store host k n) : m = n := by
  have hbytes : leBytes k m = leBytes k n := by
    cases host with
    | little => exact h
    | big => exact List.reverse_injective h
  have hvalue := congrArg leValue hbytes
  rwa [leValue_leBytes, leValue_leBytes, Nat.mod_eq_of_lt hm, Nat.mod_eq_of_lt hn] at hvalue

/-- What a variable of `k` bytes that holds `n` holds after these bytes have been copied to
where it begins.  Copying more than fits is undefined behaviour. -/
def memcpy (host : ByteOrder) (k n : Nat) (bytes : List UInt8) : Option Nat :=
  if bytes.length ≤ k then
    some (load host (bytes ++ (store host k n).drop bytes.length))
  else none

/-- The bytes of a variable that are not copied to stay as they are. -/
theorem memcpy_zero {host : ByteOrder} {k : Nat} {bytes : List UInt8} (h : bytes.length ≤ k) :
    memcpy host k 0 bytes =
      some (load host (bytes ++ List.replicate (k - bytes.length) 0)) := by
  have hstore : store host k 0 = List.replicate k 0 := by
    cases host with
    | little => exact leBytes_zero k
    | big => rw [store, leBytes_zero, List.reverse_replicate]
  rw [memcpy, if_pos h, hstore, List.drop_replicate]

/-! ## Conversions -/

/-- The low `k` bytes of a number in the opposite order. -/
def bswap (k n : Nat) : Nat := beValue (leBytes k n)

/-- `le16toh` and its like, for `k` bytes.  The argument is first converted to the unsigned
type of that width. -/
def leToHost (host : ByteOrder) (k n : Nat) : Nat :=
  match host with
  | .little => n % 256 ^ k
  | .big => bswap k n

/-- `be16toh` and its like, for `k` bytes. -/
def beToHost (host : ByteOrder) (k n : Nat) : Nat :=
  match host with
  | .little => bswap k n
  | .big => n % 256 ^ k

theorem bswap_leValue (bytes : List UInt8) :
    bswap bytes.length (leValue bytes) = beValue bytes := by
  rw [bswap, leBytes_leValue]

theorem bswap_beValue (bytes : List UInt8) :
    bswap bytes.length (beValue bytes) = leValue bytes := by
  have h := bswap_leValue bytes.reverse
  rwa [List.length_reverse, beValue, List.reverse_reverse] at h

/-- A variable that was filled with little-endian data. -/
theorem leToHost_load (host : ByteOrder) (bytes : List UInt8) :
    leToHost host bytes.length (load host bytes) = leValue bytes := by
  cases host with
  | little => exact Nat.mod_eq_of_lt (leValue_lt bytes)
  | big => exact bswap_beValue bytes

/-- A variable that was filled with big-endian data. -/
theorem beToHost_load (host : ByteOrder) (bytes : List UInt8) :
    beToHost host bytes.length (load host bytes) = beValue bytes := by
  cases host with
  | little => exact bswap_leValue bytes
  | big =>
      show beValue bytes % 256 ^ bytes.length = beValue bytes
      refine Nat.mod_eq_of_lt ?_
      have h := leValue_lt bytes.reverse
      rwa [List.length_reverse] at h

/-- Little-endian data that does not fill the variable needs the conversion of its whole
width. -/
theorem leToHost_load_pad (host : ByteOrder) (bytes : List UInt8) (n : Nat) :
    leToHost host (bytes.length + n) (load host (bytes ++ List.replicate n 0)) =
      leValue bytes := by
  have h := leToHost_load host (bytes ++ List.replicate n 0)
  rwa [List.length_append, List.length_replicate, leValue_append_zeros] at h

/-- On a big-endian host a conversion no wider than the part that was not copied to sees
nothing of the data. -/
theorem leToHost_load_pad_big (bytes : List UInt8) (k : Nat) :
    leToHost .big k (load .big (bytes ++ List.replicate k 0)) = 0 := by
  have hload : load .big (bytes ++ List.replicate k 0) = 256 ^ k * leValue bytes.reverse := by
    rw [load, beValue, List.reverse_append, List.reverse_replicate, leValue_zeros_append]
  rw [hload, leToHost, bswap, leBytes_pow_mul, beValue, leValue_eq_zero_iff]
  intro b hb
  exact List.eq_of_mem_replicate (List.mem_reverse.mp hb)

end Endian

end AsabruCommons
