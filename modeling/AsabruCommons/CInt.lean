import Mathlib.Data.Nat.Init

/-!
# Machine integers

Values of the signed type `int`, which has 32 bits, are kept as `Int`, and
values of the unsigned type `std::size_t`, which has 64 bits, as `Nat`.

Arithmetic on `int` that leaves the range of the type is undefined behaviour, so
`CInt.checked` has no value then.  Conversions between the two types never fail:
they reduce modulo `2 ^ 64` or `2 ^ 32`, written out below, and so does the
conversion of a signed integer of 64 bits to `int`.
-/

namespace AsabruCommons

namespace CInt

/-- The least value of type `int`. -/
def intMin : Int := -2147483648

/-- The greatest value of type `int`. -/
def intMax : Int := 2147483647

/-- The result of an `int` operation, unless it overflows. -/
def checked (z : Int) : Option Int :=
  if intMin ≤ z ∧ z ≤ intMax then some z else none

/-- The conversion of an `int` to `std::size_t`. -/
def toSize (z : Int) : Nat := (z % 18446744073709551616).toNat

/-- The conversion of a `std::size_t` to `int`. -/
def ofSize (n : Nat) : Int := (n : Int).bmod 4294967296

/-- The conversion of a signed integer of 64 bits to `int`. -/
def ofLong (z : Int) : Int := z.bmod 4294967296

theorem checked_of_mem {z : Int} (hmin : intMin ≤ z) (hmax : z ≤ intMax) :
    checked z = some z := if_pos ⟨hmin, hmax⟩

theorem checked_eq_some {z y : Int} (h : checked z = some y) :
    y = z ∧ intMin ≤ z ∧ z ≤ intMax := by
  rw [checked, Option.ite_none_right_eq_some] at h
  exact ⟨(Option.some.inj h.2).symm, h.1⟩

/-- Converting a non-negative `int` keeps its value. -/
theorem toSize_of_nonneg {z : Int} (h : 0 ≤ z) (hmax : z ≤ intMax) : toSize z = z.toNat := by
  unfold intMax at hmax
  rw [toSize, Int.emod_eq_of_lt h (by omega)]

/-- Converting a `std::size_t` in the range of `int` keeps its value. -/
theorem ofSize_of_le {n : Nat} (h : (n : Int) ≤ intMax) : ofSize n = n := by
  unfold intMax at h
  apply Int.bmod_eq_of_le_mul_two
  · omega
  · omega

/-- Converting to `int` keeps the values in its range, and no others. -/
theorem ofLong_eq_self_iff {z : Int} : ofLong z = z ↔ intMin ≤ z ∧ z ≤ intMax := by
  unfold intMin intMax
  constructor
  · intro h
    have hle := Int.le_bmod (x := z) (m := 4294967296) (by decide)
    have hlt := Int.bmod_lt (x := z) (m := 4294967296) (by decide)
    rw [← ofLong, h] at hle hlt
    omega
  · rintro ⟨hmin, hmax⟩
    apply Int.bmod_eq_of_le_mul_two
    · omega
    · omega

end CInt

end AsabruCommons
