import LockFreeRings.SlotCount
import Mathlib.Data.Nat.ModEq
set_option autoImplicit false

/-!
# Words as counts

Cursors and sequence numbers are words that wrap.  The proofs count them without
wrapping, by natural numbers, of which the words keep the low 64 bits:
`UInt64.ofNat`.  This module says what is left of such a count in its word.  Two
counts less than `2 ^ 64` apart are equal when their words are
(`ofNat_inj_of_lt`), their difference is that of the words
(`toNat_ofNat_sub_ofNat`), and a count names the slot of its remainder
(`SlotCount.val_index_ofNat`).
-/

namespace LockFreeRings

/-! ## Remainders -/

/-- Numbers less than `m` apart are equal when their remainders are. -/
theorem eq_of_mod_eq {a b m : Nat} (hle : a ≤ b) (hlt : b < a + m) (h : a % m = b % m) :
    a = b := by
  have hd : m ∣ b - a := (Nat.modEq_iff_dvd' hle).mp h
  have h0 : b - a = 0 := Nat.eq_zero_of_dvd_of_lt hd (by omega)
  omega

/-! ## Words -/

theorem toNat_pos_of_ne_zero {a : UInt64} (h : a ≠ 0) : 0 < a.toNat :=
  Nat.pos_of_ne_zero fun h0 => h (UInt64.toNat_inj.1 h0)

theorem ofNat_succ (a : Nat) : UInt64.ofNat (a + 1) = UInt64.ofNat a + 1 := by
  rw [UInt64.ofNat_add]; rfl

/-- Counts less than `2 ^ 64` apart are equal when their words are. -/
theorem ofNat_inj_of_lt {a b : Nat} (hle : a ≤ b) (hlt : b < a + 2 ^ 64)
    (h : UInt64.ofNat a = UInt64.ofNat b) : a = b := by
  refine eq_of_mod_eq hle hlt ?_
  simpa using congrArg UInt64.toNat h

theorem ofNat_sub_ofNat {a b : Nat} (h : b ≤ a) :
    UInt64.ofNat a - UInt64.ofNat b = UInt64.ofNat (a - b) :=
  (UInt64.ofNat_sub h).symm

/-- The difference of words is that of the counts as long as it fits. -/
theorem toNat_ofNat_sub_ofNat {a b : Nat} (hle : b ≤ a) (hlt : a < b + 2 ^ 64) :
    (UInt64.ofNat a - UInt64.ofNat b).toNat = a - b := by
  rw [ofNat_sub_ofNat hle, UInt64.toNat_ofNat', Nat.mod_eq_of_lt (by omega)]

/-- A difference the other way is what is left of the wrap. -/
theorem toNat_ofNat_sub_ofNat_of_lt {a b : Nat} (hlt : a < b) (hle : b ≤ a + 2 ^ 64) :
    (UInt64.ofNat a - UInt64.ofNat b).toNat = 2 ^ 64 - (b - a) := by
  have ha : UInt64.ofNat a = UInt64.ofNat (a + 2 ^ 64) := by
    apply UInt64.toNat_inj.1
    simp
  rw [ha, toNat_ofNat_sub_ofNat hle (by omega)]
  omega

namespace SlotCount

/-- A count names the slot of its remainder. -/
@[simp] theorem val_index_ofNat (n : SlotCount) (p : Nat) :
    (n.index (UInt64.ofNat p)).val = p % n.size := by
  rw [val_index, UInt64.toNat_ofNat', Nat.mod_mod_of_dvd _ n.size_dvd]

theorem index_ofNat_eq_iff (n : SlotCount) (p q : Nat) :
    n.index (UInt64.ofNat p) = n.index (UInt64.ofNat q) ↔ p % n.size = q % n.size := by
  rw [Fin.ext_iff, val_index_ofNat, val_index_ofNat]

@[simp] theorem index_ofNat_add_size (n : SlotCount) (p : Nat) :
    n.index (UInt64.ofNat (p + n.size)) = n.index (UInt64.ofNat p) := by
  rw [index_ofNat_eq_iff, Nat.add_mod_right]

/-- Different positions less than a lap apart have different slots. -/
theorem index_ofNat_ne (n : SlotCount) {p q : Nat} (hlt : p < q) (hq : q < p + n.size) :
    n.index (UInt64.ofNat p) ≠ n.index (UInt64.ofNat q) := by
  intro h
  have := eq_of_mod_eq hlt.le hq ((index_ofNat_eq_iff n p q).mp h)
  omega

end SlotCount

end LockFreeRings
