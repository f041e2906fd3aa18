import LockFreeRings.Powers
set_option autoImplicit false

/-!
# Slot counts

A ring has a power-of-two number of slots, so that a cursor wraps with one
`&&&` against a mask.  This module holds the rounding of a requested capacity,
`roundUpPow2`, done on 64-bit words with shifts, and the type `SlotCount` of
the numbers it can answer, kept by their exponent.  The two agree
(`roundUpPow2_eq_roundUp`), and masking with `SlotCount.mask` is reduction
modulo `SlotCount.size` (`SlotCount.toNat_and_mask`).
-/

namespace LockFreeRings

open scoped Powers

/-! ## Rounding on words -/

/-- Ones in every bit position up to the top bit of `p`. -/
def onesThrough (p : UInt64) : UInt64 :=
  0xFFFFFFFFFFFFFFFF >>> (63 - p.log2)

/-- The least power of two that is at least `n` and at least 2, if it fits in a
word.  For `n` from 2 on it is one more than the ones through the top bit of
`n - 1`; when those ones fill the word the next number does not fit. -/
def roundUpPow2 (n : UInt64) : Option UInt64 :=
  if n < 2 then some 2
  else
    let ones := onesThrough (n - 1)
    if ones = 0xFFFFFFFFFFFFFFFF then none else some (ones + 1)

/-! ## Slot counts -/

/-- A number of slots: the power `2 ^ exponent`, from 2 to `2 ^ 63`. -/
structure SlotCount where
  exponent : Nat
  exponent_pos : 0 < exponent := by decide
  exponent_lt : exponent < 64 := by decide
  deriving DecidableEq, Repr

namespace SlotCount

/-- The number itself. -/
def size (n : SlotCount) : Nat := 2 ^ n.exponent

/-- The number as a word. -/
def word (n : SlotCount) : UInt64 := UInt64.ofNat n.size

/-- One less than the number, as a word: ones below its single bit. -/
def mask (n : SlotCount) : UInt64 := UInt64.ofNat (n.size - 1)

theorem size_pos (n : SlotCount) : 0 < n.size := Nat.two_pow_pos _

theorem two_le_size (n : SlotCount) : 2 ≤ n.size :=
  Nat.pow_le_pow_right (by decide : 0 < 2) n.exponent_pos

theorem size_le (n : SlotCount) : n.size ≤ 0x8000000000000000 :=
  Nat.pow_le_pow_right (by decide) (Nat.le_of_lt_succ n.exponent_lt)

theorem size_dvd (n : SlotCount) : n.size ∣ 0x10000000000000000 :=
  Nat.pow_dvd_pow 2 (Nat.le_of_lt n.exponent_lt)

@[simp] theorem toNat_word (n : SlotCount) : n.word.toNat = n.size := by
  have := n.size_le
  simp only [word, UInt64.toNat_ofNat']
  exact Nat.mod_eq_of_lt (by omega)

@[simp] theorem toNat_mask (n : SlotCount) : n.mask.toNat = n.size - 1 := by
  have := n.size_le
  simp only [mask, UInt64.toNat_ofNat']
  exact Nat.mod_eq_of_lt (by omega)

/-- Masking a word is reducing it modulo the slot count. -/
theorem toNat_and_mask (n : SlotCount) (x : UInt64) :
    (x &&& n.mask).toNat = x.toNat % n.size := by
  rw [UInt64.toNat_and, toNat_mask, size, Nat.and_two_pow_sub_one_eq_mod]

/-- The slot that a cursor or a position names. -/
def index (n : SlotCount) (pos : UInt64) : Fin n.size :=
  ⟨(pos &&& n.mask).toNat, by rw [toNat_and_mask]; exact Nat.mod_lt _ n.size_pos⟩

theorem index_lt (n : SlotCount) (pos : UInt64) : (n.index pos).val < n.size := (n.index pos).isLt

@[simp] theorem val_index (n : SlotCount) (pos : UInt64) :
    (n.index pos).val = pos.toNat % n.size := n.toNat_and_mask pos

/-- The slot count for a requested capacity: the exponent is one above that of
the top bit of `n - 1`. -/
def roundUp (n : UInt64) : Option SlotCount :=
  if n < 2 then some ⟨1, by decide, by decide⟩
  else if h : (n - 1).toNat.log2 + 1 < 64 then
    some ⟨(n - 1).toNat.log2 + 1, Nat.succ_pos _, h⟩
  else none

end SlotCount

/-! ## The two roundings agree -/

theorem toNat_log2 (p : UInt64) : p.log2.toNat = p.toNat.log2 := by
  unfold UInt64.log2 Fin.log2
  rfl

theorem log2_lt (p : UInt64) : p.toNat.log2 < 64 := by
  by_cases h : p.toNat = 0
  · simp [h]
  · exact (Nat.log2_lt h).2 p.toNat_lt

theorem toNat_onesThrough (p : UInt64) :
    (onesThrough p).toNat = 2 ^ (p.toNat.log2 + 1) - 1 := by
  have hl := log2_lt p
  have h63 : (63 - p.log2).toNat = 63 - p.toNat.log2 := by
    rw [UInt64.toNat_sub_of_le, toNat_log2]
    · rfl
    · rw [UInt64.le_iff_toNat_le, toNat_log2]
      simp; omega
  rw [onesThrough, UInt64.toNat_shiftRight, h63,
    Nat.mod_eq_of_lt (by omega : 63 - p.toNat.log2 < 64), Nat.shiftRight_eq_div_pow]
  have e : (0xFFFFFFFFFFFFFFFF : UInt64).toNat = 2 ^ 64 - 1 := rfl
  rw [e]
  generalize p.toNat.log2 = l at hl
  have hs : 2 ^ 64 = 2 ^ (l + 1) * 2 ^ (63 - l) := by
    rw [← Nat.pow_add]; congr 1; omega
  have h1 := Nat.two_pow_pos (l + 1)
  have h2 := Nat.two_pow_pos (63 - l)
  rw [hs]
  generalize 2 ^ (l + 1) = a at *
  generalize 2 ^ (63 - l) = b at *
  obtain ⟨a, rfl⟩ : ∃ c, a = c + 1 := ⟨a - 1, by omega⟩
  rw [Nat.add_mul, Nat.one_mul, Nat.add_sub_cancel]
  apply Nat.div_eq_of_lt_le
  · omega
  · rw [Nat.add_mul]; omega

theorem roundUpPow2_eq_roundUp (n : UInt64) :
    roundUpPow2 n = (SlotCount.roundUp n).map SlotCount.word := by
  unfold roundUpPow2 SlotCount.roundUp
  by_cases hn : n < 2
  · simp [hn, SlotCount.word, SlotCount.size]
  · have ht := toNat_onesThrough (n - 1)
    have hl := log2_lt (n - 1)
    simp only [hn, if_false]
    by_cases h : (n - 1).toNat.log2 + 1 < 64
    · have hp : 2 ^ ((n - 1).toNat.log2 + 1) ≤ 2 ^ 63 :=
        Nat.pow_le_pow_right (by decide) (by omega)
      have hpos := Nat.two_pow_pos ((n - 1).toNat.log2 + 1)
      have hne : onesThrough (n - 1) ≠ 0xFFFFFFFFFFFFFFFF := by
        intro he
        rw [he] at ht
        have : (0xFFFFFFFFFFFFFFFF : UInt64).toNat = 2 ^ 64 - 1 := rfl
        omega
      simp only [hne, if_false, h, dite_true, Option.map_some, Option.some.injEq]
      apply UInt64.toNat_inj.1
      rw [SlotCount.toNat_word, UInt64.toNat_add, ht, SlotCount.size]
      show (2 ^ ((n - 1).toNat.log2 + 1) - 1 + 1) % 2 ^ 64 = 2 ^ ((n - 1).toNat.log2 + 1)
      rw [Nat.sub_add_cancel hpos, Nat.mod_eq_of_lt (by omega)]
    · have hl63 : (n - 1).toNat.log2 = 63 := by omega
      have he : onesThrough (n - 1) = 0xFFFFFFFFFFFFFFFF := by
        apply UInt64.toNat_inj.1
        rw [ht, hl63]; rfl
      simp [he, h]

end LockFreeRings
