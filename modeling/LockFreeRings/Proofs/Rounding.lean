import LockFreeRings.SlotCount
import Mathlib.Algebra.Ring.Nat
import Mathlib.Data.Nat.Log
import Mathlib.Order.Bounds.Basic
import Mathlib.Order.MinMax
set_option autoImplicit false

/-!
# Rounding up is the least power of two

A capacity is rounded by shifts of words, and what comes out is the least power of two
that is at least the capacity and at least 2, as long as that fits into a word
(`roundUpPow2_eq_some_iff`, `roundUpPow2_eq_none_iff`).  That rounding twice is rounding
once, that it is monotone and that it less than doubles the capacity follow from this.
From its being a power of two it follows that one less than it is a mask: what a mask
leaves of a word is the remainder, for differences that wrap too.
-/

namespace LockFreeRings

/-! ## Least powers -/

/-- The powers of two that are at least `n`, and at least 2. -/
def powersFrom (n : Nat) : Set Nat := {p | (∃ k, p = 2 ^ k) ∧ max n 2 ≤ p}

section powersFrom

variable {m n s t : Nat}

theorem powersFrom_anti (h : m ≤ n) : powersFrom n ⊆ powersFrom m :=
  fun _ hp => ⟨hp.1, (max_le_max h (le_refl 2)).trans hp.2⟩

theorem exists_isLeast_powersFrom (n : Nat) : ∃ s, IsLeast (powersFrom n) s := by
  refine ⟨2 ^ Nat.clog 2 (max n 2), ⟨⟨_, rfl⟩, Nat.le_pow_clog Nat.one_lt_two _⟩, ?_⟩
  rintro _ ⟨⟨k, rfl⟩, hle⟩
  exact Nat.pow_le_pow_right Nat.two_pos ((Nat.clog_le_iff_le_pow Nat.one_lt_two).mpr hle)

theorem le_of_isLeast_powersFrom (hs : IsLeast (powersFrom n) s) : n ≤ s :=
  (le_max_left n 2).trans hs.1.2

theorem two_le_of_isLeast_powersFrom (hs : IsLeast (powersFrom n) s) : 2 ≤ s :=
  (le_max_right n 2).trans hs.1.2

/-- A power that is the least one for a number is so for itself. -/
theorem isLeast_powersFrom_self (hs : IsLeast (powersFrom n) s) : IsLeast (powersFrom s) s :=
  ⟨⟨hs.1.1, max_le (le_refl s) (two_le_of_isLeast_powersFrom hs)⟩,
    fun _ hp => (le_max_left s 2).trans hp.2⟩

/-- The power below the least one is too small. -/
theorem lt_two_mul_of_isLeast_powersFrom (hn : 2 ≤ n) (hs : IsLeast (powersFrom n) s) :
    s < 2 * n := by
  have htwo := two_le_of_isLeast_powersFrom hs
  obtain ⟨⟨⟨k, rfl⟩, -⟩, hleast⟩ := hs
  cases k with
  | zero => omega
  | succ k =>
      rw [Nat.pow_succ] at htwo hleast ⊢
      have hbelow : 2 ^ k < n := by
        by_contra hge
        have hmem : 2 ^ k ∈ powersFrom n := ⟨⟨k, rfl⟩, max_le (by omega) (by omega)⟩
        have := hleast hmem
        omega
      omega

/-- The power above the logarithm of the number below is the least one. -/
theorem isLeast_powersFrom_log2 (hn : 2 ≤ n) :
    IsLeast (powersFrom n) (2 ^ ((n - 1).log2 + 1)) := by
  have hmax : max n 2 = n := max_eq_left hn
  have hbelow : 2 ^ (n - 1).log2 ≤ n - 1 := Nat.log2_self_le (by omega)
  have habove : n - 1 < 2 ^ ((n - 1).log2 + 1) := Nat.lt_log2_self
  have hroom : n ≤ 2 ^ ((n - 1).log2 + 1) := by omega
  refine ⟨⟨⟨_, rfl⟩, hmax.trans_le hroom⟩, ?_⟩
  rintro _ ⟨⟨k, rfl⟩, hle⟩
  rw [hmax] at hle
  refine Nat.pow_le_pow_right Nat.two_pos ?_
  -- a smaller power is at most the one below the number
  by_contra hlt
  have hsmaller := Nat.pow_le_pow_right Nat.two_pos (Nat.le_of_not_lt hlt)
  omega

end powersFrom

/-! ## Slot counts -/

namespace SlotCount

variable {n : UInt64} {slots : SlotCount}

theorem toNat_sub_one (h : ¬ n < 2) : (n - 1).toNat = n.toNat - 1 := by
  rw [UInt64.lt_iff_toNat_lt, not_lt] at h
  refine UInt64.toNat_sub_of_le _ _ ?_
  rw [UInt64.le_iff_toNat_le]
  exact Nat.le_of_succ_le h

/-- The slot count for a capacity is the least power that has room for it. -/
theorem isLeast_of_roundUp (h : roundUp n = some slots) :
    IsLeast (powersFrom n.toNat) slots.size := by
  unfold roundUp at h
  split at h
  case isTrue hsmall =>
    obtain rfl := Option.some.inj h
    rw [UInt64.lt_iff_toNat_lt] at hsmall
    have hmax : max n.toNat 2 = 2 := max_eq_right hsmall.le
    exact ⟨⟨⟨1, rfl⟩, hmax.le⟩, fun p hp => (le_max_right _ _).trans hp.2⟩
  case isFalse hlarge =>
    split at h
    case isFalse => cases h
    case isTrue =>
      obtain rfl := Option.some.inj h
      have hpred := toNat_sub_one hlarge
      rw [UInt64.lt_iff_toNat_lt, not_lt] at hlarge
      have hleast := isLeast_powersFrom_log2 hlarge
      rw [← hpred] at hleast
      exact hleast

/-- There is no slot count for a capacity that only greater powers have room for. -/
theorem roundUp_eq_none_iff : roundUp n = none ↔ 2 ^ 63 < n.toNat := by
  unfold roundUp
  split
  case isTrue hsmall =>
    rw [UInt64.lt_iff_toNat_lt] at hsmall
    have htwo : (2 : UInt64).toNat = 2 := rfl
    simp only [reduceCtorEq, false_iff]
    omega
  case isFalse hlarge =>
    have hpred := toNat_sub_one hlarge
    rw [UInt64.lt_iff_toNat_lt, not_lt] at hlarge
    have htwo : (2 : UInt64).toNat = 2 := rfl
    have hlog : (n - 1).toNat.log2 + 1 < 64 ↔ (n - 1).toNat < 2 ^ 63 := by
      rw [← Nat.log2_lt (by omega)]
      omega
    split
    case isTrue hlt =>
      simp only [reduceCtorEq, false_iff]
      omega
    case isFalse hge =>
      simp only [true_iff]
      omega

/-- Masking the difference of two words reduces the true difference, also where the words
wrap. -/
theorem toNat_sub_and_mask (slots : SlotCount) (x y : UInt64) :
    (((x - y) &&& slots.mask).toNat : Int) = ((x.toNat : Int) - y.toNat) % slots.size := by
  have hy := y.toNat_lt
  obtain ⟨laps, hlaps⟩ := slots.size_dvd
  have hwrap : ((2 ^ 64 - y.toNat + x.toNat : Nat) : Int) =
      (x.toNat : Int) - y.toNat + slots.size * laps := by
    have hlaps : ((2 ^ 64 : Nat) : Int) = slots.size * laps := by exact_mod_cast hlaps
    omega
  rw [toNat_and_mask, UInt64.toNat_sub, Nat.mod_mod_of_dvd _ slots.size_dvd, Int.natCast_emod,
    hwrap, Int.add_mul_emod_self_left]

end SlotCount

/-! ## Words -/

section words

variable {n s : UInt64}

theorem roundUpPow2_eq_none_iff : roundUpPow2 n = none ↔ 2 ^ 63 < n.toNat := by
  rw [roundUpPow2_eq_roundUp, Option.map_eq_none_iff, SlotCount.roundUp_eq_none_iff]

/-- The rounded word is that of the slot count. -/
theorem exists_roundUp (h : roundUpPow2 n = some s) :
    ∃ slots, SlotCount.roundUp n = some slots ∧ slots.word = s := by
  rwa [roundUpPow2_eq_roundUp, Option.map_eq_some_iff] at h

theorem isLeast_of_roundUpPow2 (h : roundUpPow2 n = some s) :
    IsLeast (powersFrom n.toNat) s.toNat := by
  obtain ⟨slots, hslots, rfl⟩ := exists_roundUp h
  rw [SlotCount.toNat_word]
  exact SlotCount.isLeast_of_roundUp hslots

/-- Rounding gives the least power, whenever that fits into a word. -/
theorem roundUpPow2_eq_some_iff :
    roundUpPow2 n = some s ↔ IsLeast (powersFrom n.toNat) s.toNat := by
  refine ⟨isLeast_of_roundUpPow2, fun hs => ?_⟩
  cases hround : roundUpPow2 n with
  | none =>
      -- a power above `2 ^ 63` is no word
      have hlarge := roundUpPow2_eq_none_iff.mp hround
      have hle := le_of_isLeast_powersFrom hs
      have hlt := s.toNat_lt
      obtain ⟨⟨⟨k, hk⟩, -⟩, -⟩ := hs
      have hbelow : 2 ^ 63 < 2 ^ k := by omega
      have habove : 2 ^ k < 2 ^ 64 := by omega
      have := (Nat.pow_lt_pow_iff_right Nat.one_lt_two).mp hbelow
      have := (Nat.pow_lt_pow_iff_right Nat.one_lt_two).mp habove
      omega
  | some t =>
      have heq := (isLeast_of_roundUpPow2 hround).unique hs
      rw [UInt64.toNat_inj.mp heq]

/-- More capacity is rounded to no less, and if it can be rounded, so can less. -/
theorem exists_roundUpPow2_le {m : UInt64} (hle : m ≤ n) (h : roundUpPow2 n = some s) :
    ∃ t, roundUpPow2 m = some t ∧ t ≤ s := by
  rw [UInt64.le_iff_toNat_le] at hle
  cases hround : roundUpPow2 m with
  | none =>
      have hlarge := roundUpPow2_eq_none_iff.mp hround
      have hnone : roundUpPow2 n = none := roundUpPow2_eq_none_iff.mpr (hlarge.trans_le hle)
      rw [hnone] at h
      cases h
  | some t =>
      have ht := isLeast_of_roundUpPow2 hround
      have hs := isLeast_of_roundUpPow2 h
      exact ⟨t, rfl, UInt64.le_iff_toNat_le.mpr (hs.mono ht (powersFrom_anti hle))⟩

end words

/-- What a capacity is rounded to. -/
structure Rounded (n s : UInt64) : Prop where
  /-- the least power of two that is at least the capacity, and at least 2 -/
  least : IsLeast (powersFrom n.toNat) s.toNat
  /-- rounding it again changes nothing -/
  again : roundUpPow2 s = some s
  lt_two_mul : 2 ≤ n → s.toNat < 2 * n.toNat
  /-- it is the number of slots of the rings, and their mask is one less -/
  slots : ∃ slots, SlotCount.roundUp n = some slots ∧ slots.word = s ∧ slots.mask = s - 1
  mask : ∀ x : UInt64, (x &&& (s - 1)).toNat = x.toNat % s.toNat
  mask_sub : ∀ x y : UInt64,
    (((x - y) &&& (s - 1)).toNat : Int) = ((x.toNat : Int) - y.toNat) % s.toNat

theorem Rounded.of_roundUpPow2 {n s : UInt64} (h : roundUpPow2 n = some s) : Rounded n s := by
  have hleast := isLeast_of_roundUpPow2 h
  obtain ⟨slots, hslots, rfl⟩ := exists_roundUp h
  have hmask : slots.mask = slots.word - 1 := by
    have hle : 1 ≤ slots.word := by
      rw [UInt64.le_iff_toNat_le, SlotCount.toNat_word]
      exact slots.size_pos
    apply UInt64.toNat_inj.1
    rw [SlotCount.toNat_mask, UInt64.toNat_sub_of_le _ _ hle, SlotCount.toNat_word]
    rfl
  constructor
  case least => exact hleast
  case again => exact roundUpPow2_eq_some_iff.mpr (isLeast_powersFrom_self hleast)
  case lt_two_mul =>
    intro hn
    exact lt_two_mul_of_isLeast_powersFrom (UInt64.le_iff_toNat_le.mp hn) hleast
  case slots => exact ⟨slots, hslots, rfl, hmask⟩
  case mask =>
    intro x
    rw [← hmask, SlotCount.toNat_word, SlotCount.toNat_and_mask]
  case mask_sub =>
    intro x y
    rw [← hmask, SlotCount.toNat_word, SlotCount.toNat_sub_and_mask]

/-- Rounding gives nothing for a capacity above `2 ^ 63`.  For any other it gives the least
power of two that has room for it and the second element, with all that follows from this,
and for less capacity no more. -/
theorem roundUpPow2_rounds (n : UInt64) :
    (roundUpPow2 n = none ↔ 2 ^ 63 < n.toNat) ∧
      (n.toNat ≤ 2 ^ 63 → ∃ s, roundUpPow2 n = some s ∧ Rounded n s ∧
        ∀ m ≤ n, ∃ t, roundUpPow2 m = some t ∧ t ≤ s) := by
  refine ⟨roundUpPow2_eq_none_iff, fun hle => ?_⟩
  obtain ⟨s, hs⟩ := Option.ne_none_iff_exists'.mp
    fun hnone => absurd (roundUpPow2_eq_none_iff.mp hnone) (Nat.not_lt.mpr hle)
  exact ⟨s, hs, .of_roundUpPow2 hs, fun m hm => exists_roundUpPow2_le hm hs⟩

/-- The greatest capacity that can be rounded is a power already, and one less is rounded
to it. -/
theorem roundUpPow2_rounds_top :
    (0x7FFFFFFFFFFFFFFF : UInt64).toNat ≤ 2 ^ 63 ∧
      ∃ s, roundUpPow2 0x7FFFFFFFFFFFFFFF = some s ∧ Rounded 0x7FFFFFFFFFFFFFFF s ∧
        s = 0x8000000000000000 := by
  have hle : (0x7FFFFFFFFFFFFFFF : UInt64).toNat ≤ 2 ^ 63 := by decide
  obtain ⟨s, hs, hrounded, -⟩ := (roundUpPow2_rounds 0x7FFFFFFFFFFFFFFF).2 hle
  have htop : roundUpPow2 0x7FFFFFFFFFFFFFFF = some 0x8000000000000000 := by decide +kernel
  exact ⟨hle, s, hs, hrounded, Option.some.inj (hs.symm.trans htop)⟩

end LockFreeRings
