import LockFreeRings.Spsc.Ring
import LockFreeRings.Proofs.Counting
set_option autoImplicit false

/-!
# Cursors as counts

The cursors of a ring run below the slot count and start again at the first slot.
The proofs count instead how many elements were published and removed;
`SlotCount.cursor` is the cursor at such a count.  As long as two counts are less
than a lap apart, the distance of their cursors is that of the counts
(`toNat_distance_cursor`), and different counts have different slots
(`SlotCount.index_cursor_ne`).
-/

namespace LockFreeRings

namespace SlotCount

/-- The cursor at a count. -/
def cursor (n : SlotCount) (p : Nat) : UInt64 := UInt64.ofNat (p % n.size)

@[simp] theorem toNat_cursor (n : SlotCount) (p : Nat) : (n.cursor p).toNat = p % n.size := by
  have hlt := Nat.mod_lt p n.size_pos
  have hle := n.size_le
  rw [cursor, UInt64.toNat_ofNat', Nat.mod_eq_of_lt (by omega)]

@[simp] theorem cursor_zero (n : SlotCount) : n.cursor 0 = 0 := by
  rw [cursor, Nat.zero_mod]
  rfl

/-- Cursors are equal when their counts are, but for whole laps. -/
theorem cursor_eq_iff (n : SlotCount) {p q : Nat} :
    n.cursor p = n.cursor q ↔ p ≡ q [MOD n.size] := by
  rw [← UInt64.toNat_inj, toNat_cursor, toNat_cursor]
  rfl

/-- Counts less than a lap apart are equal when their cursors are. -/
theorem cursor_inj_of_lt (n : SlotCount) {p q : Nat} (hle : p ≤ q) (hlt : q < p + n.size)
    (h : n.cursor p = n.cursor q) : p = q := by
  refine eq_of_mod_eq hle hlt ?_
  simpa using congrArg UInt64.toNat h

/-- Counts less than a lap apart have different slots. -/
theorem index_cursor_ne (n : SlotCount) {p q : Nat} (hlt : p < q) (hq : q < p + n.size) :
    n.index (n.cursor p) ≠ n.index (n.cursor q) := by
  intro h
  have hmod : p % n.size = q % n.size := by
    simpa using congrArg Fin.val h
  have := eq_of_mod_eq hlt.le hq hmod
  omega

end SlotCount

namespace Spsc

variable {n : SlotCount} {k : Nat} {ω : Type}

theorem next_cursor (n : SlotCount) (p : Nat) : next n (n.cursor p) = n.cursor (p + 1) := by
  apply UInt64.toNat_inj.1
  rw [next, SlotCount.toNat_and_mask, UInt64.toNat_add, SlotCount.toNat_cursor,
    Nat.mod_mod_of_dvd _ n.size_dvd, SlotCount.toNat_cursor]
  exact Nat.mod_add_mod p n.size 1

/-- The distance of two cursors is that of their counts. -/
theorem toNat_distance_cursor (n : SlotCount) {p q : Nat} (hle : q ≤ p) (hlt : p < q + n.size) :
    (distance n (n.cursor p) (n.cursor q)).toNat = p - q := by
  have hq := Nat.mod_lt q n.size_pos
  have hsize := n.size_le
  rw [distance, SlotCount.toNat_and_mask, UInt64.toNat_sub, SlotCount.toNat_cursor,
    SlotCount.toNat_cursor, Nat.mod_mod_of_dvd _ n.size_dvd]
  have hlaps : 2 ^ 64 ≡ 0 [MOD n.size] := Nat.modEq_zero_iff_dvd.mpr n.size_dvd
  -- adding the remainder of `q` to both sides gives `p`
  have hcongr : 2 ^ 64 - q % n.size + p % n.size ≡ p - q [MOD n.size] := by
    refine Nat.ModEq.add_right_cancel' (q % n.size) ?_
    calc 2 ^ 64 - q % n.size + p % n.size + q % n.size
        = 2 ^ 64 + p % n.size := by omega
      _ ≡ 0 + p [MOD n.size] := hlaps.add (Nat.mod_modEq p n.size)
      _ = p - q + q := by omega
      _ ≡ p - q + q % n.size [MOD n.size] := (Nat.mod_modEq q n.size).symm.add_left (p - q)
  rw [hcongr, Nat.mod_eq_of_lt (by omega)]

namespace Ring

/-! ## Slots -/

/-- A store is not seen in other slots. -/
theorem read_write_of_ne (r : Ring n k ω) {i j : UInt64} (h : n.index i ≠ n.index j)
    (v : Element k ω) : (r.write i v).read j = r.read j := by
  have hne : (n.index i).val ≠ (n.index j).val := fun he => h (Fin.ext he)
  simp only [read, write, Fin.getElem_fin]
  exact Vector.getElem_set_ne _ _ hne

theorem read_writeWord_of_ne (r : Ring n k ω) {i j : UInt64} (h : n.index i ≠ n.index j)
    (m : Fin k) (w : ω) : (r.writeWord i m w).read j = r.read j :=
  r.read_write_of_ne h _

@[simp] theorem read_writeWord (r : Ring n k ω) (i : UInt64) (m : Fin k) (w : ω) :
    (r.writeWord i m w).read i = (r.read i).set m w m.isLt :=
  r.read_write i _

/-! ## Room and availability -/

/-- The room that the producer knows of, by counts. -/
theorem toNat_knownRoom (r : Ring n k ω) {p c : Nat} (hc : r.cachedHead = n.cursor c)
    (hle : c ≤ p) (hlt : p < c + n.size) :
    (r.knownRoom (n.cursor p)).toNat = n.size - 1 - (p - c) := by
  have hd := toNat_distance_cursor n hle hlt
  rw [knownRoom, hc, UInt64.toNat_sub_of_le, SlotCount.toNat_mask, hd]
  rw [UInt64.le_iff_toNat_le, SlotCount.toNat_mask, hd]
  omega

/-- The elements that the consumer knows of, by counts. -/
theorem toNat_knownAvailable (r : Ring n k ω) {p c : Nat} (hc : r.cachedTail = n.cursor c)
    (hle : p ≤ c) (hlt : c < p + n.size) :
    (r.knownAvailable (n.cursor p)).toNat = c - p := by
  rw [knownAvailable, hc, toNat_distance_cursor n hle hlt]

end Ring

end Spsc

end LockFreeRings
