import LockFreeRings.Mpmc.Ring
import LockFreeRings.Proofs.Counting
set_option autoImplicit false

/-!
# Slots by position

What the operations on single slots do, seen from positions that are counted
without wrapping: a store at one position is seen at the positions of the same
slot and at no others.  Verdicts on such counts are right as long as the counts
are less than `2 ^ 63` apart (`verdict_ofNat`).
-/

namespace LockFreeRings.Mpmc

/-! ## Verdicts -/

theorem ofNat_sub_ne_zero {a b : Nat} (h : (UInt64.ofNat a - UInt64.ofNat b).toNat ≠ 0) :
    UInt64.ofNat a - UInt64.ofNat b ≠ 0 :=
  fun h0 => h (congrArg UInt64.toNat h0)

/-- Comparing words by the sign of their difference compares the counts, as long
as these are less than `2 ^ 63` apart. -/
theorem verdict_ofNat {seq needed : Nat} (ha : seq < needed + 2 ^ 63)
    (hb : needed ≤ seq + 2 ^ 63) :
    verdict (UInt64.ofNat seq) (UInt64.ofNat needed) =
      if seq = needed then .level else if seq < needed then .behind else .ahead := by
  have hbound : (0x8000000000000000 : UInt64).toNat = 2 ^ 63 := rfl
  unfold verdict
  rcases Nat.lt_trichotomy seq needed with hlt | rfl | hgt
  · have hd := toNat_ofNat_sub_ofNat_of_lt hlt (by omega)
    have h1 : 0x8000000000000000 ≤ UInt64.ofNat seq - UInt64.ofNat needed := by
      rw [UInt64.le_iff_toNat_le, hd, hbound]
      omega
    rw [if_neg (ofNat_sub_ne_zero (by omega)), if_pos h1, if_neg hlt.ne, if_pos hlt]
  · simp
  · have hd := toNat_ofNat_sub_ofNat hgt.le (by omega)
    have h1 : ¬0x8000000000000000 ≤ UInt64.ofNat seq - UInt64.ofNat needed := by
      rw [UInt64.le_iff_toNat_le, hd, hbound]
      omega
    rw [if_neg (ofNat_sub_ne_zero (by omega)), if_neg h1, if_neg hgt.ne', if_neg hgt.le.not_gt]

namespace Ring

variable {n : SlotCount} {α : Type}

/-! ## What an operation leaves alone -/

@[simp] theorem tail_advanceTail (r : Ring n α) : r.advanceTail.tail = r.tail + 1 := rfl

@[simp] theorem seqAt_advanceTail (r : Ring n α) (q : UInt64) :
    r.advanceTail.seqAt q = r.seqAt q := rfl

@[simp] theorem valueAt_advanceTail (r : Ring n α) (q : UInt64) :
    r.advanceTail.valueAt q = r.valueAt q := rfl

@[simp] theorem head_advanceHead (r : Ring n α) : r.advanceHead.head = r.head + 1 := rfl

@[simp] theorem seqAt_advanceHead (r : Ring n α) (q : UInt64) :
    r.advanceHead.seqAt q = r.seqAt q := rfl

@[simp] theorem valueAt_advanceHead (r : Ring n α) (q : UInt64) :
    r.advanceHead.valueAt q = r.valueAt q := rfl

/-! ## What a store is seen as -/

/-- Positions of one slot have one slot. -/
theorem slot_congr (r : Ring n α) {p q : UInt64} (h : n.index p = n.index q) :
    r.slot p = r.slot q := by
  simp only [slot, h]

theorem seqAt_congr (r : Ring n α) {p q : UInt64} (h : n.index p = n.index q) :
    r.seqAt p = r.seqAt q :=
  congrArg Slot.seq (r.slot_congr h)

/-- A slot that is replaced is seen at the positions that have it. -/
theorem slot_replace (r : Ring n α) (pos : UInt64) (x : Slot α) (q : UInt64) :
    ({ r with slots := r.slots.set (n.index pos) x (n.index_lt pos) } : Ring n α).slot q =
      if n.index pos = n.index q then x else r.slot q := by
  by_cases h : n.index pos = n.index q
  · rw [if_pos h]
    simp [slot, h]
  · have hne : (n.index pos).val ≠ (n.index q).val := fun he => h (Fin.ext he)
    rw [if_neg h]
    simp only [slot, Fin.getElem_fin]
    exact Vector.getElem_set_ne _ _ hne

theorem slot_store (r : Ring n α) (pos : UInt64) (v : α) (q : UInt64) :
    (r.store pos v).slot q =
      if n.index pos = n.index q then { r.slot pos with value := v } else r.slot q :=
  r.slot_replace pos _ q

theorem slot_setSeq (r : Ring n α) (pos seq : UInt64) (q : UInt64) :
    (r.setSeq pos seq).slot q =
      if n.index pos = n.index q then { r.slot pos with seq := seq } else r.slot q :=
  r.slot_replace pos _ q

@[simp] theorem seqAt_store (r : Ring n α) (pos : UInt64) (v : α) (q : UInt64) :
    (r.store pos v).seqAt q = r.seqAt q := by
  rw [seqAt, slot_store]
  split
  · next h => exact r.seqAt_congr h
  · rfl

theorem valueAt_store (r : Ring n α) (pos : UInt64) (v : α) (q : UInt64) :
    (r.store pos v).valueAt q = if n.index pos = n.index q then v else r.valueAt q := by
  rw [valueAt, slot_store]
  split <;> rfl

theorem seqAt_setSeq (r : Ring n α) (pos seq : UInt64) (q : UInt64) :
    (r.setSeq pos seq).seqAt q = if n.index pos = n.index q then seq else r.seqAt q := by
  rw [seqAt, slot_setSeq]
  split <;> rfl

@[simp] theorem valueAt_setSeq (r : Ring n α) (pos seq : UInt64) (q : UInt64) :
    (r.setSeq pos seq).valueAt q = r.valueAt q := by
  rw [valueAt, slot_setSeq]
  split
  · next h =>
    show (r.slot pos).value = (r.slot q).value
    rw [r.slot_congr h]
  · rfl

/-! ## A new ring -/

/-- In a new ring the slots of the first lap are free for it. -/
theorem seqAt_new (blank : α) {q : Nat} (hq : q < n.size) :
    (new n blank).seqAt (UInt64.ofNat q) = UInt64.ofNat q := by
  have hi : (n.index (UInt64.ofNat q)).val = q := by
    rw [SlotCount.val_index_ofNat, Nat.mod_eq_of_lt hq]
  simp only [seqAt, slot, new, Fin.getElem_fin, Vector.getElem_ofFn, hi]

end Ring

end LockFreeRings.Mpmc
