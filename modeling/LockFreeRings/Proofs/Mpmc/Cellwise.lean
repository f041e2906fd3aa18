import LockFreeRings.Proofs.Mpmc.Cells
import LockFreeRings.Proofs.Mpmc.Slots
set_option autoImplicit false

/-!
# A ring as a queue of cells

`Ring.Represents` reads a ring as a queue of cells.  The cursors are the counts of
removed and of appended cells, and the slot of each number from the front on, a
whole lap of them, has that number as its sequence number, one more if the cell is
ready.  So a slot behind the last cell looks like that of a pending cell, which is
why appending one changes the tail only.

The lemmas say of each operation on a ring what it is on cells.  The counts have no
bound; that their words wrap is seen nowhere.
-/

namespace LockFreeRings.Mpmc

variable {n : SlotCount} {α : Type}

/-- The sequence number that a cell asks for, as the offset from its own number. -/
def Cells.readiness (c : Cells α) (i : Nat) : Nat :=
  match c.cells[i]? with
  | some (.ready _) => 1
  | _ => 0

/-- The ring holds these cells. -/
structure Ring.Represents (r : Ring n α) (c : Cells α) : Prop where
  head : r.head = UInt64.ofNat c.first
  tail : r.tail = UInt64.ofNat c.nextNumber
  length_le : c.cells.length ≤ n.size
  seq : ∀ i < n.size,
    r.seqAt (UInt64.ofNat (c.first + i)) = UInt64.ofNat (c.first + i + c.readiness i)
  value : ∀ i v, c.cells[i]? = some (.ready v) → r.valueAt (UInt64.ofNat (c.first + i)) = v

namespace Cells

theorem readiness_le (c : Cells α) (i : Nat) : c.readiness i ≤ 1 := by
  unfold readiness
  split <;> omega

theorem readiness_of_none (c : Cells α) {i : Nat} (h : c.cells.length ≤ i) :
    c.readiness i = 0 := by
  rw [readiness, List.getElem?_eq_none h]

theorem readiness_append (c : Cells α) (i : Nat) : c.append.readiness i = c.readiness i := by
  rcases Nat.lt_trichotomy i c.cells.length with hlt | rfl | hgt
  · simp only [readiness, append, List.getElem?_append_left hlt]
  · rw [c.readiness_of_none (Nat.le_refl _)]
    simp [readiness, append]
  · rw [c.readiness_of_none hgt.le, readiness_of_none]
    simp only [append, List.length_append, List.length_singleton]
    omega

@[simp] theorem length_append (c : Cells α) :
    c.append.cells.length = c.cells.length + 1 := by
  simp [append]

@[simp] theorem first_append (c : Cells α) : c.append.first = c.first := rfl

@[simp] theorem length_settle (c : Cells α) (number : Nat) (cell : Cell α) :
    (c.settle number cell).cells.length = c.cells.length := by
  simp [settle]

@[simp] theorem first_settle (c : Cells α) (number : Nat) (cell : Cell α) :
    (c.settle number cell).first = c.first := rfl

theorem nextNumber_append (c : Cells α) : c.append.nextNumber = c.nextNumber + 1 := by
  rw [nextNumber, nextNumber, length_append, first_append]
  omega

theorem nextNumber_settle (c : Cells α) (number : Nat) (cell : Cell α) :
    (c.settle number cell).nextNumber = c.nextNumber := by
  rw [nextNumber, nextNumber, length_settle, first_settle]

/-- What a settled cell asks for. -/
theorem readiness_settle {c : Cells α} {number : Nat} (h : c.Pending number) (cell : Cell α)
    (i : Nat) : (c.settle number cell).readiness i =
      if c.first + i = number then
        match cell with
        | .ready _ => 1
        | _ => 0
      else c.readiness i := by
  obtain ⟨hle, hget⟩ := h
  obtain ⟨hlt, -⟩ := List.getElem?_eq_some_iff.mp hget
  split
  · next heq =>
    obtain rfl : i = number - c.first := by omega
    rw [readiness, settle, List.getElem?_set_self hlt]
    cases cell <;> rfl
  · next hne =>
    rw [readiness, settle, List.getElem?_set_ne (by omega)]
    rfl

end Cells

namespace Ring.Represents

variable {r : Ring n α} {c : Cells α}

/-- A new ring holds no cells. -/
theorem new (n : SlotCount) (blank : α) : (Ring.new n blank).Represents {} where
  head := rfl
  tail := rfl
  length_le := Nat.zero_le _
  seq i hi := by
    rw [Cells.readiness_of_none _ (Nat.zero_le i), Nat.zero_add, Nat.add_zero,
      Ring.seqAt_new blank hi]
  value i v hv := by simp at hv

/-! ## What the ring says about itself -/

/-- The sequence number at the tail: a full ring shows there what it shows at the
front. -/
theorem seqAt_tail (h : r.Represents c) :
    r.seqAt (UInt64.ofNat c.nextNumber) =
      if c.cells.length = n.size then UInt64.ofNat (c.first + c.readiness 0)
      else UInt64.ofNat c.nextNumber := by
  have hpos := n.size_pos
  have hle := h.length_le
  split
  · next hfull =>
    have hwrap : c.nextNumber = c.first + n.size := by rw [Cells.nextNumber, hfull]
    rw [hwrap, Ring.seqAt_congr r (n.index_ofNat_add_size c.first)]
    exact h.seq 0 hpos
  · rw [Cells.nextNumber, h.seq _ (by omega), c.readiness_of_none (Nat.le_refl _), Nat.add_zero]

/-- A push finds room unless there are as many cells as slots. -/
theorem verdict_tail (h : r.Represents c) : verdict (r.seqAt r.tail) r.tail =
    if c.cells.length = n.size then .behind else .level := by
  have htwo := n.two_le_size
  have hsize := n.size_le
  have hready := c.readiness_le 0
  rw [h.tail, h.seqAt_tail]
  split
  · next hfull =>
    have hwrap : c.nextNumber = c.first + n.size := by rw [Cells.nextNumber, hfull]
    rw [hwrap, verdict_ofNat (by omega) (by omega), if_neg (by omega), if_pos (by omega)]
  · rw [verdict_ofNat (by omega) (by omega), if_pos rfl]

theorem isFull_eq (h : r.Represents c) : r.isFull = decide (c.cells.length = n.size) := by
  rw [Ring.isFull, h.verdict_tail]
  split <;> simp [*]

theorem isEmpty_eq (h : r.Represents c) : r.isEmpty = decide (c.cells.length = 0) := by
  have hle := h.length_le
  have hsize := n.size_le
  have hnext : c.nextNumber = c.first + c.cells.length := rfl
  rw [Ring.isEmpty, h.head, h.tail, decide_eq_decide]
  constructor
  · intro heq
    have := ofNat_inj_of_lt (by omega) (by omega) heq
    omega
  · intro hzero
    rw [hnext, hzero, Nat.add_zero]

/-- The size is the number of cells, as long as a full ring is not taken for one
whose tail is behind its head. -/
theorem size_eq (h : r.Represents c) (hn : n.size < 2 ^ 63) :
    r.size = UInt64.ofNat c.cells.length := by
  have hle := h.length_le
  have hd : r.tail - r.head = UInt64.ofNat c.cells.length := by
    rw [h.tail, h.head, Cells.nextNumber, ofNat_sub_ofNat (Nat.le_add_right _ _),
      Nat.add_sub_cancel_left]
  have hnat : (UInt64.ofNat c.cells.length).toNat = c.cells.length := by
    rw [UInt64.toNat_ofNat', Nat.mod_eq_of_lt (by omega)]
  have hbound : (0x8000000000000000 : UInt64).toNat = 2 ^ 63 := rfl
  rw [Ring.size, Ring.sizeBetween, hd, if_neg, if_pos]
  · rw [UInt64.le_iff_toNat_le, hnat, SlotCount.toNat_word]
    exact hle
  · rw [UInt64.le_iff_toNat_le, hnat, hbound]
    omega

/-! ## Pushing -/

theorem admitPush_eq (h : r.Represents c) : r.admitPush =
    if c.cells.length = n.size then .refused else .granted (UInt64.ofNat c.nextNumber) := by
  rw [Ring.admitPush, h.verdict_tail, ← h.tail]
  by_cases hfull : c.cells.length = n.size
  · simp [hfull]
  · simp [hfull]

/-- Taking a position appends a pending cell. -/
theorem advanceTail (h : r.Represents c) (hroom : c.cells.length ≠ n.size) :
    r.advanceTail.Represents c.append where
  head := h.head
  tail := by rw [Ring.tail_advanceTail, h.tail, Cells.nextNumber_append, ofNat_succ]
  length_le := by
    have := h.length_le
    rw [Cells.length_append]
    omega
  seq i hi := by
    rw [Ring.seqAt_advanceTail, Cells.first_append, Cells.readiness_append]
    exact h.seq i hi
  value i v hv := by
    rw [Ring.valueAt_advanceTail]
    refine h.value i v ?_
    rcases Nat.lt_or_ge i c.cells.length with hlt | hge
    · rwa [Cells.append, List.getElem?_append_left hlt] at hv
    · rw [Cells.append, List.getElem?_append_right hge] at hv
      rcases Nat.eq_zero_or_pos (i - c.cells.length) with h0 | hpos
      · rw [h0] at hv
        cases hv
      · rw [List.getElem?_eq_none (Nat.succ_le_of_lt hpos)] at hv
        cases hv

/-- Cells of a ring have slots of their own. -/
theorem index_ne (h : r.Represents c) {number i : Nat} (hp : c.Pending number) (hi : i < n.size)
    (hne : c.first + i ≠ number) :
    n.index (UInt64.ofNat number) ≠ n.index (UInt64.ofNat (c.first + i)) := by
  have hlt := hp.lt_nextNumber
  have hle := h.length_le
  have hge := hp.1
  rw [Cells.nextNumber] at hlt
  rcases Nat.lt_or_gt_of_ne hne with hgt | hgt
  · exact (n.index_ofNat_ne hgt (by omega)).symm
  · exact n.index_ofNat_ne hgt (by omega)

/-- Storing and publishing an element makes its cell ready. -/
theorem fill (h : r.Represents c) {number : Nat} (hp : c.Pending number) (v : α) :
    ((r.store (UInt64.ofNat number) v).publish (UInt64.ofNat number)).Represents
      (c.settle number (.ready v)) where
  head := h.head
  tail := by
    rw [Cells.nextNumber_settle]
    exact h.tail
  length_le := by
    rw [Cells.length_settle]
    exact h.length_le
  seq i hi := by
    rw [Ring.publish, Ring.seqAt_setSeq, Ring.seqAt_store, Cells.first_settle,
      Cells.readiness_settle hp]
    by_cases heq : c.first + i = number
    · rw [if_pos (by rw [heq]), if_pos heq, heq, ofNat_succ]
    · rw [if_neg (h.index_ne hp hi heq), if_neg heq]
      exact h.seq i hi
  value i w hw := by
    have hi : i < c.cells.length := by
      obtain ⟨hi, -⟩ := List.getElem?_eq_some_iff.mp hw
      rwa [Cells.length_settle] at hi
    have hle := h.length_le
    rw [Ring.publish, Ring.valueAt_setSeq, Ring.valueAt_store, Cells.first_settle]
    by_cases heq : c.first + i = number
    · obtain rfl : i = number - c.first := by omega
      rw [Cells.settle, List.getElem?_set_self hi] at hw
      cases hw
      rw [if_pos (by rw [heq])]
    · rw [Cells.settle, List.getElem?_set_ne (by have := hp.1; omega)] at hw
      rw [if_neg (h.index_ne hp (by omega) heq)]
      exact h.value i w hw

/-- A cell that dies leaves its slot as it is. -/
theorem abandon (h : r.Represents c) {number : Nat} (hp : c.Pending number) :
    r.Represents (c.settle number .dead) where
  head := h.head
  tail := by
    rw [Cells.nextNumber_settle]
    exact h.tail
  length_le := by
    rw [Cells.length_settle]
    exact h.length_le
  seq i hi := by
    rw [Cells.first_settle, Cells.readiness_settle hp, h.seq i hi]
    by_cases heq : c.first + i = number
    · obtain rfl : i = number - c.first := by omega
      rw [if_pos heq, Cells.readiness, hp.2]
    · rw [if_neg heq]
  value i w hw := by
    have hi : i < c.cells.length := by
      obtain ⟨hi, -⟩ := List.getElem?_eq_some_iff.mp hw
      rwa [Cells.length_settle] at hi
    refine h.value i w ?_
    by_cases heq : number - c.first = i
    · subst heq
      rw [Cells.settle, List.getElem?_set_self hi] at hw
      cases hw
    · rwa [Cells.settle, List.getElem?_set_ne heq] at hw

/-! ## Popping -/

/-- A pop finds its element if the front cell is ready. -/
theorem verdict_head (h : r.Represents c) : verdict (r.seqAt r.head) (r.head + 1) =
    if c.readiness 0 = 1 then .level else .behind := by
  have hready := c.readiness_le 0
  have hseq := h.seq 0 n.size_pos
  rw [Nat.add_zero] at hseq
  rw [h.head, hseq, ← ofNat_succ, verdict_ofNat (by omega) (by omega)]
  by_cases heq : c.readiness 0 = 1
  · rw [if_pos heq, if_pos (by omega)]
  · rw [if_neg heq, if_neg (by omega), if_pos (by omega)]

/-- Removing the front cell frees its slot for the number one lap later, which is
the last one of the lap that starts then. -/
theorem removeFront (h : r.Represents c) {v : α} {cells : List (Cell α)}
    (hc : c.cells = .ready v :: cells) :
    (r.advanceHead.release (UInt64.ofNat c.first)).Represents ⟨c.first + 1, cells⟩ where
  head := by
    show r.head + 1 = UInt64.ofNat (c.first + 1)
    rw [h.head, ofNat_succ]
  tail := by
    show r.tail = UInt64.ofNat (c.first + 1 + cells.length)
    rw [h.tail, Cells.nextNumber, hc, List.length_cons]
    congr 1
    omega
  length_le := by
    have := h.length_le
    rw [hc, List.length_cons] at this
    exact Nat.le_of_succ_le this
  seq i hi := by
    have hle := h.length_le
    rw [hc, List.length_cons] at hle
    have hword : UInt64.ofNat c.first + n.word = UInt64.ofNat (c.first + n.size) := by
      rw [UInt64.ofNat_add]
      rfl
    rw [Ring.release, hword, Ring.seqAt_setSeq, Ring.seqAt_advanceHead]
    by_cases hlast : i + 1 = n.size
    · have hpos : c.first + 1 + i = c.first + n.size := by omega
      have hfree : (⟨c.first + 1, cells⟩ : Cells α).readiness i = 0 :=
        Cells.readiness_of_none _ (by show cells.length ≤ i; omega)
      simp only [hpos, hfree, Nat.add_zero]
      rw [if_pos (n.index_ofNat_add_size c.first).symm]
    · have hshift : (⟨c.first + 1, cells⟩ : Cells α).readiness i = c.readiness (i + 1) := by
        rw [Cells.readiness, Cells.readiness, hc, List.getElem?_cons_succ]
      have hne := n.index_ofNat_ne (p := c.first) (q := c.first + 1 + i) (by omega) (by omega)
      have hpos : c.first + 1 + i = c.first + (i + 1) := by omega
      rw [if_neg hne, hshift]
      simp only [hpos]
      exact h.seq (i + 1) (by omega)
  value i w hw := by
    rw [Ring.release, Ring.valueAt_setSeq, Ring.valueAt_advanceHead]
    have hpos : c.first + 1 + i = c.first + (i + 1) := by omega
    simp only [hpos]
    exact h.value (i + 1) w (by rw [hc, List.getElem?_cons_succ]; exact hw)

/-- A pop removes the front cell if it is ready, and returns its element. -/
theorem pop_eq (h : r.Represents c) :
    r.pop.1 = (match c.pop.1 with
      | some v => .popped v
      | none => .empty) ∧ r.pop.2.Represents c.pop.2 := by
  have hverdict := h.verdict_head
  rcases hc : c.cells with _ | ⟨cell, cells⟩
  · have hready : c.readiness 0 ≠ 1 := by
      rw [c.readiness_of_none (by rw [hc]; exact Nat.le_refl 0)]
      decide
    rw [if_neg hready] at hverdict
    simp only [Ring.pop, Ring.admitPop, hverdict, Cells.pop, hc]
    exact ⟨trivial, h⟩
  · cases cell with
    | pending | dead =>
        have hready : c.readiness 0 ≠ 1 := by simp [Cells.readiness, hc]
        rw [if_neg hready] at hverdict
        simp only [Ring.pop, Ring.admitPop, hverdict, Cells.pop, hc]
        exact ⟨trivial, h⟩
    | ready v =>
        have hready : c.readiness 0 = 1 := by simp [Cells.readiness, hc]
        have hvalue : r.valueAt r.head = v := by
          have := h.value 0 v (by rw [hc]; rfl)
          rwa [Nat.add_zero, ← h.head] at this
        rw [if_pos hready] at hverdict
        simp only [Ring.pop, Ring.admitPop, hverdict, Cells.pop, hc, hvalue]
        refine ⟨trivial, ?_⟩
        rw [h.head]
        exact h.removeFront hc

/-- Popping up to a limit. -/
theorem popUpTo_eq (limit : Nat) (h : r.Represents c) :
    (r.popUpTo limit).1 = (c.popUpTo limit).1 ∧
      (r.popUpTo limit).2.Represents (c.popUpTo limit).2 := by
  induction limit generalizing r c with
  | zero => exact ⟨rfl, h⟩
  | succ limit ih =>
      obtain ⟨houtcome, hafter⟩ := h.pop_eq
      unfold Ring.popUpTo Cells.popUpTo
      rcases hpop : r.pop with ⟨outcome, r'⟩
      rcases hcells : c.pop with ⟨v?, c'⟩
      rw [hpop, hcells] at houtcome hafter
      cases v? with
      | none =>
          obtain rfl : outcome = .empty := houtcome
          exact ⟨rfl, hafter⟩
      | some v =>
          obtain rfl : outcome = .popped v := houtcome
          obtain ⟨hvs, hrest⟩ := ih hafter
          exact ⟨congrArg (v :: ·) hvs, hrest⟩

end Ring.Represents

/-- There are no more elements to pop than cells. -/
theorem Cells.popUpTo_min (limit : Nat) (c : Cells α) {bound : Nat}
    (h : c.cells.length ≤ bound) : c.popUpTo (min limit bound) = c.popUpTo limit := by
  induction limit generalizing c bound with
  | zero => rw [Nat.zero_min]
  | succ limit ih =>
      rcases hc : c.cells with _ | ⟨cell, cells⟩
      · have hpop : c.pop = (none, c) := by rw [Cells.pop, hc]
        cases bound with
        | zero => simp [popUpTo, hpop]
        | succ bound => rw [Nat.succ_min_succ, popUpTo, popUpTo, hpop]
      · rw [hc, List.length_cons] at h
        obtain ⟨bound, rfl⟩ := Nat.exists_eq_add_of_lt (Nat.lt_of_lt_of_le (Nat.succ_pos _) h)
        rw [Nat.zero_add, Nat.succ_min_succ, popUpTo, popUpTo]
        cases cell with
        | pending | dead =>
            have hpop : c.pop = (none, c) := by rw [Cells.pop, hc]
            rw [hpop]
        | ready v =>
            have hpop : c.pop = (some v, ⟨c.first + 1, cells⟩) := by rw [Cells.pop, hc]
            rw [hpop]
            simp only
            rw [ih ⟨c.first + 1, cells⟩ (by simpa using h)]

end LockFreeRings.Mpmc
