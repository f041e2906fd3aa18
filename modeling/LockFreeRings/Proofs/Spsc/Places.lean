import LockFreeRings.Proofs.Spsc.Cursors
import LockFreeRings.Proofs.Spsc.Fifo
set_option autoImplicit false

/-!
# A ring as a bounded list

`Ring.Represents` reads a whole ring, a lap from the head on, as the queued
elements and the vacant places behind them.  `Marks` are three counts that run
without bound: the elements removed, and what the private copies of the cursors
stand for.  A copy is behind its cursor, and the queue's end is within a lap of
the copy of the head, so room and availability that are computed from copies are
never too large.

The lemmas say of each operation on a ring what it is on the list.
-/

namespace LockFreeRings.Spsc

variable {n : SlotCount} {k : Nat} {ω : Type}

/-- Counts that a ring's cursors stand for. -/
structure Marks where
  removed : Nat := 0
  seenHead : Nat := 0
  seenTail : Nat := 0

/-- How many elements were ever appended. -/
def Fifo.appended (f : Fifo k ω) (m : Marks) : Nat := m.removed + f.queue.length

namespace Ring

/-- The ring holds this queue. -/
structure Represents (r : Ring n k ω) (f : Fifo k ω) (m : Marks) : Prop where
  head : r.head = n.cursor m.removed
  tail : r.tail = n.cursor (f.appended m)
  cachedHead : r.cachedHead = n.cursor m.seenHead
  cachedTail : r.cachedTail = n.cursor m.seenTail
  seenHead_le : m.seenHead ≤ m.removed
  removed_le : m.removed ≤ m.seenTail
  seenTail_le : m.seenTail ≤ f.appended m
  appended_le : f.appended m ≤ m.seenHead + (n.size - 1)
  length : f.queue.length + f.vacant.length = n.size
  places : ∀ i v, (f.queue ++ f.vacant)[i]? = some v → r.read (n.cursor (m.removed + i)) = v

namespace Represents

variable {r : Ring n k ω} {f : Fifo k ω} {m : Marks}

/-- A new ring is empty, and all its places hold `blank`. -/
theorem new (n : SlotCount) (blank : Element k ω) :
    (Ring.new n blank).Represents { vacant := List.replicate n.size blank } {} := by
  have hpos := n.size_pos
  constructor <;> simp [Ring.new, Fifo.appended]
  intro i v hv
  rw [List.getElem?_replicate] at hv
  split at hv
  · cases hv
    simp [Ring.read]
  · cases hv

theorem length_queue_lt (h : r.Represents f m) : f.queue.length < n.size := by
  have hpos := n.size_pos
  have happended := h.appended_le
  have hseen := h.seenHead_le
  rw [Fifo.appended] at happended
  omega

theorem length_queue_le (h : r.Represents f m) : f.queue.length ≤ n.size - 1 :=
  Nat.le_sub_one_of_lt h.length_queue_lt

/-! ## What the ring says about itself -/

theorem toNat_len (h : r.Represents f m) : r.len.toNat = f.queue.length := by
  have hlt := h.length_queue_lt
  rw [Ring.len, h.tail, h.head, Fifo.appended,
    toNat_distance_cursor n (Nat.le_add_right _ _) (by omega), Nat.add_sub_cancel_left]

theorem len_eq (h : r.Represents f m) : r.len = UInt64.ofNat f.queue.length := by
  rw [← h.toNat_len, UInt64.ofNat_toNat]

theorem isEmpty_eq (h : r.Represents f m) : r.isEmpty = decide (f.queue.length = 0) := by
  rw [Ring.isEmpty, decide_eq_decide, ← UInt64.toNat_inj, h.toNat_len]
  rfl

theorem isFull_eq (h : r.Represents f m) :
    r.isFull = decide (f.queue.length = n.size - 1) := by
  rw [Ring.isFull, decide_eq_decide, ← UInt64.toNat_inj, h.toNat_len, Ring.capacity,
    SlotCount.toNat_mask]

theorem report_eq (h : r.Represents f m) (reach : Reach) (reply : Reply k ω)
    (events : List (Event k ω)) :
    report reach reply events r = Fifo.report (n.size - 1) reach reply events f := by
  rw [report, Fifo.report, h.len_eq, h.isEmpty_eq, h.isFull_eq]

/-! ## Places -/

theorem read_queue (h : r.Represents f m) {i : Nat} {v : Element k ω}
    (hv : f.queue[i]? = some v) : r.read (n.cursor (m.removed + i)) = v := by
  obtain ⟨hi, -⟩ := List.getElem?_eq_some_iff.mp hv
  refine h.places i v ?_
  rwa [List.getElem?_append_left hi]

theorem read_vacant (h : r.Represents f m) {i : Nat} {v : Element k ω}
    (hv : f.vacant[i]? = some v) : r.read (n.cursor (f.appended m + i)) = v := by
  have hread := h.places (f.queue.length + i) v
  rw [List.getElem?_append_right (Nat.le_add_right _ _), Nat.add_sub_cancel_left, ← Nat.add_assoc]
    at hread
  exact hread hv

/-- A store changes one place. -/
theorem write (h : r.Represents f m) {i : Nat} (hi : i < n.size) (v : Element k ω)
    {f' : Fifo k ω} (hqueue : f'.queue.length = f.queue.length)
    (hplaces : f'.queue ++ f'.vacant = (f.queue ++ f.vacant).set i v) :
    (r.write (n.cursor (m.removed + i)) v).Represents f' m := by
  have happended : f'.appended m = f.appended m := by rw [Fifo.appended, hqueue, Fifo.appended]
  have hlength : f'.queue.length + f'.vacant.length = f.queue.length + f.vacant.length := by
    rw [← List.length_append, ← List.length_append, hplaces, List.length_set]
  constructor
  case head => exact h.head
  case tail =>
    rw [happended]
    exact h.tail
  case cachedHead => exact h.cachedHead
  case cachedTail => exact h.cachedTail
  case seenHead_le => exact h.seenHead_le
  case removed_le => exact h.removed_le
  case seenTail_le =>
    rw [happended]
    exact h.seenTail_le
  case appended_le =>
    rw [happended]
    exact h.appended_le
  case length => rw [hlength, h.length]
  case places =>
    intro j u hu
    have hj : j < n.size := by
      obtain ⟨hj, -⟩ := List.getElem?_eq_some_iff.mp hu
      rwa [List.length_append, hlength, h.length] at hj
    rw [hplaces] at hu
    by_cases heq : i = j
    · subst heq
      rw [List.getElem?_set_self (by rw [List.length_append, h.length]; exact hi)] at hu
      cases hu
      exact Ring.read_write r _ v
    · rw [List.getElem?_set_ne heq] at hu
      have hne : n.index (n.cursor (m.removed + i)) ≠ n.index (n.cursor (m.removed + j)) := by
        rcases Nat.lt_or_gt_of_ne heq with hlt | hlt
        · exact n.index_cursor_ne (by omega) (by omega)
        · exact (n.index_cursor_ne (by omega) (by omega)).symm
      rw [Ring.read_write_of_ne r hne]
      exact h.places j u hu

theorem put (h : r.Represents f m) {i : Nat} (hi : i < f.vacant.length) (v : Element k ω) :
    (r.write (n.cursor (f.appended m + i)) v).Represents (f.put i v) m := by
  have hlength := h.length
  rw [Fifo.appended, Nat.add_assoc]
  refine h.write (by omega) v rfl ?_
  rw [Fifo.put, List.set_append_right _ _ (Nat.le_add_right _ _), Nat.add_sub_cancel_left]

theorem edit (h : r.Represents f m) (hne : f.queue ≠ []) (v : Element k ω) :
    (r.write (n.cursor m.removed) v).Represents (f.edit v) m := by
  have hwrite : (r.write (n.cursor (m.removed + 0)) v).Represents (f.edit v) m := by
    refine h.write n.size_pos v ?_ ?_
    · rw [Fifo.edit, List.length_set]
    · rw [Fifo.edit, List.set_append_left _ _ (List.length_pos_iff.mpr hne)]
  rwa [Nat.add_zero] at hwrite

theorem putWords (h : r.Represents f m) (hne : f.vacant ≠ []) (words : List (Fin k × ω)) :
    (words.foldl (fun r word => r.writeWord (n.cursor (f.appended m)) word.1 word.2) r).Represents
      (f.putWords words) m := by
  induction words generalizing r f with
  | nil =>
      have hsame : f.putWords [] = f := by
        unfold Fifo.putWords
        simp only [List.foldl_nil]
        rw [show (fun v : Element k ω => v) = id from rfl, List.modify_id]
      rw [hsame]
      exact h
  | cons word words ih =>
      obtain ⟨v, rest, hvacant⟩ := List.exists_cons_of_ne_nil hne
      have hread : r.read (n.cursor (f.appended m)) = v := by
        have := h.read_vacant (i := 0) (v := v) (by rw [hvacant]; rfl)
        rwa [Nat.add_zero] at this
      have hput := h.put (i := 0) (by rw [hvacant]; exact Nat.succ_pos _) (v.set word.1 word.2)
      rw [Nat.add_zero] at hput
      have hwords : f.putWords (word :: words) =
          (f.put 0 (v.set word.1 word.2)).putWords words := by
        rw [Fifo.putWords, Fifo.putWords, Fifo.put, hvacant]
        rfl
      rw [List.foldl_cons, Ring.writeWord, hread, hwords]
      exact ih hput (by rw [Fifo.put, hvacant]; exact List.cons_ne_nil _ _)

/-! ## Cursors -/

/-- Storing the tail appends what is in the first vacant places. -/
theorem publish (h : r.Represents f m) {vs : List (Element k ω)}
    (hvs : f.vacant.take vs.length = vs)
    (hroom : f.appended m + vs.length ≤ m.seenHead + (n.size - 1)) :
    (r.publish (n.cursor (f.appended m + vs.length))).Represents (f.append vs) m := by
  have happended : (f.append vs).appended m = f.appended m + vs.length := by
    rw [Fifo.appended, Fifo.append, List.length_append, Fifo.appended, Nat.add_assoc]
  have hplaces : (f.append vs).queue ++ (f.append vs).vacant = f.queue ++ f.vacant := by
    rw [Fifo.append, List.append_assoc]
    congr 1
    nth_rewrite 1 [← hvs]
    exact List.take_append_drop _ _
  constructor
  case head => exact h.head
  case tail =>
    rw [happended]
    rfl
  case cachedHead => exact h.cachedHead
  case cachedTail => exact h.cachedTail
  case seenHead_le => exact h.seenHead_le
  case removed_le => exact h.removed_le
  case seenTail_le =>
    rw [happended]
    exact h.seenTail_le.trans (Nat.le_add_right _ _)
  case appended_le =>
    rw [happended]
    exact hroom
  case length => rw [← List.length_append, hplaces, List.length_append, h.length]
  case places =>
    rw [hplaces]
    exact h.places

/-- What was appended to a ring's queue fits. -/
theorem appendWithin_eq {vs : List (Element k ω)} (h : r.Represents (f.append vs) m) :
    f.appendWithin (n.size - 1) vs = some (f.append vs) := by
  have hle := h.length_queue_le
  rw [Fifo.append, List.length_append] at hle
  rw [Fifo.appendWithin, if_pos hle]

/-- Storing the head removes the oldest elements; the lap that starts then ends
with their places. -/
theorem vacate (h : r.Represents f m) {count : Nat} (hle : m.removed + count ≤ m.seenTail) :
    (r.vacate (n.cursor (m.removed + count))).Represents (f.remove count)
      { m with removed := m.removed + count } := by
  have htail := h.seenTail_le
  rw [Fifo.appended] at htail
  have happended : (f.remove count).appended { m with removed := m.removed + count } =
      f.appended m := by
    rw [Fifo.appended, Fifo.remove, Fifo.appended, List.length_drop]
    simp only
    omega
  have hplaces : (f.remove count).queue ++ (f.remove count).vacant =
      (f.queue ++ f.vacant).drop count ++ f.queue.take count := by
    rw [Fifo.remove, List.drop_append_of_le_length (by omega), List.append_assoc]
  constructor
  case head => rfl
  case tail =>
    rw [happended]
    exact h.tail
  case cachedHead => exact h.cachedHead
  case cachedTail => exact h.cachedTail
  case seenHead_le => exact h.seenHead_le.trans (Nat.le_add_right _ _)
  case removed_le => exact hle
  case seenTail_le =>
    rw [happended]
    exact h.seenTail_le
  case appended_le =>
    rw [happended]
    exact h.appended_le
  case length =>
    have := h.length
    rw [Fifo.remove, List.length_append, List.length_take, List.length_drop]
    omega
  case places =>
    intro i v hv
    have hlength := h.length
    rw [hplaces] at hv
    have hdrop : ((f.queue ++ f.vacant).drop count).length = n.size - count := by
      rw [List.length_drop, List.length_append, hlength]
    rcases Nat.lt_or_ge i (n.size - count) with hlt | hge
    · rw [List.getElem?_append_left (by omega), List.getElem?_drop] at hv
      have hread := h.places (count + i) v hv
      rwa [← Nat.add_assoc] at hread
    -- a place that was vacated comes one lap later
    · rw [List.getElem?_append_right (by omega), hdrop] at hv
      obtain ⟨hi, hget⟩ := List.getElem?_eq_some_iff.mp hv
      rw [List.length_take] at hi
      rw [List.getElem?_take_of_lt (by omega)] at hv
      have hread := h.read_queue hv
      have hlap : m.removed + count + i = m.removed + (i - (n.size - count)) + n.size := by
        have := h.length_queue_lt
        omega
      have hcursor : n.cursor (m.removed + count + i) =
          n.cursor (m.removed + (i - (n.size - count))) := by
        rw [hlap, SlotCount.cursor, SlotCount.cursor, Nat.add_mod_right]
      show r.read (n.cursor (m.removed + count + i)) = v
      rw [hcursor, hread]

theorem refreshHead (h : r.Represents f m) :
    r.refreshHead.Represents f { m with seenHead := m.removed } where
  head := h.head
  tail := h.tail
  cachedHead := h.head
  cachedTail := h.cachedTail
  seenHead_le := Nat.le_refl _
  removed_le := h.removed_le
  seenTail_le := h.seenTail_le
  appended_le := by
    have := h.length_queue_lt
    show m.removed + f.queue.length ≤ m.removed + (n.size - 1)
    omega
  length := h.length
  places := h.places

theorem refreshTail (h : r.Represents f m) :
    r.refreshTail.Represents f { m with seenTail := f.appended m } where
  head := h.head
  tail := h.tail
  cachedHead := h.cachedHead
  cachedTail := h.tail
  seenHead_le := h.seenHead_le
  removed_le := h.removed_le.trans h.seenTail_le
  seenTail_le := Nat.le_refl _
  appended_le := h.appended_le
  length := h.length
  places := h.places

/-- The room that a producer finds before its position, `ahead` of the tail.  It
refreshes its copy of the head when it would find less than it wants. -/
theorem room (h : r.Represents f m) {ahead : Nat}
    (hahead : f.appended m + ahead ≤ m.seenHead + (n.size - 1)) (want : UInt64) :
    ∃ seen, (r.room (n.cursor (f.appended m + ahead)) want).2.Represents f
        { m with seenHead := seen } ∧
      m.seenHead ≤ seen ∧
      (r.room (n.cursor (f.appended m + ahead)) want).1.toNat =
        seen + (n.size - 1) - (f.appended m + ahead) ∧
      (seen = m.removed ∨
        want.toNat ≤ seen + (n.size - 1) - (f.appended m + ahead)) := by
  have hpos := n.size_pos
  have hseen := h.seenHead_le
  have htail := h.removed_le.trans h.seenTail_le
  unfold Ring.room
  split
  · next hwant =>
    have hroom : (r.knownRoom (n.cursor (f.appended m + ahead))).toNat =
        n.size - 1 - (f.appended m + ahead - m.seenHead) :=
      Ring.toNat_knownRoom r h.cachedHead (by omega) (by omega)
    rw [UInt64.le_iff_toNat_le, hroom] at hwant
    exact ⟨m.seenHead, h, Nat.le_refl _, by rw [hroom]; omega, .inr (by omega)⟩
  · have hroom : (r.refreshHead.knownRoom (n.cursor (f.appended m + ahead))).toNat =
        n.size - 1 - (f.appended m + ahead - m.removed) :=
      Ring.toNat_knownRoom r.refreshHead h.head (by omega) (by omega)
    exact ⟨m.removed, h.refreshHead, hseen, by rw [hroom]; omega, .inl rfl⟩

/-- The elements that a consumer finds.  It refreshes its copy of the tail when it
would find fewer than it wants. -/
theorem available (h : r.Represents f m) (want : UInt64) :
    ∃ seen, (r.available (n.cursor m.removed) want).2.Represents f
        { m with seenTail := seen } ∧
      (r.available (n.cursor m.removed) want).1.toNat = seen - m.removed ∧
      (seen = f.appended m ∨ want.toNat ≤ seen - m.removed) := by
  have hpos := n.size_pos
  have hseen := h.seenHead_le
  have happended := h.appended_le
  have hremoved := h.removed_le
  have htail := h.seenTail_le
  unfold Ring.available
  split
  · next hwant =>
    have havailable : (r.knownAvailable (n.cursor m.removed)).toNat = m.seenTail - m.removed :=
      Ring.toNat_knownAvailable r h.cachedTail hremoved (by omega)
    rw [UInt64.le_iff_toNat_le, havailable] at hwant
    exact ⟨m.seenTail, h, havailable, .inr hwant⟩
  · have havailable : (r.refreshTail.knownAvailable (n.cursor m.removed)).toNat =
        f.appended m - m.removed :=
      Ring.toNat_knownAvailable r.refreshTail h.tail (by omega) (by omega)
    exact ⟨f.appended m, h.refreshTail, havailable, .inl rfl⟩

end Represents

end Ring

end LockFreeRings.Spsc
