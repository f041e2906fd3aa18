import LockFreeRings.Proofs.Spsc.Producing
import LockFreeRings.Proofs.Spsc.Consuming
set_option autoImplicit false

/-!
# The region of each side

The slots from the head up to the tail are the consumer's, and the others the
producer's.  `spans` says of a physical slot whether it is among those from one
cursor up to another, and `Ring.Queued` whether it is the consumer's, both by the
stored words alone; `spans_cursor` says what this is by counts.

`ProducerPhase.target?` and `ConsumerPhase.target?` are the cursors of the slots that
the two sides are at.  That of the producer is never queued (`Sound.not_queued`),
that of the consumer always is and holds the published element of its place
(`Sound.queued_target`), and neither side changes a slot of the other
(`Sound.read_produce`, `Sound.read_consume`).
-/

namespace LockFreeRings

/-! ## Slots between two cursors -/

namespace SlotCount

/-- The cursor at a count names its slot. -/
theorem ofNat_index_cursor (n : SlotCount) (p : Nat) :
    UInt64.ofNat (n.index (n.cursor p)).val = n.cursor p := by
  rw [val_index, toNat_cursor, Nat.mod_mod, cursor]

/-- From any count on, every slot comes once within a lap. -/
theorem exists_cursor (n : SlotCount) (p : Nat) (slot : Fin n.size) :
    ∃ i, p ≤ i ∧ i < p + n.size ∧ n.index (n.cursor i) = slot := by
  have hp := Nat.mod_lt p n.size_pos
  have hdiv := Nat.div_add_mod p n.size
  have hslot := slot.isLt
  have hval : ∀ laps, (n.index (n.cursor (n.size * laps + slot.val))).val = slot.val := by
    intro laps
    rw [val_index, toNat_cursor, Nat.mod_mod, Nat.mul_add_mod, Nat.mod_eq_of_lt hslot]
  rcases Nat.lt_or_ge slot.val (p % n.size) with hlt | hge
  · refine ⟨n.size * (p / n.size + 1) + slot.val, ?_, ?_, Fin.ext (hval _)⟩ <;>
      rw [Nat.mul_succ] <;> omega
  · exact ⟨n.size * (p / n.size) + slot.val, by omega, by omega, Fin.ext (hval _)⟩

end SlotCount

namespace Spsc

variable {n : SlotCount} {k : Nat} {ω : Type}

/-- Whether a slot is one of those from the cursor `first` up to the cursor `last`,
around the ring. -/
def spans (n : SlotCount) (first last : UInt64) (slot : Fin n.size) : Bool :=
  distance n (UInt64.ofNat slot.val) first < distance n last first

/-- The slots between two cursors are those of the counts between. -/
theorem spans_cursor (n : SlotCount) {p q : Nat} (hle : p ≤ q) (hlt : q < p + n.size)
    (slot : Fin n.size) :
    spans n (n.cursor p) (n.cursor q) slot = true ↔
      ∃ i, p ≤ i ∧ i < q ∧ n.index (n.cursor i) = slot := by
  have hspans : ∀ i, p ≤ i → i < p + n.size →
      (spans n (n.cursor p) (n.cursor q) (n.index (n.cursor i)) = true ↔ i < q) := by
    intro i hi hlap
    rw [spans, decide_eq_true_iff, n.ofNat_index_cursor, UInt64.lt_iff_toNat_lt,
      toNat_distance_cursor n hi hlap, toNat_distance_cursor n hle hlt]
    omega
  constructor
  · intro h
    obtain ⟨i, hi, hlap, rfl⟩ := n.exists_cursor p slot
    exact ⟨i, hi, (hspans i hi hlap).mp h, rfl⟩
  · rintro ⟨i, hi, hq, rfl⟩
    exact (hspans i hi (by omega)).mpr hq

/-- The slot is one of those from the head up to the tail. -/
def Ring.Queued (r : Ring n k ω) (slot : Fin n.size) : Prop :=
  spans n r.head r.tail slot = true

/-! ## The slots that the two sides are at -/

/-- The cursor of the slot that the producer stores into, or will when its caller has
answered. -/
def ProducerPhase.target? : ProducerPhase k ω → Option UInt64
  | .copy _ _ tail _ | .ask _ tail _ | .store _ _ tail _ | .hold tail => some tail
  | .idle | .load _ | .check _ _ _ _ | .refresh _ _ _ _ | .publish _ _ | .commit | .lenHead
  | .lenTail _ => none

/-- The cursor of the slot that the consumer reads, or holds and may edit. -/
def ConsumerPhase.target? : ConsumerPhase k ω → Option UInt64
  | .read _ head _ _ | .hold head => some head
  | .idle | .load _ | .check _ _ | .refresh _ _ | .vacate _ _ | .release _ | .lenHead
  | .lenTail _ => none

/-! ## What a step may change -/

namespace ProducerPhase

variable (r : Ring n k ω)

@[simp] theorem ring_endStream (start tail : UInt64) (count : Nat) (ended : Bool) :
    (endStream r start tail count ended).ring = r := by
  unfold endStream
  split <;> rfl

@[simp] theorem ring_enter (goal : ProducerGoal k ω) (start tail : UInt64) (count : Nat)
    (room : UInt64) : (enter r goal start tail count room).ring = r := by
  unfold enter
  split <;> split <;> first | rfl | exact ring_endStream r start tail count false

@[simp] theorem ring_stored (goal : StoreGoal k ω) (tail : UInt64) :
    (stored r goal tail).ring = r := by
  unfold stored
  split <;> rfl

/-- A step of the producer changes one word of its target, or no slot. -/
theorem slots_step (input : ProducerInput k ω) (phase : ProducerPhase k ω) :
    (phase.step r input).ring.slots = r.slots ∨
      ∃ tail j w, phase.target? = some tail ∧
        (phase.step r input).ring = r.writeWord tail j w := by
  unfold step
  split
  case h_1 =>
    cases phase with
    | check goal start tail count =>
        simp only [proceed]
        split <;> simp
    | refresh goal start tail count => exact .inl (by simp [proceed, Ring.refreshHead])
    | store goal v tail j =>
        simp only [proceed]
        split
        · next hj => exact .inr ⟨tail, ⟨j, hj⟩, v[j], rfl, rfl⟩
        · exact .inl (by rw [ring_stored])
    | _ => exact .inl rfl
  case h_6 => exact .inl (by rw [ring_endStream])
  case h_8 j w tail => exact .inr ⟨tail, j, w, rfl, rfl⟩
  all_goals exact .inl rfl

variable {r} {goal : StoreGoal k ω} {v : Element k ω} {tail : UInt64} {j : Nat}

theorem phase_endStream_ne_store {start last : UInt64} {count : Nat} {ended : Bool} :
    (endStream r start last count ended).phase ≠ .store goal v tail j := by
  unfold endStream
  split <;> simp

/-- A producer that goes on to store an element starts with its first word. -/
theorem eq_zero_of_enter {target : ProducerGoal k ω} {start last : UInt64} {count : Nat}
    {room : UInt64} (h : (enter r target start last count room).phase = .store goal v tail j) :
    j = 0 := by
  unfold enter at h
  split at h <;> split at h <;> first | exact absurd h phase_endStream_ne_store | cases h
  rfl

theorem phase_stored_ne_store {target : StoreGoal k ω} {last : UInt64} :
    (stored r target last).phase ≠ .store goal v tail j := by
  unfold stored
  split <;> simp

/-- A producer that stores an element starts with its first word and goes on word by
word. -/
theorem phase_step_store {input : ProducerInput k ω} {phase : ProducerPhase k ω}
    (h : (phase.step r input).phase = .store goal v tail j) :
    j = 0 ∨ phase = .store goal v tail j ∨
      ∃ j', input = .proceed ∧ phase = .store goal v tail j' ∧ j' < k ∧ j = j' + 1 := by
  unfold step at h
  split at h
  case h_1 =>
    cases phase with
    | check target start last count =>
        simp only [proceed] at h
        split at h
        · exact .inl (eq_zero_of_enter h)
        · cases h
    | refresh target start last count => exact .inl (eq_zero_of_enter h)
    | copy u rest last count =>
        cases h
        exact .inl rfl
    | store target u last m =>
        simp only [proceed] at h
        split at h
        · next hm =>
          cases h
          exact .inr (.inr ⟨m, rfl, rfl, hm, rfl⟩)
        · exact absurd h phase_stored_ne_store
    | _ => cases h
  case h_5 =>
    cases h
    exact .inl rfl
  case h_6 => exact absurd h phase_endStream_ne_store
  case h_9 =>
    cases h
    exact .inl rfl
  case h_12 => exact .inr (.inl h)
  all_goals cases h

end ProducerPhase

namespace ConsumerPhase

variable (r : Ring n k ω)

@[simp] theorem ring_enter (goal : ConsumerGoal k ω) (head available : UInt64) :
    (enter r goal head available).ring = r := by
  unfold enter
  split <;> split <;> rfl

@[simp] theorem ring_finished (goal : ReadGoal k ω) (head : UInt64) (v : Element k ω) :
    (finished r goal head v).ring = r := by
  unfold finished
  split <;> rfl

/-- A step of the consumer changes one word of its target, or no slot. -/
theorem slots_step (input : ConsumerInput k ω) (phase : ConsumerPhase k ω) :
    (phase.step r input).ring.slots = r.slots ∨
      ∃ head j w, phase.target? = some head ∧
        (phase.step r input).ring = r.writeWord head j w := by
  unfold step
  split
  case h_1 =>
    cases phase with
    | check goal head =>
        simp only [proceed]
        split <;> simp
    | refresh goal head => exact .inl (by simp [proceed, Ring.refreshTail])
    | read goal head j into =>
        simp only [proceed]
        split
        · exact .inl rfl
        · exact .inl (by rw [ring_finished])
    | _ => exact .inl rfl
  case h_5 j w head => exact .inr ⟨head, j, w, rfl, rfl⟩
  all_goals exact .inl rfl

end ConsumerPhase

/-- Where the slots are the same, so is what is read from them. -/
theorem Ring.read_congr {r r' : Ring n k ω} (h : r'.slots = r.slots) (i : UInt64) :
    r'.read i = r.read i := by
  rw [read, read]
  simp only [h]

namespace System.Sound

variable {s : System n k ω} {seenHead seenTail : Nat}

/-- The slots from the head up to the tail are those of the elements that were
published and not removed. -/
theorem queued_iff (h : s.Sound seenHead seenTail) (slot : Fin n.size) :
    s.ring.Queued slot ↔ ∃ i, s.removed.length ≤ i ∧ i < s.published.length ∧
      n.index (n.cursor i) = slot := by
  have hroom := h.room
  have hseen := h.seenHead_le
  have hpos := n.size_pos
  rw [Ring.Queued, h.head, h.tail]
  exact spans_cursor n (h.removed_le.trans h.seenTail_le) (by omega) slot

/-- A slot behind the tail is not queued. -/
theorem not_queued_cursor (h : s.Sound seenHead seenTail) {i : Nat}
    (hle : s.published.length ≤ i) (hlt : i ≤ seenHead + (n.size - 1)) :
    ¬s.ring.Queued (n.index (n.cursor i)) := by
  have hseen := h.seenHead_le
  have hpos := n.size_pos
  rw [h.queued_iff]
  rintro ⟨j, hj, hjt, hindex⟩
  exact n.index_cursor_ne (by omega) (by omega) hindex

/-- Where the producer's target lies, by counts. -/
theorem target_produce (h : s.Sound seenHead seenTail) {i : UInt64}
    (hi : s.producer.target? = some i) :
    ∃ p, i = n.cursor p ∧ s.published.length ≤ p ∧ p + 1 ≤ seenHead + (n.size - 1) := by
  have hroom := h.room
  have hknows := h.producer
  cases hp : s.producer with
  | copy v rest tail count =>
      rw [hp] at hi hknows
      cases hi
      exact ⟨_, hknows.1, Nat.le_add_right _ _, by have := hknows.2; omega⟩
  | ask start tail count =>
      rw [hp] at hi hknows
      cases hi
      exact ⟨_, hknows.2.1, Nat.le_add_right _ _, hknows.2.2⟩
  | store goal v tail j =>
      rw [hp] at hi hknows
      cases hi
      obtain ⟨htail, -, hgoal⟩ := hknows
      refine ⟨_, htail, Nat.le_add_right _ _, ?_⟩
      cases goal <;> simp only at hgoal <;> omega
  | hold tail =>
      rw [hp] at hi hknows
      cases hi
      exact ⟨_, hknows.1, Nat.le_refl _, by have := hknows.2; omega⟩
  | _ =>
      rw [hp] at hi
      cases hi

/-- The producer's target is not queued. -/
theorem not_queued (h : s.Sound seenHead seenTail) {i : UInt64}
    (hi : s.producer.target? = some i) : ¬s.ring.Queued (n.index i) := by
  obtain ⟨p, rfl, hle, hlt⟩ := h.target_produce hi
  exact h.not_queued_cursor hle (by omega)

/-- The consumer's target is a published element that was not removed, which is in
its slot. -/
theorem target_consume (h : s.Sound seenHead seenTail) {i : UInt64}
    (hi : s.consumer.target? = some i) :
    ∃ p v, i = n.cursor p ∧ s.removed.length ≤ p ∧ s.published[p]? = some v ∧
      s.ring.read i = v := by
  have hknows := h.consumer
  cases hp : s.consumer with
  | read goal head j into =>
      rw [hp] at hi hknows
      cases hi
      obtain ⟨m, v, rfl, -, hv, -⟩ := hknows
      exact ⟨_, v, rfl, Nat.le_add_right _ _, hv, h.read_published (Nat.le_add_right _ _) hv⟩
  | hold head =>
      rw [hp] at hi hknows
      cases hi
      obtain ⟨rfl, hlt⟩ := hknows
      obtain ⟨v, hv⟩ := h.exists_published hlt
      exact ⟨_, v, rfl, Nat.le_refl _, hv, h.read_published (Nat.le_refl _) hv⟩
  | _ =>
      rw [hp] at hi
      cases hi

/-- The consumer's target is queued. -/
theorem queued_target (h : s.Sound seenHead seenTail) {i : UInt64}
    (hi : s.consumer.target? = some i) : s.ring.Queued (n.index i) := by
  obtain ⟨p, v, rfl, hle, hv, -⟩ := h.target_consume hi
  obtain ⟨hlt, -⟩ := List.getElem?_eq_some_iff.mp hv
  exact (h.queued_iff _).mpr ⟨p, hle, hlt, rfl⟩

/-! ## A step changes no slot of the other side -/

/-- A step of the producer changes no queued slot. -/
theorem read_produce (h : s.Sound seenHead seenTail) (input : ProducerInput k ω) {i : UInt64}
    (hi : s.ring.Queued (n.index i)) : (s.produce input).ring.read i = s.ring.read i := by
  rcases s.producer.slots_step s.ring input with hslots | ⟨tail, j, w, htail, hring⟩
  · exact Ring.read_congr hslots i
  · have hne : n.index tail ≠ n.index i := fun heq => h.not_queued htail (heq ▸ hi)
    rw [System.produce]
    simp only [hring]
    exact s.ring.read_writeWord_of_ne hne j w

/-- A step of the consumer changes queued slots only. -/
theorem read_consume (h : s.Sound seenHead seenTail) (input : ConsumerInput k ω) {i : UInt64}
    (hi : ¬s.ring.Queued (n.index i)) : (s.consume input).ring.read i = s.ring.read i := by
  rcases s.consumer.slots_step s.ring input with hslots | ⟨head, j, w, hhead, hring⟩
  · exact Ring.read_congr hslots i
  · have hne : n.index head ≠ n.index i := fun heq => hi (heq ▸ h.queued_target hhead)
    rw [System.consume]
    simp only [hring]
    exact s.ring.read_writeWord_of_ne hne j w

end System.Sound

end Spsc

end LockFreeRings
