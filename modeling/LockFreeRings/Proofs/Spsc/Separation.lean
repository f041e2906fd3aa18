import LockFreeRings.Proofs.Spsc.Marks
set_option autoImplicit false

/-!
# The two sides never meet in a slot

The result about the slots that two handles touch (`Marked.run_separated`).  In every
state that a careful run comes to, the producer is at a slot outside the region from
the head up to the tail and the consumer at one inside.  Those inside are initialised in
every word since they were handed back, and were so before the tail was stored behind
them.  What the consumer has read of an element, however many steps of the producer
came between the words, is that of one published element.
-/

namespace LockFreeRings.Spsc

variable {n : SlotCount} {k : Nat} {ω : Type}

/-- Neither side is in a slot of the other, and none that is not initialised is read. -/
structure Marked.Separated (s : Marked n k ω) : Prop where
  /-- the producer is outside the region from the head up to the tail -/
  writes_outside : ∀ i, s.system.producer.target? = some i → ¬s.system.ring.Queued (n.index i)
  /-- the consumer is inside it -/
  reads_inside : ∀ i, s.system.consumer.target? = some i → s.system.ring.Queued (n.index i)
  /-- whatever the producer does next, the slots inside stay as they are -/
  produce_keeps : ∀ input i, s.system.ring.Queued (n.index i) →
    (s.system.produce input).ring.read i = s.system.ring.read i
  /-- whatever the consumer does next, the slots outside stay as they are -/
  consume_keeps : ∀ input i, ¬s.system.ring.Queued (n.index i) →
    (s.system.consume input).ring.read i = s.system.ring.read i
  /-- the slots inside are initialised -/
  queued_full : ∀ slot, s.system.ring.Queued slot → s.Full slot
  /-- slots are initialised before the tail is stored behind them -/
  full_before : ∀ tail result, s.system.producer = .publish tail result →
    ∀ slot, spans n s.system.ring.tail tail slot = true → s.Full slot
  /-- the consumer is at a published element that was not removed, and it is whole -/
  reads_published : ∀ i, s.system.consumer.target? = some i →
    ∃ p v, i = n.cursor p ∧ s.system.removed.length ≤ p ∧ s.system.published[p]? = some v ∧
      s.system.ring.read i = v
  /-- the words that were read are still those of the element -/
  reads_whole : ∀ goal head j into, s.system.consumer = .read goal head j into →
    ∀ w (hw : w < k), w < j → into[w] = (s.system.ring.read head)[w]

namespace System.Sound

variable {s : System n k ω} {seenHead seenTail : Nat}

/-- The words that the consumer has read are those in the slot. -/
theorem words_read (h : s.Sound seenHead seenTail) {goal : ReadGoal k ω} {head : UInt64}
    {j : Nat} {into : Element k ω} (hp : s.consumer = .read goal head j into) {w : Nat}
    (hw : w < k) (hlt : w < j) : into[w] = (s.ring.read head)[w] := by
  have hknows := h.consumer
  rw [hp] at hknows
  obtain ⟨m, v, rfl, -, hv, hinto, -⟩ := hknows
  rw [h.read_published (Nat.le_add_right _ _) hv]
  exact hinto w hw hlt

end System.Sound

namespace Marked

variable {s : Marked n k ω} {seenHead seenTail : Nat}

/-- Queued slots hold published elements, which are complete. -/
theorem Filled.full_of_queued (f : s.Filled) (h : s.system.Sound seenHead seenTail)
    {slot : Fin n.size} (hqueued : s.system.ring.Queued slot) : s.Full slot := by
  obtain ⟨i, hi, hlt, rfl⟩ := (h.queued_iff slot).mp hqueued
  exact f.complete i hi (hlt.trans_le s.system.published_le_complete)

/-- What is about to be published is complete. -/
theorem Filled.full_of_publish (f : s.Filled) (h : s.system.Sound seenHead seenTail)
    {tail : UInt64} {result : ProducerReturn k ω} (hp : s.system.producer = .publish tail result)
    {slot : Fin n.size} (hspans : spans n s.system.ring.tail tail slot = true) :
    s.Full slot := by
  have hroom := h.room
  have hseen := h.seenHead_le
  have hremoved := h.removed_le
  have hpub := h.seenTail_le
  have hpos := n.size_pos
  have hcomplete := System.complete_of_ne_hold (s := s.system) (by simp [hp])
  have htail := h.producer
  rw [hp] at htail
  obtain rfl : tail = n.cursor (s.system.published.length + s.system.draft.length) := htail
  rw [h.tail, spans_cursor n (Nat.le_add_right _ _) (by omega)] at hspans
  obtain ⟨i, hi, hlt, rfl⟩ := hspans
  exact f.complete i (by omega) (by omega)

/-- Producer and consumer never meet in a slot, and what the consumer reads was written
completely before it was published. -/
theorem run_separated {n : SlotCount} {blank : Element k ω} {actions : List (Action k ω)}
    (hcareful : (start n blank).careful actions = true) :
    (run n blank actions).Separated := by
  obtain ⟨f, c, e, h⟩ := (Filled.start n blank).foldl ⟨0, 0, .start n blank⟩ hcareful
  exact {
    writes_outside := fun i hi => h.not_queued hi
    reads_inside := fun i hi => h.queued_target hi
    produce_keeps := fun input i hi => h.read_produce input hi
    consume_keeps := fun input i hi => h.read_consume input hi
    queued_full := fun slot hqueued => f.full_of_queued h hqueued
    full_before := fun tail result hp slot hspans => f.full_of_publish h hp hspans
    reads_published := fun i hi => h.target_consume hi
    reads_whole := fun goal head j into hp w hw hlt => h.words_read hp hw hlt }

/-- A slot is filled word by word and published; while the consumer reads it, having read
one of two words, the producer stores the next element. -/
def overlap : List (Action 2 Nat) :=
  [.produce (.begin .slot), .produce .proceed, .produce .proceed,
    .produce (.setWord 0 5), .produce (.setWord 1 6), .produce .commit,
    .produce .proceed, .produce .proceed,
    .consume (.begin (.one #v[0, 0])), .consume .proceed, .consume .proceed, .consume .proceed,
    .consume .proceed,
    .produce (.begin (.one #v[7, 8])), .produce .proceed, .produce .proceed, .produce .proceed,
    .produce .proceed]

theorem overlap_separated :
    (start ⟨2, by decide, by decide⟩ #v[0, 0]).careful overlap = true ∧
      (run ⟨2, by decide, by decide⟩ #v[0, 0] overlap).Separated ∧
      (run ⟨2, by decide, by decide⟩ #v[0, 0] overlap).system.producer.target? = some 1 ∧
      (run ⟨2, by decide, by decide⟩ #v[0, 0] overlap).system.consumer.target? = some 0 := by
  have hcareful : (start ⟨2, by decide, by decide⟩ #v[0, 0]).careful overlap = true := by
    decide +kernel
  exact ⟨hcareful, run_separated hcareful, by decide +kernel, by decide +kernel⟩

end Marked

end LockFreeRings.Spsc
