import LockFreeRings.Proofs.Spsc.Publishing
set_option autoImplicit false

/-!
# Cursors without wrapping

A cursor is masked whenever it moves, so it does not say in which lap it is.  In every state
of a run there are counts that do (`Unwrapped`): the cursors are these counts modulo the
number of slots, no count has passed the next one, and the producer is less than a lap ahead
of the head that it knows of.  No check of the code looks at that bound; it is what every
masked difference relies on (`System.run_unwraps`).

The counts are read off `System.Sound`.  What is new here is the producer's own position.
Within a batch it runs ahead of the tail with each element that is stored; a call that
appends a single element keeps it where the tail is, and stores the one behind it at the end
(`System.run_publishesOne`).
-/

namespace LockFreeRings.Spsc

variable {n : SlotCount} {k : Nat} {ω : Type}

/-! ## Words that are cursors -/

/-- A cursor names a slot as it stands, and there is a word behind it. -/
structure InRange (n : SlotCount) (i : UInt64) : Prop where
  lt_size : i.toNat < n.size
  add_one : (i + 1).toNat = i.toNat + 1
  index : (n.index i).val = i.toNat

theorem eq_cursor {p : Nat} {i : UInt64} (h : i.toNat = p % n.size) : i = n.cursor p := by
  rw [← UInt64.toNat_inj, SlotCount.toNat_cursor, h]

theorem inRange_cursor (n : SlotCount) (p : Nat) : InRange n (n.cursor p) := by
  have hlt : (n.cursor p).toNat < n.size := by
    rw [SlotCount.toNat_cursor]
    exact Nat.mod_lt p n.size_pos
  have hsize := n.size_le
  refine ⟨hlt, ?_, ?_⟩
  · show ((n.cursor p).toNat + 1) % 2 ^ 64 = (n.cursor p).toNat + 1
    rw [Nat.mod_eq_of_lt (by omega)]
  · rw [SlotCount.val_index, Nat.mod_eq_of_lt hlt]

theorem forall_mem_cursors (n : SlotCount) (counts : List Nat) :
    ∀ i ∈ counts.map n.cursor, InRange n i := by
  intro i hi
  obtain ⟨p, -, rfl⟩ := List.mem_map.mp hi
  exact inRange_cursor n p

/-- A masked difference is never more than the mask. -/
theorem toNat_mask_sub_distance (n : SlotCount) (tail head : UInt64) :
    (n.mask - distance n tail head).toNat + (distance n tail head).toNat = n.size - 1 := by
  have hlt : (distance n tail head).toNat < n.size := by
    rw [distance, SlotCount.toNat_and_mask]
    exact Nat.mod_lt _ n.size_pos
  rw [UInt64.toNat_sub_of_le, SlotCount.toNat_mask]
  · omega
  · rw [UInt64.le_iff_toNat_le, SlotCount.toNat_mask]
    omega

/-- The cursors that are stored in a ring. -/
def Ring.cursors (r : Ring n k ω) : List UInt64 := [r.cachedHead, r.head, r.cachedTail, r.tail]

namespace ProducerPhase

/-- The cursors that a call of the producer has loaded or computed. -/
def cursors : ProducerPhase k ω → List UInt64
  | .check _ start tail _ | .refresh _ start tail _ | .ask start tail _
  | .store (.stream start _) _ tail _ => [start, tail]
  | .copy _ _ tail _ | .store _ _ tail _ | .publish tail _ | .hold tail => [tail]
  | .lenTail head => [head]
  | .idle | .load _ | .commit | .lenHead => []

/-- The position at which a call of the producer is. -/
def localTail? : ProducerPhase k ω → Option UInt64
  | .check _ _ tail _ | .refresh _ _ tail _ | .copy _ _ tail _ | .ask _ tail _
  | .store _ _ tail _ | .hold tail
  | .publish tail (.pushedMany _) | .publish tail (.streamed _ _) => some tail
  | _ => none

end ProducerPhase

/-- The cursors that a call of the consumer has loaded or computed. -/
def ConsumerPhase.cursors : ConsumerPhase k ω → List UInt64
  | .check _ head | .refresh _ head | .read _ head _ _ | .vacate head _ | .hold head
  | .lenTail head => [head]
  | .idle | .load _ | .release _ | .lenHead => []

/-! ## Counts -/

/-- Where the cursors are, and the producer itself, if nothing is wrapped. -/
structure Unwrapped where
  cachedHead : Nat
  head : Nat
  cachedTail : Nat
  tail : Nat
  localTail : Nat

/-- No cursor has passed the next one, and the producer is less than a lap ahead of the head
that it knows of. -/
structure Unwrapped.Ordered (n : SlotCount) (u : Unwrapped) : Prop where
  cachedHead_le : u.cachedHead ≤ u.head
  head_le : u.head ≤ u.cachedTail
  cachedTail_le : u.cachedTail ≤ u.tail
  tail_le : u.tail ≤ u.localTail
  localTail_le : u.localTail ≤ u.cachedHead + (n.size - 1)

namespace System

/-- The cursors are the counts modulo the number of slots, and the counts are those of
the elements removed and published. -/
structure Wraps (s : System n k ω) (u : Unwrapped) : Prop where
  cachedHead : s.ring.cachedHead.toNat = u.cachedHead % n.size
  head : s.ring.head.toNat = u.head % n.size
  cachedTail : s.ring.cachedTail.toNat = u.cachedTail % n.size
  tail : s.ring.tail.toNat = u.tail % n.size
  localTail : ∀ i, s.producer.localTail? = some i → i.toNat = u.localTail % n.size
  outside : s.producer.batching = false → u.localTail = u.tail
  inside : s.producer.batching = true → u.localTail = u.tail + s.draft.length
  publishing : ∀ i result, s.producer = .publish i result → s.producer.batching = false →
    i.toNat = (u.tail + 1) % n.size ∧ u.tail + 1 ≤ u.cachedHead + (n.size - 1)
  removed : u.head = s.removed.length
  published : u.tail = s.published.length

/-- The masked differences of cursors are the differences of the counts, and what a side
knows of the room before it or of the elements for it is never more than there is. -/
structure Measures (r : Ring n k ω) (u : Unwrapped) : Prop where
  producer_distance : ∀ i : UInt64, i.toNat = u.localTail % n.size →
    (distance n i r.cachedHead).toNat = u.localTail - u.cachedHead ∧
      (distance n i r.head).toNat = u.localTail - u.head
  consumer_distance : (distance n r.cachedTail r.head).toNat = u.cachedTail - u.head ∧
    (distance n r.tail r.head).toNat = u.tail - u.head
  len : r.len.toNat = u.tail - u.head
  room : ∀ i : UInt64, i.toNat = u.localTail % n.size →
    (r.knownRoom i).toNat + (u.localTail - u.cachedHead) = n.size - 1 ∧
      (r.refreshHead.knownRoom i).toNat + (u.localTail - u.head) = n.size - 1 ∧
      (r.knownRoom i).toNat ≤ (r.refreshHead.knownRoom i).toNat
  available : (r.knownAvailable r.head).toNat ≤ (r.refreshTail.knownAvailable r.head).toNat

/-- The position counted from the start at which the producer is. -/
def position (s : System n k ω) : Nat :=
  if s.producer.batching then s.published.length + s.draft.length else s.published.length

/-- The counts of a state, the cached ones being given. -/
def unwrapped (s : System n k ω) (seenHead seenTail : Nat) : Unwrapped where
  cachedHead := seenHead
  head := s.removed.length
  cachedTail := seenTail
  tail := s.published.length
  localTail := s.position

variable {s : System n k ω} {seenHead seenTail : Nat}

theorem Sound.ordered (h : s.Sound seenHead seenTail) :
    (s.unwrapped seenHead seenTail).Ordered n where
  cachedHead_le := h.seenHead_le
  head_le := h.removed_le
  cachedTail_le := h.seenTail_le
  tail_le := by
    show s.published.length ≤ s.position
    unfold position
    split <;> omega
  localTail_le := by
    have := h.room
    show s.position ≤ seenHead + (n.size - 1)
    unfold position
    split <;> omega

end System

/-- The position at which a call of the producer is counts the elements of its batch. -/
theorem ProducerKnows.localTail_eq {r : Ring n k ω} {t d c : Nat} {phase : ProducerPhase k ω}
    (h : ProducerKnows r t d c phase) {i : UInt64} (hi : phase.localTail? = some i) :
    i = n.cursor (if phase.batching then t + d else t) := by
  cases phase with
  | check goal start tail count | refresh goal start tail count =>
      obtain ⟨-, rfl, hgoal⟩ := h
      cases hi
      cases goal with
      | stream => rfl
      | _ =>
          obtain rfl : d = 0 := hgoal.resolve_left (by simp)
          rfl
  | copy v rest tail count =>
      obtain ⟨rfl, -⟩ := h
      cases hi
      rfl
  | ask start tail count =>
      obtain ⟨-, rfl, -⟩ := h
      cases hi
      rfl
  | store goal v tail j =>
      obtain ⟨rfl, -, hgoal⟩ := h
      cases hi
      cases goal with
      | one | slot =>
          obtain ⟨rfl, -⟩ := hgoal
          rfl
      | _ => rfl
  | publish tail result =>
      obtain rfl := h
      cases result with
      | pushedMany | streamed =>
          cases hi
          rfl
      | _ => cases hi
  | hold tail =>
      obtain ⟨rfl, -⟩ := h
      cases hi
      rfl
  | _ => cases hi

/-- The words that the producer holds are cursors. -/
theorem ProducerKnows.inRange {r : Ring n k ω} {t d c : Nat} {phase : ProducerPhase k ω}
    (h : ProducerKnows r t d c phase) (hlen : ∀ head, phase = .lenTail head → InRange n head) :
    ∀ i ∈ phase.cursors, InRange n i := by
  cases phase with
  | check goal start tail count | refresh goal start tail count =>
      obtain ⟨rfl, rfl, -⟩ := h
      exact forall_mem_cursors n [_, _]
  | copy v rest tail count =>
      obtain ⟨rfl, -⟩ := h
      exact forall_mem_cursors n [_]
  | ask start tail count =>
      obtain ⟨rfl, rfl, -⟩ := h
      exact forall_mem_cursors n [_, _]
  | store goal v tail j =>
      obtain ⟨rfl, -, hgoal⟩ := h
      cases goal with
      | stream start count =>
          obtain ⟨rfl, -⟩ := hgoal
          exact forall_mem_cursors n [_, _]
      | _ => exact forall_mem_cursors n [_]
  | publish tail result =>
      obtain rfl := h
      exact forall_mem_cursors n [_]
  | hold tail =>
      obtain ⟨rfl, -⟩ := h
      exact forall_mem_cursors n [_]
  | lenTail head => exact List.forall_mem_singleton.mpr (hlen head rfl)
  | idle | load goal | commit | lenHead => exact forall_mem_cursors n []

/-- The words that the consumer holds are cursors. -/
theorem ConsumerKnows.inRange {published : List (Element k ω)} {h e : Nat}
    {phase : ConsumerPhase k ω} (hk : ConsumerKnows published h e n phase)
    (hlen : ∀ head, phase = .lenTail head → head = n.cursor h) :
    ∀ i ∈ phase.cursors, InRange n i := by
  cases phase with
  | check goal head | refresh goal head =>
      obtain rfl := hk
      exact forall_mem_cursors n [_]
  | read goal head j into =>
      obtain ⟨m, v, rfl, -⟩ := hk
      exact forall_mem_cursors n [_]
  | vacate head result =>
      obtain ⟨v, -, rfl, -⟩ := hk
      exact forall_mem_cursors n [_]
  | hold head =>
      obtain ⟨rfl, -⟩ := hk
      exact forall_mem_cursors n [_]
  | lenTail head =>
      obtain rfl := hlen head rfl
      exact forall_mem_cursors n [_]
  | idle | load goal | release result | lenHead => exact forall_mem_cursors n []

namespace System

variable {s : System n k ω} {seenHead seenTail : Nat}

theorem Sound.wraps (h : s.Sound seenHead seenTail) (hone : s.PublishesOne) :
    s.Wraps (s.unwrapped seenHead seenTail) where
  cachedHead := by rw [h.cachedHead, SlotCount.toNat_cursor]; rfl
  head := by rw [h.head, SlotCount.toNat_cursor]; rfl
  cachedTail := by rw [h.cachedTail, SlotCount.toNat_cursor]; rfl
  tail := by rw [h.tail, SlotCount.toNat_cursor]; rfl
  localTail i hi := by
    rw [h.producer.localTail_eq hi, SlotCount.toNat_cursor]
    rfl
  outside hsingle := by simp [unwrapped, position, hsingle]
  inside hbatch := by simp [unwrapped, position, hbatch]
  publishing i result hp hsingle := by
    have hdraft := hone i result hp hsingle
    have hroom := h.room
    have hknows := h.producer
    rw [hp, hdraft] at hknows
    obtain rfl : i = n.cursor _ := hknows
    rw [hdraft] at hroom
    exact ⟨SlotCount.toNat_cursor n _, hroom⟩
  removed := rfl
  published := rfl

/-- Where no count passes another, masking the differences of the cursors takes nothing off
them. -/
theorem Wraps.measures {u : Unwrapped} (hwraps : s.Wraps u) (hordered : u.Ordered n) :
    Measures s.ring u := by
  have hhead := eq_cursor hwraps.head
  have htail := eq_cursor hwraps.tail
  have hcachedHead := eq_cursor hwraps.cachedHead
  have hcachedTail := eq_cursor hwraps.cachedTail
  have hpos := n.size_pos
  obtain ⟨hle₁, hle₂, hle₃, hle₄, hlap⟩ := hordered
  have hproducer : ∀ i : UInt64, i.toNat = u.localTail % n.size →
      (distance n i s.ring.cachedHead).toNat = u.localTail - u.cachedHead ∧
        (distance n i s.ring.head).toNat = u.localTail - u.head := by
    intro i hi
    rw [eq_cursor hi, hcachedHead, hhead]
    exact ⟨toNat_distance_cursor n (by omega) (by omega),
      toNat_distance_cursor n (by omega) (by omega)⟩
  have hconsumer : (distance n s.ring.cachedTail s.ring.head).toNat = u.cachedTail - u.head ∧
      (distance n s.ring.tail s.ring.head).toNat = u.tail - u.head := by
    rw [hcachedTail, htail, hhead]
    exact ⟨toNat_distance_cursor n (by omega) (by omega),
      toNat_distance_cursor n (by omega) (by omega)⟩
  refine ⟨hproducer, hconsumer, hconsumer.2, fun i hi => ?_, ?_⟩
  · obtain ⟨hknown, hrefreshed⟩ := hproducer i hi
    have hroom := toNat_mask_sub_distance n i s.ring.cachedHead
    have hroom' := toNat_mask_sub_distance n i s.ring.head
    simp only [Ring.knownRoom, Ring.refreshHead]
    omega
  · show (distance n s.ring.cachedTail s.ring.head).toNat ≤
      (distance n s.ring.tail s.ring.head).toNat
    omega

/-- The cursors of a state, stored or held by a call. -/
def cursors (s : System n k ω) : List UInt64 :=
  s.ring.cursors ++ s.producer.cursors ++ s.consumer.cursors

/-- The heads that calls have loaded to take a difference from.  The consumer's own is still
the head.  Of the producer's, for a length, the head may have moved on, but by no lap: when
it was loaded, nothing more was published than now. -/
structure Loads (n : SlotCount) (blank : Element k ω) (actions : List (Action k ω))
    (u : Unwrapped) : Prop where
  available : ∀ goal i, (run n blank actions).consumer = .check goal i ∨
    (run n blank actions).consumer = .refresh goal i → i = (run n blank actions).ring.head
  consumer_len : ∀ i, (run n blank actions).consumer = .lenTail i →
    i = (run n blank actions).ring.head
  producer_len : ∀ i, (run n blank actions).producer = .lenTail i →
    ∃ before, LoadedHead n blank actions before ∧
      i.toNat = (run n blank before).removed.length % n.size ∧
      (run n blank before).removed.length ≤ u.head ∧
      (distance n (run n blank actions).ring.tail i).toNat =
        u.tail - (run n blank before).removed.length

/-- The words that are stored in the ring are cursors. -/
theorem Sound.inRange_ring (h : s.Sound seenHead seenTail) :
    ∀ i ∈ s.ring.cursors, InRange n i := by
  rw [Ring.cursors, h.cachedHead, h.head, h.cachedTail, h.tail]
  exact forall_mem_cursors n [_, _, _, _]

section Runs

variable (n : SlotCount) (blank : Element k ω) (actions : List (Action k ω))

theorem run_inRange : ∀ i ∈ (run n blank actions).cursors, InRange n i := by
  obtain ⟨seenHead, seenTail, h⟩ := run_sound n blank actions
  have hproducer := run_producerCounts n blank actions
  have hconsumer := run_consumerCounts n blank actions
  simp only [cursors, List.forall_mem_append]
  refine ⟨⟨h.inRange_ring, h.producer.inRange fun head hhead => ?_⟩,
    h.consumer.inRange fun head hhead => ?_⟩
  · rw [hhead] at hproducer
    obtain ⟨before, -, rfl, -⟩ := hproducer
    obtain ⟨c, e, hthen⟩ := run_sound n blank before
    rw [hthen.head]
    exact inRange_cursor n _
  · rw [hhead] at hconsumer
    exact hconsumer

theorem run_loads {seenHead seenTail : Nat}
    (h : (run n blank actions).Sound seenHead seenTail) :
    Loads n blank actions ((run n blank actions).unwrapped seenHead seenTail) where
  available goal i hi := by
    have hknows := h.consumer
    rcases hi with hi | hi
    all_goals
      rw [hi] at hknows
      exact hknows.trans h.head.symm
  consumer_len i hi := by
    have hconsumer := run_consumerCounts n blank actions
    rw [hi] at hconsumer
    exact hconsumer.trans h.head.symm
  producer_len i hi := by
    have hproducer := run_producerCounts n blank actions
    rw [hi] at hproducer
    obtain ⟨before, hload, rfl, hlength⟩ := hproducer
    obtain ⟨c, e, hthen⟩ := run_sound n blank before
    have hdistance := hthen.add_toNat_distance
    refine ⟨before, hload, by rw [hthen.head, SlotCount.toNat_cursor], ?_, ?_⟩
    · obtain ⟨middle, hactions, -⟩ := hload
      have hle := length_removed_run_le n blank before (.produce .proceed :: middle)
      rwa [← hactions] at hle
    · rw [hthen.head, h.tail, hlength]
      show _ = (run n blank actions).published.length - _
      omega

/-- In every state of every run there are counts that the cursors wrap.  They are in order and
less than a lap apart, so each masked difference is the one of the counts, no copy of a
cursor shows more than there is, and every cursor names a slot as it stands. -/
theorem run_unwraps :
    ∃ u : Unwrapped, u.Ordered n ∧ (run n blank actions).Wraps u ∧
      Measures (run n blank actions).ring u ∧ Loads n blank actions u ∧
      ∀ i ∈ (run n blank actions).cursors, InRange n i := by
  obtain ⟨seenHead, seenTail, h⟩ := run_sound n blank actions
  have hwraps := h.wraps (run_publishesOne n blank actions)
  exact ⟨_, h.ordered, hwraps, hwraps.measures h.ordered, run_loads n blank actions h,
    run_inRange n blank actions⟩

end Runs

end System

end LockFreeRings.Spsc
