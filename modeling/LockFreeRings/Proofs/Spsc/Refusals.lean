import LockFreeRings.Proofs.Spsc.Traces
set_option autoImplicit false

/-!
# Refusals are never spurious

Each side looks first at its own copy of the other side's cursor, which may be stale, and
loads the cursor itself only when the copy shows too little.  A copy that is stale shows too
little room, or too few elements, but never too much.  So it can say yes, and a refusal, or a
batch that was done in part only, is always the verdict of a cursor that was loaded by the
call itself.

`ProducerVerdict` and `ConsumerVerdict` say what a return tells of the state of that load:
how many elements were queued then, to the last one.  What is settled about the return
already, by the phase that a call has come to, is `ProducerExpects` and `ConsumerExpects`;
every step keeps it, and `Traced.run_exact` is about all calls of a run.
-/

namespace LockFreeRings.Spsc

variable {n : SlotCount} {k : Nat} {ω : Type}

/-! ## What a return of the producer tells -/

section Producer

variable {goal : Option (ProducerGoal k ω)} {load : Option (System n k ω)}

/-- In the state of the load there was room for exactly `count` elements behind the
published ones. -/
def RoomFor (load : Option (System n k ω)) (count : Nat) : Prop :=
  ∃ s ∈ load, s.published.length + count = s.removed.length + (n.size - 1)

/-- A batch of `count` elements is all of what was asked for, or all that there was room
for. -/
def BatchOf (goal : Option (ProducerGoal k ω)) (load : Option (System n k ω)) (count : Nat) :
    Prop :=
  ∃ vs, goal = some (.batch vs) ∧ count ≤ vs.length ∧ (count < vs.length → RoomFor load count)

/-- What a return of the producer tells of the state in which the head was loaded last. -/
def ProducerVerdict (goal : Option (ProducerGoal k ω)) (load : Option (System n k ω)) :
    ProducerReturn k ω → Prop
  | .full v => goal = some (.one v) ∧ RoomFor load 0
  | .noSlot => goal = some .slot ∧ RoomFor load 0
  | .pushedMany count => BatchOf goal load count
  | .streamed _ ended => goal = some .stream ∧
    (ended = false → ∃ s ∈ load, s.published.length + s.draft.length =
      s.removed.length + (n.size - 1))
  | .pushed | .copyFailed | .streamFailed | .committed | .abandoned | .len _ => True

/-- What is settled about the return of a call by the phase that it has come to. -/
def ProducerExpects (goal : Option (ProducerGoal k ω)) (load : Option (System n k ω)) :
    ProducerPhase k ω → Prop
  | .load g | .check g _ _ _ | .refresh g _ _ _ => goal = some g
  | .copy _ rest _ count => BatchOf goal load (count + 1 + rest.length)
  | .ask _ _ _ => goal = some .stream
  | .store g _ _ _ =>
    match g with
    | .batch rest count => BatchOf goal load (count + 1 + rest.length)
    | .stream _ _ => goal = some .stream
    | .one | .slot => True
  | .publish _ result => ProducerVerdict goal load result
  | .idle | .hold _ | .commit | .lenHead | .lenTail _ => True

/-- A step comes to a phase that expects what is settled, and returns what is right. -/
def ProducerSettles (goal : Option (ProducerGoal k ω)) (load : Option (System n k ω))
    (step : ProducerStep n k ω) : Prop :=
  ProducerExpects goal load step.phase ∧ ∀ value ∈ step.result, ProducerVerdict goal load value

theorem ProducerSettles.goOn {r : Ring n k ω} {phase : ProducerPhase k ω}
    (h : ProducerExpects goal load phase) : ProducerSettles goal load ⟨r, phase, none⟩ :=
  ⟨h, fun _ hv => by cases hv⟩

theorem ProducerSettles.ends {r : Ring n k ω} {value : ProducerReturn k ω}
    (h : ProducerVerdict goal load value) : ProducerSettles goal load ⟨r, .idle, some value⟩ :=
  ⟨trivial, fun _ hv => by cases hv; exact h⟩

/-- The end of a stream is published, if it is something. -/
theorem ProducerSettles.endStream {r : Ring n k ω} {start tail : UInt64} {count : Nat}
    {ended : Bool} (h : ProducerVerdict goal load (.streamed count ended)) :
    ProducerSettles goal load (ProducerPhase.endStream r start tail count ended) := by
  unfold ProducerPhase.endStream
  split
  · exact .ends h
  · exact .goOn h

/-- The room that a call knows of is enough, or it is that of the state in which the head
was loaded. -/
def RoomKnown (g : ProducerGoal k ω) (load : Option (System n k ω)) (room : UInt64) : Prop :=
  g.want ≤ room ∨ ∃ s ∈ load, (g = .stream ∨ s.draft.length = 0) ∧
    s.published.length + s.draft.length + room.toNat = s.removed.length + (n.size - 1)

/-- Where one element is asked for and there is no room, the head was loaded. -/
theorem RoomKnown.of_zero {g : ProducerGoal k ω} (h : RoomKnown g load 0) (hwant : g.want = 1) :
    ∃ s ∈ load, (g = .stream ∨ s.draft.length = 0) ∧
      s.published.length + s.draft.length = s.removed.length + (n.size - 1) := by
  rcases h with h | h
  · rw [hwant] at h
    exact absurd h (by decide)
  · exact h

theorem RoomKnown.roomFor_zero {g : ProducerGoal k ω} (h : RoomKnown g load 0)
    (hwant : g.want = 1) (hne : g ≠ .stream) : RoomFor load 0 := by
  obtain ⟨s, hs, hdraft, hroom⟩ := h.of_zero hwant
  refine ⟨s, hs, ?_⟩
  rwa [hdraft.resolve_left hne] at hroom

/-- A batch for which enough room is known is done as a whole. -/
theorem RoomKnown.batchOf {vs : List (Element k ω)} {room : UInt64}
    (h : RoomKnown (.batch vs) load room) (hle : room.toNat ≤ n.size - 1) :
    BatchOf (some (.batch vs)) load (min room.toNat vs.length) := by
  have hsize := n.size_le
  refine ⟨vs, rfl, Nat.min_le_right _ _, fun hlt => ?_⟩
  rcases h with h | ⟨s, hs, hdraft, hroom⟩
  · rw [UInt64.le_iff_toNat_le, ProducerGoal.want, Ring.sliceLength, UInt64.toNat_ofNat',
      Nat.mod_eq_of_lt (by omega)] at h
    omega
  · have hzero : s.draft.length = 0 := hdraft.resolve_left (by simp)
    exact ⟨s, hs, by omega⟩

/-- What is settled once the room is known. -/
theorem RoomKnown.enter {g : ProducerGoal k ω} {room : UInt64} (h : RoomKnown g load room)
    (hle : room.toNat ≤ n.size - 1) (r : Ring n k ω) (start tail : UInt64) (count : Nat) :
    ProducerSettles (some g) load (ProducerPhase.enter r g start tail count room) := by
  unfold ProducerPhase.enter
  cases g with
  | one v =>
      by_cases h0 : room = 0
      · rw [h0] at h
        simp only [if_pos h0]
        exact .ends ⟨rfl, h.roomFor_zero rfl (by simp)⟩
      · simp only [if_neg h0]
        exact .goOn trivial
  | batch vs =>
      have hbatch := h.batchOf hle
      have hlen : (vs.take (min room.toNat vs.length)).length = min room.toNat vs.length := by
        rw [List.length_take, Nat.min_eq_left (Nat.min_le_right _ _)]
      simp only
      split
      · next heq =>
        rw [heq, List.length_nil] at hlen
        rw [← hlen] at hbatch
        exact .ends hbatch
      · next v rest heq =>
        rw [heq, List.length_cons, show rest.length + 1 = 0 + 1 + rest.length by omega] at hlen
        rw [← hlen] at hbatch
        exact .goOn hbatch
  | stream =>
      by_cases h0 : room = 0
      · rw [h0] at h
        simp only [if_pos h0]
        obtain ⟨s, hs, -, hroom⟩ := h.of_zero rfl
        exact .endStream ⟨rfl, fun _ => ⟨s, hs, hroom⟩⟩
      · simp only [if_neg h0]
        exact .goOn rfl
  | slot =>
      by_cases h0 : room = 0
      · rw [h0] at h
        simp only [if_pos h0]
        exact .ends ⟨rfl, h.roomFor_zero rfl (by simp)⟩
      · simp only [if_neg h0]
        exact .goOn trivial

/-- What is settled once an element is stored. -/
theorem ProducerExpects.stored {g : StoreGoal k ω} {v : Element k ω} {tail : UInt64} {j : Nat}
    (h : ProducerExpects goal load (.store g v tail j)) (r : Ring n k ω) :
    ProducerSettles goal load (ProducerPhase.stored r g tail) := by
  cases g with
  | one | slot => exact .goOn trivial
  | batch rest count =>
      cases rest with
      | nil => exact .goOn h
      | cons u rest =>
          have hlen : count + 1 + (u :: rest).length = count + 1 + 1 + rest.length := by
            rw [List.length_cons]
            omega
          simp only [ProducerExpects, hlen] at h
          exact .goOn h
  | stream start count => exact .goOn h

namespace System.Sound

variable {s : System n k ω} {seenHead seenTail : Nat}

/-- The room that the producer knows of, by counts. -/
theorem toNat_knownRoom (h : s.Sound seenHead seenTail) :
    (s.ring.knownRoom (n.cursor (s.published.length + s.draft.length))).toNat =
      n.size - 1 - (s.published.length + s.draft.length - seenHead) := by
  have hle := h.seenHead_le.trans (h.removed_le.trans h.seenTail_le)
  have hbound := h.room
  have hpos := n.size_pos
  exact Ring.toNat_knownRoom s.ring h.cachedHead (by omega) (by omega)

/-- What is settled by a step of the producer that goes on by itself. -/
theorem producer_settles (h : s.Sound seenHead seenTail)
    (hexpects : ProducerExpects goal load s.producer)
    (hload : ∀ g start tail count, s.producer = .refresh g start tail count → load = some s) :
    ProducerSettles goal load (s.producer.proceed s.ring) := by
  have hknows := h.producer
  cases hp : s.producer with
  | load g | copy v rest tail count | ask start tail count =>
      rw [hp] at hexpects
      exact .goOn hexpects
  | check g start tail count =>
      rw [hp] at hexpects hknows
      obtain rfl : goal = some g := hexpects
      obtain ⟨-, rfl, -⟩ := hknows
      simp only [ProducerPhase.proceed]
      split
      · next hwant =>
        refine RoomKnown.enter (.inl hwant) ?_ _ _ _ _
        rw [h.toNat_knownRoom]
        exact Nat.sub_le _ _
      · exact .goOn rfl
  | refresh g start tail count =>
      rw [hp] at hexpects hknows
      obtain rfl : goal = some g := hexpects
      obtain ⟨-, rfl, hdraft⟩ := hknows
      have hroom := h.refreshHead.toNat_knownRoom
      have hbound := h.refreshHead.room
      have hremoved := h.removed_le.trans h.seenTail_le
      simp only at hroom hbound
      refine RoomKnown.enter (.inr ⟨s, hload g _ _ _ hp, hdraft, ?_⟩) ?_ _ _ _ _
      · rw [hroom]
        omega
      · rw [hroom]
        exact Nat.sub_le _ _
  | store g v tail j =>
      rw [hp] at hexpects
      simp only [ProducerPhase.proceed]
      split
      · exact .goOn hexpects
      · exact hexpects.stored s.ring
  | publish tail result =>
      rw [hp] at hexpects
      exact .ends hexpects
  | idle | hold tail | commit | lenHead => exact .goOn trivial
  | lenTail head => exact .ends trivial

end System.Sound

end Producer

/-! ## What a return of the consumer tells -/

section Consumer

variable {goal : Option (ConsumerGoal k ω)} {load : Option (System n k ω)}

/-- In the state of the load exactly `count` elements were waiting for the consumer. -/
def Waiting (load : Option (System n k ω)) (count : Nat) : Prop :=
  ∃ s ∈ load, s.published.length = s.removed.length + count

/-- A batch of `count` elements is as many as were asked for, or all that were waiting. -/
def TakenOf (goal : Option (ConsumerGoal k ω)) (load : Option (System n k ω)) (count : Nat) :
    Prop :=
  ∃ limit into, goal = some (.batch limit into) ∧ count ≤ limit.toNat ∧
    (count < limit.toNat → Waiting load count)

/-- What a return of the consumer tells of the state in which the tail was loaded last. -/
def ConsumerVerdict (goal : Option (ConsumerGoal k ω)) (load : Option (System n k ω)) :
    ConsumerReturn k ω → Prop
  | .empty => (∃ into, goal = some (.one into)) ∧ Waiting load 0
  | .noSlot => goal = some .slot ∧ Waiting load 0
  | .poppedMany vs => TakenOf goal load vs.length
  | .popped _ | .seen _ | .taken _ | .released | .kept | .len _ => True

/-- What is settled about the return of a call by the phase that it has come to. -/
def ConsumerExpects (goal : Option (ConsumerGoal k ω)) (load : Option (System n k ω)) :
    ConsumerPhase k ω → Prop
  | .load g | .check g _ | .refresh g _ => goal = some g
  | .read g _ _ _ =>
    match g with
    | .batch left out => TakenOf goal load (out.length + 1 + left)
    | .one | .look | .take => True
  | .vacate _ result | .release result => ConsumerVerdict goal load result
  | .idle | .hold _ | .lenHead | .lenTail _ => True

/-- A step comes to a phase that expects what is settled, and returns what is right. -/
def ConsumerSettles (goal : Option (ConsumerGoal k ω)) (load : Option (System n k ω))
    (step : ConsumerStep n k ω) : Prop :=
  ConsumerExpects goal load step.phase ∧ ∀ value ∈ step.result, ConsumerVerdict goal load value

theorem ConsumerSettles.goOn {r : Ring n k ω} {phase : ConsumerPhase k ω}
    (h : ConsumerExpects goal load phase) : ConsumerSettles goal load ⟨r, phase, none⟩ :=
  ⟨h, fun _ hv => by cases hv⟩

theorem ConsumerSettles.ends {r : Ring n k ω} {value : ConsumerReturn k ω}
    (h : ConsumerVerdict goal load value) : ConsumerSettles goal load ⟨r, .idle, some value⟩ :=
  ⟨trivial, fun _ hv => by cases hv; exact h⟩

/-- The elements that a call knows of are enough, or they are those of the state in which
the tail was loaded. -/
def ElementsKnown (g : ConsumerGoal k ω) (load : Option (System n k ω)) (available : UInt64) :
    Prop :=
  g.want ≤ available ∨ Waiting load available.toNat

/-- Where one element is asked for and none is known, the tail was loaded. -/
theorem ElementsKnown.of_zero {g : ConsumerGoal k ω} (h : ElementsKnown g load 0)
    (hwant : g.want = 1) : Waiting load 0 := by
  rcases h with h | h
  · rw [hwant] at h
    exact absurd h (by decide)
  · exact h

/-- A batch for which enough elements are known is done as a whole. -/
theorem ElementsKnown.takenOf {limit : UInt64} {into : Element k ω} {available : UInt64}
    (h : ElementsKnown (.batch limit into) load available) :
    TakenOf (some (.batch limit into)) load (min available.toNat limit.toNat) := by
  refine ⟨limit, into, rfl, Nat.min_le_right _ _, fun hlt => ?_⟩
  rcases h with h | h
  · rw [UInt64.le_iff_toNat_le, ConsumerGoal.want] at h
    omega
  · rwa [Nat.min_eq_left (by omega)]

/-- What is settled once the number of elements is known. -/
theorem ElementsKnown.enter {g : ConsumerGoal k ω} {available : UInt64}
    (h : ElementsKnown g load available) (r : Ring n k ω) (head : UInt64) :
    ConsumerSettles (some g) load (ConsumerPhase.enter r g head available) := by
  unfold ConsumerPhase.enter
  cases g with
  | one into =>
      by_cases h0 : available = 0
      · rw [h0] at h
        simp only [if_pos h0]
        exact .ends ⟨⟨into, rfl⟩, h.of_zero rfl⟩
      · simp only [if_neg h0]
        exact .goOn trivial
  | batch limit into =>
      have htaken := h.takenOf
      simp only
      split
      · next heq =>
        rw [heq] at htaken
        exact .ends htaken
      · next left heq =>
        rw [heq, Nat.succ_eq_one_add, ← Nat.zero_add 1] at htaken
        exact .goOn htaken
  | slot =>
      by_cases h0 : available = 0
      · rw [h0] at h
        simp only [if_pos h0]
        exact .ends ⟨rfl, h.of_zero rfl⟩
      · simp only [if_neg h0]
        exact .goOn trivial

/-- What is settled once an element is read. -/
theorem ConsumerExpects.finished {g : ReadGoal k ω} {head : UInt64} {j : Nat}
    {into : Element k ω} (h : ConsumerExpects goal load (.read g head j into))
    (r : Ring n k ω) :
    ConsumerSettles goal load (ConsumerPhase.finished r g head into) := by
  cases g with
  | one | take => exact .goOn trivial
  | look => exact ⟨trivial, fun _ hv => by cases hv; trivial⟩
  | batch left out =>
      have hlen : (out ++ [into]).length = out.length + 1 := by
        rw [List.length_append, List.length_singleton]
      cases left with
      | zero =>
          simp only [ConsumerExpects, Nat.add_zero, ← hlen] at h
          exact .goOn h
      | succ left =>
          simp only [ConsumerExpects, ← hlen, Nat.add_comm left 1, ← Nat.add_assoc] at h
          exact .goOn h

namespace System.Sound

variable {s : System n k ω} {seenHead seenTail : Nat}

/-- The elements that the consumer knows of, by counts. -/
theorem toNat_knownAvailable (h : s.Sound seenHead seenTail) :
    (s.ring.knownAvailable (n.cursor s.removed.length)).toNat = seenTail - s.removed.length := by
  have hseen := h.seenHead_le
  have hpublished := h.seenTail_le
  have hbound := h.room
  have hpos := n.size_pos
  exact Ring.toNat_knownAvailable s.ring h.cachedTail h.removed_le (by omega)

/-- What is settled by a step of the consumer that goes on by itself. -/
theorem consumer_settles (h : s.Sound seenHead seenTail)
    (hexpects : ConsumerExpects goal load s.consumer)
    (hload : ∀ g head, s.consumer = .refresh g head → load = some s) :
    ConsumerSettles goal load (s.consumer.proceed s.ring) := by
  have hknows := h.consumer
  cases hp : s.consumer with
  | load g =>
      rw [hp] at hexpects
      exact .goOn hexpects
  | check g head =>
      rw [hp] at hexpects
      obtain rfl : goal = some g := hexpects
      simp only [ConsumerPhase.proceed]
      split
      · next hwant => exact ElementsKnown.enter (.inl hwant) _ _
      · exact .goOn rfl
  | refresh g head =>
      rw [hp] at hexpects hknows
      obtain rfl : goal = some g := hexpects
      obtain rfl : head = n.cursor s.removed.length := hknows
      have hle := h.removed_le.trans h.seenTail_le
      have havailable := h.refreshTail.toNat_knownAvailable
      simp only at havailable
      refine ElementsKnown.enter (.inr ⟨s, hload g _ hp, ?_⟩) _ _
      rw [havailable]
      omega
  | read g head j into =>
      rw [hp] at hexpects
      simp only [ConsumerPhase.proceed]
      split
      · exact .goOn hexpects
      · exact hexpects.finished s.ring
  | vacate head result =>
      rw [hp] at hexpects
      exact .ends hexpects
  | release result =>
      rw [hp] at hexpects
      exact .goOn hexpects
  | idle | hold head | lenHead => exact .goOn trivial
  | lenTail head => exact .ends trivial

end System.Sound

end Consumer

/-! ## Runs -/

namespace Traced

variable {s : Traced n k ω} {seenHead seenTail : Nat}

/-- Every call that has returned was right about the state of its last load. -/
structure Exact (s : Traced n k ω) : Prop where
  producer : s.producer.Holds ProducerVerdict
  consumer : s.consumer.Holds ConsumerVerdict

/-- So is what is settled about the calls in progress. -/
structure Settled (s : Traced n k ω) : Prop extends s.Exact where
  producer_expects : ProducerExpects s.producer.goal s.producer.load s.system.producer
  consumer_expects : ConsumerExpects s.consumer.goal s.consumer.load s.system.consumer

theorem Settled.start (n : SlotCount) (blank : Element k ω) :
    (Traced.start n blank).Settled where
  producer := by simp [Traced.start, Trace.Holds]
  consumer := by simp [Traced.start, Trace.Holds]
  producer_expects := trivial
  consumer_expects := trivial

/-- What is settled by a step of the producer, whatever its caller does. -/
theorem Settled.producing (h : s.Settled) (hs : s.system.Sound seenHead seenTail)
    (input : ProducerInput k ω) :
    ProducerSettles (s.producing input).goal (s.producing input).load
      (s.system.producer.step s.system.ring input) := by
  have hexpects := h.producer_expects
  -- an input that does not fit begins nothing, loads nothing and returns nothing
  have hignored : s.producing input = s.producer →
      s.system.producer.step s.system.ring input = ⟨s.system.ring, s.system.producer, none⟩ →
        ProducerSettles (s.producing input).goal (s.producing input).load
          (s.system.producer.step s.system.ring input) := by
    intro htrace hstep
    rw [htrace, hstep]
    exact .goOn hexpects
  cases input with
  | proceed =>
      by_cases hrefresh : ∃ g start tail count, s.system.producer = .refresh g start tail count
      · obtain ⟨g, start, tail, count, hp⟩ := hrefresh
        have htrace : s.producing .proceed = s.producer.loads s.system := by
          simp [Traced.producing, hp]
        rw [htrace]
        refine hs.producer_settles ?_ fun _ _ _ _ _ => rfl
        rw [hp] at hexpects ⊢
        exact hexpects
      · have htrace : s.producing .proceed = s.producer := by
          unfold Traced.producing
          split
          case h_3 hp => exact absurd ⟨_, _, _, _, hp⟩ hrefresh
          all_goals simp_all
        rw [htrace]
        exact hs.producer_settles hexpects fun _ _ _ _ hp => absurd ⟨_, _, _, _, hp⟩ hrefresh
  | begin goal =>
      cases hp : s.system.producer with
      | idle =>
          simp only [Traced.producing, hp, ProducerPhase.step]
          exact .goOn rfl
      | _ => exact hp ▸ hignored (by simp [Traced.producing, hp]) (by simp [ProducerPhase.step, hp])
  | count =>
      cases hp : s.system.producer with
      | idle =>
          simp only [Traced.producing, hp, ProducerPhase.step]
          exact .goOn trivial
      | _ => exact hp ▸ hignored (by simp [Traced.producing, hp]) (by simp [ProducerPhase.step, hp])
  | copyFails =>
      cases hp : s.system.producer with
      | copy v rest tail count => exact .ends trivial
      | _ => exact hp ▸ hignored rfl (by simp [ProducerPhase.step, hp])
  | answer answer =>
      cases hp : s.system.producer with
      | ask start tail count =>
          rw [hp] at hexpects
          cases answer with
          | item v => exact .goOn hexpects
          | ended => exact .endStream ⟨hexpects, by simp⟩
          | failed => exact .ends trivial
      | _ => exact hp ▸ hignored rfl (by cases answer <;> simp [ProducerPhase.step, hp])
  | abandon =>
      cases hp : s.system.producer with
      | hold tail => exact .ends trivial
      | _ => exact hp ▸ hignored rfl (by simp [ProducerPhase.step, hp])
  | _ =>
      cases hp : s.system.producer with
      | hold tail => exact .goOn trivial
      | _ => exact hp ▸ hignored rfl (by simp [ProducerPhase.step, hp])

/-- What is settled by a step of the consumer, whatever its caller does. -/
theorem Settled.consuming (h : s.Settled) (hs : s.system.Sound seenHead seenTail)
    (input : ConsumerInput k ω) :
    ConsumerSettles (s.consuming input).goal (s.consuming input).load
      (s.system.consumer.step s.system.ring input) := by
  have hexpects := h.consumer_expects
  have hignored : s.consuming input = s.consumer →
      s.system.consumer.step s.system.ring input = ⟨s.system.ring, s.system.consumer, none⟩ →
        ConsumerSettles (s.consuming input).goal (s.consuming input).load
          (s.system.consumer.step s.system.ring input) := by
    intro htrace hstep
    rw [htrace, hstep]
    exact .goOn hexpects
  cases input with
  | proceed =>
      by_cases hrefresh : ∃ g head, s.system.consumer = .refresh g head
      · obtain ⟨g, head, hp⟩ := hrefresh
        have htrace : s.consuming .proceed = s.consumer.loads s.system := by
          simp [Traced.consuming, hp]
        rw [htrace]
        refine hs.consumer_settles ?_ fun _ _ _ => rfl
        rw [hp] at hexpects ⊢
        exact hexpects
      · have htrace : s.consuming .proceed = s.consumer := by
          unfold Traced.consuming
          split
          case h_3 hp => exact absurd ⟨_, _, hp⟩ hrefresh
          all_goals simp_all
        rw [htrace]
        exact hs.consumer_settles hexpects fun _ _ hp => absurd ⟨_, _, hp⟩ hrefresh
  | begin goal =>
      cases hp : s.system.consumer with
      | idle =>
          simp only [Traced.consuming, hp, ConsumerPhase.step]
          exact .goOn rfl
      | _ => exact hp ▸ hignored (by simp [Traced.consuming, hp]) (by simp [ConsumerPhase.step, hp])
  | count =>
      cases hp : s.system.consumer with
      | idle =>
          simp only [Traced.consuming, hp, ConsumerPhase.step]
          exact .goOn trivial
      | _ => exact hp ▸ hignored (by simp [Traced.consuming, hp]) (by simp [ConsumerPhase.step, hp])
  | keep =>
      cases hp : s.system.consumer with
      | hold head => exact .ends trivial
      | _ => exact hp ▸ hignored rfl (by simp [ConsumerPhase.step, hp])
  | _ =>
      cases hp : s.system.consumer with
      | hold head => exact .goOn trivial
      | _ => exact hp ▸ hignored rfl (by simp [ConsumerPhase.step, hp])

/-- What a step of the producer neither begins nor loads stays filed. -/
theorem returns_producing (s : Traced n k ω) (input : ProducerInput k ω) :
    (s.producing input).returns = s.producer.returns := by
  unfold Traced.producing
  split <;> rfl

theorem returns_consuming (s : Traced n k ω) (input : ConsumerInput k ω) :
    (s.consuming input).returns = s.consumer.returns := by
  unfold Traced.consuming
  split <;> rfl

/-- Every action settles what it should, and every return is right. -/
theorem Settled.act (h : s.Settled) (hs : s.system.Sound seenHead seenTail)
    (action : Action k ω) : (s.act action).Settled := by
  cases action with
  | produce input =>
      obtain ⟨hexpects, hreturns⟩ := h.producing hs input
      have hold : (s.producing input).Holds ProducerVerdict := by
        intro c hc
        rw [returns_producing] at hc
        exact h.producer c hc
      exact {
        producer := hold.returned hreturns
        consumer := h.consumer
        producer_expects := by
          simp only [Traced.act, Trace.goal_returned, Trace.load_returned]
          exact hexpects
        consumer_expects := h.consumer_expects }
  | consume input =>
      obtain ⟨hexpects, hreturns⟩ := h.consuming hs input
      have hold : (s.consuming input).Holds ConsumerVerdict := by
        intro c hc
        rw [returns_consuming] at hc
        exact h.consumer c hc
      exact {
        producer := h.producer
        consumer := hold.returned hreturns
        producer_expects := h.producer_expects
        consumer_expects := by
          simp only [Traced.act, Trace.goal_returned, Trace.load_returned]
          exact hexpects }

/-- All returns of a run are right. -/
theorem Settled.foldl {actions : List (Action k ω)} :
    ∀ {s : Traced n k ω}, s.Settled → (∃ c e, s.system.Sound c e) →
      (actions.foldl Traced.act s).Settled := by
  induction actions with
  | nil => exact fun h _ => h
  | cons action actions ih =>
      rintro s h ⟨c, e, hs⟩
      refine ih (h.act hs action) ?_
      rw [system_act]
      exact hs.act action

/-- Whatever calls the two handles make and in whatever order their steps come, a call that
is refused, or that does less than it was asked for, tells the exact number of elements at
its last load of the other side's cursor. -/
theorem run_exact (n : SlotCount) (blank : Element k ω) (actions : List (Action k ω)) :
    (run n blank actions).system = System.run n blank actions ∧ (run n blank actions).Exact :=
  ⟨system_run n blank actions, ((Settled.start n blank).foldl ⟨0, 0, .start n blank⟩).toExact⟩

/-- One element fits; the second push loads the head and is refused. -/
example : ((run ⟨1, by decide, by decide⟩ #v[0] <| .produce (.begin (.one #v[7])) ::
    List.replicate 5 (.produce .proceed) ++ .produce (.begin (.one #v[8])) ::
    List.replicate 3 (.produce .proceed)).producer.returns.map Finished.result) =
      [ProducerReturn.pushed, .full #v[8]] := by
  decide +kernel

end Traced

end LockFreeRings.Spsc
