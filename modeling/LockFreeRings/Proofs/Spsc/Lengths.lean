import LockFreeRings.Proofs.Spsc.Handover
import Mathlib.Data.List.Induction
set_option autoImplicit false

/-!
# Lengths are exact at one instant

A handle that asks how many elements are queued loads the head and then the tail.  Only one
of the two cursors belongs to the other side; the handle's own one does not move during the
call.  So the answer is exact at the instant at which the other side's cursor was loaded:
for the producer that is the first of the two loads (`run_producer_len`), for the consumer
the second (`run_consumer_len`).
-/

namespace LockFreeRings.Spsc

variable {n : SlotCount} {k : Nat} {ω : Type}

/-! ## Phases that count -/

namespace ProducerPhase

/-- The phases of a producer that counts, or that would return a count otherwise. -/
def counts : ProducerPhase k ω → Bool
  | .lenHead | .lenTail _ | .publish _ (.len _) => true
  | _ => false

theorem counts_endStream (r : Ring n k ω) (start tail : UInt64) (count : Nat) (ended : Bool) :
    (endStream r start tail count ended).phase.counts = false := by
  unfold endStream
  split <;> rfl

theorem counts_enter (r : Ring n k ω) (goal : ProducerGoal k ω) (start tail : UInt64)
    (count : Nat) (room : UInt64) : (enter r goal start tail count room).phase.counts = false := by
  cases goal with
  | one v | slot =>
      unfold enter
      simp only
      split <;> rfl
  | batch vs =>
      unfold enter
      simp only
      split <;> rfl
  | stream =>
      unfold enter
      simp only
      split
      · exact counts_endStream r start tail count false
      · rfl

theorem counts_stored (r : Ring n k ω) (goal : StoreGoal k ω) (tail : UInt64) :
    (stored r goal tail).phase.counts = false := by
  unfold stored
  split <;> rfl

/-- A step that comes to a phase that counts begins to count, loads the head, or stays. -/
theorem step_counts {r : Ring n k ω} {input : ProducerInput k ω} {phase : ProducerPhase k ω}
    (h : (phase.step r input).phase.counts = true) :
    (phase.step r input).phase = .lenHead ∨
      (input = .proceed ∧ phase = .lenHead ∧ (phase.step r input).phase = .lenTail r.head) ∨
      (phase.step r input).phase = phase := by
  cases input with
  | proceed =>
      cases phase with
      | lenHead => exact .inr (.inl ⟨rfl, rfl, rfl⟩)
      | check goal start tail count =>
          simp only [step, proceed] at h
          split at h
          · rw [counts_enter] at h
            cases h
          · cases h
      | refresh goal start tail count =>
          simp only [step, proceed, counts_enter] at h
          cases h
      | store goal v tail j =>
          simp only [step, proceed] at h
          split at h
          · cases h
          · rw [counts_stored] at h
            cases h
      | _ => cases h
  | count =>
      cases phase with
      | idle => exact .inl rfl
      | _ => exact .inr (.inr rfl)
  | answer answer =>
      cases phase with
      | ask start tail count =>
          cases answer with
          | item v | failed => cases h
          | ended =>
              simp only [step, counts_endStream] at h
              cases h
      | _ => cases answer <;> exact .inr (.inr rfl)
  | begin goal =>
      cases phase with
      | idle => cases h
      | _ => exact .inr (.inr rfl)
  | copyFails =>
      cases phase with
      | copy v rest tail count => cases h
      | _ => exact .inr (.inr rfl)
  | _ =>
      cases phase with
      | hold tail => cases h
      | _ => exact .inr (.inr rfl)

/-- Only what counts returns a count. -/
theorem counts_of_len {r : Ring n k ω} {input : ProducerInput k ω} {phase : ProducerPhase k ω}
    {count : UInt64} (h : (phase.step r input).result = some (.len count)) :
    input = .proceed ∧ ((∃ head, phase = .lenTail head ∧ count = distance n r.tail head) ∨
      ∃ tail, phase = .publish tail (.len count)) := by
  have hend : ∀ start tail total ended,
      (endStream r start tail total ended).result ≠ some (.len count) := by
    intro start tail total ended
    unfold endStream
    split <;> simp
  have henter : ∀ (r : Ring n k ω) goal start tail total room,
      (enter r goal start tail total room).result ≠ some (.len count) := by
    intro r goal start tail total room
    cases goal <;> unfold enter <;> simp only <;> split <;> simp [endStream]
    split <;> simp
  cases input with
  | proceed =>
      cases phase with
      | lenTail head =>
          cases h
          exact ⟨rfl, .inl ⟨head, rfl, rfl⟩⟩
      | publish tail result =>
          cases h
          exact ⟨rfl, .inr ⟨tail, rfl⟩⟩
      | check goal start tail total =>
          simp only [step, proceed] at h
          split at h
          · exact absurd h (henter _ _ _ _ _ _)
          · cases h
      | refresh goal start tail total => exact absurd h (henter _ _ _ _ _ _)
      | store goal v tail j =>
          simp only [step, proceed] at h
          split at h
          · cases h
          · unfold stored at h
            split at h <;> cases h
      | _ => cases h
  | answer answer =>
      cases phase with
      | ask start tail total =>
          cases answer with
          | ended => exact absurd h (hend _ _ _ _)
          | _ => cases h
      | _ => cases answer <;> cases h
  | _ => cases phase <;> cases h

end ProducerPhase

namespace ConsumerPhase

/-- The phases of a consumer that counts, or that would return a count otherwise. -/
def counts : ConsumerPhase k ω → Bool
  | .lenHead | .lenTail _ | .vacate _ (.len _) | .release (.len _) => true
  | _ => false

theorem counts_enter (r : Ring n k ω) (goal : ConsumerGoal k ω) (head available : UInt64) :
    (enter r goal head available).phase.counts = false := by
  cases goal <;> unfold enter <;> simp only <;> split <;> rfl

theorem counts_finished (r : Ring n k ω) (goal : ReadGoal k ω) (head : UInt64)
    (v : Element k ω) : (finished r goal head v).phase.counts = false := by
  unfold finished
  split <;> rfl

/-- A step that comes to a phase that counts begins to count, loads the head, or stays, if
no count is returned otherwise. -/
theorem step_counts {r : Ring n k ω} {input : ConsumerInput k ω} {phase : ConsumerPhase k ω}
    (hother : ∀ count, phase ≠ .release (.len count))
    (h : (phase.step r input).phase.counts = true) :
    (phase.step r input).phase = .lenHead ∨
      (phase = .lenHead ∧ (phase.step r input).phase = .lenTail r.head) ∨
      (phase.step r input).phase = phase := by
  cases input with
  | proceed =>
      cases phase with
      | lenHead => exact .inr (.inl ⟨rfl, rfl⟩)
      | check goal head =>
          simp only [step, proceed] at h
          split at h
          · rw [counts_enter] at h
            cases h
          · cases h
      | refresh goal head =>
          simp only [step, proceed, counts_enter] at h
          cases h
      | read goal head j into =>
          simp only [step, proceed] at h
          split at h
          · cases h
          · rw [counts_finished] at h
            cases h
      | release result =>
          cases result with
          | len count => exact absurd rfl (hother count)
          | _ => cases h
      | _ => cases h
  | count =>
      cases phase with
      | idle => exact .inl rfl
      | _ => exact .inr (.inr rfl)
  | begin goal =>
      cases phase with
      | idle => cases h
      | _ => exact .inr (.inr rfl)
  | _ =>
      cases phase with
      | hold head => cases h
      | _ => exact .inr (.inr rfl)

/-- Only what counts returns a count. -/
theorem counts_of_len {r : Ring n k ω} {input : ConsumerInput k ω} {phase : ConsumerPhase k ω}
    {count : UInt64} (h : (phase.step r input).result = some (.len count)) :
    input = .proceed ∧ ((∃ head, phase = .lenTail head ∧ count = distance n r.tail head) ∨
      ∃ head, phase = .vacate head (.len count)) := by
  have henter : ∀ (r : Ring n k ω) goal head available,
      (enter r goal head available).result ≠ some (.len count) := by
    intro r goal head available
    cases goal <;> unfold enter <;> simp only <;> split <;> simp
  cases input with
  | proceed =>
      cases phase with
      | lenTail head =>
          cases h
          exact ⟨rfl, .inl ⟨head, rfl, rfl⟩⟩
      | vacate head result =>
          cases h
          exact ⟨rfl, .inr ⟨head, rfl⟩⟩
      | check goal head =>
          simp only [step, proceed] at h
          split at h
          · exact absurd h (henter _ _ _ _)
          · cases h
      | refresh goal head => exact absurd h (henter _ _ _ _)
      | read goal head j into =>
          simp only [step, proceed] at h
          split at h
          · cases h
          · unfold finished at h
            split at h <;> cases h
      | _ => cases h
  | _ => cases phase <;> cases h

end ConsumerPhase

namespace System

/-! ## Between calls that publish or remove -/

/-- A producer that is not about to publish publishes nothing. -/
theorem published_produce {s : System n k ω} (input : ProducerInput k ω)
    (h : ∀ tail result, s.producer ≠ .publish tail result) :
    (s.produce input).published = s.published := by
  simp only [produce]
  unfold publishedAfter
  split
  · next tail result hp => exact absurd hp (h tail result)
  · rfl

/-- A consumer that is not about to store the head removes nothing. -/
theorem removed_consume {s : System n k ω} (input : ConsumerInput k ω)
    (h : ∀ head result, s.consumer ≠ .vacate head result) :
    (s.consume input).removed = s.removed := by
  simp only [consume]
  unfold removedAfter
  split
  · next head result hc => exact absurd hc (h head result)
  · rfl

theorem run_append_singleton (n : SlotCount) (blank : Element k ω)
    (actions : List (Action k ω)) (action : Action k ω) :
    run n blank (actions ++ [action]) = (run n blank actions).act action := by
  rw [run, List.foldl_append]
  rfl

/-- What is removed after a part of a run stays so. -/
theorem length_removed_run_le (n : SlotCount) (blank : Element k ω)
    (before after : List (Action k ω)) :
    (run n blank before).removed.length ≤ (run n blank (before ++ after)).removed.length := by
  induction after using List.reverseRecOn with
  | nil => rw [List.append_nil]
  | append_singleton after action ih =>
      rw [← List.append_assoc, run_append_singleton]
      refine ih.trans ?_
      cases action with
      | produce input => exact Nat.le_refl _
      | consume input => exact (removed_prefix_consume _ input).length_le

/-- The distance of the cursors is the number of elements on the way. -/
theorem Sound.add_toNat_distance {s : System n k ω} {seenHead seenTail : Nat}
    (h : s.Sound seenHead seenTail) :
    s.removed.length + (distance n (n.cursor s.published.length)
      (n.cursor s.removed.length)).toNat = s.published.length := by
  have hle := h.removed_le.trans h.seenTail_le
  have hroom := h.room
  have hseen := h.seenHead_le
  have hpos := n.size_pos
  rw [toNat_distance_cursor n hle (by omega)]
  omega

variable {blank : Element k ω} {actions before : List (Action k ω)} {count : UInt64}

/-! ## The producer -/

/-- The producer's call that counts has loaded the head in the state after `before`, and has
not returned since. -/
def LoadedHead (n : SlotCount) (blank : Element k ω) (actions before : List (Action k ω)) :
    Prop :=
  ∃ middle, actions = before ++ .produce .proceed :: middle ∧
    (run n blank before).producer = .lenHead ∧
    ∀ part, part <+: middle →
      (run n blank (before ++ .produce .proceed :: part)).producer =
        .lenTail (run n blank before).ring.head

/-- The call has not returned after one action more. -/
theorem LoadedHead.snoc (h : LoadedHead n blank actions before) {action : Action k ω}
    (hstill : (run n blank (actions ++ [action])).producer =
      .lenTail (run n blank before).ring.head) :
    LoadedHead n blank (actions ++ [action]) before := by
  obtain ⟨middle, rfl, hload, hsince⟩ := h
  refine ⟨middle ++ [action], by simp, hload, fun part hpart => ?_⟩
  rcases List.prefix_concat_iff.mp hpart with rfl | hpart
  · simpa using hstill
  · exact hsince part hpart

/-- What a producer that counts has done, by its phase. -/
def ProducerCounts (n : SlotCount) (blank : Element k ω) (actions : List (Action k ω)) :
    ProducerPhase k ω → Prop
  | .lenTail head => ∃ before, LoadedHead n blank actions before ∧
      head = (run n blank before).ring.head ∧
      (run n blank actions).published.length = (run n blank before).published.length
  | .publish _ (.len _) => False
  | _ => True

theorem ProducerCounts.of_not_counts {phase : ProducerPhase k ω} (h : phase.counts = false) :
    ProducerCounts n blank actions phase := by
  unfold ProducerCounts
  split
  · cases h
  · cases h
  · trivial

/-- What is known stays so as long as the producer stays where it is. -/
theorem ProducerCounts.still {phase : ProducerPhase k ω} (h : ProducerCounts n blank actions phase)
    {action : Action k ω} (hstill : (run n blank (actions ++ [action])).producer = phase)
    (hpublished : (∀ head, phase = .lenTail head →
      (run n blank (actions ++ [action])).published.length =
        (run n blank actions).published.length)) :
    ProducerCounts n blank (actions ++ [action]) phase := by
  unfold ProducerCounts at h ⊢
  split at h
  · next head =>
    obtain ⟨before, hload, rfl, hlength⟩ := h
    exact ⟨before, hload.snoc hstill, rfl, (hpublished _ rfl).trans hlength⟩
  · exact h
  · trivial

/-- In every run a producer that counts has loaded the head, and published nothing since. -/
theorem run_producerCounts (n : SlotCount) (blank : Element k ω) (actions : List (Action k ω)) :
    ProducerCounts n blank actions (run n blank actions).producer := by
  induction actions using List.reverseRecOn with
  | nil => trivial
  | append_singleton actions action ih =>
      rw [run_append_singleton]
      cases action with
      | consume input =>
          refine ih.still ?_ fun _ _ => ?_ <;> rw [run_append_singleton]
          · rfl
          · exact length_published_consume _ input
      | produce input =>
          change ProducerCounts n blank _
            ((run n blank actions).producer.step (run n blank actions).ring input).phase
          cases hcounts : ((run n blank actions).producer.step (run n blank actions).ring
            input).phase.counts with
          | false => exact .of_not_counts hcounts
          | true =>
              rcases ProducerPhase.step_counts hcounts with hbegun | ⟨rfl, hhead, hloads⟩ |
                hsame
              · rw [hbegun]
                trivial
              · rw [hloads]
                refine ⟨actions, ⟨[], rfl, hhead, fun part hpart => ?_⟩, rfl, ?_⟩
                · rw [List.prefix_nil.mp hpart, run_append_singleton]
                  exact hloads
                · rw [run_append_singleton, act, published_produce _ (by simp [hhead])]
              · rw [hsame]
                refine ih.still ?_ fun head htail => ?_ <;> rw [run_append_singleton, act]
                · exact hsame
                · rw [published_produce _ (by simp [htail])]

/-- A length that the producer is told is the number of elements that were queued when it
loaded the head.  It has published nothing since. -/
theorem run_producer_len {input : ProducerInput k ω}
    (hlen : ((run n blank actions).producer.step (run n blank actions).ring input).result =
      some (.len count)) :
    input = .proceed ∧ (∃ head, (run n blank actions).producer = .lenTail head) ∧
      ∃ before, LoadedHead n blank actions before ∧
        (run n blank before).removed.length + count.toNat =
          (run n blank before).published.length ∧
        (run n blank actions).published.length = (run n blank before).published.length := by
  have hcounts := run_producerCounts n blank actions
  obtain ⟨rfl, ⟨head, hp, rfl⟩ | ⟨tail, hp⟩⟩ := ProducerPhase.counts_of_len hlen
  · refine ⟨rfl, ⟨head, hp⟩, ?_⟩
    rw [hp] at hcounts
    obtain ⟨before, hload, rfl, hlength⟩ := hcounts
    obtain ⟨_, _, hnow⟩ := run_sound n blank actions
    obtain ⟨_, _, hthen⟩ := run_sound n blank before
    refine ⟨before, hload, ?_, hlength⟩
    rw [hnow.tail, hlength, hthen.head]
    exact hthen.add_toNat_distance
  · rw [hp] at hcounts
    exact hcounts.elim

/-! ## The consumer -/

/-- What a consumer that counts knows, by its phase, when `h` elements are removed. -/
def ConsumerCounts (n : SlotCount) (h : Nat) : ConsumerPhase k ω → Prop
  | .lenTail head => head = n.cursor h
  | .vacate _ (.len _) | .release (.len _) => False
  | _ => True

theorem ConsumerCounts.of_not_counts {h : Nat} {phase : ConsumerPhase k ω}
    (hcounts : phase.counts = false) : ConsumerCounts n h phase := by
  unfold ConsumerCounts
  split
  case h_4 => trivial
  all_goals cases hcounts

/-- Of the phases that count none is about to store the head. -/
theorem ConsumerCounts.ne_vacate {h : Nat} {phase : ConsumerPhase k ω}
    (hknows : ConsumerCounts n h phase) (hcounts : phase.counts = true) (head : UInt64)
    (result : ConsumerReturn k ω) : phase ≠ .vacate head result := by
  rintro rfl
  cases result with
  | len count => exact hknows
  | _ => cases hcounts

/-- In every run a consumer that counts has loaded the head as it is. -/
theorem run_consumerCounts (n : SlotCount) (blank : Element k ω) (actions : List (Action k ω)) :
    ConsumerCounts n (run n blank actions).removed.length (run n blank actions).consumer := by
  induction actions using List.reverseRecOn with
  | nil => trivial
  | append_singleton actions action ih =>
      obtain ⟨_, _, hsound⟩ := run_sound n blank actions
      rw [run_append_singleton]
      cases action with
      | produce input => exact ih
      | consume input =>
          rw [act]
          cases hcounts : ((run n blank actions).consume input).consumer.counts with
          | false => exact .of_not_counts hcounts
          | true =>
              have hother : ∀ count, (run n blank actions).consumer ≠ .release (.len count) := by
                intro count hc
                rw [hc] at ih
                exact ih
              rcases ConsumerPhase.step_counts hother hcounts with hbegun | ⟨hhead, hloads⟩ | hsame
              · simp only [consume, hbegun]
                trivial
              · rw [removed_consume _ (by simp [hhead])]
                simp only [consume, hloads]
                exact hsound.head
              · have hconsumer : ((run n blank actions).consume input).consumer =
                    (run n blank actions).consumer := hsame
                rw [hconsumer] at hcounts ⊢
                rwa [removed_consume _ (ih.ne_vacate hcounts)]

/-- A length that the consumer is told is the number of elements that are queued when it
loads the tail, which is its last step. -/
theorem run_consumer_len {input : ConsumerInput k ω}
    (hlen : ((run n blank actions).consumer.step (run n blank actions).ring input).result =
      some (.len count)) :
    input = .proceed ∧ (∃ head, (run n blank actions).consumer = .lenTail head) ∧
      (run n blank actions).removed.length + count.toNat =
        (run n blank actions).published.length := by
  have hcounts := run_consumerCounts n blank actions
  obtain ⟨_, _, hsound⟩ := run_sound n blank actions
  obtain ⟨rfl, ⟨head, hc, rfl⟩ | ⟨head, hc⟩⟩ := ConsumerPhase.counts_of_len hlen
  · rw [hc] at hcounts
    obtain rfl : head = n.cursor _ := hcounts
    refine ⟨rfl, ⟨_, hc⟩, ?_⟩
    rw [hsound.tail]
    exact hsound.add_toNat_distance
  · rw [hc] at hcounts
    exact hcounts.elim

end System

end LockFreeRings.Spsc
