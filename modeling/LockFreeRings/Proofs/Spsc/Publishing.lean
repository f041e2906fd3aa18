import LockFreeRings.Proofs.Spsc.Lengths
set_option autoImplicit false

/-!
# What is published at once

A batch is published with one store of the tail, behind all its elements.  Every other call
that publishes does so with a single one: it has stored one element or committed the slot it
held (`ProducerPhase.step_publish`), so the tail is stored one position on
(`System.PublishesOne`).
-/

namespace LockFreeRings.Spsc

variable {n : SlotCount} {k : Nat} {ω : Type}

namespace ProducerPhase

/-- Whether elements are appended that are published together. -/
def batching : ProducerPhase k ω → Bool
  | .check .stream _ _ _ | .refresh .stream _ _ _ | .copy _ _ _ _ | .ask _ _ _
  | .store (.batch _ _) _ _ _ | .store (.stream _ _) _ _ _
  | .publish _ (.pushedMany _) | .publish _ (.streamed _ _) => true
  | _ => false

theorem endStream_ne_publish {r : Ring n k ω} {start last tail : UInt64} {count : Nat}
    {ended : Bool} {result : ProducerReturn k ω}
    (h : (publish tail result : ProducerPhase k ω).batching = false) :
    (endStream r start last count ended).phase ≠ .publish tail result := by
  unfold endStream
  split
  · simp
  · rintro ⟨⟩
    cases h

theorem enter_ne_publish {r : Ring n k ω} {goal : ProducerGoal k ω} {start last room tail : UInt64}
    {count : Nat} {result : ProducerReturn k ω}
    (h : (publish tail result : ProducerPhase k ω).batching = false) :
    (enter r goal start last count room).phase ≠ .publish tail result := by
  unfold enter
  split <;> split <;> first | exact endStream_ne_publish h | simp

/-- Outside a batch the tail is stored when one element is, or a slot was committed. -/
theorem step_publish {r : Ring n k ω} {input : ProducerInput k ω} {phase : ProducerPhase k ω}
    {tail : UInt64} {result : ProducerReturn k ω}
    (hsingle : (publish tail result : ProducerPhase k ω).batching = false)
    (h : (phase.step r input).phase = .publish tail result) :
    phase = .commit ∨ (∃ v last j, input = .proceed ∧ phase = .store .one v last j ∧ ¬j < k) ∨
      phase = .publish tail result := by
  cases input with
  | proceed =>
      cases phase with
      | commit => exact .inl rfl
      | check goal start last count =>
          simp only [step, proceed] at h
          split at h
          · exact absurd h (enter_ne_publish hsingle)
          · cases h
      | refresh goal start last count => exact absurd h (enter_ne_publish hsingle)
      | store goal v last j =>
          simp only [step, proceed] at h
          split at h
          · cases h
          · next hj =>
            cases goal with
            | one => exact .inr (.inl ⟨v, last, j, rfl, rfl, hj⟩)
            | batch rest count =>
                cases rest with
                | nil =>
                    cases h
                    cases hsingle
                | cons v rest => cases h
            | stream start count => cases h
            | slot => cases h
      | _ => cases h
  | answer answer =>
      cases phase with
      | ask start last count =>
          cases answer with
          | ended => exact absurd h (endStream_ne_publish hsingle)
          | _ => cases h
      | _ => cases answer <;> exact .inr (.inr h)
  | _ => cases phase <;> first | exact .inr (.inr h) | cases h

end ProducerPhase

namespace System

variable {s : System n k ω} {seenHead seenTail : Nat}

/-- Coming to store the tail without having stored an element leaves the draft. -/
theorem draftAfter_publish {input : ProducerInput k ω} {tail : UInt64}
    {result : ProducerReturn k ω}
    (h : s.producer = .commit ∨ s.producer = .publish tail result) :
    s.draftAfter input (.publish tail result) = s.draft := by
  rcases h with h | h <;> cases input <;> simp [draftAfter, h]

/-- Outside a batch, what is about to be published is one element. -/
def PublishesOne (s : System n k ω) : Prop :=
  ∀ tail result, s.producer = .publish tail result → s.producer.batching = false →
    s.draft.length = 1

theorem PublishesOne.act (hone : s.PublishesOne) (h : s.Sound seenHead seenTail)
    (action : Action k ω) : (s.act action).PublishesOne := by
  cases action with
  | consume input => exact hone
  | produce input =>
      intro tail result hphase hsingle
      have hknows := h.producer
      have hstep : (s.producer.step s.ring input).phase = .publish tail result := hphase
      rw [hphase] at hsingle
      show (s.draftAfter input (s.producer.step s.ring input).phase).length = 1
      rw [hstep]
      rcases ProducerPhase.step_publish hsingle hstep with hp | ⟨v, last, j, rfl, hp, hj⟩ | hp
      · rw [hp] at hknows
        rw [draftAfter_publish (.inl hp)]
        exact hknows
      · rw [hp] at hknows
        obtain ⟨-, -, hdraft, -⟩ := hknows
        simp [draftAfter, hp, hj, hdraft]
      · rw [draftAfter_publish (.inr hp)]
        exact hone tail result hp (by rwa [hp])

theorem run_publishesOne (n : SlotCount) (blank : Element k ω) (actions : List (Action k ω)) :
    (run n blank actions).PublishesOne := by
  induction actions using List.reverseRecOn with
  | nil =>
      intro tail result hphase
      cases hphase
  | append_singleton actions action ih =>
      obtain ⟨_, _, h⟩ := run_sound n blank actions
      rw [run_append_singleton]
      exact ih.act h action

end System

end LockFreeRings.Spsc
