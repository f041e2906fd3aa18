import LockFreeRings.Proofs.Spsc.Producing
import LockFreeRings.Proofs.Spsc.Consuming
set_option autoImplicit false

/-!
# What is removed is what was published

The result about two handles that share a ring (`System.run_handover`): whatever
calls they make and in whatever order their steps come, the elements removed are a
prefix of the elements published, and those in between fit and are in their
slots.  It is read off the invariant, which every run keeps (`run_sound`).
-/

namespace LockFreeRings.Spsc.System

variable {n : SlotCount} {k : Nat} {ω : Type}

/-- Every action keeps the invariant. -/
theorem Sound.act {s : System n k ω} {seenHead seenTail : Nat} (h : s.Sound seenHead seenTail)
    (action : Action k ω) : ∃ c e, (s.act action).Sound c e := by
  cases action with
  | produce input =>
      obtain ⟨c, hc⟩ := h.produce input
      exact ⟨c, seenTail, hc⟩
  | consume input =>
      obtain ⟨e, he⟩ := h.consume input
      exact ⟨seenHead, e, he⟩

/-- Every sequence of actions keeps it. -/
theorem foldl_sound {s : System n k ω} (h : ∃ c e, s.Sound c e) (actions : List (Action k ω)) :
    ∃ c e, (actions.foldl act s).Sound c e := by
  induction actions generalizing s with
  | nil => exact h
  | cons action actions ih =>
      obtain ⟨c, e, hs⟩ := h
      exact ih (hs.act action)

/-- The invariant holds after every run. -/
theorem run_sound (n : SlotCount) (blank : Element k ω) (actions : List (Action k ω)) :
    ∃ c e, (run n blank actions).Sound c e :=
  foldl_sound ⟨0, 0, .start n blank⟩ actions

/-- Elements are removed in the order in which they were published, as they were
stored or edited since.  There are never more of them on the way than one less
than the slot count; the cursors say how many, and they are in their slots. -/
theorem run_handover (n : SlotCount) (blank : Element k ω) (actions : List (Action k ω)) :
    (run n blank actions).removed <+: (run n blank actions).published ∧
      (run n blank actions).published.length ≤
        (run n blank actions).removed.length + (n.size - 1) ∧
      (run n blank actions).ring.tail = n.cursor (run n blank actions).published.length ∧
      (run n blank actions).ring.head = n.cursor (run n blank actions).removed.length ∧
      ∀ i v, (run n blank actions).removed.length ≤ i →
        (run n blank actions).published[i]? = some v →
          (run n blank actions).ring.read (n.cursor i) = v := by
  obtain ⟨c, e, h⟩ := run_sound n blank actions
  have hroom := h.room
  have hseen := h.seenHead_le
  exact ⟨h.in_order, by omega, h.tail, h.head, fun i v hi hv => h.read_published hi hv⟩

/-- An element is pushed, and the consumer holds its slot and edits it while two more are pushed
as a batch.  It takes the edited element and pops one of the batch. -/
def relay : List (Action 1 Nat) :=
  .flatten
    [.produce (.begin (.one #v[11])) :: .replicate 5 (.produce .proceed),
      .consume (.begin .slot) :: .replicate 3 (.consume .proceed),
      .produce (.begin (.batch [#v[12], #v[13]])) :: .replicate 4 (.produce .proceed),
      .consume (.editWord 0 23) :: .replicate 5 (.produce .proceed),
      .consume (.take #v[10]) :: .replicate 4 (.consume .proceed),
      .consume (.begin (.one #v[10])) :: .replicate 6 (.consume .proceed)]

/-- Two elements have arrived in order, the first one as it was edited, and one is on the way. -/
theorem relay_handover :
    (run ⟨2, by decide, by decide⟩ #v[0] relay).removed <+:
        (run ⟨2, by decide, by decide⟩ #v[0] relay).published ∧
      (run ⟨2, by decide, by decide⟩ #v[0] relay).removed = [#v[23], #v[12]] ∧
      (run ⟨2, by decide, by decide⟩ #v[0] relay).published = [#v[23], #v[12], #v[13]] :=
  ⟨(run_handover ⟨2, by decide, by decide⟩ #v[0] relay).1, by decide +kernel, by decide +kernel⟩

end LockFreeRings.Spsc.System
