import LockFreeRings.Proofs.Spsc.Room
import LockFreeRings.Proofs.Spsc.Deliveries
set_option autoImplicit false

/-!
# A length is a promise to its owner

What a handle is told of the length is the exact number of queued elements at one instant of
the call.  The instant has passed when the handle learns of it; but since then the other side
can only have made things better, so the handle may count on what it was told for as long as
it does nothing itself.

`RoomTold` and `ElementsTold` say what a length means to the producer and to the consumer, and
`run_promises` that every length in every run means it.
-/

namespace LockFreeRings.Spsc.System

variable {n : SlotCount} {k : Nat} {ω : Type} {blank : Element k ω}
  {actions : List (Action k ω)} {count : UInt64}

/-- What it means that the producer, after the actions and one step more with `input`, is
told that `count` elements are queued. -/
structure RoomTold (n : SlotCount) (blank : Element k ω) (actions : List (Action k ω))
    (input : ProducerInput k ω) (count : UInt64) : Prop where
  /-- so many there were when the call loaded the head -/
  exact : ∃ before, LoadedHead n blank actions before ∧
    (run n blank before).removed.length + count.toNat = (run n blank before).published.length
  /-- one slot is not used -/
  le : count.toNat ≤ n.size - 1
  /-- calls that append as many elements as fit besides succeed, whatever the consumer does -/
  promise : ∀ calls later, count.toNat + Pushing.total calls ≤ n.size - 1 →
    later.filterMap Action.produces? = Pushing.inputs calls →
      ((run n blank actions).produce input).produced later =
        calls.map fun call => call.1.success
  /-- if the ring is not full, the next push succeeds -/
  notFull : count ≠ (run n blank actions).ring.capacity → ∀ v more later,
    later.filterMap Action.produces? = Pushing.inputs [(.one v, more)] →
      ((run n blank actions).produce input).produced later = [.pushed]

/-- What it means that the consumer, after the actions and one step more with `input`, is
told that `count` elements are queued. -/
structure ElementsTold (n : SlotCount) (blank : Element k ω) (actions : List (Action k ω))
    (input : ConsumerInput k ω) (count : UInt64) : Prop where
  /-- so many there are when the call loads the tail, which it does with this step -/
  exact : (∃ head, (run n blank actions).consumer = .lenTail head) ∧
    (run n blank actions).removed.length + count.toNat = (run n blank actions).published.length
  /-- one slot is not used -/
  le : count.toNat ≤ n.size - 1
  /-- calls that ask for as many elements deliver all of them, whatever the producer does -/
  promise : ∀ calls later, Popping.total calls ≤ count.toNat →
    later.filterMap Action.consumes? = Popping.inputs calls →
      List.Forall₂ Popping.Delivers (calls.map Prod.fst)
        (((run n blank actions).consume input).consumed later)
  /-- if the ring is not empty, the next pop delivers -/
  notEmpty : count ≠ 0 → ∀ into more later,
    later.filterMap Action.consumes? = Popping.inputs [(.one into, more)] →
      ∃ v, ((run n blank actions).consume input).consumed later = [.popped v]

/-- What the handles are told of the length in a run. -/
structure Promises (n : SlotCount) (blank : Element k ω) (actions : List (Action k ω)) :
    Prop where
  producer : ∀ input count,
    ((run n blank actions).producer.step (run n blank actions).ring input).result =
      some (.len count) → RoomTold n blank actions input count
  consumer : ∀ input count,
    ((run n blank actions).consumer.step (run n blank actions).ring input).result =
      some (.len count) → ElementsTold n blank actions input count

/-- Elements on the way fit. -/
theorem le_of_add_eq {count : Nat} (actions : List (Action k ω))
    (h : (run n blank actions).removed.length + count = (run n blank actions).published.length) :
    count ≤ n.size - 1 := by
  obtain ⟨-, hfits, -⟩ := run_handover n blank actions
  omega

/-- A producer that has just been told the length is between calls and has the room. -/
theorem due_of_len {input : ProducerInput k ω}
    (hlen : ((run n blank actions).producer.step (run n blank actions).ring input).result =
      some (.len count)) {calls : List (Pushing k ω × Nat)}
    (htotal : count.toNat + Pushing.total calls ≤ n.size - 1) :
    ((run n blank actions).produce input).Due calls 0
      (calls.map fun call => call.1.success) := by
  obtain ⟨rfl, ⟨head, hp⟩, before, ⟨middle, rfl, -⟩, hexact, hlength⟩ := run_producer_len hlen
  have hmore := length_removed_run_le n blank before (.produce .proceed :: middle)
  generalize run n blank (before ++ .produce .proceed :: middle) = s at *
  rw [produce_of_lenTail hp]
  refine .inl ⟨rfl, ?_, rfl⟩
  simp only [ahead, List.length_nil]
  omega

/-- A consumer that has just been told the length is between calls and has the elements. -/
theorem coming_of_len {input : ConsumerInput k ω}
    (hlen : ((run n blank actions).consumer.step (run n blank actions).ring input).result =
      some (.len count)) {calls : List (Popping k ω × Nat)}
    (htotal : Popping.total calls ≤ count.toNat) :
    ((run n blank actions).consume input).Coming calls 0 (calls.map Prod.fst) := by
  obtain ⟨rfl, ⟨head, hc⟩, hexact⟩ := run_consumer_len hlen
  rw [consume_of_lenTail hc]
  refine .inl ⟨rfl, ?_, rfl⟩
  simp only [queued]
  omega

/-- Whatever the two handles do and in whatever order their steps come, a length is exact at
one instant of the call, and its owner may count on it. -/
theorem run_promises (n : SlotCount) (blank : Element k ω) (actions : List (Action k ω)) :
    Promises n blank actions where
  producer input count hlen := by
    obtain ⟨-, -, before, hload, hexact, -⟩ := run_producer_len hlen
    have hle := le_of_add_eq before hexact
    have hsound := (run_sound n blank (actions ++ [.produce input]))
    rw [run_append_singleton, act] at hsound
    have hpromise : ∀ calls later, count.toNat + Pushing.total calls ≤ n.size - 1 →
        later.filterMap Action.produces? = Pushing.inputs calls →
          ((run n blank actions).produce input).produced later =
            calls.map fun call => call.1.success :=
      fun calls later htotal hinputs => (due_of_len hlen htotal).produced_eq hsound hinputs
    refine ⟨⟨before, hload, hexact⟩, hle, hpromise, fun hnotFull v more later => ?_⟩
    refine hpromise [(.one v, more)] later ?_
    have hne : count.toNat ≠ n.size - 1 := by
      intro heq
      exact hnotFull (UInt64.toNat_inj.mp (heq.trans n.toNat_mask.symm))
    simp only [Pushing.total, Pushing.amount, List.map_cons, List.map_nil, List.sum_cons,
      List.sum_nil]
    omega
  consumer input count hlen := by
    obtain ⟨-, hload, hexact⟩ := run_consumer_len hlen
    have hle := le_of_add_eq actions hexact
    have hsound := (run_sound n blank (actions ++ [.consume input]))
    rw [run_append_singleton, act] at hsound
    have hpromise : ∀ calls later, Popping.total calls ≤ count.toNat →
        later.filterMap Action.consumes? = Popping.inputs calls →
          List.Forall₂ Popping.Delivers (calls.map Prod.fst)
            (((run n blank actions).consume input).consumed later) :=
      fun calls later htotal hinputs => (coming_of_len hlen htotal).delivered hsound hinputs
    refine ⟨⟨hload, hexact⟩, hle, hpromise, fun hnotEmpty into more later hinputs => ?_⟩
    have hdelivered := hpromise [(.one into, more)] later (toNat_pos_of_ne_zero hnotEmpty) hinputs
    generalize ((run n blank actions).consume input).consumed later = results at hdelivered ⊢
    obtain ⟨result, rest, hresult, hrest, rfl⟩ := List.forall₂_cons_left_iff.mp hdelivered
    obtain rfl := List.forall₂_nil_left_iff.mp hrest
    cases result with
    | popped v => exact ⟨v, rfl⟩
    | _ => exact hresult.elim

/-- Three elements are pushed, and then the producer asks for the length.  Between its two loads
the consumer takes the first element out and asks too. -/
def asking : List (Action 1 Nat) :=
  .flatten
    [.produce (.begin (.one #v[17])) :: .replicate 5 (.produce .proceed),
      .produce (.begin (.batch [#v[18], #v[19]])) :: .replicate 9 (.produce .proceed),
      [.produce .count, .produce .proceed],
      .consume (.begin (.one #v[16])) :: .replicate 6 (.consume .proceed),
      [.consume .count, .consume .proceed]]

/-- In a ring of eight slots the producer is told three, so that a push and a batch of three
succeed, and the consumer two, so that a pop and a batch of one deliver. -/
theorem asking_promises :
    Promises ⟨3, by decide, by decide⟩ #v[0] asking ∧
      ((run ⟨3, by decide, by decide⟩ #v[0] asking).producer.step
        (run ⟨3, by decide, by decide⟩ #v[0] asking).ring .proceed).result = some (.len 3) ∧
      (∀ later, later.filterMap Action.produces? =
          Pushing.inputs [(.one #v[20], 0), (.batch [#v[21], #v[22], #v[23]], 3)] →
        ((run ⟨3, by decide, by decide⟩ #v[0] asking).produce .proceed).produced later =
          [.pushed, .pushedMany 3]) ∧
      ((run ⟨3, by decide, by decide⟩ #v[0] asking).consumer.step
        (run ⟨3, by decide, by decide⟩ #v[0] asking).ring .proceed).result = some (.len 2) ∧
      ∀ later, later.filterMap Action.consumes? =
          Popping.inputs [(.one #v[0], 0), (.batch 1 #v[0], 2)] →
        ∃ v w, ((run ⟨3, by decide, by decide⟩ #v[0] asking).consume .proceed).consumed later =
          [.popped v, .poppedMany [w]] := by
  have hroom : ((run ⟨3, by decide, by decide⟩ #v[0] asking).producer.step
      (run ⟨3, by decide, by decide⟩ #v[0] asking).ring .proceed).result = some (.len 3) := by
    decide +kernel
  have helements : ((run ⟨3, by decide, by decide⟩ #v[0] asking).consumer.step
      (run ⟨3, by decide, by decide⟩ #v[0] asking).ring .proceed).result = some (.len 2) := by
    decide +kernel
  have hpromises := run_promises ⟨3, by decide, by decide⟩ #v[0] asking
  refine ⟨hpromises, hroom,
    fun later => (hpromises.producer _ _ hroom).promise _ later (by decide), helements,
    fun later hinputs => ?_⟩
  have hdelivered := (hpromises.consumer _ _ helements).promise _ later (by decide) hinputs
  generalize ((run ⟨3, by decide, by decide⟩ #v[0] asking).consume .proceed).consumed later =
    results at hdelivered ⊢
  obtain ⟨first, rest, hfirst, hrest, rfl⟩ := List.forall₂_cons_left_iff.mp hdelivered
  obtain ⟨second, none, hsecond, hnone, rfl⟩ := List.forall₂_cons_left_iff.mp hrest
  obtain rfl := List.forall₂_nil_left_iff.mp hnone
  cases first with
  | popped v =>
    cases second with
    | poppedMany vs =>
      obtain ⟨w, rfl⟩ := List.length_eq_one_iff.mp hsecond
      exact ⟨v, w, rfl⟩
    | _ => exact hsecond.elim
  | _ => exact hfirst.elim

end LockFreeRings.Spsc.System
