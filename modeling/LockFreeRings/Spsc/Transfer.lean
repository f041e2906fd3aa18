import LockFreeRings.Interleaving
import LockFreeRings.Spsc.Producer
import LockFreeRings.Spsc.Consumer
set_option autoImplicit false

/-!
# Transfers between two threads

The producer pushes all its elements in one of four manners, trying again while
the ring is full, and the consumer takes them out in one of four manners until
all have arrived.  The steps of the two are interleaved.
-/

namespace LockFreeRings.Spsc

/-- How the producer pushes. -/
inductive PushManner where
  | one
  /-- batches of at most this size -/
  | batch (size : Nat)
  /-- streams that ask for at most this many elements a call -/
  | stream (limit : Option Nat)
  /-- held slots -/
  | slot
  deriving DecidableEq, Repr

/-- How the consumer takes out. -/
inductive PopManner where
  | one
  | batch (size : UInt64)
  /-- held slots, from which the element is moved out -/
  | take
  /-- held slots, in which the element is looked at and ended -/
  | release
  deriving DecidableEq, Repr

/-- One of the two threads. -/
inductive Worker (k : Nat) (ω : Type) where
  /-- has these elements to push, and may give so many to the stream it is in -/
  | producer (manner : PushManner) (phase : ProducerPhase k ω) (items : List (Element k ω))
      (allowance : Option Nat)
  /-- has taken out these elements, the newest first, and has `looked` at the
  element of the slot it holds -/
  | consumer (manner : PopManner) (phase : ConsumerPhase k ω) (looked : Bool)
      (got : List (Element k ω))

/-- What the threads share: the ring, and the number of elements that have
arrived. -/
structure Exchange (n : SlotCount) (k : Nat) (ω : Type) where
  ring : Ring n k ω
  arrived : Nat := 0

variable {n : SlotCount} {k : Nat} {ω : Type}

/-- What a producer does next. -/
def PushManner.input (manner : PushManner) (phase : ProducerPhase k ω)
    (items : List (Element k ω)) (allowance : Option Nat) : ProducerInput k ω :=
  match phase, items with
  | .idle, [] => .proceed
  | .idle, v :: vs =>
    match manner with
    | .one => .begin (.one v)
    | .batch size => .begin (.batch ((v :: vs).take size))
    | .stream _ => .begin .stream
    | .slot => .begin .slot
  | .ask _ _ _, [] => .answer .ended
  | .ask _ _ _, v :: _ => if allowance = some 0 then .answer .ended else .answer (.item v)
  | .hold _, [] => .abandon
  | .hold _, v :: _ => .write v
  | _, _ => .proceed

/-- How many elements a producer's input and its return use up. -/
def usedUp (input : ProducerInput k ω) (result : Option (ProducerReturn k ω)) : Nat :=
  match input, result with
  | .answer (.item _), _ => 1
  | .write _, _ => 1
  | _, some .pushed => 1
  | _, some (.pushedMany count) => count
  | _, _ => 0

/-- What a consumer does next, when so many elements are still to arrive. -/
def PopManner.input (manner : PopManner) (blank : Element k ω) (phase : ConsumerPhase k ω)
    (missing : Nat) (looked : Bool) : ConsumerInput k ω :=
  match phase with
  | .idle =>
    if missing = 0 then .proceed
    else
      match manner with
      | .one => .begin (.one blank)
      | .batch size => .begin (.batch size blank)
      | .take | .release => .begin .slot
  | .hold _ =>
    if manner = .take then .take blank
    else if looked then .release
    else .look blank
  | _ => .proceed

/-- The elements that a consumer's return brings. -/
def brought : Option (ConsumerReturn k ω) → List (Element k ω)
  | some (.popped v) => [v]
  | some (.poppedMany vs) => vs
  | some (.taken v) => [v]
  | some (.seen v) => [v]
  | _ => []

/-- How many elements have arrived with a consumer's return: an element that was
looked at arrives when its slot is released. -/
def arrivals : Option (ConsumerReturn k ω) → Nat
  | some (.popped _) => 1
  | some (.poppedMany vs) => vs.length
  | some (.taken _) => 1
  | some .released => 1
  | _ => 0

/-- Whether a consumer has looked at the element of the slot it holds, after a
return. -/
def hasLooked (before : Bool) : Option (ConsumerReturn k ω) → Bool
  | some (.seen _) => true
  | some .released => false
  | _ => before

/-- The next step of a thread, when `total` elements are to arrive. -/
def Worker.step (blank : Element k ω) (total : Nat) :
    Exchange n k ω → Worker k ω → Exchange n k ω × Worker k ω
  | ⟨ring, arrived⟩, .producer manner phase items allowance =>
    let input := manner.input phase items allowance
    let allowance := match input, manner with
      | .begin _, .stream limit => limit
      | .answer (.item _), _ => allowance.map (· - 1)
      | _, _ => allowance
    let ⟨ring, phase, result⟩ := phase.step ring input
    (⟨ring, arrived⟩, .producer manner phase (items.drop (usedUp input result)) allowance)
  | ⟨ring, arrived⟩, .consumer manner phase looked got =>
    let ⟨ring, phase, result⟩ :=
      phase.step ring (manner.input blank phase (total - arrived) looked)
    (⟨ring, arrived + arrivals result⟩,
      .consumer manner phase (hasLooked looked result) ((brought result).reverse ++ got))

/-- Whether a thread is between calls. -/
def Worker.isResting : Worker k ω → Bool
  | .producer _ .idle _ _ => true
  | .consumer _ .idle _ _ => true
  | _ => false

/-- What a thread has taken out, in order. -/
def Worker.received : Worker k ω → List (Element k ω)
  | .producer _ _ _ _ => []
  | .consumer _ _ _ got => got.reverse

/-- Moves elements through a ring.  Gives the ring and what arrived.  In every
few rounds one of the two threads makes progress, so the rounds provided are
enough. -/
def transfer (n : SlotCount) (blank : Element k ω) (push : PushManner) (pop : PopManner)
    (items : List (Element k ω)) : Ring n k ω × List (Element k ω) :=
  let total := items.length
  let done := fun (x : Exchange n k ω) (ws : List (Worker k ω)) =>
    x.arrived = total && ws.all Worker.isResting
  let (x, ws) := manyRounds (Worker.step blank total) done ((16 * k + 64) * (total + 1))
    { ring := Ring.new n blank } [.producer push .idle items none, .consumer pop .idle false []]
  (x.ring, (ws.map Worker.received).flatten)

end LockFreeRings.Spsc
