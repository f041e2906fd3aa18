import LockFreeRings.Interleaving
import LockFreeRings.Mpmc.Call
set_option autoImplicit false

/-!
# Transfers between many threads

Producers push all their elements, each trying again while the ring is full, and
consumers pop until all elements have arrived, or until each has its share.  The
steps of their calls are interleaved.  A batch is a loop of single calls, so
threads that work in batches take the same steps.
-/

namespace LockFreeRings.Mpmc

/-- A thread of a transfer, with the call it is in. -/
inductive Worker (α : Type) where
  /-- has to push these elements yet -/
  | producer (call : Option (Call α)) (items : List α)
  /-- has popped these elements, the newest first, and pops as many more; without
  a share it goes on until all have arrived -/
  | consumer (call : Option (Call α)) (share : Option Nat) (got : List α)

/-- What the threads share: the ring, and the number of elements that have
arrived. -/
structure Exchange (n : SlotCount) (α : Type) where
  ring : Ring n α
  arrived : Nat := 0

variable {n : SlotCount} {α : Type}

/-- The next step of a thread, when `total` elements are to arrive. -/
def Worker.step (total : Nat) : Exchange n α → Worker α → Exchange n α × Worker α
  | x, .producer none [] => (x, .producer none [])
  | x, .producer none (v :: vs) => (x, .producer (some (.pushLoad v)) vs)
  | ⟨ring, arrived⟩, .producer (some call) vs =>
    match call.step false ring with
    | (ring, .running call) => (⟨ring, arrived⟩, .producer (some call) vs)
    | (ring, .returned (.full v)) => (⟨ring, arrived⟩, .producer none (v :: vs))
    | (ring, .returned _) => (⟨ring, arrived⟩, .producer none vs)
  | x, .consumer none share got =>
    if (share.getD (total - x.arrived)) = 0 then (x, .consumer none share got)
    else (x, .consumer (some .popLoad) share got)
  | ⟨ring, arrived⟩, .consumer (some call) share got =>
    match call.step false ring with
    | (ring, .running call) => (⟨ring, arrived⟩, .consumer (some call) share got)
    | (ring, .returned (.popped v)) =>
      (⟨ring, arrived + 1⟩, .consumer none (share.map (· - 1)) (v :: got))
    | (ring, .returned _) => (⟨ring, arrived⟩, .consumer none share got)

/-- Whether a thread is between calls. -/
def Worker.isResting : Worker α → Bool
  | .producer none [] => true
  | .consumer none _ _ => true
  | _ => false

/-- What a thread has popped, in order. -/
def Worker.received : Worker α → List α
  | .producer _ _ => []
  | .consumer _ _ got => got.reverse

/-- Moves the elements of each producer through a ring; the consumers are given
by their shares.  Gives the ring and what each consumer popped.  In every few
rounds some call makes progress, so the rounds provided are enough. -/
def transfer (n : SlotCount) (blank : α) (items : List (List α)) (shares : List (Option Nat)) :
    Ring n α × List (List α) :=
  let total := items.flatten.length
  let producers := items.map fun vs => Worker.producer none vs
  let consumers := shares.map fun share => Worker.consumer none share []
  let done := fun (x : Exchange n α) (ws : List (Worker α)) =>
    x.arrived = total && ws.all Worker.isResting
  let (x, ws) := manyRounds (Worker.step total) done (64 * (total + 1))
    { ring := Ring.new n blank } (producers ++ consumers)
  (x.ring, (ws.drop items.length).map Worker.received)

/-! ## What arrived -/

/-- An element with its producer and its place among that producer's elements. -/
structure Tagged where
  producer : Nat
  index : Nat
  value : Int
  deriving DecidableEq, Repr

/-- The elements of each producer with their tags. -/
def tag (items : List (List Int)) : List (List Tagged) :=
  items.zipIdx.map fun (vs, producer) =>
    vs.zipIdx.map fun (v, index) => ⟨producer, index, v⟩

/-- The elements of one producer among those received, by their places. -/
def sentBy (producer : Nat) (received : List (List Tagged)) : List Int :=
  let own := received.flatten.filter (·.producer = producer)
  (own.mergeSort fun a b => a.index ≤ b.index).map (·.value)

/-- Whether one consumer received each producer's elements in the order in which
they were pushed. -/
def isInOrder (received : List Tagged) : Bool :=
  match received with
  | [] => true
  | v :: vs => vs.all (fun w => w.producer ≠ v.producer || v.index < w.index) && isInOrder vs

end LockFreeRings.Mpmc
