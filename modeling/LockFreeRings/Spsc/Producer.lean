import LockFreeRings.Spsc.Ring
set_option autoImplicit false

/-!
# The producer in steps

A call of the producer, taken apart into its accesses to memory: loading its own
cursor, looking at its copy of the head, loading the head, storing one word of a
slot, storing its cursor.  Between two steps of the producer any number of steps
of the consumer may happen.

Some phases wait for the caller: an iterator has to answer, a copy has to be
made, a held slot has to be filled and committed or abandoned.  What the caller
does is an input; the other phases go on by themselves.
-/

namespace LockFreeRings.Spsc

/-- What a call of the producer is to do. -/
inductive ProducerGoal (k : Nat) (ω : Type) where
  /-- append an element -/
  | one (v : Element k ω)
  /-- append copies of elements -/
  | batch (vs : List (Element k ω))
  /-- append what an iterator answers -/
  | stream
  /-- hold the next slot -/
  | slot

/-- How much room a call asks for. -/
def ProducerGoal.want {k : Nat} {ω : Type} : ProducerGoal k ω → UInt64
  | .batch vs => Ring.sliceLength vs
  | _ => 1

/-- What a call of the producer returns. -/
inductive ProducerReturn (k : Nat) (ω : Type) where
  | pushed
  /-- the ring was full; the element comes back -/
  | full (v : Element k ω)
  | pushedMany (count : Nat)
  /-- making a copy failed -/
  | copyFailed
  /-- how many elements were appended, and whether the iterator had no more -/
  | streamed (count : Nat) (ended : Bool)
  /-- the iterator failed -/
  | streamFailed
  | noSlot
  | committed
  | abandoned
  | len (count : UInt64)
  deriving DecidableEq

/-- What a stored element is part of, and what comes after it. -/
inductive StoreGoal (k : Nat) (ω : Type) where
  | one
  /-- the elements to come and the number of those before -/
  | batch (rest : List (Element k ω)) (count : Nat)
  /-- the first position and the number of elements before -/
  | stream (start : UInt64) (count : Nat)
  /-- the element of a held slot, to be published at once -/
  | slot

/-- Where the producer is. -/
inductive ProducerPhase (k : Nat) (ω : Type) where
  /-- between calls -/
  | idle
  /-- load the tail -/
  | load (goal : ProducerGoal k ω)
  /-- look at the copy of the head; `start` and `count` are those of a stream -/
  | check (goal : ProducerGoal k ω) (start tail : UInt64) (count : Nat)
  /-- load the head -/
  | refresh (goal : ProducerGoal k ω) (start tail : UInt64) (count : Nat)
  /-- a copy of `v` has to be made -/
  | copy (v : Element k ω) (rest : List (Element k ω)) (tail : UInt64) (count : Nat)
  /-- the iterator has to answer -/
  | ask (start tail : UInt64) (count : Nat)
  /-- store word `j` of `v` and those after it -/
  | store (goal : StoreGoal k ω) (v : Element k ω) (tail : UInt64) (j : Nat)
  /-- store the tail -/
  | publish (tail : UInt64) (result : ProducerReturn k ω)
  /-- a slot is held -/
  | hold (tail : UInt64)
  /-- load the tail, to publish the held slot -/
  | commit
  /-- load the head, to count the elements -/
  | lenHead
  /-- load the tail and subtract -/
  | lenTail (head : UInt64)

/-- What the caller does. -/
inductive ProducerInput (k : Nat) (ω : Type) where
  /-- nothing: the producer goes on by itself -/
  | proceed
  | begin (goal : ProducerGoal k ω)
  /-- asks how many elements are queued -/
  | count
  | copyFails
  | answer (answer : Ring.Pull (Element k ω))
  /-- stores a word in the held slot -/
  | setWord (j : Fin k) (w : ω)
  /-- stores an element in the held slot and publishes it -/
  | write (v : Element k ω)
  /-- publishes the held slot -/
  | commit
  | abandon

/-- What a step leaves: the memory, the phase, and what was returned if a call
ended. -/
structure ProducerStep (n : SlotCount) (k : Nat) (ω : Type) where
  ring : Ring n k ω
  phase : ProducerPhase k ω
  result : Option (ProducerReturn k ω) := none

namespace ProducerPhase

variable {n : SlotCount} {k : Nat} {ω : Type}

/-- A stream ends: what was appended is published, if it is something. -/
def endStream (r : Ring n k ω) (start tail : UInt64) (count : Nat) (ended : Bool) :
    ProducerStep n k ω :=
  if tail = start then ⟨r, .idle, some (.streamed count ended)⟩
  else ⟨r, .publish tail (.streamed count ended), none⟩

/-- The room before `tail` is known. -/
def enter (r : Ring n k ω) (goal : ProducerGoal k ω) (start tail : UInt64) (count : Nat)
    (room : UInt64) : ProducerStep n k ω :=
  match goal with
  | .one v =>
    if room = 0 then ⟨r, .idle, some (.full v)⟩ else ⟨r, .store .one v tail 0, none⟩
  | .batch vs =>
    match vs.take (min room.toNat vs.length) with
    | [] => ⟨r, .idle, some (.pushedMany 0)⟩
    | v :: rest => ⟨r, .copy v rest tail 0, none⟩
  | .stream =>
    if room = 0 then endStream r start tail count false else ⟨r, .ask start tail count, none⟩
  | .slot => if room = 0 then ⟨r, .idle, some .noSlot⟩ else ⟨r, .hold tail, none⟩

/-- All words of an element are stored in the slot of `tail`. -/
def stored (r : Ring n k ω) (goal : StoreGoal k ω) (tail : UInt64) : ProducerStep n k ω :=
  match goal with
  | .one => ⟨r, .publish (next n tail) .pushed, none⟩
  | .batch [] count => ⟨r, .publish (next n tail) (.pushedMany (count + 1)), none⟩
  | .batch (v :: rest) count => ⟨r, .copy v rest (next n tail) (count + 1), none⟩
  | .stream start count => ⟨r, .check .stream start (next n tail) (count + 1), none⟩
  | .slot => ⟨r, .commit, none⟩

/-- The next step of a producer that goes on by itself; where it waits for the
caller, nothing happens. -/
def proceed (r : Ring n k ω) : ProducerPhase k ω → ProducerStep n k ω
  | .idle => ⟨r, .idle, none⟩
  | .load goal => ⟨r, .check goal r.tail r.tail 0, none⟩
  | .check goal start tail count =>
    if goal.want ≤ r.knownRoom tail then enter r goal start tail count (r.knownRoom tail)
    else ⟨r, .refresh goal start tail count, none⟩
  | .refresh goal start tail count =>
    enter r.refreshHead goal start tail count (r.refreshHead.knownRoom tail)
  | .copy v rest tail count => ⟨r, .store (.batch rest count) v tail 0, none⟩
  | .ask start tail count => ⟨r, .ask start tail count, none⟩
  | .store goal v tail j =>
    if h : j < k then ⟨r.writeWord tail ⟨j, h⟩ v[j], .store goal v tail (j + 1), none⟩
    else stored r goal tail
  | .publish tail result => ⟨r.publish tail, .idle, some result⟩
  | .hold tail => ⟨r, .hold tail, none⟩
  | .commit => ⟨r, .publish (next n r.tail) .committed, none⟩
  | .lenHead => ⟨r, .lenTail r.head, none⟩
  | .lenTail head => ⟨r, .idle, some (.len (distance n r.tail head))⟩

theorem proceed_check_of_le {r : Ring n k ω} {goal : ProducerGoal k ω} {tail : UInt64}
    (h : goal.want ≤ r.knownRoom tail) (start : UInt64) (count : Nat) :
    (check goal start tail count).proceed r =
      enter r goal start tail count (r.knownRoom tail) := if_pos h

theorem proceed_check_of_not_le {r : Ring n k ω} {goal : ProducerGoal k ω} {tail : UInt64}
    (h : ¬goal.want ≤ r.knownRoom tail) (start : UInt64) (count : Nat) :
    (check goal start tail count).proceed r = ⟨r, .refresh goal start tail count, none⟩ :=
  if_neg h

theorem proceed_store_of_lt (r : Ring n k ω) (goal : StoreGoal k ω) (v : Element k ω)
    (tail : UInt64) {j : Nat} (h : j < k) : (store goal v tail j).proceed r =
      ⟨r.writeWord tail ⟨j, h⟩ v[j], .store goal v tail (j + 1), none⟩ := dif_pos h

theorem proceed_store_of_not_lt (r : Ring n k ω) (goal : StoreGoal k ω) (v : Element k ω)
    (tail : UInt64) {j : Nat} (h : ¬j < k) :
    (store goal v tail j).proceed r = stored r goal tail := dif_neg h

/-- A step of the producer with an input; where the input does not fit, nothing
happens. -/
def step (r : Ring n k ω) (input : ProducerInput k ω) (phase : ProducerPhase k ω) :
    ProducerStep n k ω :=
  match input, phase with
  | .proceed, phase => proceed r phase
  | .begin goal, .idle => ⟨r, .load goal, none⟩
  | .count, .idle => ⟨r, .lenHead, none⟩
  | .copyFails, .copy _ _ _ _ => ⟨r, .idle, some .copyFailed⟩
  | .answer (.item v), .ask start tail count =>
    ⟨r, .store (.stream start count) v tail 0, none⟩
  | .answer .ended, .ask start tail count => endStream r start tail count true
  | .answer .failed, .ask _ _ _ => ⟨r, .idle, some .streamFailed⟩
  | .setWord j w, .hold tail => ⟨r.writeWord tail j w, .hold tail, none⟩
  | .write v, .hold tail => ⟨r, .store .slot v tail 0, none⟩
  | .commit, .hold _ => ⟨r, .commit, none⟩
  | .abandon, .hold _ => ⟨r, .idle, some .abandoned⟩
  | _, phase => ⟨r, phase, none⟩

end ProducerPhase

end LockFreeRings.Spsc
