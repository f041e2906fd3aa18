import LockFreeRings.Spsc.Ring
set_option autoImplicit false

/-!
# The consumer in steps

A call of the consumer, taken apart into its accesses to memory: loading its own
cursor, looking at its copy of the tail, loading the tail, reading or storing
one word of a slot, storing its cursor.  Between two steps of the consumer any
number of steps of the producer may happen.

Elements are read word by word into a buffer that the caller provides.  While a
slot is held the consumer waits for what the caller does with it.
-/

namespace LockFreeRings.Spsc

/-- What a call of the consumer is to do; elements are read into `into`. -/
inductive ConsumerGoal (k : Nat) (ω : Type) where
  /-- take out the oldest element -/
  | one (into : Element k ω)
  /-- take out up to `limit` elements -/
  | batch (limit : UInt64) (into : Element k ω)
  /-- hold the slot of the oldest element -/
  | slot

/-- How many elements a call asks for. -/
def ConsumerGoal.want {k : Nat} {ω : Type} : ConsumerGoal k ω → UInt64
  | .batch limit _ => limit
  | _ => 1

/-- What a call of the consumer returns. -/
inductive ConsumerReturn (k : Nat) (ω : Type) where
  | popped (v : Element k ω)
  | empty
  | poppedMany (vs : List (Element k ω))
  | noSlot
  /-- the element in the held slot, which stays held -/
  | seen (v : Element k ω)
  /-- the element moved out of the held slot -/
  | taken (v : Element k ω)
  | released
  | kept
  | len (count : UInt64)
  deriving DecidableEq

/-- What a read element is part of, and what comes after it. -/
inductive ReadGoal (k : Nat) (ω : Type) where
  | one
  /-- the number of elements to come and those before -/
  | batch (left : Nat) (out : List (Element k ω))
  /-- a look at the element of a held slot -/
  | look
  /-- the element of a held slot is moved out -/
  | take

/-- Where the consumer is. -/
inductive ConsumerPhase (k : Nat) (ω : Type) where
  /-- between calls -/
  | idle
  /-- load the head -/
  | load (goal : ConsumerGoal k ω)
  /-- look at the copy of the tail -/
  | check (goal : ConsumerGoal k ω) (head : UInt64)
  /-- load the tail -/
  | refresh (goal : ConsumerGoal k ω) (head : UInt64)
  /-- read word `j` and those after it into `into` -/
  | read (goal : ReadGoal k ω) (head : UInt64) (j : Nat) (into : Element k ω)
  /-- store the head -/
  | vacate (head : UInt64) (result : ConsumerReturn k ω)
  /-- a slot is held -/
  | hold (head : UInt64)
  /-- load the head, to hand the held slot back -/
  | release (result : ConsumerReturn k ω)
  /-- load the head, to count the elements -/
  | lenHead
  /-- load the tail and subtract -/
  | lenTail (head : UInt64)

/-- What the caller does. -/
inductive ConsumerInput (k : Nat) (ω : Type) where
  /-- nothing: the consumer goes on by itself -/
  | proceed
  | begin (goal : ConsumerGoal k ω)
  /-- asks how many elements are queued -/
  | count
  /-- looks at the element of the held slot -/
  | look (into : Element k ω)
  /-- stores a word in the held slot -/
  | editWord (j : Fin k) (w : ω)
  /-- moves the element out of the held slot and frees the slot -/
  | take (into : Element k ω)
  /-- ends the element of the held slot and frees the slot -/
  | release
  /-- leaves the element where it is; so does a caller whose code for the end of the element fails -/
  | keep

/-- What a step leaves: the memory, the phase, and what was returned if a call
ended. -/
structure ConsumerStep (n : SlotCount) (k : Nat) (ω : Type) where
  ring : Ring n k ω
  phase : ConsumerPhase k ω
  result : Option (ConsumerReturn k ω) := none

namespace ConsumerPhase

variable {n : SlotCount} {k : Nat} {ω : Type}

/-- The number of elements from `head` on is known. -/
def enter (r : Ring n k ω) (goal : ConsumerGoal k ω) (head available : UInt64) :
    ConsumerStep n k ω :=
  match goal with
  | .one into =>
    if available = 0 then ⟨r, .idle, some .empty⟩ else ⟨r, .read .one head 0 into, none⟩
  | .batch limit into =>
    match min available.toNat limit.toNat with
    | 0 => ⟨r, .idle, some (.poppedMany [])⟩
    | left + 1 => ⟨r, .read (.batch left []) head 0 into, none⟩
  | .slot =>
    if available = 0 then ⟨r, .idle, some .noSlot⟩ else ⟨r, .hold head, none⟩

/-- All words of the element in the slot of `head` are read. -/
def finished (r : Ring n k ω) (goal : ReadGoal k ω) (head : UInt64) (v : Element k ω) :
    ConsumerStep n k ω :=
  match goal with
  | .one => ⟨r, .vacate (next n head) (.popped v), none⟩
  | .batch 0 out => ⟨r, .vacate (next n head) (.poppedMany (out ++ [v])), none⟩
  | .batch (left + 1) out => ⟨r, .read (.batch left (out ++ [v])) (next n head) 0 v, none⟩
  | .look => ⟨r, .hold head, some (.seen v)⟩
  | .take => ⟨r, .release (.taken v), none⟩

/-- The next step of a consumer that goes on by itself; where it waits for the
caller, nothing happens. -/
def proceed (r : Ring n k ω) : ConsumerPhase k ω → ConsumerStep n k ω
  | .idle => ⟨r, .idle, none⟩
  | .load goal => ⟨r, .check goal r.head, none⟩
  | .check goal head =>
    if goal.want ≤ r.knownAvailable head then enter r goal head (r.knownAvailable head)
    else ⟨r, .refresh goal head, none⟩
  | .refresh goal head =>
    enter r.refreshTail goal head (r.refreshTail.knownAvailable head)
  | .read goal head j into =>
    if h : j < k then
      ⟨r, .read goal head (j + 1) (into.set j (r.read head)[j]), none⟩
    else finished r goal head into
  | .vacate head result => ⟨r.vacate head, .idle, some result⟩
  | .hold head => ⟨r, .hold head, none⟩
  | .release result => ⟨r, .vacate (next n r.head) result, none⟩
  | .lenHead => ⟨r, .lenTail r.head, none⟩
  | .lenTail head => ⟨r, .idle, some (.len (distance n r.tail head))⟩

theorem proceed_check_of_le {r : Ring n k ω} {goal : ConsumerGoal k ω} {head : UInt64}
    (h : goal.want ≤ r.knownAvailable head) :
    (check goal head).proceed r = enter r goal head (r.knownAvailable head) := if_pos h

theorem proceed_check_of_not_le {r : Ring n k ω} {goal : ConsumerGoal k ω} {head : UInt64}
    (h : ¬goal.want ≤ r.knownAvailable head) :
    (check goal head).proceed r = ⟨r, .refresh goal head, none⟩ := if_neg h

theorem proceed_read_of_lt (r : Ring n k ω) (goal : ReadGoal k ω) (head : UInt64)
    (into : Element k ω) {j : Nat} (h : j < k) : (read goal head j into).proceed r =
      ⟨r, .read goal head (j + 1) (into.set j (r.read head)[j]), none⟩ := dif_pos h

theorem proceed_read_of_not_lt (r : Ring n k ω) (goal : ReadGoal k ω) (head : UInt64)
    (into : Element k ω) {j : Nat} (h : ¬j < k) :
    (read goal head j into).proceed r = finished r goal head into := dif_neg h

/-- A step of the consumer with an input; where the input does not fit, nothing
happens. -/
def step (r : Ring n k ω) (input : ConsumerInput k ω) (phase : ConsumerPhase k ω) :
    ConsumerStep n k ω :=
  match input, phase with
  | .proceed, phase => proceed r phase
  | .begin goal, .idle => ⟨r, .load goal, none⟩
  | .count, .idle => ⟨r, .lenHead, none⟩
  | .look into, .hold head => ⟨r, .read .look head 0 into, none⟩
  | .editWord j w, .hold head => ⟨r.writeWord head j w, .hold head, none⟩
  | .take into, .hold head => ⟨r, .read .take head 0 into, none⟩
  | .release, .hold _ => ⟨r, .release .released, none⟩
  | .keep, .hold _ => ⟨r, .idle, some .kept⟩
  | _, phase => ⟨r, phase, none⟩

end ConsumerPhase

end LockFreeRings.Spsc
