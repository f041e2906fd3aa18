import LockFreeRings.Log
import LockFreeRings.Spsc.Ring
set_option autoImplicit false

/-!
# Reports on a one-producer one-consumer queue

Every step of a session is reported: its reply, the events it caused, and what
the free handles say about the queue after it.  Nested steps are reported inside
the event that ran them, so a step's own events do not show theirs.
-/

namespace LockFreeRings.Spsc

/-- What the producer says about the queue. -/
structure ProducerView where
  len : UInt64
  isEmpty : Bool
  isFull : Bool
  deriving DecidableEq, Repr

/-- What the consumer says about the queue. -/
structure ConsumerView where
  len : UInt64
  isEmpty : Bool
  deriving DecidableEq, Repr

/-- What came of a slot held for writing. -/
inductive WriteOutcome where
  | written
  | committed
  /-- nothing was built in the slot, so nothing is published -/
  | unbuilt
  | abandoned

/-- What came of a slot held for reading. -/
inductive ReadOutcome (k : Nat) (ω : Type) where
  | released
  /-- the element was being ended when that failed, and it is still at the front -/
  | endFailed
  | taken (v : Element k ω)
  | kept

mutual

/-- What a command answers. -/
inductive Reply (k : Nat) (ω : Type) where
  /-- the handle is borrowed or was dropped -/
  | unavailable
  /-- whether the handle that was to be dropped was still there -/
  | dropped (existed : Bool)
  | capacity (c : UInt64)
  | pushed
  /-- the queue is full; the element comes back -/
  | full (v : Element k ω)
  | pushedMany (count : Nat)
  /-- making a copy failed -/
  | copyFailed
  /-- how many elements were appended, and how many entries are left -/
  | pulledMany (count left : Nat)
  /-- the iterator failed -/
  | iteratorFailed (left : Nat)
  /-- the answer of an iterator that was asked directly -/
  | pulled (v : Option (Element k ω))
  | pullFailed
  /-- the queue is full, or empty, and gives no slot -/
  | noSlot
  | wrote (actions : List (WriteReply k ω)) (ending : WriteOutcome)
  | readOut (actions : List (ReadReply k ω)) (ending : ReadOutcome k ω)
  | popped (v : Element k ω)
  | empty
  /-- how many elements were taken out, and the whole output -/
  | poppedMany (count : Nat) (out : List (Element k ω))
  /-- commands are nested deeper than the session provides for -/
  | tooDeep

/-- What an action on a slot held for writing answers. -/
inductive WriteReply (k : Nat) (ω : Type) where
  | built
  | wordsSet
  | nested (report : Report k ω)

/-- What an action on a slot held for reading answers. -/
inductive ReadReply (k : Nat) (ω : Type) where
  | element (v : Element k ω)
  | edited
  | nested (report : Report k ω)

/-- What happens during a step. -/
inductive Event (k : Nat) (ω : Type) where
  | logged (entry : LogEntry)
  /-- a copy was made -/
  | copied (v : Element k ω)
  /-- the library ended an element -/
  | ended (v : Element k ω)
  /-- an iterator gave an element -/
  | pulled (v : Element k ω)
  /-- an iterator had no more -/
  | exhausted
  /-- nested commands ran -/
  | ran (reports : List (Report k ω))

/-- What is known after a step. -/
inductive Report (k : Nat) (ω : Type) where
  | mk (reply : Reply k ω) (events : List (Event k ω)) (producer : Option ProducerView)
      (consumer : Option ConsumerView)

end

end LockFreeRings.Spsc
