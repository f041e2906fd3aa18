import LockFreeRings.Allocation
set_option autoImplicit false

/-!
# Log entries

Queues write to the log when they are built and when they end, never in
between.  There are three entries: a capacity was rounded, storage was refused,
and a queue ended with elements in it.  An entry has a level, a message, and
named fields whose values are texts.
-/

namespace LockFreeRings

/-- How urgent an entry is. -/
inductive LogLevel where
  | debug
  | warn
  | error
  deriving DecidableEq, Repr

/-- The name of a level. -/
def LogLevel.name : LogLevel → String
  | .debug => "DEBUG"
  | .warn => "WARN"
  | .error => "ERROR"

/-- The two kinds of queue. -/
inductive QueueKind where
  /-- one producer, one consumer -/
  | spsc
  /-- any number of producers and consumers -/
  | mpmc
  deriving DecidableEq, Repr

/-- The short name of a kind of queue. -/
def QueueKind.name : QueueKind → String
  | .spsc => "spsc"
  | .mpmc => "mpmc"

/-- What is written to the log. -/
inductive LogEntry where
  /-- the slot count differs from the capacity asked for -/
  | rounded (requested : UInt64) (slots : SlotCount)
  /-- the storage of a ring was refused -/
  | storageRefused (slots : SlotCount) (fault : StorageFault)
  /-- a queue ended while it held elements -/
  | undrained (queue : QueueKind) (leaked : UInt64)
  deriving DecidableEq, Repr

namespace LogEntry

/-- The level of an entry. -/
def level : LogEntry → LogLevel
  | .rounded _ _ => .debug
  | .storageRefused _ _ => .error
  | .undrained _ _ => .warn

/-- The message of an entry. -/
def message : LogEntry → String
  | .rounded _ _ => "rounded ring capacity up to a power of two"
  | .storageRefused _ _ => "failed to allocate ring storage"
  | .undrained queue _ => queue.name ++ " ring dropped with undrained elements"

/-- The named fields of an entry; numbers are in decimal. -/
def fields : LogEntry → List (String × String)
  | .rounded requested slots =>
    [("requested", toString requested.toNat), ("slots", toString slots.size)]
  | .storageRefused slots fault =>
    [("slots", toString slots.size), ("source", fault.message)]
  | .undrained _ leaked => [("leaked", toString leaked.toNat)]

end LogEntry

/-- The entry that a queue with `leaked` elements left writes when it ends:
nothing for a drained one. -/
def teardown (queue : QueueKind) (leaked : UInt64) : List LogEntry :=
  if leaked = 0 then [] else [.undrained queue leaked]

@[simp] theorem teardown_zero (queue : QueueKind) : teardown queue 0 = [] := rfl

/-- A count that fits into a word is logged unless there was nothing to count. -/
theorem teardown_ofNat (queue : QueueKind) {count : Nat} (h : count < UInt64.size) :
    teardown queue (UInt64.ofNat count) =
      if count = 0 then [] else [.undrained queue (UInt64.ofNat count)] := by
  have hzero : UInt64.ofNat count = 0 ↔ count = 0 := by
    rw [← UInt64.toNat_inj, UInt64.toNat_ofNat_of_lt' h]
    rfl
  simp only [teardown, hzero]

/-! ## The subscriber -/

/-- Where the entries of a process go: nowhere until a subscriber is installed. -/
structure LogSink where
  subscribed : Bool := false
  deriving DecidableEq, Repr

/-- Installs the subscriber; one that is already there stays. -/
def LogSink.install (_ : LogSink) : LogSink := ⟨true⟩

@[simp] theorem LogSink.install_install (sink : LogSink) :
    sink.install.install = sink.install := rfl

end LockFreeRings
