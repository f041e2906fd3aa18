import LockFreeRings.Log
set_option autoImplicit false

/-!
# Building a ring

Both kinds of ring are built in the same two steps: the requested capacity is
rounded up to a slot count, then storage for that many slots is asked for.
`construct` gives the outcome of the two together with what they log, in order.
-/

namespace LockFreeRings

/-- Why a ring could not be built. -/
inductive BuildError where
  /-- no power of two from the requested capacity on fits in a word -/
  | capacityOverflow (requested : UInt64)
  /-- the storage for the slots was refused -/
  | allocation (slots : SlotCount) (source : StorageFault)
  deriving DecidableEq, Repr

namespace BuildError

/-- The wording of an error. -/
def message : BuildError → String
  | .capacityOverflow requested =>
    "requested capacity " ++ toString requested.toNat ++
      " cannot be rounded up to a power of two"
  | .allocation slots source =>
    "failed to allocate storage for " ++ toString slots.size ++ " slots: " ++ source.message

/-- The fault behind an error, if another one is behind it. -/
def source? : BuildError → Option StorageFault
  | .capacityOverflow _ => none
  | .allocation _ source => some source

/-- How an error is shown to a programmer. -/
def debugText : BuildError → DebugText
  | .capacityOverflow requested =>
    .record "CapacityOverflow" [("requested", .number requested.toNat)] false
  | .allocation slots source =>
    .record "Allocation" [("slots", .number slots.size), ("source", source.debugText)] false

end BuildError

/-- What came of building: the entries logged, and the slot count or the error. -/
structure Construction where
  log : List LogEntry
  outcome : Except BuildError SlotCount

/-- The entry for a capacity that was rounded to another number. -/
def roundingLog (requested : UInt64) (slots : SlotCount) : List LogEntry :=
  if slots.word = requested then [] else [.rounded requested slots]

/-- Rounds the requested capacity up and asks for the storage, of an allocator that is never
short unless another one is given. -/
def construct (requested : UInt64) (layout : SlotLayout) (allocator : Allocator := {}) :
    Construction :=
  match SlotCount.roundUp requested with
  | none => ⟨[], .error (.capacityOverflow requested)⟩
  | some slots =>
    match allocator.fault? slots layout with
    | none => ⟨roundingLog requested slots, .ok slots⟩
    | some fault =>
      ⟨roundingLog requested slots ++ [.storageRefused slots fault],
        .error (.allocation slots fault)⟩

end LockFreeRings
