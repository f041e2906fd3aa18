import LockFreeRings.SlotCount
import LockFreeRings.DebugText
set_option autoImplicit false

/-!
# Storage for the slots

A ring asks for its storage once.  The number of bytes is the slot count times
the size of a slot, over the integers; a size from `2 ^ 63` on cannot be
addressed and is refused before any allocator is asked, and an allocator grants
nothing from `2 ^ 57` bytes on.  What an allocator is short of below that is its own
affair, `Allocator.short`.
-/

namespace LockFreeRings

/-- The size and the alignment of one slot, in bytes. -/
structure SlotLayout where
  bytes : Nat
  alignment : Nat
  deriving DecidableEq, Repr

/-- Why storage was refused. -/
inductive StorageFault where
  /-- the number of bytes cannot be addressed -/
  | unaddressable
  /-- the allocator had no room for that many bytes of that alignment -/
  | exhausted (bytes alignment : Nat)
  deriving DecidableEq, Repr

/-- The first number of bytes that cannot be addressed. -/
def addressLimit : Nat := 0x8000000000000000

/-- The first number of bytes that no allocator grants. -/
def allocatorLimit : Nat := 0x200000000000000

/-- Asks for storage of `slots` slots; `none` when it is granted. -/
def storageFault? (slots : SlotCount) (layout : SlotLayout) : Option StorageFault :=
  let bytes := slots.size * layout.bytes
  if addressLimit ≤ bytes then some .unaddressable
  else if allocatorLimit ≤ bytes then some (.exhausted bytes layout.alignment)
  else none

/-- An allocator.  Within the limit it grants what it has room for, and it may be short of
room for some bytes of some alignment. -/
structure Allocator where
  short : (bytes alignment : Nat) → Bool := fun _ _ => false

namespace Allocator

/-- Asks an allocator for storage of `slots` slots; `none` when it is granted.  No allocator
is asked for no bytes at all. -/
def fault? (allocator : Allocator) (slots : SlotCount) (layout : SlotLayout) :
    Option StorageFault :=
  let bytes := slots.size * layout.bytes
  match storageFault? slots layout with
  | some fault => some fault
  | none =>
    if bytes ≠ 0 && allocator.short bytes layout.alignment then
      some (.exhausted bytes layout.alignment)
    else none

/-- An allocator that is never short grants all that can be granted. -/
@[simp] theorem fault?_default (slots : SlotCount) (layout : SlotLayout) :
    Allocator.fault? {} slots layout = storageFault? slots layout := by
  rw [fault?]
  cases storageFault? slots layout <;> simp

end Allocator

namespace StorageFault

/-- The wording of a fault. -/
def message : StorageFault → String
  | .unaddressable =>
    "memory allocation failed because the computed capacity exceeded the collection's maximum"
  | .exhausted _ _ =>
    "memory allocation failed because the memory allocator returned an error"

/-- How a fault is shown to a programmer: the kind of the refusal, with the
layout asked for where an allocator was asked. -/
def debugText (fault : StorageFault) : DebugText :=
  .record "TryReserveError" [("kind", kind fault)] false
where
  /-- The kind of the refusal. -/
  kind : StorageFault → DebugText
    | .unaddressable => .record "CapacityOverflow" [] false
    | .exhausted bytes alignment =>
      .record "AllocError"
        [("layout", .record "Layout"
          [("size", .number bytes),
           ("align", .atom (toString alignment ++ " (1 << " ++ toString alignment.log2 ++ ")"))]
          false),
         ("non_exhaustive", .atom "()")] false

end StorageFault

end LockFreeRings
