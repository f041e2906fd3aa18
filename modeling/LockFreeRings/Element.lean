import LockFreeRings.Allocation
import LockFreeRings.CacheLine
set_option autoImplicit false

/-!
# Kinds of elements

What a queue has to know about its elements: how large they are, and whether
their copies and their ends are watched.  A slot with a sequence number keeps
the number beside the element and fills whole cache lines.
-/

namespace LockFreeRings

/-- The kinds of elements. -/
inductive ElementKind where
  /-- any value, kept behind a pointer; its copies and its end are watched -/
  | value
  | byte
  | word
  | string
  /-- the only value of a type without content -/
  | unit
  /-- eight words -/
  | wide
  deriving DecidableEq, Repr

namespace ElementKind

/-- The layout of an element. -/
def layout : ElementKind → SlotLayout
  | .value => ⟨8, 8⟩
  | .byte => ⟨1, 1⟩
  | .word => ⟨8, 8⟩
  | .string => ⟨24, 8⟩
  | .unit => ⟨0, 1⟩
  | .wide => ⟨64, 8⟩

/-- The bytes of a sequence number. -/
def sequenceBytes : Nat := 8

/-- The layout of a slot that keeps a sequence number beside its element. -/
def sequencedLayout (kind : ElementKind) : SlotLayout :=
  ⟨paddedBytes (sequenceBytes + kind.layout.bytes), lineBytes⟩

/-- Whether copies and ends of elements are reported. -/
def isWatched : ElementKind → Bool
  | .value => true
  | _ => false

end ElementKind

end LockFreeRings
