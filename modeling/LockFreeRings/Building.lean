import LockFreeRings.Config
import LockFreeRings.Construction
import LockFreeRings.Mpmc.Ring
import LockFreeRings.Spsc.Ring
set_option autoImplicit false

/-!
# Rings from capacities and configurations

Either kind of ring is built from a capacity, or from a configuration that has one.
What comes of it is what `construct` logs, and a new ring in the storage that was granted
or the error.
-/

namespace LockFreeRings

/-- What came of building a ring: the entries logged, and the ring with its slot count or
the error. -/
structure Built (ρ : SlotCount → Type) where
  log : List LogEntry
  outcome : Except BuildError ((n : SlotCount) × ρ n)

/-- Puts a ring into the storage, if it was granted. -/
def Construction.fill {ρ : SlotCount → Type} (c : Construction) (new : (n : SlotCount) → ρ n) :
    Built ρ :=
  ⟨c.log, c.outcome.map fun n => ⟨n, new n⟩⟩

namespace Spsc.Ring

variable {k : Nat} {ω : Type}

/-- Builds a ring of one producer and one consumer whose slots hold `blank`. -/
def build (requested : UInt64) (layout : SlotLayout) (blank : Element k ω)
    (allocator : Allocator := {}) : Built (Ring · k ω) :=
  (construct requested layout allocator).fill (.new · blank)

/-- Builds a ring as a configuration says. -/
def buildFrom (config : RingConfig) (layout : SlotLayout) (blank : Element k ω)
    (allocator : Allocator := {}) : Built (Ring · k ω) :=
  build config.capacity layout blank allocator

end Spsc.Ring

namespace Mpmc.Ring

variable {α : Type}

/-- Builds a ring of many producers and consumers whose slots hold `blank`. -/
def build (requested : UInt64) (layout : SlotLayout) (blank : α) (allocator : Allocator := {}) :
    Built (Ring · α) :=
  (construct requested layout allocator).fill (.new · blank)

/-- Builds a ring as a configuration says. -/
def buildFrom (config : RingConfig) (layout : SlotLayout) (blank : α)
    (allocator : Allocator := {}) : Built (Ring · α) :=
  build config.capacity layout blank allocator

end Mpmc.Ring

end LockFreeRings
