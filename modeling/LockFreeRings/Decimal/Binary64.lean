set_option autoImplicit false

/-!
# Binary floating-point numbers

A finite 64-bit floating-point number is kept by its bits and read as
`± mantissa * 2 ^ exponent`.  The shape of the numbers around it (`isLowEdge`)
decides how far the next smaller number is.
-/

namespace LockFreeRings

/-- A finite 64-bit floating-point number. -/
structure Binary64 where
  bits : UInt64
  finite : (bits >>> 52) &&& 0x7FF ≠ 0x7FF
  deriving DecidableEq

namespace Binary64

/-- The bits of a number that is neither infinite nor undefined. -/
def ofFloat? (x : Float) : Option Binary64 :=
  if h : (x.toBits >>> 52) &&& 0x7FF ≠ 0x7FF then some ⟨x.toBits, h⟩ else none

/-- Whether the sign bit is set; zero has one too. -/
def isNegative (x : Binary64) : Bool := x.bits >>> 63 = 1

/-- The stored exponent. -/
def biased (x : Binary64) : Nat := ((x.bits >>> 52) &&& 0x7FF).toNat

/-- The stored part of the mantissa. -/
def fraction (x : Binary64) : Nat := (x.bits &&& 0xFFFFFFFFFFFFF).toNat

/-- The whole mantissa: the leading one is not stored, except that numbers of
the least exponent have none. -/
def mantissa (x : Binary64) : Nat :=
  if x.biased = 0 then x.fraction else 0x10000000000000 + x.fraction

/-- The power of two that the mantissa is multiplied by. -/
def exponent (x : Binary64) : Int := (max x.biased 1 : Nat) - 1075

/-- Whether the next smaller number is only half as far away as the next greater
one: at the lowest mantissa of every exponent but the least. -/
def isLowEdge (x : Binary64) : Bool := x.fraction = 0 && 1 < x.biased

end Binary64

end LockFreeRings
