set_option autoImplicit false

/-!
# Powers of natural numbers

The bounds of words, the numbers of slots and the scales of decimals are powers.
Opening `Powers` reads `^` on natural numbers as the power of the core library, also
where a library brings another instance of it.
-/

namespace LockFreeRings.Powers

scoped instance corePow : Pow Nat Nat := instPowNat

end LockFreeRings.Powers
