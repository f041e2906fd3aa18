import LockFreeRings.Decimal
set_option autoImplicit false

/-!
# Words in decimal

Reading a word of 64 bits from a text: one plus sign or none, at least one
decimal digit, and nothing else.  The digits of a word read back
(`word?_digits`).
-/

namespace LockFreeRings.Decimal

/-- Reads a word from its digits. -/
def wordOfDigits? (ds : List Char) : Option UInt64 :=
  if ds ≠ [] ∧ ds.all Char.isDigit ∧ valueFrom 0 ds < 0x10000000000000000 then
    some (UInt64.ofNat (valueFrom 0 ds))
  else none

/-- Reads a word. -/
def word? : List Char → Option UInt64
  | '+' :: ds => wordOfDigits? ds
  | ds => wordOfDigits? ds

theorem wordOfDigits?_digits (n : UInt64) : wordOfDigits? (digits n.toNat) = some n := by
  have hd : (digits n.toNat).all Char.isDigit = true :=
    List.all_eq_true.2 fun c h => isDigit_of_mem_digits h
  rw [wordOfDigits?, valueFrom_digits, if_pos ⟨digits_ne_nil _, hd, n.toNat_lt⟩]
  simp

/-- The digits of a word read back. -/
theorem word?_digits (n : UInt64) : word? (digits n.toNat) = some n := by
  have h := wordOfDigits?_digits n
  unfold word?
  split
  · next ds hds =>
    have := isDigit_of_mem_digits (n := n.toNat) (c := '+') (by simp [hds])
    exact absurd this (by decide)
  · exact h

end LockFreeRings.Decimal
