set_option autoImplicit false

/-!
# Decimal digits

Natural numbers and their decimal digits, without leading zeros.  Reading the
digits of a number gives the number back (`valueFrom_digits`).
-/

namespace LockFreeRings.Decimal

/-- The character of a digit. -/
def digitChar (d : Nat) : Char := Char.ofNat (48 + d)

/-- The digit of a character. -/
def digitValue (c : Char) : Nat := c.toNat - 48

theorem digitValue_digitChar : ∀ d < 10, digitValue (digitChar d) = d := by decide

theorem isDigit_digitChar : ∀ d < 10, (digitChar d).isDigit = true := by decide

/-- The digits of a number, the most significant one first. -/
def digits (n : Nat) : List Char :=
  if n < 10 then [digitChar n] else digits (n / 10) ++ [digitChar (n % 10)]

/-- The number that `ds` make after the digits of `n`. -/
def valueFrom (n : Nat) (ds : List Char) : Nat :=
  ds.foldl (fun v c => v * 10 + digitValue c) n

@[simp] theorem valueFrom_nil (n : Nat) : valueFrom n [] = n := rfl

@[simp] theorem valueFrom_cons (n : Nat) (c : Char) (ds : List Char) :
    valueFrom n (c :: ds) = valueFrom (n * 10 + digitValue c) ds := by
  rw [valueFrom, List.foldl_cons, valueFrom]

theorem valueFrom_append (n : Nat) (ds es : List Char) :
    valueFrom n (ds ++ es) = valueFrom (valueFrom n ds) es := List.foldl_append

/-- The digits of a number make that number. -/
theorem valueFrom_digits (n : Nat) : valueFrom 0 (digits n) = n := by
  rw [digits]
  split
  · next h => simp [digitValue_digitChar n h]
  · next h =>
    rw [valueFrom_append, valueFrom_digits (n / 10)]
    simp only [valueFrom_cons, valueFrom_nil, digitValue_digitChar _ (Nat.mod_lt n (by decide))]
    omega
termination_by n

/-- Digits are digits. -/
theorem isDigit_of_mem_digits {n : Nat} {c : Char} (h : c ∈ digits n) : c.isDigit = true := by
  rw [digits] at h
  split at h
  · next hn => rw [List.mem_singleton.1 h]; exact isDigit_digitChar n hn
  · next hn =>
    rcases List.mem_append.1 h with h | h
    · exact isDigit_of_mem_digits h
    · rw [List.mem_singleton.1 h]; exact isDigit_digitChar _ (Nat.mod_lt n (by decide))
termination_by n

theorem digits_ne_nil (n : Nat) : digits n ≠ [] := by
  rw [digits]; split <;> simp

/-- The number of digits. -/
def length (n : Nat) : Nat := (digits n).length

end LockFreeRings.Decimal
