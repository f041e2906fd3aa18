import LockFreeRings.Json
set_option autoImplicit false

/-!
# Reading the scalars of JSON

Blanks, words, strings and numbers at the head of a text.  A reader takes the
text from its first character and gives back what follows.  There are two
faults: the text ended where more was needed, or a character stands where it
cannot.

Strings and numbers can also be skipped, which checks less: a skipped string may
name half of a surrogate pair, a skipped number may be of any size.
-/

namespace LockFreeRings

/-- Why a text cannot be read. -/
inductive TextFault where
  /-- the text ended too early -/
  | ended
  /-- a character stands where it cannot -/
  | malformed
  deriving DecidableEq, Repr

/-- Reads a value at the head of a text and gives the rest. -/
abbrev Scan (α : Type) : Type := List Char → Except TextFault (α × List Char)

namespace Scan

/-! ## Blanks and words -/

/-- The blanks of JSON. -/
def isBlank (c : Char) : Bool := c = ' ' || c = '\n' || c = '\t' || c = '\r'

/-- The text from its first character that is not a blank. -/
def skipBlanks (s : List Char) : List Char := s.dropWhile isBlank

theorem length_skipBlanks_le (s : List Char) : (skipBlanks s).length ≤ s.length :=
  (List.dropWhile_sublist _).length_le

/-- Reads the given characters. -/
def word : List Char → List Char → Except TextFault (List Char)
  | [], s => .ok s
  | _ :: _, [] => .error .ended
  | e :: es, c :: s => if c = e then word es s else .error .malformed

theorem length_le_of_word {es s rest : List Char} (h : word es s = .ok rest) :
    rest.length ≤ s.length := by
  induction es generalizing s with
  | nil =>
    cases h
    exact Nat.le_refl _
  | cons e es ih =>
    cases s with
    | nil => simp [word] at h
    | cons c s =>
      rw [word] at h
      split at h
      · exact Nat.le_succ_of_le (ih h)
      · cases h

/-! ## Strings -/

/-- The value of a hexadecimal digit. -/
def hexValue? (c : Char) : Option Nat :=
  if '0' ≤ c ∧ c ≤ '9' then some (c.toNat - 48)
  else if 'a' ≤ c ∧ c ≤ 'f' then some (c.toNat - 87)
  else if 'A' ≤ c ∧ c ≤ 'F' then some (c.toNat - 55)
  else none

/-- Four hexadecimal digits.  A text of fewer than four bytes has ended. -/
def hexQuad : Scan Nat
  | a :: b :: c :: d :: rest =>
    match hexValue? a, hexValue? b, hexValue? c, hexValue? d with
    | some a, some b, some c, some d => .ok (((a * 16 + b) * 16 + c) * 16 + d, rest)
    | _, _, _, _ => .error .malformed
  | s => if 4 ≤ (String.ofList s).utf8ByteSize then .error .malformed else .error .ended

/-- Whether a number is the first half of a surrogate pair. -/
def isHighSurrogate (n : Nat) : Bool := 0xD800 ≤ n && n ≤ 0xDBFF

/-- Whether a number is the second half of a surrogate pair. -/
def isLowSurrogate (n : Nat) : Bool := 0xDC00 ≤ n && n ≤ 0xDFFF

/-- The second half of a pair, after a first half `high`. -/
def lowHalf (high : Nat) : Scan Char
  | [] => .error .ended
  | ['\\'] => .error .ended
  | '\\' :: 'u' :: s =>
    match hexQuad s with
    | .error fault => .error fault
    | .ok (low, rest) =>
      if isLowSurrogate low then
        .ok (Char.ofNat ((high - 0xD800) * 0x400 + (low - 0xDC00) + 0x10000), rest)
      else .error .malformed
  | _ => .error .malformed

/-- The character that an escape stands for, after its backslash. -/
def escape : Scan Char
  | [] => .error .ended
  | c :: s =>
    if c = '"' ∨ c = '\\' ∨ c = '/' then .ok (c, s)
    else if c = 'b' then .ok (Char.ofNat 8, s)
    else if c = 'f' then .ok (Char.ofNat 12, s)
    else if c = 'n' then .ok ('\n', s)
    else if c = 'r' then .ok ('\r', s)
    else if c = 't' then .ok ('\t', s)
    else if c = 'u' then
      match hexQuad s with
      | .error fault => .error fault
      | .ok (n, rest) =>
        if isLowSurrogate n then .error .malformed
        else if isHighSurrogate n then lowHalf n rest
        else .ok (Char.ofNat n, rest)
    else .error .malformed

/-- Skips an escape, after its backslash. -/
def skipEscape : List Char → Except TextFault (List Char)
  | [] => .error .ended
  | c :: s =>
    if c ∈ ['"', '\\', '/', 'b', 'f', 'n', 'r', 't'] then .ok s
    else if c = 'u' then
      match hexQuad s with
      | .error fault => .error fault
      | .ok (_, rest) => .ok rest
    else .error .malformed

theorem length_lt_of_hexQuad {s rest : List Char} {n : Nat} (h : hexQuad s = .ok (n, rest)) :
    rest.length < s.length := by
  unfold hexQuad at h
  split at h
  · split at h
    · cases h
      simp only [List.length_cons]
      omega
    · cases h
  · split at h <;> cases h

theorem length_lt_of_lowHalf {high : Nat} {s rest : List Char} {c : Char}
    (h : lowHalf high s = .ok (c, rest)) : rest.length < s.length := by
  unfold lowHalf at h
  split at h <;> try simp only [reduceCtorEq] at h
  next s =>
    split at h <;> try simp only [reduceCtorEq] at h
    next low after hq =>
      have hlt := length_lt_of_hexQuad hq
      split at h
      · simp only [Except.ok.injEq, Prod.mk.injEq] at h
        obtain ⟨-, rfl⟩ := h
        simp only [List.length_cons]
        omega
      · simp only [reduceCtorEq] at h

theorem length_lt_of_escape {s rest : List Char} {c : Char} (h : escape s = .ok (c, rest)) :
    rest.length < s.length := by
  cases s with
  | nil => simp [escape] at h
  | cons e s =>
    simp only [List.length_cons]
    simp only [escape] at h
    repeat' split at h
    all_goals try simp only [Except.ok.injEq, Prod.mk.injEq, reduceCtorEq] at h
    all_goals try obtain ⟨-, rfl⟩ := h
    all_goals try omega
    · next hq _ _ =>
      have := length_lt_of_hexQuad hq
      have := length_lt_of_lowHalf h
      omega
    · next hq _ _ =>
      have := length_lt_of_hexQuad hq
      omega

theorem length_lt_of_skipEscape {s rest : List Char} (h : skipEscape s = .ok rest) :
    rest.length < s.length := by
  cases s with
  | nil => simp [skipEscape] at h
  | cons e s =>
    simp only [List.length_cons]
    simp only [skipEscape] at h
    repeat' split at h
    all_goals try simp only [Except.ok.injEq, reduceCtorEq] at h
    all_goals try subst h
    all_goals try omega
    next hq =>
      have := length_lt_of_hexQuad hq
      omega

/-- The characters of a string, after its opening quote and up to its closing
one.  Controls have to be escaped. -/
def stringTail (s : List Char) : Except TextFault (List Char × List Char) :=
  match s with
  | [] => .error .ended
  | c :: s =>
    if c = '"' then .ok ([], s)
    else if c = '\\' then
      match h : escape s with
      | .error fault => .error fault
      | .ok (c, rest) =>
        have := length_lt_of_escape h
        match stringTail rest with
        | .error fault => .error fault
        | .ok (cs, rest) => .ok (c :: cs, rest)
    else if c.toNat < 32 then .error .malformed
    else
      match stringTail s with
      | .error fault => .error fault
      | .ok (cs, rest) => .ok (c :: cs, rest)
termination_by s.length

/-- Skips a string, after its opening quote. -/
def skipString (s : List Char) : Except TextFault (List Char) :=
  match s with
  | [] => .error .ended
  | c :: s =>
    if c = '"' then .ok s
    else if c = '\\' then
      match h : skipEscape s with
      | .error fault => .error fault
      | .ok rest =>
        have := length_lt_of_skipEscape h
        skipString rest
    else if c.toNat < 32 then .error .malformed
    else skipString s
termination_by s.length

theorem length_lt_of_stringTail {s rest cs : List Char} (h : stringTail s = .ok (cs, rest)) :
    rest.length < s.length := by
  fun_induction stringTail s generalizing cs rest with
  | case1 => cases h
  | case2 =>
    cases h
    exact Nat.lt_succ_self _
  | case3 => cases h
  | case4 => cases h
  | case5 s c after he hlt ds tail ht hq ih =>
    cases h
    have := ih ht
    simp only [List.length_cons]
    omega
  | case6 => cases h
  | case7 => cases h
  | case8 c s hq hb hc ds tail ht ih =>
    cases h
    exact Nat.lt_succ_of_lt (ih ht)

theorem length_lt_of_skipString {s rest : List Char} (h : skipString s = .ok rest) :
    rest.length < s.length := by
  fun_induction skipString s with
  | case1 => cases h
  | case2 =>
    cases h
    exact Nat.lt_succ_self _
  | case3 => cases h
  | case4 s hq after he hlt ih =>
    have := ih h
    simp only [List.length_cons]
    omega
  | case5 => cases h
  | case6 c s hq hb hc ih => exact Nat.lt_succ_of_lt (ih h)

/-! ## Numbers -/

/-- The digits at the head of a text and what follows. -/
def digitRun (s : List Char) : List Char × List Char :=
  (s.takeWhile Char.isDigit, s.dropWhile Char.isDigit)

theorem length_digitRun_le (s : List Char) : (digitRun s).2.length ≤ s.length :=
  (List.dropWhile_sublist _).length_le

/-- A run that is not empty leaves a shorter text. -/
theorem length_digitRun_lt {s : List Char} (h : (digitRun s).1 ≠ []) :
    (digitRun s).2.length < s.length := by
  have hs : (digitRun s).1.length + (digitRun s).2.length = s.length := by
    rw [← List.length_append, digitRun, List.takeWhile_append_dropWhile]
  have := List.length_pos_iff.2 h
  omega

/-- The fault of a missing digit. -/
def missingDigit : List Char → TextFault
  | [] => .ended
  | _ :: _ => .malformed

/-- Appends digits to a significand as long as it fits in a word; gives the
significand and how many digits went in. -/
def absorb (significand : Nat) : List Char → Nat × Nat
  | [] => (significand, 0)
  | c :: ds =>
    let next := significand * 10 + Decimal.digitValue c
    if next < 0x10000000000000000 then
      let (result, count) := absorb next ds
      (result, count + 1)
    else (significand, 0)

/-- A power of ten as a floating-point number. -/
def powerOfTen (e : Nat) : Float := Float.ofScientific 1 false e

/-- `significand * 10 ^ e`, rounded after each step: one product or quotient
with a power up to 308; a smaller one divides by `10 ^ 308` first.  `none` when
the result is too large. -/
def scaled? (significand : Nat) (e : Int) : Option Binary64 :=
  let x := significand.toUInt64.toFloat
  if 308 < e then (if significand = 0 then Binary64.ofFloat? x else none)
  else if 0 ≤ e then Binary64.ofFloat? (x * powerOfTen e.toNat)
  else if -308 ≤ e then Binary64.ofFloat? (x / powerOfTen e.natAbs)
  else if -616 ≤ e then Binary64.ofFloat? (x / powerOfTen 308 / powerOfTen (e + 308).natAbs)
  else Binary64.ofFloat? (0 : Float)

/-- A number with a sign, if it is not too large. -/
def signed? (negative : Bool) (x? : Option Binary64) : Except TextFault JsonNumber :=
  match x? with
  | none => .error .malformed
  | some x =>
    if negative then
      match Binary64.ofFloat? (-Float.ofBits x.bits) with
      | none => .error .malformed
      | some y => .ok (.float y)
    else .ok (.float x)

/-- The largest exponent that is taken at its value. -/
def exponentLimit : Nat := 0x7FFFFFFF

/-- The sign of an exponent, whether it is a minus, and what follows. -/
def exponentSign : List Char → Bool × List Char
  | '+' :: s => (false, s)
  | '-' :: s => (true, s)
  | s => (false, s)

theorem length_exponentSign_le (s : List Char) : (exponentSign s).2.length ≤ s.length := by
  unfold exponentSign
  split
  · exact Nat.le_succ _
  · exact Nat.le_succ _
  · exact Nat.le_refl _

/-- The number with an exponent part that starts after its letter. -/
def exponentTail (negative : Bool) (significand : Nat) (e : Int) : Scan JsonNumber := fun s =>
  let (down, s) := exponentSign s
  match digitRun s with
  | ([], rest) => .error (missingDigit rest)
  | (ds, rest) =>
    let size := Decimal.valueFrom 0 ds
    let scaled? :=
      if size ≤ exponentLimit then
        scaled? significand (if down then e - size else e + size)
      else if significand ≠ 0 ∧ down = false then none
      else scaled? 0 0
    (signed? negative scaled?).map fun n => (n, rest)

/-- The number whose integer part is read, with what follows that part. -/
def afterInteger (negative : Bool) (significand dropped : Nat) : Scan JsonNumber
  | '.' :: s =>
    match digitRun s with
    | ([], rest) => .error (missingDigit rest)
    | (ds, rest) =>
      let (significand, count) := absorb significand ds
      let e : Int := (dropped : Int) - count
      match rest with
      | 'e' :: s => exponentTail negative significand e s
      | 'E' :: s => exponentTail negative significand e s
      | _ => (signed? negative (scaled? significand e)).map fun n => (n, rest)
  | 'e' :: s => exponentTail negative significand dropped s
  | 'E' :: s => exponentTail negative significand dropped s
  | rest =>
    if dropped ≠ 0 then (signed? negative (scaled? significand dropped)).map fun n => (n, rest)
    else if negative = false then .ok (.natural significand.toUInt64, rest)
    else if h : 0 < significand ∧ significand ≤ 0x8000000000000000 then
      .ok (.negSucc ⟨significand - 1, by omega⟩, rest)
    else (signed? true (scaled? significand 0)).map fun n => (n, rest)

/-- A number after its sign.  An integer part has no zero before another digit. -/
def unsigned (negative : Bool) : Scan JsonNumber := fun s =>
  match digitRun s with
  | ([], rest) => .error (missingDigit rest)
  | ('0' :: _ :: _, _) => .error .malformed
  | (ds, rest) =>
    let (significand, count) := absorb 0 ds
    afterInteger negative significand (ds.length - count) rest

/-- A number. -/
def number : Scan JsonNumber
  | '-' :: s => unsigned true s
  | s => unsigned false s

/-- What follows a value stays when only the value is changed. -/
theorem rest_of_map {α β : Type} {f : α → β} {x : Except TextFault α} {v : β}
    {s rest : List Char} (h : (x.map fun a => (f a, s)) = .ok (v, rest)) : rest = s := by
  cases x with
  | error fault => cases h
  | ok a =>
    cases h
    rfl

theorem length_le_of_exponentTail {negative : Bool} {significand : Nat} {e : Int}
    {s rest : List Char} {n : JsonNumber}
    (h : exponentTail negative significand e s = .ok (n, rest)) : rest.length ≤ s.length := by
  have hs := length_exponentSign_le s
  have hd := length_digitRun_le (exponentSign s).2
  unfold exponentTail at h
  dsimp only at h
  split at h
  · cases h
  · next hr =>
    rw [rest_of_map h]
    rw [hr] at hd
    exact Nat.le_trans hd hs

theorem length_le_of_afterInteger {negative : Bool} {significand dropped : Nat}
    {s rest : List Char} {n : JsonNumber}
    (h : afterInteger negative significand dropped s = .ok (n, rest)) :
    rest.length ≤ s.length := by
  unfold afterInteger at h
  split at h
  · next s =>
    have hd := length_digitRun_le s
    split at h
    · cases h
    · next hr =>
      rw [hr] at hd
      dsimp only at h hd
      split at h
      · have := length_le_of_exponentTail h
        simp only [List.length_cons] at hd ⊢
        omega
      · have := length_le_of_exponentTail h
        simp only [List.length_cons] at hd ⊢
        omega
      · rw [rest_of_map h]
        exact Nat.le_succ_of_le hd
  · exact Nat.le_succ_of_le (length_le_of_exponentTail h)
  · exact Nat.le_succ_of_le (length_le_of_exponentTail h)
  · split at h
    · exact Nat.le_of_eq (congrArg List.length (rest_of_map h))
    · split at h
      · cases h
        exact Nat.le_refl _
      · split at h
        · cases h
          exact Nat.le_refl _
        · exact Nat.le_of_eq (congrArg List.length (rest_of_map h))

theorem length_lt_of_unsigned {negative : Bool} {s rest : List Char} {n : JsonNumber}
    (h : unsigned negative s = .ok (n, rest)) : rest.length < s.length := by
  unfold unsigned at h
  split at h
  · cases h
  · cases h
  · next ds after hne _ hr =>
    have hd : (digitRun s).2.length < s.length := length_digitRun_lt (by rw [hr]; exact hne)
    rw [hr] at hd
    exact Nat.lt_of_le_of_lt (length_le_of_afterInteger h) hd

/-- A number takes at least one character. -/
theorem length_lt_of_number {s rest : List Char} {n : JsonNumber}
    (h : number s = .ok (n, rest)) : rest.length < s.length := by
  unfold number at h
  split at h
  · exact Nat.lt_succ_of_lt (length_lt_of_unsigned h)
  · exact length_lt_of_unsigned h

/-- Skips an exponent part, after its letter. -/
def skipExponentTail (s : List Char) : Except TextFault (List Char) :=
  match digitRun (exponentSign s).2 with
  | ([], _) => .error .malformed
  | (_, rest) => .ok rest

theorem length_le_of_skipExponentTail {s rest : List Char}
    (h : skipExponentTail s = .ok rest) : rest.length ≤ s.length := by
  have hs := length_exponentSign_le s
  have hd := length_digitRun_le (exponentSign s).2
  unfold skipExponentTail at h
  split at h
  · cases h
  · next he =>
    cases h
    rw [he] at hd
    exact Nat.le_trans hd hs

/-- Skips what follows an integer part. -/
def skipFraction : List Char → Except TextFault (List Char)
  | '.' :: s =>
    match digitRun s with
    | ([], _) => .error .malformed
    | (_, 'e' :: s) => skipExponentTail s
    | (_, 'E' :: s) => skipExponentTail s
    | (_, rest) => .ok rest
  | 'e' :: s => skipExponentTail s
  | 'E' :: s => skipExponentTail s
  | rest => .ok rest

theorem length_le_of_skipFraction {s rest : List Char} (h : skipFraction s = .ok rest) :
    rest.length ≤ s.length := by
  unfold skipFraction at h
  split at h
  · next s =>
    have hd := length_digitRun_le s
    split at h
    · cases h
    · next hr =>
      have := length_le_of_skipExponentTail h
      rw [hr] at hd
      simp only [List.length_cons] at hd ⊢
      omega
    · next hr =>
      have := length_le_of_skipExponentTail h
      rw [hr] at hd
      simp only [List.length_cons] at hd ⊢
      omega
    · next hr =>
      cases h
      rw [hr] at hd
      exact Nat.le_succ_of_le hd
  · exact Nat.le_succ_of_le (length_le_of_skipExponentTail h)
  · exact Nat.le_succ_of_le (length_le_of_skipExponentTail h)
  · cases h
    exact Nat.le_refl _

/-- Skips a number after its sign.  A digit that is missing at the end of the
text is a misplaced character here. -/
def skipUnsigned (s : List Char) : Except TextFault (List Char) :=
  match digitRun s with
  | ([], _) => .error .malformed
  | ('0' :: _ :: _, _) => .error .malformed
  | (_, rest) => skipFraction rest

theorem length_lt_of_skipUnsigned {s rest : List Char} (h : skipUnsigned s = .ok rest) :
    rest.length < s.length := by
  unfold skipUnsigned at h
  split at h
  · cases h
  · cases h
  · next ds after hne _ hr =>
    have hd : (digitRun s).2.length < s.length := length_digitRun_lt (by rw [hr]; exact hne)
    rw [hr] at hd
    exact Nat.lt_of_le_of_lt (length_le_of_skipFraction h) hd

end Scan

end LockFreeRings
