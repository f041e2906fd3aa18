import LockFreeRings.Json.Skip
set_option autoImplicit false

/-!
# Written strings and numbers

What the scanners make of the strings and numbers that are written by `Json.chars`.

A character stands for itself in a written string, or an escape stands for it that both
`Scan.stringTail` and `Scan.skipString` take as one (`escapeChar_cases`).  So a written string
is read as what it was (`stringTail_flatMap`), and skipped up to its end.

A written number is skipped as a whole if nothing follows that could go on it
(`skipScalar_numberChars`).  An integer from zero on is read as itself (`number_digits`).  All
other numbers have a sign, a fraction or an exponent, and are never read as such an integer
(`natural_of_number`); which floating-point number they are read as does not matter here.
-/

namespace LockFreeRings

/-! ## Digits -/

namespace Decimal

theorem digitChar_eq_zero : ∀ d < 10, digitChar d = '0' → d = 0 := by decide

/-- Only zero has a leading zero. -/
theorem digits_eq_cons (n : Nat) : ∃ c ds, digits n = c :: ds ∧ (c = '0' → n = 0) := by
  rw [digits]
  split
  · next h => exact ⟨_, [], rfl, digitChar_eq_zero n h⟩
  · next h =>
    obtain ⟨c, ds, hds, hzero⟩ := digits_eq_cons (n / 10)
    refine ⟨c, ds ++ [digitChar (n % 10)], by rw [hds, List.cons_append], fun hc => ?_⟩
    have := hzero hc
    omega
termination_by n

theorem le_valueFrom (n : Nat) (ds : List Char) : n ≤ valueFrom n ds := by
  induction ds generalizing n with
  | nil => exact Nat.le_refl n
  | cons c ds ih =>
      rw [valueFrom_cons]
      have := ih (n * 10 + digitValue c)
      omega

end Decimal

namespace Scan

/-- Digits, and nothing else. -/
def AllDigits (ds : List Char) : Prop := ∀ c ∈ ds, c.isDigit = true

/-- The text does not go on with a digit. -/
def NoDigit (s : List Char) : Prop := ∀ c t, s = c :: t → c.isDigit = false

theorem noDigit_cons {c : Char} (h : c.isDigit = false) (s : List Char) : NoDigit (c :: s) := by
  rintro _ _ ⟨⟩
  exact h

/-- A run of digits ends where the digits do. -/
theorem digitRun_append {ds rest : List Char} (hds : AllDigits ds) (hrest : NoDigit rest) :
    digitRun (ds ++ rest) = (ds, rest) := by
  have hstop : rest.takeWhile Char.isDigit = [] ∧ rest.dropWhile Char.isDigit = rest := by
    cases rest with
    | nil => exact ⟨rfl, rfl⟩
    | cons c s =>
        have hc := hrest c s rfl
        simp [hc]
  rw [digitRun, List.takeWhile_append_of_pos hds, List.dropWhile_append_of_pos hds, hstop.1,
    hstop.2, List.append_nil]

/-- Digits whose value fits in a word all go into the significand. -/
theorem absorb_of_lt {n : Nat} {ds : List Char}
    (h : Decimal.valueFrom n ds < 0x10000000000000000) :
    absorb n ds = (Decimal.valueFrom n ds, ds.length) := by
  induction ds generalizing n with
  | nil => rfl
  | cons c ds ih =>
      rw [Decimal.valueFrom_cons] at h
      have hnext := Nat.lt_of_le_of_lt (Decimal.le_valueFrom _ ds) h
      simp only [absorb, if_pos hnext, ih h, Decimal.valueFrom_cons, List.length_cons]

/-! ## Strings -/

theorem hexValue?_hexDigit : ∀ d < 16, hexValue? (Text.hexDigit d) = some d := by decide

/-- A control that has no letter is escaped by its number. -/
theorem hexQuad_control {c : Char} (h : c.toNat < 32) (s : List Char) :
    hexQuad ('0' :: '0' :: Text.hexDigit (c.toNat / 16) :: Text.hexDigit (c.toNat % 16) :: s) =
      .ok (c.toNat, s) := by
  have hzero : hexValue? '0' = some 0 := by decide
  have hhigh := hexValue?_hexDigit (c.toNat / 16) (by omega)
  have hlow := hexValue?_hexDigit (c.toNat % 16) (by omega)
  have hvalue : ((0 * 16 + 0) * 16 + c.toNat / 16) * 16 + c.toNat % 16 = c.toNat := by omega
  simp only [hexQuad, hzero, hhigh, hlow, hvalue]

/-- A character stands for itself, or an escape stands for it. -/
theorem escapeChar_cases (c : Char) :
    (Json.escapeChar c = [c] ∧ c ≠ '"' ∧ c ≠ '\\' ∧ ¬c.toNat < 32) ∨
      ∃ e, Json.escapeChar c = '\\' :: e ∧
        ∀ s, escape (e ++ s) = .ok (c, s) ∧ skipEscape (e ++ s) = .ok s := by
  have hnumber : ∀ {n : Nat}, c.toNat = n → Char.ofNat n = c := by
    rintro _ rfl
    exact Char.ofNat_toNat c
  unfold Json.escapeChar
  by_cases hquote : c = '"'
  · exact .inr ⟨['"'], if_pos hquote, fun s => ⟨by rw [hquote]; rfl, rfl⟩⟩
  by_cases hslash : c = '\\'
  · exact .inr ⟨['\\'], by rw [if_neg hquote, if_pos hslash], fun s => ⟨by rw [hslash]; rfl, rfl⟩⟩
  rw [if_neg hquote, if_neg hslash]
  by_cases hback : c.toNat = 8
  · exact .inr ⟨['b'], if_pos hback, fun s => ⟨by rw [← hnumber hback]; rfl, rfl⟩⟩
  by_cases hfeed : c.toNat = 12
  · exact .inr ⟨['f'], by rw [if_neg hback, if_pos hfeed],
      fun s => ⟨by rw [← hnumber hfeed]; rfl, rfl⟩⟩
  rw [if_neg hback, if_neg hfeed]
  by_cases hline : c = '\n'
  · exact .inr ⟨['n'], if_pos hline, fun s => ⟨by rw [hline]; rfl, rfl⟩⟩
  by_cases hreturn : c = '\r'
  · exact .inr ⟨['r'], by rw [if_neg hline, if_pos hreturn], fun s => ⟨by rw [hreturn]; rfl, rfl⟩⟩
  rw [if_neg hline, if_neg hreturn]
  by_cases htab : c = '\t'
  · exact .inr ⟨['t'], if_pos htab, fun s => ⟨by rw [htab]; rfl, rfl⟩⟩
  rw [if_neg htab]
  by_cases hcontrol : c.toNat < 32
  · refine .inr ⟨_, if_pos hcontrol, fun s => ?_⟩
    have hquad := hexQuad_control hcontrol s
    have hhigh : isHighSurrogate c.toNat = false := by
      simp [isHighSurrogate]
      omega
    have hlow : isLowSurrogate c.toNat = false := by
      simp [isLowSurrogate]
      omega
    constructor
    · simp [escape, hquad, hhigh, hlow, Char.ofNat_toNat]
    · simp [skipEscape, hquad]
  · exact .inl ⟨if_neg hcontrol, hquote, hslash, hcontrol⟩

/-- A written character is read as itself. -/
theorem stringTail_escapeChar (c : Char) (s : List Char) :
    stringTail (Json.escapeChar c ++ s) =
      (stringTail s).map fun read => (c :: read.1, read.2) := by
  rcases escapeChar_cases c with ⟨hself, hquote, hslash, hcontrol⟩ | ⟨e, he, hescape⟩
  · rw [hself, List.singleton_append, stringTail, if_neg hquote, if_neg hslash, if_neg hcontrol]
    cases stringTail s <;> rfl
  · rw [he, List.cons_append, stringTail, if_neg (by decide), if_pos rfl]
    split
    · next fault hfault =>
      rw [(hescape s).1] at hfault
      cases hfault
    · next c' rest hread =>
      rw [(hescape s).1] at hread
      cases hread
      cases stringTail s <;> rfl

theorem stringTail_flatMap (cs rest : List Char) :
    stringTail (cs.flatMap Json.escapeChar ++ '"' :: rest) = .ok (cs, rest) := by
  induction cs with
  | nil =>
      rw [List.flatMap_nil, List.nil_append, stringTail, if_pos rfl]
  | cons c cs ih =>
      rw [List.flatMap_cons, List.append_assoc, stringTail_escapeChar, ih]
      rfl

theorem skipString_flatMap (cs rest : List Char) :
    skipString (cs.flatMap Json.escapeChar ++ '"' :: rest) = .ok rest := by
  induction cs with
  | nil =>
      rw [List.flatMap_nil, List.nil_append, skipString, if_pos rfl]
  | cons c cs ih =>
      rw [List.flatMap_cons, List.append_assoc]
      rcases escapeChar_cases c with ⟨hself, hquote, hslash, hcontrol⟩ | ⟨e, he, hescape⟩
      · rw [hself, List.singleton_append, skipString, if_neg hquote, if_neg hslash,
          if_neg hcontrol]
        exact ih
      · rw [he, List.cons_append, skipString, if_neg (by decide), if_pos rfl]
        split
        · next fault hfault =>
          rw [(hescape _).2] at hfault
          cases hfault
        · next after hread =>
          rw [(hescape _).2] at hread
          cases hread
          exact ih

/-- A written string goes on behind its opening quote with its characters and the closing
one. -/
theorem stringChars_append (s : String) (rest : List Char) :
    Json.stringChars s ++ rest = '"' :: (s.toList.flatMap Json.escapeChar ++ '"' :: rest) := by
  simp [Json.stringChars]

/-! ## Numbers -/

/-- The text does not go on like a number. -/
def EndsNumber (s : List Char) : Prop :=
  ∀ c t, s = c :: t → c.isDigit = false ∧ c ≠ '.' ∧ c ≠ 'e' ∧ c ≠ 'E'

theorem EndsNumber.noDigit {s : List Char} (h : EndsNumber s) : NoDigit s :=
  fun c t hs => (h c t hs).1

/-- An integer part: digits, and no zero before another one. -/
structure WholePart (ds : List Char) : Prop where
  digits : AllDigits ds
  ne_nil : ds ≠ []
  no_leading_zero : ∀ c t, ds ≠ '0' :: c :: t

theorem WholePart.of_ne_zero {c : Char} {ds : List Char} (hc : c ≠ '0')
    (h : AllDigits (c :: ds)) : WholePart (c :: ds) where
  digits := h
  ne_nil := List.cons_ne_nil c ds
  no_leading_zero := by
    rintro _ _ ⟨⟩
    exact hc rfl

theorem allDigits_digits (n : Nat) : AllDigits (Decimal.digits n) :=
  fun _ hc => Decimal.isDigit_of_mem_digits hc

theorem wholePart_zero : WholePart ['0'] where
  digits := by simp [AllDigits]
  ne_nil := List.cons_ne_nil _ _
  no_leading_zero := by simp

theorem wholePart_digits (n : Nat) : WholePart (Decimal.digits n) := by
  obtain ⟨c, ds, hds, hzero⟩ := Decimal.digits_eq_cons n
  have hall := allDigits_digits n
  by_cases hc : c = '0'
  · rw [hzero hc, Decimal.digits]
    exact wholePart_zero
  · rw [hds] at hall ⊢
    exact .of_ne_zero hc hall

section Whole

variable {whole rest : List Char}

/-- What is skipped of a number behind its integer part. -/
theorem WholePart.skipUnsigned_eq (h : WholePart whole) (hrest : NoDigit rest) :
    skipUnsigned (whole ++ rest) = skipFraction rest := by
  rw [skipUnsigned, digitRun_append h.digits hrest]
  split
  · next heq => cases heq; exact absurd rfl h.ne_nil
  · next heq => cases heq; exact absurd rfl (h.no_leading_zero _ _)
  · next heq => cases heq; rfl

/-- What is read of a number behind its integer part. -/
theorem WholePart.unsigned_eq (h : WholePart whole) (hrest : NoDigit rest) (negative : Bool) :
    unsigned negative (whole ++ rest) =
      afterInteger negative (absorb 0 whole).1 (whole.length - (absorb 0 whole).2) rest := by
  rw [unsigned, digitRun_append h.digits hrest]
  split
  · next heq => cases heq; exact absurd rfl h.ne_nil
  · next heq => cases heq; exact absurd rfl (h.no_leading_zero _ _)
  · next heq => cases heq; rfl

theorem skipFraction_of_ends (h : EndsNumber rest) : skipFraction rest = .ok rest := by
  unfold skipFraction
  split
  · exact absurd rfl (h _ _ rfl).2.1
  · exact absurd rfl (h _ _ rfl).2.2.1
  · exact absurd rfl (h _ _ rfl).2.2.2
  · rfl

/-- An integer part ends where it does not go on. -/
theorem afterInteger_of_ends (h : EndsNumber rest) (significand : Nat) :
    afterInteger false significand 0 rest = .ok (.natural significand.toUInt64, rest) := by
  unfold afterInteger
  split
  · exact absurd rfl (h _ _ rfl).2.1
  · exact absurd rfl (h _ _ rfl).2.2.1
  · exact absurd rfl (h _ _ rfl).2.2.2
  · rfl

end Whole

/-! ### Fractions and exponents -/

/-- The text of an exponent, after its letter: a sign and digits. -/
inductive ExponentText : List Char → Prop where
  | plus {ds : List Char} (digits : AllDigits ds) (ne_nil : ds ≠ []) : ExponentText ('+' :: ds)
  | minus {ds : List Char} (digits : AllDigits ds) (ne_nil : ds ≠ []) : ExponentText ('-' :: ds)

/-- The text, without its sign, of a number that is written with a fraction or an exponent. -/
inductive FloatText : List Char → Prop where
  | fraction {whole part : List Char} (whole_part : WholePart whole) (digits : AllDigits part)
      (ne_nil : part ≠ []) : FloatText (whole ++ '.' :: part)
  | exponent {whole e : List Char} (whole_part : WholePart whole) (exponent : ExponentText e) :
      FloatText (whole ++ 'e' :: e)
  | both {whole part e : List Char} (whole_part : WholePart whole) (digits : AllDigits part)
      (ne_nil : part ≠ []) (exponent : ExponentText e) :
      FloatText (whole ++ '.' :: (part ++ 'e' :: e))

theorem ExponentText.skip {e rest : List Char} (h : ExponentText e) (hrest : NoDigit rest) :
    skipExponentTail (e ++ rest) = .ok rest := by
  cases h with
  | plus digits ne_nil | minus digits ne_nil =>
      rw [skipExponentTail, List.cons_append, exponentSign, digitRun_append digits hrest]
      split
      · next heq => cases heq; exact absurd rfl ne_nil
      · next heq => cases heq; rfl

/-- A number with a fraction or an exponent is skipped as a whole. -/
theorem FloatText.skip {t rest : List Char} (h : FloatText t) (hrest : EndsNumber rest) :
    skipUnsigned (t ++ rest) = .ok rest := by
  have hpoint : '.'.isDigit = false := by decide
  have hletter : 'e'.isDigit = false := by decide
  cases h with
  | fraction whole_part digits ne_nil =>
      rw [List.append_assoc, List.cons_append, whole_part.skipUnsigned_eq (noDigit_cons hpoint _),
        skipFraction, digitRun_append digits hrest.noDigit]
      split
      · next heq => cases heq; exact absurd rfl ne_nil
      · next heq => cases heq; exact absurd rfl (hrest _ _ rfl).2.2.1
      · next heq => cases heq; exact absurd rfl (hrest _ _ rfl).2.2.2
      · next heq => cases heq; rfl
  | exponent whole_part exponent =>
      rw [List.append_assoc, List.cons_append, whole_part.skipUnsigned_eq (noDigit_cons hletter _),
        skipFraction]
      exact exponent.skip hrest.noDigit
  | both whole_part digits ne_nil exponent =>
      rw [List.append_assoc, List.cons_append, List.append_assoc, List.cons_append,
        whole_part.skipUnsigned_eq (noDigit_cons hpoint _), skipFraction,
        digitRun_append digits (noDigit_cons hletter _)]
      split
      · next heq => cases heq; exact absurd rfl ne_nil
      · next heq => cases heq; exact exponent.skip hrest.noDigit
      · next heq => cases heq
      · next hne _ heq => cases heq; exact absurd rfl (hne _)

theorem float_of_signed {negative : Bool} {x? : Option Binary64} {n : JsonNumber}
    (h : signed? negative x? = .ok n) : ∃ x, n = .float x := by
  unfold signed? at h
  split at h
  · cases h
  · split at h
    · split at h
      · cases h
      · cases h
        exact ⟨_, rfl⟩
    · cases h
      exact ⟨_, rfl⟩

theorem float_of_map {negative : Bool} {x? : Option Binary64} {s rest : List Char}
    {n : JsonNumber} (h : ((signed? negative x?).map fun n => (n, s)) = .ok (n, rest)) :
    ∃ x, n = .float x := by
  cases hx : signed? negative x? with
  | error fault =>
      rw [hx] at h
      cases h
  | ok m =>
      rw [hx] at h
      cases h
      exact float_of_signed hx

theorem float_of_exponentTail {negative : Bool} {significand : Nat} {e : Int}
    {s rest : List Char} {n : JsonNumber}
    (h : exponentTail negative significand e s = .ok (n, rest)) : ∃ x, n = .float x := by
  unfold exponentTail at h
  dsimp only at h
  split at h
  · cases h
  · exact float_of_map h

/-- A fraction makes a floating-point number. -/
theorem float_of_point {negative : Bool} {significand dropped : Nat} {s rest : List Char}
    {n : JsonNumber} (h : afterInteger negative significand dropped ('.' :: s) = .ok (n, rest)) :
    ∃ x, n = .float x := by
  rw [afterInteger] at h
  split at h
  · cases h
  · dsimp only at h
    split at h
    · exact float_of_exponentTail h
    · exact float_of_exponentTail h
    · exact float_of_map h

/-- An exponent makes one, too. -/
theorem float_of_letter {negative : Bool} {significand dropped : Nat} {s rest : List Char}
    {n : JsonNumber} (h : afterInteger negative significand dropped ('e' :: s) = .ok (n, rest)) :
    ∃ x, n = .float x := by
  rw [afterInteger] at h
  exact float_of_exponentTail h

theorem FloatText.float {t rest after : List Char} {negative : Bool} {n : JsonNumber}
    (ht : FloatText t) (h : unsigned negative (t ++ rest) = .ok (n, after)) :
    ∃ x, n = .float x := by
  have hpoint : '.'.isDigit = false := by decide
  have hletter : 'e'.isDigit = false := by decide
  cases ht with
  | fraction whole_part digits ne_nil =>
      rw [List.append_assoc, List.cons_append, whole_part.unsigned_eq (noDigit_cons hpoint _)] at h
      exact float_of_point h
  | exponent whole_part exponent =>
      rw [List.append_assoc, List.cons_append, whole_part.unsigned_eq (noDigit_cons hletter _)] at h
      exact float_of_letter h
  | both whole_part digits ne_nil exponent =>
      rw [List.append_assoc, List.cons_append, whole_part.unsigned_eq (noDigit_cons hpoint _)] at h
      exact float_of_point h

/-- A number with a minus is no integer from zero on. -/
theorem ne_natural_of_negative {s rest : List Char} {n : JsonNumber}
    (h : unsigned true s = .ok (n, rest)) (m : UInt64) : n ≠ .natural m := by
  have hfloat : (∃ x, n = .float x) → n ≠ .natural m := by
    rintro ⟨x, rfl⟩
    simp
  unfold unsigned at h
  split at h
  · cases h
  · cases h
  · dsimp only at h
    unfold afterInteger at h
    split at h
    · exact hfloat (float_of_point (by rw [afterInteger]; exact h))
    · exact hfloat (float_of_exponentTail h)
    · exact hfloat (float_of_exponentTail h)
    · split at h
      · exact hfloat (float_of_map h)
      · rw [if_neg (by decide)] at h
        split at h
        · cases h
          simp
        · exact hfloat (float_of_map h)

/-! ### What is written -/

theorem exponentPart_eq (e : Int) :
    ∃ t, ScaledDecimal.exponentPart e = 'e' :: t ∧ ExponentText t := by
  refine ⟨_, rfl, ?_⟩
  split
  · exact .minus (allDigits_digits _) (Decimal.digits_ne_nil _)
  · exact .plus (allDigits_digits _) (Decimal.digits_ne_nil _)

theorem allDigits_zeros (k : Nat) : AllDigits (List.replicate k '0') := by
  intro c hc
  rw [List.eq_of_mem_replicate hc]
  rfl

theorem AllDigits.append {ds es : List Char} (hds : AllDigits ds) (hes : AllDigits es) :
    AllDigits (ds ++ es) :=
  fun c hc => (List.mem_append.mp hc).elim (hds c) (hes c)

/-- A point among digits leaves digits on both sides. -/
theorem pointed_eq {c : Char} {ds : List Char} {k : Nat} (hc : c ≠ '0')
    (hall : AllDigits (c :: ds)) (hpos : 0 < k) (hlt : k < (c :: ds).length) :
    ∃ whole part, ScaledDecimal.pointed (c :: ds) k = whole ++ '.' :: part ∧
      WholePart whole ∧ AllDigits part ∧ part ≠ [] := by
  obtain ⟨k, rfl⟩ := Nat.exists_eq_add_one.mpr hpos
  have hwhole : AllDigits (c :: ds.take k) := by
    rw [← List.take_succ_cons]
    exact fun x hx => hall x (List.mem_of_mem_take hx)
  have hpart : AllDigits ((c :: ds).drop (k + 1)) := fun x hx => hall x (List.mem_of_mem_drop hx)
  refine ⟨_, _, rfl, .of_ne_zero hc hwhole, hpart, fun hnil => ?_⟩
  exact absurd (List.drop_eq_nil_iff.mp hnil) (Nat.not_le.mpr hlt)

theorem floatText_chars (d : ScaledDecimal) : FloatText d.chars := by
  unfold ScaledDecimal.chars
  dsimp only
  by_cases hzero : d.digits = 0
  · rw [if_pos hzero]
    show FloatText (['0'] ++ '.' :: ['0'])
    exact .fraction wholePart_zero (allDigits_zeros 1) (List.cons_ne_nil _ _)
  rw [if_neg hzero]
  obtain ⟨c, ds, hds, hc⟩ := Decimal.digits_eq_cons d.digits
  have hall := allDigits_digits d.digits
  have hne : c ≠ '0' := fun h => hzero (hc h)
  obtain ⟨e, he, hexponent⟩ := exponentPart_eq (((c :: ds).length : Int) + d.exponent - 1)
  rw [hds] at hall ⊢
  rw [he]
  split
  · exact .fraction (.of_ne_zero hne (hall.append (allDigits_zeros _))) (allDigits_zeros 1)
      (List.cons_ne_nil _ _)
  split
  · obtain ⟨whole, part, heq, hwhole, hpart, hnil⟩ :=
      pointed_eq (k := (((c :: ds).length : Int) + d.exponent).toNat) hne hall (by omega) (by omega)
    rw [heq]
    exact .fraction hwhole hpart hnil
  split
  · show FloatText (['0'] ++ '.' :: (List.replicate _ '0' ++ c :: ds))
    exact .fraction wholePart_zero ((allDigits_zeros _).append hall)
      (List.append_ne_nil_of_right_ne_nil _ (List.cons_ne_nil c ds))
  split
  · exact .exponent (.of_ne_zero hne hall) hexponent
  · next hlength =>
    rw [List.length_cons] at hlength
    obtain ⟨whole, part, heq, hwhole, hpart, hnil⟩ :=
      pointed_eq (k := 1) hne hall Nat.one_pos (by rw [List.length_cons]; omega)
    rw [heq, List.append_assoc, List.cons_append]
    exact .both hwhole hpart hnil hexponent

/-- The text of a number without its sign. -/
def UnsignedText (t : List Char) : Prop := WholePart t ∨ FloatText t

theorem UnsignedText.skip {t rest : List Char} (h : UnsignedText t) (hrest : EndsNumber rest) :
    skipUnsigned (t ++ rest) = .ok rest := by
  rcases h with hwhole | hfloat
  · rw [hwhole.skipUnsigned_eq hrest.noDigit, skipFraction_of_ends hrest]
  · exact hfloat.skip hrest

theorem WholePart.starts {ds : List Char} (h : WholePart ds) :
    ∃ c s, ds = c :: s ∧ c.isDigit = true := by
  obtain ⟨c, s, rfl⟩ := List.exists_cons_of_ne_nil h.ne_nil
  exact ⟨c, s, rfl, h.digits c List.mem_cons_self⟩

theorem UnsignedText.starts {t : List Char} (h : UnsignedText t) :
    ∃ c s, t = c :: s ∧ c.isDigit = true := by
  rcases h with hwhole | hfloat
  · exact hwhole.starts
  · cases hfloat with
    | fraction whole_part | exponent whole_part | both whole_part =>
        obtain ⟨c, s, rfl, hc⟩ := whole_part.starts
        exact ⟨c, _, rfl, hc⟩

/-- A number is written with a minus or without. -/
theorem exists_unsignedText (x : JsonNumber) :
    ∃ t, UnsignedText t ∧ (x.chars = t ∨ x.chars = '-' :: t) := by
  cases x with
  | natural n => exact ⟨_, .inl (wholePart_digits _), .inl rfl⟩
  | negSucc n => exact ⟨_, .inl (wholePart_digits _), .inr rfl⟩
  | float x =>
      refine ⟨_, .inr (floatText_chars x.shortest), ?_⟩
      rw [JsonNumber.chars, Binary64.chars]
      split
      · exact .inr rfl
      · exact .inl rfl

/-- A written number is skipped as a whole. -/
theorem skipScalar_numberChars (x : JsonNumber) {rest : List Char} (hrest : EndsNumber rest) :
    skipScalar (x.chars ++ rest) = .ok rest := by
  obtain ⟨t, ht, hx | hx⟩ := exists_unsignedText x
  · obtain ⟨c, s, rfl, hc⟩ := ht.starts
    have hskip := ht.skip hrest
    rw [hx]
    unfold skipScalar
    split
    -- a digit is none of the characters that other scalars start with
    case h_7 heq =>
      cases heq
      rw [if_pos hc]
      exact hskip
    all_goals next heq => cases heq; try exact absurd hc (by decide)
  · rw [hx]
    exact ht.skip hrest

/-- What starts with a digit is a number without a sign. -/
theorem number_of_isDigit {c : Char} (hc : c.isDigit = true) (s : List Char) :
    number (c :: s) = unsigned false (c :: s) := by
  unfold number
  split
  · next heq =>
    cases heq
    exact absurd hc (by decide)
  · rfl

/-- An integer from zero on is read as itself. -/
theorem number_digits (n : UInt64) {rest : List Char} (hrest : EndsNumber rest) :
    number (Decimal.digits n.toNat ++ rest) = .ok (.natural n, rest) := by
  have hwhole := wholePart_digits n.toNat
  have hvalue := Decimal.valueFrom_digits n.toNat
  have hfits : Decimal.valueFrom 0 (Decimal.digits n.toNat) < 0x10000000000000000 := by
    rw [hvalue]
    exact n.toNat_lt
  have habsorb := absorb_of_lt hfits
  have hread : unsigned false (Decimal.digits n.toNat ++ rest) = .ok (.natural n, rest) := by
    rw [hwhole.unsigned_eq hrest.noDigit, habsorb, hvalue, Nat.sub_self,
      afterInteger_of_ends hrest]
    simp
  obtain ⟨c, s, hcs, hc⟩ := hwhole.starts
  rw [hcs, List.cons_append] at hread ⊢
  rw [number_of_isDigit hc, hread]

/-- Only an integer from zero on is read as one. -/
theorem natural_of_number {x : JsonNumber} {n : UInt64} {rest after : List Char}
    (hrest : EndsNumber rest) (h : number (x.chars ++ rest) = .ok (.natural n, after)) :
    x = .natural n ∧ after = rest := by
  cases x with
  | natural m =>
      rw [JsonNumber.chars, number_digits m hrest] at h
      cases h
      exact ⟨rfl, rfl⟩
  | negSucc m => exact absurd rfl (ne_natural_of_negative h n)
  | float x =>
      have htext := floatText_chars x.shortest
      rw [JsonNumber.chars, Binary64.chars] at h
      split at h
      · exact absurd rfl (ne_natural_of_negative h n)
      · obtain ⟨c, s, hcs, hc⟩ := UnsignedText.starts (.inr htext)
        rw [hcs, List.cons_append, number_of_isDigit hc, ← List.cons_append, ← hcs] at h
        obtain ⟨y, hy⟩ := htext.float h
        cases hy

end Scan

end LockFreeRings
