import LockFreeRings.Proofs.Json.Scalars
set_option autoImplicit false

/-!
# Written values are skipped

A value that was written by `Json.chars` is skipped as a whole, however deep it is nested
(`skipValue_chars`).  The first section says what each move of the machine that skips does,
and the induction is on the value: behind the text of a value the machine has the same
arrays and objects open around it as before (`skipOpen_chars`).
-/

namespace LockFreeRings.Scan

/-! ## Moves -/

theorem skipBlanks_cons {c : Char} (h : isBlank c = false) (s : List Char) :
    skipBlanks (c :: s) = c :: s := by
  simp [skipBlanks, h]

/-- A value may start here: there is no blank, and no array ends. -/
def StartsValue (s : List Char) : Prop := ∃ c t, s = c :: t ∧ isBlank c = false ∧ c ≠ ']'

/-- A string, a number or a word may start here. -/
def StartsScalar (s : List Char) : Prop :=
  ∃ c t, s = c :: t ∧ isBlank c = false ∧ c ≠ ']' ∧ c ≠ '[' ∧ c ≠ '\x7b'

theorem StartsScalar.startsValue {s : List Char} (h : StartsScalar s) : StartsValue s := by
  obtain ⟨c, t, hs, hblank, hclose, -, -⟩ := h
  exact ⟨c, t, hs, hblank, hclose⟩

theorem StartsValue.skipBlanks_eq {s : List Char} (h : StartsValue s) : skipBlanks s = s := by
  obtain ⟨c, t, rfl, hc, -⟩ := h
  exact skipBlanks_cons hc t

/-- What is written as a name and a colon is skipped as one. -/
theorem skipName_stringChars (name : String) (rest : List Char) :
    skipName (Json.stringChars name ++ ':' :: rest) = .ok rest := by
  rw [stringChars_append, skipName, skipBlanks_cons (by decide)]
  simp only [skipString_flatMap, skipBlanks_cons (show isBlank ':' = false by decide)]

section Moves

variable (outer : List Enclosure)

theorem skipOpen_emptyArray (rest : List Char) :
    skipOpen outer ('[' :: ']' :: rest) = skipClose outer rest := by
  have hopen := skipBlanks_cons (c := '[') (by decide) (']' :: rest)
  have hclose := skipBlanks_cons (c := ']') (by decide) rest
  grind [skipOpen]

theorem skipOpen_array {t : List Char} (h : StartsValue t) :
    skipOpen outer ('[' :: t) = skipOpen (.array :: outer) t := by
  have hopen := skipBlanks_cons (c := '[') (by decide) t
  have hvalue := h.skipBlanks_eq
  obtain ⟨c, u, rfl, -, hne⟩ := h
  rw [skipOpen.eq_def outer]
  grind

theorem skipOpen_emptyObject (rest : List Char) :
    skipOpen outer ('\x7b' :: '\x7d' :: rest) = skipClose outer rest := by
  have hopen := skipBlanks_cons (c := '\x7b') (by decide) ('\x7d' :: rest)
  have hclose := skipBlanks_cons (c := '\x7d') (by decide) rest
  grind [skipOpen]

theorem skipOpen_object (name : String) (rest : List Char) :
    skipOpen outer ('\x7b' :: (Json.stringChars name ++ ':' :: rest)) =
      skipOpen (.object :: outer) rest := by
  have hopen := skipBlanks_cons (c := '\x7b') (by decide) (Json.stringChars name ++ ':' :: rest)
  have hname := skipName_stringChars name rest
  have hquote : skipBlanks (Json.stringChars name ++ ':' :: rest) =
      '"' :: (name.toList.flatMap Json.escapeChar ++ '"' :: ':' :: rest) := by
    rw [stringChars_append, skipBlanks_cons (by decide)]
  rw [skipOpen.eq_def outer]
  grind

theorem skipOpen_scalar {s rest : List Char} (hs : StartsScalar s) (h : skipScalar s = .ok rest) :
    skipOpen outer s = skipClose outer rest := by
  have hblanks := hs.startsValue.skipBlanks_eq
  obtain ⟨c, t, rfl, -, -, harray, hobject⟩ := hs
  rw [skipOpen.eq_def outer]
  grind

theorem skipClose_array_comma (t : List Char) :
    skipClose (.array :: outer) (',' :: t) = skipOpen (.array :: outer) t := by
  have hcomma := skipBlanks_cons (c := ',') (by decide) t
  grind [skipClose]

theorem skipClose_array_end (t : List Char) :
    skipClose (.array :: outer) (']' :: t) = skipClose outer t := by
  have hclose := skipBlanks_cons (c := ']') (by decide) t
  grind [skipClose]

theorem skipClose_object_comma (name : String) (rest : List Char) :
    skipClose (.object :: outer) (',' :: (Json.stringChars name ++ ':' :: rest)) =
      skipOpen (.object :: outer) rest := by
  have hcomma := skipBlanks_cons (c := ',') (by decide) (Json.stringChars name ++ ':' :: rest)
  have hname := skipName_stringChars name rest
  rw [skipClose.eq_def]
  grind

theorem skipClose_object_end (t : List Char) :
    skipClose (.object :: outer) ('\x7d' :: t) = skipClose outer t := by
  have hclose := skipBlanks_cons (c := '\x7d') (by decide) t
  grind [skipClose]

end Moves

/-! ## Values -/

section Texts

variable (name : String) (v : Json) (rest : List Char)

theorem chars_array_append (vs : List Json) :
    (Json.array (v :: vs)).chars ++ rest = '[' :: (v.chars ++ (Json.itemsChars vs ++ rest)) := by
  simp [Json.chars]

theorem itemsChars_append (vs : List Json) :
    Json.itemsChars (v :: vs) ++ rest = ',' :: (v.chars ++ (Json.itemsChars vs ++ rest)) := by
  simp [Json.itemsChars]

theorem chars_object_append (ms : List (String × Json)) :
    (Json.object ((name, v) :: ms)).chars ++ rest =
      '\x7b' :: (Json.stringChars name ++ ':' :: (v.chars ++ (Json.membersChars ms ++ rest))) := by
  simp [Json.chars]

theorem membersChars_append (ms : List (String × Json)) :
    Json.membersChars ((name, v) :: ms) ++ rest =
      ',' :: (Json.stringChars name ++ ':' :: (v.chars ++ (Json.membersChars ms ++ rest))) := by
  simp [Json.membersChars]

end Texts

/-- The text ends here, or there is a mark behind a value. -/
def EndsValue (s : List Char) : Prop :=
  ∀ c t, s = c :: t → c = ',' ∨ c = ']' ∨ c = '\x7d'

theorem EndsValue.endsNumber {s : List Char} (h : EndsValue s) : EndsNumber s := by
  intro c t hs
  rcases h c t hs with rfl | rfl | rfl <;> decide

theorem endsValue_itemsChars (vs : List Json) (rest : List Char) :
    EndsValue (Json.itemsChars vs ++ rest) := by
  cases vs <;> rintro _ _ ⟨⟩ <;> simp

theorem endsValue_membersChars (ms : List (String × Json)) (rest : List Char) :
    EndsValue (Json.membersChars ms ++ rest) := by
  cases ms <;> rintro _ _ ⟨⟩ <;> simp

theorem startsScalar_numberChars (x : JsonNumber) (rest : List Char) :
    StartsScalar (x.chars ++ rest) := by
  obtain ⟨t, ht, hx | hx⟩ := exists_unsignedText x
  · obtain ⟨c, s, rfl, hc⟩ := ht.starts
    have hne : ∀ d, d.isDigit = false → c ≠ d := by
      rintro d hd rfl
      exact absurd hc (by rw [hd]; decide)
    refine ⟨c, s ++ rest, by rw [hx, List.cons_append], ?_, hne _ rfl, hne _ rfl, hne _ rfl⟩
    simp [isBlank, hne ' ' rfl, hne '\n' rfl, hne '\t' rfl, hne '\r' rfl]
  · exact ⟨'-', t ++ rest, by rw [hx, List.cons_append], by decide, by decide, by decide, by decide⟩

theorem startsScalar_stringChars (s : String) (rest : List Char) :
    StartsScalar (Json.stringChars s ++ rest) := by
  rw [stringChars_append]
  exact ⟨'"', _, rfl, by decide, by decide, by decide, by decide⟩

theorem startsValue_chars (v : Json) (rest : List Char) : StartsValue (v.chars ++ rest) := by
  unfold Json.chars
  split
  case h_4 n => exact (startsScalar_numberChars n rest).startsValue
  case h_5 s => exact (startsScalar_stringChars s rest).startsValue
  all_goals exact ⟨_, _, rfl, by decide, by decide⟩

mutual

/-- Behind the text of a value the same is open around it as before. -/
theorem skipOpen_chars (v : Json) (outer : List Enclosure) {rest : List Char}
    (h : EndsValue rest) : skipOpen outer (v.chars ++ rest) = skipClose outer rest := by
  match v with
  | .null | .bool true | .bool false =>
      exact skipOpen_scalar outer ⟨_, _, rfl, by decide, by decide, by decide, by decide⟩ rfl
  | .number n =>
      exact skipOpen_scalar outer (startsScalar_numberChars n rest)
        (skipScalar_numberChars n h.endsNumber)
  | .string s =>
      refine skipOpen_scalar outer (startsScalar_stringChars s rest) ?_
      show skipScalar (Json.stringChars s ++ rest) = .ok rest
      rw [stringChars_append]
      exact skipString_flatMap s.toList rest
  | .array [] => exact skipOpen_emptyArray outer rest
  | .array (v :: vs) =>
      rw [chars_array_append, skipOpen_array outer (startsValue_chars v _),
        skipOpen_chars v _ (endsValue_itemsChars vs rest)]
      exact skipClose_itemsChars vs outer rest
  | .object [] => exact skipOpen_emptyObject outer rest
  | .object ((name, v) :: ms) =>
      rw [chars_object_append, skipOpen_object,
        skipOpen_chars v _ (endsValue_membersChars ms rest)]
      exact skipClose_membersChars ms outer rest

/-- The other items of an array are skipped up to its end. -/
theorem skipClose_itemsChars (vs : List Json) (outer : List Enclosure) (rest : List Char) :
    skipClose (.array :: outer) (Json.itemsChars vs ++ rest) = skipClose outer rest := by
  match vs with
  | [] => exact skipClose_array_end outer rest
  | v :: vs =>
      rw [itemsChars_append, skipClose_array_comma,
        skipOpen_chars v _ (endsValue_itemsChars vs rest)]
      exact skipClose_itemsChars vs outer rest

/-- The other members of an object are skipped up to its end. -/
theorem skipClose_membersChars (ms : List (String × Json)) (outer : List Enclosure)
    (rest : List Char) :
    skipClose (.object :: outer) (Json.membersChars ms ++ rest) = skipClose outer rest := by
  match ms with
  | [] => exact skipClose_object_end outer rest
  | (name, v) :: ms =>
      rw [membersChars_append, skipClose_object_comma,
        skipOpen_chars v _ (endsValue_membersChars ms rest)]
      exact skipClose_membersChars ms outer rest

end

/-- A written value is skipped as a whole. -/
theorem skipValue_chars (v : Json) {rest : List Char} (h : EndsValue rest) :
    skipValue (v.chars ++ rest) = .ok rest := by
  rw [skipValue, skipOpen_chars v [] h, skipClose]

end LockFreeRings.Scan
