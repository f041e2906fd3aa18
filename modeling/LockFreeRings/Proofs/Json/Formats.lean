import LockFreeRings.Config.Text
import LockFreeRings.Proofs.Formats
import LockFreeRings.Proofs.Json.Skipping
set_option autoImplicit false

/-!
# Values and their texts present what they hold

A JSON value presents itself (`RingConfig.valueFormat_presents`), and so does its text without
blanks (`RingConfig.textFormat_presents`): at each place of the text that the reader comes to,
the text of what is still to be read is left.  Nothing is asked of the values that the reader
passes over.
-/

namespace LockFreeRings

/-! ## Lengths -/

namespace Scan

/-- Each move of the machine that skips leaves no more than there was. -/
theorem length_le_of_skip :
    (∀ outer s rest, skipOpen outer s = .ok rest → rest.length ≤ s.length) ∧
      ∀ outer s rest, skipClose outer s = .ok rest → rest.length ≤ s.length := by
  apply skipOpen.mutual_induct
    (fun outer s => ∀ rest, skipOpen outer s = .ok rest → rest.length ≤ s.length)
    (fun outer s => ∀ rest, skipClose outer s = .ok rest → rest.length ≤ s.length)
  all_goals
    intros
    rename_i hskip
    first
    | rw [skipOpen.eq_def] at hskip
    | rw [skipClose.eq_def] at hskip
    grind

end Scan

namespace RingConfig

open Scan

variable {c : UInt64} {v : Json} {rest : List Char}

/-! ## Capacities -/

theorem map_eq_ok_iff {α β : Type} {f : α → β} {x : Except ConfigError α} {b : β} :
    x.map f = .ok b ↔ ∃ a, x = .ok a ∧ f a = b := by
  cases x <;> simp [Except.map]

theorem capacityOfNumber_eq_ok_iff {n : JsonNumber} :
    capacityOfNumber n = .ok c ↔ n = .natural c := by
  cases n <;> simp [capacityOfNumber]

theorem capacityOfJson_eq_ok_iff : capacityOfJson v = .ok c ↔ v = .number (.natural c) := by
  cases v <;> simp [capacityOfJson, capacityOfNumber_eq_ok_iff]

/-- A number starts where a number is written, and nowhere else. -/
theorem startsNumber_chars_iff : startsNumber (v.chars ++ rest) = true ↔ ∃ n, v = .number n := by
  constructor
  · intro h
    unfold Json.chars at h
    split at h
    case h_4 n => exact ⟨n, rfl⟩
    all_goals simp [startsNumber, Json.stringChars] at h
  · rintro ⟨n, rfl⟩
    show startsNumber (n.chars ++ rest) = true
    obtain ⟨t, ht, hn | hn⟩ := exists_unsignedText n
    · obtain ⟨c, s, rfl, hc⟩ := ht.starts
      simp [hn, startsNumber, hc]
    · simp [hn, startsNumber]

/-- A capacity is read where one is written, and nowhere else. -/
theorem readCapacity_chars_eq_ok_iff (hrest : EndsValue rest) {after : List Char} :
    readCapacity (v.chars ++ rest) = .ok (c, after) ↔
      v = .number (.natural c) ∧ after = rest := by
  rw [readCapacity, (startsValue_chars v rest).skipBlanks_eq]
  constructor
  · intro h
    split at h
    · next hstarts =>
      obtain ⟨n, rfl⟩ := startsNumber_chars_iff.mp hstarts
      split at h
      · cases h
      · next m after' hread =>
        obtain ⟨c', hc, heq⟩ := map_eq_ok_iff.mp h
        cases heq
        cases capacityOfNumber_eq_ok_iff.mp hc
        obtain ⟨rfl, rfl⟩ := natural_of_number hrest.endsNumber hread
        exact ⟨rfl, rfl⟩
    · split at h <;> cases h
  · rintro ⟨rfl, rfl⟩
    have hread : number ((Json.number (.natural c)).chars ++ after) = .ok (.natural c, after) :=
      number_digits c hrest.endsNumber
    rw [if_pos (startsNumber_chars_iff.mpr ⟨_, rfl⟩), hread]
    rfl

theorem length_le_of_readCapacity {s after : List Char} (h : readCapacity s = .ok (c, after)) :
    after.length ≤ s.length := by
  have hblanks := length_skipBlanks_le s
  simp only [readCapacity] at h
  split at h
  · split at h
    · cases h
    · next hnumber =>
      obtain ⟨c', -, heq⟩ := map_eq_ok_iff.mp h
      cases heq
      have := length_lt_of_number hnumber
      omega
  · split at h <;> cases h

/-! ## Values -/

/-- What is still to be read at a place of a value. -/
def ValuePlace.Holds : Pending → ValuePlace → Prop
  | .value v, p => p = .value v
  | .members ms, p => p = .members ms
  | .member v ms, p => p = .member v ms
  | .items vs, p => ∃ count, p = .items count vs
  | .nothing, p => p = .nothing

/-- How many fields there can be, at most. -/
def ValuePlace.size : ValuePlace → Nat
  | .value v => memberCount v
  | .members ms | .member _ ms => ms.length
  | _ => 0

theorem valueFormat_shrinks : valueFormat.Shrinks ValuePlace.size where
  openStruct {p q layout} h := by
    simp only [valueFormat] at h
    split at h <;> cases h
    · exact Nat.le_refl _
    · exact Nat.zero_le _
  nextKey {p q name} h := by
    simp only [valueFormat] at h
    split at h <;> cases h
    exact Nat.lt_succ_self _
  nextWord {p q c} h := by
    simp only [valueFormat] at h
    split at h
    · obtain ⟨c', -, heq⟩ := map_eq_ok_iff.mp h
      cases heq
      exact Nat.le_refl _
    · cases h
  skipValue {p q} h := by
    simp only [valueFormat] at h
    split at h <;> cases h
    exact Nat.le_refl _

theorem valueFormat_presents : valueFormat.Presents ValuePlace.Holds where
  object {p ms} := by
    rintro rfl
    exact ⟨ms, _, .refl ms, rfl, rfl⟩
  array {p vs} := by
    rintro rfl
    exact ⟨_, rfl, vs.length, rfl⟩
  scalar {p v} := by
    rintro rfl hobject harray layout q h
    cases v with
    | object ms => exact hobject ms rfl
    | array vs => exact harray vs rfl
    | null | bool | number | string => cases h
  key {p name v ms} := by
    rintro rfl
    exact ⟨_, rfl, rfl⟩
  lastKey {p} := by
    rintro rfl
    exact ⟨_, rfl, rfl⟩
  word {p c ms} := by
    rintro rfl
    exact ⟨_, rfl, rfl⟩
  noWord {p v ms} := by
    rintro rfl hv c q h
    obtain ⟨c', hc, -⟩ := map_eq_ok_iff.mp h
    exact hv c' (capacityOfJson_eq_ok_iff.mp hc)
  skip {p v ms} := by
    rintro rfl
    exact ⟨_, rfl, rfl⟩
  element {p c vs} := by
    rintro ⟨count, rfl⟩
    exact ⟨_, rfl, count, rfl⟩
  noElement {p v vs} := by
    rintro ⟨count, rfl⟩ hv first? q h
    obtain ⟨c, hc, -⟩ := map_eq_ok_iff.mp h
    exact hv c (capacityOfJson_eq_ok_iff.mp hc)
  lastElement {p} := by
    rintro ⟨count, rfl⟩
    exact ⟨_, rfl, count, rfl⟩
  endMap {p} := by
    rintro rfl
    exact ⟨_, rfl, rfl⟩
  endSequence {p} := by
    rintro ⟨count, rfl⟩
    exact ⟨_, rfl, rfl⟩
  moreElements {p v vs} := by
    rintro ⟨count, rfl⟩ q h
    cases h

/-! ## Texts -/

/-- The text of what is still to be read of an object: a comma stands before each member, but
for the first one behind the opening brace. -/
def fieldsChars (opened : Bool) : List (String × Json) → List Char
  | [] => ['\x7d']
  | (k, v) :: ms =>
    (if opened then [] else [',']) ++ Json.stringChars k ++ ':' :: v.chars ++ Json.membersChars ms

/-- The text of what is still to be read of an array. -/
def elementsChars (opened : Bool) : List Json → List Char
  | [] => [']']
  | v :: vs => (if opened then [] else [',']) ++ v.chars ++ Json.itemsChars vs

theorem fieldsChars_false (ms : List (String × Json)) :
    fieldsChars false ms = Json.membersChars ms := by
  cases ms with
  | nil => rfl
  | cons member ms => simp [fieldsChars, Json.membersChars]

theorem elementsChars_false (vs : List Json) : elementsChars false vs = Json.itemsChars vs := by
  cases vs with
  | nil => rfl
  | cons v vs => simp [elementsChars, Json.itemsChars]

/-- The text of what is still to be read is left. -/
def TextPlace.Holds : Pending → TextPlace → Prop
  | .value v, p => p.rest = v.chars
  | .members ms, p => p.rest = fieldsChars p.opened ms
  | .member v ms, p => p.rest = ':' :: (v.chars ++ Json.membersChars ms)
  | .items vs, p => p.rest = elementsChars p.opened vs
  | .nothing, p => p.rest = []

theorem length_le_of_readColon {s after : List Char} (h : readColon s = .ok after) :
    after.length ≤ s.length := by
  unfold readColon at h
  split at h
  · cases h
  · next heq =>
    cases h
    exact Nat.le_of_lt (length_lt_of_skipBlanks heq)
  · cases h

theorem length_lt_of_readKey {s : List Char} {name? : Option String} {p : TextPlace}
    (h : readKey s = .ok (name?, p)) : p.rest.length < s.length := by
  unfold readKey at h
  split at h
  · cases h
  · next heq =>
    cases h
    exact length_lt_of_stringTail heq

/-- Nothing but what is read is taken from the text. -/
theorem textFormat_shrinks : textFormat.Shrinks fun p => p.rest.length where
  openStruct {p q layout} h := by
    simp only [textFormat] at h
    split at h
    · next heq =>
      cases h
      exact Nat.le_of_lt (length_lt_of_skipBlanks heq)
    · next heq =>
      cases h
      exact Nat.le_of_lt (length_lt_of_skipBlanks heq)
    · split at h <;> cases h
  nextKey {p q name} h := by
    simp only [textFormat] at h
    split at h
    · cases h
    · cases h
    · next heq =>
      split at h
      · exact Nat.lt_trans (length_lt_of_readKey h) (length_lt_of_skipBlanks heq)
      · cases h
    · next heq =>
      split at h
      · cases h
      · split at h
        · cases h
        · next hquote =>
          have hcomma := length_lt_of_skipBlanks heq
          have hname := length_lt_of_skipBlanks hquote
          exact Nat.lt_trans (length_lt_of_readKey h) (Nat.lt_trans hname hcomma)
        · cases h
    · cases h
  nextWord {p q c} h := by
    simp only [textFormat] at h
    split at h
    · cases h
    · next s hcolon =>
      obtain ⟨read, hread, heq⟩ := map_eq_ok_iff.mp h
      cases heq
      exact Nat.le_trans (length_le_of_readCapacity hread) (length_le_of_readColon hcolon)
  skipValue {p q} h := by
    simp only [textFormat] at h
    split at h
    · cases h
    · next s hcolon =>
      split at h
      · cases h
      · next rest hskip =>
        cases h
        exact Nat.le_trans (length_le_of_skip.1 _ _ _ hskip) (length_le_of_readColon hcolon)

theorem readKey_flatMap (name : String) (rest : List Char) :
    readKey (name.toList.flatMap Json.escapeChar ++ '"' :: rest) =
      .ok (some name, ⟨false, rest⟩) := by
  simp only [readKey, stringTail_flatMap, String.ofList_toList]

theorem readColon_cons (rest : List Char) : readColon (':' :: rest) = .ok rest := by
  simp only [readColon, skipBlanks_cons (show isBlank ':' = false by decide)]

/-- No struct starts where a string, a number or a word is. -/
theorem openStruct_of_startsScalar {p q : TextPlace} {layout : Layout} (h : StartsScalar p.rest) :
    textFormat.openStruct p ≠ .ok (layout, q) := by
  have hs := h.startsValue.skipBlanks_eq
  obtain ⟨c, t, heq, -, -, harray, hobject⟩ := h
  intro hopen
  simp only [textFormat, hs] at hopen
  split at hopen
  · next hbracket => exact harray (List.cons.inj (heq.symm.trans hbracket)).1
  · next hbrace => exact hobject (List.cons.inj (heq.symm.trans hbrace)).1
  · split at hopen <;> cases hopen

/-- A word is read behind a colon where a capacity is written, and nowhere else. -/
theorem nextWord_eq_ok_iff {p q : TextPlace} {ms : List (String × Json)}
    (h : p.rest = ':' :: (v.chars ++ Json.membersChars ms)) :
    textFormat.nextWord p = .ok (c, q) ↔
      v = .number (.natural c) ∧ q = ⟨false, Json.membersChars ms⟩ := by
  have hrest := endsValue_membersChars ms []
  rw [List.append_nil] at hrest
  simp only [textFormat, h, readColon_cons, readWord, map_eq_ok_iff, Prod.exists, Prod.mk.injEq,
    readCapacity_chars_eq_ok_iff hrest]
  constructor
  · rintro ⟨_, _, ⟨hv, rfl⟩, rfl, hq⟩
    exact ⟨hv, hq.symm⟩
  · rintro ⟨hv, rfl⟩
    exact ⟨c, _, ⟨hv, rfl⟩, rfl, rfl⟩

/-- An element is read where a capacity is written, and nowhere else. -/
theorem nextElement_eq_ok_iff {p q : TextPlace} {vs : List Json} {first? : Option UInt64}
    (h : p.rest = elementsChars p.opened (v :: vs)) :
    textFormat.nextElement p = .ok (first?, q) ↔
      ∃ c, v = .number (.natural c) ∧ first? = some c ∧ q = ⟨false, Json.itemsChars vs⟩ := by
  have hrest := endsValue_itemsChars vs []
  rw [List.append_nil] at hrest
  have hread : textFormat.nextElement p = readElement (v.chars ++ Json.itemsChars vs) := by
    cases hp : p.opened with
    | true =>
        have hvalue := startsValue_chars v (Json.itemsChars vs)
        have hrest' : skipBlanks p.rest = v.chars ++ Json.itemsChars vs := by
          rw [h, hp]
          exact hvalue.skipBlanks_eq
        obtain ⟨d, t, ht, -, hclose⟩ := hvalue
        rw [ht] at hrest' ⊢
        simp only [textFormat, hrest', hp, if_pos]
    | false =>
        have hrest' : p.rest = ',' :: (v.chars ++ Json.itemsChars vs) := by
          rw [h, hp]
          rfl
        simp only [textFormat, hrest', skipBlanks_cons (show isBlank ',' = false by decide), hp]
        rfl
  simp only [hread, readElement, readWord, map_eq_ok_iff, Prod.exists, Prod.mk.injEq,
    readCapacity_chars_eq_ok_iff hrest]
  constructor
  · rintro ⟨_, _, ⟨_, _, ⟨hv, rfl⟩, rfl, rfl⟩, rfl, rfl⟩
    exact ⟨_, hv, rfl, rfl⟩
  · rintro ⟨c, hv, rfl, rfl⟩
    exact ⟨c, _, ⟨c, _, ⟨hv, rfl⟩, rfl, rfl⟩, rfl, rfl⟩

/-- The name of a member is read in front of its colon, behind a comma or an opening brace. -/
theorem nextKey_cons {p : TextPlace} {name : String} {ms : List (String × Json)}
    (h : p.rest = fieldsChars p.opened ((name, v) :: ms)) :
    textFormat.nextKey p =
      .ok (some name, ⟨false, ':' :: (v.chars ++ Json.membersChars ms)⟩) := by
  have hquote := skipBlanks_cons (c := '"') (by decide)
  cases hp : p.opened with
  | true =>
      have hrest : p.rest = Json.stringChars name ++ ':' :: (v.chars ++ Json.membersChars ms) := by
        simp [h, hp, fieldsChars]
      rw [stringChars_append] at hrest
      simp only [textFormat, hrest, hquote, hp, if_pos, readKey_flatMap]
  | false =>
      have hrest : p.rest =
          ',' :: (Json.stringChars name ++ ':' :: (v.chars ++ Json.membersChars ms)) := by
        simp [h, hp, fieldsChars]
      rw [stringChars_append] at hrest
      simp only [textFormat, hrest, skipBlanks_cons (show isBlank ',' = false by decide), hquote, hp,
        Bool.false_eq_true, if_false, readKey_flatMap]

/-- An array does not end before an element. -/
theorem endSequence_ne_ok {p : TextPlace} {vs : List Json}
    (h : p.rest = elementsChars p.opened (v :: vs)) (q : TextPlace) :
    textFormat.endSequence p ≠ .ok q := by
  obtain ⟨d, t, ht, hd⟩ : ∃ d t, skipBlanks p.rest = d :: t ∧ d ≠ ']' := by
    cases hp : p.opened with
    | true =>
        obtain ⟨d, t, ht, hblank, hclose⟩ := startsValue_chars v (Json.itemsChars vs)
        refine ⟨d, t, ?_, hclose⟩
        rw [h, hp, ← skipBlanks_cons hblank t, ← ht]
        rfl
    | false =>
        refine ⟨',', v.chars ++ Json.itemsChars vs, ?_, by decide⟩
        rw [h, hp]
        exact skipBlanks_cons (by decide) _
  simp only [textFormat, readClosing, ht, if_neg hd]
  rintro ⟨⟩

theorem textFormat_presents : textFormat.Presents TextPlace.Holds where
  object {p ms} h := by
    have hrest : p.rest = '\x7b' :: fieldsChars true ms := by
      rw [show p.rest = (Json.object ms).chars from h]
      cases ms <;> simp [Json.chars, fieldsChars]
    refine ⟨ms, ⟨true, fieldsChars true ms⟩, .refl ms, ?_, rfl⟩
    simp only [textFormat, hrest, skipBlanks_cons (show isBlank '\x7b' = false by decide)]
  array {p vs} h := by
    have hrest : p.rest = '[' :: elementsChars true vs := by
      rw [show p.rest = (Json.array vs).chars from h]
      cases vs <;> simp [Json.chars, elementsChars]
    refine ⟨⟨true, elementsChars true vs⟩, ?_, rfl⟩
    simp only [textFormat, hrest, skipBlanks_cons (show isBlank '[' = false by decide)]
  scalar {p v} := by
    intro h hobject harray layout q
    refine openStruct_of_startsScalar ?_
    rw [show p.rest = v.chars from h]
    cases v with
    | object ms => exact absurd rfl (hobject ms)
    | array vs => exact absurd rfl (harray vs)
    | number n => simpa [Json.chars] using startsScalar_numberChars n []
    | string s => simpa [Json.chars] using startsScalar_stringChars s []
    | null => exact ⟨_, _, rfl, by decide, by decide, by decide, by decide⟩
    | bool b => cases b <;> exact ⟨_, _, rfl, by decide, by decide, by decide, by decide⟩
  key {p name v ms} h := ⟨_, nextKey_cons h, rfl⟩
  lastKey {p} h := by
    have hrest : p.rest = ['\x7d'] := h
    refine ⟨⟨p.opened, ['\x7d']⟩, ?_, rfl⟩
    simp only [textFormat, hrest, skipBlanks_cons (show isBlank '\x7d' = false by decide)]
  word {p c ms} h := ⟨_, (nextWord_eq_ok_iff h).mpr ⟨rfl, rfl⟩, (fieldsChars_false ms).symm⟩
  noWord {p v ms} h hv c q hread := hv c ((nextWord_eq_ok_iff h).mp hread).1
  skip {p v ms} h := by
    have hrest : p.rest = ':' :: (v.chars ++ Json.membersChars ms) := h
    have hends := endsValue_membersChars ms []
    rw [List.append_nil] at hends
    refine ⟨⟨false, Json.membersChars ms⟩, ?_, (fieldsChars_false ms).symm⟩
    simp only [textFormat, hrest, readColon_cons, skipValue_chars v hends]
  element {p c vs} h :=
    ⟨_, (nextElement_eq_ok_iff h).mpr ⟨c, rfl, rfl, rfl⟩, (elementsChars_false vs).symm⟩
  noElement {p v vs} h hv first? q hread := by
    obtain ⟨c, hc, -⟩ := (nextElement_eq_ok_iff h).mp hread
    exact hv c hc
  lastElement {p} h := by
    have hrest : p.rest = [']'] := h
    refine ⟨⟨p.opened, [']']⟩, ?_, rfl⟩
    simp only [textFormat, hrest, skipBlanks_cons (show isBlank ']' = false by decide)]
  endMap {p} h := by
    have hrest : p.rest = ['\x7d'] := h
    refine ⟨⟨false, []⟩, ?_, rfl⟩
    simp only [textFormat, hrest, readClosing, skipBlanks_cons (show isBlank '\x7d' = false by decide),
      if_pos]
  endSequence {p} h := by
    have hrest : p.rest = [']'] := h
    refine ⟨⟨false, []⟩, ?_, rfl⟩
    simp only [textFormat, hrest, readClosing, skipBlanks_cons (show isBlank ']' = false by decide),
      if_pos]
  moreElements {p v vs} h q := endSequence_ne_ok h q

end RingConfig

end LockFreeRings
