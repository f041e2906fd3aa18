import LockFreeRings.Json.Scan
set_option autoImplicit false

/-!
# Skipping JSON values

A value is skipped by its writing alone; nothing of it is kept.  The arrays and
objects that are open at a place of the text are a stack, the innermost first,
so a value may be nested as deeply as its text is long.  `skipOpen` stands where
a value has to start, `skipClose` where one has ended.
-/

namespace LockFreeRings.Scan

/-- What is open around a place of a text. -/
inductive Enclosure where
  | array
  | object
  deriving DecidableEq, Repr

theorem length_lt_of_skipBlanks {s t : List Char} {c : Char} (h : skipBlanks s = c :: t) :
    t.length < s.length := by
  have := length_skipBlanks_le s
  rw [h, List.length_cons] at this
  exact this

/-! ## Parts -/

/-- Skips a value that is neither an array nor an object. -/
def skipScalar : List Char → Except TextFault (List Char)
  | [] => .error .ended
  | '"' :: s => skipString s
  | 'n' :: s => word ['u', 'l', 'l'] s
  | 't' :: s => word ['r', 'u', 'e'] s
  | 'f' :: s => word ['a', 'l', 's', 'e'] s
  | '-' :: s => skipUnsigned s
  | c :: s => if c.isDigit then skipUnsigned (c :: s) else .error .malformed

theorem length_lt_of_skipScalar {s rest : List Char} (h : skipScalar s = .ok rest) :
    rest.length < s.length := by
  unfold skipScalar at h
  split at h
  · cases h
  · exact Nat.lt_succ_of_lt (length_lt_of_skipString h)
  · exact Nat.lt_succ_of_le (length_le_of_word h)
  · exact Nat.lt_succ_of_le (length_le_of_word h)
  · exact Nat.lt_succ_of_le (length_le_of_word h)
  · exact Nat.lt_succ_of_lt (length_lt_of_skipUnsigned h)
  · split at h
    · exact length_lt_of_skipUnsigned h
    · cases h

/-- Skips the name of a member and the colon behind it. -/
def skipName (s : List Char) : Except TextFault (List Char) :=
  match skipBlanks s with
  | [] => .error .ended
  | '"' :: s =>
    match skipString s with
    | .error fault => .error fault
    | .ok s =>
      match skipBlanks s with
      | [] => .error .ended
      | ':' :: rest => .ok rest
      | _ => .error .malformed
  | _ => .error .malformed

theorem length_lt_of_skipName {s rest : List Char} (h : skipName s = .ok rest) :
    rest.length < s.length := by
  unfold skipName at h
  split at h
  · cases h
  · next s hs =>
    have := length_lt_of_skipBlanks hs
    split at h
    · cases h
    · next hq =>
      have := length_lt_of_skipString hq
      split at h
      · cases h
      · next hr =>
        cases h
        have := length_lt_of_skipBlanks hr
        omega
      · cases h
  · cases h

/-! ## Values -/

mutual

/-- Skips a value that has to start here, after blanks, and then what is left of
all that is open around it. -/
def skipOpen (outer : List Enclosure) (s : List Char) : Except TextFault (List Char) :=
  match hs : skipBlanks s with
  | '[' :: t =>
    have := length_lt_of_skipBlanks hs
    match ht : skipBlanks t with
    | ']' :: rest =>
      have := length_lt_of_skipBlanks ht
      skipClose outer rest
    | _ => skipOpen (.array :: outer) t
  | '\x7b' :: t =>
    have := length_lt_of_skipBlanks hs
    match ht : skipBlanks t with
    | '\x7d' :: rest =>
      have := length_lt_of_skipBlanks ht
      skipClose outer rest
    | _ =>
      match hn : skipName t with
      | .error fault => .error fault
      | .ok rest =>
        have := length_lt_of_skipName hn
        skipOpen (.object :: outer) rest
  | _ =>
    match ht : skipScalar (skipBlanks s) with
    | .error fault => .error fault
    | .ok rest =>
      have := Nat.lt_of_lt_of_le (length_lt_of_skipScalar ht) (length_skipBlanks_le s)
      skipClose outer rest
termination_by s.length

/-- Skips what is left, behind a value, of all that is open around it. -/
def skipClose (outer : List Enclosure) (s : List Char) : Except TextFault (List Char) :=
  match outer with
  | [] => .ok s
  | .array :: around =>
    match hs : skipBlanks s with
    | [] => .error .ended
    | ',' :: t =>
      have := length_lt_of_skipBlanks hs
      skipOpen (.array :: around) t
    | ']' :: rest =>
      have := length_lt_of_skipBlanks hs
      skipClose around rest
    | _ => .error .malformed
  | .object :: around =>
    match hs : skipBlanks s with
    | [] => .error .ended
    | ',' :: t =>
      have := length_lt_of_skipBlanks hs
      match hn : skipName t with
      | .error fault => .error fault
      | .ok rest =>
        have := length_lt_of_skipName hn
        skipOpen (.object :: around) rest
    | '\x7d' :: rest =>
      have := length_lt_of_skipBlanks hs
      skipClose around rest
    | _ => .error .malformed
termination_by s.length

end

/-- Skips a value, after blanks. -/
def skipValue (s : List Char) : Except TextFault (List Char) := skipOpen [] s

end LockFreeRings.Scan
