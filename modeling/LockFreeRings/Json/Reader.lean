import LockFreeRings.Json.Skip
set_option autoImplicit false

/-!
# Reading JSON texts

`Json.ofText` reads a text that is one value with blanks around it.  Of two
members of one name the later one counts, in the place of the earlier.

The arrays and objects that are open at a place of the text are a stack, the
innermost first, each with what was read of it.  `readOpen` stands where a value
has to start, `readClose` where one has ended.
-/

namespace LockFreeRings.Json

open Scan

/-- The members with one more; a name that is there gets the new value. -/
def putMember (members : List (String × Json)) (name : String) (value : Json) :
    List (String × Json) :=
  if members.any (·.1 = name) then
    members.map fun member => if member.1 = name then (name, value) else member
  else members ++ [(name, value)]

/-! ## Parts -/

/-- A value that is neither an array nor an object. -/
def readScalar : Scan Json
  | [] => .error .ended
  | '"' :: s => (stringTail s).map fun (cs, rest) => (.string (String.ofList cs), rest)
  | 'n' :: s => (word ['u', 'l', 'l'] s).map fun rest => (.null, rest)
  | 't' :: s => (word ['r', 'u', 'e'] s).map fun rest => (.bool true, rest)
  | 'f' :: s => (word ['a', 'l', 's', 'e'] s).map fun rest => (.bool false, rest)
  | c :: s =>
    if c = '-' ∨ c.isDigit then (Scan.number (c :: s)).map fun (n, rest) => (.number n, rest)
    else .error .malformed

theorem exists_of_map_eq_ok {α β : Type} {f : α → β} {x : Except TextFault α} {b : β}
    (h : x.map f = .ok b) : ∃ a, x = .ok a ∧ f a = b := by
  cases x with
  | error fault => cases h
  | ok a =>
    cases h
    exact ⟨a, rfl, rfl⟩

theorem length_lt_of_readScalar {s rest : List Char} {v : Json}
    (h : readScalar s = .ok (v, rest)) : rest.length < s.length := by
  unfold readScalar at h
  split at h
  · cases h
  · obtain ⟨⟨cs, after⟩, hs, he⟩ := exists_of_map_eq_ok h
    cases he
    exact Nat.lt_succ_of_lt (length_lt_of_stringTail hs)
  · obtain ⟨after, hs, he⟩ := exists_of_map_eq_ok h
    cases he
    exact Nat.lt_succ_of_le (length_le_of_word hs)
  · obtain ⟨after, hs, he⟩ := exists_of_map_eq_ok h
    cases he
    exact Nat.lt_succ_of_le (length_le_of_word hs)
  · obtain ⟨after, hs, he⟩ := exists_of_map_eq_ok h
    cases he
    exact Nat.lt_succ_of_le (length_le_of_word hs)
  · split at h
    · obtain ⟨⟨n, after⟩, hs, he⟩ := exists_of_map_eq_ok h
      cases he
      exact length_lt_of_number hs
    · cases h

/-- The name of a member, up to the colon behind it. -/
def readName (s : List Char) : Except TextFault (String × List Char) :=
  match skipBlanks s with
  | [] => .error .ended
  | '"' :: s =>
    match stringTail s with
    | .error fault => .error fault
    | .ok (cs, s) =>
      match skipBlanks s with
      | [] => .error .ended
      | ':' :: rest => .ok (String.ofList cs, rest)
      | _ => .error .malformed
  | _ => .error .malformed

theorem length_lt_of_readName {s rest : List Char} {name : String}
    (h : readName s = .ok (name, rest)) : rest.length < s.length := by
  unfold readName at h
  split at h
  · cases h
  · next s hs =>
    have := length_lt_of_skipBlanks hs
    split at h
    · cases h
    · next hq =>
      have := length_lt_of_stringTail hq
      split at h
      · cases h
      · next hr =>
        cases h
        have := length_lt_of_skipBlanks hr
        omega
      · cases h
  · cases h

/-! ## Values -/

/-- An array or object of which a part was read. -/
inductive Unfinished where
  /-- the items read, the last one first -/
  | array (items : List Json)
  /-- the members read, and the name of the one whose value comes next -/
  | object (members : List (String × Json)) (name : String)

mutual

/-- Reads a value that has to start here, after blanks, and then what is left of
all that is open around it. -/
def readOpen (outer : List Unfinished) (s : List Char) : Except TextFault (Json × List Char) :=
  match hs : skipBlanks s with
  | '[' :: t =>
    have := length_lt_of_skipBlanks hs
    match ht : skipBlanks t with
    | ']' :: rest =>
      have := length_lt_of_skipBlanks ht
      readClose outer (.array []) rest
    | _ => readOpen (.array [] :: outer) t
  | '\x7b' :: t =>
    have := length_lt_of_skipBlanks hs
    match ht : skipBlanks t with
    | '\x7d' :: rest =>
      have := length_lt_of_skipBlanks ht
      readClose outer (.object []) rest
    | _ =>
      match hn : readName t with
      | .error fault => .error fault
      | .ok (name, rest) =>
        have := length_lt_of_readName hn
        readOpen (.object [] name :: outer) rest
  | _ =>
    match ht : readScalar (skipBlanks s) with
    | .error fault => .error fault
    | .ok (value, rest) =>
      have := Nat.lt_of_lt_of_le (length_lt_of_readScalar ht) (length_skipBlanks_le s)
      readClose outer value rest
termination_by s.length

/-- Reads what is left, behind a value, of all that is open around it. -/
def readClose (outer : List Unfinished) (value : Json) (s : List Char) :
    Except TextFault (Json × List Char) :=
  match outer with
  | [] => .ok (value, s)
  | .array items :: around =>
    match hs : skipBlanks s with
    | [] => .error .ended
    | ',' :: t =>
      have := length_lt_of_skipBlanks hs
      readOpen (.array (value :: items) :: around) t
    | ']' :: rest =>
      have := length_lt_of_skipBlanks hs
      readClose around (.array (value :: items).reverse) rest
    | _ => .error .malformed
  | .object members name :: around =>
    match hs : skipBlanks s with
    | [] => .error .ended
    | ',' :: t =>
      have := length_lt_of_skipBlanks hs
      match hn : readName t with
      | .error fault => .error fault
      | .ok (next, rest) =>
        have := length_lt_of_readName hn
        readOpen (.object (putMember members name value) next :: around) rest
    | '\x7d' :: rest =>
      have := length_lt_of_skipBlanks hs
      readClose around (.object (putMember members name value)) rest
    | _ => .error .malformed
termination_by s.length

end

/-- Reads a text that is one value. -/
def ofText (text : String) : Except TextFault Json :=
  match readOpen [] text.toList with
  | .error fault => .error fault
  | .ok (value, rest) => if skipBlanks rest = [] then .ok value else .error .malformed

end LockFreeRings.Json
