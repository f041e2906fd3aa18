import LockFreeRings.Config
set_option autoImplicit false

/-!
# Reading configurations place by place

The reader of a configuration does not know what it reads from.  It asks a `Format`, one thing
after another: whether fields come by name or by position, what the next name is, what word
stands behind it.  Each answer leads to another place in what is being read.

`Format.readStruct` is that reader.  A field that it does not know is passed over, a field that
is missing has its default, and a field may not stand twice.

A JSON value is such a format (`RingConfig.valueFormat`); the text of one is another.
-/

namespace LockFreeRings

/-- How the fields of a struct stand in what is read. -/
inductive Layout where
  /-- by name -/
  | map
  /-- by position -/
  | sequence
  deriving DecidableEq, Repr

/-- What the reader of a configuration can ask for at a place `P`; an answer is an error `E`, or
it leads to another place. -/
structure Format (P E : Type) where
  /-- a struct has to start here -/
  openStruct : P → Except E (Layout × P)
  /-- the name of the next field, if there is one -/
  nextKey : P → Except E (Option String × P)
  /-- the word behind a name -/
  nextWord : P → Except E (UInt64 × P)
  /-- what stands behind a name, whatever it is, is passed over -/
  skipValue : P → Except E P
  /-- the next element as a word, if there is one -/
  nextElement : P → Except E (Option UInt64 × P)
  /-- the fields by name have to end here -/
  endMap : P → Except E P
  /-- the fields by position have to end here -/
  endSequence : P → Except E P
  /-- a field stands twice -/
  repeated : E
  /-- there are more fields than there can be -/
  endless : E

namespace Format

variable {P E : Type}

/-- Reads fields by name, at most `fuel` of them, up to the last; gives the capacity known by
then. -/
def readFields (F : Format P E) : Nat → Option UInt64 → P → Except E (Option UInt64 × P)
  | 0, _, _ => .error F.endless
  | fuel + 1, known, p =>
    match F.nextKey p with
    | .error e => .error e
    | .ok (none, p) => .ok (known, p)
    | .ok (some name, p) =>
      if name = RingConfig.memberName then
        if known.isSome then .error F.repeated
        else
          match F.nextWord p with
          | .error e => .error e
          | .ok (c, p) => readFields F fuel (some c) p
      else
        match F.skipValue p with
        | .error e => .error e
        | .ok p => readFields F fuel known p

/-- The configuration whose capacity was read, or was not. -/
def configOf (known : Option UInt64) : RingConfig := ⟨known.getD (default : RingConfig).capacity⟩

/-- Reads a configuration of at most `fuel` fields. -/
def readStruct (F : Format P E) (fuel : Nat) (p : P) : Except E (RingConfig × P) :=
  match F.openStruct p with
  | .error e => .error e
  | .ok (.map, p) =>
    match F.readFields fuel none p with
    | .error e => .error e
    | .ok (known, p) => (F.endMap p).map fun p => (configOf known, p)
  | .ok (.sequence, p) =>
    match F.nextElement p with
    | .error e => .error e
    | .ok (first?, p) => (F.endSequence p).map fun p => (configOf first?, p)

end Format

namespace RingConfig

/-! ## Values -/

/-- A place in a value that is read as a configuration. -/
inductive ValuePlace where
  | value (v : Json)
  /-- before members of an object -/
  | members (ms : List (String × Json))
  /-- behind the name of a member, before its value and the members after it -/
  | member (v : Json) (ms : List (String × Json))
  /-- before elements of an array of `count` in all -/
  | items (count : Nat) (vs : List Json)
  | nothing

/-- A JSON value as a format.  Nothing is asked for where it cannot stand; elements behind the
last one asked for are found at the end. -/
def valueFormat : Format ValuePlace ConfigError where
  openStruct
    | .value (.object ms) => .ok (.map, .members ms)
    | .value (.array vs) => .ok (.sequence, .items vs.length vs)
    | .value v => .error (.wrongKind (.ofJson v) .config)
    | _ => .error (.text .malformed)
  nextKey
    | .members [] => .ok (none, .members [])
    | .members ((name, v) :: ms) => .ok (some name, .member v ms)
    | _ => .error (.text .malformed)
  nextWord
    | .member v ms => (capacityOfJson v).map fun c => (c, .members ms)
    | _ => .error (.text .malformed)
  skipValue
    | .member _ ms => .ok (.members ms)
    | _ => .error (.text .malformed)
  nextElement
    | .items count [] => .ok (none, .items count [])
    | .items count (v :: vs) => (capacityOfJson v).map fun c => (some c, .items count vs)
    | _ => .error (.text .malformed)
  endMap
    | .members [] => .ok .nothing
    | _ => .error (.text .malformed)
  endSequence
    | .items _ [] => .ok .nothing
    | .items count _ => .error (.tooManyElements count)
    | _ => .error (.text .malformed)
  repeated := .repeatedCapacity
  endless := .text .malformed

/-- How many members a value has. -/
def memberCount : Json → Nat
  | .object ms => ms.length
  | _ => 0

/-- Reads a configuration from a JSON value. -/
def ofJson (v : Json) : Except ConfigError RingConfig :=
  (valueFormat.readStruct (memberCount v + 1) (.value v)).map Prod.fst

end RingConfig

end LockFreeRings
