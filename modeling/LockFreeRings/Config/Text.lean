import LockFreeRings.Config.Format
import LockFreeRings.Json.Reader
set_option autoImplicit false

/-!
# Reading configurations from texts

A JSON text is a format too (`RingConfig.textFormat`).  It is read from left to
right, up to the first thing that is wrong, be it the writing or the data.  So a
text that is wrong in two places answers for the earlier one, and what stands
behind a wrong capacity is never looked at.  Members other than the capacity are
skipped whatever they hold.
-/

namespace LockFreeRings

namespace RingConfig

open Scan

/-- What stands at the head of a text, which does not start with a blank.  Only
the opening bracket of an array or an object is looked at. -/
def readFound : Scan FoundValue
  | '[' :: s => .ok (.sequence, s)
  | '\x7b' :: s => .ok (.map, s)
  | s => (Json.readScalar s).map fun (value, rest) => (FoundValue.ofJson value, rest)

/-- Whether a number starts here. -/
def startsNumber : List Char → Bool
  | [] => false
  | c :: _ => c = '-' || c.isDigit

/-- Reads a capacity, after blanks. -/
def readCapacity (s : List Char) : Except ConfigError (UInt64 × List Char) :=
  let s := skipBlanks s
  if startsNumber s then
    match number s with
    | .error fault => .error (.text fault)
    | .ok (n, rest) => (capacityOfNumber n).map fun capacity => (capacity, rest)
  else
    match readFound s with
    | .error fault => .error (.text fault)
    | .ok (found, _) => .error (.wrongKind found .capacity)

/-- Reads the colon after a member's name. -/
def readColon (s : List Char) : Except ConfigError (List Char) :=
  match skipBlanks s with
  | [] => .error (.text .ended)
  | ':' :: rest => .ok rest
  | _ => .error (.text .malformed)

/-- A place in a text: what is left of it, and whether a bracket was opened right before. -/
structure TextPlace where
  opened : Bool
  rest : List Char

/-- Reads a name after its opening quote. -/
def readKey (s : List Char) : Except ConfigError (Option String × TextPlace) :=
  match stringTail s with
  | .error fault => .error (.text fault)
  | .ok (name, rest) => .ok (some (String.ofList name), ⟨false, rest⟩)

/-- A capacity and the place behind it. -/
def readWord (s : List Char) : Except ConfigError (UInt64 × TextPlace) :=
  (readCapacity s).map fun (c, rest) => (c, ⟨false, rest⟩)

/-- A capacity by position. -/
def readElement (s : List Char) : Except ConfigError (Option UInt64 × TextPlace) :=
  (readWord s).map fun (c, p) => (some c, p)

/-- The place behind a closing bracket that has to stand here, after blanks. -/
def readClosing (bracket : Char) (s : List Char) : Except ConfigError TextPlace :=
  match skipBlanks s with
  | [] => .error (.text .ended)
  | c :: rest => if c = bracket then .ok ⟨false, rest⟩ else .error (.text .malformed)

/-- The text of a JSON value as a format.  A comma stands before each field but the first. -/
def textFormat : Format TextPlace ConfigError where
  openStruct p :=
    match skipBlanks p.rest with
    | '[' :: s => .ok (.sequence, ⟨true, s⟩)
    | '\x7b' :: s => .ok (.map, ⟨true, s⟩)
    | s =>
      match readFound s with
      | .error fault => .error (.text fault)
      | .ok (found, _) => .error (.wrongKind found .config)
  nextKey p :=
    match skipBlanks p.rest with
    | [] => .error (.text .ended)
    | '\x7d' :: s => .ok (none, ⟨p.opened, '\x7d' :: s⟩)
    | '"' :: s => if p.opened then readKey s else .error (.text .malformed)
    | ',' :: s =>
      if p.opened then .error (.text .malformed)
      else
        match skipBlanks s with
        | [] => .error (.text .ended)
        | '"' :: s => readKey s
        | _ => .error (.text .malformed)
    | _ => .error (.text .malformed)
  nextWord p :=
    match readColon p.rest with
    | .error e => .error e
    | .ok s => readWord s
  skipValue p :=
    match readColon p.rest with
    | .error e => .error e
    | .ok s =>
      match skipValue s with
      | .error fault => .error (.text fault)
      | .ok rest => .ok ⟨false, rest⟩
  nextElement p :=
    match skipBlanks p.rest with
    | [] => .error (.text .ended)
    | ']' :: s => .ok (none, ⟨p.opened, ']' :: s⟩)
    | c :: s =>
      if p.opened then readElement (c :: s)
      else if c = ',' then readElement s
      else .error (.text .malformed)
  endMap p := readClosing '\x7d' p.rest
  endSequence p := readClosing ']' p.rest
  repeated := .repeatedCapacity
  endless := .text .malformed

/-- Only blanks may follow. -/
def endText (p : TextPlace) : Except ConfigError Unit :=
  if skipBlanks p.rest = [] then .ok () else .error (.text .malformed)

/-- Reads a configuration from the characters of a JSON text, which has fewer fields than
characters. -/
def ofChars (s : List Char) : Except ConfigError RingConfig :=
  match textFormat.readStruct (s.length + 1) ⟨false, s⟩ with
  | .error e => .error e
  | .ok (config, p) => (endText p).map fun _ => config

/-- Reads a configuration from a JSON text. -/
def ofText (text : String) : Except ConfigError RingConfig := ofChars text.toList

/-- Whether a configuration reads back from the text it is written as. -/
def survivesText (config : RingConfig) : Bool :=
  match ofText config.toJson.compact with
  | .ok read => read = config
  | .error _ => false

end RingConfig

end LockFreeRings
