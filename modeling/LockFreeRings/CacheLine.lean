import LockFreeRings.DebugText
set_option autoImplicit false

/-!
# Cache lines

Values that different threads write must not share a cache line.  A padded value
starts on a line of its own and fills whole lines, so its size is the size of
the value rounded up to lines.  Padding changes nothing about the value: it is
read, replaced and taken out as before, and hints to fetch its line early have
no effect that can be seen.
-/

namespace LockFreeRings

/-! ## Layout -/

/-- The bytes of a cache line. -/
def lineBytes : Nat := 64

/-- The bytes that a value of `bytes` bytes takes with its padding. -/
def paddedBytes (bytes : Nat) : Nat := (bytes + (lineBytes - 1)) / lineBytes * lineBytes

theorem lineBytes_dvd_paddedBytes (bytes : Nat) : lineBytes ∣ paddedBytes bytes :=
  Nat.dvd_mul_left _ _

theorem le_paddedBytes (bytes : Nat) : bytes ≤ paddedBytes bytes := by
  simp only [paddedBytes, lineBytes]
  omega

theorem paddedBytes_lt (bytes : Nat) : paddedBytes bytes < bytes + lineBytes := by
  simp only [paddedBytes, lineBytes]
  omega

/-! ## Padded values -/

/-- A value on cache lines of its own. -/
structure Padded (α : Type) where
  value : α
  deriving DecidableEq, Repr

/-- How a padded value is shown to a programmer. -/
def Padded.debugText {α : Type} (show_ : α → DebugText) (p : Padded α) : DebugText :=
  .record "CachePadded" [("value", show_ p.value)] false

/-- What is padded: numbers, truth values, lists, and padded values again. -/
inductive Payload where
  | integer (n : Int)
  | truth (b : Bool)
  | list (items : List Payload)
  | padded (inner : Payload)
  deriving Repr

namespace Payload

mutual

/-- How a payload is shown to a programmer. -/
def debugText : Payload → DebugText
  | .integer n => .atom (toString n)
  | .truth b => .truth b
  | .list items => .list (debugTexts items)
  | .padded inner => .record "CachePadded" [("value", inner.debugText)] false

/-- How the payloads of a list are shown. -/
def debugTexts : List Payload → List DebugText
  | [] => []
  | p :: ps => p.debugText :: debugTexts ps

end

end Payload

/-! ## Using a padded value -/

namespace PaddedCell

/-- What is done with a padded value. -/
inductive Command where
  | get
  | set (v : Payload)
  /-- hint that the value is about to be read, and about to be written -/
  | prefetch
  | debug
  | debugExpanded
  /-- whether the value starts on a line -/
  | aligned
  /-- ends the padded value and gives what it held -/
  | intoInner

/-- What a command answers. -/
inductive Reply where
  | value (v : Payload)
  | stored
  | text (s : String)
  | truth (b : Bool)
  /-- the value was taken out before -/
  | gone

/-- Carries out a command; there is no cell any more once its value was taken
out. -/
def exec (cell : Option (Padded Payload)) (command : Command) :
    Option (Padded Payload) × Reply :=
  match cell with
  | none => (none, .gone)
  | some p =>
    match command with
    | .get => (some p, .value p.value)
    | .set v => (some ⟨v⟩, .stored)
    | .prefetch => (some p, .value p.value)
    | .debug => (some p, .text (p.debugText Payload.debugText).compact)
    | .debugExpanded => (some p, .text (p.debugText Payload.debugText).expanded)
    | .aligned => (some p, .truth true)
    | .intoInner => (none, .value p.value)

/-- Carries out commands in turn. -/
def run (cell : Option (Padded Payload)) : List Command → List Reply
  | [] => []
  | command :: rest =>
    let (cell, reply) := exec cell command
    reply :: run cell rest

end PaddedCell

end LockFreeRings
