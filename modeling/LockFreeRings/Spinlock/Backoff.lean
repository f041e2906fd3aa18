import LockFreeRings.DebugText
set_option autoImplicit false

/-!
# Backoff

A waiter that finds a lock held pauses before it looks again, each time twice as
long as before, up to a limit.
-/

namespace LockFreeRings

/-- How many pauses a waiter makes next time. -/
structure Backoff where
  spins : UInt32 := 1
  deriving DecidableEq, Repr

namespace Backoff

/-- The most pauses made at a time. -/
def maxSpins : UInt32 := 65536

/-- Twice a number of pauses, at most the greatest word. -/
def doubled (spins : UInt32) : UInt32 :=
  if 0x80000000 ≤ spins then 0xFFFFFFFF else spins * 2

/-- The next number of pauses after `spins` were made. -/
def snooze (b : Backoff) : Backoff :=
  ⟨if doubled b.spins ≤ maxSpins then doubled b.spins else maxSpins⟩

/-- Starts again with one pause. -/
def reset (_ : Backoff) : Backoff := {}

theorem spins_snooze_le (b : Backoff) : b.snooze.spins ≤ maxSpins := by
  simp only [snooze]
  split
  · assumption
  · exact UInt32.le_refl _

/-- How a backoff is shown to a programmer. -/
def debugText (b : Backoff) : DebugText :=
  .record "Backoff" [("spins", .number b.spins.toNat)] false

/-! ## Using a backoff beside a saved copy of it -/

/-- What is done with a backoff. -/
inductive Command where
  | snooze
  | reset
  /-- copies the backoff into the saved one -/
  | save
  /-- copies the saved one back -/
  | restore
  | debug
  | debugExpanded
  deriving DecidableEq, Repr

/-- A backoff and its saved copy. -/
structure Session where
  current : Backoff
  saved : Backoff

/-- Carries out a command; only the debug commands answer with a text. -/
def Session.exec (s : Session) : Command → Session × Option String
  | .snooze => (⟨s.current.snooze, s.saved⟩, none)
  | .reset => (⟨s.current.reset, s.saved⟩, none)
  | .save => (⟨s.current, s.current⟩, none)
  | .restore => (⟨s.saved, s.saved⟩, none)
  | .debug => (s, some s.current.debugText.compact)
  | .debugExpanded => (s, some s.current.debugText.expanded)

/-- Carries out commands in turn; each answers its text and the number of pauses
after it. -/
def Session.run (s : Session) : List Command → List (Option String × UInt32)
  | [] => []
  | command :: rest =>
    let (s, text) := s.exec command
    (text, s.current.spins) :: s.run rest

end Backoff

end LockFreeRings
