import LockFreeRings.Log
import LockFreeRings.Mpmc.Ring
set_option autoImplicit false

/-!
# Commands for a queue of many producers and consumers

Where a call runs code of its caller, a command carries what that code does:
nested commands on the same queue, run while an element is built and before each
copy that a batch makes, and how it ends.

Every command is reported: its reply, the events it caused, and what the queue
says about itself after it.  Nested commands are reported inside the event that
ran them.
-/

namespace LockFreeRings.Mpmc

/-! ## Commands -/

mutual

/-- What is asked of a queue. -/
inductive Command (α : Type) where
  | capacity
  | push (v : α)
  /-- builds the element after a position was taken: `before` runs, then there is
  an element, or building it fails.  With `callBack` a full queue's caller
  builds the element all the same, for itself. -/
  | emplace (before : List (Command α)) (result : Option α) (callBack : Bool)
  | pushBatch (copies : List (Copy α))
  | pop
  /-- takes out up to `limit` elements behind those that are in `out` -/
  | popBatch (limit : UInt64) (out : List α)

/-- An element that a batch copies: what runs before the copy is made, and
whether making it fails. -/
inductive Copy (α : Type) where
  | mk (value : α) (before : List (Command α)) (fails : Bool)

end

mutual

/-- How deeply a command is nested. -/
def Command.depth {α : Type} : Command α → Nat
  | .emplace before _ _ => commandsDepth before + 1
  | .pushBatch copies => copiesDepth copies + 1
  | _ => 1

/-- How deeply the commands of a list are nested. -/
def commandsDepth {α : Type} : List (Command α) → Nat
  | [] => 0
  | c :: cs => max c.depth (commandsDepth cs)

/-- How deeply the commands before copies are nested. -/
def copiesDepth {α : Type} : List (Copy α) → Nat
  | [] => 0
  | ⟨_, before, _⟩ :: copies => max (commandsDepth before) (copiesDepth copies)

end

/-! ## Reports -/

/-- What a command answers. -/
inductive Reply (α : Type) where
  | capacity (c : UInt64)
  | pushed
  /-- the queue is full; the element comes back -/
  | full (v : α)
  /-- the queue is full; nothing was built -/
  | unbuilt
  /-- the queue is full, and building the element for the caller failed -/
  | fullAndFailed
  /-- building the element failed -/
  | buildFailed
  | pushedMany (count : Nat)
  /-- making a copy failed -/
  | copyFailed
  | popped (v : α)
  | empty
  /-- how many elements were taken out, and the whole output -/
  | poppedMany (count : Nat) (out : List α)
  /-- the call would never return -/
  | spinning
  /-- commands are nested deeper than the session provides for -/
  | tooDeep
  deriving DecidableEq, Repr

mutual

/-- What happens during a command. -/
inductive Event (α : Type) where
  | logged (entry : LogEntry)
  /-- an element is about to be built -/
  | building
  /-- a copy was made -/
  | copied (v : α)
  /-- the queue ended an element -/
  | ended (v : α)
  /-- nested commands ran -/
  | ran (reports : List (Report α))

/-- What is known after a command. -/
inductive Report (α : Type) where
  | mk (reply : Reply α) (events : List (Event α)) (size : UInt64) (isEmpty isFull : Bool)

end

end LockFreeRings.Mpmc
