import LockFreeRings.Spinlock.Flag
set_option autoImplicit false

/-!
# Guarded data

Data behind a lock.  Taking the lock gives a guard, through which the data is
read and written, and the end of the guard frees the lock.  A guard can be
leaked, and then the lock stays held for ever.  A section that fails ends its
guard while it unwinds, and what it wrote before stays: there is no poisoning.
Whoever has the whole cell, with no guard on it, reaches the data without the
lock.
-/

namespace LockFreeRings

/-- A lock, its data, and whether a guard is alive. -/
structure Guarded (α : Type) where
  flag : LockFlag := {}
  data : α
  guarded : Bool := false
  deriving Repr

namespace Guarded

variable {α : Type}

/-- Whether the lock is held. -/
def isLocked (g : Guarded α) : Bool := g.flag.held

/-- One attempt to take the lock; on success there is a guard. -/
def tryLock (g : Guarded α) : Guarded α × Bool :=
  let (flag, success) := g.flag.tryLock
  ({ g with flag := flag, guarded := g.guarded || success }, success)

/-- Ends the guard and with it the hold on the lock. -/
def dropGuard (g : Guarded α) : Guarded α :=
  { g with flag := g.flag.unlock, guarded := false }

/-- Leaks the guard: the lock stays as it is. -/
def forgetGuard (g : Guarded α) : Guarded α := { g with guarded := false }

/-- How a guarded cell is shown to a programmer, without its data. -/
def debugText (g : Guarded α) : DebugText :=
  .record "Spinlock" [("locked", .truth g.isLocked)] true

/-! ## Using a guarded cell with at most one guard -/

/-- What is done with a guarded cell. -/
inductive Command (α : Type) where
  | lock
  | tryLock
  /-- drops the guard -/
  | unlock
  /-- leaks the guard -/
  | forget
  /-- reads through the guard -/
  | get
  /-- writes through the guard -/
  | set (v : α)
  /-- reads, and writes if a value is given, without the lock -/
  | getMut (v : Option α)
  /-- ends the cell and gives its data -/
  | intoInner
  /-- a section that writes and then fails -/
  | failingSection (v : α)
  | debug
  | debugExpanded
  deriving Repr

/-- What a command answers. -/
inductive Reply (α : Type) where
  | locked
  /-- the lock is held, so waiting for it would last for ever -/
  | wouldBlock
  | tried (success : Bool)
  | unlocked
  | forgotten
  | noGuard
  | value (v : α)
  | stored
  /-- a guard borrows the cell -/
  | borrowed
  /-- the section failed -/
  | failed
  | text (s : String)
  /-- the cell was taken apart before -/
  | gone
  deriving DecidableEq, Repr

/-- Carries out a command on a cell; there is none once it was taken apart. -/
def exec (cell : Option (Guarded α)) (command : Command α) : Option (Guarded α) × Reply α :=
  match cell with
  | none => (none, .gone)
  | some g =>
    match command with
    | .lock => if g.isLocked then (some g, .wouldBlock) else (some g.tryLock.1, .locked)
    | .tryLock => (some g.tryLock.1, .tried g.tryLock.2)
    | .unlock => if g.guarded then (some g.dropGuard, .unlocked) else (some g, .noGuard)
    | .forget => if g.guarded then (some g.forgetGuard, .forgotten) else (some g, .noGuard)
    | .get => if g.guarded then (some g, .value g.data) else (some g, .noGuard)
    | .set v =>
      if g.guarded then (some { g with data := v }, .stored) else (some g, .noGuard)
    | .getMut v =>
      if g.guarded then (some g, .borrowed)
      else (some { g with data := v.getD g.data }, .value g.data)
    | .intoInner => if g.guarded then (some g, .borrowed) else (none, .value g.data)
    | .failingSection v =>
      if g.isLocked then (some g, .wouldBlock)
      else (some { g.tryLock.1 with data := v }.dropGuard, .failed)
    | .debug => (some g, .text g.debugText.compact)
    | .debugExpanded => (some g, .text g.debugText.expanded)

/-- Carries out commands in turn; each answers its reply and whether the lock is
held after it, if there still is one. -/
def run (cell : Option (Guarded α)) : List (Command α) → List (Reply α × Option Bool)
  | [] => []
  | command :: rest =>
    let (cell, reply) := exec cell command
    (reply, cell.map isLocked) :: run cell rest

end Guarded

end LockFreeRings
