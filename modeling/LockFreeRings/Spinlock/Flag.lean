import LockFreeRings.Spinlock.Backoff
set_option autoImplicit false

/-!
# The bare lock

A lock is one flag in memory, set while the lock is held.  It has no owner, is
not fair and cannot be taken twice.  Three accesses touch it: a load, a
compare-and-swap from free to held, and a store of free.  A weak
compare-and-swap may fail although the flag is free.
-/

namespace LockFreeRings

/-- The flag of a lock. -/
structure LockFlag where
  held : Bool := false
  deriving DecidableEq, Repr

namespace LockFlag

/-- Sets a free flag; the answer tells whether it was free. -/
def tryLock (f : LockFlag) : LockFlag × Bool := (⟨true⟩, !f.held)

/-- As `tryLock`, but may fail without reason and then leaves the flag alone. -/
def weakTryLock (f : LockFlag) (spurious : Bool) : LockFlag × Bool :=
  if spurious then (f, false) else f.tryLock

/-- Frees the lock. -/
def unlock (_ : LockFlag) : LockFlag := ⟨false⟩

/-- The end of a guard frees the lock. -/
def dropGuard (f : LockFlag) : LockFlag := f.unlock

@[simp] theorem tryLock_fst (f : LockFlag) : f.tryLock.1 = ⟨true⟩ := rfl

@[simp] theorem tryLock_snd (f : LockFlag) : f.tryLock.2 = !f.held := rfl

@[simp] theorem held_unlock (f : LockFlag) : f.unlock.held = false := rfl

/-- How a lock is shown to a programmer. -/
def debugText (f : LockFlag) : DebugText :=
  .record "RawSpinlock" [("locked", .truth f.held)] false

/-! ## Using a lock from one thread -/

/-- What is done with a lock. -/
inductive Command where
  | lock
  | tryLock
  | unlock
  | debug
  | debugExpanded
  deriving DecidableEq, Repr

/-- What a command answers. -/
inductive Reply where
  | locked
  /-- the lock is held, so waiting for it would last for ever -/
  | wouldBlock
  | tried (success : Bool)
  | unlocked
  /-- the lock is free, so there is nothing to release -/
  | notHeld
  | text (s : String)
  deriving DecidableEq, Repr

/-- Carries out a command.  Taking a held lock and freeing a free one are not
attempted. -/
def exec (f : LockFlag) : Command → LockFlag × Reply
  | .lock => if f.held then (f, .wouldBlock) else (f.tryLock.1, .locked)
  | .tryLock => (f.tryLock.1, .tried f.tryLock.2)
  | .unlock => if f.held then (f.unlock, .unlocked) else (f, .notHeld)
  | .debug => (f, .text f.debugText.compact)
  | .debugExpanded => (f, .text f.debugText.expanded)

/-- Carries out commands in turn; each answers its reply and whether the lock is
held after it. -/
def run (f : LockFlag) : List Command → List (Reply × Bool)
  | [] => []
  | command :: rest =>
    let (f, reply) := f.exec command
    (reply, f.held) :: f.run rest

end LockFlag

end LockFreeRings
