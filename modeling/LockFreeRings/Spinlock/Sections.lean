import LockFreeRings.Interleaving
import LockFreeRings.Spinlock.Flag
set_option autoImplicit false

/-!
# Critical sections of several threads

Threads run critical sections under one lock, taken apart into steps: a relaxed
load of the flag while waiting, a weak compare-and-swap once it looks free, the
strong compare-and-swap of a single attempt, the read and the write of the
protected number, and the store that frees the lock.  A section adds to the
number: it reads it, and later writes what it read plus its own amount.

A section is left by freeing the lock, by the end of a guard, or by the end of a
guard while a failure unwinds.  Each of these is a store of its own
(`SectionExit.release`), and all three free the lock.
-/

namespace LockFreeRings

/-- How a section takes the lock. -/
inductive SectionEntry where
  /-- waits for the lock -/
  | waiting
  /-- tries once; the thread tries again later -/
  | trying
  deriving DecidableEq, Repr

/-- How a section is left. -/
inductive SectionExit where
  | unlock
  | dropGuard
  | unwind
  deriving DecidableEq, Repr

namespace SectionExit

/-- What is stored in the flag when a section is left in this way.  While a failure
unwinds, the guard ends as it does otherwise. -/
def release : SectionExit → LockFlag → LockFlag
  | .unlock, f => f.unlock
  | .dropGuard, f => f.dropGuard
  | .unwind, f => f.dropGuard

@[simp] theorem held_release (exit : SectionExit) (f : LockFlag) :
    (exit.release f).held = false := by
  cases exit <;> rfl

end SectionExit

/-- A critical section. -/
structure CriticalSection where
  entry : SectionEntry
  amount : Int
  exit : SectionExit := .dropGuard
  deriving DecidableEq, Repr

/-- Where a thread is. -/
inductive SectionPhase where
  /-- between sections -/
  | outside
  /-- load the flag -/
  | look (backoff : Backoff)
  /-- set the flag, if it is free, by a weak compare-and-swap -/
  | grab (backoff : Backoff)
  /-- set the flag, if it is free, by a strong compare-and-swap -/
  | attempt
  /-- read the number -/
  | read
  /-- write the number that was read plus the amount -/
  | write (seen : Int)
  /-- free the lock -/
  | leave
  deriving DecidableEq, Repr

/-- A thread: where it is, and its sections, of which the first is the one it is
in or comes to next. -/
structure SectionThread where
  phase : SectionPhase := .outside
  sections : List CriticalSection
  deriving DecidableEq, Repr

/-- What the threads share: the flag and the number. -/
structure Protected where
  flag : LockFlag
  number : Int
  deriving DecidableEq, Repr

namespace SectionThread

/-- The amount of the section a thread is in. -/
def amount (t : SectionThread) : Int := (t.sections.head?.map (·.amount)).getD 0

/-- How the section a thread is in is left. -/
def exit (t : SectionThread) : SectionExit := (t.sections.head?.map (·.exit)).getD .unlock

/-- The section a thread is in fails, and its guard ends while that unwinds. -/
def unwind (t : SectionThread) : SectionThread :=
  ⟨.leave, t.sections.modifyHead ({ · with exit := .unwind })⟩

/-- The next step of a thread.  A waiter that finds the lock held, or fails to
take it, pauses and looks again. -/
def step (spurious : Bool) (s : Protected) (t : SectionThread) : Protected × SectionThread :=
  match t.phase with
  | .outside =>
    match t.sections with
    | [] => (s, t)
    | first :: _ =>
      match first.entry with
      | .waiting => (s, { t with phase := .look {} })
      | .trying => (s, { t with phase := .attempt })
  | .look backoff =>
    if s.flag.held then (s, { t with phase := .look backoff.snooze })
    else (s, { t with phase := .grab backoff })
  | .grab backoff =>
    let (flag, success) := s.flag.weakTryLock spurious
    if success then ({ s with flag := flag }, { t with phase := .read })
    else (s, { t with phase := .look backoff.snooze })
  | .attempt =>
    let (flag, success) := s.flag.tryLock
    ({ s with flag := flag }, { t with phase := if success then .read else .outside })
  | .read => (s, { t with phase := .write s.number })
  | .write seen => ({ s with number := seen + t.amount }, { t with phase := .leave })
  | .leave => ({ s with flag := t.exit.release s.flag }, ⟨.outside, t.sections.tail⟩)

/-- Whether a thread has run all its sections. -/
def isFinished (t : SectionThread) : Bool := t.phase = .outside && t.sections.isEmpty

end SectionThread

/-- Runs threads that each run a number of equal sections on a number that
starts at zero.  The lock is held until all threads were started, by a thread of
its own that only frees it.  In every few rounds some section makes progress, so
the rounds provided are enough. -/
def runSections (entry : SectionEntry) (exit : SectionExit) (amounts : List Int)
    (repeats : Nat) : Protected :=
  let starter : SectionThread := ⟨.leave, []⟩
  let threads := amounts.map fun amount =>
    (⟨.outside, List.replicate repeats ⟨entry, amount, exit⟩⟩ : SectionThread)
  let fuel := 16 * (amounts.length * repeats + 2)
  (manyRounds (SectionThread.step false) (fun _ ts => ts.all SectionThread.isFinished) fuel
    ⟨⟨true⟩, 0⟩ (starter :: threads)).1

end LockFreeRings
