import LockFreeRings.Mpmc.Call
import LockFreeRings.Proofs.Counting
import Mathlib.Logic.Function.Basic
set_option autoImplicit false

/-!
# Threads on one ring

Any number of threads share a ring.  A thread begins a call when it is in none,
and then takes the call's steps one by one; between two of its steps any number
of steps of others may happen.  A compare-and-swap may fail for no reason, and
the code that builds an element may fail after its position was taken, which ends
the call and leaves the position as it is.

Beside the ring a system keeps books that no step reads.  Positions are counted
without wrapping: `tails` and `heads` count the times the cursors were moved, and
a call remembers as `seen` the count it read, of which it has the word only.
Every position goes through the stages of `Stage`.  The history says what
happened in order: calls that began and returned, and positions that were taken.

The words wrap, so a call that sleeps while others take `2 ^ 64` positions would
mistake an old cursor for the current one.  `System.Paced` says that no call is
overtaken by more than `2 ^ 62` positions on either cursor, and `System.Reachable`
are the states of runs in which that is so.
-/

namespace LockFreeRings.Mpmc

variable {n : SlotCount} {α ι : Type}

/-! ## Books -/

/-- What a thread asks of the ring. -/
inductive Request (α : Type) where
  | push (v : α)
  | pop
  | isEmpty
  | isFull
  | size
  deriving DecidableEq, Repr

/-- The call that a request begins. -/
def Request.call : Request α → Call α
  | .push v => .pushLoad v
  | .pop => .popLoad
  | .isEmpty => .emptyHead
  | .isFull => .fullTail
  | .size => .sizeHead

/-- How far a position has come. -/
inductive Stage where
  | unclaimed
  /-- a push has taken it and has not filled it yet -/
  | claimed
  /-- its element is there -/
  | published
  /-- a pop has taken it and has not emptied it yet -/
  | taken
  /-- its slot is free for the next lap -/
  | released
  deriving DecidableEq, Repr

/-- Whether the element of a position has been there. -/
def Stage.isFilled : Stage → Bool
  | .unclaimed | .claimed => false
  | .published | .taken | .released => true

/-- Whether the element of a position is gone. -/
def Stage.isEmptied : Stage → Bool
  | .released => true
  | _ => false

/-- The cursors, counted without wrapping, and the stage of every position. -/
structure Positions where
  tails : Nat := 0
  heads : Nat := 0
  stage : Nat → Stage := fun _ => .unclaimed

namespace Positions

/-- The position `q` comes to a stage. -/
def settle (p : Positions) (q : Nat) (stage : Stage) : Positions :=
  { p with stage := Function.update p.stage q stage }

/-- A push takes the position `q`. -/
def claim (p : Positions) (q : Nat) : Positions :=
  { p.settle q .claimed with tails := p.tails + 1 }

/-- A pop takes the position `q`. -/
def take (p : Positions) (q : Nat) : Positions :=
  { p.settle q .taken with heads := p.heads + 1 }

end Positions

/-- The push with number `number` took the position `pos`, to fill it with `value`. -/
structure Filling (α : Type) where
  number : Nat
  pos : Nat
  value : α

/-- The pop with number `number` took the position `pos`. -/
structure Emptying where
  number : Nat
  pos : Nat

/-- What happened in a run. -/
inductive Record (ι α : Type) where
  | began (number : Nat) (thread : ι) (request : Request α)
  | filling (f : Filling α)
  | emptying (e : Emptying)
  | returned (number : Nat) (thread : ι) (request : Request α) (result : Return α)
  /-- building the element failed; the position is never filled -/
  | failed (number : Nat) (thread : ι) (pos : Nat)

namespace Record

/-- The position that a push took. -/
def filling? : Record ι α → Option (Filling α)
  | .filling f => some f
  | _ => none

/-- The position that a pop took. -/
def emptying? : Record ι α → Option Emptying
  | .emptying e => some e
  | _ => none

/-- The element of a push that succeeded. -/
def pushed? : Record ι α → Option α
  | .returned _ _ (.push v) .pushed => some v
  | _ => none

/-- The element that a pop returned. -/
def popped? : Record ι α → Option α
  | .returned _ _ _ (.popped v) => some v
  | _ => none

end Record

/-! ## Systems -/

/-- A call of a thread: its number in the order of beginning, what it is to do,
what it does next, the count of the cursor that it read last, and the counts of
both cursors when it began. -/
structure Activity (α : Type) where
  number : Nat
  request : Request α
  call : Call α
  seen : Nat
  tailsBefore : Nat
  headsBefore : Nat

/-- A ring, the call each thread is in, and the books. -/
structure System (n : SlotCount) (α ι : Type) where
  ring : Ring n α
  active : ι → Option (Activity α)
  /-- how many calls have begun -/
  calls : Nat := 0
  positions : Positions := {}
  history : List (Record ι α) := []

/-- What happens next: a thread begins a call or takes the next step of the one
it is in, or the code that builds its element fails. -/
inductive Action (ι α : Type) where
  | begin (t : ι) (request : Request α)
  | step (t : ι) (spurious : Bool)
  | fail (t : ι)

namespace System

/-- A new ring, and no thread in a call. -/
def start (n : SlotCount) (ι : Type) (blank : α) : System n α ι where
  ring := .new n blank
  active := fun _ => none

/-- What a step of a call means for the positions and the history. -/
def note (s : System n α ι) (a : Activity α) (turn : Turn α) : System n α ι :=
  match a.call, turn with
  | .pushClaim v _, .running (.pushStore _ _) =>
    { s with
      positions := s.positions.claim a.seen
      history := s.history ++ [.filling ⟨a.number, a.seen, v⟩] }
  | .popClaim _, .running (.popTake _) =>
    { s with
      positions := s.positions.take a.seen
      history := s.history ++ [.emptying ⟨a.number, a.seen⟩] }
  | .pushPublish _, .returned _ => { s with positions := s.positions.settle a.seen .published }
  | .popRelease _ _, .returned _ => { s with positions := s.positions.settle a.seen .released }
  | _, _ => s

/-- The count of the cursor that a call has read last, after a step: a call that
is to examine a slot has just read a cursor. -/
def seenAfter (s : System n α ι) (a : Activity α) : Call α → Nat
  | .pushExamine _ _ | .fullExamine _ => s.positions.tails
  | .popExamine _ | .emptyTail _ | .sizeTail _ => s.positions.heads
  | _ => a.seen

variable [DecidableEq ι]

/-- A thread goes on with its call, or has returned from it. -/
def resume (s : System n α ι) (t : ι) (a : Activity α) (seen : Nat) :
    Turn α → System n α ι
  | .running call =>
    { s with active := Function.update s.active t (some { a with call := call, seen := seen }) }
  | .returned result =>
    { s with
      active := Function.update s.active t none
      history := s.history ++ [.returned a.number t a.request result] }

/-- The thread `t` takes the next step of its call `a`. -/
def advance (s : System n α ι) (t : ι) (a : Activity α) (spurious : Bool) : System n α ι :=
  let (ring, turn) := a.call.step spurious s.ring
  let seen := match turn with
    | .running call => s.seenAfter a call
    | .returned _ => a.seen
  { (s.note a turn).resume t a seen turn with ring := ring }

/-- The thread `t` begins a call. -/
def begin (s : System n α ι) (t : ι) (request : Request α) : System n α ι :=
  { s with
    active := Function.update s.active t
      (some ⟨s.calls, request, request.call, 0, s.positions.tails, s.positions.heads⟩)
    calls := s.calls + 1
    history := s.history ++ [.began s.calls t request] }

/-- The thread `t` leaves its call `a` without having filled its position. -/
def giveUp (s : System n α ι) (t : ι) (a : Activity α) : System n α ι :=
  { s with
    active := Function.update s.active t none
    history := s.history ++ [.failed a.number t a.seen] }

/-- What an action does; where it does not fit, nothing happens. -/
def act (s : System n α ι) : Action ι α → System n α ι
  | .begin t request =>
    match s.active t with
    | none => s.begin t request
    | some _ => s
  | .step t spurious =>
    match s.active t with
    | none => s
    | some a => s.advance t a spurious
  | .fail t =>
    match s.active t with
    | some a =>
      match a.call with
      | .pushStore _ _ => s.giveUp t a
      | _ => s
    | none => s

omit [DecidableEq ι] in
/-- No call is overtaken by more than `2 ^ 62` positions on a cursor, its own one
among them. -/
def Paced (s : System n α ι) : Prop :=
  ∀ t a, s.active t = some a →
    s.positions.tails ≤ a.tailsBefore + 2 ^ 62 ∧ s.positions.heads ≤ a.headsBefore + 2 ^ 62

/-- The states of runs in which all states are paced. -/
inductive Reachable : System n α ι → Prop where
  | start (blank : α) : Reachable (start n ι blank)
  | act {s : System n α ι} (action : Action ι α) (reachable : Reachable s)
      (paced : (s.act action).Paced) : Reachable (s.act action)

/-! ## What the history tells -/

omit [DecidableEq ι]

/-- The positions taken on the tail, in order. -/
def fillings (s : System n α ι) : List (Filling α) := s.history.filterMap Record.filling?

/-- The positions taken on the head, in order. -/
def emptyings (s : System n α ι) : List Emptying := s.history.filterMap Record.emptying?

/-- The elements of the pushes that have succeeded, in the order of return. -/
def pushed (s : System n α ι) : List α := s.history.filterMap Record.pushed?

/-- The elements that pops have returned, in order. -/
def popped (s : System n α ι) : List α := s.history.filterMap Record.popped?

/-- No thread is in a call. -/
def Quiescent (s : System n α ι) : Prop := ∀ t, s.active t = none

end System

/-- The elements that are in a ring: those of the positions from the head up to
the tail whose slots say that they are filled. -/
def Ring.contents (r : Ring n α) : List α :=
  (List.range (r.tail - r.head).toNat).filterMap fun i =>
    let pos := r.head + UInt64.ofNat i
    if r.seqAt pos = pos + 1 then some (r.valueAt pos) else none

end LockFreeRings.Mpmc
