import LockFreeRings.Mpmc.Ring
set_option autoImplicit false

/-!
# Calls in steps

A call on the ring of many producers and consumers, taken apart into its
accesses to memory that others can see: loading a cursor, loading the sequence
number of a slot, moving a cursor by compare-and-swap, storing or reading the
element of a slot, and storing its sequence number.  Between two steps of one
call any number of steps of others may happen.

The compare-and-swap is weak: it may fail although the cursor has the expected
value (`spurious`).  After a failure the call goes on with the value it found.
A call that finds the sequence number ahead reads the cursor again.

The last section says that a call whose steps are not interleaved with others
does what `Ring.push` and `Ring.pop` do.
-/

namespace LockFreeRings.Mpmc

/-- A call in progress, by what it does next. -/
inductive Call (α : Type) where
  /-- load the tail, to push `v` -/
  | pushLoad (v : α)
  /-- load the sequence number of the slot of `pos` -/
  | pushExamine (v : α) (pos : UInt64)
  /-- move the tail from `pos` to `pos + 1` -/
  | pushClaim (v : α) (pos : UInt64)
  /-- build the element and store it in the slot of `pos` -/
  | pushStore (v : α) (pos : UInt64)
  /-- store `pos + 1` as the sequence number -/
  | pushPublish (pos : UInt64)
  /-- load the head, to pop -/
  | popLoad
  /-- load the sequence number of the slot of `pos` -/
  | popExamine (pos : UInt64)
  /-- move the head from `pos` to `pos + 1` -/
  | popClaim (pos : UInt64)
  /-- read the element in the slot of `pos` -/
  | popTake (pos : UInt64)
  /-- store `pos + slots` as the sequence number -/
  | popRelease (pos : UInt64) (v : α)
  /-- load the head, to ask whether the ring is empty -/
  | emptyHead
  /-- load the tail and compare -/
  | emptyTail (head : UInt64)
  /-- load the tail, to ask whether the ring is full -/
  | fullTail
  /-- load the sequence number of the slot of `tail` and compare -/
  | fullExamine (tail : UInt64)
  /-- load the head, to ask for the size -/
  | sizeHead
  /-- load the tail and subtract -/
  | sizeTail (head : UInt64)
  deriving Repr

/-- What a call returns. -/
inductive Return (α : Type) where
  | pushed
  /-- the ring was full; the element comes back -/
  | full (v : α)
  | popped (v : α)
  | empty
  | truth (b : Bool)
  | size (count : UInt64)
  deriving DecidableEq, Repr

/-- A call after a step: it goes on, or it has returned. -/
inductive Turn (α : Type) where
  | running (call : Call α)
  | returned (result : Return α)
  deriving Repr

variable {n : SlotCount} {α : Type}

/-- The next step of a call. -/
def Call.step (spurious : Bool) (r : Ring n α) : Call α → Ring n α × Turn α
  | .pushLoad v => (r, .running (.pushExamine v r.tail))
  | .pushExamine v pos =>
    match verdict (r.seqAt pos) pos with
    | .level => (r, .running (.pushClaim v pos))
    | .behind => (r, .returned (.full v))
    | .ahead => (r, .running (.pushLoad v))
  | .pushClaim v pos =>
    if r.tail = pos ∧ spurious = false then (r.advanceTail, .running (.pushStore v pos))
    else (r, .running (.pushExamine v r.tail))
  | .pushStore v pos => (r.store pos v, .running (.pushPublish pos))
  | .pushPublish pos => (r.publish pos, .returned .pushed)
  | .popLoad => (r, .running (.popExamine r.head))
  | .popExamine pos =>
    match verdict (r.seqAt pos) (pos + 1) with
    | .level => (r, .running (.popClaim pos))
    | .behind => (r, .returned .empty)
    | .ahead => (r, .running .popLoad)
  | .popClaim pos =>
    if r.head = pos ∧ spurious = false then (r.advanceHead, .running (.popTake pos))
    else (r, .running (.popExamine r.head))
  | .popTake pos => (r, .running (.popRelease pos (r.valueAt pos)))
  | .popRelease pos v => (r.release pos, .returned (.popped v))
  | .emptyHead => (r, .running (.emptyTail r.head))
  | .emptyTail head => (r, .returned (.truth (head = r.tail)))
  | .fullTail => (r, .running (.fullExamine r.tail))
  | .fullExamine tail =>
    (r, .returned (.truth (verdict (r.seqAt tail) tail = .behind)))
  | .sizeHead => (r, .running (.sizeTail r.head))
  | .sizeTail head => (r, .returned (.size (Ring.sizeBetween n r.tail head)))

/-- Runs a call alone, without spurious failures, for at most `fuel` steps. -/
def Call.alone : Nat → Ring n α → Call α → Ring n α × Turn α
  | 0, r, call => (r, .running call)
  | fuel + 1, r, call =>
    match call.step false r with
    | (r, .running call) => alone fuel r call
    | (r, .returned result) => (r, .returned result)

/-! ## Calls that run alone -/

/-- A push alone that finds room does what `Ring.push` does. -/
theorem alone_push_of_granted (r : Ring n α) (v : α) {pos : UInt64}
    (h : r.admitPush = .granted pos) :
    Call.alone 5 r (.pushLoad v) = ((r.push v).2, .returned .pushed) := by
  unfold Ring.admitPush at h
  split at h
  · next hv =>
    cases h
    simp [Call.alone, Call.step, hv, Ring.push, Ring.emplace, Ring.admitPush]
  · cases h
  · cases h

/-- A push alone on a full ring returns its element. -/
theorem alone_push_of_refused (r : Ring n α) (v : α) (h : r.admitPush = .refused) :
    Call.alone 5 r (.pushLoad v) = (r, .returned (.full v)) := by
  unfold Ring.admitPush at h
  split at h
  · cases h
  · next hv => simp [Call.alone, Call.step, hv]
  · cases h

/-- A pop alone that finds an element does what `Ring.pop` does. -/
theorem alone_pop_of_granted (r : Ring n α) {pos : UInt64} (h : r.admitPop = .granted pos) :
    Call.alone 5 r .popLoad =
      ((r.pop).2, .returned (.popped (r.valueAt pos))) := by
  unfold Ring.admitPop at h
  split at h
  · next hv =>
    cases h
    simp [Call.alone, Call.step, hv, Ring.pop, Ring.admitPop, Ring.advanceHead, Ring.valueAt,
      Ring.slot]
  · cases h
  · cases h

/-- A pop alone on an empty ring returns nothing. -/
theorem alone_pop_of_refused (r : Ring n α) (h : r.admitPop = .refused) :
    Call.alone 5 r .popLoad = (r, .returned .empty) := by
  unfold Ring.admitPop at h
  split at h
  · cases h
  · next hv => simp [Call.alone, Call.step, hv]
  · cases h

end LockFreeRings.Mpmc
