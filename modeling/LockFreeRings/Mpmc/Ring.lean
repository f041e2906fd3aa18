import LockFreeRings.SlotCount
set_option autoImplicit false

/-!
# The ring of many producers and consumers

Positions are counted by words and never wrap back: a position names a slot by
its low bits and a lap by the others.  Each slot has a sequence number that says
which position may use it next, and how.  At `pos` the slot is free for the
producer of position `pos`; at `pos + 1` it holds the element of that position;
its consumer sets it to `pos + slots`, free for the next lap.

A producer looks at the slot of `tail`, a consumer at the slot of `head`, and
compares the sequence number with the one it needs: the number is right, it is
behind, so the ring is full or empty, or it is ahead, so another call has taken
the position since the cursor was read.  The comparison is by the sign of the
difference, which is right across the wrap of the words.

Taking a position and filling its slot are two things.  What builds the element
runs in between, and may itself use the ring; if it fails, the position stays
taken and is never filled.  The operations that call back thread a state `σ` of
the caller together with the ring.
-/

namespace LockFreeRings.Mpmc

/-- A slot: its sequence number and its element. -/
structure Slot (α : Type) where
  seq : UInt64
  value : α
  deriving Repr

/-- What the memory of a slot does to an element that the slot lets go of: one that
is taken out, that another one is stored over, or that is there when the ring goes
away. -/
inductive SlotMemory where
  /-- nothing: it may be uninitialized, and is not asked what is in it -/
  | uninit
  /-- it owns the element, and ends it -/
  | owning
  deriving DecidableEq, Repr

/-- The elements that end when a slot lets go of one. -/
def SlotMemory.ended {α : Type} : SlotMemory → α → List α
  | .uninit, _ => []
  | .owning, v => [v]

/-- The memory that the slots of a ring are made of. -/
def slotMemory : SlotMemory := .uninit

/-- The memory of a ring with `n` slots. -/
structure Ring (n : SlotCount) (α : Type) where
  /-- the next position to fill -/
  tail : UInt64 := 0
  /-- the next position to empty -/
  head : UInt64 := 0
  slots : Vector (Slot α) n.size

/-! ## Verdicts -/

/-- Where a sequence number lies, seen from the one that is needed. -/
inductive Verdict where
  | behind
  | level
  | ahead
  deriving DecidableEq, Repr

/-- Compares a sequence number with the one that is needed, by the sign of their
difference as a signed word. -/
def verdict (seq needed : UInt64) : Verdict :=
  if seq - needed = 0 then .level
  else if 0x8000000000000000 ≤ seq - needed then .behind
  else .ahead

namespace Ring

variable {n : SlotCount} {α : Type}

/-- An empty ring: each slot is free for the position of its own number.  The
slots hold `blank` until they are filled. -/
def new (n : SlotCount) (blank : α) : Ring n α :=
  { slots := Vector.ofFn fun i => ⟨UInt64.ofNat i.val, blank⟩ }

/-- How many elements fit. -/
def capacity (_ : Ring n α) : UInt64 := n.word

/-! ## Slots -/

/-- The slot of a position. -/
def slot (r : Ring n α) (pos : UInt64) : Slot α := r.slots[n.index pos]

/-- The sequence number of the slot of a position. -/
def seqAt (r : Ring n α) (pos : UInt64) : UInt64 := (r.slot pos).seq

/-- The element in the slot of a position. -/
def valueAt (r : Ring n α) (pos : UInt64) : α := (r.slot pos).value

/-- Stores an element in the slot of a position. -/
def store (r : Ring n α) (pos : UInt64) (v : α) : Ring n α :=
  { r with slots := r.slots.set (n.index pos) { r.slot pos with value := v } }

/-- Stores the sequence number of the slot of a position. -/
def setSeq (r : Ring n α) (pos seq : UInt64) : Ring n α :=
  { r with slots := r.slots.set (n.index pos) { r.slot pos with seq := seq } }

/-- Makes the element of a position visible to its consumer. -/
def publish (r : Ring n α) (pos : UInt64) : Ring n α := r.setSeq pos (pos + 1)

/-- Frees the slot of a position for the next lap. -/
def release (r : Ring n α) (pos : UInt64) : Ring n α := r.setSeq pos (pos + n.word)

/-- Takes the next position to fill. -/
def advanceTail (r : Ring n α) : Ring n α := { r with tail := r.tail + 1 }

/-- Takes the next position to empty. -/
def advanceHead (r : Ring n α) : Ring n α := { r with head := r.head + 1 }

/-! ## Queries -/

/-- Whether all positions taken for filling are taken for emptying too. -/
def isEmpty (r : Ring n α) : Bool := r.head = r.tail

/-- Whether the slot of the next position is still in use from the lap before. -/
def isFull (r : Ring n α) : Bool := verdict (r.seqAt r.tail) r.tail = .behind

/-- The number of positions between two cursors, none if the tail is behind and
at most as many as fit. -/
def sizeBetween (n : SlotCount) (tail head : UInt64) : UInt64 :=
  if 0x8000000000000000 ≤ tail - head then 0
  else if tail - head ≤ n.word then tail - head
  else n.word

/-- The number of positions taken for filling and not yet for emptying. -/
def size (r : Ring n α) : UInt64 := sizeBetween n r.tail r.head

/-! ## Filling -/

/-- What a call finds at its cursor when no other call interferes. -/
inductive Admission where
  /-- it may take this position -/
  | granted (pos : UInt64)
  /-- the ring is full, or empty -/
  | refused
  /-- the position is taken although the cursor stands at it, so the call would
  look again for ever -/
  | spinning
  deriving DecidableEq, Repr

/-- What a producer finds at the tail. -/
def admitPush (r : Ring n α) : Admission :=
  match verdict (r.seqAt r.tail) r.tail with
  | .level => .granted r.tail
  | .behind => .refused
  | .ahead => .spinning

/-- What came of an attempt to fill a position. -/
inductive PushOutcome where
  | pushed
  | full
  /-- building the element failed; the position is taken and never filled -/
  | failed
  | spinning
  deriving DecidableEq, Repr

/-- Takes a position, then builds the element, then fills the position.  On a
full ring nothing is built. -/
def emplace {σ : Type} (make : σ → Ring n α → Option α × σ × Ring n α) (s : σ)
    (r : Ring n α) : PushOutcome × σ × Ring n α :=
  match r.admitPush with
  | .refused => (.full, s, r)
  | .spinning => (.spinning, s, r)
  | .granted pos =>
    match make s r.advanceTail with
    | (none, s, r) => (.failed, s, r)
    | (some v, s, r) => (.pushed, s, (r.store pos v).publish pos)

/-- Appends an element. -/
def push (r : Ring n α) (v : α) : PushOutcome × Ring n α :=
  let (outcome, (), r) := emplace (fun s r => (some v, s, r)) () r
  (outcome, r)

/-- What came of a batch: how many elements were appended, unless it did not end
in the ordinary way. -/
inductive BatchOutcome where
  | pushed (count : Nat)
  | failed
  | spinning
  deriving DecidableEq, Repr

/-- Appends copies of the items one by one until the ring is full.  A copy is
made after its position was taken, and is visible before the next item's turn. -/
def pushCopies {ι σ : Type} (copy : ι → σ → Ring n α → Option α × σ × Ring n α) :
    List ι → Nat → σ → Ring n α → BatchOutcome × σ × Ring n α
  | [], count, s, r => (.pushed count, s, r)
  | item :: items, count, s, r =>
    match emplace (copy item) s r with
    | (.pushed, s, r) => pushCopies copy items (count + 1) s r
    | (.full, s, r) => (.pushed count, s, r)
    | (.failed, s, r) => (.failed, s, r)
    | (.spinning, s, r) => (.spinning, s, r)

/-! ## Emptying -/

/-- What a consumer finds at the head. -/
def admitPop (r : Ring n α) : Admission :=
  match verdict (r.seqAt r.head) (r.head + 1) with
  | .level => .granted r.head
  | .behind => .refused
  | .ahead => .spinning

/-- What came of an attempt to take out an element. -/
inductive PopOutcome (α : Type) where
  | popped (v : α)
  | empty
  | spinning
  deriving DecidableEq, Repr

/-- Takes out the oldest element, if it is there already. -/
def pop (r : Ring n α) : PopOutcome α × Ring n α :=
  match r.admitPop with
  | .refused => (.empty, r)
  | .spinning => (.spinning, r)
  | .granted pos => (.popped (r.valueAt pos), r.advanceHead.release pos)

/-- Takes out elements until there are none or `limit` are taken. -/
def popUpTo : Nat → Ring n α → List α × Ring n α
  | 0, r => ([], r)
  | limit + 1, r =>
    match r.pop with
    | (.popped v, r) =>
      let (vs, r) := popUpTo limit r
      (v :: vs, r)
    | (_, r) => ([], r)

/-- Takes out up to `limit` elements.  One call cannot take out more elements
than there are slots. -/
def popBatch (r : Ring n α) (limit : UInt64) : List α × Ring n α :=
  popUpTo (min limit.toNat n.size) r

end Ring

end LockFreeRings.Mpmc
