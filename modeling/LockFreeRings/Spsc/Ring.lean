import LockFreeRings.SlotCount
set_option autoImplicit false

/-!
# The ring of one producer and one consumer

Two cursors below the slot count run around a power-of-two number of slots.  The
slots from `head` up to `tail` hold the queued elements.  Equal cursors mean
empty, and a tail one slot behind the head means full, so one slot stays unused
and `mask` elements fit.

Each side owns one cursor and keeps a private copy of the other one, which it
refreshes only when the copy shows too little room or too few elements.  A stale
copy can only make a side see less than there is.

An element is a vector of `k` words.  A slot keeps its words until they are
overwritten; taking an element out does not clear it.

The operations that call back (`pushCopies`, `pushFrom`) thread a state `σ` of
the caller together with the ring, since what is called may use the other side
of the ring.  A callback that answers `none` has failed: the operation ends at
once and publishes nothing.
-/

namespace LockFreeRings.Spsc

/-- An element of `k` words. -/
abbrev Element (k : Nat) (ω : Type) : Type := Vector ω k

/-- The memory of a ring with `n` slots. -/
structure Ring (n : SlotCount) (k : Nat) (ω : Type) where
  /-- the next slot to write, moved by the producer only -/
  tail : UInt64 := 0
  /-- the producer's copy of `head` -/
  cachedHead : UInt64 := 0
  /-- the next slot to read, moved by the consumer only -/
  head : UInt64 := 0
  /-- the consumer's copy of `tail` -/
  cachedTail : UInt64 := 0
  slots : Vector (Element k ω) n.size

/-! ## Cursor arithmetic -/

/-- The cursor after `i`. -/
def next (n : SlotCount) (i : UInt64) : UInt64 := (i + 1) &&& n.mask

/-- How many slots lie from `head` up to `tail`. -/
def distance (n : SlotCount) (tail head : UInt64) : UInt64 := (tail - head) &&& n.mask

namespace Ring

variable {n : SlotCount} {k : Nat} {ω : Type}

/-- An empty ring whose slots hold `blank`. -/
def new (n : SlotCount) (blank : Element k ω) : Ring n k ω :=
  { slots := Vector.replicate n.size blank }

/-- How many elements fit. -/
def capacity (_ : Ring n k ω) : UInt64 := n.mask

/-- How many elements are queued. -/
def len (r : Ring n k ω) : UInt64 := distance n r.tail r.head

/-- Whether nothing is queued. -/
def isEmpty (r : Ring n k ω) : Bool := r.len = 0

/-- Whether no more elements fit. -/
def isFull (r : Ring n k ω) : Bool := r.len = r.capacity

/-! ## Slots -/

/-- The element in the slot of a cursor. -/
def read (r : Ring n k ω) (i : UInt64) : Element k ω :=
  getElem r.slots (n.index i) (n.index_lt i)

/-- Stores an element in the slot of a cursor. -/
def write (r : Ring n k ω) (i : UInt64) (v : Element k ω) : Ring n k ω :=
  { r with slots := r.slots.set (n.index i) v (n.index_lt i) }

@[simp] theorem read_write (r : Ring n k ω) (i : UInt64) (v : Element k ω) :
    (r.write i v).read i = v := by
  simp [read, write]

@[simp] theorem write_write (r : Ring n k ω) (i : UInt64) (v w : Element k ω) :
    (r.write i v).write i w = r.write i w := by
  simp [write]

@[simp] theorem write_read (r : Ring n k ω) (i : UInt64) : r.write i (r.read i) = r := by
  simp [read, write]

/-- Stores one word in the slot of a cursor. -/
def writeWord (r : Ring n k ω) (i : UInt64) (j : Fin k) (w : ω) : Ring n k ω :=
  r.write i ((r.read i).set j w)

/-! ## Room and availability -/

/-- The room before a producer's position, as its copy of the head shows it. -/
def knownRoom (r : Ring n k ω) (tail : UInt64) : UInt64 :=
  n.mask - distance n tail r.cachedHead

/-- Refreshes the producer's copy of the head. -/
def refreshHead (r : Ring n k ω) : Ring n k ω := { r with cachedHead := r.head }

/-- The room before a producer's position, with a refreshed copy of the head if
the copy shows less than `want`. -/
def room (r : Ring n k ω) (tail want : UInt64) : UInt64 × Ring n k ω :=
  if want ≤ r.knownRoom tail then (r.knownRoom tail, r)
  else (r.refreshHead.knownRoom tail, r.refreshHead)

/-- The elements from a consumer's position on, as its copy of the tail shows
them. -/
def knownAvailable (r : Ring n k ω) (head : UInt64) : UInt64 :=
  distance n r.cachedTail head

/-- Refreshes the consumer's copy of the tail. -/
def refreshTail (r : Ring n k ω) : Ring n k ω := { r with cachedTail := r.tail }

/-- The elements from a consumer's position on, with a refreshed copy of the
tail if the copy shows fewer than `want`. -/
def available (r : Ring n k ω) (head want : UInt64) : UInt64 × Ring n k ω :=
  if want ≤ r.knownAvailable head then (r.knownAvailable head, r)
  else (r.refreshTail.knownAvailable head, r.refreshTail)

/-! ## The producer -/

/-- Makes everything up to `tail` visible to the consumer. -/
def publish (r : Ring n k ω) (tail : UInt64) : Ring n k ω := { r with tail := tail }

/-- Appends an element; `false` when the ring is full. -/
def push (r : Ring n k ω) (v : Element k ω) : Bool × Ring n k ω :=
  let tail := r.tail
  let (room, r) := r.room tail 1
  if room = 0 then (false, r) else (true, (r.write tail v).publish (next n tail))

/-- Copies the given items into the slots from `tail` on and gives the position
behind them, or `none` from the first copy that fails. -/
def writeCopies {ι σ : Type} (copy : ι → σ → Ring n k ω → Option (Element k ω) × σ × Ring n k ω) :
    List ι → UInt64 → σ → Ring n k ω → Option UInt64 × σ × Ring n k ω
  | [], tail, s, r => (some tail, s, r)
  | item :: items, tail, s, r =>
    match copy item s r with
    | (none, s, r) => (none, s, r)
    | (some v, s, r) => writeCopies copy items (next n tail) s (r.write tail v)

/-- The length of a slice as a word.  No slice is longer than a word can say; a
list that is counts as one of the greatest length. -/
def sliceLength {ι : Type} (items : List ι) : UInt64 :=
  UInt64.ofNat (min items.length 0xFFFFFFFFFFFFFFFF)

/-- Copies as many of the items as there is room for at the start, and publishes
them together.  Gives their number, or `none` when a copy fails. -/
def pushCopies {ι σ : Type} (copy : ι → σ → Ring n k ω → Option (Element k ω) × σ × Ring n k ω)
    (items : List ι) (s : σ) (r : Ring n k ω) : Option Nat × σ × Ring n k ω :=
  let tail := r.tail
  let (room, r) := r.room tail (sliceLength items)
  let count := min room.toNat items.length
  if count = 0 then (some 0, s, r)
  else
    match writeCopies copy (items.take count) tail s r with
    | (none, s, r) => (none, s, r)
    | (some tail, s, r) => (some count, s, r.publish tail)

/-- What an iterator answers when it is asked for the next element. -/
inductive Pull (α : Type) where
  | item (v : α)
  | ended
  | failed

/-- Writes what an iterator answers to the slots from `tail` on, while there is
room and it has more.  Room is checked before it is asked, so nothing it gives
is lost.  Gives how many elements were written and the position behind them, or
`none` when the iterator fails.  The ring cannot take as many elements as it has
slots in one call, whatever the other side does meanwhile, so `fuel` need not be
more than the slot count. -/
def writePulls {σ : Type}
    (pull : σ → Ring n k ω → Pull (Element k ω) × σ × Ring n k ω) :
    Nat → Nat → UInt64 → σ → Ring n k ω → Option (Nat × UInt64) × σ × Ring n k ω
  | 0, count, tail, s, r => (some (count, tail), s, r)
  | fuel + 1, count, tail, s, r =>
    let (room, r) := r.room tail 1
    if room = 0 then (some (count, tail), s, r)
    else
      match pull s r with
      | (.failed, s, r) => (none, s, r)
      | (.ended, s, r) => (some (count, tail), s, r)
      | (.item v, s, r) => writePulls pull fuel (count + 1) (next n tail) s (r.write tail v)

/-- Appends what an iterator answers, while there is room and it has more, and
publishes it together.  Gives how many elements were appended, or `none` when
the iterator fails. -/
def pushFrom {σ : Type} (pull : σ → Ring n k ω → Pull (Element k ω) × σ × Ring n k ω)
    (s : σ) (r : Ring n k ω) : Option Nat × σ × Ring n k ω :=
  let start := r.tail
  match writePulls pull n.size 0 start s r with
  | (none, s, r) => (none, s, r)
  | (some (count, tail), s, r) =>
    (some count, s, if tail = start then r else r.publish tail)

/-- The slot for the next element, if there is room for one. -/
def acquireWrite (r : Ring n k ω) : Option UInt64 × Ring n k ω :=
  let tail := r.tail
  let (room, r) := r.room tail 1
  (if room = 0 then none else some tail, r)

/-- Publishes the slot that was acquired for writing. -/
def commitWrite (r : Ring n k ω) : Ring n k ω := r.publish (next n r.tail)

/-! ## The consumer -/

/-- Hands the slots before `head` back to the producer. -/
def vacate (r : Ring n k ω) (head : UInt64) : Ring n k ω := { r with head := head }

/-- Takes out the oldest element, if there is one. -/
def pop (r : Ring n k ω) : Option (Element k ω) × Ring n k ω :=
  let head := r.head
  let (available, r) := r.available head 1
  if available = 0 then (none, r) else (some (r.read head), r.vacate (next n head))

/-- The elements in `count` slots from a cursor on, and the cursor behind them. -/
def readRun (r : Ring n k ω) : Nat → UInt64 → List (Element k ω) × UInt64
  | 0, i => ([], i)
  | count + 1, i =>
    let (vs, after) := readRun r count (next n i)
    (r.read i :: vs, after)

/-- Takes out up to `limit` elements, oldest first. -/
def popBatch (r : Ring n k ω) (limit : UInt64) : List (Element k ω) × Ring n k ω :=
  let head := r.head
  let (available, r) := r.available head limit
  let count := min available.toNat limit.toNat
  if count = 0 then ([], r)
  else
    let (vs, after) := r.readRun count head
    (vs, r.vacate after)

/-- The slot of the oldest element, if there is one. -/
def acquireRead (r : Ring n k ω) : Option UInt64 × Ring n k ω :=
  let head := r.head
  let (available, r) := r.available head 1
  (if available = 0 then none else some head, r)

/-- Hands back the slot that was acquired for reading. -/
def releaseRead (r : Ring n k ω) : Ring n k ω := r.vacate (next n r.head)

end Ring

end LockFreeRings.Spsc
