import LockFreeRings.Benchmark.Settings
import LockFreeRings.Construction
import LockFreeRings.Element
import LockFreeRings.Mpmc.Transfer
import LockFreeRings.Spinlock.Sections
import LockFreeRings.Spsc.Transfer
set_option autoImplicit false

/-!
# Workloads

What a benchmark measures: six workloads on rings of words and on a lock.  Each
builds its rings first, then moves the numbers from zero on through them and
checks what arrives; the last one counts under the lock and checks the count.
-/

namespace LockFreeRings.Benchmark

/-- The workloads, in the order in which they run. -/
inductive Workload where
  /-- pushes and pops by turns, on one thread -/
  | pushPop
  /-- elements one by one from one thread to another -/
  | throughput
  /-- elements in batches from one thread to another -/
  | batches
  /-- elements to another thread and back, one at a time, through two rings -/
  | roundTrips
  /-- elements from as many producers to as many consumers -/
  | crossing
  /-- critical sections that count -/
  | counting
  deriving DecidableEq, Repr

/-- Why a benchmark stops early. -/
inductive Stop where
  /-- a ring could not be built -/
  | unbuilt (error : BuildError)
  /-- an element arrived that is not the one that was sent -/
  | corrupted (expected got : UInt64)
  /-- a count is wrong -/
  | miscounted (expected got : Nat)
  deriving DecidableEq, Repr

/-- The wording of a stop. -/
def Stop.message : Stop → String
  | .unbuilt error =>
    "called `Result::unwrap()` on an `Err` value: " ++ error.debugText.compact
  | .corrupted expected got =>
    "Data corruption: expected " ++ toString expected.toNat ++ ", got " ++ toString got.toNat
  | .miscounted expected got =>
    "assertion `left == right` failed\n  left: " ++ toString got ++
      "\n right: " ++ toString expected

/-- A part of a benchmark: it adds to the log, and stops or gives a value. -/
abbrev Run (α : Type) : Type := ExceptT Stop (StateM (List LogEntry)) α

/-- Builds a ring. -/
def build (s : Settings) (layout : SlotLayout) : Run SlotCount := do
  let c := construct s.capacity layout
  modify (· ++ c.log)
  match c.outcome with
  | .ok slots => pure slots
  | .error error => throw (.unbuilt error)

/-! ## Checks -/

/-- The first fault of what arrived, if it is not what was sent. -/
def arrivalFault? : List UInt64 → List UInt64 → Option Stop
  | [], [] => none
  | v :: vs, w :: ws => if v = w then arrivalFault? vs ws else some (.corrupted v w)
  | sent, arrived => some (.miscounted sent.length arrived.length)

/-- Nothing is at fault exactly when what arrived is what was sent. -/
theorem arrivalFault?_eq_none_iff (sent arrived : List UInt64) :
    arrivalFault? sent arrived = none ↔ arrived = sent := by
  induction sent generalizing arrived with
  | nil => cases arrived <;> simp [arrivalFault?]
  | cons v vs ih =>
    cases arrived with
    | nil => simp [arrivalFault?]
    | cons w ws =>
      by_cases h : v = w
      · simp [arrivalFault?, h, ih]
      · simp [arrivalFault?, h, Ne.symm h]

/-- The fault of a count, if it is wrong. -/
def countFault? (expected got : Nat) : Option Stop :=
  if expected = got then none else some (.miscounted expected got)

/-- Stops at a fault. -/
def check : Option Stop → Run Unit
  | none => pure ()
  | some fault => throw fault

/-! ## The elements and their ways -/

/-- The words below a number, in order. -/
def wordsBelow (count : UInt64) : List UInt64 :=
  (List.range count.toNat).map UInt64.ofNat

/-- Moves a word into a ring and out again. -/
def pushThenPop {n : SlotCount} (r : Spsc.Ring n 1 UInt64) (v : UInt64) :
    Option UInt64 × Spsc.Ring n 1 UInt64 :=
  let (_, r) := r.push #v[v]
  let (out, r) := r.pop
  (out.map fun v => getElem v 0 Nat.one_pos, r)

/-- Pushes and pops each word in turn and gives the words popped. -/
def popsAfterPushes {n : SlotCount} (r : Spsc.Ring n 1 UInt64) (vs : List UInt64) :
    List UInt64 :=
  let (_, popped) := vs.foldl
    (fun (r, popped) v =>
      let (out, r) := pushThenPop r v
      (r, out.toList ++ popped))
    (r, [])
  popped.reverse

/-- Sends each word through one ring and what arrives back through the other,
and gives the words that come back. -/
def answers {n m : SlotCount} (there : Spsc.Ring n 1 UInt64) (back : Spsc.Ring m 1 UInt64)
    (vs : List UInt64) : List UInt64 :=
  let (_, _, answered) := vs.foldl
    (fun (there, back, answered) v =>
      match pushThenPop there v with
      | (none, there) => (there, back, answered)
      | (some w, there) =>
        let (out, back) := pushThenPop back w
        (there, back, out.toList ++ answered))
    (there, back, [])
  answered.reverse

/-! ## Running -/

namespace Workload

/-- The size of a batch. -/
def batchSize : Nat := 64

/-- Moves words from one thread to another. -/
def transferWords (n : SlotCount) (push : Spsc.PushManner) (pop : Spsc.PopManner)
    (vs : List UInt64) : List UInt64 :=
  (Spsc.transfer n #v[0] push pop (vs.map fun v => #v[v])).2.map fun v =>
    getElem v 0 Nat.one_pos

/-- Runs a workload. -/
def run (s : Settings) : Workload → Run Unit
  | .pushPop => do
    let n ← build s ElementKind.word.layout
    let sent := wordsBelow s.iterations
    check <| arrivalFault? sent (popsAfterPushes (Spsc.Ring.new n #v[0]) sent)
  | .throughput => do
    let n ← build s ElementKind.word.layout
    let sent := wordsBelow s.iterations
    check <| arrivalFault? sent (transferWords n .one .one sent)
  | .batches => do
    let n ← build s ElementKind.word.layout
    let sent := wordsBelow s.iterations
    check <| arrivalFault? sent
      (transferWords n (.stream (some batchSize)) (.batch (UInt64.ofNat batchSize)) sent)
  | .roundTrips => do
    let n ← build s ElementKind.word.layout
    let m ← build s ElementKind.word.layout
    let sent := wordsBelow s.iterations
    check <| arrivalFault? sent (answers (Spsc.Ring.new n #v[0]) (Spsc.Ring.new m #v[0]) sent)
  | .crossing => do
    let n ← build s ElementKind.word.sequencedLayout
    let each := s.iterationsEach
    let threads := s.threads.toNat
    let (_, received) := Mpmc.transfer n 0 (List.replicate threads (wordsBelow each))
      (List.replicate threads (some each.toNat))
    check <| countFault? (each.toNat * threads) received.flatten.length
  | .counting => do
    let each := s.sectionsEach.toNat
    let threads := s.threads.toNat
    let counted := (runSections .waiting .dropGuard (List.replicate threads 1) each).number
    check <| countFault? (each * threads) counted.toNat

/-- How many operations are counted for a workload. -/
def operations (s : Settings) : Workload → Nat
  | .crossing => s.iterationsEach.toNat * s.threads.toNat
  | .counting => s.sectionsEach.toNat * s.threads.toNat
  | _ => s.iterations.toNat

/-- The figure of a workload that took so many nanoseconds: the nanoseconds of
one round trip, or the operations of a millisecond. -/
def figure (s : Settings) (nanoseconds : Nat) : Workload → Nat
  | .roundTrips => nanoseconds / max s.iterations.toNat 1
  | w => w.operations s * 1000000 / max nanoseconds 1

end Workload

end LockFreeRings.Benchmark
