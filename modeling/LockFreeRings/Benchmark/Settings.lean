import LockFreeRings.Decimal.Word
set_option autoImplicit false

/-!
# Settings of a benchmark

A benchmark is told its sizes by texts with names.  A text that is missing or is
not a word leaves the default.
-/

namespace LockFreeRings.Benchmark

/-- The sizes of a benchmark. -/
structure Settings where
  /-- the capacity that is asked for, of every ring -/
  capacity : UInt64 := 65536
  /-- how often each workload does what it does -/
  iterations : UInt64 := 16777216
  /-- how many threads of each kind there are -/
  threads : UInt64 := 4
  threads_ne_zero : threads ≠ 0 := by decide

namespace Settings

/-- The names of the texts. -/
def names : List String := ["BENCH_CAPACITY", "BENCH_ITERATIONS", "BENCH_THREADS"]

/-- The word under a name, or the default. -/
def wordOr (texts : List (String × String)) (name : String) (default : UInt64) : UInt64 :=
  ((texts.lookup name).bind fun text => Decimal.word? text.toList).getD default

/-- Takes the settings from texts by their names.  There is at least one
thread. -/
def ofTexts (texts : List (String × String)) : Settings :=
  let defaults : Settings := {}
  let threads := wordOr texts "BENCH_THREADS" defaults.threads
  { capacity := wordOr texts "BENCH_CAPACITY" defaults.capacity
    iterations := wordOr texts "BENCH_ITERATIONS" defaults.iterations
    threads := if threads = 0 then 1 else threads
    threads_ne_zero := by
      split
      · decide
      · assumption }

/-- The iterations of one thread, where all share them. -/
def iterationsEach (s : Settings) : UInt64 := s.iterations / s.threads

/-- The critical sections of one thread: there are sixteen iterations to one. -/
def sectionsEach (s : Settings) : UInt64 := s.iterationsEach / 16

end Settings

end LockFreeRings.Benchmark
