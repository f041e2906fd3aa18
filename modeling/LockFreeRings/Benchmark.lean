import LockFreeRings.Benchmark.Workload
set_option autoImplicit false

/-!
# Benchmarks

A benchmark prints a heading with its settings, then runs its workloads one
after the other and prints a line with the figure of each.  It stops at the
first workload that does not come to its end.
-/

namespace LockFreeRings.Benchmark

namespace Workload

/-- All workloads, in order. -/
def all : List Workload :=
  [.pushPop, .throughput, .batches, .roundTrips, .crossing, .counting]

theorem mem_all (w : Workload) : w ∈ all := by cases w <;> decide

/-- What the line of a workload says before the figure. -/
def label (s : Settings) : Workload → String
  | .pushPop => "  spsc push+pop:      "
  | .throughput => "  spsc throughput:    "
  | .batches => "  spsc batch x" ++ toString batchSize ++ ":    "
  | .roundTrips => "  spsc rtt:           "
  | .crossing =>
    "  mpmc " ++ toString s.threads.toNat ++ "x" ++ toString s.threads.toNat ++ ":          "
  | .counting => "  spinlock x" ++ toString s.threads.toNat ++ ":        "

/-- The unit of the figure of a workload. -/
def unit : Workload → String
  | .roundTrips => " ns"
  | .counting => " lock/ms"
  | _ => " ops/ms"

/-- The line of a workload with its figure. -/
def line (s : Settings) (w : Workload) (figure : String) : String :=
  w.label s ++ figure ++ w.unit

end Workload

/-- The heading of a benchmark. -/
def heading (s : Settings) : String :=
  "tachyon (capacity=" ++ toString s.capacity.toNat ++ ", iters=" ++
    toString s.iterations.toNat ++ ", threads=" ++ toString s.threads.toNat ++ "):"

/-- What a benchmark printed and logged, and why it stopped if it did. -/
structure Report where
  lines : List String
  log : List LogEntry
  stop : Option Stop

/-- The exit code of a benchmark that stopped. -/
def stoppedCode : UInt32 := 101

/-- The exit code of a benchmark. -/
def Report.exitCode (r : Report) : UInt32 := if r.stop.isSome then stoppedCode else 0

/-- The report of a benchmark that runs workloads after what a report says. -/
def reportFrom (s : Settings) (figure : Workload → String) : List Workload → Report → Report
  | [], r => r
  | w :: ws, r =>
    match (w.run s).run.run r.log with
    | (.error stop, log) => { r with log := log, stop := some stop }
    | (.ok (), log) =>
      reportFrom s figure ws { r with lines := r.lines ++ [w.line s (figure w)], log := log }

/-- The report of a benchmark whose figures are given. -/
def report (s : Settings) (figure : Workload → String) : Report :=
  reportFrom s figure Workload.all ⟨[heading s], [], none⟩

end LockFreeRings.Benchmark
