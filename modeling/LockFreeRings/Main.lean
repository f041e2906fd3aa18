import LockFreeRings.Benchmark
set_option autoImplicit false

/-!
# The benchmark program

Takes its settings from the environment, and prints the lines of the benchmark
with what it measures.
-/

namespace LockFreeRings.Benchmark

/-- The texts of the environment under the names of the settings. -/
def environmentTexts : IO (List (String × String)) :=
  Settings.names.filterMapM fun name => do
    return (← IO.getEnv name).map fun text => (name, text)

/-- Runs workloads and prints their lines. -/
def printWorkloads (s : Settings) : List Workload → IO UInt32
  | [] => return 0
  | w :: ws => do
    let start ← IO.monoNanosNow
    match (w.run s).run.run [] with
    | (.error stop, _) =>
      IO.eprintln stop.message
      return stoppedCode
    | (.ok (), _) =>
      let finish ← IO.monoNanosNow
      IO.println (w.line s (toString (w.figure s (finish - start))))
      printWorkloads s ws

end LockFreeRings.Benchmark

/-- Runs the benchmark; arguments have no effect. -/
def main : IO UInt32 := do
  let s := LockFreeRings.Benchmark.Settings.ofTexts
    (← LockFreeRings.Benchmark.environmentTexts)
  IO.println (LockFreeRings.Benchmark.heading s)
  LockFreeRings.Benchmark.printWorkloads s LockFreeRings.Benchmark.Workload.all
