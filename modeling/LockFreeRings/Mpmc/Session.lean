import LockFreeRings.Mpmc.Command
set_option autoImplicit false

/-!
# Sessions with a queue of many producers and consumers

A session runs commands on one queue and reports each.  Nested commands are run
by the same function as outer ones, one level deeper; `Script.run` provides as
many levels as the script needs.
-/

namespace LockFreeRings.Mpmc

variable {n : SlotCount} {α : Type}

/-- What a command's run leaves. -/
structure Ran (n : SlotCount) (α : Type) where
  reply : Reply α
  events : List (Event α)
  ring : Ring n α

/-- The report of a run. -/
def Ran.report (ran : Ran n α) : Report α :=
  .mk ran.reply ran.events ran.ring.size ran.ring.isEmpty ran.ring.isFull

/-- How a command is run; the commands that run inside others go through this. -/
abbrev Runner (n : SlotCount) (α : Type) : Type := Command α → Ring n α → Ran n α

/-- Runs commands in turn and reports each. -/
def runAll (run : Runner n α) : List (Command α) → Ring n α → List (Report α) × Ring n α
  | [], r => ([], r)
  | c :: cs, r =>
    let ran := run c r
    let report := ran.report
    let (reports, r) := runAll run cs ran.ring
    (report :: reports, r)

/-- Runs the commands that come before a callback's own work; an event shows
them if there are any. -/
def runBefore (run : Runner n α) (before : List (Command α)) (events : List (Event α))
    (r : Ring n α) : List (Event α) × Ring n α :=
  match before with
  | [] => (events, r)
  | _ :: _ =>
    let (reports, r) := runAll run before r
    (events ++ [.ran reports], r)

/-- Builds an element. -/
def build (run : Runner n α) (before : List (Command α)) (result : Option α)
    (events : List (Event α)) (r : Ring n α) : Option α × List (Event α) × Ring n α :=
  let (events, r) := runBefore run before (events ++ [.building]) r
  (result, events, r)

/-- Makes a copy for a batch. -/
def makeCopy (watched : Bool) (run : Runner n α) (copy : Copy α) (events : List (Event α))
    (r : Ring n α) : Option α × List (Event α) × Ring n α :=
  match copy with
  | .mk value before fails =>
    let (events, r) := runBefore run before events r
    if fails then (none, events, r)
    else if watched then (some value, events ++ [.copied value], r)
    else (some value, events, r)

/-- The events when a slot lets go of an element. -/
def letGo (v : α) : List (Event α) := (slotMemory.ended v).map .ended

/-- The memory of slots does nothing to an element that a slot lets go of. -/
@[simp] theorem letGo_eq_nil (v : α) : letGo v = [] := rfl

@[simp] theorem flatMap_letGo {β : Type} (value : β → α) (xs : List β) :
    (xs.flatMap fun x => letGo (value x)) = [] :=
  List.flatMap_eq_nil_iff.mpr fun x _ => letGo_eq_nil (value x)

/-- Makes an element for the position that was taken last, whose slot lets go of
what is in it when the element is stored. -/
def storing (make : List (Event α) → Ring n α → Option α × List (Event α) × Ring n α)
    (events : List (Event α)) (r : Ring n α) : Option α × List (Event α) × Ring n α :=
  match make events r with
  | (none, events, after) => (none, events, after)
  | (some v, events, after) => (some v, events ++ letGo (after.valueAt (r.tail - 1)), after)

@[simp] theorem storing_eq (make : List (Event α) → Ring n α → Option α × List (Event α) × Ring n α) :
    storing make = make := by
  funext events r
  unfold storing
  split <;> simp_all

/-- Runs a command; the commands nested in it go through `run`. -/
def runWith (watched : Bool) (run : Runner n α) (c : Command α) (r : Ring n α) : Ran n α :=
  match c with
  | .capacity => ⟨.capacity r.capacity, [], r⟩
  | .push v =>
    let before := r.valueAt r.tail
    let (outcome, r) := r.push v
    ⟨match outcome with
      | .pushed => .pushed
      | .full => .full v
      | .failed => .buildFailed
      | .spinning => .spinning,
      if outcome = .pushed then letGo before else [], r⟩
  | .emplace before result callBack =>
    match Ring.emplace (storing (build run before result)) [] r with
    | (.pushed, events, r) => ⟨.pushed, events, r⟩
    | (.failed, events, r) => ⟨.buildFailed, events, r⟩
    | (.spinning, events, r) => ⟨.spinning, events, r⟩
    | (.full, events, r) =>
      if callBack then
        match build run before result events r with
        | (some v, events, r) => ⟨.full v, events, r⟩
        | (none, events, r) => ⟨.fullAndFailed, events, r⟩
      else ⟨.unbuilt, events, r⟩
  | .pushBatch copies =>
    let (outcome, events, r) :=
      Ring.pushCopies (fun copy => storing (makeCopy watched run copy)) copies 0 [] r
    ⟨match outcome with
      | .pushed count => .pushedMany count
      | .failed => .copyFailed
      | .spinning => .spinning, events, r⟩
  | .pop =>
    let (outcome, r) := r.pop
    ⟨match outcome with
      | .popped v => .popped v
      | .empty => .empty
      | .spinning => .spinning,
      match outcome with
      | .popped v => letGo v
      | _ => [],
      r⟩
  | .popBatch limit out =>
    let (vs, r) := r.popBatch limit
    ⟨.poppedMany vs.length (out ++ vs), vs.flatMap letGo, r⟩

/-- Runs a command; nested commands go at most `fuel` deep. -/
def runCommand (watched : Bool) : Nat → Runner n α
  | 0, _, r => ⟨.tooDeep, [], r⟩
  | fuel + 1, c, r => runWith watched (runCommand watched fuel) c r

/-- The events at the end of a queue: what is left is logged, and then the slots go
away. -/
def finish (r : Ring n α) : List (Event α) :=
  (teardown .mpmc r.size).map .logged ++ r.slots.toList.flatMap fun slot => letGo slot.value

theorem finish_eq (r : Ring n α) : finish r = (teardown .mpmc r.size).map .logged := by
  rw [finish, flatMap_letGo, List.append_nil]

/-- A whole session. -/
structure Script (α : Type) where
  commands : List (Command α)

/-- Runs a script on a new ring whose slots hold `blank`: a report for each
command, and the events at the end. -/
def Script.run (watched : Bool) (n : SlotCount) (blank : α) (script : Script α) :
    List (Report α) × List (Event α) :=
  let (reports, r) :=
    runAll (runCommand watched (commandsDepth script.commands)) script.commands
      (Ring.new n blank)
  (reports, finish r)

end LockFreeRings.Mpmc
