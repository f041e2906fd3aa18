import LockFreeRings.Mpmc.Session
set_option autoImplicit false

/-!
# What became of the elements of a session

A report says what each command answered, and inside its events what the commands
nested in it answered.  Read next to the commands, it tells which elements came to
the queue and which left it: that is a list of dealings (`Script.dealings`), taken
from what a caller sees and from nothing else.

A push hands an element over and may get it back.  A constructor or a copy hands
over what it built.  A batch that returns a count has published that many copies,
and one whose copy failed has published those before the first copy that fails.  An
element that a caller builds for itself, because the queue was full, never comes to
the queue.
-/

namespace LockFreeRings.Mpmc

variable {α : Type}

/-- What happens to an element, or to a position without one. -/
inductive Dealing (α : Type) where
  /-- the queue was handed the element: it was pushed, built or copied -/
  | handed (v : α)
  /-- the element came back from a push that was refused -/
  | refused (v : α)
  /-- the element was stored and may be popped -/
  | published (v : α)
  | popped (v : α)
  /-- building an element, or making a copy, failed in a call of the queue -/
  | failed
  deriving DecidableEq, Repr

namespace Dealing

def handed? : Dealing α → Option α
  | .handed v => some v
  | _ => none

def refused? : Dealing α → Option α
  | .refused v => some v
  | _ => none

def published? : Dealing α → Option α
  | .published v => some v
  | _ => none

def popped? : Dealing α → Option α
  | .popped v => some v
  | _ => none

def isFailed : Dealing α → Bool
  | .failed => true
  | _ => false

/-- An element that goes into the queue. -/
def entering (v : α) : List (Dealing α) := [.handed v, .published v]

end Dealing

def Copy.value : Copy α → α
  | .mk value _ _ => value

def Copy.fails : Copy α → Bool
  | .mk _ _ fails => fails

/-- The reports of nested commands in an event. -/
def Event.nested? : Event α → Option (List (Report α))
  | .ran reports => some reports
  | _ => none

/-- The reports of each callback that ran nested commands, in order. -/
def runsIn (events : List (Event α)) : List (List (Report α)) := events.filterMap Event.nested?

/-- The dealings of a command without those of the commands nested in it. -/
def Command.own : Command α → Reply α → List (Dealing α)
  | .push v, .pushed => Dealing.entering v
  | .push v, .full w => [.handed v, .refused w]
  | .push v, _ => [.handed v]
  | .emplace _ (some v) _, .pushed => Dealing.entering v
  | .emplace _ _ _, .buildFailed => [.failed]
  | .pushBatch copies, .pushedMany count =>
    ((copies.take count).map Copy.value).flatMap Dealing.entering
  | .pushBatch copies, .copyFailed =>
    ((copies.takeWhile (!·.fails)).map Copy.value).flatMap Dealing.entering ++ [.failed]
  | .pop, .popped v => [.popped v]
  | .popBatch _ out, .poppedMany _ all => (all.drop out.length).map .popped
  | _, _ => []

mutual

/-- The dealings of a command and of those nested in it. -/
def Command.dealings : Command α → Report α → List (Dealing α)
  | .emplace before result callBack, .mk reply events _ _ _ =>
    commandsDealings before ((runsIn events).headD []) ++
      (Command.emplace before result callBack).own reply
  | .pushBatch copies, .mk reply events _ _ _ =>
    copiesDealings copies (runsIn events) ++ (Command.pushBatch copies).own reply
  | command, .mk reply _ _ _ _ => command.own reply

/-- The dealings of commands that ran in turn. -/
def commandsDealings : List (Command α) → List (Report α) → List (Dealing α)
  | command :: commands, report :: reports =>
    command.dealings report ++ commandsDealings commands reports
  | _, _ => []

/-- The dealings of the commands nested before copies.  A copy before which nothing
is to run has no reports. -/
def copiesDealings : List (Copy α) → List (List (Report α)) → List (Dealing α)
  | .mk _ (command :: commands) _ :: copies, reports :: runs =>
    commandsDealings (command :: commands) reports ++ copiesDealings copies runs
  | .mk _ [] _ :: copies, runs => copiesDealings copies runs
  | _, _ => []

end

/-- The dealings of a session, read off its reports. -/
def Script.dealings (watched : Bool) (n : SlotCount) (blank : α) (script : Script α) :
    List (Dealing α) :=
  commandsDealings script.commands (script.run watched n blank).1

/-- The ring that a session leaves to its end. -/
def Script.ring (watched : Bool) (n : SlotCount) (blank : α) (script : Script α) : Ring n α :=
  (runAll (runCommand watched (commandsDepth script.commands)) script.commands
    (Ring.new n blank)).2

/-! ## Calls back -/

mutual

/-- All that happens is code of the caller: elements are built, copies are made, and
nested commands run, in which again nothing else happens.  Nothing is logged, and
the queue ends no element. -/
inductive Event.OfCaller : Event α → Prop
  | building : Event.OfCaller .building
  | copied (v : α) : Event.OfCaller (.copied v)
  | ran {reports : List (Report α)} (h : ∀ report ∈ reports, Report.OfCaller report) :
      Event.OfCaller (.ran reports)

inductive Report.OfCaller : Report α → Prop
  | mk {reply : Reply α} {events : List (Event α)} {size : UInt64} {isEmpty isFull : Bool}
      (h : ∀ event ∈ events, Event.OfCaller event) :
      Report.OfCaller (.mk reply events size isEmpty isFull)

end

/-- Keeps beside the caller's own state the rings on which its code was run. -/
def watching {n : SlotCount} {σ : Type} (make : σ → Ring n α → Option α × σ × Ring n α) :
    σ × List (Ring n α) → Ring n α → Option α × (σ × List (Ring n α)) × Ring n α :=
  fun (own, seen) r =>
    let (result, own, after) := make own r
    (result, (own, seen ++ [r]), after)

end LockFreeRings.Mpmc
