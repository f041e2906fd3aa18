import LockFreeRings.Spsc.Session
set_option autoImplicit false

/-!
# Sessions on a bounded list

What a session with a one-producer one-consumer queue does, said on a list of at
most `bound` elements, without cursors and copies of cursors.  The places that no
element occupies are a list of their own, `vacant`, in the order in which they are
used again; each still holds the element that was there last, which only a slot
that is held for writing shows.  Writing ahead of publishing changes vacant
places.

`Fifo.runCommand` answers `none` when commands nest deeper than `fuel`, when a slot
is read that holds nothing, and when more than `bound` elements would be queued.  A
session never comes to that with the fuel that its commands and iterators need, or
more.
-/

namespace LockFreeRings.Spsc

variable {k : Nat} {ω : Type}

/-- The queued elements, the oldest first, and what is in the other places. -/
structure Fifo (k : Nat) (ω : Type) where
  queue : List (Element k ω) := []
  vacant : List (Element k ω)

namespace Fifo

/-- Writes a vacant place. -/
def put (f : Fifo k ω) (i : Nat) (v : Element k ω) : Fifo k ω :=
  { f with vacant := f.vacant.set i v }

/-- Stores single words in the first vacant place. -/
def putWords (f : Fifo k ω) (words : List (Fin k × ω)) : Fifo k ω :=
  { f with vacant := f.vacant.modify 0 fun v => words.foldl (fun v word => v.set word.1 word.2) v }

/-- Changes the oldest element. -/
def edit (f : Fifo k ω) (v : Element k ω) : Fifo k ω := { f with queue := f.queue.set 0 v }

/-- Appends elements, which take the first vacant places. -/
def append (f : Fifo k ω) (vs : List (Element k ω)) : Fifo k ω :=
  ⟨f.queue ++ vs, f.vacant.drop vs.length⟩

/-- Appends elements to a queue that can take them. -/
def appendWithin (bound : Nat) (f : Fifo k ω) (vs : List (Element k ω)) : Option (Fifo k ω) :=
  if f.queue.length + vs.length ≤ bound then some (f.append vs) else none

/-- Removes the oldest elements; their places are the last to be used again. -/
def remove (f : Fifo k ω) (count : Nat) : Fifo k ω :=
  ⟨f.queue.drop count, f.vacant ++ f.queue.take count⟩

/-- The state after something ran. -/
structure Ran (k : Nat) (ω : Type) (ρ : Type) where
  result : ρ
  events : List (Event k ω)
  scene : Scene k ω
  fifo : Fifo k ω

/-- How a command is run. -/
abbrev Runner (k : Nat) (ω : Type) : Type :=
  Reach → Command k ω → Scene k ω → Fifo k ω → Option (Ran k ω (Reply k ω))

section

variable (bound : Nat) (watched : Bool) (run : Runner k ω) (reach : Reach)

/-- What the free handles say about the queue. -/
def report (reply : Reply k ω) (events : List (Event k ω)) (f : Fifo k ω) : Report k ω :=
  .mk reply events
    (if reach.producer then
      some ⟨UInt64.ofNat f.queue.length, f.queue.length = 0, f.queue.length = bound⟩
    else none)
    (if reach.consumer then some ⟨UInt64.ofNat f.queue.length, f.queue.length = 0⟩ else none)

/-- Runs commands in turn and reports each. -/
def runAll : List (Command k ω) → Scene k ω → Fifo k ω →
    Option (List (Report k ω) × Scene k ω × Fifo k ω)
  | [], scene, f => some ([], scene, f)
  | c :: cs, scene, f => do
    let ran ← run reach c scene f
    let (reports, scene, f) ← runAll cs ran.scene ran.fifo
    some (report bound reach ran.result ran.events ran.fifo :: reports, scene, f)

/-- Runs the commands that come before a callback's own work. -/
def runBefore (before : List (Command k ω)) (p : Progress k ω) (f : Fifo k ω) :
    Option (Progress k ω × Fifo k ω) := do
  let (reports, scene, f) ← runAll bound run reach before p.scene f
  match reports with
  | [] => some (⟨scene, p.events⟩, f)
  | _ :: _ => some (⟨scene, p.events ++ [.ran reports]⟩, f)

/-- Copies elements into vacant places, behind those that are `drafted`; `none`
from the first copy that fails. -/
def copyAll : List (Copy k ω) → List (Element k ω) → Progress k ω → Fifo k ω →
    Option (Option (List (Element k ω)) × Progress k ω × Fifo k ω)
  | [], drafted, p, f => some (some drafted, p, f)
  | .mk value before fails :: copies, drafted, p, f => do
    let (p, f) ← runBefore bound run reach before p f
    if fails then some (none, p, f)
    else
      copyAll copies (drafted ++ [value])
        (if watched then ⟨p.scene, p.events ++ [.copied value]⟩ else p)
        (f.put drafted.length value)

/-- Asks an iterator for its next answer. -/
def ask (iterator : Nat) (p : Progress k ω) (f : Fifo k ω) :
    Option (Ring.Pull (Element k ω) × Progress k ω × Fifo k ω) :=
  match p.scene.left iterator with
  | [] => some (.ended, ⟨p.scene, p.events ++ [.exhausted]⟩, f)
  | entry :: rest => do
    let scene := { p.scene with iterators := p.scene.iterators.set iterator rest }
    let (p, f) ← runBefore bound run reach entry.before ⟨scene, p.events⟩ f
    match entry.answer with
    | .item v => some (.item v, ⟨p.scene, p.events ++ [.pulled v]⟩, f)
    | .ended => some (.ended, ⟨p.scene, p.events ++ [.exhausted]⟩, f)
    | .failed => some (.failed, p, f)

/-- Writes what an iterator answers to vacant places while the elements queued at
the moment and those drafted are less than the bound; `none` when it fails.  It is
asked at most `left` times. -/
def pullAll (iterator : Nat) : Nat → List (Element k ω) → Option UInt64 → Progress k ω →
    Fifo k ω → Option (Option (List (Element k ω)) × Progress k ω × Fifo k ω)
  | 0, drafted, _, p, f => some (some drafted, p, f)
  | left + 1, drafted, limit, p, f =>
    if f.queue.length + drafted.length < bound ∧ limit ≠ some 0 then do
      let (answer, p, f) ← ask bound run reach iterator p f
      match answer with
      | .failed => some (none, p, f)
      | .ended => some (some drafted, p, f)
      | .item v =>
        pullAll iterator left (drafted ++ [v]) (limit.map (· - 1)) p (f.put drafted.length v)
    else some (some drafted, p, f)

/-- Carries out the actions on a slot that is held for writing. -/
def runWrites : List (WriteAction k ω) → Scene k ω → Fifo k ω →
    Option (List (WriteReply k ω) × Scene k ω × Fifo k ω)
  | [], scene, f => some ([], scene, f)
  | .build v :: actions, scene, f => do
    let (replies, scene, f) ← runWrites actions { scene with built := true } (f.put 0 v)
    some (.built :: replies, scene, f)
  | .setWords words :: actions, scene, f => do
    let (replies, scene, f) ← runWrites actions { scene with built := true } (f.putWords words)
    some (.wordsSet :: replies, scene, f)
  | .nested c :: actions, scene, f => do
    let ran ← run reach c scene f
    let (replies, scene, f) ← runWrites actions ran.scene ran.fifo
    some (.nested (report bound reach ran.result ran.events ran.fifo) :: replies, scene, f)

/-- Ends the hold on a slot that is held for writing. -/
def endWrite (ending : WriteEnding k ω) (scene : Scene k ω) (f : Fifo k ω) :
    Option (WriteOutcome × Scene k ω × Fifo k ω) :=
  match ending with
  | .write v => do
    let f ← f.appendWithin bound [v]
    some (.written, { scene with built := false }, f)
  | .commit =>
    if scene.built then do
      let f ← f.appendWithin bound (f.vacant.take 1)
      some (.committed, { scene with built := false }, f)
    else some (.unbuilt, scene, f)
  | .abandon => some (.abandoned, scene, f)

/-- Carries out the actions on a slot that is held for reading. -/
def runReads : List (ReadAction k ω) → Scene k ω → Fifo k ω →
    Option (List (ReadReply k ω) × Scene k ω × Fifo k ω)
  | [], scene, f => some ([], scene, f)
  | .read :: actions, scene, f => do
    let v ← f.queue.head?
    let (replies, scene, f) ← runReads actions scene f
    some (.element v :: replies, scene, f)
  | .edit v :: actions, scene, f => do
    let (replies, scene, f) ← runReads actions scene (f.edit v)
    some (.edited :: replies, scene, f)
  | .nested c :: actions, scene, f => do
    let ran ← run reach c scene f
    let (replies, scene, f) ← runReads actions ran.scene ran.fifo
    some (.nested (report bound reach ran.result ran.events ran.fifo) :: replies, scene, f)

/-- Ends the hold on a slot that is held for reading. -/
def endRead (ending : ReadEnding) (f : Fifo k ω) :
    Option (ReadOutcome k ω × List (Event k ω) × Fifo k ω) := do
  let v ← f.queue.head?
  match ending with
  | .release => some (.released, if watched then [.ended v] else [], f.remove 1)
  | .releaseFails => some (.endFailed, if watched then [.ended v] else [], f)
  | .take => some (.taken v, [], f.remove 1)
  | .keep => some (.kept, [], f)

/-- Runs a producer's command. -/
def runProducer (c : Command k ω) (scene : Scene k ω) (f : Fifo k ω) :
    Option (Ran k ω (Reply k ω)) :=
  let inside : Reach := { reach with producer := false }
  let cleared : Scene k ω := { scene with built := false }
  match c with
  | .producerCapacity => some ⟨.capacity (UInt64.ofNat bound), [], scene, f⟩
  | .push v =>
    if f.queue.length = bound then some ⟨.full v, [], cleared, f⟩
    else do
      let f ← f.appendWithin bound [v]
      some ⟨.pushed, [], cleared, f⟩
  | .pushBatch copies => do
    let count := min copies.length (bound - f.queue.length)
    let (drafted?, p, f) ← copyAll bound watched run inside (copies.take count) [] ⟨cleared, []⟩ f
    match drafted? with
    | none => some ⟨.copyFailed, p.events, p.scene, f⟩
    | some drafted => do
      let f ← f.appendWithin bound drafted
      some ⟨.pushedMany drafted.length, p.events, p.scene, f⟩
  | .pushFrom iterator limit => do
    let (drafted?, p, f) ← pullAll bound run inside iterator bound [] limit ⟨cleared, []⟩ f
    let left := (p.scene.left iterator).length
    match drafted? with
    | none => some ⟨.iteratorFailed left, p.events, p.scene, f⟩
    | some drafted => do
      let f ← f.appendWithin bound drafted
      some ⟨.pulledMany drafted.length left, p.events, p.scene, f⟩
  | .writeSlot actions ending =>
    if f.queue.length = bound then some ⟨.noSlot, [], scene, f⟩
    else do
      let (replies, scene, f) ← runWrites bound run inside actions scene f
      let (outcome, scene, f) ← endWrite bound ending scene f
      some ⟨.wrote replies outcome, [], scene, f⟩
  | _ => some ⟨.unavailable, [], scene, f⟩

/-- Runs a consumer's command. -/
def runConsumer (c : Command k ω) (scene : Scene k ω) (f : Fifo k ω) :
    Option (Ran k ω (Reply k ω)) :=
  match c with
  | .consumerCapacity => some ⟨.capacity (UInt64.ofNat bound), [], scene, f⟩
  | .pop =>
    match f.queue with
    | [] => some ⟨.empty, [], scene, f⟩
    | v :: _ => some ⟨.popped v, [], scene, f.remove 1⟩
  | .popBatch limit out =>
    let vs := f.queue.take limit.toNat
    some ⟨.poppedMany vs.length (out ++ vs), [], scene, f.remove vs.length⟩
  | .readSlot actions ending =>
    if f.queue.length = 0 then some ⟨.noSlot, [], scene, f⟩
    else do
      let inside : Reach := { reach with consumer := false }
      let (replies, scene, f) ← runReads bound run inside actions scene f
      let (outcome, events, f) ← endRead watched ending f
      some ⟨.readOut replies outcome, events, scene, f⟩
  | _ => some ⟨.unavailable, [], scene, f⟩

/-- Runs a command; `none` when commands nest deeper than `fuel`. -/
def runCommand : Nat → Runner k ω
  | 0, _, _, _, _ => none
  | fuel + 1, reach, c, scene, f =>
    match c.handle? with
    | some .producer =>
      if reach.producer then runProducer bound watched (runCommand fuel) reach c scene f
      else some ⟨.unavailable, [], scene, f⟩
    | some .consumer =>
      if reach.consumer then runConsumer bound watched (runCommand fuel) reach c scene f
      else some ⟨.unavailable, [], scene, f⟩
    | none =>
      match c with
      | .pull iterator => do
        let (answer, p, f) ←
          ask bound (runCommand fuel) { reach with producer := false } iterator ⟨scene, []⟩ f
        some ⟨match answer with
          | .item v => .pulled (some v)
          | .ended => .pulled none
          | .failed => .pullFailed, p.events, p.scene, f⟩
      | _ => some ⟨.unavailable, [], scene, f⟩

/-- What the end of a queue logs. -/
def lastWords (f : Fifo k ω) : List (Event k ω) :=
  (teardown .spsc (UInt64.ofNat f.queue.length)).map .logged

/-- Runs the commands of a session in turn, and gives the reports and what is
logged at the end.  The queue ends with the second of the two handles. -/
def runSession (fuel : Nat) : List (SessionCommand k ω) → Reach → Scene k ω → Fifo k ω →
    Option (List (Report k ω) × List (Event k ω))
  | [], alive, _, f => some ([], if alive.producer ∨ alive.consumer then lastWords f else [])
  | .command c :: cs, alive, scene, f => do
    let ran ← runCommand bound watched fuel alive c scene f
    let (reports, last) ← runSession fuel cs alive ran.scene ran.fifo
    some (report bound alive ran.result ran.events ran.fifo :: reports, last)
  | .dropProducer :: cs, alive, scene, f => do
    let after : Reach := { alive with producer := false }
    let (reports, last) ← runSession fuel cs after scene f
    some (report bound after (.dropped alive.producer)
      (if alive.producer ∧ ¬alive.consumer then lastWords f else []) f :: reports, last)
  | .dropConsumer :: cs, alive, scene, f => do
    let after : Reach := { alive with consumer := false }
    let (reports, last) ← runSession fuel cs after scene f
    some (report bound after (.dropped alive.consumer)
      (if alive.consumer ∧ ¬alive.producer then lastWords f else []) f :: reports, last)

end

end Fifo

/-- A session on a list of at most `bound` elements, with room for one more. -/
def Script.onFifo (watched : Bool) (bound : Nat) (blank : Element k ω) (fuel : Nat)
    (script : Script k ω) : Option (List (Report k ω) × List (Event k ω)) :=
  Fifo.runSession bound watched fuel script.commands {} { iterators := script.iterators }
    { vacant := List.replicate (bound + 1) blank }

end LockFreeRings.Spsc
