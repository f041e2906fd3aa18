import LockFreeRings.Spsc.Command
import LockFreeRings.Spsc.Report
set_option autoImplicit false

/-!
# Sessions with a one-producer one-consumer queue

A session runs commands for the two handles of one queue and reports each.  Code
that runs inside a call can reach only the handles that are free at that moment:
a handle that a surrounding call borrows, and one that was dropped, are
unavailable.

Nested commands are run by the same function as outer ones, one level deeper;
`Script.run` provides as many levels as the script can need.
-/

namespace LockFreeRings.Spsc

/-! ## Running commands -/

/-- The state of a session beside its ring. -/
structure Scene (k : Nat) (ω : Type) where
  iterators : List (List (IteratorEntry k ω)) := []
  /-- whether an element was built in the next slot to write -/
  built : Bool := false

/-- What a callback threads: the state of the session, and the events so far. -/
structure Progress (k : Nat) (ω : Type) where
  scene : Scene k ω
  events : List (Event k ω) := []

variable {n : SlotCount} {k : Nat} {ω : Type}

/-- The state after something ran. -/
structure Ran (n : SlotCount) (k : Nat) (ω : Type) (ρ : Type) where
  result : ρ
  events : List (Event k ω)
  scene : Scene k ω
  ring : Ring n k ω

/-- What the free handles say about the queue. -/
def report (reach : Reach) (reply : Reply k ω) (events : List (Event k ω))
    (r : Ring n k ω) : Report k ω :=
  .mk reply events
    (if reach.producer then some ⟨r.len, r.isEmpty, r.isFull⟩ else none)
    (if reach.consumer then some ⟨r.len, r.isEmpty⟩ else none)

/-- How a command is run; the commands that run inside others go through this. -/
abbrev Runner (n : SlotCount) (k : Nat) (ω : Type) : Type :=
  Reach → Command k ω → Scene k ω → Ring n k ω → Ran n k ω (Reply k ω)

/-- Runs commands in turn and reports each. -/
def runAll (run : Runner n k ω) (reach : Reach) :
    List (Command k ω) → Scene k ω → Ring n k ω →
      List (Report k ω) × Scene k ω × Ring n k ω
  | [], scene, r => ([], scene, r)
  | c :: cs, scene, r =>
    let ran := run reach c scene r
    let (reports, scene, r) := runAll run reach cs ran.scene ran.ring
    (report reach ran.result ran.events ran.ring :: reports, scene, r)

/-- Runs the commands that come before a callback's own work; an event shows
them if there are any. -/
def runBefore (run : Runner n k ω) (reach : Reach) (before : List (Command k ω))
    (p : Progress k ω) (r : Ring n k ω) : Progress k ω × Ring n k ω :=
  match before with
  | [] => (p, r)
  | _ :: _ =>
    let (reports, scene, r) := runAll run reach before p.scene r
    (⟨scene, p.events ++ [.ran reports]⟩, r)

/-- Makes a copy for a batch. -/
def makeCopy (watched : Bool) (run : Runner n k ω) (reach : Reach) (copy : Copy k ω)
    (p : Progress k ω) (r : Ring n k ω) : Option (Element k ω) × Progress k ω × Ring n k ω :=
  match copy with
  | .mk value before fails =>
    let (p, r) := runBefore run reach before p r
    if fails then (none, p, r)
    else if watched then (some value, ⟨p.scene, p.events ++ [.copied value]⟩, r)
    else (some value, p, r)

/-- The entries left in an iterator; one that does not exist has none. -/
def Scene.left (scene : Scene k ω) (iterator : Nat) : List (IteratorEntry k ω) :=
  (scene.iterators[iterator]?).getD []

/-- Asks an iterator for its next answer.  The entry is gone before anything it
runs begins. -/
def ask (run : Runner n k ω) (reach : Reach) (iterator : Nat)
    (p : Progress k ω) (r : Ring n k ω) :
    Ring.Pull (Element k ω) × Progress k ω × Ring n k ω :=
  match p.scene.left iterator with
  | [] => (.ended, ⟨p.scene, p.events ++ [.exhausted]⟩, r)
  | entry :: rest =>
    let scene := { p.scene with iterators := p.scene.iterators.set iterator rest }
    let (p, r) := runBefore run reach entry.before ⟨scene, p.events⟩ r
    match entry.answer with
    | .item v => (.item v, ⟨p.scene, p.events ++ [.pulled v]⟩, r)
    | .ended => (.ended, ⟨p.scene, p.events ++ [.exhausted]⟩, r)
    | .failed => (.failed, p, r)

/-- Asks an iterator at most as often as its limit says; behind the limit it is
not asked. -/
def askWithin (run : Runner n k ω) (reach : Reach) (iterator : Nat)
    (s : Option UInt64 × Progress k ω) (r : Ring n k ω) :
    Ring.Pull (Element k ω) × (Option UInt64 × Progress k ω) × Ring n k ω :=
  if s.1 = some 0 then (.ended, s, r)
  else
    let (answer, p, r) := ask run reach iterator s.2 r
    (answer, (s.1.map (· - 1), p), r)

/-- Carries out the actions on a slot that is held for writing. -/
def runWrites (run : Runner n k ω) (reach : Reach) (slot : UInt64) :
    List (WriteAction k ω) → Scene k ω → Ring n k ω →
      List (WriteReply k ω) × Scene k ω × Ring n k ω
  | [], scene, r => ([], scene, r)
  | .build v :: actions, scene, r =>
    let (replies, scene, r) :=
      runWrites run reach slot actions { scene with built := true } (r.write slot v)
    (.built :: replies, scene, r)
  | .setWords words :: actions, scene, r =>
    let r := words.foldl (fun r word => r.writeWord slot word.1 word.2) r
    let (replies, scene, r) := runWrites run reach slot actions { scene with built := true } r
    (.wordsSet :: replies, scene, r)
  | .nested c :: actions, scene, r =>
    let ran := run reach c scene r
    let (replies, scene, r) := runWrites run reach slot actions ran.scene ran.ring
    (.nested (report reach ran.result ran.events ran.ring) :: replies, scene, r)

/-- Ends the hold on a slot that is held for writing. -/
def endWrite (slot : UInt64) (ending : WriteEnding k ω) (scene : Scene k ω) (r : Ring n k ω) :
    WriteOutcome × Scene k ω × Ring n k ω :=
  match ending with
  | .write v => (.written, { scene with built := false }, (r.write slot v).commitWrite)
  | .commit =>
    if scene.built then (.committed, { scene with built := false }, r.commitWrite)
    else (.unbuilt, scene, r)
  | .abandon => (.abandoned, scene, r)

/-- Carries out the actions on a slot that is held for reading. -/
def runReads (run : Runner n k ω) (reach : Reach) (slot : UInt64) :
    List (ReadAction k ω) → Scene k ω → Ring n k ω →
      List (ReadReply k ω) × Scene k ω × Ring n k ω
  | [], scene, r => ([], scene, r)
  | .read :: actions, scene, r =>
    let v := r.read slot
    let (replies, scene, r) := runReads run reach slot actions scene r
    (.element v :: replies, scene, r)
  | .edit v :: actions, scene, r =>
    let (replies, scene, r) := runReads run reach slot actions scene (r.write slot v)
    (.edited :: replies, scene, r)
  | .nested c :: actions, scene, r =>
    let ran := run reach c scene r
    let (replies, scene, r) := runReads run reach slot actions ran.scene ran.ring
    (.nested (report reach ran.result ran.events ran.ring) :: replies, scene, r)

/-- Ends the hold on a slot that is held for reading. -/
def endRead (watched : Bool) (slot : UInt64) (ending : ReadEnding) (r : Ring n k ω) :
    ReadOutcome k ω × List (Event k ω) × Ring n k ω :=
  match ending with
  | .release => (.released, if watched then [.ended (r.read slot)] else [], r.releaseRead)
  -- the slot is freed behind the end of the element, which is not reached
  | .releaseFails => (.endFailed, if watched then [.ended (r.read slot)] else [], r)
  | .take => (.taken (r.read slot), [], r.releaseRead)
  | .keep => (.kept, [], r)

/-- Runs a producer's command. -/
def runProducer (watched : Bool) (run : Runner n k ω) (reach : Reach) (c : Command k ω)
    (scene : Scene k ω) (r : Ring n k ω) : Ran n k ω (Reply k ω) :=
  let inside : Reach := { reach with producer := false }
  let cleared : Scene k ω := { scene with built := false }
  match c with
  | .producerCapacity => ⟨.capacity r.capacity, [], scene, r⟩
  | .push v =>
    let (success, r) := r.push v
    ⟨if success then .pushed else .full v, [], cleared, r⟩
  | .pushBatch copies =>
    let (count?, p, r) := Ring.pushCopies (makeCopy watched run inside) copies ⟨cleared, []⟩ r
    ⟨match count? with
      | none => .copyFailed
      | some count => .pushedMany count, p.events, p.scene, r⟩
  | .pushFrom iterator limit =>
    let (count?, (_, p), r) := Ring.pushFrom (askWithin run inside iterator)
      (limit, ⟨cleared, []⟩) r
    let left := (p.scene.left iterator).length
    ⟨match count? with
      | none => .iteratorFailed left
      | some count => .pulledMany count left, p.events, p.scene, r⟩
  | .writeSlot actions ending =>
    match r.acquireWrite with
    | (none, r) => ⟨.noSlot, [], scene, r⟩
    | (some slot, r) =>
      let (replies, scene, r) := runWrites run inside slot actions scene r
      let (outcome, scene, r) := endWrite slot ending scene r
      ⟨.wrote replies outcome, [], scene, r⟩
  | _ => ⟨.unavailable, [], scene, r⟩

/-- Runs a consumer's command. -/
def runConsumer (watched : Bool) (run : Runner n k ω) (reach : Reach) (c : Command k ω)
    (scene : Scene k ω) (r : Ring n k ω) : Ran n k ω (Reply k ω) :=
  match c with
  | .consumerCapacity => ⟨.capacity r.capacity, [], scene, r⟩
  | .pop =>
    let (v?, r) := r.pop
    ⟨match v? with
      | none => .empty
      | some v => .popped v, [], scene, r⟩
  | .popBatch limit out =>
    let (vs, r) := r.popBatch limit
    ⟨.poppedMany vs.length (out ++ vs), [], scene, r⟩
  | .readSlot actions ending =>
    match r.acquireRead with
    | (none, r) => ⟨.noSlot, [], scene, r⟩
    | (some slot, r) =>
      let inside : Reach := { reach with consumer := false }
      let (replies, scene, r) := runReads run inside slot actions scene r
      let (outcome, events, r) := endRead watched slot ending r
      ⟨.readOut replies outcome, events, scene, r⟩
  | _ => ⟨.unavailable, [], scene, r⟩

/-- Runs a command; nested commands go at most `fuel` deep. -/
def runCommand (watched : Bool) : Nat → Runner n k ω
  | 0, _, _, scene, r => ⟨.tooDeep, [], scene, r⟩
  | fuel + 1, reach, c, scene, r =>
    let run := runCommand watched fuel
    match c.handle? with
    | some .producer =>
      if reach.producer then runProducer watched run reach c scene r
      else ⟨.unavailable, [], scene, r⟩
    | some .consumer =>
      if reach.consumer then runConsumer watched run reach c scene r
      else ⟨.unavailable, [], scene, r⟩
    | none =>
      match c with
      | .pull iterator =>
        let (answer, p, r) := ask run { reach with producer := false } iterator ⟨scene, []⟩ r
        ⟨match answer with
          | .item v => .pulled (some v)
          | .ended => .pulled none
          | .failed => .pullFailed, p.events, p.scene, r⟩
      | _ => ⟨.unavailable, [], scene, r⟩

/-! ## Sessions -/

/-- The state of a session: which handles are alive, and the ring. -/
structure Session (n : SlotCount) (k : Nat) (ω : Type) where
  alive : Reach := {}
  scene : Scene k ω
  ring : Ring n k ω

namespace Session

/-- What the end of a handle logs: the ring ends with the second one. -/
def lastWords (otherAlive : Bool) (r : Ring n k ω) : List (Event k ω) :=
  if otherAlive then [] else (teardown .spsc r.len).map .logged

/-- Drops the producer. -/
def dropProducer (s : Session n k ω) : Bool × List (Event k ω) × Session n k ω :=
  if s.alive.producer then
    (true, lastWords s.alive.consumer s.ring, { s with alive.producer := false })
  else (false, [], s)

/-- Drops the consumer. -/
def dropConsumer (s : Session n k ω) : Bool × List (Event k ω) × Session n k ω :=
  if s.alive.consumer then
    (true, lastWords s.alive.producer s.ring, { s with alive.consumer := false })
  else (false, [], s)

/-- Runs a command of a session and reports it. -/
def exec (watched : Bool) (fuel : Nat) (s : Session n k ω) :
    SessionCommand k ω → Report k ω × Session n k ω
  | .command c =>
    let ran := runCommand watched fuel s.alive c s.scene s.ring
    (report s.alive ran.result ran.events ran.ring, { s with scene := ran.scene, ring := ran.ring })
  | .dropProducer =>
    let (existed, events, s) := s.dropProducer
    (report s.alive (.dropped existed) events s.ring, s)
  | .dropConsumer =>
    let (existed, events, s) := s.dropConsumer
    (report s.alive (.dropped existed) events s.ring, s)

/-- Runs the commands of a session in turn. -/
def execAll (watched : Bool) (fuel : Nat) :
    List (SessionCommand k ω) → Session n k ω → List (Report k ω) × Session n k ω
  | [], s => ([], s)
  | c :: cs, s =>
    let (first, s) := exec watched fuel s c
    let (rest, s) := execAll watched fuel cs s
    (first :: rest, s)

/-- Ends a session: the handles that are left are dropped, the producer first. -/
def finish (s : Session n k ω) : List (Event k ω) :=
  let (_, first, s) := s.dropProducer
  let (_, second, _) := s.dropConsumer
  first ++ second

end Session

/-- A whole session: its iterators and its commands. -/
structure Script (k : Nat) (ω : Type) where
  iterators : List (List (IteratorEntry k ω))
  commands : List (SessionCommand k ω)

/-- How deeply the commands of a script can be nested. -/
def Script.depth (script : Script k ω) : Nat :=
  let own := script.commands.map fun
    | .command c => c.depth
    | _ => 0
  own.foldl max 0 + iteratorsDepth script.iterators

/-- Runs a script on a new ring whose slots hold `blank`: a report for each
command, and the events at the end. -/
def Script.run (watched : Bool) (n : SlotCount) (blank : Element k ω) (script : Script k ω) :
    List (Report k ω) × List (Event k ω) :=
  let start : Session n k ω := { scene := { iterators := script.iterators }, ring := .new n blank }
  let (reports, s) := Session.execAll watched script.depth script.commands start
  (reports, s.finish)

end LockFreeRings.Spsc
