import LockFreeRings.Proofs.Spsc.Likeness
set_option autoImplicit false

/-!
# What became of the elements of a session

The reports of a session, read next to its commands, tell which elements came to the queue
and what happened to each: a list of dealings (`Script.dealings`).  Reading goes through the
reports; what an iterator ran before it answered stands in its entries, so the reader keeps
count of the entries that are used up.

Copies and pulled elements are told at the end of their call, when it is known whether they
were published, and elements built in a slot at the end of the hold.
-/

namespace LockFreeRings.Spsc

variable {k : Nat} {ω : Type}

/-! ## Dealings -/

/-- What happens to an element. -/
inductive Dealing (k : Nat) (ω : Type) where
  /-- it came, and something came back from the push that was refused -/
  | refused (v back : Element k ω)
  /-- the library made it, a copy; that it came is told with what became of it -/
  | copied (v : Element k ω)
  /-- it came and was stored where nothing is published -/
  | stranded (v : Element k ω)
  /-- it came and was published -/
  | published (v : Element k ω)
  /-- a slot was published that was not filled while it was held -/
  | unfilled
  /-- the oldest element was changed in place -/
  | edited (v : Element k ω)
  /-- the oldest element was handed to the caller -/
  | returned (v : Element k ω)
  /-- the oldest element was ended in place -/
  | released
  /-- ending the oldest element in place failed, and it was not removed -/
  | endFailed
  deriving DecidableEq

/-- Whether an element was published. -/
def Dealing.isPublished : Dealing k ω → Bool
  | .published _ => true
  | _ => false

/-- Whether an element was removed. -/
def Dealing.isRemoval : Dealing k ω → Bool
  | .returned _ | .released => true
  | _ => false

/-- Whether ending an element failed. -/
def Dealing.isEndFailed : Dealing k ω → Bool
  | .endFailed => true
  | _ => false

/-- The copy that was made. -/
def Dealing.copied? : Dealing k ω → Option (Element k ω)
  | .copied v => some v
  | _ => none

def Copy.value : Copy k ω → Element k ω
  | .mk value _ _ => value

def Copy.before : Copy k ω → List (Command k ω)
  | .mk _ before _ => before

def Copy.fails : Copy k ω → Bool
  | .mk _ _ fails => fails

/-- The copies that are made of a batch, of which one may fail. -/
def madeOf (copies : List (Copy k ω)) : List (Element k ω) :=
  (copies.takeWhile (!·.fails)).map Copy.value

/-- The copy that an event shows. -/
def Event.copied? : Event k ω → Option (Element k ω)
  | .copied v => some v
  | _ => none

/-- What an iterator gave. -/
def Event.item? : Event k ω → Option (Element k ω)
  | .pulled v => some v
  | _ => none

/-- Stores single words in an element. -/
def setAll (v : Element k ω) (words : List (Fin k × ω)) : Element k ω :=
  words.foldl (fun v word =>
    let j : Fin k := word.1
    v.set j word.2 j.isLt) v

/-- The elements that are built in a slot: those that are built over, and the one that is
there in the end.  Words that are stored before anything was built are stored in `blank`. -/
def builtIn (blank : Element k ω) :
    List (WriteAction k ω) → Option (Element k ω) → List (Element k ω) × Option (Element k ω)
  | [], v? => ([], v?)
  | .build v :: actions, v? =>
    let (covered, last) := builtIn blank actions (some v)
    (v?.toList ++ covered, last)
  | .setWords words :: actions, v? =>
    builtIn blank actions (some (setAll (v?.getD blank) words))
  | .nested _ :: actions, v? => builtIn blank actions v?

/-- The dealings of a hold on a slot for writing. -/
def WriteEnding.dealings (blank : Element k ω) (actions : List (WriteAction k ω)) :
    WriteEnding k ω → WriteOutcome → List (Dealing k ω)
  | .write v, .written =>
    (builtIn blank actions none).1.map .stranded ++
      (builtIn blank actions none).2.toList.map .stranded ++ [.published v]
  | .commit, .committed =>
    (builtIn blank actions none).1.map .stranded ++
      if fillsSlot actions then (builtIn blank actions none).2.toList.map .published
      else [.unfilled]
  | _, _ =>
    (builtIn blank actions none).1.map .stranded ++
      (builtIn blank actions none).2.toList.map .stranded

/-- The dealings of a command, without those of what runs inside it. -/
def Command.own (blank : Element k ω) : Command k ω → Reply k ω → List (Event k ω) →
    List (Dealing k ω)
  | .push v, .pushed, _ => [.published v]
  | .push v, .full back, _ => [.refused v back]
  | .pushBatch copies, .pushedMany count, _ =>
    (madeOf (copies.take count)).map .copied ++ (madeOf (copies.take count)).map .published
  | .pushBatch copies, .copyFailed, _ =>
    (madeOf copies).map .copied ++ (madeOf copies).map .stranded
  | .pushFrom _ _, .pulledMany _ _, events => (events.filterMap Event.item?).map .published
  | .pushFrom _ _, .iteratorFailed _, events => (events.filterMap Event.item?).map .stranded
  | .writeSlot actions ending, .wrote _ outcome, _ => ending.dealings blank actions outcome
  | .pop, .popped v, _ => [.returned v]
  | .popBatch _ out, .poppedMany _ all, _ => (all.drop out.length).map .returned
  | .readSlot _ _, .readOut _ (.taken v), _ => [.returned v]
  | .readSlot _ _, .readOut _ .released, _ => [.released]
  | .readSlot _ _, .readOut _ .endFailed, _ => [.endFailed]
  | _, _, _ => []

/-! ## Reading reports -/

/-- The entries that are left in each iterator. -/
abbrev Iterators (k : Nat) (ω : Type) : Type := List (List (IteratorEntry k ω))

namespace Iterators

/-- What runs before an iterator's next answer. -/
def before (iterators : Iterators k ω) (iterator : Nat) : List (Command k ω) :=
  match (iterators[iterator]?).getD [] with
  | [] => []
  | entry :: _ => entry.before

/-- An iterator's next entry is used up. -/
def advance (iterators : Iterators k ω) (iterator : Nat) : Iterators k ω :=
  iterators.set iterator ((iterators[iterator]?).getD []).tail

end Iterators

namespace Scene

variable {scene : Scene k ω} {iterator : Nat} {entry : IteratorEntry k ω}
  {rest : List (IteratorEntry k ω)}

theorem before_of_cons (h : scene.left iterator = entry :: rest) :
    Iterators.before scene.iterators iterator = entry.before := by
  unfold left at h
  rw [Iterators.before, h]

theorem advance_of_cons (h : scene.left iterator = entry :: rest) :
    Iterators.advance scene.iterators iterator = scene.iterators.set iterator rest := by
  unfold left at h
  rw [Iterators.advance, h]
  rfl

/-- Nothing is used up of an iterator that has no entries. -/
theorem advance_of_nil (h : scene.left iterator = []) :
    Iterators.advance scene.iterators iterator = scene.iterators := by
  unfold left at h
  rw [Iterators.advance, h]
  refine List.ext_getElem? fun i => ?_
  rw [List.getElem?_set]
  split
  · next heq =>
    subst heq
    split
    · next hlt =>
      rw [List.getElem?_eq_getElem hlt, Option.getD_some] at h
      rw [List.getElem?_eq_getElem hlt, h]
      rfl
    · next hge => rw [List.getElem?_eq_none (Nat.not_lt.mp hge)]
  · rfl

end Scene

/-- The dealings so far, and the entries that are left in the iterators. -/
abbrev Reading (k : Nat) (ω : Type) : Type := List (Dealing k ω) × Iterators k ω

/-- Reads on, from the entries that are left. -/
def Reading.andThen (reading : Reading k ω) (next : Iterators k ω → Reading k ω) : Reading k ω :=
  (reading.1 ++ (next reading.2).1, (next reading.2).2)

/-- Whether an iterator failed when it was asked. -/
def Reply.askFailed : Reply k ω → Bool
  | .iteratorFailed _ | .pullFailed => true
  | _ => false

section reading

variable (blank : Element k ω)

mutual

/-- The dealings of a command that was answered by this report. -/
def Report.dealings : Report k ω → Command k ω → Iterators k ω → Reading k ω
  | .mk reply events _ _, c, iterators =>
    Reading.andThen
      (match reply, c with
        | .wrote replies _, .writeSlot actions _ => writesDealings replies actions iterators
        | .readOut replies _, .readSlot actions _ => readsDealings replies actions iterators
        | _, .pushBatch copies =>
          copiesDealings events ((copies.map Copy.before).filter (!·.isEmpty)) iterators
        | reply, .pushFrom iterator _ => asksDealings events iterator reply.askFailed iterators
        | reply, .pull iterator => asksDealings events iterator reply.askFailed iterators
        | _, _ => ([], iterators))
      fun iterators => (c.own blank reply events, iterators)

/-- The dealings of commands that ran in turn. -/
def reportsDealings : List (Report k ω) → List (Command k ω) → Iterators k ω → Reading k ω
  | report :: reports, c :: cs, iterators =>
    (report.dealings c iterators).andThen (reportsDealings reports cs)
  | _, _, iterators => ([], iterators)

/-- The dealings of what ran before copies. -/
def copiesDealings : List (Event k ω) → List (List (Command k ω)) → Iterators k ω → Reading k ω
  | .ran reports :: events, before :: befores, iterators =>
    (reportsDealings reports before iterators).andThen (copiesDealings events befores)
  | _ :: events, befores, iterators => copiesDealings events befores iterators
  | [], _, iterators => ([], iterators)

/-- The dealings of what ran before an iterator's answers.  One that fails gives no answer,
and it is the last. -/
def asksDealings : List (Event k ω) → Nat → Bool → Iterators k ω → Reading k ω
  | [], iterator, failed, iterators =>
    ([], if failed then iterators.advance iterator else iterators)
  | [.ran reports], iterator, _, iterators =>
    reportsDealings reports (iterators.before iterator) (iterators.advance iterator)
  | .ran reports :: _ :: events, iterator, failed, iterators =>
    (reportsDealings reports (iterators.before iterator) (iterators.advance iterator)).andThen
      (asksDealings events iterator failed)
  | _ :: events, iterator, failed, iterators =>
    asksDealings events iterator failed (iterators.advance iterator)

/-- The dealings of what ran while a slot was held for writing. -/
def writesDealings : List (WriteReply k ω) → List (WriteAction k ω) → Iterators k ω →
    Reading k ω
  | .nested report :: replies, .nested c :: actions, iterators =>
    (report.dealings c iterators).andThen (writesDealings replies actions)
  | _ :: replies, _ :: actions, iterators => writesDealings replies actions iterators
  | _, _, iterators => ([], iterators)

/-- The dealings of what ran while a slot was held for reading, and of the changes made to
the element. -/
def readsDealings : List (ReadReply k ω) → List (ReadAction k ω) → Iterators k ω → Reading k ω
  | .nested report :: replies, .nested c :: actions, iterators =>
    (report.dealings c iterators).andThen (readsDealings replies actions)
  | .edited :: replies, .edit v :: actions, iterators =>
    Reading.andThen ([.edited v], iterators) (readsDealings replies actions)
  | _ :: replies, _ :: actions, iterators => readsDealings replies actions iterators
  | _, _, iterators => ([], iterators)

end

/-- The dealings of the commands of a session. -/
def sessionDealings : List (SessionCommand k ω) → List (Report k ω) → Iterators k ω → Reading k ω
  | .command c :: cs, report :: reports, iterators =>
    (report.dealings blank c iterators).andThen (sessionDealings cs reports)
  | _ :: cs, _ :: reports, iterators => sessionDealings cs reports iterators
  | _, _, iterators => ([], iterators)

end reading

/-- The dealings of a whole session. -/
def Script.dealings (watched : Bool) (n : SlotCount) (blank : Element k ω) (script : Script k ω) :
    List (Dealing k ω) :=
  (sessionDealings blank script.commands (script.run watched n blank).1 script.iterators).1

/-! ## Events at any depth -/

mutual

/-- All events of a report, in order, those of nested commands among them. -/
def Report.flat : Report k ω → List (Event k ω)
  | .mk reply events _ _ => reply.flat ++ eventsFlat events

def Reply.flat : Reply k ω → List (Event k ω)
  | .wrote replies _ => writesFlat replies
  | .readOut replies _ => readsFlat replies
  | _ => []

def reportsFlat : List (Report k ω) → List (Event k ω)
  | [] => []
  | report :: reports => report.flat ++ reportsFlat reports

def eventsFlat : List (Event k ω) → List (Event k ω)
  | [] => []
  | .ran reports :: events => reportsFlat reports ++ eventsFlat events
  | event :: events => event :: eventsFlat events

def writesFlat : List (WriteReply k ω) → List (Event k ω)
  | [] => []
  | .nested report :: replies => report.flat ++ writesFlat replies
  | _ :: replies => writesFlat replies

def readsFlat : List (ReadReply k ω) → List (Event k ω)
  | [] => []
  | .nested report :: replies => report.flat ++ readsFlat replies
  | _ :: replies => readsFlat replies

end

end LockFreeRings.Spsc
