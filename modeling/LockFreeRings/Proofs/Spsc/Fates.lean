import LockFreeRings.Proofs.Spsc.Accounts
import LockFreeRings.Proofs.Spsc.Nesting
set_option autoImplicit false

/-!
# What becomes of every element

Whatever the commands of a session nest and wherever they fail, its elements are accounted for
(`Script.Accounted`), if every slot that it publishes was filled while it was held: each element
that came has a fate, the library ends those that are released and no other, and what was
published and not removed is logged when the second handle dies.

An element has one fate only as long as ending one in place does not fail.  An element whose
ending fails is not removed, so it is ended and also popped, ended again or left; the books
balance just when that never happens (`Script.balances_iff`, `failingEnd_unbalanced`).

The dealings of a session explain it as they explain its commands.  Its reports log at most
once; so the events that `Fifo.Concludes` asks them to explain are those that log nothing, and
the rest is said about each death.
-/

namespace LockFreeRings.Spsc

variable {k : Nat} {ω : Type}

/-! ## Deaths -/

/-- Whether a report is about the death of a handle. -/
def Report.isDeath : Report k ω → Bool
  | .mk (.dropped existed) _ _ _ => existed
  | _ => false

/-- How many handles are dead. -/
def Reach.deaths (alive : Reach) : Nat := (!alive.producer).toNat + (!alive.consumer).toNat

theorem Reach.deaths_le (alive : Reach) : alive.deaths ≤ 2 := by
  obtain ⟨producer, consumer⟩ := alive
  cases producer <;> cases consumer <;> decide

theorem Reach.deaths_eq_two {alive : Reach} (h : alive.deaths = 2) :
    alive.producer = false ∧ alive.consumer = false := by
  obtain ⟨producer, consumer⟩ := alive
  cases producer <;> cases consumer <;> first | exact ⟨rfl, rfl⟩ | cases h

/-- The events that log nothing. -/
def silent (events : List (Event k ω)) : List (Event k ω) :=
  events.filter fun event => event.entry?.isNone

theorem silent_append (events events' : List (Event k ω)) :
    silent (events ++ events') = silent events ++ silent events' :=
  List.filter_append ..

theorem silent_of_filterMap {events : List (Event k ω)}
    (h : events.filterMap Event.entry? = []) : silent events = events := by
  rw [List.filterMap_eq_nil_iff] at h
  exact List.filter_eq_self.mpr fun event hmem => by rw [h event hmem]; rfl

/-- Nothing else is lost that could be read off events. -/
theorem filterMap_silent {α : Type} (p : Event k ω → Option α)
    (hp : ∀ entry, p (.logged entry) = none) (events : List (Event k ω)) :
    (silent events).filterMap p = events.filterMap p := by
  rw [silent, List.filterMap_filter]
  congr 1
  funext event
  cases event with
  | logged entry => exact (hp entry).symm
  | _ => rfl

section logged

variable (entries : List LogEntry)

theorem eventsFlat_logged :
    eventsFlat (entries.map .logged : List (Event k ω)) = entries.map .logged := by
  induction entries with
  | nil => rfl
  | cons entry entries ih => exact congrArg (.logged entry :: ·) ih

theorem silent_logged : silent (entries.map .logged : List (Event k ω)) = [] := by
  simp [silent, Event.entry?]

theorem filterMap_entry_logged :
    (entries.map .logged : List (Event k ω)).filterMap Event.entry? = entries := by
  rw [List.filterMap_map]
  exact List.filterMap_some

theorem filterMap_ended_logged :
    (entries.map .logged : List (Event k ω)).filterMap Event.ended? = [] := by
  simp [Event.ended?]

end logged

namespace Fifo

variable {bound : Nat} {watched : Bool} {run : Runner k ω} {reach : Reach}
  {scene : Scene k ω} {f : Fifo k ω} {c : Command k ω} {ran : Ran k ω (Reply k ω)}

theorem isDeath_runProducer (h : runProducer bound watched run reach c scene f = some ran) :
    (report bound reach ran.result ran.events ran.fifo).isDeath = false := by
  unfold runProducer at h
  cases c with
  | push v =>
      simp only at h
      split at h
      · cases h; rfl
      · obtain ⟨g, -, h⟩ := Option.bind_eq_some_iff.mp h
        cases h; rfl
  | pushBatch copies =>
      obtain ⟨⟨drafted?, q, g⟩, -, h⟩ := Option.bind_eq_some_iff.mp h
      cases drafted? with
      | none => cases h; rfl
      | some drafted =>
          obtain ⟨g', -, h⟩ := Option.bind_eq_some_iff.mp h
          cases h; rfl
  | pushFrom iterator limit =>
      obtain ⟨⟨drafted?, q, g⟩, -, h⟩ := Option.bind_eq_some_iff.mp h
      cases drafted? with
      | none => cases h; rfl
      | some drafted =>
          obtain ⟨g', -, h⟩ := Option.bind_eq_some_iff.mp h
          cases h; rfl
  | writeSlot actions ending =>
      simp only at h
      split at h
      · cases h; rfl
      · obtain ⟨⟨replies, s, g⟩, -, h⟩ := Option.bind_eq_some_iff.mp h
        obtain ⟨⟨outcome, s', g'⟩, -, h⟩ := Option.bind_eq_some_iff.mp h
        cases h; rfl
  | _ => cases h; rfl

theorem isDeath_runConsumer (h : runConsumer bound watched run reach c scene f = some ran) :
    (report bound reach ran.result ran.events ran.fifo).isDeath = false := by
  unfold runConsumer at h
  cases c with
  | pop =>
      simp only at h
      split at h <;> cases h <;> rfl
  | readSlot actions ending =>
      simp only at h
      split at h
      · cases h; rfl
      · obtain ⟨⟨replies, s, g⟩, -, h⟩ := Option.bind_eq_some_iff.mp h
        obtain ⟨⟨outcome, events, g'⟩, -, h⟩ := Option.bind_eq_some_iff.mp h
        cases h; rfl
  | _ => cases h; rfl

/-- A command is not the death of a handle. -/
theorem isDeath_runCommand {fuel : Nat}
    (h : runCommand bound watched fuel reach c scene f = some ran) :
    (report bound reach ran.result ran.events ran.fifo).isDeath = false := by
  cases fuel with
  | zero => cases h
  | succ fuel =>
      unfold runCommand at h
      split at h
      · split at h
        · exact isDeath_runProducer h
        · cases h; rfl
      · split at h
        · exact isDeath_runConsumer h
        · cases h; rfl
      · split at h
        · obtain ⟨⟨answer, q, g⟩, -, h⟩ := Option.bind_eq_some_iff.mp h
          cases h
          cases answer <;> rfl
        · cases h; rfl

/-- What a session on a list does from the handles `alive` on, to the list at its end. -/
structure Concludes (bound : Nat) (watched : Bool) (alive : Reach) (f f' : Fifo k ω)
    (reading : Reading k ω) (iterators : Iterators k ω) (reports : List (Report k ω))
    (last : List (Event k ω)) : Prop where
  explains : Explains bound watched alive f f' reading iterators (silent (reportsFlat reports))
  deaths : alive.deaths + reports.countP Report.isDeath ≤ 2
  /-- only the second death is logged -/
  logs : ∀ i report, reports[i]? = some report →
    report.flat.filterMap Event.entry? =
      if report.isDeath ∧ alive.deaths + (reports.take i).countP Report.isDeath = 1 then
        teardown .spsc (UInt64.ofNat f'.queue.length)
      else []
  last : last = if alive.deaths + reports.countP Report.isDeath = 2 then [] else f'.lastWords

namespace Concludes

variable {alive after : Reach} {f' g : Fifo k ω} {next : Iterators k ω → Reading k ω}
  {reading : Reading k ω} {iterators iterators' : Iterators k ω} {reports : List (Report k ω)}
  {last events : List (Event k ω)} {report : Report k ω}

/-- A session with no commands. -/
theorem nil (alive : Reach) (f : Fifo k ω) (iterators : Iterators k ω) :
    Concludes bound watched alive f f ([], iterators) iterators []
      (if alive.producer ∨ alive.consumer then f.lastWords else []) where
  explains := .refl _ _ _
  deaths := alive.deaths_le
  logs i report h := by cases h
  last := by
    obtain ⟨producer, consumer⟩ := alive
    cases producer <;> cases consumer <;> rfl

/-- A command before the rest of a session. -/
theorem command (h : Explains bound watched alive f g reading iterators report.flat)
    (hdeath : report.isDeath = false)
    (hrest : Concludes bound watched alive g f' (next iterators) iterators' reports last) :
    Concludes bound watched alive f f' (reading.andThen next) iterators' (report :: reports)
      last where
  explains := by
    show Explains bound watched alive f f' _ _ (silent (report.flat ++ reportsFlat reports))
    rw [silent_append, silent_of_filterMap h.logs]
    exact h.trans hrest.explains
  deaths := by
    rw [List.countP_cons_of_neg (by simp [hdeath])]
    exact hrest.deaths
  logs i r hr := by
    cases i with
    | zero =>
        cases hr
        rw [h.logs, if_neg (by simp [hdeath])]
    | succ i =>
        rw [List.take_succ_cons, List.countP_cons_of_neg (by simp [hdeath])]
        exact hrest.logs i r hr
  last := by
    rw [List.countP_cons_of_neg (by simp [hdeath])]
    exact hrest.last

/-- A handle is dropped before the rest of a session. -/
theorem drop {existed : Bool} (hs : f.Sized bound)
    (hdeaths : after.deaths = alive.deaths + existed.toNat)
    (hp : alive.producer = false → after.producer = false)
    (hc : alive.consumer = false → after.consumer = false)
    (hevents : events = (if existed ∧ alive.deaths = 1 then
      teardown .spsc (UInt64.ofNat f.queue.length) else []).map .logged)
    (hrest : Concludes bound watched after f f' reading iterators reports last) :
    Concludes bound watched alive f f' reading iterators
      (Fifo.report bound after (.dropped existed) events f :: reports) last := by
  have hflat : (Fifo.report bound after (.dropped existed) events f).flat = events := by
    rw [hevents]
    exact eventsFlat_logged _
  have hcount : ∀ reports : List (Report k ω),
      alive.deaths + (Fifo.report bound after (.dropped existed) events f :: reports).countP
          Report.isDeath = after.deaths + reports.countP Report.isDeath := by
    intro reports
    rw [hdeaths, List.countP_cons]
    cases existed
    · rfl
    · simp only [Fifo.report, Report.isDeath, if_true, Bool.toNat_true]
      omega
  constructor
  case explains =>
    show Explains bound watched alive f f' _ _
      (silent ((Fifo.report bound after (.dropped existed) events f).flat ++ reportsFlat reports))
    rw [silent_append, hflat, hevents, silent_logged]
    exact hrest.explains.mono hp hc
  case deaths =>
    rw [hcount]
    exact hrest.deaths
  case logs =>
    intro i r hr
    cases i with
    | zero =>
        cases hr
        rw [hflat, hevents, filterMap_entry_logged]
        show _ = if existed ∧ alive.deaths = 1 then _ else _
        split
        · next hsecond =>
          -- nobody is left who could change the list
          obtain ⟨hproducer, hconsumer⟩ : after.producer = false ∧ after.consumer = false :=
            Reach.deaths_eq_two (by rw [hdeaths, hsecond.1, hsecond.2]; rfl)
          rw [hrest.explains.length_queue_eq hproducer hconsumer hs]
        · rfl
    | succ i =>
        rw [List.take_succ_cons, hcount]
        exact hrest.logs i r hr
  case last =>
    rw [hcount]
    exact hrest.last

end Concludes

/-- A session comes to an end, and its dealings explain it. -/
theorem exists_concludes (watched : Bool) (blank : Element k ω) {fuel : Nat}
    (commands : List (SessionCommand k ω)) {alive : Reach} (hs : f.Sized bound)
    {reports : List (Report k ω)} {last : List (Event k ω)}
    (h : runSession bound watched fuel commands alive scene f = some (reports, last)) :
    ∃ f' iterators, Concludes bound watched alive f f'
      (sessionDealings blank commands reports scene.iterators) iterators reports last := by
  induction commands generalizing alive scene f reports last with
  | nil =>
      cases h
      exact ⟨f, scene.iterators, .nil alive f scene.iterators⟩
  | cons c commands ih =>
      unfold runSession at h
      cases c with
      | command c =>
          obtain ⟨ran, hran, h⟩ := Option.bind_eq_some_iff.mp h
          obtain ⟨⟨rest, last⟩, hrest, h⟩ := Option.bind_eq_some_iff.mp h
          cases h
          have hfirst := runCommand_explained bound watched blank fuel _ c scene f ran hs hran
          obtain ⟨f', iterators, hconcludes⟩ := ih (hfirst.sized hs) hrest
          exact ⟨f', iterators, .command hfirst (isDeath_runCommand hran) hconcludes⟩
      | dropProducer =>
          obtain ⟨⟨rest, last⟩, hrest, h⟩ := Option.bind_eq_some_iff.mp h
          cases h
          obtain ⟨f', iterators, hconcludes⟩ := ih hs hrest
          have hdeaths : Reach.deaths { alive with producer := false } =
              alive.deaths + alive.producer.toNat := by
            obtain ⟨producer, consumer⟩ := alive
            cases producer <;> cases consumer <;> rfl
          have hevents : (if alive.producer ∧ ¬alive.consumer then f.lastWords else []) =
              (if alive.producer ∧ alive.deaths = 1 then
                teardown .spsc (UInt64.ofNat f.queue.length) else []).map .logged := by
            obtain ⟨producer, consumer⟩ := alive
            cases producer <;> cases consumer <;> rfl
          have hfirst := hconcludes.drop hs hdeaths (fun _ => rfl) id hevents
          exact ⟨f', iterators, hfirst⟩
      | dropConsumer =>
          obtain ⟨⟨rest, last⟩, hrest, h⟩ := Option.bind_eq_some_iff.mp h
          cases h
          obtain ⟨f', iterators, hconcludes⟩ := ih hs hrest
          have hdeaths : Reach.deaths { alive with consumer := false } =
              alive.deaths + alive.consumer.toNat := by
            obtain ⟨producer, consumer⟩ := alive
            cases producer <;> cases consumer <;> rfl
          have hevents : (if alive.consumer ∧ ¬alive.producer then f.lastWords else []) =
              (if alive.consumer ∧ alive.deaths = 1 then
                teardown .spsc (UInt64.ofNat f.queue.length) else []).map .logged := by
            obtain ⟨producer, consumer⟩ := alive
            cases producer <;> cases consumer <;> rfl
          have hfirst := hconcludes.drop hs hdeaths id (fun _ => rfl) hevents
          exact ⟨f', iterators, hfirst⟩

end Fifo

/-! ## Balance -/

/-- The books at the end of a session. -/
def Script.ledger (watched : Bool) (n : SlotCount) (blank : Element k ω) (script : Script k ω) :
    Ledger k ω :=
  ({} : Ledger k ω).after (script.dealings watched n blank)

/-- What the death of the second handle logs about the elements that are left. -/
def Ledger.lastWords (l : Ledger k ω) : List LogEntry :=
  if l.queue.length = 0 then [] else [.undrained .spsc (UInt64.ofNat l.queue.length)]

/-- What the reports of a session say about its elements. -/
structure Script.Accounted (watched : Bool) (n : SlotCount) (blank : Element k ω)
    (script : Script k ω) : Prop where
  /-- a refused push gives back what it was given, and what is changed, returned or ended is
  the oldest element, with the value that it has by then -/
  agree : ({} : Ledger k ω).AllAgree (script.dealings watched n blank)
  /-- the copies that came are those that were made -/
  copied : watched → ((reportsFlat (script.run watched n blank).1).filterMap Event.copied?).Perm
    ((script.dealings watched n blank).filterMap Dealing.copied?)
  /-- each element that came has a fate, and one more for each time that ending it failed -/
  fates : ∃ again : List Nat,
    again.length = (script.dealings watched n blank).countP Dealing.isEndFailed ∧
      (script.ledger watched n blank).Covers again
  /-- the library ends what is released, and nothing else, in any command or at the end -/
  ended : (reportsFlat (script.run watched n blank).1 ++ (script.run watched n blank).2).filterMap
      Event.ended? = if watched then (script.ledger watched n blank).ended else []
  /-- what is left was published and not removed -/
  left : (script.ledger watched n blank).queue.length +
      (script.dealings watched n blank).countP Dealing.isRemoval =
    (script.dealings watched n blank).countP Dealing.isPublished
  left_le : (script.ledger watched n blank).queue.length ≤ n.size - 1
  deaths : (script.run watched n blank).1.countP Report.isDeath ≤ 2
  /-- nothing is logged but by the second death -/
  logs : ∀ i report, (script.run watched n blank).1[i]? = some report →
    report.flat.filterMap Event.entry? =
      if report.isDeath ∧ ((script.run watched n blank).1.take i).countP Report.isDeath = 1 then
        (script.ledger watched n blank).lastWords
      else []
  /-- handles that are still alive at the end of the session die then -/
  last : (script.run watched n blank).2 =
    if (script.run watched n blank).1.countP Report.isDeath = 2 then []
    else (script.ledger watched n blank).lastWords.map .logged

/-- The elements of a session are accounted for, and each that came has one fate. -/
structure Script.Balances (watched : Bool) (n : SlotCount) (blank : Element k ω)
    (script : Script k ω) : Prop extends Script.Accounted watched n blank script where
  once : (script.ledger watched n blank).numbers.Perm
    (List.range (script.ledger watched n blank).came)

theorem Fifo.Sized.new (n : SlotCount) (blank : Element k ω) :
    Fifo.Sized (n.size - 1) { vacant := List.replicate (n.size - 1 + 1) blank } :=
  ⟨Nat.zero_le _, by simp⟩

/-- The dealings of a session explain it. -/
theorem Script.exists_concludes (watched : Bool) (n : SlotCount) (blank : Element k ω)
    (script : Script k ω) :
    ∃ f iterators, Fifo.Concludes (n.size - 1) watched {}
      { vacant := List.replicate (n.size - 1 + 1) blank } f
      (sessionDealings blank script.commands (script.run watched n blank).1 script.iterators)
      iterators (script.run watched n blank).1 (script.run watched n blank).2 :=
  Fifo.exists_concludes watched blank script.commands (.new n blank)
    (script.run_eq_onFifo (Nat.le_refl _) watched n blank)

/-- Each element of a session has a fate, whatever its commands nest and wherever they fail,
and the second death tells how many are left. -/
theorem Script.accounted (watched : Bool) (n : SlotCount) (blank : Element k ω)
    (script : Script k ω) (hfilled : Dealing.unfilled ∉ script.dealings watched n blank) :
    script.Accounted watched n blank := by
  obtain ⟨f, iterators, hconcludes⟩ := script.exists_concludes watched n blank
  obtain ⟨hagree, hvalues, vs, hended, hflat⟩ := hconcludes.explains.books hfilled {} rfl
  have hlength : f.queue.length = (script.ledger watched n blank).queue.length := by
    rw [← hvalues]
    exact List.length_map _
  have hle := (hconcludes.explains.sized (.new n blank)).queue_le
  rw [hlength] at hle
  have hwords : teardown .spsc (UInt64.ofNat f.queue.length) =
      (script.ledger watched n blank).lastWords := by
    have hsize := n.size_le
    have hfits : n.size < UInt64.size := hsize.trans_lt (by decide)
    rw [hlength]
    exact teardown_ofNat .spsc (by omega)
  have hdeaths : ∀ count, Reach.deaths {} + count = count := Nat.zero_add
  constructor
  case agree => exact hagree
  case copied =>
    rw [← filterMap_silent Event.copied? fun _ => rfl]
    exact hconcludes.explains.copied
  case fates => exact Ledger.Covers.new.after hagree
  case ended =>
    have hquiet : (script.run watched n blank).2.filterMap Event.ended? = [] := by
      rw [hconcludes.last]
      split
      · rfl
      · exact filterMap_ended_logged _
    rw [List.filterMap_append, hquiet, List.append_nil,
      ← filterMap_silent Event.ended? fun _ => rfl, hflat]
    exact congrArg (if watched then · else []) hended.symm
  case left => exact (Ledger.length_queue_after hagree).trans (Nat.zero_add _)
  case left_le => exact hle
  case deaths =>
    rw [← hdeaths (List.countP _ _)]
    exact hconcludes.deaths
  case logs =>
    intro i report hreport
    rw [hconcludes.logs i report hreport, hdeaths, hwords]
  case last =>
    rw [hconcludes.last, hdeaths, Fifo.lastWords, hwords]

/-- The books of a session balance just when no ending of an element fails. -/
theorem Script.balances_iff (watched : Bool) (n : SlotCount) (blank : Element k ω)
    (script : Script k ω) (hfilled : Dealing.unfilled ∉ script.dealings watched n blank) :
    script.Accounted watched n blank ∧
      (script.Balances watched n blank ↔ Dealing.endFailed ∉ script.dealings watched n blank) := by
  have haccounted := script.accounted watched n blank hfilled
  refine ⟨haccounted, ?_⟩
  obtain ⟨again, hlength, hcovers⟩ := haccounted.fates
  have hnone : again = [] ↔ Dealing.endFailed ∉ script.dealings watched n blank := by
    rw [← List.length_eq_zero_iff, hlength, List.countP_eq_zero]
    constructor
    · intro hall hmem
      exact hall _ hmem rfl
    · intro hnot d hmem hfailed
      cases d with
      | endFailed => exact hnot hmem
      | _ => cases hfailed
  constructor
  · intro hbalances
    exact hnone.mp (hcovers.perm_range_iff.mp hbalances.once)
  · intro hnot
    exact ⟨haccounted, hcovers.perm_range_iff.mpr (hnone.mpr hnot)⟩

/-- While the first slot is filled its content is built over and the element before it popped;
the element read next is changed, another is pushed meanwhile, and it is ended.  Then a copy
and an iterator fail, a push is refused, and the producer goes on pushing after the consumer
died. -/
def lastDays : Script 1 Nat where
  iterators := [[⟨[.pop], .item #v[38]⟩, ⟨[], .failed⟩]]
  commands :=
    [.command (.push #v[31]),
      .command (.writeSlot [.build #v[32], .nested .pop, .build #v[33]] .commit),
      .command (.readSlot [.edit #v[34], .nested (.push #v[35])] .release),
      .command (.pushBatch [.mk #v[36] [] false, .mk #v[37] [.pop] true]),
      .command (.pushFrom 0 none),
      .command (.push #v[39]), .command (.push #v[40]), .command (.push #v[41]),
      .command (.push #v[42]), .command (.readSlot [] .take), .dropConsumer,
      .command (.push #v[43]), .dropProducer]

theorem lastDays_balances :
    Dealing.unfilled ∉ lastDays.dealings true ⟨2, by decide, by decide⟩ #v[30] ∧
      lastDays.Balances true ⟨2, by decide, by decide⟩ #v[30] ∧
        lastDays.dealings true ⟨2, by decide, by decide⟩ #v[30] =
          [.published #v[31], .returned #v[31], .stranded #v[32], .published #v[33],
            .edited #v[34], .published #v[35], .released, .returned #v[35], .copied #v[36],
            .stranded #v[36], .stranded #v[38], .published #v[39], .published #v[40],
            .published #v[41], .refused #v[42] #v[42], .returned #v[39], .published #v[43]] ∧
          (lastDays.ledger true ⟨2, by decide, by decide⟩ #v[30]).ended = [#v[34]] ∧
            (lastDays.run true ⟨2, by decide, by decide⟩ #v[30]).1.map
                (fun report => report.flat.filterMap Event.entry?) =
              List.replicate 12 [] ++ [[.undrained .spsc 3]] := by
  have hdealings : lastDays.dealings true ⟨2, by decide, by decide⟩ #v[30] =
      [.published #v[31], .returned #v[31], .stranded #v[32], .published #v[33],
        .edited #v[34], .published #v[35], .released, .returned #v[35], .copied #v[36],
        .stranded #v[36], .stranded #v[38], .published #v[39], .published #v[40],
        .published #v[41], .refused #v[42] #v[42], .returned #v[39], .published #v[43]] := by
    decide +kernel
  have hfilled : Dealing.unfilled ∉ lastDays.dealings true ⟨2, by decide, by decide⟩ #v[30] := by
    rw [hdealings]
    simp
  have hended : Dealing.endFailed ∉ lastDays.dealings true ⟨2, by decide, by decide⟩ #v[30] := by
    rw [hdealings]
    simp
  have hbalances := (Script.balances_iff true ⟨2, by decide, by decide⟩ #v[30] lastDays hfilled).2
  exact ⟨hfilled, hbalances.mpr hended, hdealings, by decide +kernel, by decide +kernel⟩

/-- Ending the only element fails, and then it is popped. -/
def failingEnd : Script 1 Nat where
  iterators := []
  commands :=
    [.command (.push #v[31]), .command (.readSlot [] .releaseFails), .command .pop,
      .dropProducer, .dropConsumer]

/-- The element is ended and also handed to the caller. -/
theorem failingEnd_unbalanced :
    failingEnd.dealings true ⟨2, by decide, by decide⟩ #v[30] =
        [.published #v[31], .endFailed, .returned #v[31]] ∧
      (failingEnd.ledger true ⟨2, by decide, by decide⟩ #v[30]).fates.map
          (fun fate => (fate.1.number, fate.2)) = [(0, .ended), (0, .returned)] ∧
        ¬failingEnd.Balances true ⟨2, by decide, by decide⟩ #v[30] := by
  have hdealings : failingEnd.dealings true ⟨2, by decide, by decide⟩ #v[30] =
      [.published #v[31], .endFailed, .returned #v[31]] := by
    decide +kernel
  refine ⟨hdealings, by decide +kernel, fun hbalances => ?_⟩
  have hlength := hbalances.once.length_eq
  rw [Script.ledger, hdealings] at hlength
  exact absurd hlength (by decide)

end LockFreeRings.Spsc
