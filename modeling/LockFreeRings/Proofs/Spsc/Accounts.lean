import LockFreeRings.Proofs.Spsc.Explanations
set_option autoImplicit false

/-!
# Dealings explain every command

Whatever runs in a session on a list, the dealings that are read off its reports explain what
it did (`Fifo.runCommand_explained`).  Each part of a command has a lemma of its own, which
assumes this of what runs inside; the induction is on the depth of nesting.
-/

namespace LockFreeRings.Spsc

variable {k : Nat} {ω : Type}

/-! ## Runs -/

theorem eventsFlat_append (events events' : List (Event k ω)) :
    eventsFlat (events ++ events') = eventsFlat events ++ eventsFlat events' := by
  induction events with
  | nil => rfl
  | cons event events ih =>
      cases event <;> simp [eventsFlat, ih]

/-- The event that shows what ran before a callback's own work, if anything ran. -/
def shown : List (Report k ω) → List (Event k ω)
  | [] => []
  | report :: reports => [.ran (report :: reports)]

theorem eventsFlat_shown (reports : List (Report k ω)) :
    eventsFlat (shown reports) = reportsFlat reports := by
  cases reports with
  | nil => rfl
  | cons report reports => exact List.append_nil _

/-- The runs before the copies of a batch. -/
def befores (copies : List (Copy k ω)) : List (List (Command k ω)) :=
  (copies.map Copy.before).filter (!·.isEmpty)

/-! ## Reading what ran first -/

section reading

variable (blank : Element k ω) {reports : List (Report k ω)} (iterators : Iterators k ω)

/-- What ran before a copy is read before what follows the copy. -/
theorem copiesDealings_shown {before : List (Command k ω)}
    (hlength : reports.length = before.length) (value : Element k ω) (fails : Bool)
    (copies : List (Copy k ω)) (more : List (Event k ω)) :
    copiesDealings blank (shown reports ++ more) (befores (.mk value before fails :: copies))
        iterators =
      (reportsDealings blank reports before iterators).andThen
        (copiesDealings blank more (befores copies)) := by
  cases before with
  | nil =>
      obtain rfl := List.eq_nil_of_length_eq_zero hlength
      rfl
  | cons c cs =>
      cases reports with
      | nil => cases hlength
      | cons report reports => rfl

variable (reports) (iterator : Nat)

/-- What ran before an answer is read before what follows the answer. -/
theorem asksDealings_answer {event : Event k ω} (hevent : event.isAnswer = true)
    (events : List (Event k ω)) (failed : Bool) :
    asksDealings blank (shown reports ++ [event] ++ events) iterator failed iterators =
      (reportsDealings blank reports (iterators.before iterator)
        (iterators.advance iterator)).andThen (asksDealings blank events iterator failed) := by
  cases reports with
  | nil =>
      have hnothing : reportsDealings blank [] (iterators.before iterator)
          (iterators.advance iterator) = ([], iterators.advance iterator) := rfl
      rw [hnothing]
      cases event with
      | ran reports => cases hevent
      | _ => rfl
  | cons report reports => rfl

/-- What ran before an iterator failed is the last that is read. -/
theorem asksDealings_failed :
    asksDealings blank (shown reports) iterator true iterators =
      reportsDealings blank reports (iterators.before iterator) (iterators.advance iterator) := by
  cases reports <;> rfl

end reading

namespace Fifo

/-- The dealings that are read off a command's report explain what it did. -/
def Runner.Explained (bound : Nat) (watched : Bool) (blank : Element k ω) (run : Runner k ω) :
    Prop :=
  ∀ (reach : Reach) (c : Command k ω) (scene : Scene k ω) (f : Fifo k ω)
    (ran : Ran k ω (Reply k ω)), f.Sized bound → run reach c scene f = some ran →
    Explains bound watched reach f ran.fifo
      ((report bound reach ran.result ran.events ran.fifo).dealings blank c scene.iterators)
      ran.scene.iterators (report bound reach ran.result ran.events ran.fifo).flat

namespace Runner.Explained

variable {bound : Nat} {watched : Bool} {blank : Element k ω} {run : Runner k ω} {reach : Reach}
  {scene scene' : Scene k ω} {f f' : Fifo k ω} {p p' : Progress k ω}

theorem runAll (hrun : run.Explained bound watched blank) (hs : f.Sized bound)
    (commands : List (Command k ω)) {reports : List (Report k ω)}
    (h : runAll bound run reach commands scene f = some (reports, scene', f')) :
    reports.length = commands.length ∧
      Explains bound watched reach f f' (reportsDealings blank reports commands scene.iterators)
        scene'.iterators (reportsFlat reports) := by
  induction commands generalizing scene f reports with
  | nil =>
      cases h
      exact ⟨rfl, .refl _ _ _⟩
  | cons c cs ih =>
      unfold Fifo.runAll at h
      obtain ⟨ran, hran, h⟩ := Option.bind_eq_some_iff.mp h
      obtain ⟨⟨rest, scene₁, f₁⟩, hall, h⟩ := Option.bind_eq_some_iff.mp h
      cases h
      have hfirst := hrun reach c scene f ran hs hran
      obtain ⟨hlength, hrest⟩ := ih (hfirst.sized hs) hall
      exact ⟨congrArg (· + 1) hlength, hfirst.trans hrest⟩

theorem runBefore (hrun : run.Explained bound watched blank) (hs : f.Sized bound)
    (before : List (Command k ω)) (h : runBefore bound run reach before p f = some (p', f')) :
    ∃ reports, p'.events = p.events ++ shown reports ∧ reports.length = before.length ∧
      Explains bound watched reach f f' (reportsDealings blank reports before p.scene.iterators)
        p'.scene.iterators (reportsFlat reports) := by
  unfold Fifo.runBefore at h
  obtain ⟨⟨reports, scene₁, f₁⟩, hall, h⟩ := Option.bind_eq_some_iff.mp h
  obtain ⟨hlength, hexplains⟩ := hrun.runAll hs before hall
  refine ⟨reports, ?_⟩
  cases reports with
  | nil =>
      cases h
      exact ⟨(List.append_nil _).symm, hlength, hexplains⟩
  | cons report reports =>
      cases h
      exact ⟨rfl, hlength, hexplains⟩

/-- The copies of a batch, of which there may be more than fit.  What they were made of is
booked later, so their events stand apart. -/
theorem copyAll (hrun : run.Explained bound watched blank) (hreach : reach.producer = true)
    (hs : f.Sized bound) (copies rest : List (Copy k ω)) (drafted : List (Element k ω))
    {drafted? : Option (List (Element k ω))}
    (h : copyAll bound watched run { reach with producer := false } copies drafted p f =
      some (drafted?, p', f')) :
    ∃ more inner, p'.events = p.events ++ more ∧
      Explains bound watched reach f f'
        (copiesDealings blank more (befores (copies ++ rest)) p.scene.iterators)
        p'.scene.iterators inner ∧
      SameWork (eventsFlat more)
        (inner ++ if watched then (madeOf copies).map .copied else []) ∧
      ((drafted? = none ∧ madeOf (copies ++ rest) = madeOf copies) ∨
        (drafted? = some (drafted ++ madeOf copies) ∧
          (madeOf copies).length = copies.length)) := by
  induction copies generalizing drafted p f with
  | nil =>
      cases h
      refine ⟨[], [], (List.append_nil _).symm, .refl _ _ _, ?_, .inr ⟨by simp [madeOf], rfl⟩⟩
      cases watched <;> exact .refl _
  | cons copy copies ih =>
      obtain ⟨value, before, fails⟩ := copy
      unfold Fifo.copyAll at h
      obtain ⟨⟨q, g⟩, hbefore, h⟩ := Option.bind_eq_some_iff.mp h
      obtain ⟨reports, hevents, hlength, hinside⟩ := hrun.runBefore hs before hbefore
      have hfirst := hinside.without_producer
      have hread := copiesDealings_shown blank p.scene.iterators hlength value fails
        (copies ++ rest)
      cases fails with
      | true =>
          cases h
          refine ⟨shown reports, reportsFlat reports, hevents, ?_, ?_, .inl ⟨rfl, rfl⟩⟩
          · have hend := hread []
            rw [List.append_nil] at hend
            rw [List.cons_append, hend, ← List.append_nil (reportsFlat reports)]
            exact hfirst.trans (.refl _ _ _)
          · have hnone : (if watched then
                (madeOf (.mk value before true :: copies)).map Event.copied else []) = [] := by
              cases watched <;> rfl
            rw [eventsFlat_shown, hnone, List.append_nil]
            exact .refl _
      | false =>
          have hstored := hfirst.put hreach drafted.length value
          obtain ⟨more, inner, hmore, hrest, hsame, hdrafted⟩ :=
            ih (hstored.sized hs) (drafted ++ [value]) h
          have hmade : (drafted? = none ∧
                madeOf (.mk value before false :: copies ++ rest) =
                  madeOf (.mk value before false :: copies)) ∨
              (drafted? = some (drafted ++ madeOf (.mk value before false :: copies)) ∧
                (madeOf (.mk value before false :: copies)).length = copies.length + 1) := by
            refine hdrafted.imp (And.imp_right (congrArg (value :: ·)))
              (And.imp (fun hsome => ?_) (congrArg (· + 1)))
            rw [hsome, List.append_assoc]
            rfl
          cases watched with
          | true =>
              refine ⟨shown reports ++ (.copied value :: more), reportsFlat reports ++ inner,
                ?_, ?_, ?_, hmade⟩
              · rw [hmore]
                simp [hevents]
              · rw [List.cons_append, hread]
                exact hstored.trans hrest
              · rw [eventsFlat_append, eventsFlat_shown, List.append_assoc]
                exact (SameWork.refl _).append (hsame.copied_cons value)
          | false =>
              refine ⟨shown reports ++ more, reportsFlat reports ++ inner, ?_, ?_, ?_, hmade⟩
              · rw [hmore]
                simp [hevents]
              · rw [List.cons_append, hread]
                exact hstored.trans hrest
              · rw [eventsFlat_append, eventsFlat_shown, List.append_assoc]
                exact (SameWork.refl _).append hsame

/-! ### Iterators -/

/-- Asking an iterator once. -/
theorem ask (hrun : run.Explained bound watched blank) (hs : f.Sized bound) (iterator : Nat)
    {answer : Ring.Pull (Element k ω)}
    (h : ask bound run reach iterator p f = some (answer, p', f')) :
    ∃ more reading, p'.events = p.events ++ more ∧
      more.filterMap Event.item? =
        (match answer with
          | .item v => [v]
          | _ => []) ∧
      Explains bound watched reach f f' reading p'.scene.iterators (eventsFlat more) ∧
      (answer = .failed →
        asksDealings blank more iterator true p.scene.iterators = reading) ∧
      (answer ≠ .failed → ∀ events failed,
        asksDealings blank (more ++ events) iterator failed p.scene.iterators =
          reading.andThen (asksDealings blank events iterator failed)) := by
  unfold Fifo.ask at h
  cases hleft : p.scene.left iterator with
  | nil =>
      rw [hleft] at h
      cases h
      have hnone : Explains bound watched reach f f ([], p.scene.iterators) p.scene.iterators
          (eventsFlat [.exhausted]) := Explains.also (.refl _ _ _) rfl rfl rfl
      refine ⟨[.exhausted], _, rfl, rfl, hnone, by simp, fun _ events failed => ?_⟩
      show asksDealings blank events iterator failed
        (Iterators.advance p.scene.iterators iterator) = _
      rw [Scene.advance_of_nil hleft]
      rfl
  | cons entry rest =>
      rw [hleft] at h
      obtain ⟨⟨q, g⟩, hbefore, h⟩ := Option.bind_eq_some_iff.mp h
      obtain ⟨reports, hevents, -, hinside⟩ := hrun.runBefore hs entry.before hbefore
      simp only [← Scene.advance_of_cons hleft, ← Scene.before_of_cons hleft] at hinside
      have hitems : (shown reports).filterMap Event.item? = [] := by
        cases reports <;> rfl
      have hanswered : ∀ event : Event k ω, event.isAnswer = true →
          Explains bound watched reach f g
            (reportsDealings blank reports (Iterators.before p.scene.iterators iterator)
              (Iterators.advance p.scene.iterators iterator)) q.scene.iterators
            (eventsFlat (shown reports ++ [event])) := by
        intro event hevent
        rw [eventsFlat_append, eventsFlat_shown]
        cases event with
        | pulled v | exhausted => exact hinside.also rfl rfl rfl
        | _ => cases hevent
      rcases hanswer : entry.answer with v | _ | _ <;> rw [hanswer] at h <;> cases h
      · refine ⟨shown reports ++ [.pulled v], _, ?_, ?_, hanswered _ rfl, by simp,
          fun _ => asksDealings_answer blank reports p.scene.iterators iterator rfl⟩
        · rw [hevents, List.append_assoc]
        · rw [List.filterMap_append, hitems]
          rfl
      · refine ⟨shown reports ++ [.exhausted], _, ?_, ?_, hanswered _ rfl, by simp,
          fun _ => asksDealings_answer blank reports p.scene.iterators iterator rfl⟩
        · rw [hevents, List.append_assoc]
        · rw [List.filterMap_append, hitems]
          rfl
      · refine ⟨shown reports, _, hevents, hitems, ?_,
          fun _ => asksDealings_failed blank reports p.scene.iterators iterator, by simp⟩
        rw [eventsFlat_shown]
        exact hinside

/-- What an iterator gives to a stream. -/
theorem pullAll (hrun : run.Explained bound watched blank) (hreach : reach.producer = true)
    (hs : f.Sized bound) (iterator left : Nat) (drafted : List (Element k ω))
    (limit : Option UInt64) {drafted? : Option (List (Element k ω))}
    (h : pullAll bound run { reach with producer := false } iterator left drafted limit p f =
      some (drafted?, p', f')) :
    ∃ more, p'.events = p.events ++ more ∧
      Explains bound watched reach f f'
        (asksDealings blank more iterator drafted?.isNone p.scene.iterators)
        p'.scene.iterators (eventsFlat more) ∧
      (drafted? = none ∨ drafted? = some (drafted ++ more.filterMap Event.item?)) := by
  induction left generalizing drafted limit p f with
  | zero =>
      cases h
      exact ⟨[], (List.append_nil _).symm, .refl _ _ _, .inr (by simp)⟩
  | succ left ih =>
      unfold Fifo.pullAll at h
      split at h
      · obtain ⟨⟨answer, q, g⟩, hask, h⟩ := Option.bind_eq_some_iff.mp h
        obtain ⟨first, reading, hevents, hitems, hexplains, hfailed, hread⟩ :=
          hrun.ask hs iterator hask
        have hasked := hexplains.without_producer
        cases answer with
        | failed =>
            cases h
            refine ⟨first, hevents, ?_, .inl rfl⟩
            rw [Option.isNone_none, hfailed rfl]
            exact hasked
        | ended =>
            cases h
            refine ⟨first, hevents, ?_, .inr (by rw [hitems, List.append_nil])⟩
            have hend := hread (by simp) [] false
            rw [List.append_nil] at hend
            rw [Option.isNone_some, hend, ← List.append_nil (eventsFlat first)]
            exact hasked.trans (.refl _ _ _)
        | item v =>
            have hstored := hasked.put hreach drafted.length v
            obtain ⟨more, hmore, hrest, hdrafted⟩ := ih (hstored.sized hs) _ _ h
            refine ⟨first ++ more, ?_, ?_, ?_⟩
            · rw [hmore, hevents, List.append_assoc]
            · rw [hread (by simp), eventsFlat_append]
              exact hstored.trans hrest
            · rw [List.filterMap_append, hitems, ← List.append_assoc]
              exact hdrafted
      · cases h
        exact ⟨[], (List.append_nil _).symm, .refl _ _ _, .inr (by simp)⟩

/-! ### Slots -/

/-- What runs while a slot is held for writing, and what the slot holds then. -/
theorem runWrites (hrun : run.Explained bound watched blank) (hreach : reach.producer = true)
    (hs : f.Sized bound) (actions : List (WriteAction k ω)) {replies : List (WriteReply k ω)}
    (h : runWrites bound run { reach with producer := false } actions scene f =
      some (replies, scene', f')) :
    Explains bound watched reach f f' (writesDealings blank replies actions scene.iterators)
        scene'.iterators (writesFlat replies) ∧
      f'.vacant.head? = f.vacant.head?.map (slotAfter actions) := by
  induction actions generalizing scene f replies with
  | nil =>
      cases h
      exact ⟨.refl _ _ _, by simp [slotAfter]⟩
  | cons action actions ih =>
      unfold Fifo.runWrites at h
      cases action with
      | build v =>
          obtain ⟨⟨rest, s, g⟩, hrest, h⟩ := Option.bind_eq_some_iff.mp h
          cases h
          have hlength : (f.put 0 v).vacant.length = f.vacant.length := List.length_set ..
          have hput : (f.put 0 v).Sized bound := hs.of_length_eq rfl hlength
          obtain ⟨hexplains, hhead⟩ := ih hput hrest
          refine ⟨.from_queue_eq hreach hexplains rfl hlength, hhead.trans ?_⟩
          unfold Fifo.put
          cases f.vacant <;> rfl
      | setWords words =>
          obtain ⟨⟨rest, s, g⟩, hrest, h⟩ := Option.bind_eq_some_iff.mp h
          cases h
          have hlength : (f.putWords words).vacant.length = f.vacant.length :=
            List.length_modify ..
          have hput : (f.putWords words).Sized bound := hs.of_length_eq rfl hlength
          obtain ⟨hexplains, hhead⟩ := ih hput hrest
          refine ⟨.from_queue_eq hreach hexplains rfl hlength, hhead.trans ?_⟩
          unfold Fifo.putWords
          cases f.vacant <;> rfl
      | nested c =>
          obtain ⟨ran, hran, h⟩ := Option.bind_eq_some_iff.mp h
          obtain ⟨⟨rest, s, g⟩, hrest, h⟩ := Option.bind_eq_some_iff.mp h
          cases h
          have hfirst := hrun _ c scene f ran hs hran
          obtain ⟨hexplains, hhead⟩ := ih (hfirst.sized hs) hrest
          refine ⟨(hfirst.without_producer).trans hexplains, hhead.trans ?_⟩
          -- what ran does not reach the producer, so the slot is the first one still
          obtain ⟨behind, hvacant⟩ := hfirst.vacant rfl
          have hne := hs.vacant_ne_nil
          rw [← hvacant]
          cases hv : f.vacant with
          | nil => exact absurd hv hne
          | cons u us => rfl

/-- The end of a hold on a slot for writing. -/
theorem endWrite (hreach : reach.producer = true) (actions : List (WriteAction k ω))
    (ending : WriteEnding k ω) {u : Element k ω} {outcome : WriteOutcome}
    (hslot : f.vacant.head? = some (slotAfter actions u))
    (h : endWrite bound ending scene f = some (outcome, scene', f')) :
    Explains bound watched reach f f' (ending.dealings blank actions outcome, scene.iterators)
      scene'.iterators [] := by
  have hover : ∀ vs : List (Element k ω), Explains bound watched reach f f
      (vs.map .stranded, scene.iterators) scene.iterators [] :=
    fun vs => .stranded reach f vs scene.iterators
  have hall : Explains bound watched reach f f
      ((builtIn blank actions none).1.map .stranded ++
        (builtIn blank actions none).2.toList.map .stranded, scene.iterators)
      scene.iterators [] := by
    rw [← List.map_append]
    exact hover _
  cases ending with
  | write v =>
      obtain ⟨g, happend, h⟩ := Option.bind_eq_some_iff.mp h
      cases h
      obtain ⟨hle, rfl⟩ := Fifo.eq_append_of_within happend
      have hpublished : Explains bound watched reach f (f.append [v])
          ([.published v], scene.iterators) scene.iterators [] :=
        .published hreach f [v] hle scene.iterators
      exact hall.append hpublished
  | commit =>
      unfold Fifo.endWrite at h
      simp only at h
      split at h
      · obtain ⟨g, happend, h⟩ := Option.bind_eq_some_iff.mp h
        cases h
        obtain ⟨hle, rfl⟩ := Fifo.eq_append_of_within happend
        unfold WriteEnding.dealings
        refine (hover _).append ?_
        split
        · next hfilled =>
          have hbuilds : actions.any WriteAction.builds = true :=
            (Bool.and_eq_true_iff.mp hfilled).1
          have hcontent : (builtIn blank actions none).2.toList = f.vacant.take 1 := by
            obtain ⟨behind, hvacant⟩ := List.head?_eq_some_iff.mp hslot
            rw [builtIn_snd, if_pos hbuilds, hvacant, slotAfter_eq hfilled u]
            rfl
          rw [hcontent]
          exact .published hreach f _ hle scene.iterators
        · exact .unfilled hreach f _ hle scene.iterators
      · cases h
        exact hall
  | abandon =>
      cases h
      exact hall

/-- What runs while a slot is held for reading.  The element stays at the front. -/
theorem runReads (hrun : run.Explained bound watched blank) (hreach : reach.consumer = true)
    (hs : f.Sized bound) (hne : f.queue ≠ []) (actions : List (ReadAction k ω))
    {replies : List (ReadReply k ω)}
    (h : runReads bound run { reach with consumer := false } actions scene f =
      some (replies, scene', f')) :
    Explains bound watched reach f f' (readsDealings blank replies actions scene.iterators)
      scene'.iterators (readsFlat replies) := by
  induction actions generalizing scene f replies with
  | nil =>
      cases h
      exact .refl _ _ _
  | cons action actions ih =>
      unfold Fifo.runReads at h
      cases action with
      | read =>
          obtain ⟨v, -, h⟩ := Option.bind_eq_some_iff.mp h
          obtain ⟨⟨rest, s, g⟩, hrest, h⟩ := Option.bind_eq_some_iff.mp h
          cases h
          exact ih hs hne hrest
      | edit v =>
          obtain ⟨⟨rest, s, g⟩, hrest, h⟩ := Option.bind_eq_some_iff.mp h
          cases h
          have hedited : Explains bound watched reach f (f.edit v) ([.edited v], scene.iterators)
              scene.iterators [] := .edited hreach hne v scene.iterators
          exact hedited.trans (ih (hedited.sized hs) (by simpa [Fifo.edit] using hne) hrest)
      | nested c =>
          obtain ⟨ran, hran, h⟩ := Option.bind_eq_some_iff.mp h
          obtain ⟨⟨rest, s, g⟩, hrest, h⟩ := Option.bind_eq_some_iff.mp h
          cases h
          have hfirst := hrun _ c scene f ran hs hran
          have hstill : ran.fifo.queue ≠ [] := fun hnil =>
            hne (List.prefix_nil.mp (hnil ▸ hfirst.queue rfl))
          exact (hfirst.without_consumer).trans (ih (hfirst.sized hs) hstill hrest)

theorem endRead (hreach : reach.consumer = true) (actions : List (ReadAction k ω))
    (ending : ReadEnding) {outcome : ReadOutcome k ω} {replies : List (ReadReply k ω)}
    {events : List (Event k ω)} (iterators : Iterators k ω)
    (h : endRead watched ending f = some (outcome, events, f')) :
    Explains bound watched reach f f'
      ((Command.readSlot actions ending).own blank (.readOut replies outcome) events, iterators)
      iterators (eventsFlat events) := by
  unfold Fifo.endRead at h
  obtain ⟨v, hv, h⟩ := Option.bind_eq_some_iff.mp h
  obtain ⟨rest, hqueue⟩ := List.head?_eq_some_iff.mp hv
  cases ending with
  | release =>
      cases h
      have hreleased : Explains bound watched reach f (f.remove 1) ([.released], iterators)
          iterators (if watched then [.ended v] else []) := .released hreach hqueue iterators
      cases watched <;> exact hreleased
  | take =>
      cases h
      have hfront : [v] <+: f.queue := ⟨rest, hqueue.symm⟩
      exact .returned hreach f hfront iterators
  | releaseFails =>
      cases h
      have hfailed : Explains bound watched reach f f ([.endFailed], iterators) iterators
          (if watched then [.ended v] else []) := .endFailed reach hqueue iterators
      cases watched <;> exact hfailed
  | keep =>
      cases h
      exact .refl _ _ _

/-! ### Commands -/

theorem pushBatch (hrun : run.Explained bound watched blank) (hreach : reach.producer = true)
    (hs : f.Sized bound) (copies : List (Copy k ω)) {ran : Ran k ω (Reply k ω)}
    (h : Fifo.runProducer bound watched run reach (.pushBatch copies) scene f = some ran) :
    Explains bound watched reach f ran.fifo
      ((report bound reach ran.result ran.events ran.fifo).dealings blank (.pushBatch copies)
        scene.iterators)
      ran.scene.iterators (report bound reach ran.result ran.events ran.fifo).flat := by
  unfold Fifo.runProducer at h
  obtain ⟨⟨drafted?, q, g⟩, hcopies, h⟩ := Option.bind_eq_some_iff.mp h
  generalize hroom : min copies.length (bound - f.queue.length) = count at hcopies
  obtain ⟨more, inner, hevents, hinside, hsame, hdrafted⟩ := hrun.copyAll hreach hs _
    (copies.drop count) [] hcopies
  rw [List.take_append_drop] at hinside hdrafted
  simp only [List.nil_append] at hevents hdrafted
  -- the copies are booked behind what ran before them
  have hbooked : ∀ {g' : Fifo k ω} {ds : List (Dealing k ω)},
      Explains bound watched reach g g' (ds, q.scene.iterators) q.scene.iterators [] →
        Explains bound watched reach f g'
          (Reading.andThen (copiesDealings blank q.events (befores copies) scene.iterators)
            fun iterators => ((madeOf (copies.take count)).map .copied ++ ds, iterators))
          q.scene.iterators (eventsFlat q.events) := by
    intro g' ds hown
    have hwork := (Explains.copying reach g (madeOf (copies.take count))
      q.scene.iterators).append hown
    rw [List.append_nil] at hwork
    rw [hevents]
    exact (hinside.trans hwork).of_same hsame
  cases drafted? with
  | none =>
      cases h
      have hmade := (hdrafted.resolve_right (by simp)).2
      have hfailed := hbooked (.stranded reach g (madeOf (copies.take count)) _)
      rw [← hmade] at hfailed
      exact hfailed
  | some drafted =>
      obtain ⟨g', happend, h⟩ := Option.bind_eq_some_iff.mp h
      cases h
      obtain ⟨hle, rfl⟩ := Fifo.eq_append_of_within happend
      obtain ⟨hvalues, hlength⟩ := hdrafted.resolve_left (by simp)
      have hmade : madeOf (copies.take drafted.length) = drafted := by
        have htaken : copies.take drafted.length = copies.take count := by
          rw [Option.some.inj hvalues, hlength, List.length_take, List.take_eq_take_iff]
          omega
        rw [htaken]
        exact (Option.some.inj hvalues).symm
      have hpushed := hbooked (.published hreach g drafted hle _)
      rw [← Option.some.inj hvalues] at hpushed
      show Explains bound watched reach f _
        (Reading.andThen (copiesDealings blank q.events (befores copies) scene.iterators)
          fun iterators => ((madeOf (copies.take drafted.length)).map .copied ++
            (madeOf (copies.take drafted.length)).map .published, iterators)) _
        (eventsFlat q.events)
      rw [hmade]
      exact hpushed

theorem pushFrom (hrun : run.Explained bound watched blank) (hreach : reach.producer = true)
    (hs : f.Sized bound) (iterator : Nat) (limit : Option UInt64) {ran : Ran k ω (Reply k ω)}
    (h : Fifo.runProducer bound watched run reach (.pushFrom iterator limit) scene f = some ran) :
    Explains bound watched reach f ran.fifo
      ((report bound reach ran.result ran.events ran.fifo).dealings blank (.pushFrom iterator limit)
        scene.iterators)
      ran.scene.iterators (report bound reach ran.result ran.events ran.fifo).flat := by
  unfold Fifo.runProducer at h
  obtain ⟨⟨drafted?, q, g⟩, hpulls, h⟩ := Option.bind_eq_some_iff.mp h
  obtain ⟨more, hevents, hinside, hdrafted⟩ := hrun.pullAll hreach hs _ _ _ _ hpulls
  simp only [List.nil_append] at hevents hdrafted
  cases drafted? with
  | none =>
      cases h
      refine Explains.finish ?_ (.stranded reach g _ _)
      simp only [hevents]
      exact hinside
  | some drafted =>
      obtain ⟨g', happend, h⟩ := Option.bind_eq_some_iff.mp h
      cases h
      obtain ⟨hle, rfl⟩ := Fifo.eq_append_of_within happend
      have hpublished : Explains bound watched reach g (g.append drafted)
          ((Command.pushFrom iterator limit).own blank
            (.pulledMany drafted.length (q.scene.left iterator).length) q.events,
            q.scene.iterators) q.scene.iterators [] := by
        rw [Command.own, hevents, ← Option.some.inj (hdrafted.resolve_left (by simp))]
        exact .published hreach g drafted hle _
      refine Explains.finish ?_ hpublished
      simp only [hevents]
      exact hinside

theorem writeSlot (hrun : run.Explained bound watched blank) (hreach : reach.producer = true)
    (hs : f.Sized bound) (actions : List (WriteAction k ω)) (ending : WriteEnding k ω)
    {ran : Ran k ω (Reply k ω)}
    (h : Fifo.runProducer bound watched run reach (.writeSlot actions ending) scene f =
      some ran) :
    Explains bound watched reach f ran.fifo
      ((report bound reach ran.result ran.events ran.fifo).dealings blank (.writeSlot actions ending)
        scene.iterators)
      ran.scene.iterators (report bound reach ran.result ran.events ran.fifo).flat := by
  simp only [Fifo.runProducer] at h
  split at h
  · cases h
    exact .refl _ _ _
  · obtain ⟨⟨replies, s, g⟩, hwrites, h⟩ := Option.bind_eq_some_iff.mp h
    obtain ⟨⟨outcome, s', g'⟩, hend, h⟩ := Option.bind_eq_some_iff.mp h
    cases h
    obtain ⟨hinside, hhead⟩ := hrun.runWrites hreach hs actions hwrites
    obtain ⟨u, us, hu⟩ := List.exists_cons_of_ne_nil hs.vacant_ne_nil
    have hslot : g.vacant.head? = some (slotAfter actions u) := by
      rw [hhead, hu]
      rfl
    have hended : Explains bound watched reach g g'
        (ending.dealings blank actions outcome, s.iterators) s'.iterators [] :=
      endWrite hreach actions ending hslot hend
    show Explains bound watched reach f g'
      (Reading.andThen (writesDealings blank replies actions scene.iterators)
        fun iterators => (ending.dealings blank actions outcome, iterators))
      s'.iterators (writesFlat replies ++ [])
    exact hinside.trans hended

theorem runProducer (hrun : run.Explained bound watched blank) (hreach : reach.producer = true)
    (hs : f.Sized bound) (c : Command k ω) {ran : Ran k ω (Reply k ω)}
    (h : runProducer bound watched run reach c scene f = some ran) :
    Explains bound watched reach f ran.fifo
      ((report bound reach ran.result ran.events ran.fifo).dealings blank c scene.iterators)
      ran.scene.iterators (report bound reach ran.result ran.events ran.fifo).flat := by
  cases c with
  | pushBatch copies => exact hrun.pushBatch hreach hs copies h
  | pushFrom iterator limit => exact hrun.pushFrom hreach hs iterator limit h
  | writeSlot actions ending => exact hrun.writeSlot hreach hs actions ending h
  | push v =>
      simp only [Fifo.runProducer] at h
      split at h
      · cases h
        exact .refused reach f v scene.iterators
      · obtain ⟨g, happend, h⟩ := Option.bind_eq_some_iff.mp h
        cases h
        obtain ⟨hle, rfl⟩ := Fifo.eq_append_of_within happend
        exact .published hreach f [v] hle scene.iterators
  | _ =>
      cases h
      exact .refl _ _ _

theorem runConsumer (hrun : run.Explained bound watched blank) (hreach : reach.consumer = true)
    (hs : f.Sized bound) (c : Command k ω) {ran : Ran k ω (Reply k ω)}
    (h : runConsumer bound watched run reach c scene f = some ran) :
    Explains bound watched reach f ran.fifo
      ((report bound reach ran.result ran.events ran.fifo).dealings blank c scene.iterators)
      ran.scene.iterators (report bound reach ran.result ran.events ran.fifo).flat := by
  unfold Fifo.runConsumer at h
  cases c with
  | pop =>
      simp only at h
      split at h
      · cases h
        exact .refl _ _ _
      · next v rest heq =>
        cases h
        have hfront : [v] <+: f.queue := ⟨rest, heq.symm⟩
        exact .returned hreach f hfront _
  | popBatch limit out =>
      cases h
      have htaken : Explains bound watched reach f
          (f.remove (f.queue.take limit.toNat).length)
          (((out ++ f.queue.take limit.toNat).drop out.length).map .returned, scene.iterators)
          scene.iterators [] := by
        rw [List.drop_left]
        exact .returned hreach f (List.take_prefix _ _) _
      exact htaken
  | readSlot actions ending =>
      simp only at h
      split at h
      · cases h
        exact .refl _ _ _
      · next hne =>
        obtain ⟨⟨replies, s, g⟩, hreads, h⟩ := Option.bind_eq_some_iff.mp h
        obtain ⟨⟨outcome, events, g'⟩, hend, h⟩ := Option.bind_eq_some_iff.mp h
        cases h
        have hinside := hrun.runReads hreach hs (fun hnil => hne (by rw [hnil]; rfl)) actions hreads
        exact hinside.trans (endRead hreach actions ending s.iterators hend)
  | _ =>
      cases h
      exact .refl _ _ _

end Runner.Explained

/-! ### One level -/

theorem explains_unavailable (bound : Nat) (watched : Bool) (blank : Element k ω) (reach : Reach)
    (c : Command k ω) (iterators : Iterators k ω) (f : Fifo k ω) :
    Explains bound watched reach f f
      ((report bound reach .unavailable [] f).dealings blank c iterators) iterators
      (report bound reach .unavailable [] f).flat := by
  cases c <;> exact .refl _ _ _

theorem Runner.Explained.runLevel {bound : Nat} {watched : Bool} {blank : Element k ω}
    {run : Runner k ω} (hrun : run.Explained bound watched blank) :
    Runner.Explained bound watched blank (runLevel bound watched run) := by
  intro reach c scene f ran hs h
  unfold Fifo.runLevel at h
  cases hhandle : c.handle? with
  | some handle =>
      rw [hhandle] at h
      cases handle with
      | producer =>
          simp only at h
          split at h
          · next hreach => exact hrun.runProducer hreach hs c h
          · cases h
            exact explains_unavailable ..
      | consumer =>
          simp only at h
          split at h
          · next hreach => exact hrun.runConsumer hreach hs c h
          · cases h
            exact explains_unavailable ..
  | none =>
      cases c with
      | pull iterator =>
          obtain ⟨⟨answer, q, g⟩, hask, h⟩ := Option.bind_eq_some_iff.mp h
          obtain ⟨more, reading, hevents, -, hexplains, hfailed, hread⟩ :=
            hrun.ask hs iterator hask
          simp only [List.nil_append] at hevents
          have hasked := hexplains.without_producer
          cases answer with
          | failed =>
              cases h
              show Explains bound watched reach f g
                (Reading.andThen (asksDealings blank q.events iterator true scene.iterators)
                  fun iterators => ([], iterators)) q.scene.iterators (eventsFlat q.events)
              rw [hevents, hfailed rfl]
              exact hasked.finish (.refl _ _ _)
          | item v | ended =>
              cases h
              show Explains bound watched reach f g
                (Reading.andThen (asksDealings blank q.events iterator false scene.iterators)
                  fun iterators => ([], iterators)) q.scene.iterators (eventsFlat q.events)
              have hend := hread (by simp) [] false
              rw [List.append_nil] at hend
              rw [hevents, hend]
              have hdone : Explains bound watched reach f g
                  (reading.andThen (asksDealings blank [] iterator false)) q.scene.iterators
                  (eventsFlat more) := hasked.finish (.refl _ _ _)
              exact hdone.finish (.refl _ _ _)
      | _ => cases hhandle

/-- Commands within a depth are explained by their dealings. -/
theorem runCommand_explained (bound : Nat) (watched : Bool) (blank : Element k ω) (fuel : Nat) :
    Runner.Explained bound watched blank (runCommand bound watched fuel) := by
  induction fuel with
  | zero =>
      intro reach c scene f ran _ h
      cases h
  | succ fuel ih =>
      rw [runCommand_succ]
      exact ih.runLevel

end Fifo

end LockFreeRings.Spsc
