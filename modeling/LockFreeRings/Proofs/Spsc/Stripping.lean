import LockFreeRings.Proofs.Spsc.Likeness
set_option autoImplicit false

/-!
# What is left of a quiet call

A call that neither publishes nor removes anything leaves a list like the one that the code
inside it leaves by itself (`Fifo.runLevel_inside`): a producer's call may have written vacant
places, and a consumer's call has not changed anything.

So a call like that can be stripped of everything but what runs inside it.  `Fifo.stripLevel`
does so to the calls that `stripped` picks, and a runner that strips calls at every depth is
like one that does not (`Fifo.runStripped_alike`).
-/

namespace LockFreeRings.Spsc

variable {n : SlotCount} {k : Nat} {ω : Type}

theorem Alike.put_left {scene scene' : Scene k ω} {f f' : Fifo k ω}
    (h : Alike .nothing scene f scene' f') (i : Nat) (v : Element k ω) :
    Alike .nothing scene (f.put i v) scene' f' := by
  refine .nothing h.iterators h.queue ?_
  rw [Fifo.put, List.length_set, h.vacant]

theorem Alike.putWords_left {scene scene' : Scene k ω} {f f' : Fifo k ω}
    (h : Alike .nothing scene f scene' f') (words : List (Fin k × ω)) :
    Alike .nothing scene (f.putWords words) scene' f' := by
  refine .nothing h.iterators h.queue ?_
  rw [Fifo.putWords, List.length_modify, h.vacant]

/-- Only the iterators of the first scene are told apart. -/
theorem Alike.rescene_left {scene scene' t : Scene k ω} {f f' : Fifo k ω}
    (h : Alike .nothing scene f scene' f') (ht : t.iterators = scene.iterators) :
    Alike .nothing t f scene' f' :=
  .nothing (h.iterators.trans ht.symm) h.queue h.vacant

/-- What comes of the first of two runs that are related comes of the second too. -/
theorem rel_some {α α' : Type} {R : α → α' → Prop} {x : Option α} {x' : Option α'} {a : α}
    (h : Option.Rel R x x') (ha : x = some a) : ∃ a', x' = some a' ∧ R a a' := by
  subst ha
  cases h with
  | some h => exact ⟨_, rfl, h⟩

namespace Fifo

section

variable (bound : Nat) (run : Runner k ω) (reach : Reach)

/-- What runs inside a call, run without the call. -/
def runInside : List (Inside k ω) → Scene k ω → Fifo k ω → Option (Scene k ω × Fifo k ω)
  | [], scene, f => some (scene, f)
  | .command c :: insides, scene, f => do
    let ran ← run reach c scene f
    runInside insides ran.scene ran.fifo
  | .ask iterator :: insides, scene, f => do
    let (_, p, f) ← ask bound run reach iterator ⟨scene, []⟩ f
    runInside insides p.scene f

end

variable {bound : Nat} {watched : Bool} {run run' : Runner k ω} {reach : Reach}
  {scene scene' : Scene k ω} {f f' : Fifo k ω}

theorem runInside_command {c : Command k ω} {insides : List (Inside k ω)}
    {ran : Ran k ω (Reply k ω)} (h : run reach c scene f = some ran) :
    runInside bound run reach (.command c :: insides) scene f =
      runInside bound run reach insides ran.scene ran.fifo := by
  simp only [runInside, h, Option.bind_eq_bind, Option.bind_some]

theorem runInside_ask {iterator : Nat} {insides : List (Inside k ω)}
    {asked : Ring.Pull (Element k ω) × Progress k ω × Fifo k ω}
    (h : ask bound run reach iterator ⟨scene, []⟩ f = some asked) :
    runInside bound run reach (.ask iterator :: insides) scene f =
      runInside bound run reach insides asked.2.1.scene asked.2.2 := by
  simp only [runInside, h, Option.bind_eq_bind, Option.bind_some]

theorem runInside_append {insides more : List (Inside k ω)} {scene₁ : Scene k ω} {f₁ : Fifo k ω}
    (h : runInside bound run reach insides scene f = some (scene₁, f₁)) :
    runInside bound run reach (insides ++ more) scene f =
      runInside bound run reach more scene₁ f₁ := by
  induction insides generalizing scene f with
  | nil =>
      cases h
      rfl
  | cons inside insides ih =>
      cases inside with
      | command c =>
          obtain ⟨ran, hran, hrest⟩ := Option.bind_eq_some_iff.mp h
          rw [List.cons_append, runInside_command hran]
          exact ih hrest
      | ask iterator =>
          obtain ⟨asked, hasked, hrest⟩ := Option.bind_eq_some_iff.mp h
          rw [List.cons_append, runInside_ask hasked]
          exact ih hrest

theorem runInside_commands {commands : List (Command k ω)} {reports : List (Report k ω)}
    {scene₁ : Scene k ω} {f₁ : Fifo k ω}
    (h : runAll bound run reach commands scene f = some (reports, scene₁, f₁)) :
    runInside bound run reach (commands.map .command) scene f = some (scene₁, f₁) := by
  induction commands generalizing scene f reports with
  | nil =>
      cases h
      rfl
  | cons c cs ih =>
      obtain ⟨ran, hran, hrest⟩ := Option.bind_eq_some_iff.mp h
      obtain ⟨⟨reports', scene₂, f₂⟩, hcs, hlast⟩ := Option.bind_eq_some_iff.mp hrest
      cases hlast
      rw [List.map_cons, runInside_command hran]
      exact ih hcs

/-- What runs inside a call comes to something like this. -/
def Leaves (bound : Nat) (run : Runner k ω) (reach : Reach) (insides : List (Inside k ω))
    (from' : Scene k ω × Fifo k ω) (shared : Shared k) (scene : Scene k ω) (f : Fifo k ω) : Prop :=
  ∃ scene' f', runInside bound run reach insides from'.1 from'.2 = some (scene', f') ∧
    Spsc.Alike shared scene f scene' f'

namespace Runner.Alike

/-! ## What runs inside a producer's call -/

/-- The commands before a copy. -/
theorem runBefore_inside (hrun : run.Alike run) (hreach : reach.producer = false)
    {before : List (Command k ω)} {p q : Progress k ω} {g : Fifo k ω}
    (h : Spsc.Alike .nothing p.scene f scene' f')
    (hbefore : Fifo.runBefore bound run reach before p f = some (q, g)) :
    Leaves bound run reach (before.map .command) (scene', f') .nothing q.scene g := by
  obtain ⟨⟨reports, scene₁, f₁⟩, hall, hlast⟩ := Option.bind_eq_some_iff.mp hbefore
  obtain ⟨⟨reports', scene₂, f₂⟩, hall', hreports, hstate⟩ :=
    rel_some (hrun.runAll hreach before h) hall
  refine ⟨scene₂, f₂, runInside_commands hall', ?_⟩
  cases reports with
  | nil =>
      cases hlast
      exact hstate
  | cons report reports =>
      cases hlast
      exact hstate

/-- A batch that ends with a copy that fails. -/
theorem copyAll_inside (hrun : run.Alike run) (hreach : reach.producer = false)
    {copies : List (Copy k ω)} {count : Nat} {drafted : List (Element k ω)} {p q : Progress k ω}
    {g : Fifo k ω} (h : Spsc.Alike .nothing p.scene f scene' f')
    (hcopies : Fifo.copyAll bound watched run reach (copies.take count) drafted p f =
      some (none, q, g)) :
    Leaves bound run reach (copiesInside copies) (scene', f') .nothing q.scene g := by
  induction copies generalizing count drafted p f scene' f' with
  | nil =>
      rw [List.take_nil, Fifo.copyAll] at hcopies
      cases hcopies
  | cons copy copies ih =>
      cases count with
      | zero =>
          rw [List.take_zero, Fifo.copyAll] at hcopies
          cases hcopies
      | succ count =>
          obtain ⟨value, before, fails⟩ := copy
          rw [List.take_succ_cons] at hcopies
          obtain ⟨⟨p₁, f₁⟩, hbefore, hrest⟩ := Option.bind_eq_some_iff.mp hcopies
          obtain ⟨scene₂, f₂, hinside, hstate⟩ := hrun.runBefore_inside hreach h hbefore
          unfold Leaves copiesInside
          rw [runInside_append hinside]
          cases fails with
          | true =>
              cases hrest
              exact ⟨scene₂, f₂, rfl, hstate⟩
          | false =>
              have hput := hstate.put_left drafted.length value
              cases watched with
              | true => exact ih (p := ⟨p₁.scene, p₁.events ++ [Event.copied value]⟩) hput hrest
              | false => exact ih hput hrest

/-- A stream, and the number of its iterator's answers. -/
theorem pullAll_inside (hrun : run.Alike run) (hreach : reach.producer = false)
    {iterator left : Nat} {drafted : List (Element k ω)} {limit : Option UInt64}
    {p q : Progress k ω} {drafted? : Option (List (Element k ω))} {g : Fifo k ω}
    (h : Spsc.Alike .nothing p.scene f scene' f')
    (hpulls : Fifo.pullAll bound run reach iterator left drafted limit p f = some (drafted?, q, g)) :
    ∃ more, q.events = p.events ++ more ∧
      Leaves bound run reach
        (.replicate (answers more + drafted?.elim 1 fun _ => 0) (.ask iterator)) (scene', f')
        .nothing q.scene g := by
  induction left generalizing drafted limit p f scene' f' with
  | zero =>
      cases hpulls
      exact ⟨[], by simp, scene', f', rfl, h⟩
  | succ left ih =>
      unfold Fifo.pullAll at hpulls
      split at hpulls
      · obtain ⟨⟨answer, p₁, f₁⟩, hask, hrest⟩ := Option.bind_eq_some_iff.mp hpulls
        obtain ⟨⟨answer', p₂, f₂⟩, hask', hanswer, ⟨more, hmore, -, hcount⟩, hstate⟩ :=
          rel_some (hrun.ask hreach iterator p ⟨scene', []⟩ h) hask
        cases answer with
        | failed =>
            cases hrest
            refine ⟨more, hmore, p₂.scene, f₂, ?_, hstate⟩
            rw [hcount, Option.elim_none, Nat.zero_add, List.replicate_one, runInside_ask hask']
            rfl
        | ended =>
            cases hrest
            refine ⟨more, hmore, p₂.scene, f₂, ?_, hstate⟩
            rw [hcount, Option.elim_some, Nat.add_zero, List.replicate_one, runInside_ask hask']
            rfl
        | item v =>
            obtain ⟨more', hmore', scene₃, f₃, hinside, hlast⟩ :=
              ih (hstate.put_left drafted.length v) hrest
            refine ⟨more ++ more', ?_, scene₃, f₃, ?_, hlast⟩
            · rw [hmore', hmore, List.append_assoc]
            · have hanswers : answers (more ++ more') = answers more' + 1 := by
                rw [answers, List.countP_append, ← answers, ← answers, hcount, Nat.add_comm]
              rw [hanswers, Nat.add_right_comm, List.replicate_succ, runInside_ask hask']
              exact hinside
      · cases hpulls
        exact ⟨[], by simp, scene', f', rfl, h⟩

/-- The commands among the actions on a slot that is held for writing. -/
theorem runWrites_inside (hrun : run.Alike run) (hreach : reach.producer = false)
    {actions : List (WriteAction k ω)} {replies : List (WriteReply k ω)} {scene₁ : Scene k ω}
    {g : Fifo k ω} (h : Spsc.Alike .nothing scene f scene' f')
    (hwrites : Fifo.runWrites bound run reach actions scene f = some (replies, scene₁, g)) :
    Leaves bound run reach (writesInside actions) (scene', f') .nothing scene₁ g := by
  induction actions generalizing scene f scene' f' replies with
  | nil =>
      cases hwrites
      exact ⟨scene', f', rfl, h⟩
  | cons action actions ih =>
      cases action with
      | build v =>
          obtain ⟨⟨replies', scene₂, f₂⟩, hrest, hlast⟩ := Option.bind_eq_some_iff.mp hwrites
          cases hlast
          have hbuilt : Spsc.Alike .nothing { scene with built := true } (f.put 0 v) scene' f' :=
            (h.put_left 0 v).rescene_left rfl
          exact ih hbuilt hrest
      | setWords words =>
          obtain ⟨⟨replies', scene₂, f₂⟩, hrest, hlast⟩ := Option.bind_eq_some_iff.mp hwrites
          cases hlast
          have hset : Spsc.Alike .nothing { scene with built := true } (f.putWords words) scene' f' :=
            (h.putWords_left words).rescene_left rfl
          exact ih hset hrest
      | nested c =>
          obtain ⟨ran, hran, hmore⟩ := Option.bind_eq_some_iff.mp hwrites
          obtain ⟨⟨replies', scene₂, f₂⟩, hrest, hlast⟩ := Option.bind_eq_some_iff.mp hmore
          cases hlast
          obtain ⟨ran', hran', -, -, hstate⟩ :=
            rel_some (hrun reach c .nothing scene f scene' f' (.inl hreach) h) hran
          obtain ⟨scene₃, f₃, hinside, hstate'⟩ := ih hstate hrest
          refine ⟨scene₃, f₃, ?_, hstate'⟩
          rw [writesInside, runInside_command hran']
          exact hinside

end Runner.Alike

/-! ## What runs inside a consumer's call -/

/-- The commands among the actions on a slot that is held for reading, when it is not
changed. -/
theorem runReads_inside {actions : List (ReadAction k ω)} {insides : List (Inside k ω)}
    {replies : List (ReadReply k ω)} {scene₁ : Scene k ω} {g : Fifo k ω}
    (hinsides : readsInside? actions = some insides)
    (hreads : runReads bound run reach actions scene f = some (replies, scene₁, g)) :
    runInside bound run reach insides scene f = some (scene₁, g) := by
  induction actions generalizing scene f replies insides with
  | nil =>
      cases hinsides
      cases hreads
      rfl
  | cons action actions ih =>
      cases action with
      | read =>
          obtain ⟨v, -, hmore⟩ := Option.bind_eq_some_iff.mp hreads
          obtain ⟨⟨replies', scene₂, f₂⟩, hrest, hlast⟩ := Option.bind_eq_some_iff.mp hmore
          cases hlast
          exact ih hinsides hrest
      | edit v => cases hinsides
      | nested c =>
          obtain ⟨ran, hran, hmore⟩ := Option.bind_eq_some_iff.mp hreads
          obtain ⟨⟨replies', scene₂, f₂⟩, hrest, hlast⟩ := Option.bind_eq_some_iff.mp hmore
          cases hlast
          obtain ⟨insides', hinsides', rfl⟩ := Option.map_eq_some_iff.mp hinsides
          rw [runInside_command hran]
          exact ih hinsides' hrest

/-! ## Quiet calls -/

/-- A batch that ends well has made all its copies. -/
theorem length_of_copyAll {copies : List (Copy k ω)} {drafted vs : List (Element k ω)}
    {p q : Progress k ω} {g : Fifo k ω}
    (h : copyAll bound watched run reach copies drafted p f = some (some vs, q, g)) :
    vs.length = drafted.length + copies.length := by
  induction copies generalizing drafted p f with
  | nil =>
      cases h
      rfl
  | cons copy copies ih =>
      obtain ⟨value, before, fails⟩ := copy
      obtain ⟨⟨p₁, f₁⟩, -, hrest⟩ := Option.bind_eq_some_iff.mp h
      cases fails with
      | true => cases hrest
      | false =>
          have hlength := ih hrest
          rw [List.length_append, List.length_singleton] at hlength
          rw [hlength, List.length_cons]
          omega

/-- The end of a hold that publishes nothing changes nothing. -/
theorem endWrite_of_quiet {ending : WriteEnding k ω} {outcome : WriteOutcome}
    {scene₁ : Scene k ω} {g : Fifo k ω}
    (h : endWrite bound ending scene f = some (outcome, scene₁, g))
    (hquiet : outcome = .abandoned ∨ outcome = .unbuilt) : scene₁ = scene ∧ g = f := by
  unfold endWrite at h
  cases ending with
  | write v =>
      obtain ⟨f', -, hlast⟩ := Option.bind_eq_some_iff.mp h
      cases hlast
      simp at hquiet
  | commit =>
      simp only at h
      split at h
      · obtain ⟨f', -, hlast⟩ := Option.bind_eq_some_iff.mp h
        cases hlast
        simp at hquiet
      · cases h
        exact ⟨rfl, rfl⟩
  | abandon =>
      cases h
      exact ⟨rfl, rfl⟩

theorem eq_of_appendWithin_nil {g : Fifo k ω} (h : f.appendWithin bound [] = some g) : g = f := by
  unfold appendWithin at h
  split at h
  · cases h
    exact f.append_nil
  · cases h

/-- A quiet producer's call leaves vacant places to tell it from what ran inside it. -/
theorem Runner.Alike.runProducer_inside (hrun : run.Alike run) {c : Command k ω}
    {ran : Ran k ω (Reply k ω)} {insides : List (Inside k ω)}
    (hran : Fifo.runProducer bound watched run reach c scene f = some ran)
    (hquiet : c.quiet? ran.result ran.events = some insides) :
    Leaves bound run (reach.without .producer) insides (scene, f) .nothing ran.scene ran.fifo := by
  have hcleared : Spsc.Alike .nothing { scene with built := false } f scene f :=
    .nothing rfl rfl rfl
  unfold Fifo.runProducer at hran
  cases c with
  | push v =>
      simp only at hran
      split at hran
      · cases hran
        cases hquiet
        exact ⟨scene, f, rfl, hcleared⟩
      · obtain ⟨g, -, hlast⟩ := Option.bind_eq_some_iff.mp hran
        cases hlast
        cases hquiet
  | pushBatch copies =>
      obtain ⟨⟨drafted?, q, g⟩, hcopies, hrest⟩ := Option.bind_eq_some_iff.mp hran
      cases drafted? with
      | none =>
          cases hrest
          cases hquiet
          exact hrun.copyAll_inside rfl hcleared hcopies
      | some drafted =>
          obtain ⟨g', happend, hlast⟩ := Option.bind_eq_some_iff.mp hrest
          cases hlast
          cases drafted with
          | cons v vs => cases hquiet
          | nil =>
              -- nothing was copied
              have hlength := length_of_copyAll hcopies
              simp only [List.length_nil, Nat.zero_add] at hlength
              rw [List.eq_nil_of_length_eq_zero hlength.symm] at hcopies
              cases hcopies
              cases hquiet
              rw [eq_of_appendWithin_nil happend]
              exact ⟨scene, f, rfl, hcleared⟩
  | pushFrom iterator limit =>
      obtain ⟨⟨drafted?, q, g⟩, hpulls, hrest⟩ := Option.bind_eq_some_iff.mp hran
      obtain ⟨more, hmore, hinside⟩ := hrun.pullAll_inside rfl hcleared hpulls
      obtain rfl : q.events = more := by simpa using hmore
      cases drafted? with
      | none =>
          cases hrest
          cases hquiet
          exact hinside
      | some drafted =>
          obtain ⟨g', happend, hlast⟩ := Option.bind_eq_some_iff.mp hrest
          cases hlast
          cases drafted with
          | cons v vs => cases hquiet
          | nil =>
              cases hquiet
              rw [eq_of_appendWithin_nil happend]
              exact hinside
  | writeSlot actions ending =>
      simp only at hran
      split at hran
      · cases hran
        cases hquiet
        exact ⟨scene, f, rfl, .refl scene f⟩
      · obtain ⟨⟨replies, scene₁, g⟩, hwrites, hrest⟩ := Option.bind_eq_some_iff.mp hran
        obtain ⟨⟨outcome, scene₂, g'⟩, hend, hlast⟩ := Option.bind_eq_some_iff.mp hrest
        cases hlast
        have houtcome := isSome_quiet?_writeSlot (Option.isSome_of_eq_some hquiet)
        obtain ⟨rfl, rfl⟩ := endWrite_of_quiet hend houtcome
        have hinside := hrun.runWrites_inside rfl (.refl scene f) hwrites
        obtain rfl | rfl := houtcome
        · cases hquiet
          exact hinside
        · cases hquiet
          exact hinside
  | _ =>
      cases hran
      cases hquiet

/-- A quiet consumer's call has changed nothing. -/
theorem runConsumer_inside {c : Command k ω} {ran : Ran k ω (Reply k ω)}
    {insides : List (Inside k ω)}
    (hran : runConsumer bound watched run reach c scene f = some ran)
    (hquiet : c.quiet? ran.result ran.events = some insides) :
    runInside bound run (reach.without .consumer) insides scene f =
      some (ran.scene, ran.fifo) := by
  unfold runConsumer at hran
  cases c with
  | pop =>
      simp only at hran
      split at hran
      · cases hran
        cases hquiet
        rfl
      · cases hran
        cases hquiet
  | popBatch limit out =>
      cases hran
      have hnone := isSome_quiet?_popBatch (Option.isSome_of_eq_some hquiet)
      rw [hnone] at hquiet ⊢
      cases hquiet
      rw [List.length_nil, f.remove_zero]
      rfl
  | readSlot actions ending =>
      simp only at hran
      split at hran
      · cases hran
        cases hquiet
        rfl
      · obtain ⟨⟨replies, scene₁, g⟩, hreads, hrest⟩ := Option.bind_eq_some_iff.mp hran
        obtain ⟨⟨outcome, events, g'⟩, hend, hlast⟩ := Option.bind_eq_some_iff.mp hrest
        cases hlast
        obtain rfl := isSome_quiet?_readSlot (Option.isSome_of_eq_some hquiet)
        obtain ⟨v, -, hended⟩ := Option.bind_eq_some_iff.mp hend
        cases ending with
        | release | releaseFails | take => cases hended
        | keep =>
            cases hended
            exact runReads_inside hquiet hreads
  | _ =>
      cases hran
      cases hquiet

/-- What runs inside a quiet call leaves by itself something like what the call leaves. -/
theorem Runner.Alike.runLevel_inside (hrun : run.Alike run) {c : Command k ω} {shared : Shared k}
    {ran : Ran k ω (Reply k ω)} {insides : List (Inside k ω)}
    (hran : Fifo.runLevel bound watched run reach c scene f = some ran)
    (hquiet : c.quiet? ran.result ran.events = some insides)
    (hreach : reach.producer = false ∨ shared = .nothing)
    (hself : Spsc.Alike shared ran.scene ran.fifo ran.scene ran.fifo) :
    Leaves bound run (c.insideReach reach) insides (scene, f) shared ran.scene ran.fifo := by
  unfold Fifo.runLevel at hran
  unfold Command.insideReach
  cases hhandle : c.handle? with
  | none =>
      cases c with
      | pull iterator =>
          obtain ⟨⟨answer, q, g⟩, -, hlast⟩ := Option.bind_eq_some_iff.mp hran
          cases hlast
          cases hquiet
      | _ => cases hhandle
  | some handle =>
      rw [hhandle] at hran
      cases handle with
      | producer =>
          simp only at hran
          split at hran <;> rename_i hproducer
          · obtain rfl := hreach.resolve_left (by simp [hproducer])
            exact hrun.runProducer_inside hran hquiet
          · cases hran
            cases c <;> cases hquiet
      | consumer =>
          simp only at hran
          split at hran
          · exact ⟨_, _, runConsumer_inside hran hquiet, hself⟩
          · cases hran
            cases c <;> cases hquiet

/-! ## Stripping quiet calls -/

section

variable (stripped : Reach → Command k ω → Scene k ω → List (Element k ω) → Bool)

/-- Runs a command; if it turns out to be quiet, and `stripped` picks it, only what ran inside
it is left of it. -/
def stripLevel (bound : Nat) (watched : Bool) (run : Runner k ω) : Runner k ω :=
  fun reach c scene f => do
    let ran ← runLevel bound watched run reach c scene f
    match c.quiet? ran.result ran.events with
    | some insides =>
      if stripped reach c scene f.queue then do
        let (scene, f) ← runInside bound run (c.insideReach reach) insides scene f
        some { ran with scene := scene, fifo := f }
      else some ran
    | none => some ran

/-- Runs a command, and strips quiet calls at every depth. -/
def runStripped (bound : Nat) (watched : Bool) : Nat → Runner k ω
  | 0 => runCommand bound watched 0
  | fuel + 1 => stripLevel stripped bound watched (runStripped bound watched fuel)

variable {stripped}

/-- Stripping quiet calls leaves lists alike. -/
theorem Runner.Alike.stripLevel (hrun : run.Alike run') :
    Runner.Alike (Fifo.runLevel bound watched run)
      (Fifo.stripLevel stripped bound watched run') := by
  intro reach c shared scene f scene' f' hreach h
  have hlevel : Option.Rel (Ran.Alike shared) (Fifo.runLevel bound watched run reach c scene f)
      (Fifo.runLevel bound watched run' reach c scene' f') :=
    hrun.runLevel reach c shared scene f scene' f' hreach h
  unfold Fifo.stripLevel
  generalize Fifo.runLevel bound watched run reach c scene f = x at hlevel ⊢
  generalize hx : Fifo.runLevel bound watched run' reach c scene' f' = x' at hlevel ⊢
  cases hlevel with
  | none => exact .none
  | @some a b hran =>
      simp only [Option.bind_eq_bind, Option.bind_some]
      cases hquiet : c.quiet? b.result b.events with
      | none => exact .some hran
      | some insides =>
          simp only
          split
          · obtain ⟨scene'', f'', hinside, hstate⟩ :=
              (hrun.symm.trans hrun).runLevel_inside hx hquiet (hreach.imp_right And.left)
                (hran.state.symm.trans hran.state)
            rw [hinside]
            exact .some ⟨hran.result, hran.events, hran.state.trans hstate⟩
          · exact .some hran

/-- A runner that strips quiet calls is like one that does not. -/
theorem runStripped_alike (bound : Nat) (watched : Bool) (fuel : Nat) :
    Runner.Alike (runCommand bound watched fuel)
      (runStripped stripped bound watched fuel) := by
  induction fuel with
  | zero => exact runCommand_alike bound watched 0
  | succ fuel ih =>
      rw [runCommand_succ]
      exact ih.stripLevel

end

end Fifo

end LockFreeRings.Spsc
