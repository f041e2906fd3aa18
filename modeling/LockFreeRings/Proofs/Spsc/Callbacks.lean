import LockFreeRings.Proofs.Spsc.Borrowing
set_option autoImplicit false

/-!
# Code that runs inside a call

What the callbacks of a call do to a ring is what they do to the list, when the
commands inside them are followed (`Runner.Follows`).  A command is followed up to
a budget for its own nesting and that of the iterators that are left.  Asking an
iterator uses up an entry, so what runs before its answer fits in the budget that
was there for the entry (`iteratorsDepth_set`).

What every command does to a ring with the handles that it is given (`Runner.Within`), lists of
commands and iterators do too.
-/

namespace LockFreeRings.Spsc

variable {n : SlotCount} {k : Nat} {ω : Type}

/-- After code that reaches these handles, the ring holds the queue `f'`. -/
structure After (reach : Reach) (scene : Scene k ω) (f : Fifo k ω) (m : Marks)
    (scene' : Scene k ω) (r' : Ring n k ω) (f' : Fifo k ω) (m' : Marks) : Prop where
  represents : r'.Represents f' m'
  keeps : Fifo.Keeps reach f m f' m'
  iterators_le : iteratorsDepth scene'.iterators ≤ iteratorsDepth scene.iterators

namespace After

variable {reach : Reach} {scene scene' scene'' : Scene k ω} {r r' r'' : Ring n k ω}
  {f f' f'' : Fifo k ω} {m m' m'' : Marks}

theorem refl (reach : Reach) (scene : Scene k ω) (h : r.Represents f m) :
    After reach scene f m scene r f m :=
  ⟨h, .refl reach f m, Nat.le_refl _⟩

theorem trans (h : After reach scene f m scene' r' f' m')
    (h' : After reach scene' f' m' scene'' r'' f'' m'') :
    After reach scene f m scene'' r'' f'' m'' :=
  ⟨h'.represents, h.keeps.trans h'.keeps, h'.iterators_le.trans h.iterators_le⟩

/-- The producer's own work. -/
theorem of_producer (hreach : reach.producer = true)
    (hiterators : scene'.iterators = scene.iterators) (h : r'.Represents f' m')
    (hkeeps : f.KeepsConsumer m f' m') : After reach scene f m scene' r' f' m' :=
  ⟨h, .of_producer hreach hkeeps, by rw [hiterators]⟩

/-- The consumer's own work. -/
theorem of_consumer (hreach : reach.consumer = true) (scene : Scene k ω)
    (h : r'.Represents f' m') (hkeeps : f.KeepsProducer m f' m') :
    After reach scene f m scene r' f' m' :=
  ⟨h, .of_consumer hreach hkeeps, Nat.le_refl _⟩

theorem without_producer (hreach : reach.producer = true)
    (h : After { reach with producer := false } scene f m scene' r' f' m') :
    After reach scene f m scene' r' f' m' :=
  ⟨h.represents, h.keeps.without_producer hreach, h.iterators_le⟩

theorem without_consumer (hreach : reach.consumer = true)
    (h : After { reach with consumer := false } scene f m scene' r' f' m') :
    After reach scene f m scene' r' f' m' :=
  ⟨h.represents, h.keeps.without_consumer hreach, h.iterators_le⟩

/-- The producer's call goes on and stores an element. -/
theorem store (hreach : reach.producer = true)
    (h : After { reach with producer := false } scene f m scene' r' f' m') {start more : Nat}
    {drafted : List (Element k ω)} (hdrafts : r.Drafts f m start drafted (more + 1))
    (v : Element k ω) :
    (r'.write (n.cursor (start + drafted.length)) v).Drafts (f'.put drafted.length v) m' start
        (drafted ++ [v]) more ∧
      After reach scene f m scene' (r'.write (n.cursor (start + drafted.length)) v)
        (f'.put drafted.length v) m' := by
  have hstored := (hdrafts.resume h.represents (h.keeps.producer rfl)).store v
  refine ⟨hstored, (h.without_producer hreach).trans ?_⟩
  exact .of_producer hreach rfl hstored.represents (f'.keepsConsumer_put m' drafted.length v)

end After

/-! ## Iterators -/

/-- An entry that is used up takes its depth along. -/
theorem iteratorsDepth_set {iterators : List (List (IteratorEntry k ω))} {i : Nat}
    {entry : IteratorEntry k ω} {rest : List (IteratorEntry k ω)}
    (h : iterators[i]? = some (entry :: rest)) :
    iteratorsDepth (iterators.set i rest) + (commandsDepth entry.before + 1) =
      iteratorsDepth iterators := by
  induction iterators generalizing i with
  | nil => cases h
  | cons entries iterators ih =>
      cases i with
      | zero =>
          obtain rfl : entries = entry :: rest := by simpa using h
          simp only [List.set_cons_zero, iteratorsDepth, List.foldr_cons, entriesDepth]
          omega
      | succ i =>
          have hrest := ih (i := i) (by simpa using h)
          simp only [iteratorsDepth] at hrest
          simp only [List.set_cons_succ, iteratorsDepth, List.foldr_cons]
          omega

/-- An iterator that is left something has it in its list of entries. -/
theorem Scene.getElem?_of_left {scene : Scene k ω} {iterator : Nat} {entry : IteratorEntry k ω}
    {rest : List (IteratorEntry k ω)} (h : scene.left iterator = entry :: rest) :
    scene.iterators[iterator]? = some (entry :: rest) := by
  rw [Scene.left] at h
  cases hget : scene.iterators[iterator]? with
  | none => rw [hget] at h; cases h
  | some entries => rw [hget] at h; exact congrArg some h

/-! ## Commands inside others -/

/-- What ran on a ring and what ran on the list `f` came to the same. -/
def Ran.Agrees (ran : Ran n k ω (Reply k ω)) (reach : Reach) (scene : Scene k ω) (f : Fifo k ω)
    (m : Marks) (spec : Option (Fifo.Ran k ω (Reply k ω))) : Prop :=
  ∃ f' m', spec = some ⟨ran.result, ran.events, ran.scene, f'⟩ ∧
    After reach scene f m ran.scene ran.ring f' m'

/-- Within a budget for nesting, the runner does to a ring what `spec` does to the
list. -/
def Runner.Follows (run : Runner n k ω) (spec : Fifo.Runner k ω) (budget : Nat) : Prop :=
  ∀ (reach : Reach) (c : Command k ω) (scene : Scene k ω) (r : Ring n k ω) (f : Fifo k ω)
    (m : Marks), c.depth + iteratorsDepth scene.iterators ≤ budget → r.Represents f m →
    (run reach c scene r).Agrees reach scene f m (spec reach c scene f)

namespace Runner.Follows

variable {run : Runner n k ω} {spec : Fifo.Runner k ω} {budget : Nat} {reach : Reach}
  {r : Ring n k ω} {f : Fifo k ω} {m : Marks}

theorem runAll (hrun : run.Follows spec budget) (reach : Reach) (commands : List (Command k ω))
    {scene : Scene k ω} (hdepth : commandsDepth commands + iteratorsDepth scene.iterators ≤ budget)
    (h : r.Represents f m) :
    ∃ f' m',
      Fifo.runAll (n.size - 1) spec reach commands scene f =
        some ((runAll run reach commands scene r).1,
          (Spsc.runAll run reach commands scene r).2.1, f') ∧
      After reach scene f m (Spsc.runAll run reach commands scene r).2.1
        (Spsc.runAll run reach commands scene r).2.2 f' m' := by
  induction commands generalizing scene r f m with
  | nil => exact ⟨f, m, rfl, .refl reach scene h⟩
  | cons c cs ih =>
      rw [commandsDepth] at hdepth
      obtain ⟨f₁, m₁, hspec, hafter⟩ := hrun reach c scene r f m (by omega) h
      have hle := hafter.iterators_le
      have hbudget : commandsDepth cs + iteratorsDepth (run reach c scene r).scene.iterators ≤
          budget := by omega
      obtain ⟨f₂, m₂, hrest, hlast⟩ := ih hbudget hafter.represents
      refine ⟨f₂, m₂, ?_, hafter.trans hlast⟩
      rw [Fifo.runAll, hspec]
      simp only [Option.bind_eq_bind, Option.bind_some, hrest]
      rw [← hafter.represents.report_eq]
      rfl

theorem runBefore (hrun : run.Follows spec budget) (reach : Reach) (before : List (Command k ω))
    {p : Progress k ω} (hdepth : commandsDepth before + iteratorsDepth p.scene.iterators ≤ budget)
    (h : r.Represents f m) :
    ∃ f' m',
      Fifo.runBefore (n.size - 1) spec reach before p f =
        some ((runBefore run reach before p r).1, f') ∧
      After reach p.scene f m (Spsc.runBefore run reach before p r).1.scene
        (Spsc.runBefore run reach before p r).2 f' m' := by
  obtain ⟨f', m', hspec, hafter⟩ := hrun.runAll reach before hdepth h
  refine ⟨f', m', ?_, ?_⟩
  · rw [Fifo.runBefore, hspec]
    cases before with
    | nil => rfl
    | cons c cs => rfl
  · cases before with
    | nil => exact hafter
    | cons c cs => exact hafter

/-- Asking an iterator. -/
theorem ask (hrun : run.Follows spec budget) (reach : Reach) (iterator : Nat) {p : Progress k ω}
    (hdepth : iteratorsDepth p.scene.iterators ≤ budget) (h : r.Represents f m) :
    ∃ f' m',
      Fifo.ask (n.size - 1) spec reach iterator p f =
        some ((ask run reach iterator p r).1, (Spsc.ask run reach iterator p r).2.1, f') ∧
      After reach p.scene f m (Spsc.ask run reach iterator p r).2.1.scene
        (Spsc.ask run reach iterator p r).2.2 f' m' := by
  cases hleft : p.scene.left iterator with
  | nil =>
      rw [Fifo.ask, Spsc.ask, hleft]
      exact ⟨f, m, rfl, .refl reach p.scene h⟩
  | cons entry rest =>
      have hset := iteratorsDepth_set (p.scene.getElem?_of_left hleft)
      obtain ⟨f', m', hspec, hafter⟩ := hrun.runBefore reach entry.before
        (p := ⟨{ p.scene with iterators := p.scene.iterators.set iterator rest }, p.events⟩)
        (show _ + iteratorsDepth (p.scene.iterators.set iterator rest) ≤ budget by omega) h
      have hle : iteratorsDepth (p.scene.iterators.set iterator rest) ≤
          iteratorsDepth p.scene.iterators := by omega
      have hasked : After reach p.scene f m _ _ f' m' :=
        ⟨hafter.represents, hafter.keeps, hafter.iterators_le.trans hle⟩
      rw [Fifo.ask, Spsc.ask, hleft]
      simp only [Option.bind_eq_bind, hspec, Option.bind_some]
      refine ⟨f', m', ?_, ?_⟩
      · cases entry.answer <;> rfl
      · cases entry.answer <;> exact hasked

/-! ## What is stored before it is published -/

/-- The copies of a batch, for which there is room. -/
theorem writeCopies (hrun : run.Follows spec budget) (hreach : reach.producer = true)
    (watched : Bool) (copies : List (Copy k ω)) {start : Nat} {drafted : List (Element k ω)}
    {p : Progress k ω} (hdepth : copiesDepth copies + iteratorsDepth p.scene.iterators ≤ budget)
    (h : r.Drafts f m start drafted copies.length) :
    ∃ drafted? p' r' f' m',
      Ring.writeCopies (makeCopy watched run { reach with producer := false }) copies
          (n.cursor (start + drafted.length)) p r =
        (drafted?.map fun vs => n.cursor (start + vs.length), p', r') ∧
      Fifo.copyAll (n.size - 1) watched spec { reach with producer := false } copies drafted p f =
        some (drafted?, p', f') ∧
      After reach p.scene f m p'.scene r' f' m' ∧
      ∀ vs, drafted? = some vs →
        vs.length = drafted.length + copies.length ∧ r'.Drafts f' m' start vs 0 := by
  induction copies generalizing drafted p r f m with
  | nil =>
      refine ⟨some drafted, p, r, f, m, rfl, rfl, .refl reach p.scene h.represents, ?_⟩
      intro vs hvs
      cases hvs
      exact ⟨rfl, h⟩
  | cons copy copies ih =>
      obtain ⟨value, before, fails⟩ := copy
      rw [copiesDepth] at hdepth
      obtain ⟨f₁, m₁, hspec, hbefore⟩ :=
        hrun.runBefore { reach with producer := false } before (p := p) (by omega) h.represents
      have hle := hbefore.iterators_le
      rw [Fifo.copyAll, hspec]
      cases fails with
      | true =>
          refine ⟨none, _, _, f₁, m₁, rfl, rfl, hbefore.without_producer hreach, ?_⟩
          intro vs hvs
          cases hvs
      | false =>
          generalize hran : Spsc.runBefore run { reach with producer := false } before p r = ran
            at hbefore hle
          obtain ⟨p₁, r₁⟩ := ran
          let p₂ : Progress k ω :=
            if watched then ⟨p₁.scene, p₁.events ++ [.copied value]⟩ else p₁
          have hscene : p₂.scene = p₁.scene := by cases watched <;> rfl
          have hcopy : makeCopy watched run { reach with producer := false }
              (.mk value before false) p r = (some value, p₂, r₁) := by
            rw [makeCopy, hran]
            cases watched <;> rfl
          obtain ⟨hstored, hput⟩ := hbefore.store hreach h value
          rw [← hscene] at hput hle
          obtain ⟨drafted?, p', r', f', m', hring, hlist, hafter, hdrafts⟩ :=
            ih (p := p₂) (by omega) hstored
          refine ⟨drafted?, p', r', f', m', ?_, ?_,
            hput.trans hafter, ?_⟩
          · rw [Ring.writeCopies, hcopy]
            simp only
            rw [next_cursor, Nat.add_assoc, ← hring, List.length_append, List.length_singleton]
          · exact hlist
          · intro vs hvs
            obtain ⟨hlength, hdraft⟩ := hdrafts vs hvs
            refine ⟨?_, hdraft⟩
            rw [hlength, List.length_append, List.length_singleton, List.length_cons]
            omega

/-- An iterator is not asked when what is queued and what is stored fill the ring. -/
theorem pulls_of_full {σ : Type} {start : Nat} {drafted : List (Element k ω)}
    (h : r.Drafts f m start drafted 0)
    (hfull : n.size - 1 ≤ f.queue.length + drafted.length)
    (pull : σ → Ring n k ω → Ring.Pull (Element k ω) × σ × Ring n k ω) (fuel count : Nat) (s : σ) :
    ∃ r' m', Ring.writePulls pull (fuel + 1) count (n.cursor (start + drafted.length)) s r =
        (some (count, n.cursor (start + drafted.length)), s, r') ∧
      f.KeepsConsumer m f m' ∧ r'.Drafts f m' start drafted 0 := by
  obtain ⟨m', hkeeps, hzero, hdrafts⟩ := h.room_of_full hfull
  refine ⟨_, m', ?_, hkeeps, hdrafts⟩
  unfold Ring.writePulls
  simp only [hzero, if_true]

/-- What an iterator answers while there is room. -/
theorem writePulls (hrun : run.Follows spec budget) (hreach : reach.producer = true)
    (iterator left : Nat) (limit : Option UInt64) {start : Nat} {drafted : List (Element k ω)}
    {p : Progress k ω} (hdepth : iteratorsDepth p.scene.iterators ≤ budget)
    (hleft : drafted.length + left = n.size - 1) (h : r.Drafts f m start drafted 0) :
    ∃ drafted? limit' p' r' f' m',
      Ring.writePulls (askWithin run { reach with producer := false } iterator) (left + 1)
          drafted.length (n.cursor (start + drafted.length)) (limit, p) r =
        (drafted?.map fun vs => (vs.length, n.cursor (start + vs.length)), (limit', p'), r') ∧
      Fifo.pullAll (n.size - 1) spec { reach with producer := false } iterator left drafted limit
        p f = some (drafted?, p', f') ∧
      After reach p.scene f m p'.scene r' f' m' ∧
      ∀ vs, drafted? = some vs → r'.Drafts f' m' start vs 0 := by
  induction left generalizing drafted limit p r f m with
  | zero =>
      obtain ⟨r', m', hring, hkeeps, hdrafts⟩ := pulls_of_full h (by omega)
        (askWithin run { reach with producer := false } iterator) 0 drafted.length (limit, p)
      refine ⟨some drafted, limit, p, r', f, m', hring, rfl,
        .of_producer hreach rfl hdrafts.represents hkeeps, ?_⟩
      intro vs hvs
      cases hvs
      exact hdrafts
  | succ left ih =>
      rcases Nat.lt_or_ge (f.queue.length + drafted.length) (n.size - 1) with hlt | hfull
      · obtain ⟨m₁, hkeeps, hne, hroom⟩ := h.room_of_lt hlt
        generalize hfind : r.room (n.cursor (start + drafted.length)) 1 = found at hne hroom
        obtain ⟨room, r₁⟩ := found
        have hfound : After reach p.scene f m p.scene r₁ f m₁ :=
          .of_producer hreach rfl hroom.represents hkeeps
        by_cases hlimit : limit = some 0
        · refine ⟨some drafted, limit, p, r₁, f, m₁, ?_, ?_, hfound, ?_⟩
          · unfold Ring.writePulls
            simp only [hfind, hne, if_false, askWithin, hlimit, if_true]
            rfl
          · rw [Fifo.pullAll, if_neg fun hboth => hboth.2 hlimit]
          · intro vs hvs
            cases hvs
            exact hroom.weaken (Nat.zero_le _)
        · obtain ⟨f₂, m₂, hspec, hasked⟩ :=
            hrun.ask { reach with producer := false } iterator hdepth hroom.represents
          generalize hran : Spsc.ask run { reach with producer := false } iterator p r₁ = ran
            at hspec hasked
          obtain ⟨answer, p₂, r₂⟩ := ran
          have hwithin : askWithin run { reach with producer := false } iterator (limit, p) r₁ =
              (answer, (limit.map (· - 1), p₂), r₂) := by
            rw [askWithin, if_neg hlimit, hran]
          rw [Ring.writePulls, Fifo.pullAll, if_pos ⟨hlt, hlimit⟩, hspec]
          simp only [hfind, hne, if_false, hwithin, Option.bind_eq_bind, Option.bind_some]
          cases answer with
          | failed =>
              refine ⟨none, _, p₂, r₂, f₂, m₂, rfl, rfl,
                hfound.trans (hasked.without_producer hreach), ?_⟩
              intro vs hvs
              cases hvs
          | ended =>
              refine ⟨some drafted, _, p₂, r₂, f₂, m₂, rfl, rfl,
                hfound.trans (hasked.without_producer hreach), ?_⟩
              intro vs hvs
              cases hvs
              exact (hroom.resume hasked.represents (hasked.keeps.producer rfl)).weaken
                (Nat.zero_le _)
          | item v =>
              obtain ⟨hstored, hput⟩ := hasked.store hreach hroom v
              have hlength : (drafted ++ [v]).length = drafted.length + 1 := by
                rw [List.length_append, List.length_singleton]
              obtain ⟨drafted?, limit', p', r', f', m', hring, hlist, hafter, hdrafts⟩ :=
                ih (limit.map (· - 1)) (p := p₂) (hput.iterators_le.trans hdepth) (by omega) hstored
              refine ⟨drafted?, limit', p', r', f', m', ?_, hlist,
                hfound.trans (hput.trans hafter), hdrafts⟩
              rw [next_cursor, Nat.add_assoc, ← hring, hlength]
      · obtain ⟨r', m', hring, hkeeps, hdrafts⟩ := pulls_of_full h hfull
          (askWithin run { reach with producer := false } iterator) (left + 1) drafted.length
          (limit, p)
        refine ⟨some drafted, limit, p, r', f, m', hring, ?_,
          .of_producer hreach rfl hdrafts.represents hkeeps, ?_⟩
        · rw [Fifo.pullAll, if_neg (by omega)]
        · intro vs hvs
          cases hvs
          exact hdrafts

/-! ## What is done to a held slot -/

theorem runWrites (hrun : run.Follows spec budget) (hreach : reach.producer = true)
    (actions : List (WriteAction k ω)) (scene : Scene k ω) {start : Nat}
    (hdepth : writesDepth actions + iteratorsDepth scene.iterators ≤ budget)
    (h : r.Drafts f m start [] 1) :
    ∃ replies scene' r' f' m',
      runWrites run { reach with producer := false } (n.cursor start) actions scene r =
        (replies, scene', r') ∧
      Fifo.runWrites (n.size - 1) spec { reach with producer := false } actions scene f =
        some (replies, scene', f') ∧
      After reach scene f m scene' r' f' m' ∧ r'.Drafts f' m' start [] 1 := by
  induction actions generalizing scene r f m with
  | nil => exact ⟨[], scene, r, f, m, rfl, rfl, .refl reach scene h.represents, h⟩
  | cons action actions ih =>
      cases action with
      | build v =>
          have hbuilt := h.build v
          obtain ⟨replies, scene', r', f', m', hring, hlist, hafter, hdrafts⟩ :=
            ih { scene with built := true } hdepth hbuilt
          have hbegin : After reach scene f m { scene with built := true } _ _ m :=
            .of_producer hreach rfl hbuilt.represents (f.keepsConsumer_put m 0 v)
          refine ⟨.built :: replies, scene', r', f', m', ?_, ?_, hbegin.trans hafter, hdrafts⟩
          · rw [Spsc.runWrites, hring]
          · rw [Fifo.runWrites, hlist]
            rfl
      | setWords words =>
          have hset := h.setWords words
          obtain ⟨replies, scene', r', f', m', hring, hlist, hafter, hdrafts⟩ :=
            ih { scene with built := true } hdepth hset
          have hbegin : After reach scene f m { scene with built := true } _ _ m :=
            .of_producer hreach rfl hset.represents (f.keepsConsumer_putWords m words)
          refine ⟨.wordsSet :: replies, scene', r', f', m', ?_, ?_, hbegin.trans hafter, hdrafts⟩
          · rw [Spsc.runWrites, hring]
          · rw [Fifo.runWrites, hlist]
            rfl
      | nested c =>
          rw [writesDepth] at hdepth
          obtain ⟨f₁, m₁, hspec, hnested⟩ :=
            hrun { reach with producer := false } c scene r f m (by omega) h.represents
          have hle := hnested.iterators_le
          generalize hran : run { reach with producer := false } c scene r = ran
            at hspec hnested hle
          obtain ⟨replies, scene', r', f', m', hring, hlist, hafter, hdrafts⟩ :=
            ih ran.scene (by omega)
              (h.resume hnested.represents (hnested.keeps.producer rfl))
          refine ⟨.nested
              (report { reach with producer := false } ran.result ran.events ran.ring) :: replies,
            scene', r', f', m', ?_, ?_, (hnested.without_producer hreach).trans hafter, hdrafts⟩
          · unfold Spsc.runWrites
            simp only [hran, hring]
          · rw [Fifo.runWrites, hspec]
            simp only [Option.bind_eq_bind, Option.bind_some, hlist]
            rw [← hnested.represents.report_eq]

theorem runReads (hrun : run.Follows spec budget) (hreach : reach.consumer = true)
    (actions : List (ReadAction k ω)) (scene : Scene k ω) {front : Nat}
    (hdepth : readsDepth actions + iteratorsDepth scene.iterators ≤ budget)
    (h : r.Holds f m front) :
    ∃ replies scene' r' f' m',
      runReads run { reach with consumer := false } (n.cursor front) actions scene r =
        (replies, scene', r') ∧
      Fifo.runReads (n.size - 1) spec { reach with consumer := false } actions scene f =
        some (replies, scene', f') ∧
      After reach scene f m scene' r' f' m' ∧ r'.Holds f' m' front := by
  induction actions generalizing scene r f m with
  | nil => exact ⟨[], scene, r, f, m, rfl, rfl, .refl reach scene h.represents, h⟩
  | cons action actions ih =>
      cases action with
      | read =>
          obtain ⟨v, vs, hqueue, hread⟩ := h.exists_head
          obtain ⟨replies, scene', r', f', m', hring, hlist, hafter, hholds⟩ := ih scene hdepth h
          refine ⟨.element v :: replies, scene', r', f', m', ?_, ?_, hafter, hholds⟩
          · rw [Spsc.runReads, hring, hread]
          · rw [Fifo.runReads, hlist, hqueue]
            rfl
      | edit v =>
          have hedited := h.edit v
          obtain ⟨replies, scene', r', f', m', hring, hlist, hafter, hholds⟩ :=
            ih scene hdepth hedited
          have hbegin : After reach scene f m scene _ _ m :=
            .of_consumer hreach scene hedited.represents (f.keepsProducer_edit m v)
          refine ⟨.edited :: replies, scene', r', f', m', ?_, ?_, hbegin.trans hafter, hholds⟩
          · rw [Spsc.runReads, hring]
          · rw [Fifo.runReads, hlist]
            rfl
      | nested c =>
          rw [readsDepth] at hdepth
          obtain ⟨f₁, m₁, hspec, hnested⟩ :=
            hrun { reach with consumer := false } c scene r f m (by omega) h.represents
          have hle := hnested.iterators_le
          generalize hran : run { reach with consumer := false } c scene r = ran
            at hspec hnested hle
          obtain ⟨replies, scene', r', f', m', hring, hlist, hafter, hholds⟩ :=
            ih ran.scene (by omega)
              (h.resume hnested.represents (hnested.keeps.consumer rfl))
          refine ⟨.nested
              (report { reach with consumer := false } ran.result ran.events ran.ring) :: replies,
            scene', r', f', m', ?_, ?_, (hnested.without_consumer hreach).trans hafter, hholds⟩
          · unfold Spsc.runReads
            simp only [hran, hring]
          · rw [Fifo.runReads, hspec]
            simp only [Option.bind_eq_bind, Option.bind_some, hlist]
            rw [← hnested.represents.report_eq]

end Runner.Follows

/-! ## What holds of every command -/

/-- With these handles, the runner takes every ring to one that is related to it. -/
def Runner.Within (run : Runner n k ω) (reach : Reach) (R : Ring n k ω → Ring n k ω → Prop) :
    Prop :=
  ∀ (c : Command k ω) (scene : Scene k ω) (r : Ring n k ω), R r (run reach c scene r).ring

namespace Runner.Within

variable {run : Runner n k ω} {reach : Reach} {R : Ring n k ω → Ring n k ω → Prop}
  [IsPreorder (Ring n k ω) R]

theorem runAll (hrun : run.Within reach R) (commands : List (Command k ω)) (scene : Scene k ω)
    (r : Ring n k ω) : R r (runAll run reach commands scene r).2.2 := by
  induction commands generalizing scene r with
  | nil => exact refl_of R r
  | cons c cs ih =>
      have hfirst := hrun c scene r
      have hrest := ih (run reach c scene r).scene (run reach c scene r).ring
      exact trans_of R hfirst hrest

theorem runBefore (hrun : run.Within reach R) (before : List (Command k ω)) (p : Progress k ω)
    (r : Ring n k ω) : R r (runBefore run reach before p r).2 := by
  cases before with
  | nil => exact refl_of R r
  | cons c cs => exact hrun.runAll (c :: cs) p.scene r

theorem ask (hrun : run.Within reach R) (iterator : Nat) (p : Progress k ω) (r : Ring n k ω) :
    R r (ask run reach iterator p r).2.2 := by
  unfold Spsc.ask
  cases p.scene.left iterator with
  | nil => exact refl_of R r
  | cons entry rest =>
      have hbefore := hrun.runBefore entry.before
        ⟨{ p.scene with iterators := p.scene.iterators.set iterator rest }, p.events⟩ r
      simp only
      cases entry.answer <;> exact hbefore

theorem askWithin (hrun : run.Within reach R) (iterator : Nat) (s : Option UInt64 × Progress k ω)
    (r : Ring n k ω) : R r (askWithin run reach iterator s r).2.2 := by
  unfold Spsc.askWithin
  split
  · exact refl_of R r
  · exact hrun.ask iterator s.2 r

end Runner.Within

end LockFreeRings.Spsc
