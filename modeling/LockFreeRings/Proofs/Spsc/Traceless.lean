import LockFreeRings.Proofs.Spsc.Arising
import LockFreeRings.Proofs.Spsc.Stripping
set_option autoImplicit false

/-!
# Calls that publish nothing leave no trace

The result about quiet calls (`quiet_calls_traceless`).  A call that fails, is refused, finds
nothing or drops what it held may have written free slots and refreshed its copy of a cursor.
Yet the head, the tail and what is queued are what the commands inside the call leave by
themselves, and whatever is done afterwards comes to the same, as long as it publishes only
slots that it has filled.  And so do sessions in which quiet calls are stripped wherever they
are nested.

The cursors are the same since neither the call nor what runs inside it moves the cursor of the
call's handle (`Runner.Leaves`), and the lengths of the queues give the other one.  All else is
said on lists, where the two sides are alike (`Fifo.Runner.Alike.runLevel_inside`,
`Fifo.runStripped_alike`).
-/

namespace LockFreeRings.Spsc

variable {n : SlotCount} {k : Nat} {ω : Type}

/-! ## What runs inside a call is nested less deeply -/

theorem Command.depth_le_of_mem {c : Command k ω} {commands : List (Command k ω)}
    (h : c ∈ commands) : c.depth ≤ commandsDepth commands := by
  induction commands with
  | nil => cases h
  | cons c' commands ih =>
      rw [commandsDepth]
      rcases List.mem_cons.mp h with rfl | h
      · exact Nat.le_max_left _ _
      · exact (ih h).trans (Nat.le_max_right _ _)

theorem depth_le_of_mem_copiesInside {c : Command k ω} {copies : List (Copy k ω)}
    (h : .command c ∈ copiesInside copies) : c.depth ≤ copiesDepth copies := by
  induction copies with
  | nil => cases h
  | cons copy copies ih =>
      obtain ⟨value, before, fails⟩ := copy
      rw [copiesDepth]
      rw [copiesInside, List.mem_append, List.mem_map] at h
      rcases h with ⟨c', hc', heq⟩ | h
      · cases heq
        exact (Command.depth_le_of_mem hc').trans (Nat.le_max_left _ _)
      · cases fails with
        | true => cases h
        | false => exact (ih h).trans (Nat.le_max_right _ _)

theorem depth_le_of_mem_writesInside {c : Command k ω} {actions : List (WriteAction k ω)}
    (h : .command c ∈ writesInside actions) : c.depth ≤ writesDepth actions := by
  induction actions with
  | nil => cases h
  | cons action actions ih =>
      cases action with
      | build v | setWords words => exact ih h
      | nested c' =>
          rw [writesDepth]
          rw [writesInside, List.mem_cons] at h
          rcases h with heq | h
          · cases heq
            exact Nat.le_max_left _ _
          · exact (ih h).trans (Nat.le_max_right _ _)

theorem depth_le_of_mem_readsInside? {c : Command k ω} {actions : List (ReadAction k ω)}
    {insides : List (Inside k ω)} (hinsides : readsInside? actions = some insides)
    (h : .command c ∈ insides) : c.depth ≤ readsDepth actions := by
  induction actions generalizing insides with
  | nil =>
      cases hinsides
      cases h
  | cons action actions ih =>
      cases action with
      | read => exact ih hinsides h
      | edit v => cases hinsides
      | nested c' =>
          obtain ⟨rest, hrest, rfl⟩ := Option.map_eq_some_iff.mp hinsides
          rw [readsDepth]
          rcases List.mem_cons.mp h with heq | h
          · cases heq
            exact Nat.le_max_left _ _
          · exact (ih hrest h).trans (Nat.le_max_right _ _)

theorem not_mem_replicate_ask {c : Command k ω} {count iterator : Nat} :
    Inside.command c ∉ List.replicate count (.ask iterator : Inside k ω) := by
  intro h
  cases (List.mem_replicate.mp h).2

/-- A command that runs inside a quiet call is nested less deeply than the call. -/
theorem Command.depth_lt_of_quiet {c c' : Command k ω} {reply : Reply k ω}
    {events : List (Event k ω)} {insides : List (Inside k ω)}
    (hquiet : c.quiet? reply events = some insides) (h : .command c' ∈ insides) :
    c'.depth < c.depth := by
  unfold quiet? at hquiet
  cases c with
  | push v =>
      simp only at hquiet
      split at hquiet <;> cases hquiet
      cases h
  | pushBatch copies =>
      rw [depth]
      simp only at hquiet
      split at hquiet <;> cases hquiet
      · cases h
      · exact Nat.lt_succ_of_le (depth_le_of_mem_copiesInside h)
  | pushFrom iterator limit =>
      simp only at hquiet
      split at hquiet <;> cases hquiet
      · exact absurd h not_mem_replicate_ask
      · exact absurd h not_mem_replicate_ask
  | writeSlot actions ending =>
      rw [depth]
      simp only at hquiet
      split at hquiet <;> cases hquiet
      · cases h
      · exact Nat.lt_succ_of_le (depth_le_of_mem_writesInside h)
      · exact Nat.lt_succ_of_le (depth_le_of_mem_writesInside h)
  | pop =>
      simp only at hquiet
      split at hquiet <;> cases hquiet
      cases h
  | popBatch limit out =>
      simp only at hquiet
      split at hquiet <;> cases hquiet
      cases h
  | readSlot actions ending =>
      rw [depth]
      simp only at hquiet
      split at hquiet
      · cases hquiet
        cases h
      · exact Nat.lt_succ_of_le (depth_le_of_mem_readsInside? hquiet h)
      · cases hquiet
  | _ => cases hquiet

/-! ## What runs inside a call, on a ring and on a list -/

/-- What code inside a call left is also something that the call's own code could leave. -/
theorem After.of_without {reach : Reach} {handle : Handle} {scene scene' : Scene k ω}
    {r' : Ring n k ω} {f f' : Fifo k ω} {m m' : Marks}
    (h : After (reach.without handle) scene f m scene' r' f' m') :
    After reach scene f m scene' r' f' m' := by
  cases handle with
  | producer =>
      cases hreach : reach.producer with
      | true => exact h.without_producer hreach
      | false =>
          have hsame : reach.without .producer = reach := by
            rw [Reach.without, ← hreach]
          rwa [hsame] at h
  | consumer =>
      cases hreach : reach.consumer with
      | true => exact h.without_consumer hreach
      | false =>
          have hsame : reach.without .consumer = reach := by
            rw [Reach.without, ← hreach]
          rwa [hsame] at h

theorem After.of_inside {reach : Reach} {c : Command k ω} {scene scene' : Scene k ω}
    {r' : Ring n k ω} {f f' : Fifo k ω} {m m' : Marks}
    (h : After (c.insideReach reach) scene f m scene' r' f' m') :
    After reach scene f m scene' r' f' m' := by
  unfold Command.insideReach at h
  split at h
  · exact h.of_without
  · exact h

section

variable (stripped : Reach → Command k ω → Scene k ω → List (Element k ω) → Bool)

/-- Runs a command; if it turns out to be quiet, and `stripped` picks it, only what ran inside
it is left of it. -/
def stripLevel (watched : Bool) (run : Runner n k ω) : Runner n k ω := fun reach c scene r =>
  let ran := runLevel watched run reach c scene r
  match c.quiet? ran.result ran.events with
  | some insides =>
    if stripped reach c scene r.queue then
      let (scene, r) := runInside run (c.insideReach reach) insides scene r
      { ran with scene := scene, ring := r }
    else ran
  | none => ran

/-- Runs a command, and strips quiet calls at every depth. -/
def runStripped (watched : Bool) : Nat → Runner n k ω
  | 0 => runCommand watched 0
  | fuel + 1 => stripLevel stripped watched (runStripped watched fuel)

end

variable {run run' : Runner n k ω} {spec spec' : Fifo.Runner k ω} {budget : Nat}
  {stripped : Reach → Command k ω → Scene k ω → List (Element k ω) → Bool}

namespace Runner.Follows

/-- What runs inside a call is followed like the commands of a caller. -/
theorem runInside (hrun : run.Follows spec budget) (reach : Reach) (insides : List (Inside k ω))
    {scene : Scene k ω} {r : Ring n k ω} {f : Fifo k ω} {m : Marks}
    (hcommands : ∀ c, .command c ∈ insides → c.depth + iteratorsDepth scene.iterators ≤ budget)
    (hiterators : iteratorsDepth scene.iterators ≤ budget) (h : r.Represents f m) :
    ∃ f' m',
      Fifo.runInside (n.size - 1) spec reach insides scene f =
        some ((runInside run reach insides scene r).1, f') ∧
      After reach scene f m (Spsc.runInside run reach insides scene r).1
        (Spsc.runInside run reach insides scene r).2 f' m' := by
  induction insides generalizing scene r f m with
  | nil => exact ⟨f, m, rfl, .refl reach scene h⟩
  | cons inside insides ih =>
      have hrest : ∀ scene' : Scene k ω,
          iteratorsDepth scene'.iterators ≤ iteratorsDepth scene.iterators →
          ∀ c, .command c ∈ insides → c.depth + iteratorsDepth scene'.iterators ≤ budget := by
        intro scene' hle c hc
        have hbefore := hcommands c (List.mem_cons_of_mem inside hc)
        omega
      cases inside with
      | command c =>
          obtain ⟨f₁, m₁, hspec, hafter⟩ :=
            hrun reach c scene r f m (hcommands c List.mem_cons_self) h
          have hle := hafter.iterators_le
          obtain ⟨f', m', hinside, hlast⟩ :=
            ih (hrest _ hle) (hle.trans hiterators) hafter.represents
          rw [Fifo.runInside_command hspec]
          exact ⟨f', m', hinside, hafter.trans hlast⟩
      | ask iterator =>
          obtain ⟨f₁, m₁, hspec, hafter⟩ :=
            hrun.ask reach iterator (p := ⟨scene, []⟩) hiterators h
          have hle := hafter.iterators_le
          obtain ⟨f', m', hinside, hlast⟩ :=
            ih (hrest _ hle) (hle.trans hiterators) hafter.represents
          rw [Fifo.runInside_ask hspec]
          exact ⟨f', m', hinside, hafter.trans hlast⟩

/-- What runs inside a quiet call is followed within the budget of the call. -/
theorem runInside_of_quiet (hrun : run.Follows spec budget) {reach : Reach} {c : Command k ω}
    {scene : Scene k ω} {r : Ring n k ω} {f : Fifo k ω} {m : Marks} {reply : Reply k ω}
    {events : List (Event k ω)} {insides : List (Inside k ω)}
    (hdepth : c.depth + iteratorsDepth scene.iterators ≤ budget + 1) (h : r.Represents f m)
    (hquiet : c.quiet? reply events = some insides) :
    ∃ f' m',
      Fifo.runInside (n.size - 1) spec (c.insideReach reach) insides scene f =
        some ((Spsc.runInside run (c.insideReach reach) insides scene r).1, f') ∧
      After reach scene f m (Spsc.runInside run (c.insideReach reach) insides scene r).1
        (Spsc.runInside run (c.insideReach reach) insides scene r).2 f' m' := by
  have hcommands : ∀ c', .command c' ∈ insides →
      c'.depth + iteratorsDepth scene.iterators ≤ budget := by
    intro c' hc'
    have hlt := Command.depth_lt_of_quiet hquiet hc'
    omega
  have hpos := c.depth_pos
  obtain ⟨f', m', hinside, hafter⟩ :=
    hrun.runInside (c.insideReach reach) insides hcommands (by omega) h
  exact ⟨f', m', hinside, hafter.of_inside⟩

/-- Stripping a ring's quiet calls follows stripping a list's. -/
theorem stripLevel (hrun : run.Follows spec budget) (watched : Bool) :
    Runner.Follows (stripLevel stripped watched run)
      (Fifo.stripLevel stripped (n.size - 1) watched spec) (budget + 1) := by
  intro reach c scene r f m hdepth h
  obtain ⟨f₁, m₁, hspec, hafter⟩ := hrun.runLevel watched reach c scene r f m hdepth h
  unfold Spsc.stripLevel Fifo.stripLevel
  simp only [hspec, Option.bind_eq_bind, Option.bind_some, ← h.queue_eq]
  cases hquiet : c.quiet? (Spsc.runLevel watched run reach c scene r).result
      (Spsc.runLevel watched run reach c scene r).events with
  | none => exact ⟨f₁, m₁, rfl, hafter⟩
  | some insides =>
      simp only
      split
      · obtain ⟨f', m', hinside, hafter'⟩ := hrun.runInside_of_quiet hdepth h hquiet
        rw [hinside]
        exact ⟨f', m', rfl, hafter'⟩
      · exact ⟨f₁, m₁, rfl, hafter⟩

end Runner.Follows

theorem runStripped_follows (stripped : Reach → Command k ω → Scene k ω → List (Element k ω) → Bool)
    (watched : Bool) (fuel : Nat) :
    Runner.Follows (runStripped stripped watched fuel : Runner n k ω)
      (Fifo.runStripped stripped (n.size - 1) watched fuel) fuel := by
  induction fuel with
  | zero => exact runCommand_follows watched 0 (Nat.le_refl _) (Nat.le_refl _)
  | succ fuel ih => exact ih.stripLevel watched

/-! ## Cursors -/

namespace Ring.Represents

variable {r r' : Ring n k ω} {f f' : Fifo k ω} {m m' : Marks}

/-- The head and the length of the queue give the tail. -/
theorem tail_eq_of_head_eq (h : r.Represents f m) (h' : r'.Represents f' m')
    (hqueue : f'.queue = f.queue) (hhead : r'.head = r.head) : r'.tail = r.tail := by
  rw [h.head, h'.head, SlotCount.cursor_eq_iff] at hhead
  rw [h.tail, h'.tail, SlotCount.cursor_eq_iff, Fifo.appended, Fifo.appended, hqueue]
  exact hhead.add_right _

/-- The tail and the length of the queue give the head. -/
theorem head_eq_of_tail_eq (h : r.Represents f m) (h' : r'.Represents f' m')
    (hqueue : f'.queue = f.queue) (htail : r'.tail = r.tail) : r'.head = r.head := by
  rw [h.tail, h'.tail, SlotCount.cursor_eq_iff, Fifo.appended, Fifo.appended, hqueue] at htail
  rw [h.head, h'.head, SlotCount.cursor_eq_iff]
  exact htail.add_right_cancel' _

end Ring.Represents

/-- Rings that hold the same queue, with one cursor in the same place, have both there. -/
theorem cursors_eq {r r' : Ring n k ω} {f f' : Fifo k ω} {m m' : Marks} (handle : Handle)
    (h : r.Represents f m) (h' : r'.Represents f' m') (hqueue : f'.queue = f.queue)
    (hcursor : handle.cursor r' = handle.cursor r) : r'.head = r.head ∧ r'.tail = r.tail := by
  cases handle with
  | producer => exact ⟨h.head_eq_of_tail_eq h' hqueue hcursor, hcursor⟩
  | consumer => exact ⟨hcursor, h.tail_eq_of_head_eq h' hqueue hcursor⟩

/-! ## Sessions that are alike -/

namespace Session

/-- Runs a command of a session by this runner, and reports it. -/
def execWith (run : Runner n k ω) (s : Session n k ω) :
    SessionCommand k ω → Report k ω × Session n k ω
  | .command c =>
    let ran := run s.alive c s.scene s.ring
    (report s.alive ran.result ran.events ran.ring, { s with scene := ran.scene, ring := ran.ring })
  | .dropProducer =>
    let (existed, events, s) := s.dropProducer
    (report s.alive (.dropped existed) events s.ring, s)
  | .dropConsumer =>
    let (existed, events, s) := s.dropConsumer
    (report s.alive (.dropped existed) events s.ring, s)

/-- Runs the commands of a session in turn by this runner. -/
def execAllWith (run : Runner n k ω) :
    List (SessionCommand k ω) → Session n k ω → List (Report k ω) × Session n k ω
  | [], s => ([], s)
  | c :: cs, s =>
    let (first, s) := execWith run s c
    let (rest, s) := execAllWith run cs s
    (first :: rest, s)

theorem execAllWith_runCommand (watched : Bool) (fuel : Nat)
    (commands : List (SessionCommand k ω)) (s : Session n k ω) :
    execAllWith (runCommand watched fuel) commands s = execAll watched fuel commands s := by
  induction commands generalizing s with
  | nil => rfl
  | cons c cs ih =>
      have hexec : execWith (runCommand watched fuel) s c = exec watched fuel s c := by
        cases c <;> rfl
      rw [execAllWith, execAll, hexec]
      simp only [ih]

/-- The rings of two sessions hold queues that are alike. -/
structure Alike (s s' : Session n k ω) : Prop where
  alive : s'.alive = s.alive
  rings : ∃ f m f' m', s.ring.Represents f m ∧ s'.ring.Represents f' m' ∧
    Spsc.Alike .nothing s.scene f s'.scene f'

/-- Two sessions gave the same reports, hold the same queue and would end with the same
words. -/
structure Same (a b : List (Report k ω) × Session n k ω) : Prop where
  reports : b.1 = a.1
  queue : b.2.ring.queue = a.2.ring.queue
  finish : b.2.finish = a.2.finish

/-- A step of the session `s` gave the same report on both sides and left sessions that are
alike, with no more in the iterators. -/
structure Stepped (s : Session n k ω) (a b : Report k ω × Session n k ω) : Prop where
  report : b.1 = a.1
  alike : a.2.Alike b.2
  iterators_le : iteratorsDepth a.2.scene.iterators ≤ iteratorsDepth s.scene.iterators

variable {s s' : Session n k ω}

theorem Alike.queue_eq (h : s.Alike s') : s'.ring.queue = s.ring.queue := by
  obtain ⟨f, m, f', m', hr, hr', halike⟩ := h.rings
  rw [hr.queue_eq, hr'.queue_eq, halike.queue]

theorem Alike.finish_eq (h : s.Alike s') : s'.finish = s.finish := by
  obtain ⟨f, m, f', m', hr, hr', halike⟩ := h.rings
  rw [Session.finish_eq hr, Session.finish_eq hr', h.alive, Fifo.lastWords, Fifo.lastWords,
    halike.queue]

/-- A command of a session. -/
theorem Alike.command {budget : Nat} (hrun : run.Follows spec budget)
    (hrun' : run'.Follows spec' budget) (hspec : spec.Alike spec') {c : Command k ω}
    (hdepth : c.depth + iteratorsDepth s.scene.iterators ≤ budget)
    (hinit : c.initialises = true) (h : s.Alike s') :
    Stepped s (execWith run s (.command c)) (execWith run' s' (.command c)) := by
  obtain ⟨alive, scene, r⟩ := s
  obtain ⟨alive', scene', r'⟩ := s'
  obtain ⟨halive, f, m, f', m', hr, hr', halike⟩ := h
  obtain rfl : alive' = alive := halive
  have hdepth' : c.depth + iteratorsDepth scene'.iterators ≤ budget := by
    rwa [halike.iterators]
  obtain ⟨f₁, m₁, hlist, hafter⟩ := hrun alive' c scene r f m hdepth hr
  obtain ⟨f₂, m₂, hlist', hafter'⟩ := hrun' alive' c scene' r' f' m' hdepth' hr'
  have hrel := hspec alive' c .nothing scene f scene' f' (.inr ⟨rfl, hinit⟩) halike
  rw [hlist, hlist'] at hrel
  cases hrel with
  | some hran =>
      refine ⟨?_, ⟨rfl, f₁, m₁, f₂, m₂, hafter.represents, hafter'.represents, hran.state⟩,
        hafter.iterators_le⟩
      have hresult : (run' alive' c scene' r').result = (run alive' c scene r).result :=
        hran.result
      have hevents : (run' alive' c scene' r').events = (run alive' c scene r).events :=
        hran.events
      simp only [execWith]
      rw [hafter.represents.report_eq, hafter'.represents.report_eq, hresult, hevents,
        hran.state.report_eq]

/-- The end of the producer. -/
theorem Alike.dropProducer (run run' : Runner n k ω) (h : s.Alike s') :
    Stepped s (execWith run s .dropProducer) (execWith run' s' .dropProducer) := by
  obtain ⟨alive, scene, r⟩ := s
  obtain ⟨alive', scene', r'⟩ := s'
  obtain ⟨halive, f, m, f', m', hr, hr', halike⟩ := h
  obtain rfl : alive' = alive := halive
  simp only [execWith, dropProducer_eq (s := ⟨alive', scene, r⟩) hr,
    dropProducer_eq (s := ⟨alive', scene', r'⟩) hr', hr.report_eq, hr'.report_eq, Fifo.lastWords,
    halike.queue, halike.report_eq]
  exact ⟨rfl, ⟨rfl, f, m, f', m', hr, hr', halike⟩, Nat.le_refl _⟩

/-- The end of the consumer. -/
theorem Alike.dropConsumer (run run' : Runner n k ω) (h : s.Alike s') :
    Stepped s (execWith run s .dropConsumer) (execWith run' s' .dropConsumer) := by
  obtain ⟨alive, scene, r⟩ := s
  obtain ⟨alive', scene', r'⟩ := s'
  obtain ⟨halive, f, m, f', m', hr, hr', halike⟩ := h
  obtain rfl : alive' = alive := halive
  simp only [execWith, dropConsumer_eq (s := ⟨alive', scene, r⟩) hr,
    dropConsumer_eq (s := ⟨alive', scene', r'⟩) hr', hr.report_eq, hr'.report_eq, Fifo.lastWords,
    halike.queue, halike.report_eq]
  exact ⟨rfl, ⟨rfl, f, m, f', m', hr, hr', halike⟩, Nat.le_refl _⟩

/-- Sessions that are alike report the same, and stay alike. -/
theorem Alike.execAll {budget : Nat} (hrun : run.Follows spec budget)
    (hrun' : run'.Follows spec' budget) (hspec : spec.Alike spec')
    (commands : List (SessionCommand k ω))
    (hdepth : ∀ c, .command c ∈ commands → c.depth + iteratorsDepth s.scene.iterators ≤ budget)
    (hinit : ∀ c, .command c ∈ commands → c.initialises = true) (h : s.Alike s') :
    Same (execAllWith run commands s) (execAllWith run' commands s') := by
  induction commands generalizing s s' with
  | nil => exact ⟨rfl, h.queue_eq, h.finish_eq⟩
  | cons c cs ih =>
      have hlater : ∀ c', .command c' ∈ cs → c'.initialises = true :=
        fun c' hc' => hinit c' (List.mem_cons_of_mem c hc')
      have hfewer : ∀ t : Session n k ω,
          iteratorsDepth t.scene.iterators ≤ iteratorsDepth s.scene.iterators →
          ∀ c', .command c' ∈ cs → c'.depth + iteratorsDepth t.scene.iterators ≤ budget := by
        intro t hle c' hc'
        have hbefore := hdepth c' (List.mem_cons_of_mem c hc')
        omega
      have hstep : Stepped s (execWith run s c) (execWith run' s' c) := by
        cases c with
        | command c =>
            exact h.command hrun hrun' hspec (hdepth c List.mem_cons_self)
              (hinit c List.mem_cons_self)
        | dropProducer => exact h.dropProducer run run'
        | dropConsumer => exact h.dropConsumer run run'
      obtain ⟨hreports, hqueue, hfinish⟩ := ih (hfewer _ hstep.iterators_le) hlater hstep.alike
      exact ⟨congrArg₂ List.cons hstep.report hreports, hqueue, hfinish⟩

end Session

/-! ## Quiet calls -/

/-- Nothing is left of a call but what came about otherwise: the cursors and what is queued
are the same, and whatever is done afterwards comes to the same, if it fills the slots that it
publishes. -/
structure Traceless (watched : Bool) (call alone : Scene k ω × Ring n k ω) : Prop where
  head : alone.2.head = call.2.head
  tail : alone.2.tail = call.2.tail
  queue : alone.2.queue = call.2.queue
  later : ∀ (alive : Reach) (commands : List (SessionCommand k ω)) (fuel : Nat),
    (Script.mk call.1.iterators commands).depth ≤ fuel →
    (∀ c, .command c ∈ commands → c.initialises = true) →
    Session.Same (Session.execAll watched fuel commands ⟨alive, call.1, call.2⟩)
      (Session.execAll watched fuel commands ⟨alive, alone.1, alone.2⟩)

theorem Command.exists_handle_of_quiet {c : Command k ω} {reply : Reply k ω}
    {events : List (Event k ω)} {insides : List (Inside k ω)}
    (hquiet : c.quiet? reply events = some insides) : ∃ handle, c.handle? = some handle := by
  cases c with
  | pull iterator => cases hquiet
  | _ => exact ⟨_, rfl⟩

/-- A quiet call, and what runs inside it, on a ring that holds a queue. -/
theorem Ring.Represents.traceless {r : Ring n k ω} {f : Fifo k ω} {m : Marks}
    (h : r.Represents f m) (watched : Bool) {fuel : Nat} {reach : Reach} {c : Command k ω}
    {scene : Scene k ω} {insides : List (Inside k ω)}
    (hdepth : c.depth + iteratorsDepth scene.iterators ≤ fuel + 1)
    (hquiet : c.quiet? (runCommand watched (fuel + 1) reach c scene r).result
      (runCommand watched (fuel + 1) reach c scene r).events = some insides) :
    Traceless watched
      ((runCommand watched (fuel + 1) reach c scene r).scene,
        (runCommand watched (fuel + 1) reach c scene r).ring)
      (runInside (runCommand watched fuel) (c.insideReach reach) insides scene r) := by
  have hfollows : Runner.Follows (runCommand watched fuel : Runner n k ω)
      (Fifo.runCommand (n.size - 1) watched fuel) fuel :=
    runCommand_follows watched fuel (Nat.le_refl _) (Nat.le_refl _)
  rw [runCommand_succ] at hquiet ⊢
  obtain ⟨f₁, m₁, hspec, hafter⟩ := hfollows.runLevel watched reach c scene r f m hdepth h
  obtain ⟨f₂, m₂, hinside, hinsides⟩ := hfollows.runInside_of_quiet hdepth h hquiet
  -- on lists, what the call leaves is like what runs inside it leaves
  obtain ⟨scene', f', hleaves, halike⟩ :=
    (Fifo.runCommand_alike (n.size - 1) watched fuel).runLevel_inside hspec hquiet (.inr rfl)
      (.refl _ _)
  rw [hinside] at hleaves
  cases hleaves
  have hqueue : f₂.queue = f₁.queue := halike.queue
  -- neither moves the cursor of the call's handle
  obtain ⟨handle, hhandle⟩ := Command.exists_handle_of_quiet hquiet
  have hreach : (c.insideReach reach).has handle = false := by
    rw [Command.insideReach, hhandle]
    exact Runner.Leaves.has_without reach handle
  have hcall := (runCommand_leaves watched fuel handle).runLevel_of_quiet hhandle watched scene r
    (Option.isSome_of_eq_some hquiet)
  have halone := (runCommand_leaves watched fuel handle).runInside hreach insides scene r
  obtain ⟨hhead, htail⟩ := cursors_eq handle hafter.represents hinsides.represents hqueue
    (halone.trans hcall.symm)
  refine ⟨hhead, htail, ?_, ?_⟩
  · rw [hafter.represents.queue_eq, hinsides.represents.queue_eq, hqueue]
  · intro alive commands fuel' hfuel hinit
    rw [← Session.execAllWith_runCommand, ← Session.execAllWith_runCommand]
    have hfollows' : Runner.Follows (runCommand watched fuel' : Runner n k ω)
        (Fifo.runCommand (n.size - 1) watched fuel') fuel' :=
      runCommand_follows watched fuel' (Nat.le_refl _) (Nat.le_refl _)
    refine Session.Alike.execAll hfollows' hfollows'
      (Fifo.runCommand_alike (n.size - 1) watched fuel') commands ?_ hinit
      ⟨rfl, f₁, m₁, f₂, m₂, hafter.represents, hinsides.represents, halike⟩
    intro c' hc'
    exact (Script.depth_le (Script.mk _ commands) hc').trans hfuel

/-- A session whose quiet calls are stripped, at every depth, comes to the same. -/
theorem Ring.Represents.same_stripped {s : Session n k ω} {f : Fifo k ω} {m : Marks}
    (h : s.ring.Represents f m)
    (stripped : Reach → Command k ω → Scene k ω → List (Element k ω) → Bool) (watched : Bool)
    {fuel : Nat} (commands : List (SessionCommand k ω))
    (hfuel : (Script.mk s.scene.iterators commands).depth ≤ fuel)
    (hinit : ∀ c, .command c ∈ commands → c.initialises = true) :
    Session.Same (Session.execAll watched fuel commands s)
      (Session.execAllWith (runStripped stripped watched fuel) commands s) := by
  rw [← Session.execAllWith_runCommand]
  refine Session.Alike.execAll
    (runCommand_follows watched fuel (Nat.le_refl _) (Nat.le_refl _))
    (runStripped_follows stripped watched fuel)
    (Fifo.runStripped_alike (n.size - 1) watched fuel) commands ?_ hinit
    ⟨rfl, f, m, f, m, h, h, .refl _ _⟩
  intro c hc
  exact (Script.depth_le (Script.mk s.scene.iterators commands) hc).trans hfuel

/-- A call that publishes nothing and removes nothing leaves what ran inside it, in every state
of a ring; and whatever is done afterwards comes to the same, as long as it fills the slots
that it publishes.  It is so for the calls of a session and for those that are nested in them:
a session of which quiet calls are stripped comes to the same. -/
theorem quiet_calls_traceless (watched : Bool) (n : SlotCount) (blank : Element k ω) :
    (∀ (r : Ring n k ω) (fuel : Nat) (reach : Reach) (c : Command k ω) (scene : Scene k ω)
        (insides : List (Inside k ω)),
      r.Arises blank → c.depth + iteratorsDepth scene.iterators ≤ fuel + 1 →
      c.quiet? (runCommand watched (fuel + 1) reach c scene r).result
        (runCommand watched (fuel + 1) reach c scene r).events = some insides →
      Traceless watched
        ((runCommand watched (fuel + 1) reach c scene r).scene,
          (runCommand watched (fuel + 1) reach c scene r).ring)
        (runInside (runCommand watched fuel) (c.insideReach reach) insides scene r)) ∧
    ∀ (s : Session n k ω) (fuel : Nat) (commands : List (SessionCommand k ω))
        (stripped : Reach → Command k ω → Scene k ω → List (Element k ω) → Bool),
      s.ring.Arises blank → (Script.mk s.scene.iterators commands).depth ≤ fuel →
      (∀ c, .command c ∈ commands → c.initialises = true) →
      Session.Same (Session.execAll watched fuel commands s)
        (Session.execAllWith (runStripped stripped watched fuel) commands s) := by
  constructor
  · intro r fuel reach c scene insides harises hdepth hquiet
    obtain ⟨f, m, h⟩ := harises.represents
    exact h.traceless watched hdepth hquiet
  · intro s fuel commands stripped harises hfuel hinit
    obtain ⟨f, m, h⟩ := harises.represents
    exact h.same_stripped stripped watched commands hfuel hinit

/-- A batch that fails at its second copy; the consumer pops before the first. -/
def failingBatch : Command 1 Nat :=
  .pushBatch [.mk (.replicate 1 6) [.pop] false, .mk (.replicate 1 7) [] true]

/-- A ring that holds one element. -/
def holdingOne (n : SlotCount) : Ring n 1 Nat :=
  (runCommand true 1 {} (.push (.replicate 1 5)) { iterators := [] }
    (.new n (.replicate 1 0))).ring

theorem failingBatch_traceless :
    Traceless true
        ((runCommand true 2 {} failingBatch { iterators := [] }
            (holdingOne ⟨2, by decide, by decide⟩)).scene,
          (runCommand true 2 {} failingBatch { iterators := [] }
            (holdingOne ⟨2, by decide, by decide⟩)).ring)
        (runInside (runCommand true 1) { producer := false } [.command .pop] { iterators := [] }
          (holdingOne ⟨2, by decide, by decide⟩)) ∧
      Session.Same
        (Session.execAll true 2 [.command failingBatch, .command .pop]
          { scene := { iterators := [] }, ring := holdingOne ⟨2, by decide, by decide⟩ })
        (Session.execAllWith (runStripped (fun _ _ _ _ => true) true 2)
          [.command failingBatch, .command .pop]
          { scene := { iterators := [] }, ring := holdingOne ⟨2, by decide, by decide⟩ }) := by
  have harises : (holdingOne ⟨2, by decide, by decide⟩).Arises (.replicate 1 0) :=
    .command .new true {} (.push (.replicate 1 5)) { iterators := [] } (by decide)
  have hquiet : failingBatch.quiet?
      (runCommand true 2 {} failingBatch { iterators := [] }
        (holdingOne ⟨2, by decide, by decide⟩)).result
      (runCommand true 2 {} failingBatch { iterators := [] }
        (holdingOne ⟨2, by decide, by decide⟩)).events = some [.command .pop] := by
    rfl
  have hinit : ∀ c, .command c ∈ [SessionCommand.command failingBatch, .command .pop] →
      c.initialises = true := by
    intro c hc
    simp only [List.mem_cons, List.not_mem_nil, or_false, SessionCommand.command.injEq] at hc
    rcases hc with rfl | rfl <;> rfl
  have hresult := quiet_calls_traceless true ⟨2, by decide, by decide⟩
    (.replicate 1 0 : Element 1 Nat)
  exact ⟨hresult.1 _ 1 {} failingBatch _ _ harises (by decide) hquiet,
    hresult.2 _ 2 _ (fun _ _ _ _ => true) harises (by decide) hinit⟩

end LockFreeRings.Spsc
