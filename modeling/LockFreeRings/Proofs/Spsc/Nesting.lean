import LockFreeRings.Proofs.Spsc.Callbacks
set_option autoImplicit false

/-!
# Sessions are runs on a list

A session on a ring reports what the same session on a bounded list does
(`Script.run_eq_onFifo`).  Every command runs code of its caller with its own
handle taken away, so while a producer's command runs the list may lose elements at
the front, and while a consumer's command runs it may gain some at the back; what a
command holds is still there afterwards.

The induction is on the budget for nesting.  Both sides may be given more fuel than
the budget.
-/

namespace LockFreeRings.Spsc

variable {n : SlotCount} {k : Nat} {ω : Type} {watched : Bool}

theorem copiesDepth_take (copies : List (Copy k ω)) (i : Nat) :
    copiesDepth (copies.take i) ≤ copiesDepth copies := by
  induction copies generalizing i with
  | nil => rw [List.take_nil]
  | cons copy copies ih =>
      obtain ⟨value, before, fails⟩ := copy
      cases i with
      | zero => exact Nat.zero_le _
      | succ i =>
          have hrest := ih i
          rw [List.take_succ_cons, copiesDepth, copiesDepth]
          omega

variable {run : Runner n k ω} {spec : Fifo.Runner k ω} {budget : Nat} {reach : Reach}
  {scene : Scene k ω} {r : Ring n k ω} {f : Fifo k ω} {m : Marks}

/-! ## Commands that run nothing else, and the ends of holds -/

theorem Ring.Represents.push_agrees (h : r.Represents f m) (hreach : reach.producer = true)
    (v : Element k ω) :
    (runProducer watched run reach (.push v) scene r).Agrees reach scene f m
      (Fifo.runProducer (n.size - 1) watched spec reach (.push v) scene f) := by
  rw [Spsc.runProducer, Fifo.runProducer]
  rcases Nat.lt_or_ge f.queue.length (n.size - 1) with hroom | hfull
  · obtain ⟨m', hkeeps, hpushed, hr⟩ := h.push_of_room hroom v
    rw [if_neg hroom.ne]
    simp only [hpushed, if_true, Option.bind_eq_bind, Option.bind_some, hr.appendWithin_eq]
    exact ⟨f.append [v], m', rfl, .of_producer hreach rfl hr hkeeps⟩
  · have hle := h.length_queue_le
    have hfull : f.queue.length = n.size - 1 := by omega
    obtain ⟨m', hkeeps, hpushed, hr⟩ := h.push_of_full hfull v
    rw [if_pos hfull]
    simp only [hpushed, Bool.false_eq_true, if_false]
    exact ⟨f, m', rfl, .of_producer hreach rfl hr hkeeps⟩

/-- How the hold on a slot that is held for writing ends. -/
theorem Ring.Drafts.endWrite_eq {start : Nat} (h : r.Drafts f m start [] 1)
    (hreach : reach.producer = true) (ending : WriteEnding k ω) (scene : Scene k ω) :
    ∃ outcome scene' r' f',
      endWrite (n.cursor start) ending scene r = (outcome, scene', r') ∧
      Fifo.endWrite (n.size - 1) ending scene f = some (outcome, scene', f') ∧
      After reach scene f m scene' r' f' m := by
  cases ending with
  | write v =>
      have hwritten := (h.store v).commitWrite
      rw [List.length_nil, Nat.add_zero, Fifo.put_zero_append] at hwritten
      rw [Spsc.endWrite, Fifo.endWrite, hwritten.appendWithin_eq]
      exact ⟨_, _, _, _, rfl, rfl,
        .of_producer hreach rfl hwritten (f.keepsConsumer_append m [v])⟩
  | commit =>
      rw [Spsc.endWrite, Fifo.endWrite]
      split
      · obtain ⟨v, htake, hstored⟩ := h.stored_vacant
        rw [htake, hstored.commitWrite.appendWithin_eq]
        exact ⟨_, _, _, _, rfl, rfl,
          .of_producer hreach rfl hstored.commitWrite (f.keepsConsumer_append m [v])⟩
      · exact ⟨_, _, _, _, rfl, rfl, .refl reach scene h.represents⟩
  | abandon => exact ⟨_, _, _, _, rfl, rfl, .refl reach scene h.represents⟩

theorem Ring.Represents.pop_agrees (h : r.Represents f m) (hreach : reach.consumer = true) :
    (runConsumer watched run reach .pop scene r).Agrees reach scene f m
      (Fifo.runConsumer (n.size - 1) watched spec reach .pop scene f) := by
  unfold Spsc.runConsumer Fifo.runConsumer
  cases hqueue : f.queue with
  | nil =>
      obtain ⟨m', hkeeps, hpopped, hr⟩ := h.pop_of_empty (by rw [hqueue]; rfl)
      simp only [hpopped]
      exact ⟨f, m', rfl, .of_consumer hreach scene hr hkeeps⟩
  | cons v vs =>
      obtain ⟨m', hkeeps, hpopped, hr⟩ := h.pop_of_cons hqueue
      simp only [hpopped]
      exact ⟨f.remove 1, m', rfl, .of_consumer hreach scene hr hkeeps⟩

theorem Ring.Represents.popBatch_agrees (h : r.Represents f m) (hreach : reach.consumer = true)
    (limit : UInt64) (out : List (Element k ω)) :
    (runConsumer watched run reach (.popBatch limit out) scene r).Agrees reach scene f m
      (Fifo.runConsumer (n.size - 1) watched spec reach (.popBatch limit out) scene f) := by
  obtain ⟨m', hkeeps, hpopped, hr⟩ := h.popBatch_eq limit
  unfold Spsc.runConsumer Fifo.runConsumer
  simp only [hpopped, List.length_take, Nat.min_comm limit.toNat]
  exact ⟨_, m', rfl, .of_consumer hreach scene hr hkeeps⟩

/-- How the hold on a slot that is held for reading ends. -/
theorem Ring.Holds.endRead_eq {front : Nat} (h : r.Holds f m front)
    (hreach : reach.consumer = true) (watched : Bool) (ending : ReadEnding) (scene : Scene k ω) :
    ∃ outcome events r' f' m',
      endRead watched (n.cursor front) ending r = (outcome, events, r') ∧
      Fifo.endRead watched ending f = some (outcome, events, f') ∧
      After reach scene f m scene r' f' m' := by
  obtain ⟨v, vs, hqueue, hread⟩ := h.exists_head
  have hpos : 1 ≤ f.queue.length := by rw [hqueue]; exact Nat.succ_pos _
  have hreleased : After reach scene f m scene r.releaseRead (f.remove 1) _ :=
    .of_consumer hreach scene h.release (f.keepsProducer_remove m hpos)
  rw [Fifo.endRead, hqueue]
  cases ending with
  | release =>
      rw [Spsc.endRead, hread]
      exact ⟨_, _, _, _, _, rfl, rfl, hreleased⟩
  | take =>
      rw [Spsc.endRead, hread]
      exact ⟨_, _, _, _, _, rfl, rfl, hreleased⟩
  | releaseFails =>
      rw [Spsc.endRead, hread]
      exact ⟨_, _, _, _, _, rfl, rfl, .refl reach scene h.represents⟩
  | keep => exact ⟨_, _, _, _, _, rfl, rfl, .refl reach scene h.represents⟩

namespace Runner.Follows

/-! ## The producer's commands -/

/-- A batch appends what was copied, or nothing when a copy failed. -/
theorem pushCopies (hrun : run.Follows spec budget) (hreach : reach.producer = true)
    (watched : Bool) (copies : List (Copy k ω)) {p : Progress k ω}
    (hdepth : copiesDepth copies + iteratorsDepth p.scene.iterators ≤ budget)
    (h : r.Represents f m) :
    ∃ drafted? p' r' f' m',
      Ring.pushCopies (makeCopy watched run { reach with producer := false }) copies p r =
        (drafted?.map List.length, p', r') ∧
      Fifo.copyAll (n.size - 1) watched spec { reach with producer := false }
        (copies.take (min copies.length (n.size - 1 - f.queue.length))) [] p f =
          some (drafted?, p', f') ∧
      After reach p.scene f m p'.scene r' (drafted?.elim f' f'.append) m' := by
  obtain ⟨m₁, hkeeps, hdrafts, hmin⟩ := (Ring.Drafts.new h).findRoom (Ring.sliceLength copies)
  rw [List.length_nil, Nat.add_zero, ← h.tail] at hmin hdrafts
  generalize hfind : r.room r.tail (Ring.sliceLength copies) = found at hmin hdrafts
  obtain ⟨room, r₁⟩ := found
  have hroom := room.toNat_lt
  -- what is wanted is as many as are given, as far as a word can say
  have hcount : min room.toNat copies.length =
      min copies.length (n.size - 1 - f.queue.length) := by
    have hsize := n.size_le
    rw [Ring.sliceLength, UInt64.toNat_ofNat'] at hmin
    simp only at hmin
    omega
  have hle : min copies.length (n.size - 1 - f.queue.length) ≤ room.toNat := by omega
  have hlength : (copies.take (min copies.length (n.size - 1 - f.queue.length))).length =
      min copies.length (n.size - 1 - f.queue.length) := by
    rw [List.length_take]
    omega
  have hfound : After reach p.scene f m p.scene r₁ f m₁ :=
    .of_producer hreach rfl hdrafts.represents hkeeps
  unfold Ring.pushCopies
  simp only [hfind, hcount]
  generalize min copies.length (n.size - 1 - f.queue.length) = count at hle hlength
  split
  · next hzero =>
    rw [hzero, List.take_zero, Fifo.copyAll]
    refine ⟨some [], p, r₁, f, m₁, rfl, rfl, ?_⟩
    rw [Option.elim_some, Fifo.append_nil]
    exact hfound
  · have hfewer := copiesDepth_take copies count
    have hwanted : r₁.Drafts f m₁ (f.appended m) [] (copies.take count).length := by
      rw [hlength]
      exact hdrafts.weaken hle
    obtain ⟨drafted?, p', r', f', m', hring, hlist, hafter, hdrafted⟩ :=
      hrun.writeCopies hreach watched (copies.take count) (p := p) (by omega) hwanted
    rw [List.length_nil, Nat.add_zero, ← h.tail] at hring
    rw [hring, hlist]
    cases drafted? with
    | none => exact ⟨none, p', r', f', m', rfl, rfl, hfound.trans hafter⟩
    | some vs =>
        obtain ⟨hvs, hdraft⟩ := hdrafted vs rfl
        rw [hlength, List.length_nil, Nat.zero_add] at hvs
        refine ⟨some vs, p', _, f', m', ?_, rfl, hfound.trans (hafter.trans
          (.of_producer hreach rfl hdraft.publish (f'.keepsConsumer_append m' vs)))⟩
        rw [Option.map_some, Option.map_some, hvs]

/-- A stream appends what its iterator answered, or nothing when it failed. -/
theorem pushPulls (hrun : run.Follows spec budget) (hreach : reach.producer = true)
    (iterator : Nat) (limit : Option UInt64) {p : Progress k ω}
    (hdepth : iteratorsDepth p.scene.iterators ≤ budget) (h : r.Represents f m) :
    ∃ drafted? limit' p' r' f' m',
      Ring.pushFrom (askWithin run { reach with producer := false } iterator) (limit, p) r =
        (drafted?.map List.length, (limit', p'), r') ∧
      Fifo.pullAll (n.size - 1) spec { reach with producer := false } iterator (n.size - 1) []
        limit p f = some (drafted?, p', f') ∧
      After reach p.scene f m p'.scene r' (drafted?.elim f' f'.append) m' := by
  obtain ⟨drafted?, limit', p', r', f', m', hring, hlist, hafter, hdrafted⟩ :=
    hrun.writePulls hreach iterator (n.size - 1) limit hdepth (Nat.zero_add _)
      (Ring.Drafts.new h)
  rw [Nat.sub_add_cancel n.size_pos, List.length_nil, Nat.add_zero, ← h.tail] at hring
  rw [Ring.pushFrom, hring]
  cases drafted? with
  | none => exact ⟨none, limit', p', r', f', m', rfl, hlist, hafter⟩
  | some vs =>
      have hpublish := (hdrafted vs rfl).publish_if_moved
      rw [← h.tail] at hpublish
      exact ⟨some vs, limit', p', _, f', m', rfl, hlist, hafter.trans
        (.of_producer hreach rfl hpublish (f'.keepsConsumer_append m' vs))⟩

theorem pushBatch (hrun : run.Follows spec budget) (hreach : reach.producer = true)
    (copies : List (Copy k ω))
    (hdepth : copiesDepth copies + iteratorsDepth scene.iterators ≤ budget)
    (h : r.Represents f m) :
    (runProducer watched run reach (.pushBatch copies) scene r).Agrees reach scene f m
      (Fifo.runProducer (n.size - 1) watched spec reach (.pushBatch copies) scene f) := by
  obtain ⟨drafted?, p', r', f', m', hring, hlist, hafter⟩ :=
    hrun.pushCopies hreach watched copies (p := ⟨{ scene with built := false }, []⟩) hdepth h
  rw [Spsc.runProducer, Fifo.runProducer, hring, hlist]
  cases drafted? with
  | none => exact ⟨f', m', rfl, hafter.represents, hafter.keeps, hafter.iterators_le⟩
  | some vs =>
      have hwithin := Ring.Represents.appendWithin_eq hafter.represents
      simp only [Option.bind_eq_bind, Option.bind_some, hwithin]
      exact ⟨f'.append vs, m', rfl, hafter.represents, hafter.keeps, hafter.iterators_le⟩

theorem pushFrom (hrun : run.Follows spec budget) (hreach : reach.producer = true)
    (iterator : Nat) (limit : Option UInt64) (hdepth : iteratorsDepth scene.iterators ≤ budget)
    (h : r.Represents f m) :
    (runProducer watched run reach (.pushFrom iterator limit) scene r).Agrees reach scene f m
      (Fifo.runProducer (n.size - 1) watched spec reach (.pushFrom iterator limit) scene f) := by
  obtain ⟨drafted?, limit', p', r', f', m', hring, hlist, hafter⟩ :=
    hrun.pushPulls hreach iterator limit (p := ⟨{ scene with built := false }, []⟩) hdepth h
  rw [Spsc.runProducer, Fifo.runProducer, hring, hlist]
  cases drafted? with
  | none => exact ⟨f', m', rfl, hafter.represents, hafter.keeps, hafter.iterators_le⟩
  | some vs =>
      have hwithin := Ring.Represents.appendWithin_eq hafter.represents
      simp only [Option.bind_eq_bind, Option.bind_some, hwithin]
      exact ⟨f'.append vs, m', rfl, hafter.represents, hafter.keeps, hafter.iterators_le⟩

theorem writeSlot (hrun : run.Follows spec budget) (hreach : reach.producer = true)
    (actions : List (WriteAction k ω)) (ending : WriteEnding k ω)
    (hdepth : writesDepth actions + iteratorsDepth scene.iterators ≤ budget)
    (h : r.Represents f m) :
    (runProducer watched run reach (.writeSlot actions ending) scene r).Agrees reach scene f m
      (Fifo.runProducer (n.size - 1) watched spec reach (.writeSlot actions ending) scene f) := by
  rw [Spsc.runProducer, Fifo.runProducer]
  rcases Nat.lt_or_ge f.queue.length (n.size - 1) with hroom | hfull
  · obtain ⟨m₁, hkeeps, hslot, hdrafts⟩ := h.acquireWrite_of_room hroom
    rcases hacquire : r.acquireWrite with ⟨slot?, r₁⟩
    rw [hacquire] at hslot hdrafts
    obtain rfl : slot? = some (n.cursor (f.appended m)) := hslot
    obtain ⟨replies, scene₂, r₂, f₂, m₂, hring, hlist, hafter, hheld⟩ :=
      hrun.runWrites hreach actions scene hdepth hdrafts
    obtain ⟨outcome, scene', r', f', hend, hendSpec, hlast⟩ :=
      hheld.endWrite_eq hreach ending scene₂
    rw [if_neg hroom.ne]
    simp only [hring, hlist, hend, Option.bind_eq_bind, Option.bind_some, hendSpec]
    exact ⟨f', m₂, rfl, .trans (.of_producer hreach rfl hdrafts.represents hkeeps)
      (hafter.trans hlast)⟩
  · have hle := h.length_queue_le
    have hfull : f.queue.length = n.size - 1 := by omega
    obtain ⟨m₁, hkeeps, hslot, hr⟩ := h.acquireWrite_of_full hfull
    rcases hacquire : r.acquireWrite with ⟨slot?, r₁⟩
    rw [hacquire] at hslot hr
    obtain rfl : slot? = none := hslot
    rw [if_pos hfull]
    exact ⟨f, m₁, rfl, .of_producer hreach rfl hr hkeeps⟩

theorem runProducer (hrun : run.Follows spec budget) (hreach : reach.producer = true)
    (c : Command k ω) (hdepth : c.depth + iteratorsDepth scene.iterators ≤ budget + 1)
    (h : r.Represents f m) :
    (runProducer watched run reach c scene r).Agrees reach scene f m
      (Fifo.runProducer (n.size - 1) watched spec reach c scene f) := by
  cases c with
  | push v => exact h.push_agrees hreach v
  | pushBatch copies =>
      rw [Command.depth] at hdepth
      exact hrun.pushBatch hreach copies (by omega) h
  | pushFrom iterator limit =>
      have hone : (Command.pushFrom iterator limit : Command k ω).depth = 1 := rfl
      exact hrun.pushFrom hreach iterator limit (by omega) h
  | writeSlot actions ending =>
      rw [Command.depth] at hdepth
      exact hrun.writeSlot hreach actions ending (by omega) h
  | _ => exact ⟨f, m, rfl, .refl reach scene h⟩

/-! ## The consumer's commands -/

theorem readSlot (hrun : run.Follows spec budget) (hreach : reach.consumer = true)
    (actions : List (ReadAction k ω)) (ending : ReadEnding)
    (hdepth : readsDepth actions + iteratorsDepth scene.iterators ≤ budget)
    (h : r.Represents f m) :
    (runConsumer watched run reach (.readSlot actions ending) scene r).Agrees reach scene f m
      (Fifo.runConsumer (n.size - 1) watched spec reach (.readSlot actions ending) scene f) := by
  rw [Spsc.runConsumer, Fifo.runConsumer]
  by_cases hempty : f.queue.length = 0
  · obtain ⟨m₁, hkeeps, hslot, hr⟩ := h.acquireRead_of_empty hempty
    rcases hacquire : r.acquireRead with ⟨slot?, r₁⟩
    rw [hacquire] at hslot hr
    obtain rfl : slot? = none := hslot
    rw [if_pos hempty]
    exact ⟨f, m₁, rfl, .of_consumer hreach scene hr hkeeps⟩
  · obtain ⟨m₁, hkeeps, hslot, hholds⟩ := h.acquireRead_of_ne hempty
    rcases hacquire : r.acquireRead with ⟨slot?, r₁⟩
    rw [hacquire] at hslot hholds
    obtain rfl : slot? = some (n.cursor m.removed) := hslot
    obtain ⟨replies, scene₂, r₂, f₂, m₂, hring, hlist, hafter, hheld⟩ :=
      hrun.runReads hreach actions scene hdepth hholds
    obtain ⟨outcome, events, r', f', m', hend, hendSpec, hlast⟩ :=
      hheld.endRead_eq hreach watched ending scene₂
    rw [if_neg hempty]
    simp only [hring, hlist, hend, Option.bind_eq_bind, Option.bind_some, hendSpec]
    exact ⟨f', m', rfl, .trans (.of_consumer hreach scene hholds.represents hkeeps)
      (hafter.trans hlast)⟩

theorem runConsumer (hrun : run.Follows spec budget) (hreach : reach.consumer = true)
    (c : Command k ω) (hdepth : c.depth + iteratorsDepth scene.iterators ≤ budget + 1)
    (h : r.Represents f m) :
    (runConsumer watched run reach c scene r).Agrees reach scene f m
      (Fifo.runConsumer (n.size - 1) watched spec reach c scene f) := by
  cases c with
  | pop => exact h.pop_agrees hreach
  | popBatch limit out => exact h.popBatch_agrees hreach limit out
  | readSlot actions ending =>
      rw [Command.depth] at hdepth
      exact hrun.readSlot hreach actions ending (by omega) h
  | _ => exact ⟨f, m, rfl, .refl reach scene h⟩

end Runner.Follows

/-! ## One level -/

/-- Runs a command; the commands inside it go through `run`. -/
def runLevel (watched : Bool) (run : Runner n k ω) : Runner n k ω := fun reach c scene r =>
  match c.handle? with
  | some .producer =>
    if reach.producer then runProducer watched run reach c scene r
    else ⟨.unavailable, [], scene, r⟩
  | some .consumer =>
    if reach.consumer then runConsumer watched run reach c scene r
    else ⟨.unavailable, [], scene, r⟩
  | none =>
    match c with
    | .pull iterator =>
      let (answer, p, r) := ask run { reach with producer := false } iterator ⟨scene, []⟩ r
      ⟨match answer with
        | .item v => .pulled (some v)
        | .ended => .pulled none
        | .failed => .pullFailed, p.events, p.scene, r⟩
    | _ => ⟨.unavailable, [], scene, r⟩

/-- Runs a command on a list; the commands inside it go through `run`. -/
def Fifo.runLevel (bound : Nat) (watched : Bool) (run : Fifo.Runner k ω) : Fifo.Runner k ω :=
  fun reach c scene f =>
    match c.handle? with
    | some .producer =>
      if reach.producer then Fifo.runProducer bound watched run reach c scene f
      else some ⟨.unavailable, [], scene, f⟩
    | some .consumer =>
      if reach.consumer then Fifo.runConsumer bound watched run reach c scene f
      else some ⟨.unavailable, [], scene, f⟩
    | none =>
      match c with
      | .pull iterator => do
        let (answer, p, f) ←
          Fifo.ask bound run { reach with producer := false } iterator ⟨scene, []⟩ f
        some ⟨match answer with
          | .item v => .pulled (some v)
          | .ended => .pulled none
          | .failed => .pullFailed, p.events, p.scene, f⟩
      | _ => some ⟨.unavailable, [], scene, f⟩

theorem runCommand_succ (watched : Bool) (fuel : Nat) :
    (runCommand watched (fuel + 1) : Runner n k ω) = runLevel watched (runCommand watched fuel) :=
  rfl

theorem Fifo.runCommand_succ (bound : Nat) (watched : Bool) (fuel : Nat) :
    (Fifo.runCommand bound watched (fuel + 1) : Fifo.Runner k ω) =
      Fifo.runLevel bound watched (Fifo.runCommand bound watched fuel) :=
  rfl

theorem Command.depth_pos (c : Command k ω) : 0 < c.depth := by
  cases c <;> exact Nat.succ_pos _

/-- A command is followed one level above those inside it. -/
theorem Runner.Follows.runLevel (hrun : run.Follows spec budget) (watched : Bool) :
    Runner.Follows (runLevel watched run) (Fifo.runLevel (n.size - 1) watched spec)
      (budget + 1) := by
  intro reach c scene r f m hdepth h
  unfold Spsc.runLevel Fifo.runLevel
  cases hhandle : c.handle? with
  | some handle =>
      cases handle with
      | producer =>
          simp only
          split
          · next hreach => exact hrun.runProducer hreach c hdepth h
          · exact ⟨f, m, rfl, .refl reach scene h⟩
      | consumer =>
          simp only
          split
          · next hreach => exact hrun.runConsumer hreach c hdepth h
          · exact ⟨f, m, rfl, .refl reach scene h⟩
  | none =>
      cases c with
      | pull iterator =>
          have hone : (Command.pull iterator : Command k ω).depth = 1 := rfl
          have hbudget : iteratorsDepth scene.iterators ≤ budget := by omega
          obtain ⟨f', m', hspec, hasked⟩ := hrun.ask { reach with producer := false } iterator
            (p := ⟨scene, []⟩) hbudget h
          simp only [hspec, Option.bind_eq_bind, Option.bind_some]
          refine ⟨f', m', rfl, hasked.represents, ?_, hasked.iterators_le⟩
          exact ⟨fun _ => hasked.keeps.producer rfl, hasked.keeps.consumer⟩
      | _ => cases hhandle

/-- What holds of every command one level below, and of the handles' own commands, holds of every
command. -/
theorem Runner.Within.runLevel {R : Ring n k ω → Ring n k ω → Prop} [IsPreorder (Ring n k ω) R]
    (hrun : run.Within { reach with producer := false } R)
    (hproducer : reach.producer = true → ∀ (c : Command k ω) (scene : Scene k ω) (r : Ring n k ω),
      R r (runProducer watched run reach c scene r).ring)
    (hconsumer : reach.consumer = true → ∀ (c : Command k ω) (scene : Scene k ω) (r : Ring n k ω),
      R r (runConsumer watched run reach c scene r).ring) :
    (runLevel watched run).Within reach R := by
  intro c scene r
  unfold Spsc.runLevel
  cases hhandle : c.handle? with
  | some handle =>
      cases handle with
      | producer =>
          simp only
          split
          · next hreach => exact hproducer hreach c scene r
          · exact refl_of R r
      | consumer =>
          simp only
          split
          · next hreach => exact hconsumer hreach c scene r
          · exact refl_of R r
  | none =>
      cases c with
      | pull iterator => exact hrun.ask iterator ⟨scene, []⟩ r
      | _ => cases hhandle

/-! ## Sessions -/

/-- Commands within a budget are followed, whatever fuel there is beyond it. -/
theorem runCommand_follows (watched : Bool) (budget : Nat) {fuel fuel' : Nat}
    (hfuel : budget ≤ fuel) (hfuel' : budget ≤ fuel') :
    Runner.Follows (runCommand watched fuel : Runner n k ω)
      (Fifo.runCommand (n.size - 1) watched fuel') budget := by
  induction budget generalizing fuel fuel' with
  | zero =>
      intro reach c scene r f m hdepth h
      have hpos := c.depth_pos
      omega
  | succ budget ih =>
      obtain ⟨fuel, rfl⟩ : ∃ i, fuel = i + 1 := ⟨fuel - 1, by omega⟩
      obtain ⟨fuel', rfl⟩ : ∃ i, fuel' = i + 1 := ⟨fuel' - 1, by omega⟩
      rw [runCommand_succ, Fifo.runCommand_succ]
      exact (ih (by omega) (by omega)).runLevel watched

namespace Session

variable {s : Session n k ω} {f : Fifo k ω} {m : Marks}

theorem dropProducer_eq (h : s.ring.Represents f m) :
    s.dropProducer = (s.alive.producer,
      if s.alive.producer ∧ ¬s.alive.consumer then Fifo.lastWords f else [],
      { s with alive.producer := false }) := by
  obtain ⟨⟨producer, consumer⟩, scene, ring⟩ := s
  cases producer <;> cases consumer <;> simp [dropProducer, lastWords, Fifo.lastWords, h.len_eq]

theorem dropConsumer_eq (h : s.ring.Represents f m) :
    s.dropConsumer = (s.alive.consumer,
      if s.alive.consumer ∧ ¬s.alive.producer then Fifo.lastWords f else [],
      { s with alive.consumer := false }) := by
  obtain ⟨⟨producer, consumer⟩, scene, ring⟩ := s
  cases producer <;> cases consumer <;> simp [dropConsumer, lastWords, Fifo.lastWords, h.len_eq]

/-- What is logged at the end. -/
theorem finish_eq (h : s.ring.Represents f m) :
    s.finish = if s.alive.producer ∨ s.alive.consumer then Fifo.lastWords f else [] := by
  rw [finish, dropProducer_eq h]
  have hdropped : ({ s with alive.producer := false } : Session n k ω).ring.Represents f m := h
  simp only [dropConsumer_eq hdropped]
  obtain ⟨⟨producer, consumer⟩, scene, ring⟩ := s
  cases producer <;> cases consumer <;> simp

/-- The reports of a session and what it logs at the end. -/
theorem execAll_eq {budget fuel fuel' : Nat} (hfuel : budget ≤ fuel) (hfuel' : budget ≤ fuel')
    (commands : List (SessionCommand k ω)) (s : Session n k ω) {f : Fifo k ω} {m : Marks}
    (hdepth : ∀ c, .command c ∈ commands → c.depth + iteratorsDepth s.scene.iterators ≤ budget)
    (h : s.ring.Represents f m) :
    Fifo.runSession (n.size - 1) watched fuel' commands s.alive s.scene f =
      some ((execAll watched fuel commands s).1, (execAll watched fuel commands s).2.finish) := by
  induction commands generalizing s f m with
  | nil => rw [Fifo.runSession, execAll, finish_eq h]
  | cons c cs ih =>
      have hlater : ∀ c', .command c' ∈ cs →
          c'.depth + iteratorsDepth s.scene.iterators ≤ budget := by
        intro c' hc'
        exact hdepth c' (List.mem_cons_of_mem c hc')
      cases c with
      | command c =>
          obtain ⟨f', m', hspec, hafter⟩ := runCommand_follows watched budget hfuel hfuel' s.alive
            c s.scene s.ring f m (hdepth c List.mem_cons_self) h
          generalize hran : runCommand watched fuel s.alive c s.scene s.ring = ran at hspec hafter
          have hle := hafter.iterators_le
          have hleft : ∀ c', .command c' ∈ cs →
              c'.depth + iteratorsDepth ran.scene.iterators ≤ budget := by
            intro c' hc'
            have hbefore := hlater c' hc'
            omega
          have hrest := ih { s with scene := ran.scene, ring := ran.ring } hleft hafter.represents
          rw [Fifo.runSession, hspec, execAll, exec, hran]
          simp only [Option.bind_eq_bind, Option.bind_some]
          rw [hrest, Option.bind_some, ← hafter.represents.report_eq]
      | dropProducer =>
          have hrest := ih { s with alive.producer := false } hlater h
          rw [Fifo.runSession, execAll, exec, dropProducer_eq h]
          simp only [Option.bind_eq_bind]
          rw [hrest, Option.bind_some, ← h.report_eq]
      | dropConsumer =>
          have hrest := ih { s with alive.consumer := false } hlater h
          rw [Fifo.runSession, execAll, exec, dropConsumer_eq h]
          simp only [Option.bind_eq_bind]
          rw [hrest, Option.bind_some, ← h.report_eq]

end Session

/-- A command of a script is nested at most as deeply as the script. -/
theorem Script.depth_le (script : Script k ω) {c : Command k ω}
    (hc : .command c ∈ script.commands) :
    c.depth + iteratorsDepth script.iterators ≤ script.depth := by
  unfold Script.depth
  refine Nat.add_le_add_right ?_ _
  rw [List.foldl_max]
  refine Nat.le_trans ?_ (Nat.le_max_right _ _)
  exact List.le_max?_getD_of_mem (List.mem_map_of_mem hc)

/-- What a session on a ring reports is what the session on a list of at most
`n.size - 1` elements reports, whatever its commands nest and wherever copies and
iterators fail. -/
theorem Script.run_eq_onFifo (script : Script k ω) {fuel : Nat} (hfuel : script.depth ≤ fuel)
    (watched : Bool) (n : SlotCount) (blank : Element k ω) :
    script.onFifo watched (n.size - 1) blank fuel = some (script.run watched n blank) := by
  rw [Script.onFifo, Nat.sub_add_cancel n.size_pos]
  refine Session.execAll_eq (Nat.le_refl _) hfuel script.commands
    { scene := { iterators := script.iterators }, ring := .new n blank } ?_
    (Ring.Represents.new n blank)
  intro c hc
  exact script.depth_le hc

/-- A batch whose copies let the consumer pop and fail in the end, and a stream whose
iterator pops before it answers and stops at the bound. -/
def interrupted : Script 1 Nat where
  iterators := [[⟨[.pop], .item #v[4]⟩, ⟨[], .item #v[5]⟩]]
  commands := [
    .command (.push #v[1]),
    .command (.pushBatch [.mk #v[2] [.pop, .pop] false, .mk #v[3] [] true]),
    .command (.pushFrom 0 none),
    .command (.readSlot [.read, .edit #v[6], .nested (.push #v[7])] .take)]

theorem interrupted_run :
    interrupted.depth ≤ 5 ∧
      interrupted.onFifo true 1 #v[0] 5 =
        some (interrupted.run true ⟨1, by decide, by decide⟩ #v[0]) := by
  have hdepth : interrupted.depth ≤ 5 := by decide
  exact ⟨hdepth, interrupted.run_eq_onFifo hdepth true ⟨1, by decide, by decide⟩ #v[0]⟩

end LockFreeRings.Spsc
