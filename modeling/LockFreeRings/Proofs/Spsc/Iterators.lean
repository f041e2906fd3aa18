import LockFreeRings.Proofs.Spsc.Nesting
set_option autoImplicit false

/-!
# What an iterator can do to a ring

An iterator is asked while the producer is borrowed, so it can use the consumer and no more
(`Ring.Consumes`).  This holds of the iterators of a session, however deeply their commands are
nested (`runCommand_consumes`): while an element is held the consumer is borrowed as well, and
commands that reach neither handle leave the ring alone (`ring_runCommand_of_neither`).

What the consumer does leaves the producer what it relies on (`Ring.Consumes.keeps`).
-/

namespace LockFreeRings.Spsc

variable {n : SlotCount} {k : Nat} {ω : Type}

/-! ## What the consumer does to a ring -/

/-- The second ring comes from the first by operations of the consumer.  An element is changed
in its slot or handed back by who holds the slot, and who holds it has found an element there. -/
inductive Ring.Consumes (r : Ring n k ω) : Ring n k ω → Prop where
  | refl : Consumes r r
  | pop {r' : Ring n k ω} (h : Consumes r r') : Consumes r r'.pop.2
  | popBatch {r' : Ring n k ω} (h : Consumes r r') (limit : UInt64) :
      Consumes r (r'.popBatch limit).2
  | acquire {r' : Ring n k ω} (h : Consumes r r') : Consumes r r'.acquireRead.2
  | edit {r' : Ring n k ω} (h : Consumes r r') (hheld : r'.knownAvailable r'.head ≠ 0)
      (v : Element k ω) : Consumes r (r'.write r'.head v)
  | release {r' : Ring n k ω} (h : Consumes r r') (hheld : r'.knownAvailable r'.head ≠ 0) :
      Consumes r r'.releaseRead

theorem Ring.Consumes.trans {r r' r'' : Ring n k ω} (h : r.Consumes r') (h' : r'.Consumes r'') :
    r.Consumes r'' := by
  induction h' with
  | refl => exact h
  | pop _ ih => exact ih.pop
  | popBatch _ limit ih => exact ih.popBatch limit
  | acquire _ ih => exact ih.acquire
  | edit _ hheld v ih => exact ih.edit hheld v
  | release _ hheld ih => exact ih.release hheld

instance : IsPreorder (Ring n k ω) Ring.Consumes where
  refl _ := .refl
  trans _ _ _ := .trans

/-- Who knows of an element can hold its slot. -/
theorem Ring.Represents.holds {r : Ring n k ω} {f : Fifo k ω} {m : Marks} (h : r.Represents f m)
    (hheld : r.knownAvailable r.head ≠ 0) : r.Holds f m m.removed := by
  have hpos := n.size_pos
  have hremoved := h.removed_le
  have hseen := h.seenHead_le
  have htail := h.seenTail_le
  have happended := h.appended_le
  have hknown := r.toNat_knownAvailable h.cachedTail hremoved (by omega)
  have hcount := toNat_pos_of_ne_zero hheld
  rw [h.head, hknown] at hcount
  exact ⟨h, rfl, by omega⟩

/-- The consumer leaves what the producer relies on. -/
theorem Ring.Consumes.keeps {r r' : Ring n k ω} {f : Fifo k ω} {m : Marks}
    (hconsumes : r.Consumes r') (h : r.Represents f m) :
    ∃ f' m', r'.Represents f' m' ∧ f.KeepsProducer m f' m' := by
  induction hconsumes with
  | refl => exact ⟨f, m, h, .refl f m⟩
  | pop _ ih =>
      obtain ⟨f₁, m₁, hr, hkeeps⟩ := ih
      cases hqueue : f₁.queue with
      | nil =>
          obtain ⟨m', hpop, -, hr'⟩ := hr.pop_of_empty (by rw [hqueue]; rfl)
          exact ⟨f₁, m', hr', hkeeps.trans hpop⟩
      | cons v vs =>
          obtain ⟨m', hpop, -, hr'⟩ := hr.pop_of_cons hqueue
          exact ⟨f₁.remove 1, m', hr', hkeeps.trans hpop⟩
  | popBatch _ limit ih =>
      obtain ⟨f₁, m₁, hr, hkeeps⟩ := ih
      obtain ⟨m', hpop, hpopped, hr'⟩ := hr.popBatch_eq limit
      exact ⟨_, m', hr', hkeeps.trans hpop⟩
  | acquire _ ih =>
      obtain ⟨f₁, m₁, hr, hkeeps⟩ := ih
      by_cases hempty : f₁.queue.length = 0
      · obtain ⟨m', hacquire, -, hr'⟩ := hr.acquireRead_of_empty hempty
        exact ⟨f₁, m', hr', hkeeps.trans hacquire⟩
      · obtain ⟨m', hacquire, -, hholds⟩ := hr.acquireRead_of_ne hempty
        exact ⟨f₁, m', hholds.represents, hkeeps.trans hacquire⟩
  | edit _ hheld v ih =>
      obtain ⟨f₁, m₁, hr, hkeeps⟩ := ih
      have hedited := ((hr.holds hheld).edit v).represents
      rw [← hr.head] at hedited
      exact ⟨f₁.edit v, m₁, hedited, hkeeps.trans (f₁.keepsProducer_edit m₁ v)⟩
  | release _ hheld ih =>
      obtain ⟨f₁, m₁, hr, hkeeps⟩ := ih
      obtain ⟨v, vs, hqueue, -⟩ := (hr.holds hheld).exists_head
      have hpos : 1 ≤ f₁.queue.length := by rw [hqueue]; exact Nat.succ_pos _
      exact ⟨f₁.remove 1, _, (hr.holds hheld).release,
        hkeeps.trans (f₁.keepsProducer_remove m₁ hpos)⟩

/-! ## Holding an element -/

/-- The consumer holds this slot, in a ring that comes from the first. -/
structure Ring.ConsumesHolding (r : Ring n k ω) (slot : UInt64) (r' : Ring n k ω) : Prop where
  consumes : r.Consumes r'
  head : r'.head = slot
  held : r'.knownAvailable r'.head ≠ 0

namespace Ring

variable {r r' : Ring n k ω} {slot : UInt64}

theorem available_eq (r : Ring n k ω) (want : UInt64) :
    (r.available r.head want).1 =
      (r.available r.head want).2.knownAvailable (r.available r.head want).2.head := by
  unfold available
  split <;> rfl

theorem head_available (r : Ring n k ω) (want : UInt64) :
    (r.available r.head want).2.head = r.head := by
  unfold available
  split <;> rfl

/-- A slot is given only when there is an element. -/
theorem consumesHolding_acquireRead (h : r.acquireRead = (some slot, r')) :
    r.ConsumesHolding slot r' := by
  have hring : (r.available r.head 1).2 = r' := congrArg Prod.snd h
  have hslot : (if (r.available r.head 1).1 = 0 then none else some r.head) = some slot :=
    congrArg Prod.fst h
  obtain ⟨hne, hslot⟩ := Option.ite_none_left_eq_some.mp hslot
  rw [available_eq, hring] at hne
  constructor
  case consumes =>
    have hacquired : r.Consumes r.acquireRead.2 := .acquire .refl
    rwa [h] at hacquired
  case head => rw [← hring, head_available, Option.some.inj hslot]
  case held => exact hne

theorem ConsumesHolding.edit (h : r.ConsumesHolding slot r') (v : Element k ω) :
    r.ConsumesHolding slot (r'.write slot v) where
  consumes := by
    have hedited := h.consumes.edit h.held v
    rwa [h.head] at hedited
  head := h.head
  held := h.held

theorem ConsumesHolding.endRead (h : r.ConsumesHolding slot r') (watched : Bool)
    (ending : ReadEnding) : r.Consumes (endRead watched slot ending r').2.2 := by
  cases ending with
  | release => exact h.consumes.release h.held
  | take => exact h.consumes.release h.held
  | releaseFails => exact h.consumes
  | keep => exact h.consumes

end Ring

/-! ## Commands inside others -/

namespace Runner.Within

variable {run : Runner n k ω} {reach : Reach}

/-- An element is changed where it is held. -/
theorem runReads (hrun : run.Within reach Eq) {r r' : Ring n k ω} {slot : UInt64}
    (actions : List (ReadAction k ω)) (scene : Scene k ω) (h : r.ConsumesHolding slot r') :
    r.ConsumesHolding slot (runReads run reach slot actions scene r').2.2 := by
  induction actions generalizing scene r' with
  | nil => exact h
  | cons action actions ih =>
      cases action with
      | read => exact ih scene h
      | edit v => exact ih scene (h.edit v)
      | nested c =>
          have hsame := hrun c scene r'
          refine ih (run reach c scene r').scene ?_
          rwa [← hsame]

/-- A command of the consumer is made of its operations. -/
theorem runConsumer (hrun : run.Within { reach with consumer := false } Eq) (watched : Bool)
    (c : Command k ω) (scene : Scene k ω) (r : Ring n k ω) :
    r.Consumes (runConsumer watched run reach c scene r).ring := by
  cases c with
  | pop => exact .pop .refl
  | popBatch limit out => exact .popBatch .refl limit
  | readSlot actions ending =>
      unfold Spsc.runConsumer
      rcases hacquire : r.acquireRead with ⟨slot?, r₁⟩
      cases slot? with
      | none =>
          have hacquired : r.Consumes r.acquireRead.2 := .acquire .refl
          rwa [hacquire] at hacquired
      | some slot =>
          have hheld := Ring.consumesHolding_acquireRead hacquire
          exact (hrun.runReads actions scene hheld).endRead watched ending
  | _ => exact .refl

end Runner.Within

variable {reach : Reach}

theorem runCommand_of_producer (hreach : reach.producer = true) {c : Command k ω}
    (hhandle : c.handle? = some .producer) (watched : Bool) (fuel : Nat) (scene : Scene k ω)
    (r : Ring n k ω) :
    runCommand watched (fuel + 1) reach c scene r =
      runProducer watched (runCommand watched fuel) reach c scene r := by
  rw [runCommand_succ]
  unfold runLevel
  simp only [hhandle, hreach, if_true]

theorem runCommand_of_consumer (hreach : reach.consumer = true) {c : Command k ω}
    (hhandle : c.handle? = some .consumer) (watched : Bool) (fuel : Nat) (scene : Scene k ω)
    (r : Ring n k ω) :
    runCommand watched (fuel + 1) reach c scene r =
      runConsumer watched (runCommand watched fuel) reach c scene r := by
  rw [runCommand_succ]
  unfold runLevel
  simp only [hhandle, hreach, if_true]

theorem Reach.without_producer_eq (hreach : reach.producer = false) :
    ({ reach with producer := false } : Reach) = reach := by
  rw [← hreach]

/-- Commands that reach neither handle leave the ring alone. -/
theorem ring_runCommand_of_neither (hproducer : reach.producer = false)
    (hconsumer : reach.consumer = false) (watched : Bool) (fuel : Nat) :
    (runCommand watched fuel : Runner n k ω).Within reach Eq := by
  induction fuel with
  | zero =>
      intro c scene r
      rfl
  | succ fuel ih =>
      rw [runCommand_succ]
      apply Runner.Within.runLevel
      · rw [Reach.without_producer_eq hproducer]
        exact ih
      · intro hreach
        exact absurd (hproducer.symm.trans hreach) Bool.false_ne_true
      · intro hreach
        exact absurd (hconsumer.symm.trans hreach) Bool.false_ne_true

/-- Commands that do not reach the producer use the consumer alone. -/
theorem runCommand_consumes (hproducer : reach.producer = false) (watched : Bool) (fuel : Nat) :
    (runCommand watched fuel : Runner n k ω).Within reach Ring.Consumes := by
  induction fuel with
  | zero =>
      intro c scene r
      exact .refl
  | succ fuel ih =>
      rw [runCommand_succ]
      apply Runner.Within.runLevel
      · rw [Reach.without_producer_eq hproducer]
        exact ih
      · intro hreach
        exact absurd (hproducer.symm.trans hreach) Bool.false_ne_true
      · intro hreach c scene r
        have hinside : ({ reach with consumer := false } : Reach).producer = false := hproducer
        have hnested : (runCommand watched fuel : Runner n k ω).Within _ Eq :=
          ring_runCommand_of_neither hinside rfl watched fuel
        exact hnested.runConsumer watched c scene r

end LockFreeRings.Spsc
