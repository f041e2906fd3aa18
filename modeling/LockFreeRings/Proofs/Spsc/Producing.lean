import LockFreeRings.Proofs.Spsc.Knowledge
set_option autoImplicit false

/-!
# Every step of the producer keeps the invariant

One lemma for each kind of phase, and from these `Sound.produce`.  A step of the
producer may move the count that its copy of the head stands for, and leaves the
other one.
-/

namespace LockFreeRings.Spsc.System.Sound

variable {n : SlotCount} {k : Nat} {ω : Type} {s : System n k ω} {seenHead seenTail : Nat}

/-- A producer that knows the room before its position goes on with its call, or
ends it. -/
theorem enter (h : s.Sound seenHead seenTail) {goal : ProducerGoal k ω} {start tail : UInt64}
    (hstart : start = n.cursor s.published.length)
    (htail : tail = n.cursor (s.published.length + s.draft.length))
    (hgoal : goal = .stream ∨ s.draft.length = 0) (count : Nat) :
    (s.producing (ProducerPhase.enter s.ring goal start tail count
      (s.ring.knownRoom tail))).Sound seenHead seenTail := by
  have hle := h.seenHead_le.trans (h.removed_le.trans h.seenTail_le)
  have hbound := h.room
  have hpos := n.size_pos
  have hroom : (s.ring.knownRoom tail).toNat =
      n.size - 1 - (s.published.length + s.draft.length - seenHead) := by
    rw [htail]
    exact Ring.toNat_knownRoom s.ring h.cachedHead (by omega) (by omega)
  cases goal with
  | one v =>
      obtain hdraft : s.draft.length = 0 := hgoal.resolve_left (by simp)
      by_cases h0 : s.ring.knownRoom tail = 0
      · simp only [ProducerPhase.enter, h0, if_true]
        exact h.rest
      · have := toNat_pos_of_ne_zero h0
        simp only [ProducerPhase.enter, h0, if_false]
        exact h.rephase _ ⟨htail, words_before_zero _ _, hdraft, by omega⟩
  | batch vs =>
      obtain hdraft : s.draft.length = 0 := hgoal.resolve_left (by simp)
      simp only [ProducerPhase.enter]
      split
      · exact h.rest
      · next v rest heq =>
        have hlen : rest.length + 1 = min (min (s.ring.knownRoom tail).toNat vs.length)
            vs.length := by
          rw [← List.length_take, heq, List.length_cons]
        exact h.rephase _ ⟨htail, by omega⟩
  | stream =>
      by_cases h0 : s.ring.knownRoom tail = 0
      · simp only [ProducerPhase.enter, h0, if_true, ProducerPhase.endStream]
        split
        · exact h.rest
        · exact h.rephase _ htail
      · have := toNat_pos_of_ne_zero h0
        simp only [ProducerPhase.enter, h0, if_false]
        exact h.rephase _ ⟨hstart, htail, by omega⟩
  | slot =>
      obtain hdraft : s.draft.length = 0 := hgoal.resolve_left (by simp)
      by_cases h0 : s.ring.knownRoom tail = 0
      · simp only [ProducerPhase.enter, h0, if_true]
        exact h.rest
      · have := toNat_pos_of_ne_zero h0
        simp only [ProducerPhase.enter, h0, if_false]
        rw [hdraft, Nat.add_zero] at htail
        show ({ s with producer := .hold tail, draft := [s.ring.read tail] } :
          System n k ω).Sound seenHead seenTail
        refine h.redraft (.hold tail) ?_ ?_ ⟨htail, rfl⟩
        · rw [List.length_singleton]
          omega
        · intro i v hv
          obtain ⟨hi, rfl⟩ := List.getElem?_eq_some_iff.mp hv
          rw [List.length_singleton] at hi
          obtain rfl : i = 0 := by omega
          rw [htail]
          rfl

/-- Where an input does not fit, nothing happens. -/
theorem produce_ignored (h : s.Sound seenHead seenTail) {input : ProducerInput k ω}
    (hstep : s.producer.step s.ring input = ⟨s.ring, s.producer, none⟩)
    (hdraft : s.draftAfter input s.producer = s.draft)
    (hpublished : s.publishedAfter input = s.published) :
    (s.produce input).Sound seenHead seenTail := by
  have heq : s.produce input = s := by
    rw [produce, hstep, hdraft, hpublished]
  rw [heq]
  exact h

/-- An element whose words are all stored is in its slot. -/
theorem read_of_storedUpTo {r : Ring n k ω} {v : Element k ω} {tail : UInt64} {j : Nat}
    (h : StoredUpTo r v tail j) (hj : k ≤ j) : r.read tail = v :=
  Vector.ext fun i hi => h i hi (by omega)

/-- An element whose words are all stored joins the draft. -/
theorem draft_append (h : s.Sound seenHead seenTail) {v : Element k ω}
    (hread : s.ring.read (n.cursor (s.published.length + s.draft.length)) = v)
    (hroom : s.published.length + s.draft.length + 1 ≤ seenHead + (n.size - 1))
    (phase : ProducerPhase k ω)
    (hknows : ProducerKnows s.ring s.published.length (s.draft.length + 1) seenHead phase) :
    ({ s with producer := phase, draft := s.draft ++ [v] } : System n k ω).Sound
      seenHead seenTail := by
  refine h.redraft phase ?_ ?_ ?_
  · rw [List.length_append, List.length_singleton]
    omega
  · intro i u hu
    rcases Nat.lt_or_ge i s.draft.length with hlt | hge
    · rw [List.getElem?_append_left hlt] at hu
      exact h.read_draft hu
    · rw [List.getElem?_append_right hge] at hu
      obtain ⟨hi, rfl⟩ := List.getElem?_eq_some_iff.mp hu
      rw [List.length_singleton] at hi
      obtain rfl : i = s.draft.length := by omega
      simpa using hread
  · rw [List.length_append, List.length_singleton]
    exact hknows

/-- The producer stores a word of an element. -/
theorem proceed_storeWord (h : s.Sound seenHead seenTail) {goal : StoreGoal k ω}
    {v : Element k ω} {tail : UInt64} {j : Nat} (hp : s.producer = .store goal v tail j)
    (hj : j < k) : (s.produce .proceed).Sound seenHead seenTail := by
  have hknows := h.producer
  rw [hp] at hknows
  obtain ⟨rfl, hstored, hgoal⟩ := hknows
  have hroom : s.published.length + s.draft.length + 1 ≤ seenHead + (n.size - 1) := by
    cases goal <;> simp only at hgoal <;> omega
  rw [produce_of_store_of_lt hp hj]
  refine h.storeWord hroom ⟨j, hj⟩ v[j] _ ⟨rfl, ?_, hgoal⟩
  intro i hi hij
  rw [Ring.read_writeWord]
  by_cases hne : i = j
  · subst hne
    simp
  · have := hstored i hi (by omega)
    simpa [Vector.getElem_set, Ne.symm hne] using this

/-- The producer has stored an element. -/
theorem proceed_stored (h : s.Sound seenHead seenTail) {goal : StoreGoal k ω}
    {v : Element k ω} {tail : UInt64} {j : Nat} (hp : s.producer = .store goal v tail j)
    (hj : ¬j < k) : (s.produce .proceed).Sound seenHead seenTail := by
  have hknows := h.producer
  rw [hp] at hknows
  obtain ⟨rfl, hstored, hgoal⟩ := hknows
  have hread := read_of_storedUpTo hstored (Nat.not_lt.mp hj)
  have hnext := next_cursor n (s.published.length + s.draft.length)
  rw [produce_of_store_of_not_lt hp hj]
  cases goal with
  | one => exact h.draft_append hread (by omega) _ hnext
  | batch rest count =>
      cases rest with
      | nil => exact h.draft_append hread (by simpa using hgoal) _ hnext
      | cons u rest =>
          simp only [List.length_cons] at hgoal
          exact h.draft_append hread (by omega) _ ⟨hnext, by omega⟩
  | stream start count => exact h.draft_append hread hgoal.2 _ ⟨hgoal.1, hnext, .inl rfl⟩
  | slot =>
      refine h.draft_append hread (by omega) _ ?_
      rw [ProducerPhase.stored, ProducerKnows, hgoal.1]

/-- The producer goes on by itself. -/
theorem proceed (h : s.Sound seenHead seenTail) :
    ∃ seen, (s.produce .proceed).Sound seen seenTail := by
  have hknows := h.producer
  cases hp : s.producer with
  | idle =>
      rw [hp] at hknows
      refine ⟨_, h.produce_ignored (by rw [hp]; rfl) ?_ (by simp [publishedAfter, hp])⟩
      simp [draftAfter, hp, List.length_eq_zero_iff.mp hknows]
  | load goal =>
      rw [hp] at hknows
      rw [produce_of_load hp]
      refine ⟨_, h.rephase _ ⟨h.tail, ?_, .inr hknows⟩⟩
      rw [h.tail, hknows, Nat.add_zero]
  | check goal start tail count =>
      rw [hp] at hknows
      obtain ⟨hstart, htail, hgoal⟩ := hknows
      by_cases hwant : goal.want ≤ s.ring.knownRoom tail
      · rw [produce_of_check_of_le hp hwant]
        exact ⟨_, h.enter hstart htail hgoal count⟩
      · rw [produce_of_check_of_not_le hp hwant]
        exact ⟨_, h.rephase _ ⟨hstart, htail, hgoal⟩⟩
  | refresh goal start tail count =>
      rw [hp] at hknows
      obtain ⟨hstart, htail, hgoal⟩ := hknows
      rw [produce_of_refresh hp]
      exact ⟨_, h.refreshHead.enter hstart htail hgoal count⟩
  | copy v rest tail count =>
      rw [hp] at hknows
      rw [produce_of_copy hp]
      exact ⟨_, h.rephase _ ⟨hknows.1, words_before_zero _ _, hknows.2⟩⟩
  | ask start tail count =>
      exact ⟨_, h.produce_ignored (by rw [hp]; rfl) (by simp [draftAfter, hp])
        (by simp [publishedAfter, hp])⟩
  | store goal v tail j =>
      by_cases hj : j < k
      · exact ⟨_, h.proceed_storeWord hp hj⟩
      · exact ⟨_, h.proceed_stored hp hj⟩
  | publish tail result =>
      rw [hp] at hknows
      obtain rfl : tail = n.cursor (s.published.length + s.draft.length) := hknows
      rw [produce_of_publish hp]
      exact ⟨_, h.publish⟩
  | hold tail =>
      exact ⟨_, h.produce_ignored (by rw [hp]; rfl) (by simp [draftAfter, hp])
        (by simp [publishedAfter, hp])⟩
  | commit =>
      rw [hp] at hknows
      rw [produce_of_commit hp]
      refine ⟨_, h.rephase _ ?_⟩
      rw [ProducerKnows, h.tail, next_cursor, hknows]
  | lenHead =>
      rw [hp] at hknows
      rw [produce_of_lenHead hp]
      exact ⟨_, h.rephase _ hknows⟩
  | lenTail head =>
      rw [produce_of_lenTail hp]
      exact ⟨_, h.rest⟩

/-- Between calls there is no draft. -/
theorem draft_of_idle (h : s.Sound seenHead seenTail) (hp : s.producer = .idle) :
    s.draft = [] := by
  have hknows := h.producer
  rw [hp] at hknows
  exact List.length_eq_zero_iff.mp hknows

/-- Between calls the producer begins one. -/
theorem produce_idle (h : s.Sound seenHead seenTail) (hp : s.producer = .idle)
    (input : ProducerInput k ω) : ∃ seen, (s.produce input).Sound seen seenTail := by
  have hdraft := h.draft_of_idle hp
  cases input with
  | proceed => exact h.proceed
  | begin goal =>
      have heq : s.produce (.begin goal) = { s with producer := .load goal } := by
        simp [produce, hp, ProducerPhase.step, draftAfter, publishedAfter]
      rw [heq]
      exact ⟨_, h.rephase _ (by rw [hdraft]; rfl)⟩
  | count =>
      have heq : s.produce .count = { s with producer := .lenHead } := by
        simp [produce, hp, ProducerPhase.step, draftAfter, publishedAfter]
      rw [heq]
      exact ⟨_, h.rephase _ (by rw [hdraft]; rfl)⟩
  | answer answer =>
      refine ⟨_, h.produce_ignored ?_ ?_ (by simp [publishedAfter])⟩
      · cases answer <;> simp [ProducerPhase.step, hp]
      · cases answer <;> simp [draftAfter, hp, hdraft]
  | _ =>
      exact ⟨_, h.produce_ignored (by simp [ProducerPhase.step, hp])
        (by simp [draftAfter, hp, hdraft]) (by simp [publishedAfter])⟩

/-- The caller answers for an iterator. -/
theorem produce_answer (h : s.Sound seenHead seenTail) {start tail : UInt64} {count : Nat}
    (hp : s.producer = .ask start tail count) (answer : Ring.Pull (Element k ω)) :
    (s.produce (.answer answer)).Sound seenHead seenTail := by
  have hknows := h.producer
  rw [hp] at hknows
  obtain ⟨hstart, htail, hroom⟩ := hknows
  cases answer with
  | item v =>
      have heq : s.produce (.answer (.item v)) =
          { s with producer := .store (.stream start count) v tail 0 } := by
        simp [produce, hp, ProducerPhase.step, draftAfter, publishedAfter]
      rw [heq]
      exact h.rephase _ ⟨htail, words_before_zero _ _, hstart, hroom⟩
  | ended =>
      by_cases hnone : tail = start
      · have heq : s.produce (.answer .ended) = { s with producer := .idle, draft := [] } := by
          simp [produce, hp, ProducerPhase.step, ProducerPhase.endStream, hnone, draftAfter,
            publishedAfter]
        rw [heq]
        exact h.rest
      · have heq : s.produce (.answer .ended) =
            { s with producer := .publish tail (.streamed count true) } := by
          simp [produce, hp, ProducerPhase.step, ProducerPhase.endStream, hnone, draftAfter,
            publishedAfter]
        rw [heq]
        exact h.rephase _ htail
  | failed =>
      have heq : s.produce (.answer .failed) = { s with producer := .idle, draft := [] } := by
        simp [produce, hp, ProducerPhase.step, draftAfter, publishedAfter]
      rw [heq]
      exact h.rest

/-- What the caller does with a slot that it holds. -/
theorem produce_hold (h : s.Sound seenHead seenTail) {tail : UInt64}
    (hp : s.producer = .hold tail) (input : ProducerInput k ω) :
    ∃ seen, (s.produce input).Sound seen seenTail := by
  have hroom := h.room
  have hknows := h.producer
  rw [hp] at hknows
  obtain ⟨rfl, hlen⟩ := hknows
  cases input with
  | proceed => exact h.proceed
  | setWord j w =>
      obtain ⟨v, hdraft⟩ := List.length_eq_one_iff.mp hlen
      have heq : s.produce (.setWord j w) = { s with
          ring := s.ring.writeWord (n.cursor s.published.length) j w
          producer := .hold (n.cursor s.published.length)
          draft := [v.set j w] } := by
        simp [produce, hp, hdraft, ProducerPhase.step, draftAfter, publishedAfter]
      rw [heq]
      exact ⟨_, h.setWord hdraft j w⟩
  | write v =>
      have heq : s.produce (.write v) = { s with
          producer := .store .slot v (n.cursor s.published.length) 0
          draft := [] } := by
        simp [produce, hp, ProducerPhase.step, draftAfter, publishedAfter]
      rw [heq]
      refine ⟨_, h.redraft _ ?_ (by simp) ⟨rfl, ?_, rfl, by omega⟩⟩
      · rw [List.length_nil]
        omega
      · exact words_before_zero _ _
  | commit =>
      have heq : s.produce .commit = { s with producer := .commit } := by
        simp [produce, hp, ProducerPhase.step, draftAfter, publishedAfter]
      rw [heq]
      exact ⟨_, h.rephase _ hlen⟩
  | abandon =>
      have heq : s.produce .abandon = { s with producer := .idle, draft := [] } := by
        simp [produce, hp, ProducerPhase.step, draftAfter, publishedAfter]
      rw [heq]
      exact ⟨_, h.rest⟩
  | answer answer =>
      refine ⟨_, h.produce_ignored ?_ ?_ (by simp [publishedAfter])⟩
      · cases answer <;> simp [ProducerPhase.step, hp]
      · cases answer <;> simp [draftAfter, hp]
  | _ =>
      exact ⟨_, h.produce_ignored (by simp [ProducerPhase.step, hp]) (by simp [draftAfter, hp])
        (by simp [publishedAfter])⟩

/-- Every step of the producer keeps the invariant. -/
theorem produce (h : s.Sound seenHead seenTail) (input : ProducerInput k ω) :
    ∃ seen, (s.produce input).Sound seen seenTail := by
  cases hp : s.producer with
  | idle => exact h.produce_idle hp input
  | hold tail => exact h.produce_hold hp input
  | copy v rest tail count =>
      cases input with
      | proceed => exact h.proceed
      | copyFails =>
          have heq : s.produce .copyFails = { s with producer := .idle, draft := [] } := by
            simp [System.produce, hp, ProducerPhase.step, draftAfter, publishedAfter]
          rw [heq]
          exact ⟨_, h.rest⟩
      | _ =>
          exact ⟨_, h.produce_ignored (by simp [ProducerPhase.step, hp])
            (by simp [draftAfter, hp]) (by simp [publishedAfter])⟩
  | ask start tail count =>
      cases input with
      | proceed => exact h.proceed
      | answer answer => exact ⟨_, h.produce_answer hp answer⟩
      | _ =>
          exact ⟨_, h.produce_ignored (by simp [ProducerPhase.step, hp])
            (by simp [draftAfter, hp]) (by simp [publishedAfter])⟩
  | _ =>
      -- the other phases go on by themselves, and no input fits them
      cases input with
      | proceed => exact h.proceed
      | _ =>
          exact ⟨_, h.produce_ignored (by simp [ProducerPhase.step, hp])
            (by simp [draftAfter, hp]) (by simp [publishedAfter])⟩

end LockFreeRings.Spsc.System.Sound
