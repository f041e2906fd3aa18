import LockFreeRings.Proofs.Spsc.Knowledge
set_option autoImplicit false

/-!
# Every step of the consumer keeps the invariant

One lemma for each kind of phase, and from these `Sound.consume`.  A step of the
consumer may move the count that its copy of the tail stands for, and leaves the
other one.
-/

namespace LockFreeRings.Spsc.System.Sound

variable {n : SlotCount} {k : Nat} {ω : Type} {s : System n k ω} {seenHead seenTail : Nat}

/-- An element that waits for the consumer is in its slot. -/
theorem read_published (h : s.Sound seenHead seenTail) {i : Nat} {v : Element k ω}
    (hle : s.removed.length ≤ i) (hv : s.published[i]? = some v) :
    s.ring.read (n.cursor i) = v := by
  obtain ⟨hi, -⟩ := List.getElem?_eq_some_iff.mp hv
  refine h.slots i v hle ?_
  rwa [List.getElem?_append_left hi]

/-- Up to where the copy of the tail stands elements are published. -/
theorem exists_published (h : s.Sound seenHead seenTail) {i : Nat} (hi : i < seenTail) :
    ∃ v, s.published[i]? = some v :=
  ⟨_, List.getElem?_eq_getElem (hi.trans_le h.seenTail_le)⟩

/-- A consumer that knows how many elements there are goes on with its call, or
ends it. -/
theorem enter_consumer (h : s.Sound seenHead seenTail) (goal : ConsumerGoal k ω) {head : UInt64}
    (hhead : head = n.cursor s.removed.length) :
    (s.consuming (ConsumerPhase.enter s.ring goal head
      (s.ring.knownAvailable head))).Sound seenHead seenTail := by
  have hbound := h.room
  have hseen := h.seenHead_le
  have hremoved := h.removed_le
  have hpub := h.seenTail_le
  have hpos := n.size_pos
  have havailable : (s.ring.knownAvailable head).toNat = seenTail - s.removed.length := by
    rw [hhead]
    exact Ring.toNat_knownAvailable s.ring h.cachedTail hremoved (by omega)
  cases goal with
  | one into =>
      by_cases h0 : s.ring.knownAvailable head = 0
      · simp only [ConsumerPhase.enter, h0, if_true]
        exact h.goOn .idle trivial
      · have := toNat_pos_of_ne_zero h0
        obtain ⟨v, hv⟩ := h.exists_published (by omega : s.removed.length < seenTail)
        simp only [ConsumerPhase.enter, h0, if_false]
        exact h.goOn _ ⟨0, v, hhead, by omega, hv,
          words_before_zero _ _, rfl⟩
  | batch limit into =>
      simp only [ConsumerPhase.enter]
      split
      · exact h.goOn .idle trivial
      · next left heq =>
        obtain ⟨v, hv⟩ := h.exists_published (by omega : s.removed.length < seenTail)
        exact h.goOn _ ⟨0, v, hhead, by omega, hv,
          words_before_zero _ _, rfl, List.nil_prefix, by omega⟩
  | slot =>
      by_cases h0 : s.ring.knownAvailable head = 0
      · simp only [ConsumerPhase.enter, h0, if_true]
        exact h.goOn .idle trivial
      · have := toNat_pos_of_ne_zero h0
        simp only [ConsumerPhase.enter, h0, if_false]
        exact h.goOn _ ⟨hhead, by omega⟩

/-- Where an input does not fit, nothing happens. -/
theorem consume_ignored (h : s.Sound seenHead seenTail) {input : ConsumerInput k ω}
    (hstep : s.consumer.step s.ring input = ⟨s.ring, s.consumer, none⟩)
    (hedited : s.editedAfter input = s.published) (hremoved : s.removedAfter input = s.removed) :
    (s.consume input).Sound seenHead seenTail := by
  have heq : s.consume input = s := by
    rw [consume, hstep, hedited, hremoved]
  rw [heq]
  exact h

/-- The consumer reads a word of an element. -/
theorem consume_readWord (h : s.Sound seenHead seenTail) {goal : ReadGoal k ω} {head : UInt64}
    {j : Nat} {into : Element k ω} (hp : s.consumer = .read goal head j into) (hj : j < k) :
    (s.consume .proceed).Sound seenHead seenTail := by
  have hknows := h.consumer
  rw [hp] at hknows
  obtain ⟨m, v, rfl, hlt, hv, hinto, hgoal⟩ := hknows
  rw [consume_of_read_of_lt hp hj, h.read_published (by omega) hv]
  refine h.goOn _ ⟨m, v, rfl, hlt, hv, ?_, hgoal⟩
  intro i hi hij
  by_cases hne : i = j
  · subst hne
    simp
  · have := hinto i hi (by omega)
    simpa [Vector.getElem_set, Ne.symm hne] using this

/-- A prefix grows by the element behind it. -/
theorem prefix_append_singleton {β : Type} {l₁ l₂ : List β} {v : β} (h : l₁ <+: l₂)
    (hv : l₂[l₁.length]? = some v) : l₁ ++ [v] <+: l₂ := by
  obtain ⟨more, rfl⟩ := h
  rw [List.getElem?_append_right (Nat.le_refl _), Nat.sub_self] at hv
  cases more with
  | nil => cases hv
  | cons u more =>
      cases hv
      exact ⟨more, by rw [List.append_assoc]; rfl⟩

/-- The consumer has read an element. -/
theorem consume_finished (h : s.Sound seenHead seenTail) {goal : ReadGoal k ω} {head : UInt64}
    {j : Nat} {into : Element k ω} (hp : s.consumer = .read goal head j into) (hj : ¬j < k) :
    (s.consume .proceed).Sound seenHead seenTail := by
  have hknows := h.consumer
  rw [hp] at hknows
  obtain ⟨m, v, rfl, hlt, hv, hinto, hgoal⟩ := hknows
  obtain rfl : into = v := Vector.ext fun i hi => hinto i hi (by omega)
  have hnext := next_cursor n (s.removed.length + m)
  have hpre : ∀ out : List (Element k ω), out.length = m →
      out <+: s.published.drop s.removed.length →
        out ++ [into] <+: s.published.drop s.removed.length := by
    rintro out rfl hout
    refine prefix_append_singleton hout ?_
    rw [List.getElem?_drop]
    exact hv
  rw [consume_of_read_of_not_lt hp hj]
  cases goal with
  | one =>
      obtain rfl : m = 0 := hgoal
      exact h.goOn _ ⟨into, hv, hnext, hlt, hpre [] rfl List.nil_prefix⟩
  | batch left out =>
      obtain ⟨hlen, hout, hleft⟩ := hgoal
      have houtlen : (out ++ [into]).length = m + 1 := by
        rw [List.length_append, List.length_singleton, hlen]
      cases left with
      | zero =>
          obtain ⟨front, hfront⟩ := h.exists_published (by omega : s.removed.length < seenTail)
          refine h.goOn _ ⟨front, hfront, ?_, ?_, hpre out hlen hout⟩
          · rw [hnext, ConsumerReturn.elements, houtlen]
            rfl
          · rw [ConsumerReturn.elements, houtlen]
            exact hlt
      | succ left =>
          obtain ⟨u, hu⟩ := h.exists_published (by omega : s.removed.length + (m + 1) < seenTail)
          exact h.goOn _ ⟨m + 1, u, hnext, by omega, hu,
            words_before_zero _ _, houtlen, hpre out hlen hout,
            by omega⟩
  | look =>
      obtain rfl : m = 0 := hgoal
      exact h.goOn _ ⟨rfl, hlt⟩
  | take =>
      obtain rfl : m = 0 := hgoal
      exact h.goOn _ ⟨into, hv, hlt, rfl⟩

/-- The consumer goes on by itself. -/
theorem consume_proceed (h : s.Sound seenHead seenTail) :
    ∃ seen, (s.consume .proceed).Sound seenHead seen := by
  have hknows := h.consumer
  cases hp : s.consumer with
  | idle =>
      exact ⟨_, h.consume_ignored (by rw [hp]; rfl) (by simp [editedAfter])
        (by simp [removedAfter, hp])⟩
  | load goal =>
      rw [consume_of_load hp]
      exact ⟨_, h.goOn _ h.head⟩
  | check goal head =>
      rw [hp] at hknows
      by_cases hwant : goal.want ≤ s.ring.knownAvailable head
      · rw [consume_of_check_of_le hp hwant]
        exact ⟨_, h.enter_consumer goal hknows⟩
      · rw [consume_of_check_of_not_le hp hwant]
        exact ⟨_, h.goOn _ hknows⟩
  | refresh goal head =>
      rw [hp] at hknows
      rw [consume_of_refresh hp]
      exact ⟨_, h.refreshTail.enter_consumer goal hknows⟩
  | read goal head j into =>
      by_cases hj : j < k
      · exact ⟨_, h.consume_readWord hp hj⟩
      · exact ⟨_, h.consume_finished hp hj⟩
  | vacate head result =>
      rw [hp] at hknows
      obtain ⟨v, hv, rfl, hle, hpre⟩ := hknows
      rw [consume_of_vacate hp, h.head, h.read_published (Nat.le_refl _) hv]
      exact ⟨_, h.vacate hle hpre⟩
  | hold head =>
      exact ⟨_, h.consume_ignored (by rw [hp]; rfl) (by simp [editedAfter])
        (by simp [removedAfter, hp])⟩
  | release result =>
      rw [hp] at hknows
      obtain ⟨v, hv, hlt, hresult⟩ := hknows
      have hget : (s.published.drop s.removed.length)[0]? = some v := by
        rw [List.getElem?_drop]
        exact hv
      rw [consume_of_release hp]
      refine ⟨_, h.goOn _ ⟨v, hv, ?_, ?_, ?_⟩⟩
      · rw [h.head, next_cursor, hresult, List.length_singleton]
      · rw [hresult, List.length_singleton]
        exact hlt
      · rw [hresult]
        exact (prefix_append_singleton List.nil_prefix hget : [] ++ [v] <+: _)
  | lenHead =>
      rw [consume_of_lenHead hp]
      exact ⟨_, h.goOn _ trivial⟩
  | lenTail head =>
      rw [consume_of_lenTail hp]
      exact ⟨_, h.goOn _ trivial⟩

/-- What the caller does with a slot that it holds. -/
theorem consume_hold (h : s.Sound seenHead seenTail) {head : UInt64} (hp : s.consumer = .hold head)
    (input : ConsumerInput k ω) : ∃ seen, (s.consume input).Sound seenHead seen := by
  have hknows := h.consumer
  rw [hp] at hknows
  obtain ⟨rfl, hlt⟩ := hknows
  obtain ⟨v, hv⟩ := h.exists_published hlt
  cases input with
  | proceed => exact h.consume_proceed
  | look into =>
      have heq : s.consume (.look into) =
          { s with consumer := .read .look (n.cursor s.removed.length) 0 into } := by
        simp [consume, hp, ConsumerPhase.step, editedAfter, removedAfter]
      rw [heq]
      exact ⟨_, h.goOn _ ⟨0, v, rfl, hlt, hv, words_before_zero _ _, rfl⟩⟩
  | editWord j w =>
      have heq : s.consume (.editWord j w) = { s with
          ring := s.ring.writeWord (n.cursor s.removed.length) j w
          consumer := .hold (n.cursor s.removed.length)
          published := s.published.modify s.removed.length fun v => v.set j w } := by
        simp [consume, hp, ConsumerPhase.step, editedAfter, removedAfter]
      rw [heq]
      exact ⟨_, h.editWord hlt j w⟩
  | take into =>
      have heq : s.consume (.take into) =
          { s with consumer := .read .take (n.cursor s.removed.length) 0 into } := by
        simp [consume, hp, ConsumerPhase.step, editedAfter, removedAfter]
      rw [heq]
      exact ⟨_, h.goOn _ ⟨0, v, rfl, hlt, hv, words_before_zero _ _, rfl⟩⟩
  | release =>
      have heq : s.consume .release = { s with consumer := .release .released } := by
        simp [consume, hp, ConsumerPhase.step, editedAfter, removedAfter]
      rw [heq]
      exact ⟨_, h.goOn _ ⟨v, hv, hlt, rfl⟩⟩
  | keep =>
      have heq : s.consume .keep = { s with consumer := .idle } := by
        simp [consume, hp, ConsumerPhase.step, editedAfter, removedAfter]
      rw [heq]
      exact ⟨_, h.goOn _ trivial⟩
  | _ =>
      exact ⟨_, h.consume_ignored (by simp [ConsumerPhase.step, hp]) (by simp [editedAfter])
        (by simp [removedAfter])⟩

/-- Every step of the consumer keeps the invariant. -/
theorem consume (h : s.Sound seenHead seenTail) (input : ConsumerInput k ω) :
    ∃ seen, (s.consume input).Sound seenHead seen := by
  cases hp : s.consumer with
  | idle =>
      cases input with
      | proceed => exact h.consume_proceed
      | begin goal =>
          have heq : s.consume (.begin goal) = { s with consumer := .load goal } := by
            simp [System.consume, hp, ConsumerPhase.step, editedAfter, removedAfter]
          rw [heq]
          exact ⟨_, h.goOn _ trivial⟩
      | count =>
          have heq : s.consume .count = { s with consumer := .lenHead } := by
            simp [System.consume, hp, ConsumerPhase.step, editedAfter, removedAfter]
          rw [heq]
          exact ⟨_, h.goOn _ trivial⟩
      | _ =>
          exact ⟨_, h.consume_ignored (by simp [ConsumerPhase.step, hp])
            (by simp [editedAfter, hp]) (by simp [removedAfter])⟩
  | hold head => exact h.consume_hold hp input
  | _ =>
      -- the other phases go on by themselves, and no input fits them
      cases input with
      | proceed => exact h.consume_proceed
      | _ =>
          exact ⟨_, h.consume_ignored (by simp [ConsumerPhase.step, hp])
            (by simp [editedAfter, hp]) (by simp [removedAfter])⟩

end LockFreeRings.Spsc.System.Sound
