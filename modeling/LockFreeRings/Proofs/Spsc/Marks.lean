import LockFreeRings.Proofs.Spsc.Regions
import LockFreeRings.Proofs.Spsc.Handover
set_option autoImplicit false

/-!
# Which words are initialised

A slot starts without an element, and is without one again when the consumer has
handed it back, whatever is left in its memory.  `Marked` is a system of two handles
with a mark for every word of every slot: storing the word sets it, and handing the
slot back clears it.  So a slot whose words are all marked (`Marked.Full`) has been
written completely since it was last handed back.

A held slot may be filled word by word and is published without another look at it.
That it is published only when it is full is up to the caller, and a run is
`Marked.careful` when callers see to it.

`Marked.Filled` is what such runs keep: every element that is published or stored
completely has a full slot, and of one that is being stored the words stored so far
are marked.
-/

namespace LockFreeRings.Spsc

variable {n : SlotCount} {k : Nat} {ω : Type}

/-- Two handles on a ring, and the words that are initialised. -/
structure Marked (n : SlotCount) (k : Nat) (ω : Type) where
  system : System n k ω
  /-- the words of each slot that were stored since it was last handed back -/
  marks : Fin n.size → Fin k → Bool := fun _ _ => false

namespace Marked

/-- A new ring, of which no word is initialised. -/
def start (n : SlotCount) (blank : Element k ω) : Marked n k ω where
  system := .start n blank

/-- All words of the slot are initialised. -/
def Full (s : Marked n k ω) (slot : Fin n.size) : Prop := ∀ w, s.marks slot w = true

instance (s : Marked n k ω) (slot : Fin n.size) : Decidable (s.Full slot) :=
  inferInstanceAs (Decidable (∀ w, s.marks slot w = true))

/-- The marks when a word of the slot of a cursor is stored. -/
def mark (s : Marked n k ω) (i : UInt64) (j : Fin k) : Fin n.size → Fin k → Bool :=
  fun slot w => (slot = n.index i && w = j) || s.marks slot w

/-- The marks after a step of the producer. -/
def marksProduced (s : Marked n k ω) (input : ProducerInput k ω) : Fin n.size → Fin k → Bool :=
  match input, s.system.producer with
  | .proceed, .store _ _ tail j => if h : j < k then s.mark tail ⟨j, h⟩ else s.marks
  | .setWord j _, .hold tail => s.mark tail j
  | _, _ => s.marks

/-- The marks after a step of the consumer: storing the head hands slots back. -/
def marksConsumed (s : Marked n k ω) (input : ConsumerInput k ω) : Fin n.size → Fin k → Bool :=
  match input, s.system.consumer with
  | .proceed, .vacate head _ =>
    fun slot w => s.marks slot w && !spans n s.system.ring.head head slot
  | _, _ => s.marks

/-- What an action does. -/
def act (s : Marked n k ω) : Action k ω → Marked n k ω
  | .produce input => ⟨s.system.produce input, s.marksProduced input⟩
  | .consume input => ⟨s.system.consume input, s.marksConsumed input⟩

/-- The state after a run. -/
def run (n : SlotCount) (blank : Element k ω) (actions : List (Action k ω)) : Marked n k ω :=
  actions.foldl act (start n blank)

/-- A held slot is to be published only when it is full. -/
def permits (s : Marked n k ω) : Action k ω → Bool
  | .produce .commit =>
    match s.system.producer with
    | .hold tail => decide (s.Full (n.index tail))
    | _ => true
  | _ => true

/-- Whether every held slot that is published on the way is full. -/
def careful (s : Marked n k ω) : List (Action k ω) → Bool
  | [] => true
  | action :: actions => s.permits action && (s.act action).careful actions

end Marked

/-! ## Complete elements -/

namespace System

/-- The number of elements that are published or completely stored.  Whether the
element of a held slot is, only its marks tell. -/
def complete (s : System n k ω) : Nat :=
  match s.producer with
  | .hold _ => s.published.length
  | _ => s.published.length + s.draft.length

theorem complete_le (s : System n k ω) : s.complete ≤ s.published.length + s.draft.length := by
  unfold complete
  split <;> omega

theorem published_le_complete (s : System n k ω) : s.published.length ≤ s.complete := by
  unfold complete
  split <;> omega

variable {s : System n k ω} {seenHead seenTail : Nat}

theorem complete_of_hold {tail : UInt64} (hp : s.producer = .hold tail) :
    s.complete = s.published.length := by
  rw [complete, hp]

theorem complete_of_ne_hold (hp : ∀ tail, s.producer ≠ .hold tail) :
    s.complete = s.published.length + s.draft.length := by
  unfold complete
  split
  · next tail heq => exact absurd heq (hp tail)
  · rfl

/-- The producer's target comes behind the complete elements. -/
theorem Sound.target_eq (h : s.Sound seenHead seenTail) {i : UInt64}
    (hi : s.producer.target? = some i) : i = n.cursor s.complete := by
  have hknows := h.producer
  cases hp : s.producer with
  | copy v rest tail count =>
      rw [hp] at hi hknows
      cases hi
      simpa [complete, hp] using hknows.1
  | ask start tail count =>
      rw [hp] at hi hknows
      cases hi
      simpa [complete, hp] using hknows.2.1
  | store goal v tail j =>
      rw [hp] at hi hknows
      cases hi
      simpa [complete, hp] using hknows.1
  | hold tail =>
      rw [hp] at hi hknows
      cases hi
      simpa [complete, hp] using hknows.1
  | _ =>
      rw [hp] at hi
      cases hi

/-- The draft grows by an element whose last word is stored, or by one that is held
from now on. -/
theorem length_draftAfter_le (s : System n k ω) (input : ProducerInput k ω)
    {after : ProducerPhase k ω} (hafter : ∀ tail, after ≠ .hold tail) :
    (s.draftAfter input after).length ≤ s.draft.length ∨
      (s.draftAfter input after).length = s.draft.length + 1 ∧
        ∃ goal v tail j, s.producer = .store goal v tail j ∧ k ≤ j := by
  have hentering : (s.draftEntering after).length ≤ s.draft.length := by
    cases after with
    | hold tail => exact absurd rfl (hafter tail)
    | _ => simp [draftEntering]
  unfold draftAfter
  split
  case h_1 | h_2 => exact .inl hentering
  case h_4 goal v tail j hp _ =>
    split
    · exact .inl (Nat.le_refl _)
    · next hj => exact .inr ⟨by simp, goal, v, tail, j, hp, Nat.not_lt.mp hj⟩
  all_goals exact .inl (by simp)

/-- While no slot is held and the tail is not stored, an element is completed when it is
stored. -/
theorem complete_goOn {input : ProducerInput k ω} (hhold : ∀ tail, s.producer ≠ .hold tail)
    (hpublished : s.publishedAfter input = s.published) :
    (s.produce input).complete ≤ s.complete ∨
      (s.produce input).complete = s.complete + 1 ∧
        ∃ goal v tail j, s.producer = .store goal v tail j ∧ k ≤ j := by
  have hpub : (s.produce input).published.length = s.published.length := congrArg _ hpublished
  have hcomplete := complete_of_ne_hold hhold
  by_cases hafter : ∃ tail, (s.produce input).producer = .hold tail
  · obtain ⟨tail, htail⟩ := hafter
    have hheld := complete_of_hold htail
    exact .inl (by omega)
  · simp only [not_exists] at hafter
    have hdone := complete_of_ne_hold hafter
    have hdraft : (s.produce input).draft.length ≤ s.draft.length ∨
        (s.produce input).draft.length = s.draft.length + 1 ∧
          ∃ goal v tail j, s.producer = .store goal v tail j ∧ k ≤ j :=
      length_draftAfter_le s input hafter
    rcases hdraft with hle | ⟨heq, hstore⟩
    · exact .inl (by omega)
    · exact .inr ⟨by omega, hstore⟩

/-- A step of the producer completes an element when it ends the storing of it, or
when the caller publishes the slot that it holds. -/
theorem Sound.complete_produce (h : s.Sound seenHead seenTail) (input : ProducerInput k ω) :
    (s.produce input).complete ≤ s.complete ∨
      (s.produce input).complete = s.complete + 1 ∧
        ((∃ goal v tail j, s.producer = .store goal v tail j ∧ k ≤ j) ∨
          ∃ tail, s.producer = .hold tail ∧ input = .commit) := by
  have hknows := h.producer
  cases hp : s.producer with
  | hold tail =>
      rw [hp] at hknows
      cases input with
      | answer answer =>
          cases answer <;>
            simp [complete, System.produce, ProducerPhase.step, draftAfter, publishedAfter, hp]
      | _ =>
          simp [complete, System.produce, ProducerPhase.step, ProducerPhase.proceed, draftAfter,
            publishedAfter, hp, hknows.2]
  | publish tail result =>
      refine .inl ?_
      cases input <;>
        simp [complete, System.produce, ProducerPhase.step, ProducerPhase.proceed, draftAfter,
          publishedAfter, hp]
  | _ =>
      have hpublished : s.publishedAfter input = s.published := by
        cases input <;> simp [publishedAfter, hp]
      rcases complete_goOn (by simp [hp]) hpublished with hle | ⟨heq, hstore⟩
      · exact .inl hle
      · exact .inr ⟨heq, .inl (by rwa [hp] at hstore)⟩

/-! ## Steps of the consumer -/

theorem complete_consume (s : System n k ω) (input : ConsumerInput k ω) :
    (s.consume input).complete = s.complete := by
  have hpublished := s.length_published_consume input
  show (match s.producer with
      | .hold _ => (s.consume input).published.length
      | _ => (s.consume input).published.length + s.draft.length) = s.complete
  rw [hpublished]
  rfl

end System

/-! ## What careful runs keep -/

namespace Marked

/-- Complete elements have full slots, and stored words are marked. -/
structure Filled (s : Marked n k ω) : Prop where
  complete : ∀ i, s.system.removed.length ≤ i → i < s.system.complete →
    s.Full (n.index (n.cursor i))
  storing : ∀ goal v tail j, s.system.producer = .store goal v tail j →
    ∀ w : Fin k, w.val < j → s.marks (n.index tail) w = true

theorem Filled.start (n : SlotCount) (blank : Element k ω) : (start n blank).Filled where
  complete i _ hi := absurd hi (Nat.not_lt_zero i)
  storing _ _ _ _ hp := by cases hp

variable {s : Marked n k ω} {seenHead seenTail : Nat}

theorem mark_of_marks {i : UInt64} {j : Fin k} {slot : Fin n.size} {w : Fin k}
    (h : s.marks slot w = true) : s.mark i j slot w = true := by
  rw [mark, h, Bool.or_true]

theorem mark_self (s : Marked n k ω) (i : UInt64) (j : Fin k) :
    s.mark i j (n.index i) j = true := by
  simp [mark]

/-- A step of the producer marks one word, or none. -/
theorem marksProduced_eq (s : Marked n k ω) (input : ProducerInput k ω) :
    s.marksProduced input = s.marks ∨ ∃ i j, s.marksProduced input = s.mark i j := by
  unfold marksProduced
  split
  · split
    · exact .inr ⟨_, _, rfl⟩
    · exact .inl rfl
  · exact .inr ⟨_, _, rfl⟩
  · exact .inl rfl

/-- The producer clears no mark. -/
theorem marksProduced_of_marks (input : ProducerInput k ω) {slot : Fin n.size} {w : Fin k}
    (h : s.marks slot w = true) : s.marksProduced input slot w = true := by
  rcases s.marksProduced_eq input with heq | ⟨i, j, heq⟩
  · rwa [heq]
  · rw [heq]
    exact mark_of_marks h

/-- A step that stores a word of an element marks it. -/
theorem marksProduced_store {goal : StoreGoal k ω} {v : Element k ω} {tail : UInt64} {j : Nat}
    (hp : s.system.producer = .store goal v tail j) (hj : j < k) :
    s.marksProduced .proceed = s.mark tail ⟨j, hj⟩ := by
  simp [marksProduced, hp, hj]

/-- The caller publishes a held slot only when it is full. -/
theorem full_of_permits {tail : UInt64} (hp : s.system.producer = .hold tail)
    (hpermits : s.permits (.produce .commit) = true) : s.Full (n.index tail) := by
  simpa [permits, hp] using hpermits

/-- A step of the producer keeps complete slots full. -/
theorem Filled.produce (f : s.Filled) (h : s.system.Sound seenHead seenTail)
    {input : ProducerInput k ω} (hpermits : s.permits (.produce input) = true) :
    (s.act (.produce input)).Filled where
  complete i hi hlt := by
    intro w
    refine marksProduced_of_marks input ?_
    by_cases hbefore : i < s.system.complete
    · exact f.complete i hi hbefore w
    · have hlt' : i < (s.system.produce input).complete := hlt
      rcases h.complete_produce input with hle | ⟨heq, ⟨goal, v, tail, j, hp, hj⟩ | ⟨tail, hp, rfl⟩⟩
      · omega
      · obtain rfl : i = s.system.complete := by omega
        have htail := h.target_eq (i := tail) (by rw [hp]; rfl)
        rw [← htail]
        exact f.storing goal v tail j hp w (by omega)
      · obtain rfl : i = s.system.complete := by omega
        have htail := h.target_eq (i := tail) (by rw [hp]; rfl)
        rw [← htail]
        exact full_of_permits hp hpermits w
  storing goal v tail j hp w hw := by
    rcases ProducerPhase.phase_step_store hp with rfl | hbefore | ⟨j', rfl, hbefore, hj, rfl⟩
    · exact absurd hw (Nat.not_lt_zero _)
    · exact marksProduced_of_marks input (f.storing goal v tail j hbefore w hw)
    · show s.marksProduced .proceed (n.index tail) w = true
      rw [marksProduced_store hbefore hj]
      by_cases hlast : w.val = j'
      · obtain rfl : w = ⟨j', hj⟩ := Fin.ext hlast
        exact s.mark_self tail _
      · exact mark_of_marks (f.storing goal v tail j' hbefore w (by omega))

/-- A step of the consumer clears marks when it stores the head, and those of the slots
that it hands back. -/
theorem marksConsumed_eq (h : s.system.Sound seenHead seenTail) (input : ConsumerInput k ω) :
    s.marksConsumed input = s.marks ∨
      s.marksConsumed input = fun slot w => s.marks slot w &&
        !spans n (n.cursor s.system.removed.length)
          (n.cursor (s.system.consume input).removed.length) slot := by
  have hknows := h.consumer
  unfold marksConsumed
  split
  · next head result hp =>
    rw [hp] at hknows
    obtain ⟨v, hv, rfl, -, -⟩ := hknows
    have hread := h.read_published (Nat.le_refl _) hv
    have hremoved : (s.system.consume .proceed).removed.length =
        s.system.removed.length + (result.elements v).length := by
      simp [System.consume, System.removedAfter, hp, h.head, hread]
    rw [hremoved, h.head]
    exact .inr rfl
  · exact .inl rfl

/-- The consumer clears no mark of an element that it leaves, nor of the slot behind the
complete elements. -/
theorem marksConsumed_of_marks (h : s.system.Sound seenHead seenTail) {input : ConsumerInput k ω}
    {i : Nat} (hle : (s.system.consume input).removed.length ≤ i) (hlt : i < seenHead + n.size)
    {w : Fin k} (hmark : s.marks (n.index (n.cursor i)) w = true) :
    s.marksConsumed input (n.index (n.cursor i)) w = true := by
  rcases marksConsumed_eq h input with heq | heq
  · rwa [heq]
  · have hkept : ¬spans n (n.cursor s.system.removed.length)
        (n.cursor (s.system.consume input).removed.length) (n.index (n.cursor i)) = true := by
      have hseen := h.seenHead_le
      have hgrows := (s.system.removed_prefix_consume input).length_le
      rw [spans_cursor n hgrows (by omega)]
      rintro ⟨j, hj, hji, hindex⟩
      exact n.index_cursor_ne (by omega) (by omega) hindex
    simp [heq, hmark, hkept]

/-- A step of the consumer keeps complete slots full. -/
theorem Filled.consume (f : s.Filled) (h : s.system.Sound seenHead seenTail)
    (input : ConsumerInput k ω) : (s.act (.consume input)).Filled := by
  obtain ⟨seen, hafter⟩ := h.consume input
  have hpublished := s.system.length_published_consume input
  have hremoved := hafter.removed_le.trans hafter.seenTail_le
  have hgrows := (s.system.removed_prefix_consume input).length_le
  constructor
  case complete =>
    intro i hi hlt w
    have hi' : (s.system.consume input).removed.length ≤ i := hi
    have hlt' : i < s.system.complete := by
      rw [← s.system.complete_consume input]
      exact hlt
    have hle := s.system.complete_le
    have hroom := h.room
    have hpos := n.size_pos
    exact marksConsumed_of_marks h hi (by omega) (f.complete i (by omega) hlt' w)
  case storing =>
    intro goal v tail j hp w hw
    have hp' : s.system.producer = .store goal v tail j := hp
    obtain ⟨p, rfl, hle, hlt⟩ := h.target_produce (i := tail) (by rw [hp']; rfl)
    exact marksConsumed_of_marks h (by omega) (by omega) (f.storing goal v _ j hp' w hw)

/-- An action that the caller is permitted keeps complete slots full. -/
theorem Filled.act (f : s.Filled) (h : s.system.Sound seenHead seenTail) {action : Action k ω}
    (hpermits : s.permits action = true) : (s.act action).Filled := by
  cases action with
  | produce input => exact f.produce h hpermits
  | consume input => exact f.consume h input

/-- Without the marks, what an action does is what it does to the two handles. -/
theorem system_act (s : Marked n k ω) (action : Action k ω) :
    (s.act action).system = s.system.act action := by
  cases action <;> rfl

/-- Careful actions keep the handles sound and complete slots full. -/
theorem Filled.foldl {actions : List (Action k ω)} :
    ∀ {s : Marked n k ω}, s.Filled → (∃ c e, s.system.Sound c e) → s.careful actions = true →
      (actions.foldl Marked.act s).Filled ∧
        ∃ c e, (actions.foldl Marked.act s).system.Sound c e := by
  induction actions with
  | nil => exact fun f h _ => ⟨f, h⟩
  | cons action actions ih =>
      rintro s f ⟨c, e, h⟩ hcareful
      obtain ⟨hpermits, hrest⟩ := Bool.and_eq_true_iff.mp hcareful
      refine ih (f.act h hpermits) ?_ hrest
      rw [system_act]
      exact h.act action

end Marked

end LockFreeRings.Spsc
