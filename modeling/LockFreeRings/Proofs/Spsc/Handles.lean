import LockFreeRings.Proofs.Spsc.Cursors
import LockFreeRings.Spsc.Producer
import LockFreeRings.Spsc.Consumer
set_option autoImplicit false

/-!
# Two handles on one ring

A producer and a consumer share a ring, each in a phase of its own.  At every
moment either of them may take its next step, with whatever input its caller
gives, so a run is any list of `Action`s; `System.run` is the state after it.

Beside the ring a system keeps three lists that no step reads.  `draft` are the
elements that the producer's call has put into the slots behind the tail and has
not published; they are the elements its caller gave, word by word for a slot that
is held.  `published` are the elements published so far, and `removed` those taken
out, both in order.  Publishing happens when the tail is stored, removing when the
head is.  A word that the consumer stores into a held slot changes the element
among the published ones.
-/

namespace LockFreeRings.Spsc

variable {n : SlotCount} {k : Nat} {ω : Type}

/-- The elements that a consumer's call has removed when it returns; `front` is
what is in the slot of the head. -/
def ConsumerReturn.elements (front : Element k ω) : ConsumerReturn k ω → List (Element k ω)
  | .popped v | .taken v => [v]
  | .poppedMany vs => vs
  | .released => [front]
  | .empty | .noSlot | .seen _ | .kept | .len _ => []

/-- A ring, what its two handles are doing, and the books. -/
structure System (n : SlotCount) (k : Nat) (ω : Type) where
  ring : Ring n k ω
  producer : ProducerPhase k ω := .idle
  consumer : ConsumerPhase k ω := .idle
  draft : List (Element k ω) := []
  published : List (Element k ω) := []
  removed : List (Element k ω) := []

/-- What happens next. -/
inductive Action (k : Nat) (ω : Type) where
  | produce (input : ProducerInput k ω)
  | consume (input : ConsumerInput k ω)

namespace System

/-- A new ring, and both handles between calls. -/
def start (n : SlotCount) (blank : Element k ω) : System n k ω where
  ring := .new n blank

/-- What is in the slots behind the tail once the room is known, by the phase that
comes then.  A slot that is held starts with what is in it. -/
def draftEntering (s : System n k ω) : ProducerPhase k ω → List (Element k ω)
  | .idle => []
  | .hold tail => [s.ring.read tail]
  | _ => s.draft

/-- What is in the slots behind the tail after a step of the producer that ends
in the phase `after`. -/
def draftAfter (s : System n k ω) (input : ProducerInput k ω) (after : ProducerPhase k ω) :
    List (Element k ω) :=
  match input, s.producer, after with
  | .proceed, .check _ _ _ _, after => s.draftEntering after
  | .proceed, .refresh _ _ _ _, after => s.draftEntering after
  | _, _, .idle => []
  | .proceed, .store _ v _ j, _ => if j < k then s.draft else s.draft ++ [v]
  | .setWord j w, .hold _, _ => s.draft.map fun v => v.set j w j.isLt
  | .write _, .hold _, _ => []
  | _, _, _ => s.draft

/-- The elements published after a step of the producer. -/
def publishedAfter (s : System n k ω) (input : ProducerInput k ω) : List (Element k ω) :=
  match input, s.producer with
  | .proceed, .publish _ _ => s.published ++ s.draft
  | _, _ => s.published

/-- A step of the producer. -/
def produce (s : System n k ω) (input : ProducerInput k ω) : System n k ω :=
  let step := s.producer.step s.ring input
  { s with
    ring := step.ring
    producer := step.phase
    draft := s.draftAfter input step.phase
    published := s.publishedAfter input }

/-- The published elements after a step of the consumer. -/
def editedAfter (s : System n k ω) (input : ConsumerInput k ω) : List (Element k ω) :=
  match input, s.consumer with
  | .editWord j w, .hold _ => s.published.modify s.removed.length fun v => v.set j w j.isLt
  | _, _ => s.published

/-- The elements removed after a step of the consumer. -/
def removedAfter (s : System n k ω) (input : ConsumerInput k ω) : List (Element k ω) :=
  match input, s.consumer with
  | .proceed, .vacate _ result => s.removed ++ result.elements (s.ring.read s.ring.head)
  | _, _ => s.removed

/-- A step of the consumer. -/
def consume (s : System n k ω) (input : ConsumerInput k ω) : System n k ω :=
  let step := s.consumer.step s.ring input
  { s with
    ring := step.ring
    consumer := step.phase
    published := s.editedAfter input
    removed := s.removedAfter input }

/-- What an action does. -/
def act (s : System n k ω) : Action k ω → System n k ω
  | .produce input => s.produce input
  | .consume input => s.consume input

/-- The state after a run. -/
def run (n : SlotCount) (blank : Element k ω) (actions : List (Action k ω)) : System n k ω :=
  actions.foldl act (start n blank)

/-! ## What the next step comes to

A handle that goes on by itself, with one equation for each phase.  Where a phase leads
depends on the ring only when the room or the elements become known; then the system is
`producing` or `consuming` what comes of that. -/

section Proceed

variable {s : System n k ω}

/-- It is enough to know what the phase does. -/
theorem produce_eq_of_proceed {step : ProducerStep n k ω} (h : s.producer.proceed s.ring = step) :
    s.produce .proceed = { s with
      ring := step.ring
      producer := step.phase
      draft := s.draftAfter .proceed step.phase
      published := s.publishedAfter .proceed } := by
  rw [← h]
  rfl

/-- The system when a call of the producer knows the room, with what comes of it. -/
def producing (s : System n k ω) (step : ProducerStep n k ω) : System n k ω :=
  { s with
    ring := step.ring
    producer := step.phase
    draft := s.draftEntering step.phase }

theorem produce_of_load {goal : ProducerGoal k ω} (hp : s.producer = .load goal) :
    s.produce .proceed = { s with producer := .check goal s.ring.tail s.ring.tail 0 } := by
  cases s
  cases hp
  rfl

theorem produce_of_check_of_le {goal : ProducerGoal k ω} {start tail : UInt64} {count : Nat}
    (hp : s.producer = .check goal start tail count) (h : goal.want ≤ s.ring.knownRoom tail) :
    s.produce .proceed = s.producing
      (ProducerPhase.enter s.ring goal start tail count (s.ring.knownRoom tail)) := by
  cases s
  cases hp
  exact produce_eq_of_proceed (ProducerPhase.proceed_check_of_le h start count)

theorem produce_of_check_of_not_le {goal : ProducerGoal k ω} {start tail : UInt64} {count : Nat}
    (hp : s.producer = .check goal start tail count) (h : ¬goal.want ≤ s.ring.knownRoom tail) :
    s.produce .proceed = { s with producer := .refresh goal start tail count } := by
  cases s
  cases hp
  exact produce_eq_of_proceed (ProducerPhase.proceed_check_of_not_le h start count)

theorem produce_of_refresh {goal : ProducerGoal k ω} {start tail : UInt64} {count : Nat}
    (hp : s.producer = .refresh goal start tail count) :
    s.produce .proceed = s.producing (ProducerPhase.enter s.ring.refreshHead goal start tail count
      (s.ring.refreshHead.knownRoom tail)) := by
  cases s
  cases hp
  rfl

theorem produce_of_copy {v : Element k ω} {rest : List (Element k ω)} {tail : UInt64}
    {count : Nat} (hp : s.producer = .copy v rest tail count) :
    s.produce .proceed = { s with producer := .store (.batch rest count) v tail 0 } := by
  cases s
  cases hp
  rfl

theorem produce_of_store_of_lt {goal : StoreGoal k ω} {v : Element k ω} {tail : UInt64} {j : Nat}
    (hp : s.producer = .store goal v tail j) (hj : j < k) :
    s.produce .proceed = { s with
      ring := s.ring.writeWord tail ⟨j, hj⟩ v[j]
      producer := .store goal v tail (j + 1) } := by
  have hdraft : s.draftAfter .proceed (.store goal v tail (j + 1)) = s.draft := by
    cases s
    cases hp
    exact if_pos hj
  have hstep := ProducerPhase.proceed_store_of_lt s.ring goal v tail hj
  rw [← hp] at hstep
  rw [produce_eq_of_proceed hstep, hdraft]
  cases s
  cases hp
  rfl

/-- An element that is stored joins the draft. -/
theorem produce_of_store_of_not_lt {goal : StoreGoal k ω} {v : Element k ω} {tail : UInt64}
    {j : Nat} (hp : s.producer = .store goal v tail j) (hj : ¬j < k) :
    s.produce .proceed = { s with
      producer := (ProducerPhase.stored s.ring goal tail).phase
      draft := s.draft ++ [v] } := by
  have hdraft : s.draftAfter .proceed (ProducerPhase.stored s.ring goal tail).phase =
      s.draft ++ [v] := by
    cases s
    cases hp
    cases goal with
    | batch rest count => cases rest <;> exact if_neg hj
    | _ => exact if_neg hj
  have hring : (ProducerPhase.stored s.ring goal tail).ring = s.ring := by
    cases goal with
    | batch rest count => cases rest <;> rfl
    | _ => rfl
  have hstep := ProducerPhase.proceed_store_of_not_lt s.ring goal v tail hj
  rw [← hp] at hstep
  rw [produce_eq_of_proceed hstep, hdraft, hring]
  cases s
  cases hp
  rfl

theorem produce_of_publish {tail : UInt64} {result : ProducerReturn k ω}
    (hp : s.producer = .publish tail result) :
    s.produce .proceed = { s with
      ring := s.ring.publish tail
      producer := .idle
      draft := []
      published := s.published ++ s.draft } := by
  cases s
  cases hp
  rfl

theorem produce_of_commit (hp : s.producer = .commit) :
    s.produce .proceed = { s with producer := .publish (next n s.ring.tail) .committed } := by
  cases s
  cases hp
  rfl

theorem produce_of_lenHead (hp : s.producer = .lenHead) :
    s.produce .proceed = { s with producer := .lenTail s.ring.head } := by
  cases s
  cases hp
  rfl

theorem produce_of_lenTail {head : UInt64} (hp : s.producer = .lenTail head) :
    s.produce .proceed = { s with producer := .idle, draft := [] } := by
  cases s
  cases hp
  rfl

theorem consume_eq_of_proceed {step : ConsumerStep n k ω} (h : s.consumer.proceed s.ring = step) :
    s.consume .proceed = { s with
      ring := step.ring
      consumer := step.phase
      published := s.editedAfter .proceed
      removed := s.removedAfter .proceed } := by
  rw [← h]
  rfl

/-- The system when a call of the consumer knows the elements, with what comes of it. -/
def consuming (s : System n k ω) (step : ConsumerStep n k ω) : System n k ω :=
  { s with
    ring := step.ring
    consumer := step.phase }

theorem consume_of_load {goal : ConsumerGoal k ω} (hc : s.consumer = .load goal) :
    s.consume .proceed = { s with consumer := .check goal s.ring.head } := by
  cases s
  cases hc
  rfl

theorem consume_of_check_of_le {goal : ConsumerGoal k ω} {head : UInt64}
    (hc : s.consumer = .check goal head) (h : goal.want ≤ s.ring.knownAvailable head) :
    s.consume .proceed = s.consuming
      (ConsumerPhase.enter s.ring goal head (s.ring.knownAvailable head)) := by
  cases s
  cases hc
  exact consume_eq_of_proceed (ConsumerPhase.proceed_check_of_le h)

theorem consume_of_check_of_not_le {goal : ConsumerGoal k ω} {head : UInt64}
    (hc : s.consumer = .check goal head) (h : ¬goal.want ≤ s.ring.knownAvailable head) :
    s.consume .proceed = { s with consumer := .refresh goal head } := by
  cases s
  cases hc
  exact consume_eq_of_proceed (ConsumerPhase.proceed_check_of_not_le h)

theorem consume_of_refresh {goal : ConsumerGoal k ω} {head : UInt64}
    (hc : s.consumer = .refresh goal head) :
    s.consume .proceed = s.consuming (ConsumerPhase.enter s.ring.refreshTail goal head
      (s.ring.refreshTail.knownAvailable head)) := by
  cases s
  cases hc
  rfl

theorem consume_of_read_of_lt {goal : ReadGoal k ω} {head : UInt64} {j : Nat}
    {into : Element k ω} (hc : s.consumer = .read goal head j into) (hj : j < k) :
    s.consume .proceed = { s with
      consumer := .read goal head (j + 1) (into.set j (s.ring.read head)[j]) } := by
  have hstep := ConsumerPhase.proceed_read_of_lt s.ring goal head into hj
  rw [← hc] at hstep
  rw [consume_eq_of_proceed hstep]
  cases s
  cases hc
  rfl

/-- Reading an element leaves the ring as it is. -/
theorem consume_of_read_of_not_lt {goal : ReadGoal k ω} {head : UInt64} {j : Nat}
    {into : Element k ω} (hc : s.consumer = .read goal head j into) (hj : ¬j < k) :
    s.consume .proceed = { s with
      consumer := (ConsumerPhase.finished s.ring goal head into).phase } := by
  have hring : (ConsumerPhase.finished s.ring goal head into).ring = s.ring := by
    cases goal with
    | batch left out => cases left <;> rfl
    | _ => rfl
  have hstep := ConsumerPhase.proceed_read_of_not_lt s.ring goal head into hj
  rw [← hc] at hstep
  rw [consume_eq_of_proceed hstep, hring]
  cases s
  cases hc
  rfl

theorem consume_of_vacate {head : UInt64} {result : ConsumerReturn k ω}
    (hc : s.consumer = .vacate head result) :
    s.consume .proceed = { s with
      ring := s.ring.vacate head
      consumer := .idle
      removed := s.removed ++ result.elements (s.ring.read s.ring.head) } := by
  cases s
  cases hc
  rfl

theorem consume_of_release {result : ConsumerReturn k ω} (hc : s.consumer = .release result) :
    s.consume .proceed = { s with consumer := .vacate (next n s.ring.head) result } := by
  cases s
  cases hc
  rfl

theorem consume_of_lenHead (hc : s.consumer = .lenHead) :
    s.consume .proceed = { s with consumer := .lenTail s.ring.head } := by
  cases s
  cases hc
  rfl

theorem consume_of_lenTail {head : UInt64} (hc : s.consumer = .lenTail head) :
    s.consume .proceed = { s with consumer := .idle } := by
  cases s
  cases hc
  rfl

end Proceed

/-! ## What the consumer leaves -/

/-- What is removed stays so. -/
theorem removed_prefix_consume (s : System n k ω) (input : ConsumerInput k ω) :
    s.removed <+: (s.consume input).removed := by
  show s.removed <+: s.removedAfter input
  unfold removedAfter
  split
  · exact List.prefix_append _ _
  · exact List.prefix_refl _

/-- The consumer edits published elements, but publishes none. -/
theorem length_published_consume (s : System n k ω) (input : ConsumerInput k ω) :
    (s.consume input).published.length = s.published.length := by
  show (s.editedAfter input).length = s.published.length
  unfold editedAfter
  split
  · exact List.length_modify _ _ _
  · rfl

end System

end LockFreeRings.Spsc
