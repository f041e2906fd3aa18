import LockFreeRings.Proofs.Spsc.Handover
import LockFreeRings.Proofs.Spsc.Nesting
set_option autoImplicit false

/-!
# The states of rings

A ring comes to a state by steps of its two handles, in any order and up to any moment, and
by commands with all that is nested in them (`Ring.Arises`).  In every such state it holds a
queue (`Ring.Arises.represents`): the elements published and not yet removed, and what is in
the other slots, whether a call is under way there or not.

Steps and commands can follow each other, since what the handles do depends on the ring alone
and not on the books that are kept beside it (`System.act_eq`).
-/

namespace LockFreeRings.Spsc

variable {n : SlotCount} {k : Nat} {ω : Type}

/-- The elements in the slots from the head up to the tail. -/
def Ring.queue (r : Ring n k ω) : List (Element k ω) := (r.readRun r.len.toNat r.head).1

theorem Ring.Represents.queue_eq {r : Ring n k ω} {f : Fifo k ω} {m : Marks}
    (h : r.Represents f m) : r.queue = f.queue := by
  have hrun := h.readRun_eq f.queue.length (i := 0) (by omega)
  rw [Ring.queue, h.toNat_len, h.head, ← Nat.add_zero m.removed, hrun, List.drop_zero,
    List.take_length]

/-! ## Steps of the handles -/

namespace System

/-- The queue that a ring holds while its handles are at work. -/
def fifo (s : System n k ω) : Fifo k ω where
  queue := s.published.drop s.removed.length
  vacant := (List.range (n.size - (s.published.length - s.removed.length))).map fun i =>
    s.ring.read (n.cursor (s.published.length + i))

/-- The invariant of the handles says what the ring holds. -/
theorem Sound.represents {s : System n k ω} {seenHead seenTail : Nat}
    (h : s.Sound seenHead seenTail) :
    s.ring.Represents s.fifo ⟨s.removed.length, seenHead, seenTail⟩ := by
  have hremoved := h.removed_le.trans h.seenTail_le
  have hroom := h.room
  have hseen := h.seenHead_le
  have hpos := n.size_pos
  have hlength : s.fifo.queue.length = s.published.length - s.removed.length := List.length_drop
  have happended : s.fifo.appended ⟨s.removed.length, seenHead, seenTail⟩ = s.published.length := by
    rw [Fifo.appended, hlength]
    exact Nat.add_sub_cancel' hremoved
  constructor
  case head => exact h.head
  case tail => rw [happended, h.tail]
  case cachedHead => exact h.cachedHead
  case cachedTail => exact h.cachedTail
  case seenHead_le => exact h.seenHead_le
  case removed_le => exact h.removed_le
  case seenTail_le => rw [happended]; exact h.seenTail_le
  case appended_le => rw [happended]; exact (Nat.le_add_right _ _).trans hroom
  case length =>
    rw [hlength, fifo, List.length_map, List.length_range]
    omega
  case places =>
    intro i v hv
    rcases Nat.lt_or_ge i s.fifo.queue.length with hlt | hge
    · rw [List.getElem?_append_left hlt, fifo, List.getElem?_drop] at hv
      exact h.read_published (Nat.le_add_right _ _) hv
    · rw [hlength] at hge
      rw [List.getElem?_append_right (by rwa [hlength]), hlength, fifo, List.getElem?_map] at hv
      obtain ⟨j, hj, hread⟩ := Option.map_eq_some_iff.mp hv
      obtain ⟨_, hget⟩ := List.getElem?_eq_some_iff.mp hj
      rw [List.getElem_range] at hget
      have hcount : s.published.length + j = s.removed.length + i := by omega
      rw [← hread, hcount]

/-- The books that a ring could have come with. -/
def resumed (r : Ring n k ω) (f : Fifo k ω) (m : Marks) (blank : Element k ω) :
    System n k ω where
  ring := r
  published := List.replicate m.removed blank ++ f.queue
  removed := List.replicate m.removed blank

theorem sound_resumed {r : Ring n k ω} {f : Fifo k ω} {m : Marks} (h : r.Represents f m)
    (blank : Element k ω) : (resumed r f m blank).Sound m.seenHead m.seenTail := by
  have hremoved : (resumed r f m blank).removed.length = m.removed := List.length_replicate
  have hpublished : (resumed r f m blank).published.length = f.appended m := by
    rw [resumed, List.length_append, List.length_replicate, Fifo.appended]
  constructor
  case tail => rw [hpublished]; exact h.tail
  case head => rw [hremoved]; exact h.head
  case cachedHead => exact h.cachedHead
  case cachedTail => exact h.cachedTail
  case seenHead_le => rw [hremoved]; exact h.seenHead_le
  case removed_le => rw [hremoved]; exact h.removed_le
  case seenTail_le => rw [hpublished]; exact h.seenTail_le
  case room => rw [hpublished]; exact h.appended_le
  case slots =>
    intro i v hi hv
    rw [hremoved] at hi
    have hqueue : f.queue[i - m.removed]? = some v := by
      simpa [resumed, List.getElem?_append_right, hi] using hv
    have hread := h.read_queue hqueue
    rwa [Nat.add_sub_cancel' hi] at hread
  case in_order => exact List.prefix_append _ _
  case producer => exact rfl
  case consumer => trivial

/-- No step reads the books. -/
theorem act_eq {s s' : System n k ω} (hring : s'.ring = s.ring) (hproducer : s'.producer = s.producer)
    (hconsumer : s'.consumer = s.consumer) (action : Action k ω) :
    (s'.act action).ring = (s.act action).ring ∧
      (s'.act action).producer = (s.act action).producer ∧
      (s'.act action).consumer = (s.act action).consumer := by
  cases action with
  | produce input =>
      refine ⟨?_, ?_, hconsumer⟩ <;> simp only [act, produce, hring, hproducer]
  | consume input =>
      refine ⟨?_, hproducer, ?_⟩ <;> simp only [act, consume, hring, hconsumer]

theorem ring_foldl_act {s s' : System n k ω} (hring : s'.ring = s.ring)
    (hproducer : s'.producer = s.producer) (hconsumer : s'.consumer = s.consumer)
    (actions : List (Action k ω)) : (actions.foldl act s').ring = (actions.foldl act s).ring := by
  induction actions generalizing s s' with
  | nil => exact hring
  | cons action actions ih =>
      obtain ⟨hring', hproducer', hconsumer'⟩ := act_eq hring hproducer hconsumer action
      exact ih hring' hproducer' hconsumer'

end System

/-! ## What a ring comes to -/

/-- The states of a ring that began with `blank` in its slots. -/
inductive Ring.Arises (blank : Element k ω) : Ring n k ω → Prop where
  | new : Arises blank (.new n blank)
  /-- The two handles take steps, from between calls on. -/
  | steps {r : Ring n k ω} (h : Arises blank r) (actions : List (Action k ω)) :
      Arises blank (actions.foldl System.act { ring := r }).ring
  /-- A command runs, and what is nested in it. -/
  | command {r : Ring n k ω} (h : Arises blank r) (watched : Bool) {fuel : Nat} (reach : Reach)
      (c : Command k ω) (scene : Scene k ω)
      (hdepth : c.depth + iteratorsDepth scene.iterators ≤ fuel) :
      Arises blank (runCommand watched fuel reach c scene r).ring

/-- A ring holds a queue in every state. -/
theorem Ring.Arises.represents {blank : Element k ω} {r : Ring n k ω} (h : r.Arises blank) :
    ∃ f m, r.Represents f m := by
  induction h with
  | new => exact ⟨_, _, .new n blank⟩
  | @steps r h actions ih =>
      obtain ⟨f, m, hr⟩ := ih
      obtain ⟨c, e, hsound⟩ := System.foldl_sound ⟨_, _, System.sound_resumed hr blank⟩ actions
      have hring : (actions.foldl System.act (System.resumed r f m blank)).ring =
          (actions.foldl System.act { ring := r }).ring := by
        refine System.ring_foldl_act ?_ ?_ ?_ actions <;> rfl
      have hrepresents := hsound.represents
      rw [hring] at hrepresents
      exact ⟨_, _, hrepresents⟩
  | @command r h watched fuel reach c scene hdepth ih =>
      obtain ⟨f, m, hr⟩ := ih
      obtain ⟨f', m', -, hafter⟩ :=
        runCommand_follows watched fuel (Nat.le_refl _) (Nat.le_refl _) reach c scene r f m hdepth hr
      exact ⟨f', m', hafter.represents⟩

end LockFreeRings.Spsc
