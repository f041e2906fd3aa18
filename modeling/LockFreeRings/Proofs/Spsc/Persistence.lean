import LockFreeRings.Proofs.Spsc.Regions
import LockFreeRings.Proofs.Spsc.Publishing
import LockFreeRings.Spsc.Command
set_option autoImplicit false

/-!
# A slot keeps its words

A word of a slot is what was stored there last.  A held slot that is published when only some
of its words were stored shows what earlier laps have left in the others: elements that were
removed, elements of a batch that failed, a slot that was given up.

`Recorded` is a system of two handles with a history of all words that were stored.  An entry
says in the place of which element the word was stored, counted from the first element that was
ever published; places a whole number of laps apart share a slot.  Nothing in the history is
read from the memory.
-/

namespace LockFreeRings.Spsc

variable {n : SlotCount} {k : Nat} {ω : Type}

/-- A word that was stored. -/
structure Store (k : Nat) (ω : Type) where
  /-- the side that stored it -/
  side : Handle
  /-- the number of the element in whose place it was stored -/
  number : Nat
  word : Fin k
  value : ω

/-- The last value that was stored to a word of a physical slot. -/
def lastStored (n : SlotCount) (history : List (Store k ω)) (slot : Nat) (j : Fin k) : Option ω :=
  ((history.filter fun st => st.number % n.size = slot ∧ st.word = j).getLast?).map Store.value

/-- The words that the consumer stored in the place of an element. -/
def editsOf (history : List (Store k ω)) (number : Nat) : List (Store k ω) :=
  history.filter fun st => st.side = .consumer ∧ st.number = number

/-- An element after some of its words were stored. -/
def edited (v : Element k ω) (edits : List (Store k ω)) : Element k ω :=
  edits.foldl (fun v st => v.set st.word st.value) v

/-- What an action stores. -/
def System.stores (s : System n k ω) : Action k ω → List (Store k ω)
  | .produce .proceed =>
    match s.producer with
    | .store _ v _ j =>
      if h : j < k then [⟨.producer, s.published.length + s.draft.length, ⟨j, h⟩, v[j]⟩] else []
    | _ => []
  | .produce (.setWord j w) =>
    match s.producer with
    | .hold _ => [⟨.producer, s.published.length, j, w⟩]
    | _ => []
  | .consume (.editWord j w) =>
    match s.consumer with
    | .hold _ => [⟨.consumer, s.removed.length, j, w⟩]
    | _ => []
  | _ => []

/-- Two handles on a ring, and what was stored. -/
structure Recorded (n : SlotCount) (k : Nat) (ω : Type) where
  system : System n k ω
  history : List (Store k ω) := []

namespace Recorded

/-- A new ring. -/
def start (n : SlotCount) (blank : Element k ω) : Recorded n k ω where
  system := .start n blank

/-- What an action does. -/
def act (s : Recorded n k ω) (action : Action k ω) : Recorded n k ω :=
  ⟨s.system.act action, s.history ++ s.system.stores action⟩

/-- The state after a run. -/
def run (n : SlotCount) (blank : Element k ω) (actions : List (Action k ω)) : Recorded n k ω :=
  actions.foldl act (start n blank)

end Recorded

/-! ## The last store -/

section

variable (history : List (Store k ω)) (slot : Nat) (j : Fin k)

theorem lastStored_append (more : List (Store k ω)) :
    lastStored n (history ++ more) slot j =
      (lastStored n more slot j).or (lastStored n history slot j) := by
  rw [lastStored, List.filter_append, List.getLast?_append, Option.map_or]
  rfl

theorem lastStored_singleton_self (st : Store k ω) :
    lastStored n [st] (st.number % n.size) st.word = some st.value := by
  simp [lastStored]

variable {history slot j} in
theorem lastStored_eq_none (h : ∀ st ∈ history, st.number % n.size = slot → st.word ≠ j) :
    lastStored n history slot j = none := by
  have hfilter : (history.filter fun st => st.number % n.size = slot ∧ st.word = j) = [] := by
    rw [List.filter_eq_nil_iff]
    intro st hst
    simpa using h st hst
  rw [lastStored, hfilter]
  rfl

end

/-! ## Words of a slot -/

namespace Ring

variable {r : Ring n k ω} {blank : Element k ω} {history : List (Store k ω)}

/-- A word that is stored is seen in its slot, and nothing else has changed. -/
theorem get_read_writeWord (r : Ring n k ω) (p i : Nat) (m j : Fin k) (w : ω) :
    ((r.writeWord (n.cursor p) m w).read (n.cursor i)).get j =
      if p % n.size = i % n.size ∧ m = j then w else (r.read (n.cursor i)).get j := by
  by_cases hslot : p % n.size = i % n.size
  · have hcursor : n.cursor p = n.cursor i := n.cursor_eq_iff.mpr hslot
    rw [hcursor, read_writeWord]
    by_cases hword : m = j
    · subst hword
      rw [if_pos ⟨hslot, rfl⟩]
      exact Vector.getElem_set_self m.isLt
    · rw [if_neg fun h => hword h.2]
      exact Vector.getElem_set_ne m.isLt j.isLt (Fin.val_ne_of_ne hword)
  · have hne : n.index (n.cursor p) ≠ n.index (n.cursor i) := by
      intro h
      have hval := congrArg Fin.val h
      rw [SlotCount.val_index, SlotCount.val_index, SlotCount.toNat_cursor,
        SlotCount.toNat_cursor, Nat.mod_mod, Nat.mod_mod] at hval
      exact hslot hval
    rw [r.read_writeWord_of_ne hne, if_neg fun h => hslot h.1]

/-- Stores words one after the other, each in the slot of its element. -/
def storeAll (r : Ring n k ω) (stores : List (Store k ω)) : Ring n k ω :=
  stores.foldl (fun r st => r.writeWord (n.cursor st.number) st.word st.value) r

/-- Every word of every slot is what was stored there last, or what it began with. -/
def Recalls (r : Ring n k ω) (blank : Element k ω) (history : List (Store k ω)) : Prop :=
  ∀ (i : Nat) (j : Fin k), (r.read (n.cursor i)).get j =
    (lastStored n history (i % n.size) j).getD (blank.get j)

theorem Recalls.new (n : SlotCount) (blank : Element k ω) : (Ring.new n blank).Recalls blank [] := by
  intro i j
  simp [Ring.new, Ring.read, lastStored]

theorem Recalls.store (h : r.Recalls blank history) (st : Store k ω) :
    (r.writeWord (n.cursor st.number) st.word st.value).Recalls blank (history ++ [st]) := by
  intro i j
  rw [get_read_writeWord, lastStored_append]
  split
  · next hsame =>
    obtain ⟨hslot, rfl⟩ := hsame
    rw [← hslot, lastStored_singleton_self]
    rfl
  · next hother =>
    rw [lastStored_eq_none, Option.none_or]
    · exact h i j
    · intro st' hst' hslot hword
      obtain rfl := List.mem_singleton.mp hst'
      exact hother ⟨hslot, hword⟩

theorem Recalls.storeAll (h : r.Recalls blank history) (stores : List (Store k ω)) :
    (r.storeAll stores).Recalls blank (history ++ stores) := by
  induction stores generalizing r history with
  | nil =>
      rw [List.append_nil]
      exact h
  | cons st stores ih =>
      rw [List.append_cons]
      exact ih (h.store st)

theorem Recalls.congr {r' : Ring n k ω} (h : r.Recalls blank history) (hslots : r'.slots = r.slots) :
    r'.Recalls blank history := by
  intro i j
  rw [Ring.read_congr hslots]
  exact h i j

end Ring

/-! ## What an action stores -/

namespace System

variable {s : System n k ω} {seenHead seenTail : Nat}

/-- A producer that goes on by itself changes a slot only by storing a word of an element. -/
theorem slots_proceed_of_ne_store {r : Ring n k ω} {phase : ProducerPhase k ω}
    (hphase : ∀ goal v tail j, phase ≠ .store goal v tail j) :
    (phase.proceed r).ring.slots = r.slots := by
  cases phase with
  | store goal v tail j => exact absurd rfl (hphase goal v tail j)
  | check goal start tail count =>
      rw [ProducerPhase.proceed]
      split
      · rw [ProducerPhase.ring_enter]
      · rfl
  | refresh goal start tail count =>
      rw [ProducerPhase.proceed, ProducerPhase.ring_enter]
      rfl
  | _ => rfl

/-- The producer stores behind what it has drafted, and in the slot that it holds. -/
theorem Sound.slots_produce (h : s.Sound seenHead seenTail) (input : ProducerInput k ω) :
    (s.produce input).ring.slots = (s.ring.storeAll (s.stores (.produce input))).slots := by
  have hknows := h.producer
  cases input with
  | proceed =>
      cases hp : s.producer with
      | store goal v tail j =>
          rw [hp] at hknows
          obtain ⟨rfl, -⟩ := hknows
          by_cases hj : j < k <;>
            simp [System.produce, ProducerPhase.step, ProducerPhase.proceed, System.stores, hp, hj,
              Ring.storeAll]
      | _ =>
          have hnone : s.stores (.produce .proceed) = [] := by simp [System.stores, hp]
          rw [hnone]
          exact slots_proceed_of_ne_store (by simp [hp])
  | setWord j w =>
      cases hp : s.producer with
      | hold tail =>
          rw [hp] at hknows
          obtain ⟨rfl, -⟩ := hknows
          simp [System.produce, ProducerPhase.step, System.stores, hp, Ring.storeAll]
      | _ => simp [System.produce, ProducerPhase.step, System.stores, hp, Ring.storeAll]
  | answer answer =>
      cases answer <;> cases hp : s.producer <;>
        simp [System.produce, ProducerPhase.step, System.stores, hp, Ring.storeAll]
  | _ =>
      cases hp : s.producer <;>
        simp [System.produce, ProducerPhase.step, System.stores, hp, Ring.storeAll]

/-- A consumer that goes on by itself changes no slot, also when it removes elements. -/
theorem slots_proceed_consumer (r : Ring n k ω) (phase : ConsumerPhase k ω) :
    (phase.proceed r).ring.slots = r.slots := by
  cases phase with
  | check goal head =>
      rw [ConsumerPhase.proceed]
      split
      · rw [ConsumerPhase.ring_enter]
      · rfl
  | refresh goal head =>
      rw [ConsumerPhase.proceed, ConsumerPhase.ring_enter]
      rfl
  | read goal head j into =>
      rw [ConsumerPhase.proceed]
      split
      · rfl
      · rw [ConsumerPhase.ring_finished]
  | _ => rfl

/-- The consumer stores in the slot that it holds. -/
theorem Sound.slots_consume (h : s.Sound seenHead seenTail) (input : ConsumerInput k ω) :
    (s.consume input).ring.slots = (s.ring.storeAll (s.stores (.consume input))).slots := by
  have hknows := h.consumer
  cases input with
  | proceed => exact slots_proceed_consumer s.ring s.consumer
  | editWord j w =>
      cases hp : s.consumer with
      | hold head =>
          rw [hp] at hknows
          obtain ⟨rfl, -⟩ := hknows
          simp [System.consume, ConsumerPhase.step, System.stores, hp, Ring.storeAll]
      | _ => simp [System.consume, ConsumerPhase.step, System.stores, hp, Ring.storeAll]
  | _ =>
      cases hp : s.consumer <;>
        simp [System.consume, ConsumerPhase.step, System.stores, hp, Ring.storeAll]

theorem Sound.slots_act (h : s.Sound seenHead seenTail) (action : Action k ω) :
    (s.act action).ring.slots = (s.ring.storeAll (s.stores action)).slots := by
  cases action with
  | produce input => exact h.slots_produce input
  | consume input => exact h.slots_consume input

/-! ## What becomes of a published element -/

theorem editsOf_append (history more : List (Store k ω)) (p : Nat) :
    editsOf (history ++ more) p = editsOf history p ++ editsOf more p :=
  List.filter_append _ _

theorem edited_append (v : Element k ω) (edits more : List (Store k ω)) :
    edited v (edits ++ more) = edited (edited v edits) more :=
  List.foldl_append

/-- The producer's stores are no edits. -/
theorem editsOf_stores_produce (s : System n k ω) (input : ProducerInput k ω) (p : Nat) :
    editsOf (s.stores (.produce input)) p = [] := by
  cases input with
  | proceed =>
      cases hp : s.producer with
      | store goal v tail j => by_cases hj : j < k <;> simp [System.stores, editsOf, hp, hj]
      | _ => simp [System.stores, editsOf, hp]
  | setWord j w => cases hp : s.producer <;> simp [System.stores, editsOf, hp]
  | _ => simp [System.stores, editsOf]

/-- An action changes a published element by what the consumer stores in its place. -/
theorem getElem?_published_act (s : System n k ω) (action : Action k ω) {p : Nat} {v : Element k ω}
    (hv : s.published[p]? = some v) :
    (s.act action).published[p]? = some (edited v (editsOf (s.stores action) p)) := by
  cases action with
  | produce input =>
      rw [editsOf_stores_produce]
      show (s.publishedAfter input)[p]? = some v
      obtain ⟨hp, -⟩ := List.getElem?_eq_some_iff.mp hv
      unfold publishedAfter
      split
      · rw [List.getElem?_append_left hp]
        exact hv
      · exact hv
  | consume input =>
      cases input with
      | editWord j w =>
          cases hhold : s.consumer with
          | hold head =>
              have hstores : s.stores (.consume (.editWord j w)) =
                  [⟨.consumer, s.removed.length, j, w⟩] := by simp [System.stores, hhold]
              have hedited : (s.act (.consume (.editWord j w))).published =
                  s.published.modify s.removed.length fun v => v.set j w j.isLt := by
                simp [act, System.consume, editedAfter, hhold]
              rw [hstores, hedited]
              by_cases hp : s.removed.length = p
              · subst hp
                rw [List.getElem?_modify_eq, hv]
                simp [editsOf, edited]
              · rw [List.getElem?_modify_ne _ _ hp, hv]
                simp [editsOf, edited, hp]
          | _ => simpa [act, System.consume, editedAfter, System.stores, editsOf, edited, hhold] using hv
      | _ => exact hv

end System

/-! ## Committing a slot -/

namespace ProducerPhase

variable {r : Ring n k ω} {tail : UInt64}

/-- A producer is about to publish a held slot after it was committed. -/
theorem phase_step_committed {input : ProducerInput k ω} {phase : ProducerPhase k ω}
    (h : (phase.step r input).phase = .publish tail .committed) :
    phase = .commit ∨ phase = .publish tail .committed := by
  rcases step_publish rfl h with hp | ⟨v, last, j, rfl, rfl, hj⟩ | hp
  · exact .inl hp
  · simp [step, proceed, stored, hj] at h
  · exact .inr hp

end ProducerPhase

namespace System

variable {s : System n k ω} {seenHead seenTail : Nat}

/-- A committed slot is one element. -/
def OneCommitted (s : System n k ω) : Prop :=
  ∀ tail, s.producer = .publish tail .committed → s.draft.length = 1

theorem OneCommitted.act (hone : s.OneCommitted) (h : s.Sound seenHead seenTail)
    (action : Action k ω) : (s.act action).OneCommitted := by
  intro tail htail
  cases action with
  | consume input => exact hone tail htail
  | produce input =>
      have hknows := h.producer
      have hphase : (s.producer.step s.ring input).phase = .publish tail .committed := htail
      show (s.draftAfter input (s.producer.step s.ring input).phase).length = 1
      rw [hphase]
      rcases ProducerPhase.phase_step_committed hphase with hp | hp
      · rw [hp] at hknows
        rw [draftAfter_publish (.inl hp)]
        exact hknows
      · rw [draftAfter_publish (.inr hp)]
        exact hone tail hp

end System

/-! ## Runs -/

namespace Recorded

variable {blank : Element k ω} {s : Recorded n k ω}

/-- The invariant of a recorded run. -/
structure Sound (blank : Element k ω) (s : Recorded n k ω) : Prop where
  system : ∃ c e, s.system.Sound c e
  recalls : s.system.ring.Recalls blank s.history
  oneCommitted : s.system.OneCommitted

theorem Sound.start (n : SlotCount) (blank : Element k ω) : (start n blank).Sound blank where
  system := ⟨0, 0, .start n blank⟩
  recalls := .new n blank
  oneCommitted tail htail := by cases htail

theorem Sound.act (h : s.Sound blank) (action : Action k ω) : (s.act action).Sound blank := by
  obtain ⟨c, e, hsystem⟩ := h.system
  constructor
  case system => exact hsystem.act action
  case recalls => exact (h.recalls.storeAll (s.system.stores action)).congr (hsystem.slots_act action)
  case oneCommitted => exact h.oneCommitted.act hsystem action

theorem Sound.foldl (h : s.Sound blank) (actions : List (Action k ω)) :
    (actions.foldl Recorded.act s).Sound blank := by
  induction actions generalizing s with
  | nil => exact h
  | cons action actions ih => exact ih (h.act action)

/-- An element that was published is changed by the consumer's edits of it alone, and the rest
of a run adds to the history. -/
theorem exists_published_foldl (s : Recorded n k ω) (actions : List (Action k ω)) {p : Nat}
    {v : Element k ω} (hv : s.system.published[p]? = some v) :
    ∃ more, (actions.foldl act s).history = s.history ++ more ∧
      (actions.foldl act s).system.published[p]? = some (edited v (editsOf more p)) := by
  induction actions generalizing s v with
  | nil => exact ⟨[], (List.append_nil _).symm, hv⟩
  | cons action actions ih =>
      obtain ⟨more, hhistory, hpublished⟩ :=
        ih (s.act action) (s.system.getElem?_published_act action hv)
      refine ⟨s.system.stores action ++ more, ?_, ?_⟩
      · rw [List.foldl_cons, hhistory, ← List.append_assoc]
        rfl
      · rw [List.foldl_cons, hpublished, System.editsOf_append, System.edited_append]

/-- What the slots of a ring have kept that began with `blank` in each. -/
structure Persists (blank : Element k ω) (s : Recorded n k ω) : Prop where
  /-- Every word of every slot is what was stored there last, or what it began with. -/
  memory : ∀ (p : Nat) (j : Fin k), (s.system.ring.read (n.cursor p)).get j =
    (lastStored n s.history (p % n.size) j).getD (blank.get j)
  /-- A committed slot is published as one element, with all that is in the slot. -/
  committed : ∀ tail, s.system.producer = .publish tail .committed →
    ∃ v, (s.act (.produce .proceed)).system.published = s.system.published ++ [v] ∧
      ∀ j : Fin k, v.get j =
        (lastStored n s.history (s.system.published.length % n.size) j).getD (blank.get j)
  /-- A word stays as it is when nothing is stored to it. -/
  frame : ∀ (action : Action k ω) (p : Nat) (j : Fin k),
    (∀ st ∈ s.system.stores action, st.number % n.size = p % n.size → st.word ≠ j) →
    ((s.act action).system.ring.read (n.cursor p)).get j = (s.system.ring.read (n.cursor p)).get j
  /-- Nothing is stored when elements are removed. -/
  removing : ∀ input : ConsumerInput k ω,
    (s.system.consume input).removed ≠ s.system.removed → s.system.stores (.consume input) = []
  /-- A published element waits in its slot and is removed as it was published, but for what the
  consumer stores in its place. -/
  delivered : ∀ (p : Nat) (v : Element k ω), s.system.published[p]? = some v →
    ∀ actions : List (Action k ω), ∃ more,
      (actions.foldl act s).history = s.history ++ more ∧
      ((actions.foldl act s).system.removed.length ≤ p →
        (actions.foldl act s).system.ring.read (n.cursor p) = edited v (editsOf more p)) ∧
      (p < (actions.foldl act s).system.removed.length →
        (actions.foldl act s).system.removed[p]? = some (edited v (editsOf more p)))

/-- Slots keep their words, whatever calls fail, are given up or leave a slot half filled. -/
theorem run_persists (n : SlotCount) (blank : Element k ω) (actions : List (Action k ω)) :
    (run n blank actions).Persists blank := by
  have h : (run n blank actions).Sound blank := (Sound.start n blank).foldl actions
  generalize run n blank actions = s at h
  constructor
  case memory => exact h.recalls
  case committed =>
    intro tail htail
    obtain ⟨c, e, hsystem⟩ := h.system
    obtain ⟨v, hdraft⟩ := List.length_eq_one_iff.mp (h.oneCommitted tail htail)
    have hread := hsystem.read_draft (i := 0) (v := v) (by rw [hdraft]; rfl)
    refine ⟨v, ?_, ?_⟩
    · rw [← hdraft]
      simp [act, System.act, System.produce, System.publishedAfter, htail]
    · intro j
      rw [← hread]
      exact h.recalls s.system.published.length j
  case frame =>
    intro action p j hother
    have hafter : _ = (lastStored n (s.history ++ s.system.stores action) (p % n.size) j).getD _ :=
      (h.act action).recalls p j
    rw [hafter, lastStored_append, lastStored_eq_none hother, Option.none_or]
    exact (h.recalls p j).symm
  case removing =>
    intro input hremoved
    cases input with
    | editWord j w => exact absurd rfl hremoved
    | _ => rfl
  case delivered =>
    intro p v hv later
    obtain ⟨more, hhistory, hpublished⟩ := s.exists_published_foldl later hv
    obtain ⟨c, e, hsystem⟩ := (h.foldl later).system
    refine ⟨more, hhistory, ?_, ?_⟩
    · intro hle
      exact hsystem.read_published hle hpublished
    · intro hlt
      have hget := List.prefix_iff_getElem?.mp hsystem.in_order p hlt
      rw [hpublished] at hget
      rw [List.getElem?_eq_getElem hlt, ← hget]

/-- A held slot is given up after one of its words was stored; another word is stored when it is
held again, and it is committed. -/
def halfFilled : List (Action 8 UInt64) :=
  [.begin .slot, .proceed, .proceed, .setWord 3 5, .abandon,
    .begin .slot, .proceed, .proceed, .setWord 0 7, .commit, .proceed].map .produce

/-- The consumer holds the slot, stores a word in it and takes the element. -/
def editing : List (Action 8 UInt64) :=
  [.begin .slot, .proceed, .proceed, .proceed, .editWord 1 9, .take (.replicate 8 0)].map .consume ++
    List.replicate 11 (.consume .proceed)

/-- Both words are published, among zeros, and the element is received with the one edit. -/
theorem halfFilled_persists :
    (run ⟨1, by decide, by decide⟩ (.replicate 8 0) halfFilled).system.producer =
        .publish 1 .committed ∧
      (((run ⟨1, by decide, by decide⟩ (.replicate 8 0) halfFilled).act
        (.produce .proceed)).system.published = [#v[7, 0, 0, 5, 0, 0, 0, 0]]) ∧
      (run ⟨1, by decide, by decide⟩ (.replicate 8 0) halfFilled).Persists (.replicate 8 0) ∧
      (run ⟨1, by decide, by decide⟩ (.replicate 8 0)
        (halfFilled ++ .produce .proceed :: editing)).system.removed =
          [#v[7, 9, 0, 5, 0, 0, 0, 0]] ∧
      ∃ more, editsOf more 0 = [⟨.consumer, 0, 1, 9⟩] ∧
        (run ⟨1, by decide, by decide⟩ (.replicate 8 0)
          (halfFilled ++ .produce .proceed :: editing)).system.removed[0]? =
            some (edited (#v[7, 0, 0, 5, 0, 0, 0, 0] : Element 8 UInt64) (editsOf more 0)) := by
  refine ⟨by rfl, by decide +kernel, run_persists _ _ halfFilled, by decide +kernel, ?_⟩
  have hpublished : (run ⟨1, by decide, by decide⟩ (.replicate 8 0)
      (halfFilled ++ [.produce .proceed])).system.published[0]? =
        some #v[7, 0, 0, 5, 0, 0, 0, 0] := by decide +kernel
  obtain ⟨more, hhistory, -, hremoved⟩ := (run_persists _ _ _).delivered 0 _ hpublished editing
  refine ⟨more, ?_, hremoved (by decide +kernel)⟩
  rw [← @List.drop_left _ (Recorded.history _) more, ← hhistory]
  rfl

end Recorded

end LockFreeRings.Spsc
