import LockFreeRings.Proofs.Spsc.Handles
import Mathlib.Data.List.Infix
set_option autoImplicit false

/-!
# What the two handles know

`System.Sound` is the invariant of a ring that a producer and a consumer share.
Five counts run along the sequence of published elements and never pass each
other: `seenHead ≤ removed ≤ seenTail ≤ published`, where the outer two are what
the private copies of the cursors stand for, and the elements of the draft come
behind the published ones, within one lap of `seenHead`.  So a stale copy of the
head is behind the head and a stale copy of the tail behind the tail, and the
slots that a side may touch are not those of the other.

`ProducerKnows` and `ConsumerKnows` say what follows from that for each phase.
They speak of counts and lists only, apart from the words of an element that is
being stored.  The lemmas of this module say what each access to memory keeps.
-/

namespace LockFreeRings.Spsc

variable {n : SlotCount} {k : Nat} {ω : Type}

/-- Of the words of `v`, those before `j` are stored in the slot of `tail`. -/
def StoredUpTo (r : Ring n k ω) (v : Element k ω) (tail : UInt64) (j : Nat) : Prop :=
  ∀ i (hi : i < k), i < j → (r.read tail)[i] = v[i]

/-- No word comes before the first one. -/
theorem words_before_zero (u v : Element k ω) : ∀ i (hi : i < k), i < 0 → u[i] = v[i] := by
  intro i hi hlt
  exact absurd hlt (Nat.not_lt_zero i)

/-- What a producer's phase says about the counts: `t` elements are published,
`d` are drafted, and the copy of the head stands for `c`. -/
def ProducerKnows (r : Ring n k ω) (t d c : Nat) : ProducerPhase k ω → Prop
  | .idle | .load _ | .lenHead | .lenTail _ => d = 0
  | .check goal start tail _ | .refresh goal start tail _ =>
    start = n.cursor t ∧ tail = n.cursor (t + d) ∧ (goal = .stream ∨ d = 0)
  | .copy _ rest tail _ =>
    tail = n.cursor (t + d) ∧ t + d + 1 + rest.length ≤ c + (n.size - 1)
  | .ask start tail _ =>
    start = n.cursor t ∧ tail = n.cursor (t + d) ∧ t + d + 1 ≤ c + (n.size - 1)
  | .store goal v tail j =>
    tail = n.cursor (t + d) ∧ StoredUpTo r v tail j ∧
      match goal with
      | .one | .slot => d = 0 ∧ t + 1 ≤ c + (n.size - 1)
      | .batch rest _ => t + d + 1 + rest.length ≤ c + (n.size - 1)
      | .stream start _ => start = n.cursor t ∧ t + d + 1 ≤ c + (n.size - 1)
  | .publish tail _ => tail = n.cursor (t + d)
  | .hold tail => tail = n.cursor t ∧ d = 1
  | .commit => d = 1

/-- What a consumer's phase says about the published elements: `h` are removed,
and the copy of the tail stands for `e`. -/
def ConsumerKnows (published : List (Element k ω)) (h e : Nat) (n : SlotCount) :
    ConsumerPhase k ω → Prop
  | .idle | .load _ | .lenHead | .lenTail _ => True
  | .check _ head | .refresh _ head => head = n.cursor h
  | .read goal head j into => ∃ m v,
    head = n.cursor (h + m) ∧ h + m < e ∧ published[h + m]? = some v ∧
      (∀ i (hi : i < k), i < j → into[i] = v[i]) ∧
      match goal with
      | .one | .look | .take => m = 0
      | .batch left out => out.length = m ∧ out <+: published.drop h ∧ h + m + left < e
  | .vacate head result => ∃ v, published[h]? = some v ∧
    head = n.cursor (h + (result.elements v).length) ∧
      h + (result.elements v).length ≤ e ∧ result.elements v <+: published.drop h
  | .hold head => head = n.cursor h ∧ h < e
  | .release result => ∃ v, published[h]? = some v ∧ h < e ∧ result.elements v = [v]

namespace System

/-- The ring agrees with the counts, and so does what each handle knows. -/
structure Sound (s : System n k ω) (seenHead seenTail : Nat) : Prop where
  tail : s.ring.tail = n.cursor s.published.length
  head : s.ring.head = n.cursor s.removed.length
  cachedHead : s.ring.cachedHead = n.cursor seenHead
  cachedTail : s.ring.cachedTail = n.cursor seenTail
  seenHead_le : seenHead ≤ s.removed.length
  removed_le : s.removed.length ≤ seenTail
  seenTail_le : seenTail ≤ s.published.length
  room : s.published.length + s.draft.length ≤ seenHead + (n.size - 1)
  slots : ∀ i v, s.removed.length ≤ i → (s.published ++ s.draft)[i]? = some v →
    s.ring.read (n.cursor i) = v
  in_order : s.removed <+: s.published
  producer : ProducerKnows s.ring s.published.length s.draft.length seenHead s.producer
  consumer : ConsumerKnows s.published s.removed.length seenTail n s.consumer

/-- The books are right at the start. -/
theorem Sound.start (n : SlotCount) (blank : Element k ω) :
    (System.start n blank).Sound 0 0 := by
  constructor <;> simp [System.start, Ring.new, ProducerKnows, ConsumerKnows]

end System

/-! ## What the steps of the other side leave -/

/-- The producer's knowledge is about one slot, and survives a newer copy of the
head. -/
theorem ProducerKnows.mono {r r' : Ring n k ω} {t d c c' : Nat} {phase : ProducerPhase k ω}
    (h : ProducerKnows r t d c phase)
    (hread : r'.read (n.cursor (t + d)) = r.read (n.cursor (t + d))) (hc : c ≤ c') :
    ProducerKnows r' t d c' phase := by
  cases phase with
  | idle | load goal | lenHead | lenTail head => exact h
  | check goal start tail count | refresh goal start tail count => exact h
  | copy v rest tail count => exact ⟨h.1, by have := h.2; omega⟩
  | ask start tail count => exact ⟨h.1, h.2.1, by have := h.2.2; omega⟩
  | store goal v tail j =>
      obtain ⟨rfl, hstored, hgoal⟩ := h
      refine ⟨rfl, fun i hi hij => ?_, ?_⟩
      · rw [hread]
        exact hstored i hi hij
      · cases goal with
        | one | slot => exact ⟨hgoal.1, by have := hgoal.2; omega⟩
        | batch rest count =>
            simp only at hgoal ⊢
            omega
        | stream start count => exact ⟨hgoal.1, by have := hgoal.2; omega⟩
  | publish tail result => exact h
  | hold tail => exact h
  | commit => exact h

/-- The consumer's knowledge survives when more is published. -/
theorem ConsumerKnows.mono {published published' : List (Element k ω)} {h e e' : Nat}
    {phase : ConsumerPhase k ω} (hk : ConsumerKnows published h e n phase)
    (hpub : published <+: published') (he : e ≤ e') : ConsumerKnows published' h e' n phase := by
  have hget : ∀ {i : Nat} {v : Element k ω}, published[i]? = some v →
      published'[i]? = some v := by
    rintro i v hv
    obtain ⟨more, rfl⟩ := hpub
    obtain ⟨hi, -⟩ := List.getElem?_eq_some_iff.mp hv
    rwa [List.getElem?_append_left hi]
  have hdrop : published.drop h <+: published'.drop h := hpub.drop h
  cases phase with
  | idle | load goal | lenHead | lenTail head => trivial
  | check goal head | refresh goal head => exact hk
  | read goal head j into =>
      obtain ⟨m, v, hhead, hlt, hv, hinto, hgoal⟩ := hk
      refine ⟨m, v, hhead, by omega, hget hv, hinto, ?_⟩
      cases goal with
      | one | look | take => exact hgoal
      | batch left out => exact ⟨hgoal.1, hgoal.2.1.trans hdrop, by have := hgoal.2.2; omega⟩
  | vacate head result =>
      obtain ⟨v, hv, hhead, hle, hpre⟩ := hk
      exact ⟨v, hget hv, hhead, by omega, hpre.trans hdrop⟩
  | hold head => exact ⟨hk.1, by have := hk.2; omega⟩
  | release result =>
      obtain ⟨v, hv, hlt, hres⟩ := hk
      exact ⟨v, hget hv, by omega, hres⟩

namespace System.Sound

variable {s : System n k ω} {seenHead seenTail : Nat}

/-! ## Accesses of the producer -/

/-- A step that only goes on, and may forget or extend the draft. -/
theorem redraft (h : s.Sound seenHead seenTail) (phase : ProducerPhase k ω)
    {draft : List (Element k ω)}
    (hroom : s.published.length + draft.length ≤ seenHead + (n.size - 1))
    (hslots : ∀ i v, draft[i]? = some v →
      s.ring.read (n.cursor (s.published.length + i)) = v)
    (hknows : ProducerKnows s.ring s.published.length draft.length seenHead phase) :
    ({ s with producer := phase, draft := draft } : System n k ω).Sound seenHead seenTail where
  tail := h.tail
  head := h.head
  cachedHead := h.cachedHead
  cachedTail := h.cachedTail
  seenHead_le := h.seenHead_le
  removed_le := h.removed_le
  seenTail_le := h.seenTail_le
  room := hroom
  slots i v hi hv := by
    rcases Nat.lt_or_ge i s.published.length with hlt | hge
    · rw [List.getElem?_append_left hlt] at hv
      exact h.slots i v hi (by rw [List.getElem?_append_left hlt]; exact hv)
    · rw [List.getElem?_append_right hge] at hv
      have := hslots _ v hv
      rwa [Nat.add_sub_cancel' hge] at this
  in_order := h.in_order
  producer := hknows
  consumer := h.consumer

/-- The slots of the draft hold it. -/
theorem read_draft (h : s.Sound seenHead seenTail) {i : Nat} {v : Element k ω}
    (hv : s.draft[i]? = some v) : s.ring.read (n.cursor (s.published.length + i)) = v := by
  have hremoved := h.removed_le
  have hseen := h.seenTail_le
  refine h.slots _ v (by omega) ?_
  rw [List.getElem?_append_right (by omega), Nat.add_sub_cancel_left]
  exact hv

/-- A step that only goes on. -/
theorem rephase (h : s.Sound seenHead seenTail) (phase : ProducerPhase k ω)
    (hknows : ProducerKnows s.ring s.published.length s.draft.length seenHead phase) :
    ({ s with producer := phase } : System n k ω).Sound seenHead seenTail :=
  h.redraft phase h.room (fun _ _ hv => h.read_draft hv) hknows

/-- A call that ends publishes nothing more. -/
theorem rest (h : s.Sound seenHead seenTail) :
    ({ s with producer := .idle, draft := [] } : System n k ω).Sound seenHead seenTail := by
  have := h.room
  refine h.redraft .idle ?_ (by simp) rfl
  rw [List.length_nil]
  omega

/-- The producer copies the head. -/
theorem refreshHead (h : s.Sound seenHead seenTail) :
    ({ s with ring := s.ring.refreshHead } : System n k ω).Sound s.removed.length seenTail where
  tail := h.tail
  head := h.head
  cachedHead := h.head
  cachedTail := h.cachedTail
  seenHead_le := Nat.le_refl _
  removed_le := h.removed_le
  seenTail_le := h.seenTail_le
  room := by
    have hroom := h.room
    have hle := h.seenHead_le
    simp only
    omega
  slots := h.slots
  in_order := h.in_order
  producer := h.producer.mono rfl h.seenHead_le
  consumer := h.consumer

/-- The slot behind the draft is none of those in use. -/
theorem index_ne (h : s.Sound seenHead seenTail)
    (hroom : s.published.length + s.draft.length + 1 ≤ seenHead + (n.size - 1)) {i : Nat}
    (hle : s.removed.length ≤ i) (hlt : i < s.published.length + s.draft.length) :
    n.index (n.cursor (s.published.length + s.draft.length)) ≠ n.index (n.cursor i) := by
  have hpos := n.size_pos
  have hseen := h.seenHead_le
  exact (n.index_cursor_ne hlt (by omega)).symm

/-- The producer stores a word in the slot behind the draft. -/
theorem storeWord (h : s.Sound seenHead seenTail)
    (hroom : s.published.length + s.draft.length + 1 ≤ seenHead + (n.size - 1)) (j : Fin k)
    (w : ω) (phase : ProducerPhase k ω)
    (hknows : ProducerKnows
      (s.ring.writeWord (n.cursor (s.published.length + s.draft.length)) j w)
      s.published.length s.draft.length seenHead phase) :
    ({ s with
        ring := s.ring.writeWord (n.cursor (s.published.length + s.draft.length)) j w
        producer := phase } : System n k ω).Sound seenHead seenTail where
  tail := h.tail
  head := h.head
  cachedHead := h.cachedHead
  cachedTail := h.cachedTail
  seenHead_le := h.seenHead_le
  removed_le := h.removed_le
  seenTail_le := h.seenTail_le
  room := h.room
  slots i v hi hv := by
    have hlt : i < s.published.length + s.draft.length := by
      obtain ⟨hlt, -⟩ := List.getElem?_eq_some_iff.mp hv
      rwa [List.length_append] at hlt
    rw [Ring.read_writeWord_of_ne _ (h.index_ne hroom hi hlt)]
    exact h.slots i v hi hv
  in_order := h.in_order
  producer := hknows
  consumer := h.consumer

/-- The producer stores a word in the slot that it holds. -/
theorem setWord (h : s.Sound seenHead seenTail) {v : Element k ω} (hdraft : s.draft = [v])
    (j : Fin k) (w : ω) :
    ({ s with
        ring := s.ring.writeWord (n.cursor s.published.length) j w
        producer := .hold (n.cursor s.published.length)
        draft := [v.set j w j.isLt] } : System n k ω).Sound seenHead seenTail where
  tail := h.tail
  head := h.head
  cachedHead := h.cachedHead
  cachedTail := h.cachedTail
  seenHead_le := h.seenHead_le
  removed_le := h.removed_le
  seenTail_le := h.seenTail_le
  room := by
    have := h.room
    rwa [hdraft] at this
  slots i u hi hu := by
    have hle : s.removed.length ≤ i := hi
    have hroom := h.room
    have hseen := h.seenHead_le
    have hpos := n.size_pos
    rw [hdraft, List.length_singleton] at hroom
    rcases Nat.lt_or_ge i s.published.length with hlt | hge
    · rw [List.getElem?_append_left hlt] at hu
      have hne := n.index_cursor_ne hlt (by omega)
      rw [Ring.read_writeWord_of_ne _ hne.symm]
      exact h.slots i u hi (by rw [List.getElem?_append_left hlt]; exact hu)
    · rw [List.getElem?_append_right hge] at hu
      obtain ⟨hi', rfl⟩ := List.getElem?_eq_some_iff.mp hu
      rw [List.length_singleton] at hi'
      obtain rfl : i = s.published.length := by omega
      have hv : s.ring.read (n.cursor s.published.length) = v :=
        h.read_draft (i := 0) (by rw [hdraft]; rfl)
      simp [hv]
  in_order := h.in_order
  producer := ⟨rfl, rfl⟩
  consumer := h.consumer

/-- The producer stores the tail. -/
theorem publish (h : s.Sound seenHead seenTail) :
    ({ s with
        ring := s.ring.publish (n.cursor (s.published.length + s.draft.length))
        producer := .idle
        draft := []
        published := s.published ++ s.draft } : System n k ω).Sound seenHead seenTail where
  tail := by
    rw [List.length_append]
    rfl
  head := h.head
  cachedHead := h.cachedHead
  cachedTail := h.cachedTail
  seenHead_le := h.seenHead_le
  removed_le := h.removed_le
  seenTail_le := by
    have := h.seenTail_le
    rw [List.length_append]
    omega
  room := by
    have := h.room
    rw [List.length_append, List.length_nil]
    exact this
  slots i v hi hv := by
    rw [List.append_nil] at hv
    exact h.slots i v hi hv
  in_order := h.in_order.trans (List.prefix_append _ _)
  producer := rfl
  consumer := h.consumer.mono (List.prefix_append _ _) (Nat.le_refl _)

/-! ## Accesses of the consumer -/

/-- A step that only goes on. -/
theorem goOn (h : s.Sound seenHead seenTail) (phase : ConsumerPhase k ω)
    (hknows : ConsumerKnows s.published s.removed.length seenTail n phase) :
    ({ s with consumer := phase } : System n k ω).Sound seenHead seenTail :=
  { h with consumer := hknows }

/-- The consumer copies the tail. -/
theorem refreshTail (h : s.Sound seenHead seenTail) :
    ({ s with ring := s.ring.refreshTail } : System n k ω).Sound seenHead s.published.length where
  tail := h.tail
  head := h.head
  cachedHead := h.cachedHead
  cachedTail := h.tail
  seenHead_le := h.seenHead_le
  removed_le := h.removed_le.trans h.seenTail_le
  seenTail_le := Nat.le_refl _
  room := h.room
  slots := h.slots
  in_order := h.in_order
  producer := h.producer.mono rfl (Nat.le_refl _)
  consumer := h.consumer.mono (List.prefix_refl _) h.seenTail_le

/-- The slot of an element that waits for the consumer is not the one behind the
draft. -/
theorem index_ne_behind (h : s.Sound seenHead seenTail)
    (hlt : s.removed.length < s.published.length) :
    n.index (n.cursor s.removed.length) ≠
      n.index (n.cursor (s.published.length + s.draft.length)) := by
  have hroom := h.room
  have hseen := h.seenHead_le
  have hpos := n.size_pos
  exact n.index_cursor_ne (by omega) (by omega)

/-- The consumer stores a word in the slot that it holds. -/
theorem editWord (h : s.Sound seenHead seenTail) (hlt : s.removed.length < seenTail) (j : Fin k)
    (w : ω) :
    ({ s with
        ring := s.ring.writeWord (n.cursor s.removed.length) j w
        consumer := .hold (n.cursor s.removed.length)
        published := s.published.modify s.removed.length fun v => v.set j w j.isLt } :
      System n k ω).Sound seenHead seenTail where
  tail := by
    rw [List.length_modify]
    exact h.tail
  head := h.head
  cachedHead := h.cachedHead
  cachedTail := h.cachedTail
  seenHead_le := h.seenHead_le
  removed_le := h.removed_le
  seenTail_le := by
    rw [List.length_modify]
    exact h.seenTail_le
  room := by
    rw [List.length_modify]
    exact h.room
  slots i v hi hv := by
    have hle : s.removed.length ≤ i := hi
    have hv : (s.published.modify s.removed.length (fun v => v.set j w) ++ s.draft)[i]? = some v :=
      hv
    have hpub := h.seenTail_le
    have hroom := h.room
    have hseen := h.seenHead_le
    have hpos := n.size_pos
    have hi' : i < s.published.length + s.draft.length := by
      obtain ⟨hi', -⟩ := List.getElem?_eq_some_iff.mp hv
      rwa [List.length_append, List.length_modify] at hi'
    by_cases heq : i = s.removed.length
    · subst heq
      rw [List.getElem?_append_left (by rw [List.length_modify]; omega),
        List.getElem?_modify_eq] at hv
      obtain ⟨u, hu, rfl⟩ := Option.map_eq_some_iff.mp hv
      rw [Ring.read_writeWord, h.slots _ u (Nat.le_refl _) (by
        rw [List.getElem?_append_left (by omega)]
        exact hu)]
    · have hne := n.index_cursor_ne (p := s.removed.length) (q := i) (by omega) (by omega)
      rw [Ring.read_writeWord_of_ne _ hne]
      refine h.slots i v hle ?_
      rw [List.getElem?_append, List.length_modify, List.getElem?_modify_ne _ _ (Ne.symm heq)] at hv
      rw [List.getElem?_append]
      exact hv
  in_order := by
    apply List.prefix_iff_getElem?.mpr
    intro i hi
    rw [List.getElem?_modify_ne _ _ (Nat.ne_of_gt hi)]
    exact List.prefix_iff_getElem?.mp h.in_order i hi
  producer := by
    rw [List.length_modify]
    refine h.producer.mono ?_ (Nat.le_refl _)
    exact Ring.read_writeWord_of_ne _ (h.index_ne_behind (by have := h.seenTail_le; omega)) j w
  consumer := ⟨rfl, hlt⟩

/-- The consumer stores the head, behind the elements that it has taken out. -/
theorem vacate (h : s.Sound seenHead seenTail) {vs : List (Element k ω)}
    (hle : s.removed.length + vs.length ≤ seenTail)
    (hpre : vs <+: s.published.drop s.removed.length) :
    ({ s with
        ring := s.ring.vacate (n.cursor (s.removed.length + vs.length))
        consumer := .idle
        removed := s.removed ++ vs } : System n k ω).Sound seenHead seenTail where
  tail := h.tail
  head := by
    rw [List.length_append]
    rfl
  cachedHead := h.cachedHead
  cachedTail := h.cachedTail
  seenHead_le := by
    have := h.seenHead_le
    rw [List.length_append]
    omega
  removed_le := by
    rw [List.length_append]
    exact hle
  seenTail_le := h.seenTail_le
  room := h.room
  slots i v hi hv := by
    have hi' : s.removed.length + vs.length ≤ i := by
      rwa [List.length_append] at hi
    exact h.slots i v (by omega) hv
  in_order := by
    have hsplit : s.published = s.removed ++ s.published.drop s.removed.length := by
      obtain ⟨more, hmore⟩ := h.in_order
      rw [← hmore, List.drop_left]
    rw [hsplit, List.prefix_append_right_inj]
    exact hpre
  producer := h.producer.mono rfl (Nat.le_refl _)
  consumer := trivial

end System.Sound

end LockFreeRings.Spsc
