import LockFreeRings.Proofs.Spsc.Places
set_option autoImplicit false

/-!
# What a call holds while other code runs

A call that runs code of its caller has stored elements that are not published
yet, or holds a slot, and relies on finding them again.  The code it runs reaches
only the other handle, and each handle leaves what the other one relies on:
`Fifo.KeepsProducer` and `Fifo.KeepsConsumer` say what that is.

`Ring.Drafts` is what a producer's call holds between its first store and its
publication, and `Ring.Holds` what a consumer's call holds.
-/

namespace LockFreeRings.Spsc

variable {n : SlotCount} {k : Nat} {ω : Type}

namespace Fifo

/-- What the producer relies on is as it was: elements were only removed, and their
places come behind the vacant ones. -/
structure KeepsProducer (f : Fifo k ω) (m : Marks) (f' : Fifo k ω) (m' : Marks) : Prop where
  appended : f'.appended m' = f.appended m
  seenHead : m'.seenHead = m.seenHead
  vacant : f.vacant <+: f'.vacant

/-- What the consumer relies on is as it was: elements were only appended. -/
structure KeepsConsumer (f : Fifo k ω) (m : Marks) (f' : Fifo k ω) (m' : Marks) : Prop where
  removed : m'.removed = m.removed
  seenTail : m'.seenTail = m.seenTail
  queue : f.queue <+: f'.queue

/-- What code that reaches these handles keeps. -/
structure Keeps (reach : Reach) (f : Fifo k ω) (m : Marks) (f' : Fifo k ω) (m' : Marks) :
    Prop where
  producer : reach.producer = false → f.KeepsProducer m f' m'
  consumer : reach.consumer = false → f.KeepsConsumer m f' m'

variable {f f' f'' : Fifo k ω} {m m' m'' : Marks} {reach : Reach}

theorem KeepsProducer.refl (f : Fifo k ω) (m : Marks) : f.KeepsProducer m f m :=
  ⟨rfl, rfl, List.prefix_rfl⟩

theorem KeepsProducer.trans (h : f.KeepsProducer m f' m') (h' : f'.KeepsProducer m' f'' m'') :
    f.KeepsProducer m f'' m'' :=
  ⟨h'.appended.trans h.appended, h'.seenHead.trans h.seenHead, h.vacant.trans h'.vacant⟩

theorem KeepsConsumer.refl (f : Fifo k ω) (m : Marks) : f.KeepsConsumer m f m :=
  ⟨rfl, rfl, List.prefix_rfl⟩

theorem KeepsConsumer.trans (h : f.KeepsConsumer m f' m') (h' : f'.KeepsConsumer m' f'' m'') :
    f.KeepsConsumer m f'' m'' :=
  ⟨h'.removed.trans h.removed, h'.seenTail.trans h.seenTail, h.queue.trans h'.queue⟩

theorem Keeps.refl (reach : Reach) (f : Fifo k ω) (m : Marks) : Keeps reach f m f m :=
  ⟨fun _ => .refl f m, fun _ => .refl f m⟩

theorem Keeps.trans (h : Keeps reach f m f' m') (h' : Keeps reach f' m' f'' m'') :
    Keeps reach f m f'' m'' where
  producer hp := (h.producer hp).trans (h'.producer hp)
  consumer hc := (h.consumer hc).trans (h'.consumer hc)

/-- The producer's own work. -/
theorem Keeps.of_producer (hreach : reach.producer = true) (h : f.KeepsConsumer m f' m') :
    Keeps reach f m f' m' where
  producer hp := by rw [hreach] at hp; cases hp
  consumer _ := h

/-- The consumer's own work. -/
theorem Keeps.of_consumer (hreach : reach.consumer = true) (h : f.KeepsProducer m f' m') :
    Keeps reach f m f' m' where
  producer _ := h
  consumer hc := by rw [hreach] at hc; cases hc

/-- Code that can do without the producer keeps the consumer's things wherever the
consumer cannot be reached. -/
theorem Keeps.without_producer (hreach : reach.producer = true)
    (h : Keeps { reach with producer := false } f m f' m') : Keeps reach f m f' m' where
  producer hp := by rw [hreach] at hp; cases hp
  consumer hc := h.consumer hc

theorem Keeps.without_consumer (hreach : reach.consumer = true)
    (h : Keeps { reach with consumer := false } f m f' m') : Keeps reach f m f' m' where
  producer hp := h.producer hp
  consumer hc := by rw [hreach] at hc; cases hc

/-! ## What each handle's changes keep -/

theorem keepsConsumer_append (f : Fifo k ω) (m : Marks) (vs : List (Element k ω)) :
    f.KeepsConsumer m (f.append vs) m :=
  ⟨rfl, rfl, List.prefix_append _ _⟩

theorem keepsConsumer_put (f : Fifo k ω) (m : Marks) (i : Nat) (v : Element k ω) :
    f.KeepsConsumer m (f.put i v) m :=
  ⟨rfl, rfl, List.prefix_rfl⟩

theorem keepsConsumer_putWords (f : Fifo k ω) (m : Marks) (words : List (Fin k × ω)) :
    f.KeepsConsumer m (f.putWords words) m :=
  ⟨rfl, rfl, List.prefix_rfl⟩

theorem keepsProducer_remove (f : Fifo k ω) (m : Marks) {count : Nat}
    (hle : count ≤ f.queue.length) :
    f.KeepsProducer m (f.remove count) { m with removed := m.removed + count } where
  appended := by
    simp only [appended, remove, List.length_drop]
    omega
  seenHead := rfl
  vacant := List.prefix_append _ _

theorem keepsProducer_edit (f : Fifo k ω) (m : Marks) (v : Element k ω) :
    f.KeepsProducer m (f.edit v) m where
  appended := by rw [appended, edit, List.length_set, appended]
  seenHead := rfl
  vacant := List.prefix_rfl

@[simp] theorem append_nil (f : Fifo k ω) : f.append [] = f := by
  rw [append, List.append_nil, List.length_nil, List.drop_zero]

@[simp] theorem remove_zero (f : Fifo k ω) : f.remove 0 = f := by
  rw [remove, List.drop_zero, List.take_zero, List.append_nil]

theorem put_zero_append (f : Fifo k ω) (v : Element k ω) :
    (f.put 0 v).append [v] = f.append [v] := by
  rw [append, append, put]
  cases f.vacant with
  | nil => rfl
  | cons u us => rfl

end Fifo

namespace Ring

/-! ## A producer's call -/

/-- Elements are stored behind the tail, which is at `start`, and there is room for
`more` of them. -/
structure Drafts (r : Ring n k ω) (f : Fifo k ω) (m : Marks) (start : Nat)
    (drafted : List (Element k ω)) (more : Nat) : Prop where
  represents : r.Represents f m
  appended : f.appended m = start
  stored : drafted <+: f.vacant
  room : start + drafted.length + more ≤ m.seenHead + (n.size - 1)

namespace Drafts

variable {r r' : Ring n k ω} {f f' : Fifo k ω} {m m' : Marks} {start more : Nat}
  {drafted : List (Element k ω)}

/-- A call that begins. -/
theorem new (h : r.Represents f m) : r.Drafts f m (f.appended m) [] 0 :=
  ⟨h, rfl, List.nil_prefix, h.appended_le⟩

theorem weaken {fewer : Nat} (h : r.Drafts f m start drafted more) (hle : fewer ≤ more) :
    r.Drafts f m start drafted fewer :=
  ⟨h.represents, h.appended, h.stored, (Nat.add_le_add_left hle _).trans h.room⟩

/-- The other handle leaves what was stored, and the room. -/
theorem resume (h : r.Drafts f m start drafted more) (hr : r'.Represents f' m')
    (hkeeps : f.KeepsProducer m f' m') : r'.Drafts f' m' start drafted more where
  represents := hr
  appended := hkeeps.appended.trans h.appended
  stored := h.stored.trans hkeeps.vacant
  room := by
    rw [hkeeps.seenHead]
    exact h.room

theorem queue_add_le (h : r.Drafts f m start drafted more) :
    f.queue.length + drafted.length + more ≤ n.size - 1 := by
  have happended := h.appended
  have hroom := h.room
  have hseen := h.represents.seenHead_le
  rw [Fifo.appended] at happended
  omega

/-- A place behind what is stored is vacant. -/
theorem lt_vacant (h : r.Drafts f m start drafted (more + 1)) :
    drafted.length < f.vacant.length := by
  have hpos := n.size_pos
  have hle := h.queue_add_le
  have hlength := h.represents.length
  omega

theorem vacant_ne_nil (h : r.Drafts f m start drafted (more + 1)) : f.vacant ≠ [] :=
  List.ne_nil_of_length_pos (Nat.lt_of_le_of_lt (Nat.zero_le _) h.lt_vacant)

/-- The next element is stored. -/
theorem store (h : r.Drafts f m start drafted (more + 1)) (v : Element k ω) :
    (r.write (n.cursor (start + drafted.length)) v).Drafts (f.put drafted.length v) m start
      (drafted ++ [v]) more where
  represents := by
    rw [← h.appended]
    exact h.represents.put h.lt_vacant v
  appended := h.appended
  stored := by
    obtain ⟨rest, hrest⟩ := h.stored
    have hlt := h.lt_vacant
    rw [← hrest, List.length_append] at hlt
    obtain ⟨u, us, hus⟩ := List.exists_cons_of_ne_nil
      (List.ne_nil_of_length_pos (show 0 < rest.length by omega))
    refine ⟨us, ?_⟩
    rw [Fifo.put, ← hrest, hus, List.set_append_right _ _ (Nat.le_refl _), Nat.sub_self,
      List.set_cons_zero, List.append_assoc]
    rfl
  room := by
    have hroom := h.room
    rw [List.length_append, List.length_singleton]
    omega

/-- The first vacant place is changed while nothing is stored for good. -/
theorem build (h : r.Drafts f m start [] (more + 1)) (v : Element k ω) :
    (r.write (n.cursor start) v).Drafts (f.put 0 v) m start [] (more + 1) where
  represents := by
    rw [← h.appended]
    exact h.represents.put (i := 0) h.lt_vacant v
  appended := h.appended
  stored := List.nil_prefix
  room := h.room

theorem setWords (h : r.Drafts f m start [] (more + 1)) (words : List (Fin k × ω)) :
    (words.foldl (fun r word => r.writeWord (n.cursor start) word.1 word.2) r).Drafts
      (f.putWords words) m start [] (more + 1) where
  represents := by
    rw [← h.appended]
    exact h.represents.putWords h.vacant_ne_nil words
  appended := h.appended
  stored := List.nil_prefix
  room := h.room

/-- What was stored is published. -/
theorem publish (h : r.Drafts f m start drafted more) :
    (r.publish (n.cursor (start + drafted.length))).Represents (f.append drafted) m := by
  have hstored : f.vacant.take drafted.length = drafted :=
    (List.prefix_iff_eq_take.mp h.stored).symm
  have hroom := h.room
  rw [← h.appended] at hroom ⊢
  exact h.represents.publish hstored (by omega)

/-- A tail that did not move is not stored, which appends nothing. -/
theorem publish_if_moved (h : r.Drafts f m start drafted more) :
    (if n.cursor (start + drafted.length) = n.cursor start then r
      else r.publish (n.cursor (start + drafted.length))).Represents (f.append drafted) m := by
  split
  · next hcursor =>
    have hpos := n.size_pos
    have hle := h.queue_add_le
    have hsame := n.cursor_inj_of_lt (Nat.le_add_right start drafted.length) (by omega)
      hcursor.symm
    obtain rfl : drafted = [] := List.length_eq_zero_iff.mp (by omega)
    rw [Fifo.append_nil]
    exact h.represents
  · exact h.publish

/-- The slot at the tail is published with the element that is in it. -/
theorem commitWrite {v : Element k ω} (h : r.Drafts f m start [v] more) :
    r.commitWrite.Represents (f.append [v]) m := by
  have hpublished := h.publish
  rwa [List.length_singleton, ← next_cursor, ← h.appended, ← h.represents.tail] at hpublished

/-- What is in the first vacant place counts as stored. -/
theorem stored_vacant (h : r.Drafts f m start [] (more + 1)) :
    ∃ v, f.vacant.take 1 = [v] ∧ r.Drafts f m start [v] more := by
  obtain ⟨v, vs, hvacant⟩ := List.exists_cons_of_ne_nil h.vacant_ne_nil
  have hroom := h.room
  refine ⟨v, by rw [hvacant]; rfl, h.represents, h.appended, ⟨vs, by rw [hvacant]; rfl⟩, ?_⟩
  rw [List.length_nil] at hroom
  rw [List.length_singleton]
  omega

/-- The room that is found: never more than there is, and as much as is wanted if
there is that much. -/
theorem findRoom (h : r.Drafts f m start drafted 0) (want : UInt64) :
    ∃ m', f.KeepsConsumer m f m' ∧
      (r.room (n.cursor (start + drafted.length)) want).2.Drafts f m' start drafted
        (r.room (n.cursor (start + drafted.length)) want).1.toNat ∧
      min (r.room (n.cursor (start + drafted.length)) want).1.toNat want.toNat =
        min (n.size - 1 - (f.queue.length + drafted.length)) want.toNat := by
  have happended := h.appended
  have hroom := h.room
  have hle := h.queue_add_le
  rw [← happended] at hroom ⊢
  obtain ⟨seen, hseen, hge, htoNat, hwant⟩ := h.represents.room hroom want
  refine ⟨{ m with seenHead := seen }, ⟨rfl, rfl, List.prefix_rfl⟩,
    ⟨hseen, rfl, h.stored, ?_⟩, ?_⟩
  · rw [htoNat]
    show f.appended m + drafted.length + (seen + (n.size - 1) - (f.appended m + drafted.length)) ≤
      seen + (n.size - 1)
    omega
  · have hremoved : seen ≤ m.removed := hseen.seenHead_le
    rw [htoNat, Fifo.appended]
    rw [Fifo.appended] at hwant
    omega

/-- No room is found when the queue and what is stored fill the ring. -/
theorem room_of_full (h : r.Drafts f m start drafted 0)
    (hfull : n.size - 1 ≤ f.queue.length + drafted.length) :
    ∃ m', f.KeepsConsumer m f m' ∧
      (r.room (n.cursor (start + drafted.length)) 1).1 = 0 ∧
      (r.room (n.cursor (start + drafted.length)) 1).2.Drafts f m' start drafted 0 := by
  obtain ⟨m', hkeeps, hdrafts, hmin⟩ := h.findRoom 1
  refine ⟨m', hkeeps, ?_, hdrafts.weaken (Nat.zero_le _)⟩
  apply UInt64.toNat_inj.1
  rw [UInt64.toNat_one] at hmin
  rw [UInt64.toNat_zero]
  omega

/-- Room for one more is found otherwise. -/
theorem room_of_lt (h : r.Drafts f m start drafted 0)
    (hlt : f.queue.length + drafted.length < n.size - 1) :
    ∃ m', f.KeepsConsumer m f m' ∧
      (r.room (n.cursor (start + drafted.length)) 1).1 ≠ 0 ∧
      (r.room (n.cursor (start + drafted.length)) 1).2.Drafts f m' start drafted 1 := by
  obtain ⟨m', hkeeps, hdrafts, hmin⟩ := h.findRoom 1
  rw [UInt64.toNat_one] at hmin
  have hone : 1 ≤ (r.room (n.cursor (start + drafted.length)) 1).1.toNat := by omega
  refine ⟨m', hkeeps, ?_, hdrafts.weaken hone⟩
  intro hzero
  rw [hzero, UInt64.toNat_zero] at hone
  omega

end Drafts

namespace Represents

variable {r : Ring n k ω} {f : Fifo k ω} {m : Marks}

theorem push_of_full (h : r.Represents f m) (hfull : f.queue.length = n.size - 1)
    (v : Element k ω) :
    ∃ m', f.KeepsConsumer m f m' ∧ (r.push v).1 = false ∧ (r.push v).2.Represents f m' := by
  obtain ⟨m', hkeeps, hzero, hdrafts⟩ := (Drafts.new h).room_of_full hfull.ge
  rw [List.length_nil, Nat.add_zero, ← h.tail] at hzero hdrafts
  unfold Ring.push
  simp only [hzero, if_true]
  exact ⟨m', hkeeps, trivial, hdrafts.represents⟩

theorem push_of_room (h : r.Represents f m) (hroom : f.queue.length < n.size - 1)
    (v : Element k ω) :
    ∃ m', f.KeepsConsumer m (f.append [v]) m' ∧ (r.push v).1 = true ∧
      (r.push v).2.Represents (f.append [v]) m' := by
  obtain ⟨m', hkeeps, hne, hdrafts⟩ := (Drafts.new h).room_of_lt hroom
  have hpublished := (hdrafts.store v).publish
  rw [List.length_nil, Nat.add_zero, ← h.tail] at hne
  rw [List.nil_append, List.length_singleton, ← next_cursor, List.length_nil, Nat.add_zero,
    ← h.tail, Fifo.put_zero_append] at hpublished
  unfold Ring.push
  simp only [hne, if_false]
  exact ⟨m', hkeeps.trans (f.keepsConsumer_append m' [v]), trivial, hpublished⟩

theorem acquireWrite_of_full (h : r.Represents f m) (hfull : f.queue.length = n.size - 1) :
    ∃ m', f.KeepsConsumer m f m' ∧ r.acquireWrite.1 = none ∧
      r.acquireWrite.2.Represents f m' := by
  obtain ⟨m', hkeeps, hzero, hdrafts⟩ := (Drafts.new h).room_of_full hfull.ge
  rw [List.length_nil, Nat.add_zero, ← h.tail] at hzero hdrafts
  unfold Ring.acquireWrite
  simp only [hzero, if_true]
  exact ⟨m', hkeeps, trivial, hdrafts.represents⟩

/-- The slot that is acquired is the first vacant place. -/
theorem acquireWrite_of_room (h : r.Represents f m) (hroom : f.queue.length < n.size - 1) :
    ∃ m', f.KeepsConsumer m f m' ∧ r.acquireWrite.1 = some (n.cursor (f.appended m)) ∧
      r.acquireWrite.2.Drafts f m' (f.appended m) [] 1 := by
  obtain ⟨m', hkeeps, hne, hdrafts⟩ := (Drafts.new h).room_of_lt hroom
  rw [List.length_nil, Nat.add_zero, ← h.tail] at hne hdrafts
  rw [Ring.acquireWrite, ← h.tail]
  simp only [hne, if_false]
  exact ⟨m', hkeeps, trivial, hdrafts⟩

end Represents

/-! ## A consumer's call -/

/-- The slot of the oldest element is held; it is at `front`. -/
structure Holds (r : Ring n k ω) (f : Fifo k ω) (m : Marks) (front : Nat) : Prop where
  represents : r.Represents f m
  removed : m.removed = front
  lt_seenTail : front < m.seenTail

namespace Holds

variable {r r' : Ring n k ω} {f f' : Fifo k ω} {m m' : Marks} {front : Nat}

/-- The other handle leaves the slot. -/
theorem resume (h : r.Holds f m front) (hr : r'.Represents f' m')
    (hkeeps : f.KeepsConsumer m f' m') : r'.Holds f' m' front where
  represents := hr
  removed := hkeeps.removed.trans h.removed
  lt_seenTail := by
    rw [hkeeps.seenTail]
    exact h.lt_seenTail

/-- The element in the slot. -/
theorem exists_head (h : r.Holds f m front) :
    ∃ v vs, f.queue = v :: vs ∧ r.read (n.cursor front) = v := by
  have hseen := h.represents.seenTail_le
  have hlt := h.lt_seenTail
  rw [← h.removed] at hlt ⊢
  rw [Fifo.appended] at hseen
  obtain ⟨v, vs, hqueue⟩ := List.exists_cons_of_ne_nil
    (List.ne_nil_of_length_pos (show 0 < f.queue.length by omega))
  have hread := h.represents.read_queue (i := 0) (v := v) (by rw [hqueue]; rfl)
  exact ⟨v, vs, hqueue, hread⟩

theorem edit (h : r.Holds f m front) (v : Element k ω) :
    (r.write (n.cursor front) v).Holds (f.edit v) m front where
  represents := by
    obtain ⟨u, us, hqueue, -⟩ := h.exists_head
    rw [← h.removed]
    refine h.represents.edit ?_ v
    rw [hqueue]
    exact List.cons_ne_nil u us
  removed := h.removed
  lt_seenTail := h.lt_seenTail

/-- The slot is handed back. -/
theorem release (h : r.Holds f m front) :
    r.releaseRead.Represents (f.remove 1) { m with removed := m.removed + 1 } := by
  have hlt := h.lt_seenTail
  rw [← h.removed] at hlt
  rw [Ring.releaseRead, h.represents.head, next_cursor]
  exact h.represents.vacate hlt

end Holds

namespace Represents

variable {r : Ring n k ω} {f : Fifo k ω} {m : Marks}

/-- The elements that are found: never more than there are, and as many as are
wanted if there are that many. -/
theorem findAvailable (h : r.Represents f m) (want : UInt64) :
    ∃ m', f.KeepsProducer m f m' ∧ m'.removed = m.removed ∧
      (r.available r.head want).2.Represents f m' ∧
      (r.available r.head want).1.toNat = m'.seenTail - m.removed ∧
      min (r.available r.head want).1.toNat want.toNat = min f.queue.length want.toNat := by
  obtain ⟨seen, hseen, htoNat, hwant⟩ := h.available want
  rw [← h.head] at hseen htoNat
  refine ⟨{ m with seenTail := seen }, ⟨rfl, rfl, List.prefix_rfl⟩, rfl, hseen, htoNat, ?_⟩
  have hle : seen ≤ m.removed + f.queue.length := hseen.seenTail_le
  rw [htoNat]
  rw [Fifo.appended] at hwant
  omega

theorem available_of_empty (h : r.Represents f m) (hempty : f.queue.length = 0) :
    ∃ m', f.KeepsProducer m f m' ∧ (r.available r.head 1).1 = 0 ∧
      (r.available r.head 1).2.Represents f m' := by
  obtain ⟨m', hkeeps, -, hr, -, hmin⟩ := h.findAvailable 1
  refine ⟨m', hkeeps, ?_, hr⟩
  apply UInt64.toNat_inj.1
  rw [UInt64.toNat_one] at hmin
  rw [UInt64.toNat_zero]
  omega

theorem available_of_ne (h : r.Represents f m) (hne : f.queue.length ≠ 0) :
    ∃ m', f.KeepsProducer m f m' ∧ (r.available r.head 1).1 ≠ 0 ∧
      (r.available r.head 1).2.Holds f m' m.removed := by
  obtain ⟨m', hkeeps, hremoved, hr, htoNat, hmin⟩ := h.findAvailable 1
  rw [UInt64.toNat_one] at hmin
  refine ⟨m', hkeeps, ?_, ⟨hr, hremoved, by omega⟩⟩
  intro hzero
  rw [hzero, UInt64.toNat_zero] at hmin
  omega

theorem pop_of_empty (h : r.Represents f m) (hempty : f.queue.length = 0) :
    ∃ m', f.KeepsProducer m f m' ∧ r.pop.1 = none ∧ r.pop.2.Represents f m' := by
  obtain ⟨m', hkeeps, hzero, hr⟩ := h.available_of_empty hempty
  unfold Ring.pop
  simp only [hzero, if_true]
  exact ⟨m', hkeeps, trivial, hr⟩

theorem pop_of_cons (h : r.Represents f m) {v : Element k ω} {vs : List (Element k ω)}
    (hqueue : f.queue = v :: vs) :
    ∃ m', f.KeepsProducer m (f.remove 1) m' ∧ r.pop.1 = some v ∧
      r.pop.2.Represents (f.remove 1) m' := by
  have hpos : 0 < f.queue.length := by rw [hqueue]; exact Nat.succ_pos _
  obtain ⟨m', hkeeps, hne, hholds⟩ := h.available_of_ne hpos.ne'
  obtain ⟨u, us, hcons, hread⟩ := hholds.exists_head
  obtain rfl : u = v := by
    rw [hqueue] at hcons
    cases hcons
    rfl
  have hhead : n.cursor m'.removed = r.head := by rw [hholds.removed, h.head]
  have hrelease := hholds.release
  rw [Ring.releaseRead, hholds.represents.head, hhead] at hrelease
  rw [← h.head] at hread
  unfold Ring.pop
  simp only [hne, if_false, hread]
  exact ⟨_, hkeeps.trans (f.keepsProducer_remove m' hpos), trivial, hrelease⟩

theorem acquireRead_of_empty (h : r.Represents f m) (hempty : f.queue.length = 0) :
    ∃ m', f.KeepsProducer m f m' ∧ r.acquireRead.1 = none ∧
      r.acquireRead.2.Represents f m' := by
  obtain ⟨m', hkeeps, hzero, hr⟩ := h.available_of_empty hempty
  unfold Ring.acquireRead
  simp only [hzero, if_true]
  exact ⟨m', hkeeps, trivial, hr⟩

theorem acquireRead_of_ne (h : r.Represents f m) (hne : f.queue.length ≠ 0) :
    ∃ m', f.KeepsProducer m f m' ∧ r.acquireRead.1 = some (n.cursor m.removed) ∧
      r.acquireRead.2.Holds f m' m.removed := by
  obtain ⟨m', hkeeps, hnonzero, hholds⟩ := h.available_of_ne hne
  rw [Ring.acquireRead, ← h.head]
  simp only [hnonzero, if_false]
  exact ⟨m', hkeeps, trivial, hholds⟩

/-- The elements in consecutive slots of the queue. -/
theorem readRun_eq (h : r.Represents f m) (count : Nat) {i : Nat}
    (hle : i + count ≤ f.queue.length) :
    r.readRun count (n.cursor (m.removed + i)) =
      ((f.queue.drop i).take count, n.cursor (m.removed + i + count)) := by
  induction count generalizing i with
  | zero => rfl
  | succ count ih =>
      have hlt : i < f.queue.length := by omega
      have hread := h.read_queue (List.getElem?_eq_getElem hlt)
      have hrest := ih (i := i + 1) (by omega)
      rw [← Nat.add_assoc, ← next_cursor] at hrest
      unfold Ring.readRun
      simp only [hread, hrest]
      rw [List.drop_eq_getElem_cons hlt, List.take_succ_cons, Nat.add_assoc _ 1,
        Nat.add_comm 1 count]

theorem popBatch_eq (h : r.Represents f m) (limit : UInt64) :
    ∃ m', f.KeepsProducer m (f.remove (min f.queue.length limit.toNat)) m' ∧
      (r.popBatch limit).1 = f.queue.take limit.toNat ∧
      (r.popBatch limit).2.Represents (f.remove (min f.queue.length limit.toNat)) m' := by
  obtain ⟨m', hkeeps, hremoved, hr, htoNat, hmin⟩ := h.findAvailable limit
  have hle : min f.queue.length limit.toNat ≤ f.queue.length := Nat.min_le_left _ _
  have hrun := hr.readRun_eq (min f.queue.length limit.toNat) (i := 0) (by omega)
  have htake : f.queue.take (min f.queue.length limit.toNat) = f.queue.take limit.toNat := by
    rw [Nat.min_comm, ← List.take_eq_take_min]
  rw [Nat.add_zero, List.drop_zero, hremoved, ← h.head, htake] at hrun
  unfold Ring.popBatch
  simp only [hmin]
  split
  · next hzero =>
    have hnil : f.queue.take limit.toNat = [] := by rw [← htake, hzero, List.take_zero]
    rw [hzero, Fifo.remove_zero, hnil]
    exact ⟨m', hkeeps, rfl, hr⟩
  · have hseen : m'.removed + min f.queue.length limit.toNat ≤ m'.seenTail := by omega
    have hvacate := hr.vacate hseen
    have hremove := f.keepsProducer_remove m' hle
    rw [hremoved] at hvacate hremove
    simp only [hrun]
    exact ⟨_, hkeeps.trans hremove, trivial, hvacate⟩

end Represents

end Ring

end LockFreeRings.Spsc
