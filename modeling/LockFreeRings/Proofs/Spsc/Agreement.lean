import LockFreeRings.Proofs.Spsc.Streams
import LockFreeRings.Proofs.Spsc.Regions
set_option autoImplicit false

/-!
# Batches, streams and held slots against single elements

A batch looks for room once, from a copy of the head that may be old, and stores the tail once;
single pushes look for room before each element and store the tail each time.  They still come to
the same: the room that is found is the room that there is, or enough for what is wanted
(`Ring.Drafts.findRoom`), and what is stored before the tail moves is stored in the places where
single pushes would have put it.

What is left to tell two such rings apart are the copies of the cursors that the two sides keep.
`Ring.Interchangeable` says that these are never seen: whatever commands follow, they are reported
alike.
-/

namespace LockFreeRings.Spsc

variable {n : SlotCount} {k : Nat} {ω : Type}

namespace Ring

/-! ## One element at a time -/

/-- Pushes elements in turn up to the first that is refused, and counts those that went in. -/
def pushEach : List (Element k ω) → Ring n k ω → Nat × Ring n k ω
  | [], r => (0, r)
  | v :: vs, r =>
    match r.push v with
    | (false, r) => (0, r)
    | (true, r) =>
      let (count, r) := pushEach vs r
      (count + 1, r)

/-- Pops up to `limit` elements, or until there is none. -/
def popEach : Nat → Ring n k ω → List (Element k ω) × Ring n k ω
  | 0, r => ([], r)
  | limit + 1, r =>
    match r.pop with
    | (none, r) => ([], r)
    | (some v, r) =>
      let (vs, r) := popEach limit r
      (v :: vs, r)

/-! ## Rings that cannot be told apart -/

/-- Two rings have the same cursors and the same slots, and the copies of cursors that they keep
make no difference to what comes later. -/
structure Interchangeable (a b : Ring n k ω) : Prop where
  tail : a.tail = b.tail
  head : a.head = b.head
  slots : a.slots = b.slots
  /-- Commands are reported alike from here on, and so is the end of the ring. -/
  later : ∀ (watched : Bool) (fuel : Nat) (commands : List (SessionCommand k ω)) (alive : Reach)
    (scene : Scene k ω),
    (∀ c, .command c ∈ commands → c.depth + iteratorsDepth scene.iterators ≤ fuel) →
    (Session.execAll watched fuel commands ⟨alive, scene, a⟩).1 =
        (Session.execAll watched fuel commands ⟨alive, scene, b⟩).1 ∧
      (Session.execAll watched fuel commands ⟨alive, scene, a⟩).2.finish =
        (Session.execAll watched fuel commands ⟨alive, scene, b⟩).2.finish

namespace Represents

variable {a b r : Ring n k ω} {f : Fifo k ω} {m m' : Marks}

/-- The element in any slot is that of its place. -/
theorem slots_eq (ha : a.Represents f m) (hb : b.Represents f m') (hremoved : m'.removed = m.removed) :
    a.slots = b.slots := by
  ext1 i hi
  obtain ⟨p, hle, hlt, hslot⟩ := n.exists_cursor m.removed ⟨i, hi⟩
  have hlength : (f.queue ++ f.vacant).length = n.size := by
    rw [List.length_append, ha.length]
  have hplace := List.getElem?_eq_getElem (l := f.queue ++ f.vacant) (i := p - m.removed) (by omega)
  have hreada := ha.places _ _ hplace
  have hreadb := hb.places _ _ hplace
  rw [hremoved] at hreadb
  rw [Nat.add_sub_cancel' hle] at hreada hreadb
  have hread := hreada.trans hreadb.symm
  simp only [Ring.read, hslot] at hread
  exact hread

theorem interchangeable (ha : a.Represents f m) (hb : b.Represents f m')
    (hremoved : m'.removed = m.removed) : a.Interchangeable b where
  tail := by rw [ha.tail, hb.tail, Fifo.appended, Fifo.appended, hremoved]
  head := by rw [ha.head, hb.head, hremoved]
  slots := ha.slots_eq hb hremoved
  later := by
    intro watched fuel commands alive scene hdepth
    have honFifo : ∀ {r : Ring n k ω} {m : Marks}, r.Represents f m →
        Fifo.runSession (n.size - 1) watched fuel commands alive scene f =
          some ((Session.execAll watched fuel commands ⟨alive, scene, r⟩).1,
            (Session.execAll watched fuel commands ⟨alive, scene, r⟩).2.finish) := by
      intro r m h
      exact Session.execAll_eq (Nat.le_refl fuel) (Nat.le_refl fuel) commands ⟨alive, scene, r⟩
        hdepth h
    have hsame := (honFifo ha).symm.trans (honFifo hb)
    injection hsame with hsame
    injection hsame with hreports hfinish
    exact ⟨hreports, hfinish⟩

end Represents

end Ring

/-! ## Places that are written ahead -/

namespace Fifo

/-- Only the first `count` vacant places may have changed. -/
structure Overwritten (f : Fifo k ω) (count : Nat) (f' : Fifo k ω) : Prop where
  queue : f'.queue = f.queue
  vacant : f'.vacant.drop count = f.vacant.drop count

theorem Overwritten.refl (f : Fifo k ω) : f.Overwritten 0 f := ⟨rfl, rfl⟩

theorem Overwritten.put {f f' : Fifo k ω} {count : Nat} (h : f.Overwritten count f')
    (v : Element k ω) : f.Overwritten (count + 1) (f'.put count v) where
  queue := h.queue
  vacant := by
    have hvacant := congrArg (List.drop 1) h.vacant
    rw [List.drop_drop, List.drop_drop] at hvacant
    rw [Fifo.put, List.drop_set_of_lt (Nat.lt_succ_self count), hvacant]

/-- Places that are taken next do not show what was in them. -/
theorem Overwritten.append_eq {f f' : Fifo k ω} {vs : List (Element k ω)}
    (h : f.Overwritten vs.length f') : f'.append vs = f.append vs := by
  rw [append, append, h.queue, h.vacant]

/-- Without more places, those that still begin the rest are all of it. -/
theorem Overwritten.of_prefix {f f' : Fifo k ω} {count : Nat} (hqueue : f'.queue = f.queue)
    (hvacant : f.vacant.drop count <+: f'.vacant.drop count)
    (hlength : f'.queue.length + f'.vacant.length = f.queue.length + f.vacant.length) :
    f.Overwritten count f' where
  queue := hqueue
  vacant := by
    rw [hqueue] at hlength
    have hplaces : (f.vacant.drop count).length = (f'.vacant.drop count).length := by
      rw [List.length_drop, List.length_drop, Nat.add_left_cancel hlength]
    exact (hvacant.eq_of_length hplaces).symm

theorem append_append (f : Fifo k ω) (vs ws : List (Element k ω)) :
    (f.append vs).append ws = f.append (vs ++ ws) := by
  rw [append, append, append, List.append_assoc, List.drop_drop, List.length_append]

theorem remove_remove (f : Fifo k ω) (i j : Nat) : (f.remove i).remove j = f.remove (i + j) := by
  rw [remove, remove, remove, List.drop_drop, List.append_assoc, List.take_add]

/-- The elements for which there is room, of those that are to be appended. -/
def fitting (f : Fifo k ω) (bound : Nat) (vs : List (Element k ω)) : List (Element k ω) :=
  vs.take (bound - f.queue.length)

theorem length_fitting (f : Fifo k ω) (bound : Nat) (vs : List (Element k ω)) :
    (f.fitting bound vs).length = min vs.length (bound - f.queue.length) := by
  rw [fitting, List.length_take, Nat.min_comm]

theorem fitting_of_full {f : Fifo k ω} {bound : Nat} (hfull : f.queue.length = bound)
    (vs : List (Element k ω)) : f.fitting bound vs = [] := by
  rw [fitting, hfull, Nat.sub_self, List.take_zero]

theorem fitting_cons {f : Fifo k ω} {bound : Nat} (hroom : f.queue.length < bound)
    (v : Element k ω) (vs : List (Element k ω)) :
    f.fitting bound (v :: vs) = v :: (f.append [v]).fitting bound vs := by
  have hleft : bound - f.queue.length = bound - (f.queue.length + 1) + 1 := by omega
  rw [fitting, hleft, List.take_succ_cons, fitting, append, List.length_append,
    List.length_singleton]

/-- The queue and the count of all that were appended give the count of the removed. -/
theorem KeepsProducer.removed_eq {f f' : Fifo k ω} {m m₁ m₂ : Marks}
    (h₁ : f.KeepsProducer m f' m₁) (h₂ : f.KeepsProducer m f' m₂) : m₂.removed = m₁.removed := by
  have happended := h₂.appended.trans h₁.appended.symm
  rw [Fifo.appended, Fifo.appended] at happended
  exact Nat.add_right_cancel happended

end Fifo

namespace Ring.Represents

variable {r : Ring n k ω} {f : Fifo k ω} {m : Marks}

/-! ## Elements that go in -/

theorem pushEach_eq (h : r.Represents f m) (vs : List (Element k ω)) :
    ∃ m', (pushEach vs r).1 = (f.fitting (n.size - 1) vs).length ∧ m'.removed = m.removed ∧
      (pushEach vs r).2.Represents (f.append (f.fitting (n.size - 1) vs)) m' := by
  induction vs generalizing r f m with
  | nil =>
      refine ⟨m, ?_, rfl, ?_⟩
      · rw [Fifo.fitting, List.take_nil]
        rfl
      · rw [Fifo.fitting, List.take_nil, Fifo.append_nil]
        exact h
  | cons v vs ih =>
      unfold pushEach
      rcases Nat.lt_or_ge f.queue.length (n.size - 1) with hroom | hge
      · obtain ⟨m₁, hkeeps, hpushed, hr⟩ := h.push_of_room hroom v
        generalize r.push v = pushed at hpushed hr
        obtain ⟨success, r₁⟩ := pushed
        obtain rfl : success = true := hpushed
        obtain ⟨m', hcount, hremoved, hrest⟩ := ih hr
        rw [Fifo.append_append, List.singleton_append, ← Fifo.fitting_cons hroom] at hrest
        refine ⟨m', ?_, hremoved.trans hkeeps.removed, hrest⟩
        rw [Fifo.fitting_cons hroom, List.length_cons, ← hcount]
      · have hfull : f.queue.length = n.size - 1 := by
          have hle := h.length_queue_le
          omega
        obtain ⟨m', hkeeps, hpushed, hr⟩ := h.push_of_full hfull v
        generalize r.push v = pushed at hpushed hr
        obtain ⟨success, r₁⟩ := pushed
        obtain rfl : success = false := hpushed
        rw [Fifo.fitting_of_full hfull, Fifo.append_nil]
        exact ⟨m', rfl, hkeeps.removed, hr⟩

end Ring.Represents

namespace Ring.Drafts

variable {r : Ring n k ω} {f f₁ : Fifo k ω} {m m₁ : Marks} {start : Nat}
  {drafted : List (Element k ω)}

/-- Copies that leave the ring alone are stored one behind the other. -/
theorem writeCopies_eq {ι σ : Type} {item : Element k ω → ι}
    {copy : ι → σ → Ring n k ω → Option (Element k ω) × σ × Ring n k ω}
    (hcopy : ∀ v s r, ∃ s', copy (item v) s r = (some v, s', r)) (vs : List (Element k ω)) (s : σ)
    (h : r.Drafts f₁ m start drafted vs.length) (hf : f.Overwritten drafted.length f₁) :
    ∃ s' r' f', writeCopies copy (vs.map item) (n.cursor (start + drafted.length)) s r =
        (some (n.cursor (start + (drafted ++ vs).length)), s', r') ∧
      r'.Drafts f' m start (drafted ++ vs) 0 ∧ f.Overwritten (drafted ++ vs).length f' := by
  induction vs generalizing drafted s r f₁ with
  | nil =>
      rw [List.append_nil]
      exact ⟨s, r, f₁, rfl, h, hf⟩
  | cons v vs ih =>
      obtain ⟨s₁, hcopied⟩ := hcopy v s r
      have hstored := h.store v
      have hput := hf.put v
      have hlength : (drafted ++ [v]).length = drafted.length + 1 := by
        rw [List.length_append, List.length_singleton]
      rw [← hlength] at hput
      obtain ⟨s', r', f', hrest, hdrafts, hover⟩ := ih s₁ hstored hput
      rw [hlength, ← Nat.add_assoc, ← next_cursor] at hrest
      rw [List.append_cons, List.map_cons, writeCopies, hcopied]
      exact ⟨s', r', f', hrest, hdrafts, hover⟩

end Ring.Drafts

namespace Ring.Represents

variable {r : Ring n k ω} {f : Fifo k ω} {m : Marks}

/-- A batch whose copies leave the ring alone appends what fits. -/
theorem pushCopies_eq {ι σ : Type} {item : Element k ω → ι}
    {copy : ι → σ → Ring n k ω → Option (Element k ω) × σ × Ring n k ω}
    (hcopy : ∀ v s r, ∃ s', copy (item v) s r = (some v, s', r)) (h : r.Represents f m)
    (vs : List (Element k ω)) (s : σ) :
    ∃ s' r' m', pushCopies copy (vs.map item) s r =
        (some (f.fitting (n.size - 1) vs).length, s', r') ∧
      m'.removed = m.removed ∧ r'.Represents (f.append (f.fitting (n.size - 1) vs)) m' := by
  obtain ⟨m₁, hkeeps, hdrafts, hmin⟩ := (Drafts.new h).findRoom (sliceLength (vs.map item))
  rw [List.length_nil, Nat.add_zero, ← h.tail] at hmin hdrafts
  generalize hfind : r.room r.tail (sliceLength (vs.map item)) = found at hmin hdrafts
  obtain ⟨room, r₁⟩ := found
  have hroom := room.toNat_lt
  have hsize := n.size_le
  have hcount : min room.toNat (vs.map item).length = (f.fitting (n.size - 1) vs).length := by
    rw [sliceLength, UInt64.toNat_ofNat', List.length_map] at hmin
    rw [f.length_fitting, List.length_map]
    simp only at hmin
    omega
  have htake : (vs.map item).take (f.fitting (n.size - 1) vs).length =
      (f.fitting (n.size - 1) vs).map item := by
    rw [← List.map_take, f.length_fitting, Nat.min_comm, ← List.take_eq_take_min, Fifo.fitting]
  unfold pushCopies
  simp only [hfind, hcount, htake]
  split
  · next hzero =>
    rw [List.length_eq_zero_iff.mp hzero, Fifo.append_nil]
    exact ⟨s, r₁, m₁, rfl, hkeeps.removed, hdrafts.represents⟩
  · obtain ⟨s', r', f', hwritten, hstored, hover⟩ :=
      (hdrafts.weaken (by simp only; omega)).writeCopies_eq hcopy (f.fitting (n.size - 1) vs) s
        (.refl f)
    rw [List.length_nil, Nat.add_zero, ← h.tail] at hwritten
    have hpublished := hstored.publish
    rw [hwritten]
    rw [List.nil_append] at hover hpublished ⊢
    rw [hover.append_eq] at hpublished
    exact ⟨s', _, m₁, rfl, hkeeps.removed, hpublished⟩

end Ring.Represents

/-! ## Iterators over lists -/

namespace Ring

variable {σ : Type} {pull : σ → Ring n k ω → Pull (Element k ω) × σ × Ring n k ω}
  {Left : σ → List (Element k ω) → Prop}

/-- The iterator leaves the ring alone and answers from a list; `Left` says what is left of it. -/
structure Draws (pull : σ → Ring n k ω → Pull (Element k ω) × σ × Ring n k ω)
    (Left : σ → List (Element k ω) → Prop) : Prop where
  ended : ∀ s r, Left s [] → ∃ s', pull s r = (.ended, s', r) ∧ Left s' []
  item : ∀ s r v vs, Left s (v :: vs) → ∃ s', pull s r = (.item v, s', r) ∧ Left s' vs

theorem Draws.consumes (hpull : Draws pull Left) (s : σ) (r : Ring n k ω)
    (hs : ∃ vs, Left s vs) : Consumes r (pull s r).2.2 ∧ ∃ vs, Left (pull s r).2.1 vs := by
  obtain ⟨vs, hleft⟩ := hs
  cases vs with
  | nil =>
      obtain ⟨s', hanswer, hdone⟩ := hpull.ended s r hleft
      rw [hanswer]
      exact ⟨.refl, [], hdone⟩
  | cons v vs =>
      obtain ⟨s', hanswer, hmore⟩ := hpull.item s r v vs hleft
      rw [hanswer]
      exact ⟨.refl, vs, hmore⟩

theorem Stop.of_ended_eq {α : Type} {answers : List (Pull α)} {taken : List α} {stop : Stop}
    (h : .ended :: answers = taken.map .item ++ stop.answers) :
    taken = [] ∧ stop = .ended ∧ answers = [] := by
  cases taken with
  | nil =>
      cases stop with
      | ended =>
          injection h with _ hanswers
          exact ⟨rfl, rfl, hanswers⟩
      | full => cases h
      | failed => cases h
  | cons v taken => cases h

theorem Stop.of_item_eq {α : Type} {answers : List (Pull α)} {v : α} {taken : List α} {stop : Stop}
    (h : .item v :: answers = taken.map .item ++ stop.answers) :
    ∃ rest, taken = v :: rest ∧ answers = rest.map .item ++ stop.answers := by
  cases taken with
  | nil => cases stop <;> cases h
  | cons u rest =>
      injection h with hitem hanswers
      injection hitem with hvalue
      exact ⟨rest, by rw [hvalue], hanswers⟩

/-- What is answered comes from the front of the list, and the iterator ends with the list. -/
theorem Draws.of_asked (hpull : Draws pull Left) {s s' : σ} {queue queue' : List (Element k ω)}
    {log : List (Question σ n k ω)} (h : Asked pull s queue log s' queue')
    {vs taken : List (Element k ω)} {stop : Stop} (hleft : Left s vs)
    (hanswers : log.map (fun q => (pull q.state q.ring).1) = taken.map .item ++ stop.answers) :
    ∃ rest, vs = taken ++ rest ∧ Left s' rest ∧ queue' = queue ∧ stop ≠ .failed ∧
      (stop = .ended → rest = []) := by
  induction h generalizing vs taken with
  | nil s queue =>
      rw [List.map_nil, List.nil_eq, List.append_eq_nil_iff, List.map_eq_nil_iff] at hanswers
      obtain ⟨rfl, hstop⟩ := hanswers
      refine ⟨vs, rfl, hleft, rfl, ?_, ?_⟩
      · rintro rfl
        cases hstop
      · rintro rfl
        cases hstop
  | @cons q log queue s' queue' hqueue h ih =>
      rw [List.map_cons] at hanswers
      cases vs with
      | nil =>
          obtain ⟨s₁, hanswer, hdone⟩ := hpull.ended q.state q.ring hleft
          rw [hanswer] at hanswers h
          obtain ⟨rfl, rfl, hlog⟩ := Stop.of_ended_eq hanswers
          rw [List.map_eq_nil_iff] at hlog
          subst hlog
          cases h
          exact ⟨[], rfl, hdone, hqueue, Stop.noConfusion, fun _ => rfl⟩
      | cons v vs =>
          obtain ⟨s₁, hanswer, hmore⟩ := hpull.item q.state q.ring v vs hleft
          rw [hanswer] at hanswers ih
          obtain ⟨taken, rfl, hrest⟩ := Stop.of_item_eq hanswers
          obtain ⟨rest, rfl, hdone, hkept, hstop⟩ := ih hmore hrest
          exact ⟨rest, rfl, hdone, hkept.trans hqueue, hstop⟩

end Ring

namespace Ring.Represents

variable {r : Ring n k ω} {f : Fifo k ω} {m : Marks}

/-- A stream over a list appends what fits, and leaves the rest in the iterator. -/
theorem pushFrom_list {σ : Type} {pull : σ → Ring n k ω → Pull (Element k ω) × σ × Ring n k ω}
    {Left : σ → List (Element k ω) → Prop} (hpull : Draws pull Left) (h : r.Represents f m)
    {vs : List (Element k ω)} {s : σ} (hleft : Left s vs) :
    ∃ s' r' m', pushFrom pull s r = (some (f.fitting (n.size - 1) vs).length, s', r') ∧
      Left s' (vs.drop (f.fitting (n.size - 1) vs).length) ∧ m'.removed = m.removed ∧
      r'.Represents (f.append (f.fitting (n.size - 1) vs)) m' := by
  obtain ⟨log, taken, stop, s', r', f', m', hloop⟩ :=
    (Drafts.new h).exists_streamed (fun s => ∃ vs, Left s vs) hpull.consumes (n.size - 1)
      (Nat.zero_add _) ⟨vs, hleft⟩
  have hdrafts := hloop.drafts
  have hvacant := hloop.vacant
  have hfull := hloop.full
  rw [List.nil_append] at hdrafts hvacant hfull
  obtain ⟨rest, hsplit, hrest, hqueue, hstop, hended⟩ :=
    hpull.of_asked hloop.asked hleft hloop.answers
  have hle := hdrafts.queue_add_le
  rw [hqueue] at hle hfull
  -- The list ends, or the queue and what was taken fill the ring.
  have htaken : f.fitting (n.size - 1) vs = taken := by
    rw [Fifo.fitting, hsplit]
    cases stop with
    | failed => exact absurd rfl hstop
    | ended =>
        rw [hended rfl, List.append_nil, List.take_of_length_le (by omega)]
    | full =>
        obtain ⟨hlength, -⟩ := hfull rfl
        have hroom : n.size - 1 - f.queue.length = taken.length := by omega
        rw [hroom, List.take_left]
  have happended := hdrafts.appended
  have hremoved : m'.removed = m.removed := by
    rw [Fifo.appended, Fifo.appended, hqueue] at happended
    exact Nat.add_right_cancel happended
  have hover := Fifo.Overwritten.of_prefix hqueue hvacant
    (hdrafts.represents.length.trans h.length.symm)
  have hr' := hdrafts.stop stop
  rw [stop.published_of_ne hstop, hover.append_eq, ← h.tail] at hr'
  rw [htaken, pushFrom_eq (hloop.loop_eq h (Nat.le_refl _)).2, stop.result_of_ne hstop, hsplit,
    List.drop_left]
  exact ⟨s', _, m', rfl, hrest, hremoved, hr'⟩

/-! ## Elements that come out -/

theorem popEach_eq (h : r.Represents f m) (limit : Nat) :
    ∃ m', f.KeepsProducer m (f.remove (min f.queue.length limit)) m' ∧
      (popEach limit r).1 = f.queue.take limit ∧
      (popEach limit r).2.Represents (f.remove (min f.queue.length limit)) m' := by
  induction limit generalizing r f m with
  | zero =>
      rw [Nat.min_zero, Fifo.remove_zero]
      exact ⟨m, .refl f m, rfl, h⟩
  | succ limit ih =>
      unfold popEach
      cases hqueue : f.queue with
      | nil =>
          obtain ⟨m', hkeeps, hpopped, hr⟩ := h.pop_of_empty (by rw [hqueue]; rfl)
          generalize r.pop = popped at hpopped hr
          obtain ⟨v?, r₁⟩ := popped
          obtain rfl : v? = none := hpopped
          rw [List.length_nil, Nat.zero_min, Fifo.remove_zero]
          exact ⟨m', hkeeps, rfl, hr⟩
      | cons v vs =>
          obtain ⟨m₁, hkeeps, hpopped, hr⟩ := h.pop_of_cons hqueue
          generalize r.pop = popped at hpopped hr
          obtain ⟨v?, r₁⟩ := popped
          obtain rfl : v? = some v := hpopped
          obtain ⟨m', hrest, hvs, hr'⟩ := ih hr
          have hleft : (f.remove 1).queue = vs := by rw [Fifo.remove, hqueue, List.drop_one]; rfl
          have hmin : 1 + min vs.length limit = min (v :: vs).length (limit + 1) := by
            rw [List.length_cons]
            omega
          rw [hleft] at hvs
          rw [hleft, Fifo.remove_remove, hmin] at hrest hr'
          refine ⟨m', hkeeps.trans hrest, ?_, hr'⟩
          rw [List.take_succ_cons, ← hvs]

end Ring.Represents

/-! ## Commands -/

/-- A copy that runs nothing and does not fail. -/
def plainCopy (v : Element k ω) : Copy k ω := .mk v [] false

/-- An answer of an iterator that runs nothing. -/
def plainEntry (v : Element k ω) : IteratorEntry k ω := ⟨[], .item v⟩

theorem makeCopy_plain (watched : Bool) (run : Runner n k ω) (reach : Reach) (v : Element k ω)
    (p : Progress k ω) (r : Ring n k ω) :
    ∃ p', makeCopy watched run reach (plainCopy v) p r = (some v, p', r) := by
  cases watched with
  | true => exact ⟨_, rfl⟩
  | false => exact ⟨_, rfl⟩

/-- These elements are left of an iterator, which is asked without limit. -/
def IsLeft (iterator : Nat) (s : Option UInt64 × Progress k ω) (vs : List (Element k ω)) : Prop :=
  s.1 = none ∧ s.2.scene.left iterator = vs.map plainEntry

theorem draws_askWithin (run : Runner n k ω) (reach : Reach) (iterator : Nat) :
    Ring.Draws (askWithin run reach iterator) (IsLeft iterator) where
  ended := by
    rintro ⟨limit, p⟩ r ⟨rfl, hleft⟩
    refine ⟨(none, ⟨p.scene, p.events ++ [.exhausted]⟩), ?_, rfl, hleft⟩
    rw [askWithin, if_neg (Option.some_ne_none _).symm, ask]
    simp only at hleft
    rw [hleft]
    rfl
  item := by
    rintro ⟨limit, p⟩ r v vs ⟨rfl, hleft⟩
    simp only [List.map_cons] at hleft
    have hset := p.scene.getElem?_of_left hleft
    obtain ⟨hlt, -⟩ := List.getElem?_eq_some_iff.mp hset
    refine ⟨(none, ⟨{ p.scene with iterators := p.scene.iterators.set iterator (vs.map plainEntry) },
      p.events ++ [.pulled v]⟩), ?_, rfl, ?_⟩
    · rw [askWithin, if_neg (Option.some_ne_none _).symm, ask]
      simp only
      rw [hleft]
      rfl
    · rw [Scene.left, List.getElem?_set_self hlt]
      rfl

/-- A command replied this, and left a ring that cannot be told from the other one. -/
structure Ran.ComesTo (ran : Ran n k ω (Reply k ω)) (reply : Reply k ω) (r : Ring n k ω) : Prop where
  result : ran.result = reply
  ring : ran.ring.Interchangeable r

namespace Ring

/-- What batches, streams and held slots do to a ring is what single elements do. -/
structure BulkAgrees (r : Ring n k ω) : Prop where
  /-- A batch appends what single pushes do, up to the first that is refused. -/
  pushBatch : ∀ (watched : Bool) (fuel : Nat) (reach : Reach) (scene : Scene k ω)
    (vs : List (Element k ω)), reach.producer = true →
    (runCommand watched (fuel + 1) reach (.pushBatch (vs.map plainCopy)) scene r).ComesTo
      (.pushedMany (pushEach vs r).1) (pushEach vs r).2
  /-- So does a stream, which leaves the others in its iterator. -/
  pushFrom : ∀ (watched : Bool) (fuel : Nat) (reach : Reach) (scene : Scene k ω) (iterator : Nat)
    (vs : List (Element k ω)), reach.producer = true →
    scene.left iterator = vs.map plainEntry →
    (runCommand watched (fuel + 1) reach (.pushFrom iterator none) scene r).ComesTo
        (.pulledMany (pushEach vs r).1 (vs.length - (pushEach vs r).1)) (pushEach vs r).2 ∧
      (runCommand watched (fuel + 1) reach (.pushFrom iterator none) scene r).scene.left iterator =
        (vs.drop (pushEach vs r).1).map plainEntry
  /-- A batch takes out what single pops do, behind what is in the output already. -/
  popBatch : ∀ (watched : Bool) (fuel : Nat) (reach : Reach) (scene : Scene k ω) (limit : UInt64)
    (out : List (Element k ω)), reach.consumer = true →
    (runCommand watched (fuel + 1) reach (.popBatch limit out) scene r).ComesTo
      (.poppedMany (popEach limit.toNat r).1.length (out ++ (popEach limit.toNat r).1))
      (popEach limit.toNat r).2
  /-- Storing an element through a slot is a push, refused or not. -/
  write : ∀ (watched : Bool) (fuel : Nat) (reach : Reach) (scene : Scene k ω) (v : Element k ω),
    reach.producer = true →
    (runCommand watched (fuel + 1) reach (.writeSlot [] (.write v)) scene r).ComesTo
      (if (r.push v).1 then .wrote [] .written else .noSlot) (r.push v).2
  /-- Taking the element out of a slot is a pop, refused or not. -/
  take : ∀ (watched : Bool) (fuel : Nat) (reach : Reach) (scene : Scene k ω),
    reach.consumer = true →
    (runCommand watched (fuel + 1) reach (.readSlot [] .take) scene r).ComesTo
      (r.pop.1.elim .noSlot fun v => .readOut [] (.taken v)) r.pop.2

namespace Represents

variable {r : Ring n k ω} {f : Fifo k ω} {m : Marks}

theorem pushBatch_comesTo (h : r.Represents f m) (watched : Bool) (fuel : Nat) {reach : Reach}
    (hreach : reach.producer = true) (scene : Scene k ω) (vs : List (Element k ω)) :
    (runCommand watched (fuel + 1) reach (.pushBatch (vs.map plainCopy)) scene r).ComesTo
      (.pushedMany (pushEach vs r).1) (pushEach vs r).2 := by
  obtain ⟨m₁, hcount, hremoved, heach⟩ := h.pushEach_eq vs
  obtain ⟨p, r', m', hbatch, hremoved', hr⟩ := h.pushCopies_eq
    (makeCopy_plain watched (runCommand watched fuel) { reach with producer := false }) vs
    ⟨{ scene with built := false }, []⟩
  rw [runCommand_of_producer hreach rfl, Spsc.runProducer, hbatch, hcount]
  exact ⟨rfl, hr.interchangeable heach (hremoved.trans hremoved'.symm)⟩

theorem pushFrom_comesTo (h : r.Represents f m) (watched : Bool) (fuel : Nat) {reach : Reach}
    (hreach : reach.producer = true) {scene : Scene k ω} {iterator : Nat}
    {vs : List (Element k ω)} (hleft : scene.left iterator = vs.map plainEntry) :
    (runCommand watched (fuel + 1) reach (.pushFrom iterator none) scene r).ComesTo
        (.pulledMany (pushEach vs r).1 (vs.length - (pushEach vs r).1)) (pushEach vs r).2 ∧
      (runCommand watched (fuel + 1) reach (.pushFrom iterator none) scene r).scene.left iterator =
        (vs.drop (pushEach vs r).1).map plainEntry := by
  obtain ⟨m₁, hcount, hremoved, heach⟩ := h.pushEach_eq vs
  have hbegin : IsLeft iterator
      (none, (⟨{ scene with built := false }, []⟩ : Progress k ω)) vs := ⟨rfl, hleft⟩
  obtain ⟨⟨limit, p⟩, r', m', hstream, ⟨-, hrest⟩, hremoved', hr⟩ := h.pushFrom_list
    (draws_askWithin (runCommand watched fuel) { reach with producer := false } iterator) hbegin
  rw [runCommand_of_producer hreach rfl, Spsc.runProducer, hstream, hcount]
  refine ⟨⟨?_, hr.interchangeable heach (hremoved.trans hremoved'.symm)⟩, hrest⟩
  simp only [hrest, List.length_map, List.length_drop]

theorem popBatch_comesTo (h : r.Represents f m) (watched : Bool) (fuel : Nat) {reach : Reach}
    (hreach : reach.consumer = true) (scene : Scene k ω) (limit : UInt64)
    (out : List (Element k ω)) :
    (runCommand watched (fuel + 1) reach (.popBatch limit out) scene r).ComesTo
      (.poppedMany (popEach limit.toNat r).1.length (out ++ (popEach limit.toNat r).1))
      (popEach limit.toNat r).2 := by
  obtain ⟨m₁, hkeeps, hpopped, heach⟩ := h.popEach_eq limit.toNat
  obtain ⟨m', hkeeps', hbatch, hr⟩ := h.popBatch_eq limit
  rw [runCommand_of_consumer hreach rfl, Spsc.runConsumer, hpopped, ← hbatch]
  exact ⟨rfl, hr.interchangeable heach (hkeeps'.removed_eq hkeeps)⟩

/-- An element that is written through a slot goes where a push puts it. -/
theorem write_comesTo (h : r.Represents f m) (watched : Bool) (fuel : Nat) {reach : Reach}
    (hreach : reach.producer = true) (scene : Scene k ω) (v : Element k ω) :
    (runCommand watched (fuel + 1) reach (.writeSlot [] (.write v)) scene r).ComesTo
      (if (r.push v).1 then .wrote [] .written else .noSlot) (r.push v).2 := by
  rw [runCommand_of_producer hreach rfl]
  unfold Spsc.runProducer
  rcases Nat.lt_or_ge f.queue.length (n.size - 1) with hroom | hge
  · obtain ⟨m₁, hkeeps, hpushed, hr⟩ := h.push_of_room hroom v
    obtain ⟨m', hkeeps', hslot, hdrafts⟩ := h.acquireWrite_of_room hroom
    have hwritten := (hdrafts.store v).commitWrite
    rw [List.length_nil, Nat.add_zero, Fifo.put_zero_append] at hwritten
    generalize r.acquireWrite = acquired at hslot hwritten
    obtain ⟨slot?, r₁⟩ := acquired
    obtain rfl : slot? = some (n.cursor (f.appended m)) := hslot
    rw [hpushed]
    exact ⟨rfl, hwritten.interchangeable hr (hkeeps.removed.trans hkeeps'.removed.symm)⟩
  · have hfull : f.queue.length = n.size - 1 := by
      have hle := h.length_queue_le
      omega
    obtain ⟨m₁, hkeeps, hpushed, hr⟩ := h.push_of_full hfull v
    obtain ⟨m', hkeeps', hslot, hacquired⟩ := h.acquireWrite_of_full hfull
    generalize r.acquireWrite = acquired at hslot hacquired
    obtain ⟨slot?, r₁⟩ := acquired
    obtain rfl : slot? = none := hslot
    rw [hpushed]
    exact ⟨rfl, hacquired.interchangeable hr (hkeeps.removed.trans hkeeps'.removed.symm)⟩

/-- An element that is taken through a slot is the one that a pop takes. -/
theorem take_comesTo (h : r.Represents f m) (watched : Bool) (fuel : Nat) {reach : Reach}
    (hreach : reach.consumer = true) (scene : Scene k ω) :
    (runCommand watched (fuel + 1) reach (.readSlot [] .take) scene r).ComesTo
      (r.pop.1.elim .noSlot fun v => .readOut [] (.taken v)) r.pop.2 := by
  rw [runCommand_of_consumer hreach rfl]
  unfold Spsc.runConsumer
  cases hqueue : f.queue with
  | nil =>
      have hempty : f.queue.length = 0 := by rw [hqueue]; rfl
      obtain ⟨m₁, hkeeps, hpopped, hr⟩ := h.pop_of_empty hempty
      obtain ⟨m', hkeeps', hslot, hacquired⟩ := h.acquireRead_of_empty hempty
      generalize r.acquireRead = acquired at hslot hacquired
      obtain ⟨slot?, r₁⟩ := acquired
      obtain rfl : slot? = none := hslot
      rw [hpopped]
      exact ⟨rfl, hacquired.interchangeable hr (hkeeps'.removed_eq hkeeps)⟩
  | cons v vs =>
      have hpos : 0 < f.queue.length := by rw [hqueue]; exact Nat.succ_pos _
      obtain ⟨m₁, hkeeps, hpopped, hr⟩ := h.pop_of_cons hqueue
      obtain ⟨m', hkeeps', hslot, hholds⟩ := h.acquireRead_of_ne hpos.ne'
      obtain ⟨u, us, hcons, hread⟩ := hholds.exists_head
      obtain rfl : u = v := by
        rw [hqueue] at hcons
        cases hcons
        rfl
      have hreleased := hholds.release
      generalize r.acquireRead = acquired at hslot hread hreleased
      obtain ⟨slot?, r₁⟩ := acquired
      obtain rfl : slot? = some (n.cursor m.removed) := hslot
      rw [hpopped, ← hread]
      exact ⟨rfl, hreleased.interchangeable hr
        ((hkeeps'.trans (f.keepsProducer_remove m' hpos)).removed_eq hkeeps)⟩

end Represents

/-- Batches, streams and held slots agree with single elements in every state. -/
theorem Arises.bulk_agrees {blank : Element k ω} {r : Ring n k ω} (h : r.Arises blank) :
    r.BulkAgrees := by
  obtain ⟨f, m, hr⟩ := h.represents
  constructor
  case pushBatch =>
    intro watched fuel reach scene vs hreach
    exact hr.pushBatch_comesTo watched fuel hreach scene vs
  case pushFrom =>
    intro watched fuel reach scene iterator vs hreach hleft
    exact hr.pushFrom_comesTo watched fuel hreach hleft
  case popBatch =>
    intro watched fuel reach scene limit out hreach
    exact hr.popBatch_comesTo watched fuel hreach scene limit out
  case write =>
    intro watched fuel reach scene v hreach
    exact hr.write_comesTo watched fuel hreach scene v
  case take =>
    intro watched fuel reach scene hreach
    exact hr.take_comesTo watched fuel hreach scene

/-- A ring after a batch of three and two pops; both sides keep old copies of cursors. -/
def worn (n : SlotCount) : Ring n 1 Nat :=
  let run := fun c r => (runCommand true 2 {} c { iterators := [] } r).ring
  run .pop (run .pop (run (.pushBatch ([1, 2, 3].map fun v => plainCopy (.replicate 1 v)))
    (.new n (.replicate 1 0))))

theorem worn_bulk_agrees :
    (worn ⟨2, by decide, by decide⟩).Arises (.replicate 1 0) ∧
      (pushEach [.replicate 1 4, .replicate 1 5, .replicate 1 6]
        (worn ⟨2, by decide, by decide⟩)).1 = 2 ∧
      (worn ⟨2, by decide, by decide⟩).BulkAgrees := by
  have hpushed : (runCommand true 2 {}
      (.pushBatch ([1, 2, 3].map fun v => plainCopy (.replicate 1 v))) { iterators := [] }
      (.new ⟨2, by decide, by decide⟩ (.replicate 1 0))).ring.Arises (.replicate 1 0) :=
    .command .new true {} _ { iterators := [] } (by decide)
  have harises : (worn ⟨2, by decide, by decide⟩).Arises (.replicate 1 0) := by
    refine .command ?_ true {} .pop { iterators := [] } (by decide)
    exact .command hpushed true {} .pop { iterators := [] } (by decide)
  exact ⟨harises, by rfl, harises.bulk_agrees⟩

end Ring

end LockFreeRings.Spsc
