import LockFreeRings.Proofs.Mpmc.Stalls
set_option autoImplicit false

/-!
# A batch copies what it has a position for

A batch deals with its items one after another.  Each has a turn: if the ring is full at that
moment the batch ends, and otherwise a position is taken, and only then the caller's code makes
the copy, which is stored at that position before the next item's turn begins.  While it makes
a copy the caller's code may use the ring in any way, so that the next item finds more room or
less.  `Course.Makes` is one turn seen from the ring, `Course.Appends` are the turns that were
taken, and `Course.Ends` says how it ends with the items that are left.

To say which copies were asked for, and when, the caller's code is made to note it
(`Course.noting`).  `Course.Batch` says all that comes of a batch, and
`Course.exists_batch` that something of this kind comes of every batch, whatever the ring has
gone through and whatever the caller's code does.
-/

namespace LockFreeRings.Mpmc

variable {n : SlotCount} {α ι σ : Type}

/-- A ready cell is in the front if all cells before it are ready too. -/
theorem Cells.getElem?_readyFront_of_ready {cells : List (Cell α)} {i : Nat} {v : α}
    (h : cells[i]? = some (.ready v))
    (hbefore : ∀ j < i, cells[j]? ≠ some .pending ∧ cells[j]? ≠ some .dead) :
    (readyFront cells)[i]? = some v := by
  refine (getElem?_readyFront cells i v).mpr ⟨h, ?_⟩
  by_contra hle
  rcases Nat.lt_or_eq_of_le (Nat.not_lt.mp hle) with hlt | heq
  · -- the cell that ends the front would be one of those before
    obtain ⟨hi, -⟩ := List.getElem?_eq_some_iff.mp h
    have hbound : (readyFront cells).length < cells.length := hlt.trans hi
    have hget := List.getElem?_eq_getElem hbound
    obtain ⟨hpending, hdead⟩ := hbefore _ hlt
    cases hcell : cells[(readyFront cells).length] with
    | pending => exact hpending (hget.trans (congrArg some hcell))
    | dead => exact hdead (hget.trans (congrArg some hcell))
    | ready w => exact getElem?_length_readyFront cells w (hget.trans (congrArg some hcell))
  · exact getElem?_length_readyFront cells v (heq ▸ h)

namespace Course

variable {s : Course n α}

/-! ## Elements at their positions -/

theorem mem_filled_step {pos : Nat} {v : α} (hv : (pos, v) ∈ s.filled) (move : Move α) :
    (pos, v) ∈ (s.step move).filled := by
  unfold step
  cases move with
  | claim | pop =>
      simp only
      split <;> exact hv
  | fill pos w =>
      simp only
      split
      · exact List.mem_append_left _ hv
      · exact hv
  | abandon pos =>
      simp only
      split <;> exact hv

/-- An element that was filled in stays in the books. -/
theorem mem_filled_after {pos : Nat} {v : α} (hv : (pos, v) ∈ s.filled)
    (moves : List (Move α)) : (pos, v) ∈ (s.after moves).filled := by
  induction moves generalizing s with
  | nil => exact hv
  | cons move moves ih => exact ih (mem_filled_step hv move)

/-- The element was filled in at the position, and this is what comes of it. -/
structure Queued (s : Course n α) (pos : Nat) (v : α) : Prop where
  filled : (pos, v) ∈ s.filled
  /-- once so many elements were popped, it is the one that was popped in its place -/
  popped : pos < s.popped.length → s.popped[pos]? = some v
  /-- before that pops come to it, unless an earlier position stalls them -/
  next : s.popped.length ≤ pos → (∀ q < pos, q ∉ s.building ∧ q ∉ s.abandoned) →
    ∃ vs, s.Yields vs ∧ vs[pos - s.popped.length]? = some v

theorem Sound.queued (h : s.Sound) {pos : Nat} {v : α} (hv : (pos, v) ∈ s.filled) :
    s.Queued pos v := by
  obtain ⟨c, hc⟩ := h
  constructor
  case filled => exact hv
  case popped =>
    intro hlt
    exact (hc.popped pos v).mpr ⟨hv, hlt⟩
  case next =>
    intro hle hclear
    obtain ⟨-, hget⟩ := (hc.filled pos v).mpr ⟨hv, hle⟩
    refine ⟨_, hc.yields, ?_⟩
    rw [← hc.first] at hle ⊢
    refine Cells.getElem?_readyFront_of_ready hget fun j hj => ?_
    have hcell : ∀ cell, c.cells[j]? = some cell → c.At (c.first + j) cell := by
      intro cell hj
      refine ⟨Nat.le_add_right _ _, ?_⟩
      rwa [Nat.add_sub_cancel_left]
    obtain ⟨hbuilding, habandoned⟩ := hclear (c.first + j) (by omega)
    rw [← hc.building] at hbuilding
    rw [← hc.abandoned] at habandoned
    exact ⟨fun hpending => hbuilding (hcell _ hpending),
      fun hdead => habandoned (hcell _ hdead)⟩

/-- The position is not published, and stalls the ring. -/
structure Unpublished (s : Course n α) (p : Nat) : Prop where
  stalled : s.Stalled p
  unfilled : ∀ v, (p, v) ∉ s.filled
  /-- its slot still has the sequence number that it had when the position was taken -/
  seq : s.ring.seqAt (UInt64.ofNat p) = UInt64.ofNat p

theorem Sound.unpublished (h : s.Sound) {p : Nat} (hp : p ∈ s.abandoned) : s.Unpublished p := by
  have hstalled := h.stalled hp
  obtain ⟨c, hc⟩ := h
  have hdead := (hc.abandoned p).mpr hp
  constructor
  case stalled => exact hstalled
  case unfilled =>
    intro v hv
    have hready := (hc.filled p v).mpr ⟨hv, hc.first ▸ hdead.1⟩
    cases hdead.eq hready
  case seq =>
    obtain ⟨hle, hget⟩ := hdead
    obtain ⟨hbound, -⟩ := List.getElem?_eq_some_iff.mp hget
    have hseq := hc.represents.seq (p - c.first) (hbound.trans_le hc.represents.length_le)
    have hready : c.readiness (p - c.first) = 0 := by
      unfold Cells.readiness
      rw [hget]
    rwa [hready, Nat.add_zero, Nat.add_sub_cancel' hle] at hseq

/-! ## One turn -/

/-- Where the caller's code leaves a ring, when a position was taken for it. -/
def inside (s : Course n α) (moves : List (Move α)) : Course n α := (s.step .claim).after moves

/-- There is room, the next position is taken, and the caller's code that runs then goes
through `moves`.  It gives an element, unless it fails, and its position is still being
built. -/
structure Makes (make : σ → Ring n α → Option α × σ × Ring n α) (s : Course n α) (own : σ)
    (moves : List (Move α)) (made : Option α) (own' : σ) : Prop where
  room : s.ring.isFull = false
  claim : s.step .claim =
    { s with
      ring := s.ring.advanceTail
      taken := s.taken + 1
      building := s.taken :: s.building }
  call : make own s.ring.advanceTail = (made, own', (s.inside moves).ring)
  building : s.taken ∈ (s.inside moves).building

/-- A push is let in unless the ring says that it is full. -/
theorem Sound.admitPush_eq (h : s.Sound) : s.ring.admitPush =
    if s.ring.isFull = true then .refused else .granted (UInt64.ofNat s.taken) := by
  obtain ⟨c, hc⟩ := h
  rw [hc.represents.admitPush_eq, hc.represents.isFull_eq, hc.next]
  simp only [decide_eq_true_eq]

section make

variable {make : σ → Ring n α → Option α × σ × Ring n α} {own own' : σ} {moves : List (Move α)}

theorem Sound.emplace_of_isFull (h : s.Sound) (hfull : s.ring.isFull = true) :
    s.ring.emplace make own = (.full, own, s.ring) := by
  rw [Ring.emplace, h.admitPush_eq, if_pos hfull]

theorem Sound.exists_makes (h : s.Sound) (hmake : Calls make) (own : σ)
    (hroom : s.ring.isFull = false) : ∃ moves made own', Makes make s own moves made own' := by
  have hanswer : s.ring.admitPush = .granted (UInt64.ofNat s.taken) := by
    rw [h.admitPush_eq, if_neg (ne_true_of_eq_false hroom)]
  have hclaim : s.step .claim =
      { s with
        ring := s.ring.advanceTail
        taken := s.taken + 1
        building := s.taken :: s.building } := by
    simp only [Course.step, hanswer]
  have hown : s.taken ∈ (s.step .claim).building := by
    rw [hclaim]
    exact .head _
  obtain ⟨_, ⟨moves, rfl, hkeeps⟩, hring, -⟩ := hmake (s.step .claim) own (h.step .claim)
  rw [hclaim] at hring
  have hcall : make own s.ring.advanceTail =
      ((make own s.ring.advanceTail).1, (make own s.ring.advanceTail).2.1,
        (s.inside moves).ring) := by
    rw [inside, hclaim, hring]
  exact ⟨moves, _, _, hroom, hclaim, hcall, hkeeps _ hown⟩

/-- The element that was made is stored at the position that was taken. -/
theorem Makes.emplace_of_some (hs : s.Sound) {v : α} (h : Makes make s own moves (some v) own') :
    s.ring.emplace make own =
      (.pushed, own', ((s.inside moves).step (.fill s.taken v)).ring) := by
  rw [Ring.emplace, hs.admitPush_eq, if_neg (ne_true_of_eq_false h.room)]
  simp only [h.call, step, if_pos h.building]

/-- The ring is left as it was when making the element failed. -/
theorem Makes.emplace_of_none (hs : s.Sound) (h : Makes make s own moves none own') :
    s.ring.emplace make own =
      (.failed, own', ((s.inside moves).step (.abandon s.taken)).ring) := by
  rw [Ring.emplace, hs.admitPush_eq, if_neg (ne_true_of_eq_false h.room)]
  simp only [h.call, step, if_pos h.building]

end make

/-! ## The turns of a batch -/

/-- An item that was appended: where its turn began, what the caller's code did to the ring
while it made the copy, and the copy. -/
structure Appended (n : SlotCount) (ι α : Type) where
  item : ι
  start : Course n α
  moves : List (Move α)
  value : α

namespace Appended

variable (a : Appended n ι α)

/-- The position that was taken for the copy. -/
def pos : Nat := a.start.taken

/-- Where the turn ended. -/
def finish : Course n α := (a.start.inside a.moves).step (.fill a.pos a.value)

/-- The moves of the turn. -/
def turn : List (Move α) := .claim :: a.moves ++ [.fill a.pos a.value]

/-- What the caller's code was asked for: the item, and the ring that it found. -/
def call : ι × Ring n α := (a.item, a.start.ring.advanceTail)

theorem after_turn : a.start.after a.turn = a.finish :=
  a.start.after_append (.claim :: a.moves) [.fill a.pos a.value]

end Appended

variable {copy : ι → σ → Ring n α → Option α × σ × Ring n α}

/-- The turns in which items were appended, one after another, and where they lead. -/
inductive Appends (copy : ι → σ → Ring n α → Option α × σ × Ring n α) :
    σ → Course n α → List (Appended n ι α) → σ → Course n α → Prop where
  | nil (own : σ) (s : Course n α) : Appends copy own s [] own s
  | cons {a : Appended n ι α} {own own' own'' : σ} {done : List (Appended n ι α)}
      {s : Course n α} (makes : Makes (copy a.item) a.start own a.moves (some a.value) own')
      (rest : Appends copy own' a.finish done own'' s) :
      Appends copy own a.start (a :: done) own'' s

/-- How a batch ends that has appended `count` items and has these ones left: what it answers,
which copies it still asked for, and where it leaves the caller's state and the ring. -/
inductive Ends (copy : ι → σ → Ring n α → Option α × σ × Ring n α) (count : Nat) (own : σ)
    (s : Course n α) :
    List ι → Ring.BatchOutcome → List (ι × Ring n α) → σ → Course n α → Prop where
  /-- no items are left -/
  | finished : Ends copy count own s [] (.pushed count) [] own s
  /-- the ring is full -/
  | full {item : ι} {items : List ι} (full : s.ring.isFull = true) :
      Ends copy count own s (item :: items) (.pushed count) [] own s
  /-- making a copy fails, and its position is abandoned -/
  | failed {item : ι} {items : List ι} {own' : σ} {moves : List (Move α)}
      (makes : Makes (copy item) s own moves none own') :
      Ends copy count own s (item :: items) .failed [(item, s.ring.advanceTail)] own'
        ((s.inside moves).step (.abandon s.taken))

namespace Appends

variable {own own' : σ} {s' : Course n α} {done : List (Appended n ι α)}

/-- The turns are all that happened to the ring. -/
theorem after_turns (h : Appends copy own s done own' s') :
    s.after (done.flatMap Appended.turn) = s' := by
  induction h with
  | nil => rfl
  | cons makes rest ih => rw [List.flatMap_cons, after_append, Appended.after_turn, ih]

theorem sound (h : Appends copy own s done own' s') (hs : s.Sound) : s'.Sound := by
  rw [← h.after_turns]
  exact hs.after _

/-- Every copy was stored at its position. -/
theorem mem_filled (h : Appends copy own s done own' s') {a : Appended n ι α} (ha : a ∈ done) :
    (a.pos, a.value) ∈ s'.filled := by
  induction h with
  | nil => cases ha
  | @cons b _ _ _ _ _ makes rest ih =>
      rcases List.mem_cons.mp ha with rfl | hmem
      · have hfilled : (a.pos, a.value) ∈ a.finish.filled := by
          have hown : a.pos ∈ (a.start.inside a.moves).building := makes.building
          simp only [Appended.finish, step, if_pos hown]
          exact List.mem_append_right _ (.head _)
        rw [← rest.after_turns]
        exact mem_filled_after hfilled _
      · exact ih hmem

/-- Positions are taken from where the tail was. -/
theorem taken_le_pos (h : Appends copy own s done own' s') :
    ∀ p ∈ done.map Appended.pos ++ [s'.taken], s.taken ≤ p := by
  induction h with
  | nil =>
      intro p hp
      rw [List.map_nil, List.nil_append, List.mem_singleton] at hp
      exact hp.ge
  | @cons a _ _ _ _ _ makes rest ih =>
      intro p hp
      rcases List.mem_cons.mp hp with rfl | hmem
      · exact Nat.le_refl _
      · have hle : a.start.taken ≤ a.finish.taken := by
          rw [← a.after_turn]
          exact a.start.taken_le_after _
        exact hle.trans (ih p hmem)

/-- The positions increase, and the next one lies behind them all. -/
theorem pairwise_pos (h : Appends copy own s done own' s') :
    (done.map Appended.pos ++ [s'.taken]).Pairwise (· < ·) := by
  induction h with
  | nil => exact List.pairwise_singleton _ _
  | @cons a _ _ _ _ _ makes rest ih =>
      refine List.Pairwise.cons (fun p hp => ?_) ih
      have htaken : (a.start.step .claim).taken = a.pos + 1 := by rw [makes.claim]; rfl
      have hfinish : (a.start.step .claim).taken ≤ a.finish.taken :=
        ((a.start.step .claim).taken_le_after a.moves).trans (taken_le_step _ _)
      exact (htaken ▸ hfinish).trans (rest.taken_le_pos p hp)

end Appends

namespace Ends

variable {count : Nat} {own own' : σ} {s' : Course n α} {left : List ι}
  {outcome : Ring.BatchOutcome} {last : List (ι × Ring n α)}

theorem exists_moves (h : Ends copy count own s left outcome last own' s') :
    ∃ moves, s.after moves = s' := by
  cases h with
  | finished | full => exact ⟨[], rfl⟩
  | @failed item items _ moves makes =>
      exact ⟨.claim :: moves ++ [.abandon s.taken],
        s.after_append (.claim :: moves) [.abandon s.taken]⟩

theorem mem_abandoned (h : Ends copy count own s left .failed last own' s') :
    s.taken ∈ s'.abandoned := by
  cases h with
  | failed makes =>
      simp only [step, if_pos makes.building]
      exact List.mem_append_right _ (.head _)

end Ends

/-- The same code, which keeps a note of every call beside its own state. -/
def noting (copy : ι → σ → Ring n α → Option α × σ × Ring n α) (item : ι)
    (noted : List (ι × Ring n α) × σ) (r : Ring n α) :
    Option α × (List (ι × Ring n α) × σ) × Ring n α :=
  let (made, own, r') := copy item noted.2 r
  (made, (noted.1 ++ [(item, r)], own), r')

/-- What comes of a batch of `items`, when `count` were appended before them: those in `done`
are appended, and those in `left` are not. -/
structure Batch (copy : ι → σ → Ring n α → Option α × σ × Ring n α) (count : Nat)
    (items : List ι) (own : σ) (s : Course n α) where
  done : List (Appended n ι α)
  left : List ι
  items_eq : done.map Appended.item ++ left = items
  /-- the caller's state when no more items are appended, -/
  reachedOwn : σ
  /-- and the ring -/
  reached : Course n α
  appends : Appends copy own s done reachedOwn reached
  outcome : Ring.BatchOutcome
  last : List (ι × Ring n α)
  finalOwn : σ
  final : Course n α
  ends : Ends copy (count + done.length) reachedOwn reached left outcome last finalOwn final

namespace Batch

variable {count : Nat} {items : List ι} {own own' : σ}

/-- The copies that were asked for. -/
def calls (b : Batch copy count items own s) : List (ι × Ring n α) :=
  b.done.map Appended.call ++ b.last

/-- A batch that appends no item. -/
def ended {outcome : Ring.BatchOutcome} {last : List (ι × Ring n α)} {s' : Course n α}
    (h : Ends copy count own s items outcome last own' s') : Batch copy count items own s :=
  ⟨[], items, rfl, own, s, .nil own s, outcome, last, own', s', h⟩

/-- A batch that appends its first item, and goes on. -/
def cons {a : Appended n ι α} (makes : Makes (copy a.item) a.start own a.moves (some a.value) own')
    (b : Batch copy (count + 1) items own' a.finish) :
    Batch copy count (a.item :: items) own a.start where
  done := a :: b.done
  left := b.left
  items_eq := congrArg (a.item :: ·) b.items_eq
  reachedOwn := b.reachedOwn
  reached := b.reached
  appends := .cons makes b.appends
  outcome := b.outcome
  last := b.last
  finalOwn := b.finalOwn
  final := b.final
  ends := by
    have hends := b.ends
    rwa [Nat.add_right_comm] at hends

end Batch

/-! ### Notes -/

theorem Makes.noting {item : ι} {own own' : σ} {moves : List (Move α)} {made : Option α}
    (h : Makes (copy item) s own moves made own') (notes : List (ι × Ring n α)) :
    Makes (Course.noting copy item) s (notes, own) moves made
      (notes ++ [(item, s.ring.advanceTail)], own') where
  room := h.room
  claim := h.claim
  call := by
    unfold Course.noting
    simp only [h.call]
  building := h.building

/-- Taking notes changes nothing else. -/
theorem pushCopies_noting (items : List ι) (count : Nat) (notes : List (ι × Ring n α)) (own : σ)
    (r : Ring n α) :
    r.pushCopies copy items count own =
      ((r.pushCopies (noting copy) items count (notes, own)).1,
        (r.pushCopies (noting copy) items count (notes, own)).2.1.2,
        (r.pushCopies (noting copy) items count (notes, own)).2.2) := by
  induction items generalizing count notes own r with
  | nil => rfl
  | cons item items ih =>
      unfold Ring.pushCopies Ring.emplace
      cases r.admitPush with
      | refused | spinning => rfl
      | granted pos =>
          simp only [noting]
          rcases copy item own r.advanceTail with ⟨_ | v, own', r'⟩
          · rfl
          · exact ih _ _ _ _

/-! ### The whole batch -/

/-- What comes of a batch, when the caller's code uses the ring through calls. -/
theorem Sound.exists_batch (hcopy : ∀ item, Calls (copy item)) (items : List ι) (h : s.Sound)
    (count : Nat) (notes : List (ι × Ring n α)) (own : σ) :
    ∃ b : Batch copy count items own s,
      s.ring.pushCopies (noting copy) items count (notes, own) =
        (b.outcome, (notes ++ b.calls, b.finalOwn), b.final.ring) := by
  induction items generalizing s count notes own with
  | nil =>
      refine ⟨.ended .finished, ?_⟩
      show _ = (Ring.BatchOutcome.pushed count, (notes ++ [], own), s.ring)
      rw [List.append_nil]
      rfl
  | cons item items ih =>
      unfold Ring.pushCopies
      cases hfull : s.ring.isFull with
      | true =>
          refine ⟨.ended (.full hfull), ?_⟩
          show _ = (Ring.BatchOutcome.pushed count, (notes ++ [], own), s.ring)
          rw [h.emplace_of_isFull hfull, List.append_nil]
      | false =>
          obtain ⟨moves, made, own', hmakes⟩ := h.exists_makes (hcopy item) own hfull
          have hnoted := hmakes.noting notes
          cases made with
          | none =>
              refine ⟨.ended (.failed hmakes), ?_⟩
              rw [hnoted.emplace_of_none h]
              rfl
          | some v =>
              let a : Appended n ι α := ⟨item, s, moves, v⟩
              have hfinish : a.finish.Sound := ((h.step .claim).after moves).step _
              obtain ⟨b, hb⟩ := ih hfinish (count + 1) (notes ++ [a.call]) own'
              refine ⟨.cons hmakes b, ?_⟩
              rw [hnoted.emplace_of_some h]
              rw [List.append_assoc] at hb
              exact hb

/-- What a batch leaves in the ring, wherever that comes to later: the copies are queued, and
the position of a copy that failed is not published. -/
structure Batch.Leaves {count : Nat} {items : List ι} {own : σ} (b : Batch copy count items own s)
    (s' : Course n α) : Prop where
  queued : ∀ a ∈ b.done, s'.Queued a.pos a.value
  unpublished : b.outcome = .failed → s'.Unpublished b.reached.taken

theorem Batch.leaves_after {count : Nat} {items : List ι} {own : σ}
    (b : Batch copy count items own s) (hs : s.Sound) (later : List (Move α)) :
    b.Leaves (b.final.after later) := by
  obtain ⟨moves, hmoves⟩ := b.ends.exists_moves
  have hreached := b.appends.sound hs
  have hfinal : b.final.Sound := by
    rw [← hmoves]
    exact hreached.after moves
  constructor
  case queued =>
    intro a ha
    have hfilled : (a.pos, a.value) ∈ b.final.filled := by
      rw [← hmoves]
      exact mem_filled_after (b.appends.mem_filled ha) moves
    exact (hfinal.after later).queued (mem_filled_after hfilled later)
  case unpublished =>
    intro hfailed
    have hends := b.ends
    rw [hfailed] at hends
    exact (hfinal.after later).unpublished (mem_abandoned_after hends.mem_abandoned later)

/-- **A batch copies only what it has taken a position for.**  On any ring that calls can bring
about, in the middle of others or not, and whatever calls the code that makes the copies goes
through or how it fails, a batch takes its turns in order and ends as `Batch` says; it asks for
the copies of its turns and no others, each when its position was taken, and does nothing else
to the ring.  Its copies are queued at positions that increase, and stay so, whatever moves
follow.  Calls are all that the copies of a session go through, however deep they are nested. -/
theorem pushCopies_in_turn (blank : α) (before : List (Move α))
    (hcopy : ∀ item, Calls (copy item)) (items : List ι) (own : σ) :
    (∃ b : Batch copy 0 items own (run n blank before),
      (run n blank before).ring.pushCopies copy items 0 own =
          (b.outcome, b.finalOwn, b.final.ring) ∧
        (run n blank before).ring.pushCopies (noting copy) items 0 ([], own) =
          (b.outcome, (b.calls, b.finalOwn), b.final.ring) ∧
        (run n blank before).after (b.done.flatMap Appended.turn) = b.reached ∧
        (b.done.map Appended.pos ++ [b.reached.taken]).Pairwise (· < ·) ∧
        ∀ later, b.Leaves (b.final.after later)) ∧
      ∀ (watched : Bool) (fuel : Nat) (item : Copy α),
        Calls (makeCopy watched (runCommand watched fuel : Runner n α) item) := by
  constructor
  · have hs := run_sound n blank before
    obtain ⟨b, hb⟩ := hs.exists_batch hcopy items 0 [] own
    have hresult : (run n blank before).ring.pushCopies copy items 0 own = _ :=
      pushCopies_noting items 0 [] own _
    rw [hb] at hresult
    exact ⟨b, hresult, hb, b.appends.after_turns, b.appends.pairwise_pos, b.leaves_after hs⟩
  · intro watched fuel item
    exact (runCommand_runs watched fuel).makeCopy watched item

/-- Making the first copy pops an element, so that there is room for the second one.  Making
that one pops and pushes too, and then fails. -/
def failingBatch : List (Copy Nat) :=
  [.mk 1 [.pop] false, .mk 2 [.pop, .push 8] true, .mk 3 [] false]

/-- The ring has two slots, and holds one element when the batch begins.  The third item is not
copied. -/
theorem failingBatch_in_turn :
    (∀ item, Calls (makeCopy true (runCommand true 1 : Runner ⟨1, by decide, by decide⟩ Nat) item)) ∧
      ∃ b : Batch (makeCopy true (runCommand true 1)) 0 failingBatch []
          (run ⟨1, by decide, by decide⟩ 0 [.claim, .fill 0 7]),
        b.outcome = .failed ∧ b.calls.length = 2 ∧
          ∀ later, (b.final.after later).Unpublished b.reached.taken := by
  have hcopy : ∀ item,
      Calls (makeCopy true (runCommand true 1 : Runner ⟨1, by decide, by decide⟩ Nat) item) :=
    fun item => (runCommand_runs true 1).makeCopy true item
  obtain ⟨⟨b, hresult, hnoted, -, -, hleaves⟩, -⟩ :=
    pushCopies_in_turn 0 [.claim, .fill 0 7] hcopy failingBatch []
  have houtcome : b.outcome = .failed :=
    (congrArg Prod.fst hresult).symm.trans (by decide +kernel)
  have hcalls : b.calls.length = 2 :=
    (congrArg (fun answer => answer.2.1.1.length) hnoted).symm.trans (by decide +kernel)
  exact ⟨hcopy, b, houtcome, hcalls, fun later => (hleaves later).unpublished houtcome⟩

end Course

end LockFreeRings.Mpmc
