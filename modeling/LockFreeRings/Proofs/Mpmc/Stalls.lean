import LockFreeRings.Proofs.Mpmc.Callers
set_option autoImplicit false

/-!
# A ring that an unbuilt element stalls

When building an element fails, the position that was taken for it is never filled.  It stands
in the ring from then on like a wall: pops take out what lies before it, in order, and nothing
behind it (`Course.Front`); pushes go on behind it until the tail is a lap ahead of it, and are
refused from then on (`Course.Refusing`); and the ring never looks empty again.

`Course.Stalled` says all this of one position.  It holds in every course whose books are right
of every position that was abandoned (`Course.Sound.stalled`), so no move can end it.
-/

namespace LockFreeRings.Mpmc

variable {n : SlotCount} {α : Type}

/-! ## What pops can take out -/

namespace Cells

/-- The elements of the cells up to the first that is not ready. -/
def readyFront : List (Cell α) → List α
  | .ready v :: cells => v :: readyFront cells
  | _ => []

theorem getElem?_readyFront (cells : List (Cell α)) (i : Nat) (v : α) :
    (readyFront cells)[i]? = some v ↔
      cells[i]? = some (.ready v) ∧ i < (readyFront cells).length := by
  induction cells generalizing i with
  | nil => simp [readyFront]
  | cons cell cells ih =>
      cases cell with
      | pending | dead => simp [readyFront]
      | ready w =>
          cases i with
          | zero => simp [readyFront]
          | succ i => simpa [readyFront] using ih i

/-- The front ends before a cell that is not ready. -/
theorem getElem?_length_readyFront (cells : List (Cell α)) (v : α) :
    cells[(readyFront cells).length]? ≠ some (.ready v) := by
  induction cells with
  | nil => simp
  | cons cell cells ih =>
      cases cell with
      | pending | dead => simp [readyFront]
      | ready w => simpa [readyFront] using ih

/-- A dead cell is not in the front. -/
theorem length_readyFront_le_of_dead {cells : List (Cell α)} {i : Nat}
    (h : cells[i]? = some .dead) : (readyFront cells).length ≤ i := by
  by_contra hlt
  have hget := List.getElem?_eq_getElem (Nat.not_le.mp hlt)
  have hready := ((getElem?_readyFront cells i _).mp hget).1
  rw [h] at hready
  cases hready

theorem fst_pop (c : Cells α) : c.pop.1 = (readyFront c.cells).head? := by
  unfold pop
  rcases c.cells with _ | ⟨_ | v | _, cells⟩ <;> rfl

theorem fst_popUpTo (limit : Nat) (c : Cells α) :
    (c.popUpTo limit).1 = (readyFront c.cells).take limit := by
  induction limit generalizing c with
  | zero => rfl
  | succ limit ih =>
      unfold popUpTo pop
      rcases hc : c.cells with _ | ⟨_ | v | _, cells⟩
      case cons.ready => exact congrArg (v :: ·) (ih ⟨c.first + 1, cells⟩)
      all_goals rfl

end Cells

namespace Ring

variable {r : Ring n α}

/-- A pop that finds nothing leaves the ring alone. -/
theorem pop_of_empty (h : r.pop.1 = .empty) : r.pop = (.empty, r) := by
  unfold pop at h ⊢
  cases hanswer : r.admitPop with
  | refused => rfl
  | granted pos | spinning =>
      rw [hanswer] at h
      cases h

theorem popUpTo_of_empty (h : r.pop.1 = .empty) (limit : Nat) : r.popUpTo limit = ([], r) := by
  cases limit with
  | zero => rfl
  | succ limit => rw [popUpTo, pop_of_empty h]

end Ring

namespace Course

variable {s : Course n α}

/-- These are the elements of the next positions to pop, up to the first that is not
filled. -/
structure Front (s : Course n α) (vs : List α) : Prop where
  filled : ∀ i v, vs[i]? = some v ↔ (s.popped.length + i, v) ∈ s.filled ∧ i < vs.length
  unfilled : ∀ v, (s.popped.length + vs.length, v) ∉ s.filled

/-- Pops take out these elements, and then find nothing. -/
structure Yields (s : Course n α) (vs : List α) : Prop where
  pop : s.ring.pop.1 =
    match vs with
    | [] => .empty
    | v :: _ => .popped v
  popBatch : ∀ limit, (s.ring.popBatch limit).1 = vs.take limit.toNat

theorem Books.front {c : Cells α} (h : s.Books c) : s.Front (Cells.readyFront c.cells) where
  filled i v := by
    have hcell : c.cells[i]? = some (.ready v) ↔ (s.popped.length + i, v) ∈ s.filled := by
      have hfilled := h.filled (s.popped.length + i) v
      rw [Cells.At, h.first, Nat.add_sub_cancel_left] at hfilled
      simpa using hfilled
    rw [Cells.getElem?_readyFront, hcell]
  unfilled v hv := by
    obtain ⟨-, hget⟩ := (h.filled _ _).mpr ⟨hv, Nat.le_add_right _ _⟩
    rw [h.first, Nat.add_sub_cancel_left] at hget
    exact Cells.getElem?_length_readyFront _ _ hget

theorem Books.yields {c : Cells α} (h : s.Books c) : s.Yields (Cells.readyFront c.cells) where
  pop := by
    rw [h.represents.pop_eq.1, Cells.fst_pop]
    cases Cells.readyFront c.cells <;> rfl
  popBatch limit := by
    rw [Ring.popBatch, (h.represents.popUpTo_eq _).1,
      c.popUpTo_min limit.toNat h.represents.length_le, Cells.fst_popUpTo]

/-- There is nothing to pop. -/
theorem Yields.of_nil (h : s.Yields []) :
    s.ring.pop = (.empty, s.ring) ∧ ∀ limit, s.ring.popBatch limit = ([], s.ring) :=
  ⟨Ring.pop_of_empty h.pop, fun _ => Ring.popUpTo_of_empty h.pop _⟩

/-! ## Pushes that are refused -/

/-- The ring is full, and whatever is pushed comes back: the element, the caller's code that
was to build it with all it owns, and the rest of a batch. -/
structure Refusing (s : Course n α) : Prop where
  isFull : s.ring.isFull = true
  emplace : ∀ {σ : Type} (make : σ → Ring n α → Option α × σ × Ring n α) (own : σ),
    s.ring.emplace make own = (.full, own, s.ring)
  pushCopies : ∀ {ι σ : Type} (copy : ι → σ → Ring n α → Option α × σ × Ring n α)
    (items : List ι) (count : Nat) (own : σ),
    s.ring.pushCopies copy items count own = (.pushed count, own, s.ring)
  replies : ∀ (watched : Bool) (run : Runner n α),
    (∀ v, runWith watched run (.push v) s.ring = ⟨.full v, [], s.ring⟩) ∧
      ∀ before result,
        runWith watched run (.emplace before result false) s.ring = ⟨.unbuilt, [], s.ring⟩

theorem Books.refusing {c : Cells α} (h : s.Books c) (hfull : c.cells.length = n.size) :
    s.Refusing where
  isFull := by rw [h.represents.isFull_eq, decide_eq_true hfull]
  emplace make own := h.represents.emplace_of_full hfull make own
  pushCopies copy items count own := by
    cases items with
    | nil => rfl
    | cons item items => rw [Ring.pushCopies, h.represents.emplace_of_full hfull]
  replies watched run := by
    constructor
    · intro v
      simp only [runWith, Ring.push, h.represents.emplace_of_full hfull]
      rfl
    · intro before result
      simp only [runWith, h.represents.emplace_of_full hfull]
      rfl

/-! ## The wall -/

/-- The position will never be filled, and this is what comes of it. -/
structure Stalled (s : Course n α) (p : Nat) : Prop where
  abandoned : p ∈ s.abandoned
  /-- what was popped are the elements of the first positions, in order -/
  popped : ∀ i v, s.popped[i]? = some v ↔ (i, v) ∈ s.filled ∧ i < s.popped.length
  /-- the words of the cursors stand for these counts -/
  cursors : s.ring.head = UInt64.ofNat s.popped.length ∧ s.ring.tail = UInt64.ofNat s.taken
  /-- pops go on with the positions that follow, and neither reach this one nor any other
  that was abandoned -/
  front : ∃ vs, s.Front vs ∧ s.Yields vs ∧
    ∀ q ∈ s.abandoned, s.popped.length + vs.length ≤ q
  /-- when all positions before it are popped, nothing more is -/
  drained : s.popped.length = p →
    s.ring.pop = (.empty, s.ring) ∧ ∀ limit, s.ring.popBatch limit = ([], s.ring)
  /-- the positions that are ever taken lie less than a lap behind it -/
  taken : p < s.taken ∧ s.taken ≤ p + n.size
  /-- once they are all taken, nothing more is pushed -/
  full : s.taken = p + n.size → ∀ moves, (s.after moves).Refusing
  isEmpty : s.ring.isEmpty = false

/-- The positions that may be taken lie less than a lap behind one that was abandoned. -/
theorem Books.taken_le {c : Cells α} (h : s.Books c) {p : Nat} (hp : p ∈ s.abandoned) :
    s.taken ≤ p + n.size := by
  have hfirst := ((h.abandoned p).mpr hp).1
  have hlength := h.represents.length_le
  rw [← h.next, Cells.nextNumber]
  omega

/-- When the tail is a lap ahead of it, all slots are in use. -/
theorem Sound.refusing (h : s.Sound) {p : Nat} (hp : p ∈ s.abandoned)
    (hfull : s.taken = p + n.size) : s.Refusing := by
  obtain ⟨c, hc⟩ := h
  refine hc.refusing ?_
  have hfirst := ((hc.abandoned p).mpr hp).1
  have hlength := hc.represents.length_le
  rw [← hc.next, Cells.nextNumber] at hfull
  omega

/-- Where the books are right, every position that was abandoned stalls the ring. -/
theorem Sound.stalled (h : s.Sound) {p : Nat} (hp : p ∈ s.abandoned) : s.Stalled p := by
  obtain ⟨c, hc⟩ := h
  have hdead : ∀ q ∈ s.abandoned,
      s.popped.length + (Cells.readyFront c.cells).length ≤ q := by
    intro q hq
    obtain ⟨hle, hget⟩ := (hc.abandoned q).mpr hq
    have := Cells.length_readyFront_le_of_dead hget
    rw [← hc.first]
    omega
  have hcell := (hc.abandoned p).mpr hp
  constructor
  case abandoned => exact hp
  case popped => exact hc.popped
  case cursors => exact ⟨hc.first ▸ hc.represents.head, hc.next ▸ hc.represents.tail⟩
  case front => exact ⟨_, hc.front, hc.yields, hdead⟩
  case drained =>
    intro hdrained
    have hnil : Cells.readyFront c.cells = [] := by
      have := hdead p hp
      exact List.eq_nil_of_length_eq_zero (by omega)
    exact (hnil ▸ hc.yields).of_nil
  case taken => exact ⟨hc.next ▸ hcell.lt_nextNumber, hc.taken_le hp⟩
  case full =>
    intro hfull moves
    have hsound : (s.after moves).Sound := Sound.after ⟨c, hc⟩ moves
    have hp' := mem_abandoned_after hp moves
    obtain ⟨c', hc'⟩ := hsound
    have hge := s.taken_le_after moves
    have hle := hc'.taken_le hp'
    exact Sound.refusing ⟨c', hc'⟩ hp' (by omega)
  case isEmpty =>
    obtain ⟨hlt, -⟩ := List.getElem?_eq_some_iff.mp hcell.2
    rw [hc.represents.isEmpty_eq]
    exact decide_eq_false (by omega)

/-- **A failure stalls the ring safely and for ever.**  Let a call on any ring that calls can
bring about, in the middle of others or not, take a position and then fail to build its
element.  It went through moves of which the last abandons that position, and whatever moves
follow, the position stalls the ring.  Moves are all that any call does, nested or not. -/
theorem failure_stalls (blank : α) (before : List (Move α)) {watched : Bool} {fuel : Nat}
    {command : Command α}
    (hfailed : Failed (runCommand watched fuel command (run n blank before).ring).reply) :
    (∃ (call : List (Move α)) (p : Nat),
      (run n blank (before ++ call ++ [.abandon p])).ring =
          (runCommand watched fuel command (run n blank before).ring).ring ∧
        (run n blank before).taken ≤ p ∧ p ∈ (run n blank (before ++ call)).building ∧
          ∀ later, (run n blank (before ++ call ++ .abandon p :: later)).Stalled p) ∧
      ∀ (moves : List (Move α)) (watched : Bool) (fuel : Nat) (command : Command α),
        (run n blank moves).Explains
          (Failed (runCommand watched fuel command (run n blank moves).ring).reply)
          (runCommand watched fuel command (run n blank moves).ring).ring := by
  have hruns : ∀ (moves : List (Move α)) (watched : Bool) (fuel : Nat) (command : Command α),
      (run n blank moves).Explains
        (Failed (runCommand watched fuel command (run n blank moves).ring).reply)
        (runCommand watched fuel command (run n blank moves).ring).ring :=
    fun moves watched fuel command =>
      runCommand_runs watched fuel command _ (run_sound n blank moves)
  refine ⟨?_, hruns⟩
  obtain ⟨s', -, hring, hforsakes⟩ := hruns before watched fuel command
  obtain ⟨call, p, rfl, hbuilding, hle⟩ := hforsakes hfailed
  have hcall : (run n blank before).after call = run n blank (before ++ call) :=
    ((start n blank).after_append before call).symm
  rw [hcall] at hbuilding hring
  have hstep : ∀ later, run n blank (before ++ call ++ .abandon p :: later) =
      ((run n blank (before ++ call)).step (.abandon p)).after later :=
    fun later => (start n blank).after_append (before ++ call) (.abandon p :: later)
  refine ⟨call, p, ?_, hle, hbuilding, fun later => ?_⟩
  · rw [hstep]
    exact hring
  · refine (run_sound n blank _).stalled ?_
    rw [hstep]
    refine mem_abandoned_after ?_ later
    simp only [step, if_pos hbuilding]
    exact List.mem_append_right _ (.head _)

/-- An element is popped and another pushed while a third is built, which then fails. -/
def failingCall : Command Nat := .emplace [.pop, .push 8] none false

/-- The ring has two slots, and holds one element when the call begins. -/
theorem failingCall_stalls :
    Failed (runCommand true 2 failingCall
        (run ⟨1, by decide, by decide⟩ 0 [.claim, .fill 0 7]).ring).reply ∧
      ∃ call p, 1 ≤ p ∧ ∀ later, (run ⟨1, by decide, by decide⟩ 0
        ([.claim, .fill 0 7] ++ call ++ .abandon p :: later)).Stalled p := by
  have hfailed : Failed (runCommand true 2 failingCall
      (run ⟨1, by decide, by decide⟩ 0 [.claim, .fill 0 7]).ring).reply := by decide +kernel
  obtain ⟨⟨call, p, -, hle, -, hstalled⟩, -⟩ := failure_stalls 0 [.claim, .fill 0 7] hfailed
  have htaken : (run ⟨1, by decide, by decide⟩ 0 [.claim, .fill 0 7]).taken = 1 := by
    decide +kernel
  exact ⟨hfailed, call, p, htaken ▸ hle, hstalled⟩

end Course

end LockFreeRings.Mpmc
