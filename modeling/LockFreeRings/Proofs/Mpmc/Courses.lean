import LockFreeRings.Proofs.Mpmc.Nesting
set_option autoImplicit false

/-!
# Courses of a ring

What a call does to a ring comes in up to three moves.  A push takes a position, its caller's
code builds the element, and then the element is stored and published, or building it has
failed and the position is abandoned; while the element is built anything may happen to the
ring.  A pop is one move.  So whatever calls are made, one inside another or one after
another, the ring goes through a list of moves, and `Course.run` is where it comes to.

Beside the ring a course keeps books that no move on the ring reads: the positions whose
elements are being built, those that were abandoned, the elements that were filled in with
their positions, and those that were popped, in order.  `Course.Sound` ties them to the cells
of the ring, and every move keeps it.
-/

namespace LockFreeRings.Mpmc

variable {n : SlotCount} {α : Type}

/-! ## Cells by number -/

namespace Cells

variable {c : Cells α} {number : Nat} {cell : Cell α}

/-- The cell with a number is there, and is this one. -/
def At (c : Cells α) (number : Nat) (cell : Cell α) : Prop :=
  c.first ≤ number ∧ c.cells[number - c.first]? = some cell

theorem At.lt_nextNumber (h : c.At number cell) : number < c.nextNumber := by
  obtain ⟨hle, hget⟩ := h
  obtain ⟨hlt, -⟩ := List.getElem?_eq_some_iff.mp hget
  unfold nextNumber
  omega

/-- A cell is one thing only. -/
theorem At.eq {cell' : Cell α} (h : c.At number cell) (h' : c.At number cell') : cell = cell' :=
  Option.some.inj (h.2.symm.trans h'.2)

theorem at_append : c.append.At number cell ↔
    c.At number cell ∨ (number = c.nextNumber ∧ cell = .pending) := by
  unfold At nextNumber append
  simp only [List.getElem?_append]
  by_cases hle : c.first ≤ number
  · by_cases hlt : number - c.first < c.cells.length
    · rw [if_pos hlt]
      have hne : number ≠ c.first + c.cells.length := by omega
      simp [hle, hne]
    · have hnone : c.cells[number - c.first]? = none := List.getElem?_eq_none (by omega)
      rw [if_neg hlt, hnone]
      by_cases heq : number = c.first + c.cells.length
      · simp [heq, eq_comm]
      · have hpos : [Cell.pending (α := α)][number - c.first - c.cells.length]? = none :=
          List.getElem?_eq_none (by rw [List.length_singleton]; omega)
        simp [heq, hpos]
  · have hne : number ≠ c.first + c.cells.length := by omega
    simp [hle, hne]

theorem at_settle {other : Nat} (hp : c.Pending other) (settled : Cell α) :
    (c.settle other settled).At number cell ↔
      if number = other then cell = settled else c.At number cell := by
  obtain ⟨hle, hget⟩ := hp
  obtain ⟨hlt, -⟩ := List.getElem?_eq_some_iff.mp hget
  show c.first ≤ number ∧ (c.cells.set (other - c.first) settled)[number - c.first]? = some cell ↔ _
  split
  · next heq =>
    rw [heq, List.getElem?_set_self hlt]
    simp [hle, eq_comm]
  · next hne =>
    by_cases hge : c.first ≤ number
    · rw [List.getElem?_set_ne (by omega)]
      rfl
    · simp [hge, At]

theorem at_removed {v : α} {cells : List (Cell α)} (hc : c.cells = .ready v :: cells) :
    (⟨c.first + 1, cells⟩ : Cells α).At number cell ↔
      c.first < number ∧ c.At number cell := by
  show c.first + 1 ≤ number ∧ cells[number - (c.first + 1)]? = some cell ↔ _
  unfold At
  rw [hc]
  constructor
  · rintro ⟨hle, hget⟩
    refine ⟨hle, by omega, ?_⟩
    rwa [show number - c.first = number - (c.first + 1) + 1 by omega, List.getElem?_cons_succ]
  · rintro ⟨hlt, -, hget⟩
    refine ⟨hlt, ?_⟩
    rwa [show number - c.first = number - (c.first + 1) + 1 by omega,
      List.getElem?_cons_succ] at hget

end Cells

/-! ## Moves -/

/-- What may happen to a ring. -/
inductive Move (α : Type) where
  /-- a push takes the next position, if there is room -/
  | claim
  /-- the element of a position is built, stored and published -/
  | fill (pos : Nat) (v : α)
  /-- building the element of a position fails -/
  | abandon (pos : Nat)
  /-- a pop takes out the oldest element, if it is there -/
  | pop

/-- A ring, and the books of what has happened to it. -/
structure Course (n : SlotCount) (α : Type) where
  ring : Ring n α
  /-- how many positions were taken -/
  taken : Nat := 0
  /-- the positions whose elements are being built -/
  building : List Nat := []
  /-- the positions whose elements could not be built -/
  abandoned : List Nat := []
  /-- the elements that were filled in, with their positions -/
  filled : List (Nat × α) := []
  /-- the elements that were popped: the first is that of position 0 -/
  popped : List α := []

namespace Course

/-- A new ring, to which nothing has happened. -/
def start (n : SlotCount) (blank : α) : Course n α where
  ring := .new n blank

/-- What a move does; where it does not fit, nothing happens. -/
def step (s : Course n α) : Move α → Course n α
  | .claim =>
    match s.ring.admitPush with
    | .granted _ =>
      { s with
        ring := s.ring.advanceTail
        taken := s.taken + 1
        building := s.taken :: s.building }
    | _ => s
  | .fill pos v =>
    if pos ∈ s.building then
      { s with
        ring := (s.ring.store (UInt64.ofNat pos) v).publish (UInt64.ofNat pos)
        building := s.building.filter (· ≠ pos)
        filled := s.filled ++ [(pos, v)] }
    else s
  | .abandon pos =>
    if pos ∈ s.building then
      { s with
        building := s.building.filter (· ≠ pos)
        abandoned := s.abandoned ++ [pos] }
    else s
  | .pop =>
    match s.ring.pop with
    | (.popped v, r) => { s with ring := r, popped := s.popped ++ [v] }
    | _ => s

/-- Where the moves of a list lead. -/
def after (s : Course n α) (moves : List (Move α)) : Course n α := moves.foldl step s

/-- Where a new ring comes to. -/
def run (n : SlotCount) (blank : α) (moves : List (Move α)) : Course n α :=
  (start n blank).after moves

/-! ## Books -/

variable {s : Course n α}

/-- The books of a course are those of the cells of its ring. -/
structure Books (s : Course n α) (c : Cells α) : Prop where
  represents : s.ring.Represents c
  first : c.first = s.popped.length
  next : c.nextNumber = s.taken
  building : ∀ pos, c.At pos .pending ↔ pos ∈ s.building
  abandoned : ∀ pos, c.At pos .dead ↔ pos ∈ s.abandoned
  filled : ∀ pos v, c.At pos (.ready v) ↔ (pos, v) ∈ s.filled ∧ s.popped.length ≤ pos
  popped : ∀ i v, s.popped[i]? = some v ↔ (i, v) ∈ s.filled ∧ i < s.popped.length
  filled_lt : ∀ pos v, (pos, v) ∈ s.filled → pos < s.taken

/-- The books are right. -/
def Sound (s : Course n α) : Prop := ∃ c, s.Books c

theorem Sound.start (n : SlotCount) (blank : α) : (start n blank).Sound := by
  refine ⟨{}, ?_⟩
  constructor <;> simp [Course.start, Cells.At, Cells.nextNumber, Ring.Represents.new]

namespace Books

variable {c : Cells α}

/-- A push takes the next position. -/
theorem claim (h : s.Books c) (hroom : c.cells.length ≠ n.size) :
    ({ s with
        ring := s.ring.advanceTail
        taken := s.taken + 1
        building := s.taken :: s.building } : Course n α).Books c.append where
  represents := h.represents.advanceTail hroom
  first := h.first
  next := by rw [Cells.nextNumber_append, h.next]
  building pos := by
    rw [Cells.at_append, h.building, h.next, List.mem_cons]
    simp [or_comm]
  abandoned pos := by
    rw [Cells.at_append, h.abandoned]
    simp
  filled pos v := by
    rw [Cells.at_append, h.filled]
    simp
  popped := h.popped
  filled_lt pos v hv := (h.filled_lt pos v hv).trans (Nat.lt_succ_self _)

/-- A position whose cell is settled is no longer being built, and the others are as
before. -/
theorem building_settle (h : s.Books c) {pos : Nat} (hp : c.At pos .pending) {cell : Cell α}
    (hcell : cell ≠ .pending) (q : Nat) :
    (c.settle pos cell).At q .pending ↔ q ∈ s.building.filter (· ≠ pos) := by
  rw [Cells.at_settle hp, List.mem_filter, ← h.building]
  split
  · next heq => simp [heq, hcell.symm]
  · next hne => simp [hne]

/-- The element of a position is filled in. -/
theorem fill (h : s.Books c) {pos : Nat} (hpos : pos ∈ s.building) (v : α) :
    ({ s with
        ring := (s.ring.store (UInt64.ofNat pos) v).publish (UInt64.ofNat pos)
        building := s.building.filter (· ≠ pos)
        filled := s.filled ++ [(pos, v)] } : Course n α).Books (c.settle pos (.ready v)) := by
  have hp : c.At pos .pending := (h.building pos).mpr hpos
  constructor
  case represents => exact h.represents.fill hp v
  case first => exact h.first
  case next => rw [Cells.nextNumber_settle, h.next]
  case building => exact h.building_settle hp (by simp)
  case abandoned =>
    intro q
    rw [Cells.at_settle hp, ← h.abandoned]
    split
    · next heq =>
      subst heq
      constructor
      · intro hdead
        cases hdead
      · intro hdead
        cases hp.eq hdead
    · rfl
  case filled =>
    intro q w
    have hle : s.popped.length ≤ pos := h.first ▸ hp.1
    rw [Cells.at_settle hp, List.mem_append, List.mem_singleton, or_and_right, ← h.filled]
    split
    · next heq =>
      subst heq
      constructor
      · intro hw
        cases hw
        exact .inr ⟨rfl, hle⟩
      · rintro (hw | ⟨hw, -⟩)
        · cases hp.eq hw
        · cases hw
          rfl
    · next hne => simp [hne]
  case popped =>
    intro i w
    have hle : s.popped.length ≤ pos := h.first ▸ hp.1
    rw [List.mem_append, List.mem_singleton, or_and_right, h.popped]
    refine ⟨.inl, fun hw => hw.resolve_right ?_⟩
    rintro ⟨hw, hlt⟩
    cases hw
    exact absurd hle (Nat.not_le.mpr hlt)
  case filled_lt =>
    intro q w hw
    rcases List.mem_append.mp hw with hw | hw
    · exact h.filled_lt q w hw
    · cases List.mem_singleton.mp hw
      exact h.next ▸ hp.lt_nextNumber

/-- Building the element of a position fails. -/
theorem abandon (h : s.Books c) {pos : Nat} (hpos : pos ∈ s.building) :
    ({ s with
        building := s.building.filter (· ≠ pos)
        abandoned := s.abandoned ++ [pos] } : Course n α).Books (c.settle pos .dead) := by
  have hp : c.At pos .pending := (h.building pos).mpr hpos
  constructor
  case represents => exact h.represents.abandon hp
  case first => exact h.first
  case next => rw [Cells.nextNumber_settle, h.next]
  case building => exact h.building_settle hp (by simp)
  case abandoned =>
    intro q
    rw [Cells.at_settle hp, List.mem_append, List.mem_singleton, ← h.abandoned]
    split <;> simp_all
  case filled =>
    intro q w
    rw [Cells.at_settle hp, ← h.filled]
    split
    · next heq =>
      subst heq
      constructor
      · intro hw
        cases hw
      · intro hw
        cases hp.eq hw
    · rfl
  case popped => exact h.popped
  case filled_lt => exact h.filled_lt

/-- A pop takes out the oldest element. -/
theorem pop (h : s.Books c) {v : α} {cells : List (Cell α)} (hc : c.cells = .ready v :: cells)
    {r : Ring n α} (hr : r.Represents ⟨c.first + 1, cells⟩) :
    ({ s with ring := r, popped := s.popped ++ [v] } : Course n α).Books
      ⟨c.first + 1, cells⟩ := by
  have hfront : c.At c.first (.ready v) := ⟨Nat.le_refl _, by rw [Nat.sub_self, hc]; rfl⟩
  have hlen : (s.popped ++ [v]).length = s.popped.length + 1 := by
    rw [List.length_append, List.length_singleton]
  have hother : ∀ {q : Nat} {cell : Cell α}, cell ≠ .ready v → c.At q cell → c.first < q := by
    intro q cell hne hq
    refine Nat.lt_of_le_of_ne hq.1 ?_
    rintro rfl
    exact hne (hq.eq hfront)
  constructor
  case represents => exact hr
  case first => rw [hlen, ← h.first]
  case next =>
    rw [← h.next, Cells.nextNumber, Cells.nextNumber, hc, List.length_cons]
    simp only
    omega
  case building =>
    intro q
    rw [Cells.at_removed hc, ← h.building]
    exact ⟨And.right, fun hq => ⟨hother (by simp) hq, hq⟩⟩
  case abandoned =>
    intro q
    rw [Cells.at_removed hc, ← h.abandoned]
    exact ⟨And.right, fun hq => ⟨hother (by simp) hq, hq⟩⟩
  case filled =>
    intro q w
    rw [Cells.at_removed hc, h.filled, h.first]
    show _ ↔ (q, w) ∈ s.filled ∧ (s.popped ++ [v]).length ≤ q
    rw [hlen]
    exact ⟨fun hw => ⟨hw.2.1, hw.1⟩, fun hw => ⟨hw.2, hw.1, Nat.le_of_succ_le hw.2⟩⟩
  case popped =>
    intro i w
    show (s.popped ++ [v])[i]? = some w ↔ (i, w) ∈ s.filled ∧ i < (s.popped ++ [v]).length
    rw [hlen]
    rcases Nat.lt_trichotomy i s.popped.length with hlt | rfl | hgt
    · rw [List.getElem?_append_left hlt, h.popped]
      exact and_congr_right fun _ => ⟨Nat.lt_succ_of_lt, fun _ => hlt⟩
    · rw [List.getElem?_concat_length, ← h.first, Option.some_inj]
      constructor
      · rintro rfl
        exact ⟨((h.filled _ _).mp hfront).1, Nat.lt_succ_self _⟩
      · rintro ⟨hw, -⟩
        have hw' := (h.filled _ _).mpr ⟨hw, h.first.ge⟩
        exact Cell.ready.inj (hfront.eq hw')
    · rw [List.getElem?_eq_none (by rw [hlen]; exact hgt)]
      exact ⟨fun hw => (Option.some_ne_none _ hw.symm).elim,
        fun hw => absurd hw.2 (Nat.not_lt.mpr hgt)⟩
  case filled_lt => exact h.filled_lt

end Books

/-- Every move keeps the books right. -/
theorem Sound.step (h : s.Sound) (move : Move α) : (s.step move).Sound := by
  obtain ⟨c, hc⟩ := h
  cases move with
  | claim =>
      have hanswer := hc.represents.admitPush_eq
      by_cases hfull : c.cells.length = n.size
      · rw [if_pos hfull] at hanswer
        simp only [Course.step, hanswer]
        exact ⟨c, hc⟩
      · rw [if_neg hfull] at hanswer
        simp only [Course.step, hanswer]
        exact ⟨c.append, hc.claim hfull⟩
  | fill pos v =>
      by_cases hpos : pos ∈ s.building
      · simp only [Course.step, if_pos hpos]
        exact ⟨_, hc.fill hpos v⟩
      · simp only [Course.step, if_neg hpos]
        exact ⟨c, hc⟩
  | abandon pos =>
      by_cases hpos : pos ∈ s.building
      · simp only [Course.step, if_pos hpos]
        exact ⟨_, hc.abandon hpos⟩
      · simp only [Course.step, if_neg hpos]
        exact ⟨c, hc⟩
  | pop =>
      obtain ⟨houtcome, hring⟩ := hc.represents.pop_eq
      rcases hpop : s.ring.pop with ⟨outcome, r⟩
      rw [hpop] at houtcome hring
      simp only [Course.step, hpop]
      rcases hcells : c.cells with _ | ⟨cell, cells⟩
      · simp only [Cells.pop, hcells] at houtcome
        rw [houtcome]
        exact ⟨c, hc⟩
      · cases cell with
        | pending | dead =>
            simp only [Cells.pop, hcells] at houtcome
            rw [houtcome]
            exact ⟨c, hc⟩
        | ready v =>
            simp only [Cells.pop, hcells] at houtcome hring
            rw [houtcome]
            exact ⟨_, hc.pop hcells hring⟩

theorem Sound.after (h : s.Sound) (moves : List (Move α)) : (s.after moves).Sound := by
  induction moves generalizing s with
  | nil => exact h
  | cons move moves ih => exact ih (h.step move)

theorem run_sound (n : SlotCount) (blank : α) (moves : List (Move α)) :
    (run n blank moves).Sound :=
  (Sound.start n blank).after moves

/-! ## What the books say of the ring -/

theorem Sound.building_lt (h : s.Sound) {pos : Nat} (hpos : pos ∈ s.building) :
    pos < s.taken := by
  obtain ⟨c, hc⟩ := h
  exact hc.next ▸ ((hc.building pos).mpr hpos).lt_nextNumber

/-- A push that is let in gets the position that the books take next. -/
theorem Sound.eq_of_granted (h : s.Sound) {pos : UInt64}
    (hanswer : s.ring.admitPush = .granted pos) : pos = UInt64.ofNat s.taken := by
  obtain ⟨c, hc⟩ := h
  rw [hc.represents.admitPush_eq] at hanswer
  split at hanswer
  · cases hanswer
  · rw [← hc.next]
    exact (Ring.Admission.granted.inj hanswer).symm

theorem taken_le_step (s : Course n α) (move : Move α) : s.taken ≤ (s.step move).taken := by
  unfold step
  cases move with
  | claim =>
      simp only
      split
      · exact Nat.le_succ _
      · exact Nat.le_refl _
  | fill pos v | abandon pos =>
      simp only
      split <;> exact Nat.le_refl _
  | pop =>
      simp only
      split <;> exact Nat.le_refl _

theorem taken_le_after (s : Course n α) (moves : List (Move α)) :
    s.taken ≤ (s.after moves).taken := by
  induction moves generalizing s with
  | nil => exact Nat.le_refl _
  | cons move moves ih => exact (s.taken_le_step move).trans (ih _)

theorem mem_abandoned_step {pos : Nat} (hpos : pos ∈ s.abandoned) (move : Move α) :
    pos ∈ (s.step move).abandoned := by
  unfold step
  cases move with
  | claim | pop =>
      simp only
      split <;> exact hpos
  | fill pos v =>
      simp only
      split <;> exact hpos
  | abandon pos =>
      simp only
      split
      · exact List.mem_append_left _ hpos
      · exact hpos

/-- A position that was abandoned stays abandoned. -/
theorem mem_abandoned_after {pos : Nat} (hpos : pos ∈ s.abandoned) (moves : List (Move α)) :
    pos ∈ (s.after moves).abandoned := by
  induction moves generalizing s with
  | nil => exact hpos
  | cons move moves ih => exact ih (mem_abandoned_step hpos move)

theorem after_append (s : Course n α) (moves moves' : List (Move α)) :
    s.after (moves ++ moves') = (s.after moves).after moves' :=
  List.foldl_append

end Course

end LockFreeRings.Mpmc
