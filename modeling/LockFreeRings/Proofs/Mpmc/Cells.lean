import LockFreeRings.Mpmc.Session
set_option autoImplicit false

/-!
# A bounded queue of cells

What a queue of many producers and consumers does for one thread, said without
words, slots and sequence numbers.  A push appends a pending cell and only then
builds its element; when it is there the cell is ready, and when building it fails
the cell is dead.  A pop removes the front cell if that is ready.  A cell is known
by its number, the count of cells appended before it, since cells in front of it
may be removed while its element is built.

`Cells.exec` runs commands on such a queue, nested ones to any depth, by recursion
on the command.  `Script.onCells` is the session that `Script.run` is compared
with.
-/

namespace LockFreeRings.Mpmc

variable {α : Type}

/-- A place in the queue. -/
inductive Cell (α : Type) where
  /-- its element is being built -/
  | pending
  | ready (v : α)
  /-- building its element failed -/
  | dead

/-- The cells of a queue, the oldest first. -/
structure Cells (α : Type) where
  /-- how many cells were removed -/
  first : Nat := 0
  cells : List (Cell α) := []

namespace Cells

/-- The number of the cell that is appended next. -/
def nextNumber (c : Cells α) : Nat := c.first + c.cells.length

/-- Appends a pending cell. -/
def append (c : Cells α) : Cells α := { c with cells := c.cells ++ [.pending] }

/-- The cell with a number becomes ready, or dies. -/
def settle (c : Cells α) (number : Nat) (cell : Cell α) : Cells α :=
  { c with cells := c.cells.set (number - c.first) cell }

/-- Removes the front cell if it is ready. -/
def pop (c : Cells α) : Option α × Cells α :=
  match c.cells with
  | .ready v :: cells => (some v, ⟨c.first + 1, cells⟩)
  | _ => (none, c)

/-- Removes front cells that are ready, up to `limit`. -/
def popUpTo : Nat → Cells α → List α × Cells α
  | 0, c => ([], c)
  | limit + 1, c =>
    match c.pop with
    | (some v, c) =>
      let (vs, c) := popUpTo limit c
      (v :: vs, c)
    | (none, c) => ([], c)

/-- What a command's run leaves. -/
structure Ran (α : Type) where
  reply : Reply α
  events : List (Event α)
  cells : Cells α

/-- The report of a run on a queue of at most `bound` cells. -/
def Ran.report (bound : Nat) (ran : Ran α) : Report α :=
  .mk ran.reply ran.events (UInt64.ofNat ran.cells.cells.length)
    (ran.cells.cells.length = 0) (ran.cells.cells.length = bound)

/-- The events after nested commands ran. -/
def withReports (events : List (Event α)) : List (Report α) → List (Event α)
  | [] => events
  | report :: reports => events ++ [.ran (report :: reports)]

section exec

variable (watched : Bool) (bound : Nat)

mutual

/-- Runs a command on a queue of at most `bound` cells. -/
def exec : Command α → Cells α → Ran α
  | .capacity, c => ⟨.capacity (UInt64.ofNat bound), [], c⟩
  | .push v, c =>
    if c.cells.length = bound then ⟨.full v, [], c⟩
    else ⟨.pushed, [], c.append.settle c.nextNumber (.ready v)⟩
  | .emplace before result callBack, c =>
    if c.cells.length = bound then
      if callBack then
        let (reports, c) := execAll before c
        match result with
        | some v => ⟨.full v, withReports [.building] reports, c⟩
        | none => ⟨.fullAndFailed, withReports [.building] reports, c⟩
      else ⟨.unbuilt, [], c⟩
    else
      let (reports, after) := execAll before c.append
      match result with
      | some v => ⟨.pushed, withReports [.building] reports, after.settle c.nextNumber (.ready v)⟩
      | none => ⟨.buildFailed, withReports [.building] reports, after.settle c.nextNumber .dead⟩
  | .pushBatch copies, c => execCopies copies 0 [] c
  | .pop, c =>
    match c.pop with
    | (some v, c) => ⟨.popped v, [], c⟩
    | (none, c) => ⟨.empty, [], c⟩
  | .popBatch limit out, c =>
    let (vs, c) := c.popUpTo limit.toNat
    ⟨.poppedMany vs.length (out ++ vs), [], c⟩

/-- Runs commands in turn and reports each. -/
def execAll : List (Command α) → Cells α → List (Report α) × Cells α
  | [], c => ([], c)
  | command :: commands, c =>
    let ran := exec command c
    let (reports, c) := execAll commands ran.cells
    (ran.report bound :: reports, c)

/-- Appends copies one by one until the queue has `bound` cells. -/
def execCopies : List (Copy α) → Nat → List (Event α) → Cells α → Ran α
  | [], count, events, c => ⟨.pushedMany count, events, c⟩
  | .mk value before fails :: copies, count, events, c =>
    if c.cells.length = bound then ⟨.pushedMany count, events, c⟩
    else
      let (reports, after) := execAll before c.append
      let events := withReports events reports
      if fails then ⟨.copyFailed, events, after.settle c.nextNumber .dead⟩
      else
        execCopies copies (count + 1) (if watched then events ++ [.copied value] else events)
          (after.settle c.nextNumber (.ready value))

end

end exec

end Cells

/-- A session on a queue of at most `bound` cells. -/
def Script.onCells (watched : Bool) (bound : Nat) (script : Script α) :
    List (Report α) × List (Event α) :=
  let (reports, c) := Cells.execAll watched bound script.commands {}
  (reports, (teardown .mpmc (UInt64.ofNat c.cells.length)).map .logged)

/-! ## Pending cells stay -/

namespace Cells

/-- The cell with a number is still there and pending. -/
def Pending (c : Cells α) (number : Nat) : Prop :=
  c.first ≤ number ∧ c.cells[number - c.first]? = some .pending

/-- What is pending before is pending after. -/
def Keeps (c c' : Cells α) : Prop := ∀ number, c.Pending number → c'.Pending number

theorem Keeps.refl (c : Cells α) : c.Keeps c := fun _ h => h

theorem Keeps.trans {c c' c'' : Cells α} (h : c.Keeps c') (h' : c'.Keeps c'') : c.Keeps c'' :=
  fun number hp => h' number (h number hp)

theorem pending_append (c : Cells α) : c.append.Pending c.nextNumber :=
  ⟨Nat.le_add_right _ _, by simp [append, nextNumber]⟩

/-- The number of a new cell is not that of a pending one. -/
theorem Pending.lt_nextNumber {c : Cells α} {number : Nat} (h : c.Pending number) :
    number < c.nextNumber := by
  obtain ⟨hle, hget⟩ := h
  obtain ⟨hlt, -⟩ := List.getElem?_eq_some_iff.mp hget
  unfold nextNumber
  omega

theorem keeps_append (c : Cells α) : c.Keeps c.append := by
  intro number h
  have hlt := h.lt_nextNumber
  obtain ⟨hle, hget⟩ := h
  rw [nextNumber] at hlt
  refine ⟨hle, ?_⟩
  simp only [append]
  rwa [List.getElem?_append_left (by omega)]

/-- A cell that is settled is none of the others. -/
theorem Pending.settle {c : Cells α} {number other : Nat} (h : c.Pending number)
    (hother : c.first ≤ other) (hne : number ≠ other) (cell : Cell α) :
    (c.settle other cell).Pending number := by
  obtain ⟨hle, hget⟩ := h
  refine ⟨hle, ?_⟩
  simp only [Cells.settle]
  rwa [List.getElem?_set_ne (by omega)]

/-- Between appending a cell and settling it, the others are kept. -/
theorem keeps_settle {c after : Cells α} (h : c.append.Keeps after) (cell : Cell α) :
    c.Keeps (after.settle c.nextNumber cell) := by
  intro number hp
  have hown := h _ c.pending_append
  exact (h number (c.keeps_append number hp)).settle hown.1 (Nat.ne_of_lt hp.lt_nextNumber) cell

theorem keeps_pop (c : Cells α) : c.Keeps c.pop.2 := by
  rintro number ⟨hle, hget⟩
  unfold pop
  split
  · next v cells heq =>
    rw [heq] at hget
    have hne : number ≠ c.first := by
      rintro rfl
      simp at hget
    refine ⟨by show c.first + 1 ≤ number; omega, ?_⟩
    rw [show number - c.first = number - (c.first + 1) + 1 by omega, List.getElem?_cons_succ]
      at hget
    exact hget
  · exact ⟨hle, hget⟩

theorem keeps_popUpTo (limit : Nat) (c : Cells α) : c.Keeps (c.popUpTo limit).2 := by
  induction limit generalizing c with
  | zero => exact .refl c
  | succ limit ih =>
      have hpop := c.keeps_pop
      unfold popUpTo
      split
      · next v c' heq =>
        rw [heq] at hpop
        exact hpop.trans (ih c')
      · next c' heq =>
        rw [heq] at hpop
        exact hpop

section exec

variable (watched : Bool) (bound : Nat)

mutual

/-- No command touches a pending cell of others. -/
theorem keeps_exec : ∀ (command : Command α) (c : Cells α),
    c.Keeps (exec watched bound command c).cells
  | .capacity, c => .refl c
  | .push v, c => by
      unfold exec
      split
      · exact .refl c
      · exact keeps_settle (.refl _) _
  | .emplace before result callBack, c => by
      unfold exec
      split
      · split
        · have hbefore := keeps_execAll before c
          cases result <;> exact hbefore
        · exact .refl c
      · have hbefore := keeps_execAll before c.append
        cases result <;> exact keeps_settle hbefore _
  | .pushBatch copies, c => by
      unfold exec
      exact keeps_execCopies copies 0 [] c
  | .pop, c => by
      have hpop := c.keeps_pop
      unfold exec
      split <;> next heq => rw [heq] at hpop; exact hpop
  | .popBatch limit out, c => c.keeps_popUpTo limit.toNat

theorem keeps_execAll : ∀ (commands : List (Command α)) (c : Cells α),
    c.Keeps (execAll watched bound commands c).2
  | [], c => .refl c
  | command :: commands, c =>
      (keeps_exec command c).trans (keeps_execAll commands _)

theorem keeps_execCopies : ∀ (copies : List (Copy α)) (count : Nat) (events : List (Event α))
    (c : Cells α), c.Keeps (execCopies watched bound copies count events c).cells
  | [], count, events, c => .refl c
  | .mk value before fails :: copies, count, events, c => by
      have hbefore := keeps_execAll before c.append
      unfold execCopies
      split
      · exact .refl c
      · simp only
        split
        · exact keeps_settle hbefore _
        · exact (keeps_settle hbefore _).trans (keeps_execCopies copies _ _ _)

end

end exec

end Cells

end LockFreeRings.Mpmc
