import LockFreeRings.Proofs.Mpmc.Dealings
import LockFreeRings.Proofs.Mpmc.Nesting
import LockFreeRings.Proofs.Mpmc.Threads
import Mathlib.Data.List.Perm.Basic
set_option autoImplicit false

/-!
# Nothing is lost, and the end says what is left

In every session each element that came to the queue was refused, was popped, or is
in the ring at the end, once; and the end of the queue logs how many positions were
taken and not emptied, which are the elements left and the failures
(`Script.settles`).

`Cells.Balanced` says of a stretch of a session that its dealings explain how the
cells changed.  It counts one element at a time, so that stretches are put together
by adding, and it says that as many cells are pending afterwards as were before:
every call settles the cells it appends.
-/

namespace LockFreeRings.Mpmc

variable {n : SlotCount} {α : Type}

/-! ## What cells hold -/

namespace Cell

def ready? : Cell α → Option α
  | .ready v => some v
  | _ => none

def isDead : Cell α → Bool
  | .dead => true
  | _ => false

def isPending : Cell α → Bool
  | .pending => true
  | _ => false

end Cell

namespace Cells

variable {c c' c'' after : Cells α} {number : Nat}

/-- The elements that are there, the oldest first. -/
def elements (c : Cells α) : List α := c.cells.filterMap Cell.ready?

/-- A cell is one thing. -/
theorem length_cells (c : Cells α) :
    c.cells.length = c.elements.length + c.cells.countP Cell.isDead +
      c.cells.countP Cell.isPending := by
  unfold elements
  induction c.cells with
  | nil => rfl
  | cons cell cells ih =>
      cases cell <;>
        simp only [List.length_cons, List.filterMap_cons, List.countP_cons, Cell.ready?,
          Cell.isDead, Cell.isPending, Bool.false_eq_true, if_false, if_true] <;>
        omega

@[simp] theorem elements_append (c : Cells α) : c.append.elements = c.elements := by
  simp [elements, append, Cell.ready?]

@[simp] theorem countP_isDead_append (c : Cells α) :
    c.append.cells.countP Cell.isDead = c.cells.countP Cell.isDead := by
  simp [append, Cell.isDead]

@[simp] theorem countP_isPending_append (c : Cells α) :
    c.append.cells.countP Cell.isPending = c.cells.countP Cell.isPending + 1 := by
  simp [append, Cell.isPending]

/-- Settling a cell puts another in the place of a pending one. -/
theorem exists_perm_settle (hp : c.Pending number) (cell : Cell α) :
    ∃ others, c.cells.Perm (.pending :: others) ∧
      (c.settle number cell).cells.Perm (cell :: others) := by
  obtain ⟨-, hget⟩ := hp
  obtain ⟨hlt, hpending⟩ := List.getElem?_eq_some_iff.mp hget
  refine ⟨c.cells.eraseIdx (number - c.first), ?_, List.set_perm_cons_eraseIdx hlt cell⟩
  rw [← hpending]
  exact (List.getElem_cons_eraseIdx_perm hlt).symm

theorem elements_settle_ready (hp : c.Pending number) (v : α) :
    (c.settle number (.ready v)).elements.Perm (v :: c.elements) := by
  obtain ⟨others, hbefore, hafter⟩ := exists_perm_settle hp (.ready v)
  exact (hafter.filterMap Cell.ready?).trans ((hbefore.filterMap Cell.ready?).symm.cons v)

theorem elements_settle_dead (hp : c.Pending number) :
    (c.settle number .dead).elements.Perm c.elements := by
  obtain ⟨others, hbefore, hafter⟩ := exists_perm_settle hp .dead
  exact (hafter.filterMap Cell.ready?).trans (hbefore.filterMap Cell.ready?).symm

theorem countP_isDead_settle (hp : c.Pending number) (cell : Cell α) :
    (c.settle number cell).cells.countP Cell.isDead =
      c.cells.countP Cell.isDead + if cell.isDead then 1 else 0 := by
  obtain ⟨others, hbefore, hafter⟩ := exists_perm_settle hp cell
  rw [hafter.countP_eq, hbefore.countP_eq, List.countP_cons, List.countP_cons]
  rfl

theorem countP_isPending_settle (hp : c.Pending number) (cell : Cell α) :
    (c.settle number cell).cells.countP Cell.isPending + 1 =
      c.cells.countP Cell.isPending + if cell.isPending then 1 else 0 := by
  obtain ⟨others, hbefore, hafter⟩ := exists_perm_settle hp cell
  rw [hafter.countP_eq, hbefore.countP_eq, List.countP_cons, List.countP_cons]
  simp only [Cell.isPending, if_true]
  omega

section exec

variable (watched : Bool) (bound : Nat)

/-! ## Reports of nested commands -/

/-- The runs that a callback with these reports adds: one, or none if nothing ran. -/
def shown : List (Report α) → List (List (Report α))
  | [] => []
  | reports => [reports]

theorem runsIn_withReports (events : List (Event α)) (reports : List (Report α)) :
    runsIn (withReports events reports) = runsIn events ++ shown reports := by
  cases reports with
  | nil => exact (List.append_nil _).symm
  | cons report reports => simp [withReports, runsIn, Event.nested?, shown]

/-- A copy that is watched shows no run. -/
theorem runsIn_copied (events : List (Event α)) (value : α) :
    runsIn (if watched then events ++ [.copied value] else events) = runsIn events := by
  split
  · rw [runsIn, List.filterMap_append]
    exact List.append_nil _
  · rfl

/-- What ran while an element was built. -/
theorem headD_runsIn_building (reports : List (Report α)) :
    (runsIn (withReports [.building] reports)).headD [] = reports := by
  rw [runsIn_withReports]
  cases reports <;> rfl

theorem copiesDealings_nil : ∀ copies : List (Copy α), copiesDealings copies [] = []
  | [] => rfl
  | .mk _ [] _ :: copies => copiesDealings_nil copies
  | .mk _ (_ :: _) _ :: _ => rfl

/-- What ran before the first copy of a batch, and before the others. -/
theorem copiesDealings_cons (value : α) (before : List (Command α)) (fails : Bool)
    (copies : List (Copy α)) (c : Cells α) (runs : List (List (Report α))) :
    copiesDealings (.mk value before fails :: copies)
        (shown (execAll watched bound before c).1 ++ runs) =
      commandsDealings before (execAll watched bound before c).1 ++
        copiesDealings copies runs := by
  cases before <;> rfl

/-- What a batch that answers `reply` from `count` on did by itself. -/
def Copied (copies : List (Copy α)) (count : Nat) (reply : Reply α)
    (own : List (Dealing α)) : Prop :=
  (∃ made, reply = .pushedMany (count + made) ∧
      own = ((copies.take made).map Copy.value).flatMap Dealing.entering) ∨
    (reply = .copyFailed ∧
      own = ((copies.takeWhile (!·.fails)).map Copy.value).flatMap Dealing.entering ++ [.failed])

theorem Copied.own_eq {copies : List (Copy α)} {reply : Reply α} {own : List (Dealing α)}
    (h : Copied copies 0 reply own) : (Command.pushBatch copies).own reply = own := by
  obtain ⟨made, rfl, rfl⟩ | ⟨rfl, rfl⟩ := h
  · rw [Nat.zero_add]
    rfl
  · rfl

/-- A copy was made before the others. -/
theorem Copied.cons {copies : List (Copy α)} {count : Nat} {reply : Reply α}
    {own : List (Dealing α)} (h : Copied copies (count + 1) reply own) (value : α)
    (before : List (Command α)) :
    Copied (.mk value before false :: copies) count reply (Dealing.entering value ++ own) := by
  obtain ⟨made, rfl, rfl⟩ | ⟨rfl, rfl⟩ := h
  · exact .inl ⟨made + 1, by rw [Nat.add_right_comm, Nat.add_assoc], rfl⟩
  · exact .inr ⟨rfl, rfl⟩

/-! ## What a caller sees -/

theorem ofCaller_withReports {events : List (Event α)} {reports : List (Report α)}
    (hevents : ∀ event ∈ events, event.OfCaller) (hreports : ∀ report ∈ reports, report.OfCaller) :
    ∀ event ∈ withReports events reports, event.OfCaller := by
  cases reports with
  | nil => exact hevents
  | cons report reports =>
      intro event hmem
      rcases List.mem_append.mp hmem with hmem | hmem
      · exact hevents event hmem
      · rw [List.mem_singleton.mp hmem]
        exact .ran hreports

theorem ofCaller_building : ∀ event ∈ [Event.building (α := α)], event.OfCaller := by
  intro event hmem
  rw [List.mem_singleton.mp hmem]
  exact .building

mutual

/-- All that happens during a command is code of the caller. -/
theorem ofCaller_exec : ∀ (command : Command α) (c : Cells α),
    ∀ event ∈ (exec watched bound command c).events, event.OfCaller
  | .capacity, c => by simp [exec]
  | .push w, c => by
      unfold exec
      split <;> simp
  | .emplace before result callBack, c => by
      unfold exec
      split
      · split
        · have hbefore := ofCaller_withReports ofCaller_building (ofCaller_execAll before c)
          cases result <;> exact hbefore
        · simp
      · have hbefore := ofCaller_withReports ofCaller_building (ofCaller_execAll before c.append)
        cases result <;> exact hbefore
  | .pushBatch copies, c => by
      unfold exec
      exact ofCaller_execCopies copies 0 [] c (by simp)
  | .pop, c => by
      unfold exec
      split <;> simp
  | .popBatch limit out, c => by simp [exec]

theorem ofCaller_execAll : ∀ (commands : List (Command α)) (c : Cells α),
    ∀ report ∈ (execAll watched bound commands c).1, report.OfCaller
  | [], c => by simp [execAll]
  | command :: commands, c => by
      intro report hmem
      rcases List.mem_cons.mp hmem with rfl | hmem
      · exact .mk (ofCaller_exec command c)
      · exact ofCaller_execAll commands _ report hmem

theorem ofCaller_execCopies : ∀ (copies : List (Copy α)) (count : Nat) (events : List (Event α))
    (c : Cells α), (∀ event ∈ events, event.OfCaller) →
      ∀ event ∈ (execCopies watched bound copies count events c).events, event.OfCaller
  | [], _, _, _, hevents => hevents
  | .mk value before fails :: copies, count, events, c, hevents => by
      have hbefore := ofCaller_withReports hevents (ofCaller_execAll before c.append)
      unfold execCopies
      split
      · exact hevents
      · simp only
        split
        · exact hbefore
        · refine ofCaller_execCopies copies _ _ _ ?_
          split
          · intro event hmem
            rcases List.mem_append.mp hmem with hmem | hmem
            · exact hbefore event hmem
            · rw [List.mem_singleton.mp hmem]
              exact .copied value
          · exact hbefore

end

/-! ## Balanced stretches -/

section balanced

variable [DecidableEq α] {v : α} {dealings dealings' : List (Dealing α)}

/-- The dealings explain how the cells changed, as far as one element goes: what
came was refused or published, and what was there or was published was popped or is
there; each failure left a dead cell, and none is left pending. -/
structure Balanced (v : α) (c c' : Cells α) (dealings : List (Dealing α)) : Prop where
  handed : (dealings.filterMap Dealing.handed?).count v =
    (dealings.filterMap Dealing.refused?).count v +
      (dealings.filterMap Dealing.published?).count v
  stored : c.elements.count v + (dealings.filterMap Dealing.published?).count v =
    (dealings.filterMap Dealing.popped?).count v + c'.elements.count v
  dead : c'.cells.countP Cell.isDead =
    c.cells.countP Cell.isDead + dealings.countP Dealing.isFailed
  pending : c'.cells.countP Cell.isPending = c.cells.countP Cell.isPending

namespace Balanced

theorem refl (v : α) (c : Cells α) : Balanced v c c [] :=
  ⟨rfl, by simp, rfl, rfl⟩

theorem trans (h : Balanced v c c' dealings) (h' : Balanced v c' c'' dealings') :
    Balanced v c c'' (dealings ++ dealings') := by
  obtain ⟨hhanded, hstored, hdead, hpending⟩ := h
  obtain ⟨hhanded', hstored', hdead', hpending'⟩ := h'
  constructor
  · simp only [List.filterMap_append, List.count_append]
    omega
  · simp only [List.filterMap_append, List.count_append]
    omega
  · rw [List.countP_append]
    omega
  · omega

/-- The order of the dealings does not matter. -/
theorem perm (h : Balanced v c c' dealings) (hperm : dealings.Perm dealings') :
    Balanced v c c' dealings' := by
  have hcount : ∀ f : Dealing α → Option α,
      (dealings'.filterMap f).count v = (dealings.filterMap f).count v :=
    fun f => (hperm.filterMap f).symm.count_eq v
  constructor
  · rw [hcount, hcount, hcount, h.handed]
  · rw [hcount, hcount, h.stored]
  · rw [h.dead, hperm.countP_eq]
  · exact h.pending

/-- An element that is handed over and comes back. -/
theorem refused (v : α) (c : Cells α) (w : α) : Balanced v c c [.handed w, .refused w] :=
  ⟨rfl, Nat.add_comm _ _, rfl, rfl⟩

/-- A call that appends a cell and makes it ready, with what happens in between. -/
theorem fill (h : Balanced v c.append after dealings) (hp : after.Pending c.nextNumber) (w : α) :
    Balanced v c (after.settle c.nextNumber (.ready w)) (dealings ++ Dealing.entering w) := by
  obtain ⟨hhanded, hstored, hdead, hpending⟩ := h
  have helements := (elements_settle_ready hp w).count_eq v
  have hdead' := countP_isDead_settle hp (.ready w)
  have hpending' := countP_isPending_settle hp (.ready w)
  simp only [elements_append, countP_isDead_append, countP_isPending_append, List.count_cons,
    Cell.isDead, Cell.isPending, Bool.false_eq_true, if_false] at *
  have hentering : ∀ f : Dealing α → Option α, (dealings ++ Dealing.entering w).filterMap f =
      dealings.filterMap f ++ [Dealing.handed w, .published w].filterMap f :=
    fun f => List.filterMap_append
  refine ⟨?_, ?_, ?_, by omega⟩
  · simp only [hentering, List.count_append, List.filterMap_cons, Dealing.handed?,
      Dealing.refused?, Dealing.published?, List.filterMap_nil, List.count_nil]
    omega
  · simp only [hentering, List.count_append, List.filterMap_cons, Dealing.popped?,
      Dealing.published?, List.filterMap_nil, List.count_nil, List.count_cons]
    omega
  · rw [List.countP_append, hdead', hdead]
    rfl

/-- A call that appends a cell which dies. -/
theorem die (h : Balanced v c.append after dealings) (hp : after.Pending c.nextNumber) :
    Balanced v c (after.settle c.nextNumber .dead) (dealings ++ [.failed]) := by
  obtain ⟨hhanded, hstored, hdead, hpending⟩ := h
  have helements := (elements_settle_dead hp).count_eq v
  have hdead' := countP_isDead_settle hp .dead
  have hpending' := countP_isPending_settle hp .dead
  simp only [elements_append, countP_isDead_append, countP_isPending_append, Cell.isDead,
    Cell.isPending, Bool.false_eq_true, if_false, if_true] at *
  refine ⟨?_, ?_, ?_, by omega⟩
  · simpa [List.filterMap_cons, Dealing.handed?, Dealing.refused?, Dealing.published?]
      using hhanded
  · simpa [List.filterMap_cons, Dealing.popped?, Dealing.published?, helements] using hstored
  · rw [List.countP_append, hdead', hdead]
    rfl

/-- A pop. -/
theorem pop (v : α) (c : Cells α) :
    Balanced v c c.pop.2 (c.pop.1.toList.map Dealing.popped) := by
  unfold Cells.pop
  split
  · next w cells heq =>
    refine ⟨rfl, ?_, ?_, ?_⟩
    · simp [elements, heq, Cell.ready?, Dealing.popped?, Dealing.published?, List.filterMap_cons,
        List.count_cons]
      omega
    · simp [heq, Cell.isDead, Dealing.isFailed]
    · simp [heq, Cell.isPending]
  · exact refl v c

theorem popUpTo (v : α) (limit : Nat) (c : Cells α) :
    Balanced v c (c.popUpTo limit).2 ((c.popUpTo limit).1.map Dealing.popped) := by
  induction limit generalizing c with
  | zero => exact refl v c
  | succ limit ih =>
      have hpop := pop v c
      unfold Cells.popUpTo
      split
      · next w c' heq =>
        rw [heq] at hpop
        exact hpop.trans (ih c')
      · next c' heq =>
        rw [heq] at hpop
        exact hpop

end Balanced

/-! ### Sessions on cells -/

mutual

/-- The dealings of a command explain what it did to the cells. -/
theorem balanced_exec (v : α) : ∀ (command : Command α) (c : Cells α),
    Balanced v c (exec watched bound command c).cells
      (command.dealings ((exec watched bound command c).report bound))
  | .capacity, c => .refl v c
  | .push w, c => by
      unfold exec
      split
      · exact .refused v c w
      · exact Balanced.fill (.refl v _) c.pending_append w
  | .emplace before result callBack, c => by
      unfold exec
      split
      · split
        · -- the caller builds its element for itself: only what it nested is dealt with
          have hbefore := balanced_execAll v before c
          cases result <;>
            simpa only [Ran.report, Command.dealings, headD_runsIn_building, Command.own,
              List.append_nil] using hbefore
        · simp only [Ran.report, Command.dealings]
          cases before <;> cases result <;> exact .refl v c
      · have hbefore := balanced_execAll v before c.append
        have hown := keeps_execAll watched bound before c.append _ c.pending_append
        cases result with
        | none =>
            simp only [Ran.report, Command.dealings, headD_runsIn_building, Command.own]
            exact hbefore.die hown
        | some w =>
            simp only [Ran.report, Command.dealings, headD_runsIn_building, Command.own]
            exact hbefore.fill hown w
  | .pushBatch copies, c => by
      obtain ⟨runs, own, hruns, hcopied, hbalanced⟩ := balanced_execCopies v copies 0 [] c
      simp only [exec, Ran.report, Command.dealings, hruns, hcopied.own_eq]
      exact hbalanced
  | .pop, c => by
      have hpop := Balanced.pop v c
      unfold exec
      split <;> next heq => rw [heq] at hpop; exact hpop
  | .popBatch limit out, c => by
      have hpops := Balanced.popUpTo v limit.toNat c
      simp only [exec, Ran.report, Command.dealings, Command.own, List.drop_left]
      exact hpops

theorem balanced_execAll (v : α) : ∀ (commands : List (Command α)) (c : Cells α),
    Balanced v c (execAll watched bound commands c).2
      (commandsDealings commands (execAll watched bound commands c).1)
  | [], c => .refl v c
  | command :: commands, c =>
      (balanced_exec v command c).trans (balanced_execAll v commands _)

theorem balanced_execCopies (v : α) : ∀ (copies : List (Copy α)) (count : Nat)
    (events : List (Event α)) (c : Cells α), ∃ runs own,
    runsIn (execCopies watched bound copies count events c).events = runsIn events ++ runs ∧
      Copied copies count (execCopies watched bound copies count events c).reply own ∧
        Balanced v c (execCopies watched bound copies count events c).cells
          (copiesDealings copies runs ++ own)
  | [], count, events, c =>
      ⟨[], [], (List.append_nil _).symm, .inl ⟨0, rfl, rfl⟩, .refl v c⟩
  | .mk value before fails :: copies, count, events, c => by
      have hbefore := balanced_execAll v before c.append
      have hown := keeps_execAll watched bound before c.append _ c.pending_append
      unfold execCopies
      split
      · exact ⟨[], [], (List.append_nil _).symm, .inl ⟨0, rfl, rfl⟩, by
          rw [copiesDealings_nil]; exact .refl v c⟩
      · cases fails with
        | true =>
            refine ⟨shown (execAll watched bound before c.append).1 ++ [], [.failed], ?_,
              .inr ⟨rfl, rfl⟩, ?_⟩
            · rw [List.append_nil]
              exact runsIn_withReports _ _
            · rw [copiesDealings_cons watched bound, copiesDealings_nil, List.append_nil]
              exact hbefore.die hown
        | false =>
            obtain ⟨runs, own, hruns, hcopied, hrest⟩ := balanced_execCopies v copies (count + 1)
              (if watched then
                withReports events (execAll watched bound before c.append).1 ++ [.copied value]
              else withReports events (execAll watched bound before c.append).1)
              ((execAll watched bound before c.append).2.settle c.nextNumber (.ready value))
            refine ⟨shown (execAll watched bound before c.append).1 ++ runs,
              Dealing.entering value ++ own, ?_, hcopied.cons value before, ?_⟩
            · rw [runsIn_copied, runsIn_withReports, List.append_assoc] at hruns
              exact hruns
            · rw [copiesDealings_cons watched bound]
              refine ((hbefore.fill hown value).trans hrest).perm ?_
              simp only [List.append_assoc]
              exact (List.perm_append_comm_assoc _ _ _).append_left _

end

end balanced

end exec

end Cells

/-! ## Rings -/

/-- The elements of a ring are those of its cells. -/
theorem Ring.Represents.contents_eq {r : Ring n α} {c : Cells α} (h : r.Represents c) :
    r.contents = c.elements := by
  have hle := h.length_le
  have hsize := n.size_le
  have hnext : c.nextNumber = c.first + c.cells.length := rfl
  have hcount : (r.tail - r.head).toNat = c.cells.length := by
    rw [h.tail, h.head, toNat_ofNat_sub_ofNat (by omega) (by omega), hnext,
      Nat.add_sub_cancel_left]
  have hcells : (List.range c.cells.length).map (c.cells[·]?) = c.cells.map some := by
    apply List.ext_getElem <;> simp
  have helements : c.elements =
      (List.range c.cells.length).filterMap fun i => (c.cells[i]?).bind Cell.ready? := by
    calc c.elements = (c.cells.map some).filterMap (·.bind Cell.ready?) := by
          rw [List.filterMap_map]; rfl
      _ = _ := by rw [← hcells, List.filterMap_map]; rfl
  rw [Ring.contents, hcount, helements]
  refine List.filterMap_congr fun i hi => ?_
  have hlt : i < c.cells.length := List.mem_range.mp hi
  have hpos : r.head + UInt64.ofNat i = UInt64.ofNat (c.first + i) := by
    rw [h.head, UInt64.ofNat_add]
  have hfree : UInt64.ofNat (c.first + i) ≠ UInt64.ofNat (c.first + i + 1) := fun heq => by
    have := ofNat_inj_of_lt (Nat.le_succ _) (by omega) heq
    omega
  simp only [hpos, h.seq i (by omega), ← ofNat_succ, Cells.readiness]
  obtain ⟨cell, hcell⟩ : ∃ cell, c.cells[i]? = some cell := ⟨_, List.getElem?_eq_getElem hlt⟩
  cases cell with
  | ready v => simp only [hcell, h.value i v hcell, if_true, Option.bind_some, Cell.ready?]
  | pending | dead =>
      simp only [hcell, Nat.add_zero, if_neg hfree, Option.bind_some, Cell.ready?]

/-- The constructor is run once if a position is granted, after it was taken, and
never otherwise; then the ring stays as it is. -/
theorem Ring.emplace_watching {σ : Type} (make : σ → Ring n α → Option α × σ × Ring n α)
    (own : σ) (r : Ring n α) :
    r.emplace (watching make) (own, []) =
      match r.admitPush with
      | .granted _ =>
        ((r.emplace make own).1, ((r.emplace make own).2.1, [r.advanceTail]),
          (r.emplace make own).2.2)
      | .refused => (.full, (own, []), r)
      | .spinning => (.spinning, (own, []), r) := by
  unfold Ring.emplace
  cases r.admitPush with
  | granted pos =>
      simp only [watching]
      rcases make own r.advanceTail with ⟨_ | v, own', after⟩ <;> rfl
  | refused | spinning => rfl

/-! ## Sessions -/

/-- What became of the elements of a session, and what its end says. -/
structure Script.Settles (watched : Bool) (n : SlotCount) (blank : α) (script : Script α) :
    Prop where
  /-- an element that the queue was handed came back at once or was published -/
  handed : ((script.dealings watched n blank).filterMap Dealing.handed?).Perm
    ((script.dealings watched n blank).filterMap Dealing.refused? ++
      (script.dealings watched n blank).filterMap Dealing.published?)
  /-- one that was published was popped or is in the ring still, once -/
  published : ((script.dealings watched n blank).filterMap Dealing.published?).Perm
    ((script.dealings watched n blank).filterMap Dealing.popped? ++
      (script.ring watched n blank).contents)
  /-- before its end the queue ends no element, whether one is taken out or stored over, and
  logs nothing -/
  quiet : ∀ report ∈ (script.run watched n blank).1, report.OfCaller
  /-- a constructor is run once if its position was taken, on the ring as it is then,
  and never otherwise -/
  built : ∀ {σ : Type} (make : σ → Ring n α → Option α × σ × Ring n α) (own : σ) (r : Ring n α),
    r.emplace (watching make) (own, []) =
      match r.admitPush with
      | .granted _ =>
        ((r.emplace make own).1, ((r.emplace make own).2.1, [r.advanceTail]),
          (r.emplace make own).2.2)
      | .refused => (.full, (own, []), r)
      | .spinning => (.spinning, (own, []), r)
  /-- the end logs, once, how many positions were taken and not emptied, if any, and ends no
  element -/
  ending : ∃ leaked ≤ n.size,
    leaked + ((script.dealings watched n blank).filterMap Dealing.popped?).length =
        ((script.dealings watched n blank).filterMap Dealing.published?).length +
          (script.dealings watched n blank).countP Dealing.isFailed ∧
      (script.run watched n blank).2 =
        if leaked = 0 then [] else [.logged (.undrained .mpmc (UInt64.ofNat leaked))]

/-- Every element of a session meets one end, whatever its commands nest and wherever
they fail. -/
theorem Script.settles {layout : SlotLayout} (hbytes : 0 < layout.bytes)
    (hstorage : storageFault? n layout ≠ some .unaddressable) (watched : Bool) (blank : α)
    (script : Script α) : script.Settles watched n blank := by
  classical
  have hn := size_lt_of_addressable hbytes hstorage
  obtain ⟨hreports, hring⟩ :=
    (runCommand_follows hn _ : Runner.Follows watched _ _).runAll hn script.commands
      (Nat.le_refl _) (Ring.Represents.new n blank)
  have hbalanced : ∀ v, Cells.Balanced v {} (Cells.execAll watched n.size script.commands {}).2
      (script.dealings watched n blank) := by
    intro v
    have := Cells.balanced_execAll watched n.size v script.commands {}
    rwa [← hreports] at this
  have hcontents : (script.ring watched n blank).contents =
      (Cells.execAll watched n.size script.commands {}).2.elements := hring.contents_eq
  have hpublished : ((script.dealings watched n blank).filterMap Dealing.published?).Perm
      ((script.dealings watched n blank).filterMap Dealing.popped? ++
        (script.ring watched n blank).contents) := by
    refine List.perm_iff_count.mpr fun v => ?_
    have := (hbalanced v).stored
    rw [List.count_append, hcontents]
    simpa [Cells.elements] using this
  constructor
  case handed =>
    refine List.perm_iff_count.mpr fun v => ?_
    rw [List.count_append, (hbalanced v).handed]
  case published => exact hpublished
  case quiet =>
    intro report hmem
    rw [Script.run, hreports] at hmem
    exact Cells.ofCaller_execAll watched n.size script.commands {} report hmem
  case built => exact Ring.emplace_watching
  case ending =>
    have hlength := Cells.length_cells (Cells.execAll watched n.size script.commands {}).2
    have hdead := (hbalanced blank).dead
    have hpending := (hbalanced blank).pending
    have hpublished := hpublished.length_eq
    rw [List.length_append, hcontents] at hpublished
    simp only [List.countP_nil] at hdead hpending
    refine ⟨_, hring.length_le, by omega, ?_⟩
    have hfits : (Cells.execAll watched n.size script.commands {}).2.cells.length < UInt64.size :=
      (hring.length_le.trans_lt hn).trans (by decide)
    have hsize : (script.ring watched n blank).size = UInt64.ofNat _ := hring.size_eq hn
    show finish (script.ring watched n blank) = _
    rw [finish_eq, hsize, teardown_ofNat _ hfits]
    split <;> rfl

/-- While the first element is built another is pushed, which comes out after it; then
one is refused, and a copy that fails leaves its position behind. -/
def leftovers : Script Nat where
  commands :=
    [.emplace [.push 17, .pop] (some 18) false, .push 19, .pop, .pushBatch [.mk 20 [.pop] true]]

theorem leftovers_settles :
    0 < (⟨64, 64⟩ : SlotLayout).bytes ∧
      storageFault? ⟨1, by decide, by decide⟩ ⟨64, 64⟩ ≠ some .unaddressable ∧
        leftovers.Settles true ⟨1, by decide, by decide⟩ 0 ∧
          leftovers.dealings true ⟨1, by decide, by decide⟩ 0 =
            [.handed 17, .published 17, .handed 18, .published 18, .handed 19, .refused 19,
              .popped 18, .popped 17, .failed] ∧
            (leftovers.run true ⟨1, by decide, by decide⟩ 0).2 =
              [.logged (.undrained .mpmc 1)] := by
  have hbytes : 0 < (⟨64, 64⟩ : SlotLayout).bytes := by decide
  have hstorage : storageFault? ⟨1, by decide, by decide⟩ ⟨64, 64⟩ ≠ some .unaddressable := by
    decide
  exact ⟨hbytes, hstorage, Script.settles hbytes hstorage true 0 leftovers, by decide, rfl⟩

end LockFreeRings.Mpmc
