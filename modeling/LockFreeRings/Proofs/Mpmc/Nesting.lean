import LockFreeRings.Proofs.Mpmc.Cellwise
import LockFreeRings.Construction
set_option autoImplicit false

/-!
# Sessions are runs on cells

A session on a ring reports what the same session on a bounded queue of cells
does (`Script.run_eq_onCells`).  Commands may nest to any depth and building an
element may fail, so while a command runs the ring may come to hold any other
cells; what the command relies on is that its own pending cell is still there
(`Cells.keeps_exec`).

`Runner.Follows` is what the induction on the depth carries from one level to the
next.
-/

namespace LockFreeRings.Mpmc

variable {n : SlotCount} {α : Type} {watched : Bool}

/-- Up to a depth of commands, the runner does to a ring what `Cells.exec` does to
its cells. -/
def Runner.Follows (watched : Bool) (run : Runner n α) (depth : Nat) : Prop :=
  ∀ (command : Command α) (r : Ring n α) (c : Cells α), command.depth ≤ depth →
    r.Represents c →
      (run command r).reply = (Cells.exec watched n.size command c).reply ∧
        (run command r).events = (Cells.exec watched n.size command c).events ∧
          (run command r).ring.Represents (Cells.exec watched n.size command c).cells

/-! ## Pushing -/

namespace Ring.Represents

variable {r : Ring n α} {c : Cells α} {σ : Type}

theorem emplace_of_full (h : r.Represents c) (hfull : c.cells.length = n.size)
    (make : σ → Ring n α → Option α × σ × Ring n α) (s : σ) :
    r.emplace make s = (.full, s, r) := by
  rw [Ring.emplace, h.admitPush_eq, if_pos hfull]

/-- An element that was built is in the slot of its cell. -/
theorem emplace_of_some (h : r.Represents c) (hroom : c.cells.length ≠ n.size)
    (make : σ → Ring n α → Option α × σ × Ring n α) (s : σ) {s' : σ} {v : α} {r' : Ring n α}
    (hmake : make s r.advanceTail = (some v, s', r')) :
    r.emplace make s = (.pushed, s',
      (r'.store (UInt64.ofNat c.nextNumber) v).publish (UInt64.ofNat c.nextNumber)) := by
  rw [Ring.emplace, h.admitPush_eq, if_neg hroom]
  simp only [hmake]

theorem emplace_of_none (h : r.Represents c) (hroom : c.cells.length ≠ n.size)
    (make : σ → Ring n α → Option α × σ × Ring n α) (s : σ) {s' : σ} {r' : Ring n α}
    (hmake : make s r.advanceTail = (none, s', r')) :
    r.emplace make s = (.failed, s', r') := by
  rw [Ring.emplace, h.admitPush_eq, if_neg hroom]
  simp only [hmake]

end Ring.Represents

/-! ## Commands inside others -/

namespace Runner.Follows

variable {run : Runner n α} {depth : Nat}

/-- What a run reports. -/
theorem report_eq (hn : n.size < 2 ^ 63) {ran : Ran n α} {spec : Cells.Ran α}
    (hreply : ran.reply = spec.reply) (hevents : ran.events = spec.events)
    (hring : ran.ring.Represents spec.cells) : ran.report = spec.report n.size := by
  rw [Ran.report, Cells.Ran.report, hreply, hevents, hring.size_eq hn, hring.isEmpty_eq,
    hring.isFull_eq]

theorem runAll (hn : n.size < 2 ^ 63) (hrun : run.Follows watched depth)
    (commands : List (Command α)) {r : Ring n α} {c : Cells α}
    (hdepth : commandsDepth commands ≤ depth) (h : r.Represents c) :
    (runAll run commands r).1 = (Cells.execAll watched n.size commands c).1 ∧
      (Mpmc.runAll run commands r).2.Represents
        (Cells.execAll watched n.size commands c).2 := by
  induction commands generalizing r c with
  | nil => exact ⟨rfl, h⟩
  | cons command commands ih =>
      rw [commandsDepth] at hdepth
      obtain ⟨hreply, hevents, hring⟩ := hrun command r c (by omega) h
      obtain ⟨hreports, hrest⟩ := ih (by omega) hring
      unfold Mpmc.runAll Cells.execAll
      refine ⟨?_, hrest⟩
      simp only
      rw [report_eq hn hreply hevents hring, hreports]

theorem runBefore (hn : n.size < 2 ^ 63) (hrun : run.Follows watched depth)
    (before : List (Command α)) (events : List (Event α)) {r : Ring n α} {c : Cells α}
    (hdepth : commandsDepth before ≤ depth) (h : r.Represents c) :
    (runBefore run before events r).1 =
        Cells.withReports events (Cells.execAll watched n.size before c).1 ∧
      (Mpmc.runBefore run before events r).2.Represents
        (Cells.execAll watched n.size before c).2 := by
  obtain ⟨hreports, hring⟩ := runAll hn hrun before hdepth h
  cases before with
  | nil => exact ⟨rfl, h⟩
  | cons command commands =>
      refine ⟨?_, hring⟩
      unfold Mpmc.runBefore
      simp only
      rw [hreports]
      rfl

/-- A batch. -/
theorem pushCopies (hn : n.size < 2 ^ 63) (hrun : run.Follows watched depth)
    (copies : List (Copy α)) (count : Nat) (events : List (Event α)) {r : Ring n α} {c : Cells α}
    (hdepth : copiesDepth copies ≤ depth) (h : r.Represents c) :
    (match (Ring.pushCopies (makeCopy watched run) copies count events r).1 with
      | .pushed count => Reply.pushedMany count
      | .failed => .copyFailed
      | .spinning => .spinning) =
        (Cells.execCopies watched n.size copies count events c).reply ∧
      (Ring.pushCopies (makeCopy watched run) copies count events r).2.1 =
        (Cells.execCopies watched n.size copies count events c).events ∧
      (Ring.pushCopies (makeCopy watched run) copies count events r).2.2.Represents
        (Cells.execCopies watched n.size copies count events c).cells := by
  induction copies generalizing r c count events with
  | nil => exact ⟨rfl, rfl, h⟩
  | cons copy copies ih =>
      obtain ⟨value, before, fails⟩ := copy
      rw [copiesDepth] at hdepth
      by_cases hfull : c.cells.length = n.size
      · rw [Ring.pushCopies, h.emplace_of_full hfull, Cells.execCopies, if_pos hfull]
        exact ⟨rfl, rfl, h⟩
      · obtain ⟨hevents, hring⟩ :=
          runBefore hn hrun before events (by omega) (h.advanceTail hfull)
        have hkeeps := Cells.keeps_execAll watched n.size before c.append
        have hown := hkeeps _ c.pending_append
        rw [Ring.pushCopies, Cells.execCopies, if_neg hfull]
        cases fails with
        | true =>
            have hmake : makeCopy watched run (.mk value before true) events r.advanceTail =
                (none, Mpmc.runBefore run before events r.advanceTail) := by
              simp [makeCopy]
            rw [h.emplace_of_none hfull _ _ hmake]
            exact ⟨rfl, hevents, hring.abandon hown⟩
        | false =>
            have hmake : makeCopy watched run (.mk value before false) events r.advanceTail =
                (some value,
                  if watched then
                    (Mpmc.runBefore run before events r.advanceTail).1 ++ [.copied value]
                  else (Mpmc.runBefore run before events r.advanceTail).1,
                  (Mpmc.runBefore run before events r.advanceTail).2) := by
              cases watched <;> simp [makeCopy]
            rw [h.emplace_of_some hfull _ _ hmake, hevents]
            exact ih _ _ (by omega) (hring.fill hown value)

/-- A command, when those inside it are followed. -/
theorem runWith (hn : n.size < 2 ^ 63) (hrun : run.Follows watched depth) :
    Follows watched (runWith watched run) (depth + 1) := by
  intro command r c hdepth h
  cases command with
  | capacity => exact ⟨rfl, rfl, h⟩
  | push v =>
      by_cases hfull : c.cells.length = n.size
      · rw [Cells.exec, if_pos hfull]
        simp only [Mpmc.runWith, Ring.push, h.emplace_of_full hfull]
        exact ⟨trivial, rfl, h⟩
      · rw [Cells.exec, if_neg hfull]
        simp only [Mpmc.runWith, Ring.push,
          h.emplace_of_some hfull (fun s r => (some v, s, r)) () rfl, letGo_eq_nil, ite_self]
        exact ⟨trivial, trivial, (h.advanceTail hfull).fill c.pending_append v⟩
  | emplace before result callBack =>
      rw [Command.depth] at hdepth
      by_cases hfull : c.cells.length = n.size
      · rw [Cells.exec, if_pos hfull]
        simp only [Mpmc.runWith, storing_eq, h.emplace_of_full hfull]
        cases callBack with
        | false => exact ⟨rfl, rfl, h⟩
        | true =>
            obtain ⟨hevents, hring⟩ := runBefore hn hrun before [.building] (by omega) h
            cases result with
            | none => exact ⟨rfl, hevents, hring⟩
            | some v => exact ⟨rfl, hevents, hring⟩
      · obtain ⟨hevents, hring⟩ :=
          runBefore hn hrun before [.building] (by omega) (h.advanceTail hfull)
        have hown := Cells.keeps_execAll watched n.size before c.append _ c.pending_append
        have hmake : build run before result [] r.advanceTail =
            (result, Mpmc.runBefore run before [.building] r.advanceTail) := rfl
        rw [Cells.exec, if_neg hfull]
        cases result with
        | none =>
            simp only [Mpmc.runWith, storing_eq, h.emplace_of_none hfull _ _ hmake]
            exact ⟨trivial, hevents, hring.abandon hown⟩
        | some v =>
            simp only [Mpmc.runWith, storing_eq, h.emplace_of_some hfull _ _ hmake]
            exact ⟨trivial, hevents, hring.fill hown v⟩
  | pushBatch copies =>
      rw [Command.depth] at hdepth
      obtain ⟨hreply, hevents, hring⟩ := pushCopies hn hrun copies 0 [] (by omega) h
      unfold Cells.exec Mpmc.runWith
      simp only [storing_eq]
      exact ⟨hreply, hevents, hring⟩
  | pop =>
      obtain ⟨houtcome, hring⟩ := h.pop_eq
      unfold Cells.exec Mpmc.runWith
      simp only [houtcome]
      rcases hc : c.pop with ⟨v?, c'⟩
      rw [hc] at hring
      cases v? with
      | none => exact ⟨rfl, rfl, hring⟩
      | some v => exact ⟨rfl, rfl, hring⟩
  | popBatch limit out =>
      obtain ⟨hvs, hring⟩ := h.popUpTo_eq (min limit.toNat n.size)
      rw [c.popUpTo_min limit.toNat h.length_le] at hvs hring
      unfold Cells.exec Mpmc.runWith
      simp only [Ring.popBatch, hvs]
      exact ⟨trivial, flatMap_letGo id _, hring⟩

end Runner.Follows

/-! ## Sessions -/

/-- Commands nested at most `fuel` deep are followed. -/
theorem runCommand_follows (hn : n.size < 2 ^ 63) (fuel : Nat) :
    Runner.Follows watched (runCommand watched fuel : Runner n α) fuel := by
  induction fuel with
  | zero =>
      intro command r c hdepth h
      cases command <;> simp [Command.depth] at hdepth
  | succ fuel ih => exact ih.runWith hn

/-- A ring whose storage can be addressed has less than `2 ^ 63` slots. -/
theorem size_lt_of_addressable {layout : SlotLayout} (hbytes : 0 < layout.bytes)
    (hstorage : storageFault? n layout ≠ some .unaddressable) : n.size < 2 ^ 63 := by
  by_contra hge
  apply hstorage
  have hle : addressLimit ≤ n.size * layout.bytes := by
    have := Nat.le_mul_of_pos_right n.size hbytes
    unfold addressLimit
    omega
  rw [storageFault?, if_pos hle]

/-- What a session on a ring reports is what the session on a queue of cells
reports, whatever its commands nest and wherever they fail, and there are never
more cells than slots.  A slot has at least one byte, so a ring that could be built
has fewer slots than words have negative values. -/
theorem Script.run_eq_onCells {layout : SlotLayout} (hbytes : 0 < layout.bytes)
    (hstorage : storageFault? n layout ≠ some .unaddressable) (watched : Bool) (blank : α)
    (script : Script α) :
    script.run watched n blank = script.onCells watched n.size ∧
      (Cells.execAll watched n.size script.commands {}).2.cells.length ≤ n.size := by
  have hn := size_lt_of_addressable hbytes hstorage
  obtain ⟨hreports, hring⟩ :=
    (runCommand_follows hn _ : Runner.Follows watched _ _).runAll hn script.commands
      (Nat.le_refl _) (Ring.Represents.new n blank)
  refine ⟨?_, hring.length_le⟩
  unfold Script.run Script.onCells
  simp only [finish_eq]
  rw [hreports, hring.size_eq hn]

/-- While an element is built that fails in the end, another one is pushed behind
it, which cannot be popped before it. -/
def failingBuild : Script Nat where
  commands := [.emplace [.push 7, .pop, .push 8] none false, .pop]

theorem failingBuild_run :
    0 < (⟨16, 8⟩ : SlotLayout).bytes ∧
      storageFault? ⟨1, by decide, by decide⟩ ⟨16, 8⟩ ≠ some .unaddressable ∧
        failingBuild.run true ⟨1, by decide, by decide⟩ 0 = failingBuild.onCells true 2 := by
  have hbytes : 0 < (⟨16, 8⟩ : SlotLayout).bytes := by decide
  have hstorage : storageFault? ⟨1, by decide, by decide⟩ ⟨16, 8⟩ ≠ some .unaddressable := by
    decide
  exact ⟨hbytes, hstorage, (Script.run_eq_onCells hbytes hstorage true 0 failingBuild).1⟩

end LockFreeRings.Mpmc
