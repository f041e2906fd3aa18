import LockFreeRings.Proofs.Mpmc.Courses
set_option autoImplicit false

/-!
# Calls are courses of moves

What a call does to the ring of a course, it does through moves, with those of the commands
that its caller's code runs in between (`Course.emplace_explains`,
`Course.pushCopies_explains`, `Course.pop_explains`); if building an element or making a copy
fails, the last of these moves abandons a position that the call took.  So a command goes
through moves if those inside it do, and all of them do, however deep they are nested
(`Course.runCommand_runs`).
-/

namespace LockFreeRings.Mpmc

variable {n : SlotCount} {α : Type}

namespace Course

variable {s : Course n α}

/-! ## Moves that settle nothing of others

A call that runs commands while it builds an element finds that its position is still its
own: no other call settles what is being built. -/

/-- Moves lead from one course to another, and what was being built still is. -/
def Leads (s s' : Course n α) : Prop :=
  ∃ moves, s.after moves = s' ∧ ∀ pos ∈ s.building, pos ∈ s'.building

/-- Moves lead there, and the last of them abandons a position that was taken on the way. -/
def Forsakes (s s' : Course n α) : Prop :=
  ∃ moves pos, s' = (s.after moves).step (.abandon pos) ∧
    pos ∈ (s.after moves).building ∧ s.taken ≤ pos

/-- What a call did to the ring of a course is a list of moves, and its last one abandons a
position if the call failed. -/
def Explains (s : Course n α) (failed : Prop) (r : Ring n α) : Prop :=
  ∃ s', s.Leads s' ∧ s'.ring = r ∧ (failed → s.Forsakes s')

theorem Leads.refl (s : Course n α) : s.Leads s := ⟨[], rfl, fun _ h => h⟩

theorem Leads.trans {s' s'' : Course n α} (h : s.Leads s') (h' : s'.Leads s'') :
    s.Leads s'' := by
  obtain ⟨moves, rfl, hkeeps⟩ := h
  obtain ⟨moves', rfl, hkeeps'⟩ := h'
  exact ⟨moves ++ moves', s.after_append moves moves',
    fun pos hpos => hkeeps' pos (hkeeps pos hpos)⟩

theorem Leads.sound {s' : Course n α} (h : s.Leads s') (hs : s.Sound) : s'.Sound := by
  obtain ⟨moves, rfl, -⟩ := h
  exact hs.after moves

/-- What happens after other moves happens after them all. -/
theorem Forsakes.of_leads {s' s'' : Course n α} (h : s.Leads s') (h' : s'.Forsakes s'') :
    s.Forsakes s'' := by
  obtain ⟨moves, rfl, -⟩ := h
  obtain ⟨moves', pos, rfl, hpos, hle⟩ := h'
  refine ⟨moves ++ moves', pos, ?_, ?_, (s.taken_le_after moves).trans hle⟩
  · rw [after_append]
  · rwa [after_append]

/-- What did not fail was no failure of another kind either. -/
theorem Explains.imp {failed failed' : Prop} {r : Ring n α} (h : s.Explains failed r)
    (himp : failed' → failed) : s.Explains failed' r := by
  obtain ⟨s', hleads, hring, hforsakes⟩ := h
  exact ⟨s', hleads, hring, fun hf => hforsakes (himp hf)⟩

/-- A call that changed nothing. -/
theorem Explains.refl (s : Course n α) {failed : Prop} (hnot : ¬ failed) :
    s.Explains failed s.ring :=
  ⟨s, .refl s, rfl, fun h => absurd h hnot⟩

theorem Explains.trans {s' : Course n α} {failed : Prop} {r : Ring n α} (h : s.Leads s')
    (h' : s'.Explains failed r) : s.Explains failed r := by
  obtain ⟨s'', hleads, hring, hforsakes⟩ := h'
  exact ⟨s'', h.trans hleads, hring, fun hf => .of_leads h (hforsakes hf)⟩

/-- A move that settles nothing is part of a course. -/
theorem leads_pop (s : Course n α) : s.Leads (s.step .pop) := by
  refine ⟨[.pop], rfl, fun pos hpos => ?_⟩
  unfold step
  simp only
  split <;> exact hpos

theorem leads_claim (s : Course n α) : s.Leads (s.step .claim) := by
  refine ⟨[.claim], rfl, fun pos hpos => ?_⟩
  unfold step
  simp only
  split
  · exact List.mem_cons_of_mem _ hpos
  · exact hpos

/-- Settling a position that was not yet taken leaves the others that are being built. -/
theorem Leads.settle {s' : Course n α} (hs : s.Sound) (h : s.Leads s') {pos : Nat}
    (hpos : s.taken ≤ pos) (move : Move α)
    (hmove : (∃ v, move = .fill pos v) ∨ move = .abandon pos) : s.Leads (s'.step move) := by
  obtain ⟨moves, rfl, hkeeps⟩ := h
  refine ⟨moves ++ [move], s.after_append moves [move], fun q hq => ?_⟩
  have hne : q ≠ pos := Nat.ne_of_lt (Nat.lt_of_lt_of_le (hs.building_lt hq) hpos)
  have hmem := hkeeps q hq
  obtain ⟨v, rfl⟩ | rfl := hmove
  · unfold step
    simp only
    split
    · exact List.mem_filter.mpr ⟨hmem, decide_eq_true hne⟩
    · exact hmem
  · unfold step
    simp only
    split
    · exact List.mem_filter.mpr ⟨hmem, decide_eq_true hne⟩
    · exact hmem

/-! ### One call -/

section calls

variable {σ ι : Type}

/-- The caller's code, whatever it does to a ring, goes through moves. -/
def Calls (make : σ → Ring n α → Option α × σ × Ring n α) : Prop :=
  ∀ (s : Course n α) (own : σ), s.Sound → s.Explains False (make own s.ring).2.2

/-- A push that builds its element. -/
theorem emplace_explains {make : σ → Ring n α → Option α × σ × Ring n α} (hmake : Calls make)
    (hs : s.Sound) (own : σ) :
    s.Explains ((s.ring.emplace make own).1 = .failed) (s.ring.emplace make own).2.2 := by
  unfold Ring.emplace
  rcases hanswer : s.ring.admitPush with pos | _ | _
  case refused | spinning => exact .refl s (by simp)
  case granted =>
    obtain rfl := hs.eq_of_granted hanswer
    have hclaim : (s.step .claim).ring = s.ring.advanceTail := by simp only [step, hanswer]
    have hown : s.taken ∈ (s.step .claim).building := by simp only [step, hanswer]; exact .head _
    obtain ⟨s', hleads, hring, -⟩ := hmake (s.step .claim) own (hs.step .claim)
    have hown' : s.taken ∈ s'.building := by
      obtain ⟨-, -, hkeeps⟩ := hleads
      exact hkeeps _ hown
    have hfrom := s.leads_claim.trans hleads
    rw [hclaim] at hring
    rcases hmade : make own s.ring.advanceTail with ⟨_ | v, own', r'⟩ <;> rw [hmade] at hring
    · -- the last move leaves the ring as the caller's code left it
      refine ⟨s'.step (.abandon s.taken), hfrom.settle hs (Nat.le_refl _) _ (.inr rfl), ?_, ?_⟩
      · simp only [step, if_pos hown']
        exact hring
      · intro _
        obtain ⟨moves, rfl, -⟩ := hfrom
        exact ⟨moves, s.taken, rfl, hown', Nat.le_refl _⟩
    · refine ⟨s'.step (.fill s.taken v), hfrom.settle hs (Nat.le_refl _) _ (.inl ⟨v, rfl⟩),
        ?_, by simp⟩
      simp only [step, if_pos hown']
      rw [hring]

/-- A batch. -/
theorem pushCopies_explains {copy : ι → σ → Ring n α → Option α × σ × Ring n α}
    (hcopy : ∀ item, Calls (copy item)) (items : List ι) (hs : s.Sound) (count : Nat) (own : σ) :
    s.Explains ((s.ring.pushCopies copy items count own).1 = .failed)
      (s.ring.pushCopies copy items count own).2.2 := by
  induction items generalizing s count own with
  | nil => exact .refl s (by simp [Ring.pushCopies])
  | cons item items ih =>
      obtain ⟨s', hleads, hring, hforsakes⟩ := emplace_explains (hcopy item) hs own
      unfold Ring.pushCopies
      rcases hemplace : s.ring.emplace (copy item) own with ⟨outcome, own', r⟩
      rw [hemplace] at hring hforsakes
      cases outcome with
      | pushed =>
          subst hring
          exact .trans hleads (ih (hleads.sound hs) _ _)
      | full => exact ⟨s', hleads, hring, by simp⟩
      | failed => exact ⟨s', hleads, hring, fun _ => hforsakes rfl⟩
      | spinning => exact ⟨s', hleads, hring, by simp⟩

end calls

theorem push_explains (hs : s.Sound) (v : α) :
    s.Explains ((s.ring.push v).1 = .failed) (s.ring.push v).2 := by
  have hmake : Calls (fun (own : Unit) (r : Ring n α) => (some v, own, r)) :=
    fun s _ _ => .refl s id
  exact emplace_explains hmake hs ()

theorem pop_explains (s : Course n α) : s.Explains False s.ring.pop.2 := by
  refine ⟨s.step .pop, s.leads_pop, ?_, False.elim⟩
  simp only [step, Ring.pop]
  cases s.ring.admitPop <;> rfl

theorem popUpTo_explains (s : Course n α) (limit : Nat) :
    s.Explains False (s.ring.popUpTo limit).2 := by
  induction limit generalizing s with
  | zero => exact .refl s id
  | succ limit ih =>
      obtain ⟨s', hleads, hring, -⟩ := s.pop_explains
      unfold Ring.popUpTo
      rcases hpop : s.ring.pop with ⟨outcome, r⟩
      rw [hpop] at hring
      subst hring
      cases outcome with
      | popped v => exact .trans hleads (ih s')
      | empty | spinning => exact ⟨s', hleads, rfl, False.elim⟩

/-! ### Commands -/

section commands

variable {run : Runner n α}

/-- Building the element, or making a copy, failed. -/
def Failed : Reply α → Prop
  | .buildFailed | .copyFailed => True
  | _ => False

instance : (reply : Reply α) → Decidable (Failed reply)
  | .buildFailed | .copyFailed => .isTrue trivial
  | .capacity _ | .pushed | .full _ | .unbuilt | .fullAndFailed | .pushedMany _ | .popped _
  | .empty | .poppedMany _ _ | .spinning | .tooDeep => .isFalse id

/-- What the runner does to a ring, it does through moves. -/
def Runs (run : Runner n α) : Prop :=
  ∀ (command : Command α) (s : Course n α), s.Sound →
    s.Explains (Failed (run command s.ring).reply) (run command s.ring).ring

theorem Runs.runAll (hrun : Runs run) (commands : List (Command α)) (hs : s.Sound) :
    s.Explains False (runAll run commands s.ring).2 := by
  induction commands generalizing s with
  | nil => exact .refl s id
  | cons command commands ih =>
      obtain ⟨s', hleads, hring, -⟩ := hrun command s hs
      have hrest := Explains.trans hleads (ih (hleads.sound hs))
      rw [hring] at hrest
      exact hrest

theorem Runs.runBefore (hrun : Runs run) (before : List (Command α)) (events : List (Event α))
    (hs : s.Sound) : s.Explains False (runBefore run before events s.ring).2 := by
  cases before with
  | nil => exact .refl s id
  | cons command commands => exact hrun.runAll (command :: commands) hs

theorem Runs.build (hrun : Runs run) (before : List (Command α)) (result : Option α) :
    Calls (build run before result) :=
  fun _ events hs => hrun.runBefore before (events ++ [Event.building]) hs

theorem Runs.makeCopy (hrun : Runs run) (watched : Bool) (copy : Copy α) :
    Calls (makeCopy watched run copy) := by
  intro s events hs
  obtain ⟨value, before, fails⟩ := copy
  have hbefore := hrun.runBefore before events hs
  unfold Mpmc.makeCopy
  simp only
  split
  · exact hbefore
  · split <;> exact hbefore

/-- A command, when those inside it go through moves. -/
theorem Runs.runWith (hrun : Runs run) (watched : Bool) : Runs (runWith watched run) := by
  intro command s hs
  cases command with
  | capacity => exact .refl s id
  | push v =>
      refine (push_explains hs v).imp ?_
      simp only [Mpmc.runWith]
      cases (s.ring.push v).1 <;> simp [Failed]
  | emplace before result callBack =>
      have hbuild := hrun.build before result
      obtain ⟨s', hleads, hring, hforsakes⟩ := emplace_explains hbuild hs ([] : List (Event α))
      unfold Mpmc.runWith
      simp only [storing_eq]
      rcases hemplace : s.ring.emplace (Mpmc.build run before result) [] with ⟨outcome, events, r⟩
      rw [hemplace] at hring hforsakes
      subst hring
      cases outcome with
      | pushed => exact ⟨s', hleads, rfl, False.elim⟩
      | failed => exact ⟨s', hleads, rfl, fun _ => hforsakes rfl⟩
      | spinning => exact ⟨s', hleads, rfl, False.elim⟩
      | full =>
          -- the caller builds its element for itself, from where the ring is now
          have hagain := Explains.trans hleads (hbuild s' events (hleads.sound hs))
          cases callBack with
          | true => cases result <;> exact hagain
          | false => exact ⟨s', hleads, rfl, False.elim⟩
  | pushBatch copies =>
      simp only [Mpmc.runWith, storing_eq]
      refine (pushCopies_explains (fun copy => hrun.makeCopy watched copy) copies hs 0
        ([] : List (Event α))).imp ?_
      cases (s.ring.pushCopies (Mpmc.makeCopy watched run) copies 0 []).1 <;> simp [Failed]
  | pop =>
      refine s.pop_explains.imp ?_
      simp only [Mpmc.runWith]
      cases s.ring.pop.1 <;> exact id
  | popBatch limit out => exact s.popUpTo_explains (min limit.toNat n.size)

/-- Commands go through moves, however deep they are nested. -/
theorem runCommand_runs (watched : Bool) (fuel : Nat) :
    Runs (runCommand watched fuel : Runner n α) := by
  induction fuel with
  | zero => exact fun _ s _ => .refl s id
  | succ fuel ih => exact ih.runWith watched

end commands

end Course

end LockFreeRings.Mpmc
