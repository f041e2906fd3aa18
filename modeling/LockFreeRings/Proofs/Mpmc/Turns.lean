import LockFreeRings.Proofs.Mpmc.Accounts
set_option autoImplicit false

/-!
# The roster through a step

A step belongs to one call.  `System.Turned` says what such a step may do to the
calls and to the history: the other threads stay where they are, what is added to
the history bears the number of the call, and what the others know still holds.
`Roster.turn` is the step lemma, and the rest of the module says why each of the
five changes of a ring leaves what the others know.
-/

namespace LockFreeRings.Mpmc.System

variable {n : SlotCount} {α ι : Type} {s s' : System n α ι} {t : ι} {a : Activity α}
  {next : Option (Activity α)}

theorem mem_fillings {f : Filling α} : f ∈ s.fillings ↔ .filling f ∈ s.history := by
  constructor
  · intro h
    obtain ⟨record, hr, hf⟩ := List.mem_filterMap.mp h
    cases record <;> cases hf
    exact hr
  · intro h
    exact List.mem_filterMap.mpr ⟨_, h, rfl⟩

theorem mem_emptyings {e : Emptying} : e ∈ s.emptyings ↔ .emptying e ∈ s.history := by
  constructor
  · intro h
    obtain ⟨record, hr, he⟩ := List.mem_filterMap.mp h
    cases record <;> cases he
    exact hr
  · intro h
    exact List.mem_filterMap.mpr ⟨_, h, rfl⟩

/-- What a step of the call `a` of the thread `t` may add to the history; `next`
is what becomes of the call. -/
def Owned (s' : System n α ι) (t : ι) (a : Activity α) (next : Option (Activity α)) :
    Record ι α → Prop
  | .began _ _ _ => False
  | .filling f => f.number = a.number ∧ a.request = .push f.value
  | .emptying e => e.number = a.number ∧ a.request = .pop
  | .returned number u request result =>
    number = a.number ∧ u = t ∧ request = a.request ∧ next = none ∧ s'.Kept number request result
  | .failed _ _ _ => True

/-- The thread `t` has taken a step of its call `a`, which has become `next`. -/
structure Turned (s s' : System n α ι) (t : ι) (a : Activity α)
    (next : Option (Activity α)) : Prop where
  was : s.active t = some a
  now : s'.active t = next
  others : ∀ u, u ≠ t → s'.active u = s.active u
  calls : s'.calls = s.calls
  same : ∀ b, next = some b → b.number = a.number ∧ b.request = a.request ∧
    b.tailsBefore = a.tailsBefore ∧ b.headsBefore = a.headsBefore
  kept : ∀ record ∈ s.history, record ∈ s'.history
  added : ∀ record ∈ s'.history, record ∈ s.history ∨ Owned s' t a next record
  fillings_number : (s'.fillings.map Filling.number).Nodup
  emptyings_number : (s'.emptyings.map Emptying.number).Nodup
  tails_le : s.positions.tails ≤ s'.positions.tails
  heads_le : s.positions.heads ≤ s'.positions.heads
  undisturbed : ∀ b, b.number ≠ a.number → Undisturbed s s' b
  backs : ∀ b, next = some b → s'.Backs b
  taken : ∀ q, s'.positions.stage q = .taken →
    (∃ b, next = some b ∧ Holds b ∧ b.seen = q) ∨
      (s.positions.stage q = .taken ∧ ¬(Holds a ∧ a.seen = q))

/-- Seen by another call, a step adds nothing to the history. -/
theorem Turned.extends (ht : Turned s s' t a next) {number : Nat} (hne : number ≠ a.number) :
    Extends s s' number where
  filling_mem f hf := mem_fillings.mpr (ht.kept _ (mem_fillings.mp hf))
  emptying_mem e he := mem_emptyings.mpr (ht.kept _ (mem_emptyings.mp he))
  filling_old f hf hn := by
    rcases ht.added _ (mem_fillings.mp hf) with hold | hown
    · exact mem_fillings.mpr hold
    · exact absurd (hn.symm.trans hown.1) hne
  emptying_old e he hn := by
    rcases ht.added _ (mem_emptyings.mp he) with hold | hown
    · exact mem_emptyings.mpr hold
    · exact absurd (hn.symm.trans hown.1) hne

namespace Roster

/-- Nothing that a step adds is the beginning of a call. -/
theorem began_of_turned (ht : Turned s s' t a next) {number : Nat} {u : ι}
    {request : Request α} (hb : .began number u request ∈ s'.history) :
    .began number u request ∈ s.history := by
  rcases ht.added _ hb with hold | hown
  · exact hold
  · exact hown.elim

/-- A call in progress after a step is the one that took it, or another. -/
theorem active_of_turned (h : s.Roster) (ht : Turned s s' t a next) {u : ι} {b : Activity α}
    (hb : s'.active u = some b) :
    (u = t ∧ next = some b) ∨ (u ≠ t ∧ s.active u = some b ∧ b.number ≠ a.number) := by
  by_cases hu : u = t
  · subst hu
    exact .inl ⟨rfl, ht.now.symm.trans hb⟩
  · rw [ht.others u hu] at hb
    exact .inr ⟨hu, hb, fun hn => hu (h.active_inj u t b a hb ht.was hn)⟩

/-- The calls agree with the history after a step. -/
theorem turn (h : s.Roster) (ht : Turned s s' t a next) : s'.Roster where
  fillings_number := ht.fillings_number
  emptyings_number := ht.emptyings_number
  filling_began f hf := by
    rcases ht.added _ (mem_fillings.mp hf) with hold | ⟨hn, hr⟩
    · obtain ⟨u, hu⟩ := h.filling_began f (mem_fillings.mpr hold)
      exact ⟨u, ht.kept _ hu⟩
    · refine ⟨t, ht.kept _ ?_⟩
      rw [hn, ← hr]
      exact h.active_began t a ht.was
  emptying_began e he := by
    rcases ht.added _ (mem_emptyings.mp he) with hold | ⟨hn, hr⟩
    · obtain ⟨u, hu⟩ := h.emptying_began e (mem_emptyings.mpr hold)
      exact ⟨u, ht.kept _ hu⟩
    · refine ⟨t, ht.kept _ ?_⟩
      rw [hn, ← hr]
      exact h.active_began t a ht.was
  began_lt number u request hb := by
    rw [ht.calls]
    exact h.began_lt number u request (began_of_turned ht hb)
  began_inj number u u' request request' hb hb' :=
    h.began_inj number u u' request request' (began_of_turned ht hb) (began_of_turned ht hb')
  returned_began number u request result hr := by
    rcases ht.added _ hr with hold | ⟨rfl, rfl, rfl, -, -⟩
    · exact ht.kept _ (h.returned_began number u request result hold)
    · exact ht.kept _ (h.active_began u a ht.was)
  returned_kept number u request result hr := by
    rcases ht.added _ hr with hold | ⟨-, -, -, -, hk⟩
    · have hne : number ≠ a.number :=
        (h.returned_inactive number u request result hold t a ht.was).symm
      exact (h.returned_kept number u request result hold).mono (ht.extends hne)
    · exact hk
  returned_inactive number u request result hr w b hb := by
    rcases ht.added _ hr with hold | ⟨rfl, rfl, -, hnone, -⟩
    · rcases active_of_turned h ht hb with ⟨-, hnext⟩ | ⟨-, hw, -⟩
      · rw [(ht.same b hnext).1]
        exact h.returned_inactive number u request result hold t a ht.was
      · exact h.returned_inactive number u request result hold w b hw
    · rcases active_of_turned h ht hb with ⟨-, hnext⟩ | ⟨-, -, hne⟩
      · rw [hnone] at hnext
        cases hnext
      · exact hne
  active_began u b hb := by
    rcases active_of_turned h ht hb with ⟨rfl, hnext⟩ | ⟨-, hu, -⟩
    · rw [(ht.same b hnext).1, (ht.same b hnext).2.1]
      exact ht.kept _ (h.active_began u a ht.was)
    · exact ht.kept _ (h.active_began u b hu)
  active_before u b hb := by
    have htails := ht.tails_le
    have hheads := ht.heads_le
    rcases active_of_turned h ht hb with ⟨rfl, hnext⟩ | ⟨-, hu, -⟩
    · have := h.active_before u a ht.was
      rw [(ht.same b hnext).2.2.1, (ht.same b hnext).2.2.2]
      omega
    · have := h.active_before u b hu
      omega
  active_backs u b hb := by
    rcases active_of_turned h ht hb with ⟨-, hnext⟩ | ⟨-, hu, hne⟩
    · exact ht.backs b hnext
    · exact (h.active_backs u b hu).mono (ht.extends hne) (ht.undisturbed b hne)
  active_inj u w b c hb hc hn := by
    rcases active_of_turned h ht hb with ⟨rfl, hnext⟩ | ⟨-, hu, hne⟩ <;>
      rcases active_of_turned h ht hc with ⟨rfl, hnext'⟩ | ⟨-, hw, hne'⟩
    · rfl
    · exact absurd (hn.symm.trans (ht.same b hnext).1) hne'
    · exact absurd (hn.trans (ht.same c hnext').1) hne
    · exact h.active_inj u w b c hu hw hn
  taken_held q hq := by
    rcases ht.taken q hq with ⟨b, hnext, hb⟩ | ⟨hold, hnot⟩
    · exact ⟨t, b, ht.now.trans hnext, hb⟩
    · obtain ⟨u, b, hu, hb⟩ := h.taken_held q hold
      have hne : u ≠ t := by
        rintro rfl
        cases ht.was.symm.trans hu
        exact hnot hb
      exact ⟨u, b, (ht.others u hne).trans hu, hb⟩

end Roster

/-! ## What the five changes leave to the others -/

namespace Undisturbed

variable {b : Activity α}

/-- A push that takes the next position. -/
theorem claim (h : s.Ledger) (hring : s'.ring = s.ring.advanceTail)
    (hpos : s'.positions = s.positions.claim s.positions.tails) : Undisturbed s s' b where
  tails_le := by rw [hpos]; exact Nat.le_succ _
  heads_le := by rw [hpos]; exact Nat.le_refl _
  free htails := by
    rw [hpos, Positions.tails_claim] at htails
    omega
  waiting _ hp := by
    have := h.follows.lt_tails (.inr (.inl hp))
    rw [hpos, Positions.stage_claim, if_neg (by omega)]
    exact hp
  claimed q v _ hq := by
    have := h.follows.lt_tails (.inl hq)
    rw [hpos, hring, Positions.stage_claim, if_neg (by omega)]
    exact ⟨hq, rfl⟩
  taken q _ hq := by
    have := h.follows.lt_tails (.inr (.inr hq))
    rw [hpos, Positions.stage_claim, if_neg (by omega)]
    exact hq

/-- A push that stores its element: the other positions in use have other slots. -/
theorem store (h : s.Ledger) {f : Filling α} (hf : f ∈ s.fillings) (hne : b.number ≠ f.number)
    (hc : s.positions.stage f.pos = .claimed) (v : α)
    (hring : s'.ring = s.ring.store (UInt64.ofNat f.pos) v) (hpos : s'.positions = s.positions) :
    Undisturbed s s' b where
  tails_le := by rw [hpos]
  heads_le := by rw [hpos]
  free _ hf := by rw [hpos]; exact hf
  waiting _ hp := by rw [hpos]; exact hp
  claimed q w hg hq := by
    have hqf : f.pos ≠ q := fun heq => hne (congrArg Filling.number (h.filling_inj hg hf heq.symm))
    rw [hpos, hring, Ring.valueAt_store, if_neg (h.follows.index_ne (.inl hc) (.inl hq) hqf)]
    exact ⟨hq, rfl⟩
  taken q _ hq := by rw [hpos]; exact hq

/-- A push that publishes its element. -/
theorem publish (h : s.Ledger) {f : Filling α} (hf : f ∈ s.fillings) (hne : b.number ≠ f.number)
    (hc : s.positions.stage f.pos = .claimed)
    (hring : s'.ring = s.ring.publish (UInt64.ofNat f.pos))
    (hpos : s'.positions = s.positions.settle f.pos .published) : Undisturbed s s' b where
  tails_le := by rw [hpos]; exact Nat.le_refl _
  heads_le := by rw [hpos]; exact Nat.le_refl _
  free _ hfree := by
    rw [Positions.lastLap] at hfree ⊢
    split
    · rfl
    · next hlap =>
      rw [if_neg hlap] at hfree
      rw [hpos, Positions.stage_settle, if_neg]
      · exact hfree
      · rintro heq
        rw [heq, hc] at hfree
        cases hfree
  waiting _ hp := by
    rw [hpos, Positions.stage_settle]
    split
    · rfl
    · exact hp
  claimed q v hg hq := by
    have hqf : q ≠ f.pos := fun heq => hne (congrArg Filling.number (h.filling_inj hg hf heq))
    rw [hpos, hring, Ring.publish, Ring.valueAt_setSeq, Positions.stage_settle, if_neg hqf]
    exact ⟨hq, rfl⟩
  taken q _ hq := by
    rw [hpos, Positions.stage_settle, if_neg]
    · exact hq
    · rintro rfl
      rw [hc] at hq
      cases hq

/-- A pop that takes the oldest position. -/
theorem take (hp : s.positions.stage s.positions.heads = .published)
    (hring : s'.ring = s.ring.advanceHead)
    (hpos : s'.positions = s.positions.take s.positions.heads) : Undisturbed s s' b where
  tails_le := by rw [hpos]; exact Nat.le_refl _
  heads_le := by rw [hpos]; exact Nat.le_succ _
  free _ hfree := by
    rw [Positions.lastLap] at hfree ⊢
    split
    · rfl
    · next hlap =>
      rw [if_neg hlap] at hfree
      rw [hpos, Positions.stage_take, if_neg]
      · exact hfree
      · rintro heq
        rw [heq, hp] at hfree
        cases hfree
  waiting hheads := by
    rw [hpos, Positions.heads_take] at hheads
    omega
  claimed q v _ hq := by
    rw [hpos, hring, Positions.stage_take, if_neg]
    · exact ⟨hq, rfl⟩
    · rintro rfl
      rw [hp] at hq
      cases hq
  taken q _ hq := by
    rw [hpos, Positions.stage_take]
    split
    · rfl
    · exact hq

/-- A pop that frees its slot. -/
theorem release (h : s.Ledger) {e : Emptying} (he : e ∈ s.emptyings) (hne : b.number ≠ e.number)
    (ht : s.positions.stage e.pos = .taken)
    (hring : s'.ring = s.ring.release (UInt64.ofNat e.pos))
    (hpos : s'.positions = s.positions.settle e.pos .released) : Undisturbed s s' b where
  tails_le := by rw [hpos]; exact Nat.le_refl _
  heads_le := by rw [hpos]; exact Nat.le_refl _
  free _ hfree := by
    rw [Positions.lastLap] at hfree ⊢
    split
    · rfl
    · next hlap =>
      rw [if_neg hlap] at hfree
      rw [hpos, Positions.stage_settle]
      split
      · rfl
      · exact hfree
  waiting _ hp := by
    rw [hpos, Positions.stage_settle, if_neg]
    · exact hp
    · intro heq
      rw [heq, ht] at hp
      cases hp
  claimed q v _ hq := by
    rw [hpos, hring, Ring.release, Ring.valueAt_setSeq, Positions.stage_settle, if_neg]
    · exact ⟨hq, rfl⟩
    · rintro rfl
      rw [ht] at hq
      cases hq
  taken q hd hq := by
    have hqe : q ≠ e.pos :=
      fun heq => hne (congrArg Emptying.number (h.emptying_inj hd he heq))
    rw [hpos, Positions.stage_settle, if_neg hqe]
    exact hq

end Undisturbed

end LockFreeRings.Mpmc.System
