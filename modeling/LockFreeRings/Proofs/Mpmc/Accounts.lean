import LockFreeRings.Proofs.Mpmc.Books
set_option autoImplicit false

/-!
# The ledger through the five changes

A step of a call changes the ring and the positions in one of five ways, or not at
all.  Each lemma here says that one such change keeps `System.Ledger`: the slots
of published positions hold the elements that the history names, the pushes that
have returned are those whose positions were published, and the pops that have
returned those whose positions were released.
-/

namespace LockFreeRings.Mpmc.System

variable {n : SlotCount} {α ι : Type} {s s' : System n α ι}

namespace Ledger

theorem pos_lt (h : s.Ledger) {f : Filling α} (hf : f ∈ s.fillings) :
    f.pos < s.positions.tails := by
  have : f.pos ∈ s.fillings.map Filling.pos := List.mem_map_of_mem hf
  rw [h.fillings_pos] at this
  exact List.mem_range.mp this

theorem emptying_pos_lt (h : s.Ledger) {e : Emptying} (he : e ∈ s.emptyings) :
    e.pos < s.positions.heads := by
  have : e.pos ∈ s.emptyings.map Emptying.pos := List.mem_map_of_mem he
  rw [h.emptyings_pos] at this
  exact List.mem_range.mp this

theorem fillings_pos_nodup (h : s.Ledger) : (s.fillings.map Filling.pos).Nodup := by
  rw [h.fillings_pos]
  exact List.nodup_range

/-- A position was taken by one push. -/
theorem filling_inj (h : s.Ledger) {f g : Filling α} (hf : f ∈ s.fillings)
    (hg : g ∈ s.fillings) (heq : f.pos = g.pos) : f = g :=
  List.inj_on_of_nodup_map h.fillings_pos_nodup hf hg heq

/-- A position was taken by one pop. -/
theorem emptying_inj (h : s.Ledger) {e d : Emptying} (he : e ∈ s.emptyings)
    (hd : d ∈ s.emptyings) (heq : e.pos = d.pos) : e = d := by
  refine List.inj_on_of_nodup_map ?_ he hd heq
  rw [h.emptyings_pos]
  exact List.nodup_range

/-- Every position below the tail was taken by some push. -/
theorem exists_filling (h : s.Ledger) {q : Nat} (hq : q < s.positions.tails) :
    ∃ f ∈ s.fillings, f.pos = q := by
  have : q ∈ s.fillings.map Filling.pos := by
    rw [h.fillings_pos]
    exact List.mem_range.mpr hq
  exact List.mem_map.mp this

/-! ## Elements that have come to a stage -/

theorem reached_of_agree {P : Stage → Bool} (hfill : s'.fillings = s.fillings)
    (h : ∀ f ∈ s.fillings, P (s'.positions.stage f.pos) = P (s.positions.stage f.pos)) :
    s'.reached P = s.reached P := by
  rw [reached, hfill]
  exact List.filter_congr h

/-- A position that is taken anew has not come far. -/
theorem reached_append {P : Stage → Bool} {f : Filling α}
    (hfill : s'.fillings = s.fillings ++ [f])
    (h : ∀ g ∈ s.fillings, s'.positions.stage g.pos = s.positions.stage g.pos)
    (hf : P (s'.positions.stage f.pos) = false) : s'.reached P = s.reached P := by
  rw [reached, hfill, List.filter_append, List.filter_cons_of_neg (by simp [hf]),
    List.filter_nil, List.append_nil]
  exact List.filter_congr fun g hg => by rw [h g hg]

/-- A position that comes to a stage of the kind is one more. -/
theorem reached_settle (h : s.Ledger) {P : Stage → Bool} {f : Filling α} {stage : Stage}
    (hf : f ∈ s.fillings) (hfill : s'.fillings = s.fillings)
    (hstage : ∀ q, s'.positions.stage q = if q = f.pos then stage else s.positions.stage q)
    (hold : P (s.positions.stage f.pos) = false) (hnew : P stage = true) :
    (s'.reached P).Perm (f :: s.reached P) := by
  rw [reached, hfill]
  refine filter_perm_cons (.of_map _ h.fillings_pos_nodup) hf hold ?_ fun g hg hne => ?_
  · rw [hstage, if_pos rfl, hnew]
  · rw [hstage, if_neg fun heq => hne (h.filling_inj hg hf heq)]

/-- A position that stays on the same side leaves the others as they are. -/
theorem reached_settle_of_eq {P : Stage → Bool} {q : Nat} {stage : Stage}
    (hfill : s'.fillings = s.fillings)
    (hstage : ∀ w, s'.positions.stage w = if w = q then stage else s.positions.stage w)
    (hsame : P stage = P (s.positions.stage q)) : s'.reached P = s.reached P := by
  refine reached_of_agree hfill fun g hg => ?_
  rw [hstage]
  split
  · next heq => rw [hsame, heq]
  · rfl

/-! ## Changes -/

/-- A step that changes nothing but who does what. -/
theorem congr (h : s.Ledger) (hring : s'.ring = s.ring) (hpos : s'.positions = s.positions)
    (hfill : s'.fillings = s.fillings) (hempt : s'.emptyings = s.emptyings)
    (hpushed : s'.pushed = s.pushed) (hpopped : s'.popped = s.popped) : s'.Ledger := by
  constructor
  · rw [hring, hpos]
    exact h.follows
  · rw [hfill, hpos]
    exact h.fillings_pos
  · rw [hempt, hpos]
    exact h.emptyings_pos
  · rw [hfill, hpos, hring]
    exact h.stored
  · rw [hpushed, reached_of_agree hfill fun f _ => by rw [hpos]]
    exact h.pushed_perm
  · rw [hpopped, reached_of_agree hfill fun f _ => by rw [hpos]]
    exact h.popped_perm

/-- A push takes the next position. -/
theorem claim (h : s.Ledger) {f : Filling α} (hf : f.pos = s.positions.tails)
    (hfree : s.positions.lastLap n.size s.positions.tails = .released)
    (hring : s'.ring = s.ring.advanceTail)
    (hpos : s'.positions = s.positions.claim s.positions.tails)
    (hfill : s'.fillings = s.fillings ++ [f]) (hempt : s'.emptyings = s.emptyings)
    (hpushed : s'.pushed = s.pushed) (hpopped : s'.popped = s.popped) : s'.Ledger := by
  have hold : ∀ g ∈ s.fillings, s'.positions.stage g.pos = s.positions.stage g.pos := by
    intro g hg
    rw [hpos, Positions.stage_claim, if_neg (h.pos_lt hg).ne]
  have hnew : s'.positions.stage f.pos = .claimed := by
    rw [hpos, Positions.stage_claim, if_pos hf]
  constructor
  · rw [hring, hpos]
    exact h.follows.advanceTail hfree
  · rw [hfill, hpos, List.map_append, h.fillings_pos, Positions.tails_claim, List.range_succ,
      List.map_singleton, hf]
  · rw [hempt, hpos]
    exact h.emptyings_pos
  · intro g hg hs
    rw [hfill, List.mem_append, List.mem_singleton] at hg
    rcases hg with hg | rfl
    · rw [hold g hg] at hs
      rw [hring, Ring.valueAt_advanceTail]
      exact h.stored g hg hs
    · rw [hnew] at hs
      rcases hs with hs | hs <;> cases hs
  · rw [hpushed, reached_append hfill hold (by rw [hnew]; rfl)]
    exact h.pushed_perm
  · rw [hpopped, reached_append hfill hold (by rw [hnew]; rfl)]
    exact h.popped_perm

/-- A push stores an element in the slot of the position that it has taken. -/
theorem store (h : s.Ledger) {q : Nat} (hq : s.positions.stage q = .claimed) (v : α)
    (hring : s'.ring = s.ring.store (UInt64.ofNat q) v) (hpos : s'.positions = s.positions)
    (hfill : s'.fillings = s.fillings) (hempt : s'.emptyings = s.emptyings)
    (hpushed : s'.pushed = s.pushed) (hpopped : s'.popped = s.popped) : s'.Ledger := by
  constructor
  · rw [hring, hpos]
    exact h.follows.store _ v
  · rw [hfill, hpos]
    exact h.fillings_pos
  · rw [hempt, hpos]
    exact h.emptyings_pos
  · rw [hfill, hpos, hring]
    intro f hf hs
    have hne : q ≠ f.pos := by
      rintro rfl
      rw [hq] at hs
      rcases hs with hs | hs <;> cases hs
    rw [Ring.valueAt_store, if_neg (h.follows.index_ne (.inl hq) (.inr hs) hne)]
    exact h.stored f hf hs
  · rw [hpushed, reached_of_agree hfill fun f _ => by rw [hpos]]
    exact h.pushed_perm
  · rw [hpopped, reached_of_agree hfill fun f _ => by rw [hpos]]
    exact h.popped_perm

/-- Settling the position of one filling leaves those of the others alone. -/
theorem stage_of_ne (h : s.Ledger) {f g : Filling α} (hf : f ∈ s.fillings) {stage : Stage}
    (hstage : ∀ q, s'.positions.stage q = if q = f.pos then stage else s.positions.stage q)
    (hg : g ∈ s.fillings) (hne : g ≠ f) :
    s'.positions.stage g.pos = s.positions.stage g.pos := by
  rw [hstage, if_neg fun heq => hne (h.filling_inj hg hf heq)]

/-- A push publishes the element that it has stored, and returns. -/
theorem publish (h : s.Ledger) {f : Filling α} (hf : f ∈ s.fillings)
    (hc : s.positions.stage f.pos = .claimed)
    (hv : s.ring.valueAt (UInt64.ofNat f.pos) = f.value)
    (hring : s'.ring = s.ring.publish (UInt64.ofNat f.pos))
    (hpos : s'.positions = s.positions.settle f.pos .published)
    (hfill : s'.fillings = s.fillings) (hempt : s'.emptyings = s.emptyings)
    (hpushed : s'.pushed = s.pushed ++ [f.value]) (hpopped : s'.popped = s.popped) :
    s'.Ledger := by
  have hstage : ∀ q, s'.positions.stage q =
      if q = f.pos then .published else s.positions.stage q := by
    intro q
    rw [hpos, Positions.stage_settle]
  constructor
  · rw [hring, hpos]
    exact h.follows.publish hc
  · rw [hfill, hpos]
    exact h.fillings_pos
  · rw [hempt, hpos]
    exact h.emptyings_pos
  · rw [hfill, hring]
    intro g hg hs
    rw [Ring.publish, Ring.valueAt_setSeq]
    by_cases hgf : g = f
    · rw [hgf, hv]
    · rw [h.stage_of_ne hf hstage hg hgf] at hs
      exact h.stored g hg hs
  · have hgain : (s'.reached Stage.isFilled).Perm (f :: s.reached Stage.isFilled) :=
      h.reached_settle hf hfill hstage (by rw [hc]; rfl) rfl
    rw [hpushed]
    exact (List.perm_append_comm.trans (h.pushed_perm.cons _)).trans (hgain.map _).symm
  · rw [hpopped, reached_settle_of_eq hfill hstage (by rw [hc]; rfl)]
    exact h.popped_perm

/-- A pop takes the oldest position. -/
theorem take (h : s.Ledger) {e : Emptying} (he : e.pos = s.positions.heads)
    (hp : s.positions.stage s.positions.heads = .published)
    (hring : s'.ring = s.ring.advanceHead)
    (hpos : s'.positions = s.positions.take s.positions.heads)
    (hfill : s'.fillings = s.fillings) (hempt : s'.emptyings = s.emptyings ++ [e])
    (hpushed : s'.pushed = s.pushed) (hpopped : s'.popped = s.popped) : s'.Ledger := by
  have hstage : ∀ q, s'.positions.stage q =
      if q = s.positions.heads then .taken else s.positions.stage q := by
    intro q
    rw [hpos, Positions.stage_take]
  constructor
  · rw [hring, hpos]
    exact h.follows.advanceHead hp
  · rw [hfill, hpos]
    exact h.fillings_pos
  · rw [hempt, hpos, List.map_append, h.emptyings_pos, Positions.heads_take, List.range_succ,
      List.map_singleton, he]
  · rw [hfill, hring]
    intro f hf hs
    rw [Ring.valueAt_advanceHead]
    refine h.stored f hf ?_
    rw [hstage] at hs
    split at hs
    · next heq => exact .inl (heq ▸ hp)
    · exact hs
  · rw [hpushed, reached_settle_of_eq hfill hstage (by rw [hp]; rfl)]
    exact h.pushed_perm
  · rw [hpopped, reached_settle_of_eq hfill hstage (by rw [hp]; rfl)]
    exact h.popped_perm

/-- A pop frees the slot of the position that it has taken, and returns the
element. -/
theorem release (h : s.Ledger) {f : Filling α} (hf : f ∈ s.fillings)
    (ht : s.positions.stage f.pos = .taken)
    (hring : s'.ring = s.ring.release (UInt64.ofNat f.pos))
    (hpos : s'.positions = s.positions.settle f.pos .released)
    (hfill : s'.fillings = s.fillings) (hempt : s'.emptyings = s.emptyings)
    (hpushed : s'.pushed = s.pushed) (hpopped : s'.popped = s.popped ++ [f.value]) :
    s'.Ledger := by
  have hstage : ∀ q, s'.positions.stage q =
      if q = f.pos then .released else s.positions.stage q := by
    intro q
    rw [hpos, Positions.stage_settle]
  constructor
  · rw [hring, hpos]
    exact h.follows.release ht
  · rw [hfill, hpos]
    exact h.fillings_pos
  · rw [hempt, hpos]
    exact h.emptyings_pos
  · rw [hfill, hring]
    intro g hg hs
    rw [Ring.release, Ring.valueAt_setSeq]
    by_cases hgf : g = f
    · rw [hgf, hstage, if_pos rfl] at hs
      rcases hs with hs | hs <;> cases hs
    · rw [h.stage_of_ne hf hstage hg hgf] at hs
      exact h.stored g hg hs
  · rw [hpushed, reached_settle_of_eq hfill hstage (by rw [ht]; rfl)]
    exact h.pushed_perm
  · have hgain : (s'.reached Stage.isEmptied).Perm (f :: s.reached Stage.isEmptied) :=
      h.reached_settle hf hfill hstage (by rw [ht]; rfl) rfl
    rw [hpopped]
    exact (List.perm_append_comm.trans (h.popped_perm.cons _)).trans (hgain.map _).symm

end Ledger

end LockFreeRings.Mpmc.System
