import LockFreeRings.Proofs.Mpmc.Endings
import LockFreeRings.Proofs.Mpmc.Exchange
set_option autoImplicit false

/-!
# Every slot has one owner

A call owns the slot of its position from the moment it has moved a cursor until it
stores the sequence number of the slot: `Call.window` is that position.  In every
reachable state no two calls own one slot, and what another thread does leaves an owned
slot as it is.  A pop finds in its slot the element of the push that took the same
position, which has returned (`Reachable.exclusive`).
-/

namespace LockFreeRings.Mpmc

variable {n : SlotCount} {α ι : Type}

/-- The position whose slot a call owns. -/
def Call.window : Call α → Option UInt64
  | .pushStore _ pos | .pushPublish pos | .popTake pos | .popRelease pos _ => some pos
  | _ => none

/-- The thread that an action is of. -/
def Action.thread : Action ι α → ι
  | .begin t _ | .step t _ | .fail t => t

/-- A step of a call changes no slot but the one that the call owns. -/
theorem Call.slot_step (call : Call α) (spurious : Bool) (r : Ring n α) {pos : UInt64}
    (h : ∀ q, call.window = some q → n.index q ≠ n.index pos) :
    (call.step spurious r).1.slot pos = r.slot pos := by
  cases call with
  | pushExamine v q | popExamine q =>
      simp only [step]
      split <;> rfl
  | pushClaim v q | popClaim q =>
      simp only [step]
      split <;> rfl
  | pushStore v q => rw [step, Ring.slot_store, if_neg (h q rfl)]
  | pushPublish q => rw [step, Ring.publish, Ring.slot_setSeq, if_neg (h q rfl)]
  | popRelease q v => rw [step, Ring.release, Ring.slot_setSeq, if_neg (h q rfl)]
  | _ => rfl

namespace System

/-- Slots have one owner at a time, and pops find their elements. -/
structure Exclusive [DecidableEq ι] (s : System n α ι) : Prop where
  /-- a call in progress owns the slot of the position that it has taken -/
  owns : ∀ t a, s.active t = some a → ∀ pos, a.call.window = some pos ↔
    (∃ f ∈ s.fillings, f.number = a.number ∧ UInt64.ofNat f.pos = pos) ∨
      ∃ e ∈ s.emptyings, e.number = a.number ∧ UInt64.ofNat e.pos = pos
  /-- no other call owns that slot -/
  alone : ∀ t u a b p q, s.active t = some a → s.active u = some b →
    a.call.window = some p → b.call.window = some q → n.index p = n.index q → t = u
  /-- what the other threads do leaves the slot as it is -/
  untouched : ∀ t a pos, s.active t = some a → a.call.window = some pos →
    ∀ action, action.thread ≠ t → (s.act action).ring.slot pos = s.ring.slot pos
  /-- nobody owns the slot of a position that was given up -/
  abandoned : ∀ number u q, .failed number u q ∈ s.history → ∀ t a pos, s.active t = some a →
    a.call.window = some pos → n.index pos ≠ n.index (UInt64.ofNat q)
  /-- a pop that owns a slot finds what the push of the same position, which has
  returned, has stored -/
  finds : ∀ t a e, s.active t = some a → e ∈ s.emptyings → e.number = a.number →
    ∃ f ∈ s.fillings, f.pos = e.pos ∧ s.ring.valueAt (UInt64.ofNat e.pos) = f.value ∧
      ∃ u, .returned f.number u (.push f.value) .pushed ∈ s.history
  /-- the cursors count the positions that were taken -/
  tail : s.ring.tail = UInt64.ofNat s.fillings.length
  head : s.ring.head = UInt64.ofNat s.emptyings.length
  /-- the tail is not behind the head, and not more than a lap before it -/
  head_le : s.emptyings.length ≤ s.fillings.length
  tail_le : s.fillings.length ≤ s.emptyings.length + n.size

variable {s : System n α ι} {t u : ι} {a b : Activity α}

/-- A call that owns a slot has taken its position, to fill it or to empty it. -/
theorem Backs.of_window (hb : s.Backs a) {pos : UInt64} (hw : a.call.window = some pos) :
    (∃ v, s.Fills a pos v) ∨ s.Empties a pos := by
  cases hc : a.call with
  | pushStore v q =>
      simp only [Backs, hc] at hb
      rw [hc] at hw
      cases hw
      exact .inl ⟨v, hb⟩
  | pushPublish q =>
      simp only [Backs, hc] at hb
      rw [hc] at hw
      cases hw
      obtain ⟨v, hf, -⟩ := hb
      exact .inl ⟨v, hf⟩
  | popTake q =>
      simp only [Backs, hc] at hb
      rw [hc] at hw
      cases hw
      exact .inr hb
  | popRelease q v =>
      simp only [Backs, hc] at hb
      rw [hc] at hw
      cases hw
      exact .inr hb.1
  | _ =>
      rw [hc] at hw
      cases hw

/-- A push that has taken a position owns its slot. -/
theorem Roster.window_of_filling (h : s.Roster) (ha : s.active t = some a) {f : Filling α}
    (hf : f ∈ s.fillings) (hn : f.number = a.number) :
    a.call.window = some (UInt64.ofNat f.pos) := by
  have hb := h.active_backs t a ha
  have hr := h.request_of_filling ha hf hn
  have hsame : ∀ pos v, s.Fills a pos v → pos = UInt64.ofNat f.pos := by
    rintro pos v ⟨-, rfl, hg, -⟩
    rw [List.inj_on_of_nodup_map h.fillings_number hf hg hn]
  cases hc : a.call with
  | pushLoad v =>
      simp only [Backs, hc] at hb
      exact absurd hn (hb.2 f hf)
  | pushExamine v pos | pushClaim v pos =>
      simp only [Backs, hc] at hb
      exact absurd hn (hb.1.2 f hf)
  | pushStore v pos =>
      simp only [Backs, hc] at hb
      rw [Call.window, hsame pos v hb]
  | pushPublish pos =>
      simp only [Backs, hc] at hb
      obtain ⟨v, hfills, -⟩ := hb
      rw [Call.window, hsame pos v hfills]
  | _ => simp [Backs, hc, Waits, Empties, hr] at hb

/-- A pop that has taken a position owns its slot. -/
theorem Roster.window_of_emptying (h : s.Roster) (ha : s.active t = some a) {e : Emptying}
    (he : e ∈ s.emptyings) (hn : e.number = a.number) :
    a.call.window = some (UInt64.ofNat e.pos) := by
  have hb := h.active_backs t a ha
  have hr := h.request_of_emptying ha he hn
  have hsame : ∀ pos, s.Empties a pos → pos = UInt64.ofNat e.pos := by
    rintro pos ⟨-, rfl, hd, -⟩
    rw [List.inj_on_of_nodup_map h.emptyings_number he hd hn]
  cases hc : a.call with
  | popLoad =>
      simp only [Backs, hc] at hb
      exact absurd hn (hb.2 e he)
  | popExamine pos | popClaim pos =>
      simp only [Backs, hc] at hb
      exact absurd hn (hb.1.2 e he)
  | popTake pos =>
      simp only [Backs, hc] at hb
      rw [Call.window, hsame pos hb]
  | popRelease pos v =>
      simp only [Backs, hc] at hb
      rw [Call.window, hsame pos hb.1]
  | _ => simp [Backs, hc, Seeks, Fills, hr] at hb

namespace Sound

/-- A call that owns a slot is at a position in use. -/
theorem inUse_of_window (h : s.Sound) (ha : s.active t = some a) {pos : UInt64}
    (hw : a.call.window = some pos) :
    pos = UInt64.ofNat a.seen ∧ s.positions.InUse a.seen := by
  rcases (h.roster.active_backs t a ha).of_window hw with ⟨v, -, hpos, -, hc⟩ | ⟨-, hpos, -, ht⟩
  · exact ⟨hpos, .inl hc⟩
  · exact ⟨hpos, .inr (.inr ht)⟩

/-- The calls that own the slot of one position are one call. -/
theorem number_of_window (h : s.Sound) (ha : s.active t = some a) (hb : s.active u = some b)
    {p q : UInt64} (hp : a.call.window = some p) (hq : b.call.window = some q)
    (hseen : a.seen = b.seen) : a.number = b.number := by
  rcases (h.roster.active_backs t a ha).of_window hp with ⟨v, -, -, hf, hc⟩ | ⟨-, -, he, ht⟩ <;>
    rcases (h.roster.active_backs u b hb).of_window hq with ⟨w, -, -, hg, hc'⟩ | ⟨-, -, hd, ht'⟩
  · exact congrArg Filling.number (h.ledger.filling_inj hf hg hseen)
  · rw [hseen, ht'] at hc
    cases hc
  · rw [hseen, hc'] at ht
    cases ht
  · exact congrArg Emptying.number (h.ledger.emptying_inj he hd hseen)

/-- No two calls own one slot. -/
theorem alone (h : s.Sound) (ha : s.active t = some a) (hb : s.active u = some b) {p q : UInt64}
    (hp : a.call.window = some p) (hq : b.call.window = some q)
    (hindex : n.index p = n.index q) : t = u := by
  obtain ⟨rfl, hause⟩ := h.inUse_of_window ha hp
  obtain ⟨rfl, hbuse⟩ := h.inUse_of_window hb hq
  have hseen : a.seen = b.seen := by
    by_contra hne
    exact h.ledger.follows.index_ne hause hbuse hne hindex
  exact h.roster.active_inj t u a b ha hb (h.number_of_window ha hb hp hq hseen)

/-- A position that was given up keeps its slot. -/
theorem index_ne_of_failed (h : s.Sound) (e : s.Endings) {number q : Nat}
    (hfailed : .failed number u q ∈ s.history) (ha : s.active t = some a) {pos : UInt64}
    (hw : a.call.window = some pos) : n.index pos ≠ n.index (UInt64.ofNat q) := by
  obtain ⟨⟨v, hv⟩, hq⟩ := e.failed number u q hfailed
  obtain ⟨rfl, huse⟩ := h.inUse_of_window ha hw
  refine h.ledger.follows.index_ne huse (.inl hq) ?_
  rintro rfl
  rcases (h.roster.active_backs t a ha).of_window hw with ⟨w, -, -, hf, -⟩ | ⟨-, -, -, ht⟩
  · exact e.failed_inactive number u a.seen hfailed t a ha
      (congrArg Filling.number (h.ledger.filling_inj hf hv rfl))
  · rw [hq] at ht
    cases ht

/-- A pop that has taken a position finds there what the push of the position, which has
returned, has stored. -/
theorem finds (h : s.Sound) (hend : s.Endings) (ha : s.active t = some a) {e : Emptying}
    (he : e ∈ s.emptyings) (hn : e.number = a.number) :
    ∃ f ∈ s.fillings, f.pos = e.pos ∧ s.ring.valueAt (UInt64.ofNat e.pos) = f.value ∧
      ∃ u, .returned f.number u (.push f.value) .pushed ∈ s.history := by
  have hw := h.roster.window_of_emptying ha he hn
  have hr := h.roster.request_of_emptying ha he hn
  rcases (h.roster.active_backs t a ha).of_window hw with ⟨v, hr', -⟩ | hempties
  · cases hr.symm.trans hr'
  · obtain ⟨f, hf, hpos, hv⟩ := h.exists_taken hempties
    obtain ⟨-, -, hd, ht⟩ := hempties
    obtain rfl : e = ⟨a.number, a.seen⟩ :=
      List.inj_on_of_nodup_map h.roster.emptyings_number he hd hn
    exact ⟨f, hf, hpos, hv, hend.filled f hf (by rw [hpos, ht]; rfl)⟩

variable [DecidableEq ι]

/-- What the other threads do leaves an owned slot as it is. -/
theorem slot_act (h : s.Sound) (ha : s.active t = some a) {pos : UInt64}
    (hw : a.call.window = some pos) (action : Action ι α) (hthread : action.thread ≠ t) :
    (s.act action).ring.slot pos = s.ring.slot pos := by
  cases action with
  | begin u request =>
      cases hu : s.active u <;> simp [System.act, hu, System.begin]
  | fail u =>
      cases hu : s.active u with
      | none => simp [System.act, hu]
      | some b =>
          simp only [System.act, hu]
          split <;> rfl
  | step u spurious =>
      cases hu : s.active u with
      | none => simp [System.act, hu]
      | some b =>
          simp only [System.act, hu]
          refine b.call.slot_step spurious s.ring fun q hq hindex => hthread ?_
          exact h.alone hu ha hq hw hindex

end Sound

/-- Whatever the threads do and in whatever order their steps come, no two calls own one
slot, and a pop finds in its slot the element of the push of the same position. -/
theorem Reachable.exclusive [DecidableEq ι] (h : s.Reachable) : s.Exclusive := by
  have hsound := h.sound
  have hend := h.endings
  have hfillings := hsound.ledger.length_fillings
  have hemptyings := hsound.ledger.length_emptyings
  constructor
  case owns =>
    intro t a ha pos
    constructor
    · intro hw
      rcases (hsound.roster.active_backs t a ha).of_window hw with
        ⟨v, -, hpos, hf, -⟩ | ⟨-, hpos, he, -⟩
      · exact .inl ⟨_, hf, rfl, hpos.symm⟩
      · exact .inr ⟨_, he, rfl, hpos.symm⟩
    · rintro (⟨f, hf, hn, rfl⟩ | ⟨e, he, hn, rfl⟩)
      · exact hsound.roster.window_of_filling ha hf hn
      · exact hsound.roster.window_of_emptying ha he hn
  case alone => exact fun t u a b p q ha hb hp hq hi => hsound.alone ha hb hp hq hi
  case untouched => exact fun t a pos ha hw action hne => hsound.slot_act ha hw action hne
  case abandoned =>
    exact fun number u q hf t a pos ha hw => hsound.index_ne_of_failed hend hf ha hw
  case finds => exact fun t a e ha he hn => hsound.finds hend ha he hn
  case tail => rw [hfillings, hsound.ledger.follows.tail]
  case head => rw [hemptyings, hsound.ledger.follows.head]
  case head_le =>
    rw [hfillings, hemptyings]
    exact hsound.ledger.follows.heads_le
  case tail_le =>
    rw [hfillings, hemptyings]
    exact hsound.ledger.follows.tails_le

/-- On a ring of two slots, a push that has stored nothing yet behind one that has
returned, and a pop that has taken the element of the latter. -/
def crossing : List (Action Bool Nat) :=
  [.begin true (.push 7), .step true false, .step true false, .step true false,
    .step true false, .step true false, .begin true (.push 8), .step true false,
    .step true false, .step true false, .begin false .pop, .step false false,
    .step false false, .step false false]

theorem crossing_exclusive :
    (run ⟨1, by decide, by decide⟩ 0 crossing).Reachable ∧
      (run ⟨1, by decide, by decide⟩ 0 crossing).Exclusive ∧
      ((run ⟨1, by decide, by decide⟩ 0 crossing).active true).map (·.call.window) =
        some (some 1) ∧
      ((run ⟨1, by decide, by decide⟩ 0 crossing).active false).map (·.call.window) =
        some (some 0) :=
  have h : (run ⟨1, by decide, by decide⟩ 0 crossing).Reachable :=
    reachable_run _ _ _ (by simp [crossing])
  ⟨h, h.exclusive, by rfl, by rfl⟩

end System

end LockFreeRings.Mpmc
