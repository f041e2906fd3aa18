import LockFreeRings.Proofs.Mpmc.Slots
import LockFreeRings.Proofs.Mpmc.Threads
set_option autoImplicit false

/-!
# How a ring follows its positions

`Ring.Follows` ties the words of a ring to the counted positions.  The keystone is
its field `seq`: every slot is seen from the one position of the coming lap that
will use it next, and its sequence number tells how far the position one lap
before has come.  The slots of the first lap are free from the start, as if there
had been a lap before it.

Each of the five changes that steps make (a position is taken on the tail, filled,
published, taken on the head, released) keeps a ring in step with its positions, by
a lemma of its own.  `Follows.verdict_tail` says what a push finds at the current
tail, and `Follows.verdict_head` what a pop finds at the current head.
-/

namespace LockFreeRings.Mpmc

variable {n : SlotCount} {α : Type}

/-- The sequence number that position `q` leaves its slot with at a stage. -/
def Stage.seq (lap q : Nat) : Stage → Nat
  | .claimed => q
  | .published | .taken => q + 1
  | .unclaimed | .released => q + lap

theorem Stage.le_seq (lap q : Nat) (stage : Stage) : q ≤ stage.seq lap q := by
  cases stage <;> simp [Stage.seq]

theorem Stage.seq_le {lap : Nat} (h : 0 < lap) (q : Nat) (stage : Stage) :
    stage.seq lap q ≤ q + lap := by
  cases stage <;> simp [Stage.seq] <;> omega

/-- Only a slot that is free for the next lap says so. -/
theorem Stage.seq_eq_iff {lap : Nat} (h : 2 ≤ lap) (q : Nat) {stage : Stage}
    (hs : stage ≠ .unclaimed) : stage.seq lap q = q + lap ↔ stage = .released := by
  cases stage <;> simp [Stage.seq] at hs ⊢ <;> omega

namespace Positions

/-- The stage that the slot of position `q` was left in by the lap before. -/
def lastLap (p : Positions) (lap q : Nat) : Stage :=
  if q < lap then .released else p.stage (q - lap)

/-- The sequence number of the slot that position `q` will use next. -/
def seqBefore (p : Positions) (lap q : Nat) : Nat :=
  if q < lap then q else (p.stage (q - lap)).seq lap (q - lap)

/-- A position is in use from when it is taken until its slot is free again. -/
def InUse (p : Positions) (q : Nat) : Prop :=
  p.stage q = .claimed ∨ p.stage q = .published ∨ p.stage q = .taken

@[simp] theorem tails_settle (p : Positions) (q : Nat) (stage : Stage) :
    (p.settle q stage).tails = p.tails := rfl

@[simp] theorem heads_settle (p : Positions) (q : Nat) (stage : Stage) :
    (p.settle q stage).heads = p.heads := rfl

@[simp] theorem tails_claim (p : Positions) (q : Nat) : (p.claim q).tails = p.tails + 1 := rfl

@[simp] theorem heads_claim (p : Positions) (q : Nat) : (p.claim q).heads = p.heads := rfl

@[simp] theorem tails_take (p : Positions) (q : Nat) : (p.take q).tails = p.tails := rfl

@[simp] theorem heads_take (p : Positions) (q : Nat) : (p.take q).heads = p.heads + 1 := rfl

theorem stage_settle (p : Positions) (q : Nat) (stage : Stage) (w : Nat) :
    (p.settle q stage).stage w = if w = q then stage else p.stage w := by
  simp [settle, Function.update_apply]

theorem stage_claim (p : Positions) (q w : Nat) :
    (p.claim q).stage w = if w = q then .claimed else p.stage w :=
  p.stage_settle q .claimed w

theorem stage_take (p : Positions) (q w : Nat) :
    (p.take q).stage w = if w = q then .taken else p.stage w :=
  p.stage_settle q .taken w

theorem lastLap_of_lt (p : Positions) {lap q : Nat} (h : q < lap) :
    p.lastLap lap q = .released := if_pos h

theorem lastLap_add (p : Positions) (lap q : Nat) : p.lastLap lap (q + lap) = p.stage q := by
  rw [lastLap, if_neg (by omega), Nat.add_sub_cancel]

theorem seqBefore_of_lt (p : Positions) {lap q : Nat} (h : q < lap) :
    p.seqBefore lap q = q := if_pos h

theorem seqBefore_add (p : Positions) (lap q : Nat) :
    p.seqBefore lap (q + lap) = (p.stage q).seq lap q := by
  rw [seqBefore, if_neg (by omega), Nat.add_sub_cancel]

/-- What lies one lap before is the same as long as its stage is. -/
theorem seqBefore_congr {p p' : Positions} {lap q : Nat}
    (h : lap ≤ q → p'.stage (q - lap) = p.stage (q - lap)) :
    p'.seqBefore lap q = p.seqBefore lap q := by
  unfold seqBefore
  split
  · rfl
  · rw [h (by omega)]

/-- A free slot has the number of the position that will use it next. -/
theorem seqBefore_of_free {p : Positions} {lap q : Nat} (h : p.lastLap lap q = .released) :
    p.seqBefore lap q = q := by
  rcases Nat.lt_or_ge q lap with hlt | hge
  · exact p.seqBefore_of_lt hlt
  · obtain ⟨w, rfl⟩ := Nat.exists_eq_add_of_le' hge
    rw [lastLap_add] at h
    rw [seqBefore_add, h, Stage.seq]

theorem seqBefore_le {p : Positions} {lap : Nat} (h : 0 < lap) (q : Nat) :
    p.seqBefore lap q ≤ q := by
  rcases Nat.lt_or_ge q lap with hlt | hge
  · rw [p.seqBefore_of_lt hlt]
  · obtain ⟨w, rfl⟩ := Nat.exists_eq_add_of_le' hge
    rw [seqBefore_add]
    exact Stage.seq_le h w _

theorem le_seqBefore_add (p : Positions) (lap q : Nat) : q ≤ p.seqBefore lap q + lap := by
  rcases Nat.lt_or_ge q lap with hlt | hge
  · rw [p.seqBefore_of_lt hlt]
    omega
  · obtain ⟨w, rfl⟩ := Nat.exists_eq_add_of_le' hge
    have := Stage.le_seq lap w (p.stage w)
    rw [seqBefore_add]
    omega

end Positions

/-- The words of a ring are those of the counted positions. -/
structure Ring.Follows (r : Ring n α) (p : Positions) : Prop where
  tail : r.tail = UInt64.ofNat p.tails
  head : r.head = UInt64.ofNat p.heads
  heads_le : p.heads ≤ p.tails
  tails_le : p.tails ≤ p.heads + n.size
  unclaimed : ∀ q, p.tails ≤ q → p.stage q = .unclaimed
  waiting : ∀ q, p.heads ≤ q → q < p.tails → p.stage q = .claimed ∨ p.stage q = .published
  passed : ∀ q, q < p.heads → p.stage q = .taken ∨ p.stage q = .released
  reused : ∀ q, q + n.size < p.tails → p.stage q = .released
  seq : ∀ q, p.tails ≤ q → q < p.tails + n.size →
    r.seqAt (UInt64.ofNat q) = UInt64.ofNat (p.seqBefore n.size q)

namespace Ring.Follows

variable {r : Ring n α} {p : Positions}

/-- A new ring follows the positions of which none is taken. -/
theorem new (n : SlotCount) (blank : α) : (Ring.new n blank).Follows {} where
  tail := rfl
  head := rfl
  heads_le := Nat.le_refl 0
  tails_le := Nat.zero_le _
  unclaimed := fun _ _ => rfl
  waiting := fun _ _ hq => absurd hq (Nat.not_lt_zero _)
  passed := fun _ hq => absurd hq (Nat.not_lt_zero _)
  reused := fun _ hq => absurd hq (Nat.not_lt_zero _)
  seq := fun q _ hq => by
    have hq : q < n.size := by simpa using hq
    rw [Ring.seqAt_new blank hq, Positions.seqBefore_of_lt _ hq]

/-! ## Where positions in use lie -/

theorem lt_tails (h : r.Follows p) {q : Nat} (hq : p.InUse q) : q < p.tails := by
  by_contra hle
  have := h.unclaimed q (by omega)
  rcases hq with hq | hq | hq <;> rw [hq] at this <;> cases this

theorem tails_le_add (h : r.Follows p) {q : Nat} (hq : p.InUse q) : p.tails ≤ q + n.size := by
  by_contra hlt
  have := h.reused q (by omega)
  rcases hq with hq | hq | hq <;> rw [hq] at this <;> cases this

theorem heads_le_of_claimed (h : r.Follows p) {q : Nat} (hq : p.stage q = .claimed) :
    p.heads ≤ q := by
  by_contra hlt
  rcases h.passed q (by omega) with hp | hp <;> rw [hq] at hp <;> cases hp

theorem lt_heads_of_taken (h : r.Follows p) {q : Nat} (hq : p.stage q = .taken) :
    q < p.heads := by
  by_contra hle
  have hlt := h.lt_tails (.inr (.inr hq))
  rcases h.waiting q (by omega) hlt with hw | hw <;> rw [hq] at hw <;> cases hw

/-- Different positions in use have different slots. -/
theorem index_ne (h : r.Follows p) {q w : Nat} (hq : p.InUse q) (hw : p.InUse w)
    (hne : q ≠ w) : n.index (UInt64.ofNat q) ≠ n.index (UInt64.ofNat w) := by
  have hqt := h.lt_tails hq
  have hwt := h.lt_tails hw
  have hqn := h.tails_le_add hq
  have hwn := h.tails_le_add hw
  rcases Nat.lt_or_gt_of_ne hne with hlt | hlt
  · exact n.index_ofNat_ne hlt (by omega)
  · exact (n.index_ofNat_ne hlt (by omega)).symm

/-- Of the positions of the coming lap, the one that shares its slot with a
position in use comes one lap after it. -/
theorem eq_add_size (h : r.Follows p) {q w : Nat} (hq : p.InUse q) (hle : p.tails ≤ w)
    (hlt : w < p.tails + n.size)
    (hi : n.index (UInt64.ofNat q) = n.index (UInt64.ofNat w)) : w = q + n.size := by
  have hqt := h.lt_tails hq
  have hqn := h.tails_le_add hq
  rw [← n.index_ofNat_add_size q, n.index_ofNat_eq_iff] at hi
  rcases Nat.le_total w (q + n.size) with hwq | hwq
  · exact eq_of_mod_eq hwq (by omega) hi.symm
  · exact (eq_of_mod_eq hwq (by omega) hi).symm

/-- There is room for a position whose slot is free. -/
theorem tails_lt_of_free (h : r.Follows p) (hf : p.lastLap n.size p.tails = .released) :
    p.tails < p.heads + n.size := by
  by_contra hge
  have hpos := n.size_pos
  have heq : p.tails = p.heads + n.size := Nat.le_antisymm h.tails_le (by omega)
  rw [heq, Positions.lastLap_add] at hf
  rcases h.waiting p.heads (Nat.le_refl _) (by omega) with hw | hw <;> rw [hf] at hw <;> cases hw

/-- The sequence number of a position in use. -/
theorem seqAt_of_inUse (h : r.Follows p) {q : Nat} (hq : p.InUse q) :
    r.seqAt (UInt64.ofNat q) = UInt64.ofNat ((p.stage q).seq n.size q) := by
  have hqt := h.lt_tails hq
  have hqn := h.tails_le_add hq
  rw [← Ring.seqAt_congr r (n.index_ofNat_add_size q), h.seq _ hqn (by omega),
    Positions.seqBefore_add]

/-! ## Changes -/

/-- A push that takes the next position, whose slot is free. -/
theorem advanceTail (h : r.Follows p) (hf : p.lastLap n.size p.tails = .released) :
    r.advanceTail.Follows (p.claim p.tails) where
  tail := by rw [Ring.tail_advanceTail, h.tail, Positions.tails_claim, ofNat_succ]
  head := h.head
  heads_le := Nat.le_succ_of_le h.heads_le
  tails_le := h.tails_lt_of_free hf
  unclaimed q hq := by
    rw [Positions.tails_claim] at hq
    rw [Positions.stage_claim, if_neg (by omega), h.unclaimed q (by omega)]
  waiting q hh ht := by
    rw [Positions.tails_claim] at ht
    rw [Positions.stage_claim]
    split
    · exact .inl rfl
    · exact h.waiting q hh (by omega)
  passed q hq := by
    have := h.heads_le
    rw [Positions.heads_claim] at hq
    rw [Positions.stage_claim, if_neg (by omega)]
    exact h.passed q hq
  reused q hq := by
    have hpos := n.size_pos
    rw [Positions.tails_claim] at hq
    rw [Positions.stage_claim, if_neg (by omega)]
    rcases Nat.lt_or_ge (q + n.size) p.tails with hlt | hge
    · exact h.reused q hlt
    · have heq : q + n.size = p.tails := by omega
      rwa [← heq, Positions.lastLap_add] at hf
  seq q hle hlt := by
    have hpos := n.size_pos
    rw [Positions.tails_claim] at hle hlt
    rw [Ring.seqAt_advanceTail]
    rcases Nat.lt_or_ge q (p.tails + n.size) with hq | hq
    · rw [h.seq q (by omega) hq, Positions.seqBefore_congr]
      intro _
      rw [Positions.stage_claim, if_neg (by omega)]
    -- the slot of the position just taken is the last one of the coming lap
    · have heq : q = p.tails + n.size := by omega
      have hs := h.seq p.tails (Nat.le_refl _) (by omega)
      rw [heq, Ring.seqAt_congr r (n.index_ofNat_add_size _), hs, Positions.seqBefore_of_free hf,
        Positions.seqBefore_add, Positions.stage_claim, if_pos rfl, Stage.seq]

/-- A push that stores its element. -/
theorem store (h : r.Follows p) (pos : UInt64) (v : α) : (r.store pos v).Follows p where
  tail := h.tail
  head := h.head
  heads_le := h.heads_le
  tails_le := h.tails_le
  unclaimed := h.unclaimed
  waiting := h.waiting
  passed := h.passed
  reused := h.reused
  seq q hle hlt := by rw [Ring.seqAt_store, h.seq q hle hlt]

/-- The slot of a position in use changes its sequence number, and the position
its stage. -/
theorem seqAt_settle (h : r.Follows p) {q : Nat} (hq : p.InUse q) (stage : Stage) (seq : Nat)
    (hs : (p.settle q stage).seqBefore n.size (q + n.size) = seq) (w : Nat)
    (hle : p.tails ≤ w) (hlt : w < p.tails + n.size) :
    (r.setSeq (UInt64.ofNat q) (UInt64.ofNat seq)).seqAt (UInt64.ofNat w) =
      UInt64.ofNat ((p.settle q stage).seqBefore n.size w) := by
  rw [Ring.seqAt_setSeq]
  split
  · next hi => rw [h.eq_add_size hq hle hlt hi, hs]
  · next hi =>
    rw [h.seq w hle hlt, Positions.seqBefore_congr]
    intro hw
    rw [Positions.stage_settle, if_neg]
    intro heq
    apply hi
    rw [← n.index_ofNat_add_size q, show q + n.size = w by omega]

/-- A push that makes the element of its position visible. -/
theorem publish (h : r.Follows p) {q : Nat} (hq : p.stage q = .claimed) :
    (r.publish (UInt64.ofNat q)).Follows (p.settle q .published) where
  tail := h.tail
  head := h.head
  heads_le := h.heads_le
  tails_le := h.tails_le
  unclaimed w hw := by
    have := h.lt_tails (.inl hq)
    rw [Positions.tails_settle] at hw
    rw [Positions.stage_settle, if_neg (by omega), h.unclaimed w hw]
  waiting w hh ht := by
    rw [Positions.stage_settle]
    split
    · exact .inr rfl
    · exact h.waiting w hh ht
  passed w hw := by
    have := h.heads_le_of_claimed hq
    rw [Positions.heads_settle] at hw
    rw [Positions.stage_settle, if_neg (by omega)]
    exact h.passed w hw
  reused w hw := by
    have := h.tails_le_add (.inl hq)
    rw [Positions.tails_settle] at hw
    rw [Positions.stage_settle, if_neg (by omega)]
    exact h.reused w hw
  seq w hle hlt := by
    rw [Ring.publish, ← ofNat_succ]
    refine h.seqAt_settle (.inl hq) _ _ ?_ w hle hlt
    rw [Positions.seqBefore_add, Positions.stage_settle, if_pos rfl, Stage.seq]

/-- A pop that takes the oldest position, whose element is there. -/
theorem advanceHead (h : r.Follows p) (hq : p.stage p.heads = .published) :
    r.advanceHead.Follows (p.take p.heads) where
  tail := h.tail
  head := by rw [Ring.head_advanceHead, h.head, Positions.heads_take, ofNat_succ]
  heads_le := h.lt_tails (.inr (.inl hq))
  tails_le := by
    have := h.tails_le
    rw [Positions.tails_take, Positions.heads_take]
    omega
  unclaimed w hw := by
    have := h.lt_tails (.inr (.inl hq))
    rw [Positions.tails_take] at hw
    rw [Positions.stage_take, if_neg (by omega), h.unclaimed w hw]
  waiting w hh ht := by
    rw [Positions.heads_take] at hh
    rw [Positions.stage_take, if_neg (by omega)]
    exact h.waiting w (by omega) ht
  passed w hw := by
    rw [Positions.heads_take] at hw
    rw [Positions.stage_take]
    split
    · exact .inl rfl
    · exact h.passed w (by omega)
  reused w hw := by
    have := h.tails_le
    rw [Positions.tails_take] at hw
    rw [Positions.stage_take, if_neg (by omega)]
    exact h.reused w hw
  seq w hle hlt := by
    rw [Positions.tails_take] at hle hlt
    rw [Ring.seqAt_advanceHead, h.seq w hle hlt]
    congr 1
    -- a published and a taken position leave the same sequence number
    by_cases hw : w = p.heads + n.size
    · rw [hw, Positions.seqBefore_add, Positions.seqBefore_add, Positions.stage_take, if_pos rfl,
        hq, Stage.seq, Stage.seq]
    · symm
      apply Positions.seqBefore_congr
      intro _
      rw [Positions.stage_take, if_neg (by omega)]

/-- A pop that frees the slot of its position. -/
theorem release (h : r.Follows p) {q : Nat} (hq : p.stage q = .taken) :
    (r.release (UInt64.ofNat q)).Follows (p.settle q .released) where
  tail := h.tail
  head := h.head
  heads_le := h.heads_le
  tails_le := h.tails_le
  unclaimed w hw := by
    have := h.lt_tails (.inr (.inr hq))
    rw [Positions.tails_settle] at hw
    rw [Positions.stage_settle, if_neg (by omega), h.unclaimed w hw]
  waiting w hh ht := by
    have := h.lt_heads_of_taken hq
    rw [Positions.heads_settle] at hh
    rw [Positions.stage_settle, if_neg (by omega)]
    exact h.waiting w hh ht
  passed w hw := by
    rw [Positions.stage_settle]
    split
    · exact .inr rfl
    · exact h.passed w hw
  reused w hw := by
    have := h.tails_le_add (.inr (.inr hq))
    rw [Positions.tails_settle] at hw
    rw [Positions.stage_settle, if_neg (by omega)]
    exact h.reused w hw
  seq w hle hlt := by
    have hword : UInt64.ofNat q + n.word = UInt64.ofNat (q + n.size) := by
      rw [UInt64.ofNat_add]; rfl
    rw [Ring.release, hword]
    refine h.seqAt_settle (.inr (.inr hq)) _ _ ?_ w hle hlt
    rw [Positions.seqBefore_add, Positions.stage_settle, if_pos rfl, Stage.seq]

/-! ## Verdicts at the current cursors -/

/-- Every position up to the tail has been taken at some time. -/
theorem stage_ne_unclaimed (h : r.Follows p) {q : Nat} (hq : q < p.tails) :
    p.stage q ≠ .unclaimed := by
  intro hu
  rcases Nat.lt_or_ge q p.heads with hlt | hge
  · rcases h.passed q hlt with hs | hs <;> rw [hu] at hs <;> cases hs
  · rcases h.waiting q hge hq with hs | hs <;> rw [hu] at hs <;> cases hs

/-- A push that looks at the slot of the current tail finds it free, or behind. -/
theorem verdict_tail (h : r.Follows p) :
    verdict (r.seqAt (UInt64.ofNat p.tails)) (UInt64.ofNat p.tails) =
      if p.lastLap n.size p.tails = .released then .level else .behind := by
  have hpos := n.two_le_size
  have hle := n.size_le
  have hge := p.le_seqBefore_add n.size p.tails
  have hup := p.seqBefore_le n.size_pos p.tails
  rw [h.seq p.tails (Nat.le_refl _) (by omega), verdict_ofNat (by omega) (by omega)]
  by_cases hf : p.lastLap n.size p.tails = .released
  · rw [if_pos (Positions.seqBefore_of_free hf), if_pos hf]
  · have hlap : n.size ≤ p.tails := by
      by_contra hlt
      exact hf (p.lastLap_of_lt (by omega))
    obtain ⟨q, hq⟩ := Nat.exists_eq_add_of_le' hlap
    have hne : p.seqBefore n.size p.tails ≠ p.tails := by
      rw [hq, Positions.lastLap_add] at hf
      rw [hq, Positions.seqBefore_add, ne_eq,
        Stage.seq_eq_iff hpos q (h.stage_ne_unclaimed (by omega))]
      exact hf
    rw [if_neg hne, if_pos (by omega), if_neg hf]

/-- When all positions are taken on the head too, none of them is waiting for its
element. -/
theorem lt_seqBefore_add (h : r.Follows p) (heq : p.heads = p.tails) :
    p.tails < p.seqBefore n.size p.tails + n.size := by
  have hpos := n.size_pos
  rcases Nat.lt_or_ge p.tails n.size with hlt | hge
  · rw [p.seqBefore_of_lt hlt]
    omega
  · obtain ⟨q, hq⟩ := Nat.exists_eq_add_of_le' hge
    rw [hq, Positions.seqBefore_add]
    rcases h.passed q (by omega) with hs | hs <;> rw [hs, Stage.seq] <;> omega

/-- A pop that looks at the slot of the current head finds its element, or that
it is not there yet. -/
theorem verdict_head (h : r.Follows p) :
    verdict (r.seqAt (UInt64.ofNat p.heads)) (UInt64.ofNat (p.heads + 1)) =
      if p.stage p.heads = .published then .level else .behind := by
  have hpos := n.two_le_size
  have hle := n.size_le
  rcases Nat.lt_or_ge p.heads p.tails with hlt | hge
  · rcases h.waiting p.heads (Nat.le_refl _) hlt with hs | hs
    · rw [h.seqAt_of_inUse (.inl hs), hs, Stage.seq, verdict_ofNat (by omega) (by omega),
        if_neg (by omega), if_pos (by omega), if_neg (by decide)]
    · rw [h.seqAt_of_inUse (.inr (.inl hs)), hs, Stage.seq, verdict_ofNat (by omega) (by omega),
        if_pos rfl, if_pos rfl]
  -- nothing is taken beyond the head, so its slot was left by the lap before
  · have heq : p.heads = p.tails := Nat.le_antisymm h.heads_le hge
    have hlo := h.lt_seqBefore_add heq
    have hup := p.seqBefore_le n.size_pos p.tails
    rw [h.unclaimed p.heads hge, if_neg (by decide), heq, h.seq p.tails (Nat.le_refl _) (by omega),
      verdict_ofNat (by omega) (by omega), if_neg (by omega), if_pos (by omega)]

end Ring.Follows

end LockFreeRings.Mpmc
