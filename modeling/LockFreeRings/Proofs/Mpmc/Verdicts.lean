import LockFreeRings.Proofs.Mpmc.Instants
set_option autoImplicit false

/-!
# A refusal is right at one instant

A push that is told that the ring is full, and a pop that is told that it is empty, have
compared the sequence number of a slot with the cursor that they had read.  By then the
cursor may have moved on by any number of positions, so what they found need not be about
the present.

It is all the same.  A slot never goes back: seen from a position that the cursor has
passed, its number is level or ahead (`Follows.verdict_of_lt_tails`,
`Follows.verdict_of_lt_heads`).  So a number that is behind was seen from a cursor that
had not moved (`Sound.current_of_full`, `Sound.current_of_empty`), and at that instant the
ring was full, or had no element to give (`PacedRun.verdicts`).

Here the size of the ring matters: in a ring of `2 ^ 63` slots a number that is ahead by a
lap would seem to be behind.  Up to `2 ^ 57` slots it does not.
-/

namespace LockFreeRings.Mpmc

variable {n : SlotCount} {α ι : Type}

/-! ## Cursors that have moved on -/

namespace Ring.Follows

variable {r : Ring n α} {p : Positions}

/-- Every position that was taken has its slot in the coming lap, some laps later. -/
theorem exists_coming (h : r.Follows p) {q : Nat} (hq : q < p.tails) :
    ∃ laps, p.tails ≤ q + n.size * (laps + 1) ∧ q + n.size * (laps + 1) < p.tails + n.size ∧
      r.seqAt (UInt64.ofNat q) =
        UInt64.ofNat (p.seqBefore n.size (q + n.size * (laps + 1))) := by
  have hpos := n.size_pos
  have hdiv := Nat.div_add_mod (p.tails - q - 1) n.size
  have hmod := Nat.mod_lt (p.tails - q - 1) hpos
  have hle : p.tails ≤ q + n.size * ((p.tails - q - 1) / n.size + 1) := by
    rw [Nat.mul_succ]
    omega
  have hlt : q + n.size * ((p.tails - q - 1) / n.size + 1) < p.tails + n.size := by
    rw [Nat.mul_succ]
    omega
  refine ⟨(p.tails - q - 1) / n.size, hle, hlt, ?_⟩
  rw [← h.seq _ hle hlt]
  apply Ring.seqAt_congr
  rw [n.index_ofNat_eq_iff, Nat.add_mul_mod_self_left]

/-- The slot of a position that was taken has come at least as far as the position, and
further if a pop has taken it too. -/
theorem seqAt_of_lt_tails (h : r.Follows p) {q : Nat} (hq : q < p.tails) :
    ∃ m, r.seqAt (UInt64.ofNat q) = UInt64.ofNat m ∧ q ≤ m ∧ m < p.tails + n.size ∧
      (q < p.heads → q < m) := by
  have hsize := n.two_le_size
  obtain ⟨laps, hle, hlt, hseq⟩ := h.exists_coming hq
  refine ⟨_, hseq, ?_⟩
  have hup := p.seqBefore_le n.size_pos (q + n.size * (laps + 1))
  cases laps with
  -- the slot was used for the position itself, and for none after it
  | zero =>
      rw [Nat.zero_add, Nat.mul_one] at hlt hup ⊢
      rw [Positions.seqBefore_add] at hup ⊢
      have hlow := Stage.le_seq n.size q (p.stage q)
      refine ⟨hlow, by omega, ?_⟩
      intro hpassed
      rcases h.passed q hpassed with hs | hs <;> rw [hs, Stage.seq] <;> omega
  -- the slot was used for later positions
  | succ laps =>
      have hlow := p.le_seqBefore_add n.size (q + n.size * (laps + 1 + 1))
      rw [Nat.mul_succ, Nat.mul_succ] at hlow hlt hup ⊢
      omega

/-- A push that has read an old tail does not find the slot behind. -/
theorem verdict_of_lt_tails (h : r.Follows p) {q : Nat} (hq : q < p.tails)
    (hnear : p.tails + n.size ≤ q + 2 ^ 63) :
    verdict (r.seqAt (UInt64.ofNat q)) (UInt64.ofNat q) ≠ .behind := by
  obtain ⟨m, hseq, hle, hlt, -⟩ := h.seqAt_of_lt_tails hq
  rw [hseq, verdict_ofNat (by omega) (by omega)]
  split
  · simp
  · rw [if_neg (by omega)]
    simp

/-- A pop that has read an old head does not find the slot behind. -/
theorem verdict_of_lt_heads (h : r.Follows p) {q : Nat} (hq : q < p.heads)
    (hnear : p.tails + n.size ≤ q + 2 ^ 63) :
    verdict (r.seqAt (UInt64.ofNat q)) (UInt64.ofNat (q + 1)) ≠ .behind := by
  obtain ⟨m, hseq, -, hlt, hpassed⟩ := h.seqAt_of_lt_tails (hq.trans_le h.heads_le)
  have hgt := hpassed hq
  rw [hseq, verdict_ofNat (by omega) (by omega)]
  split
  · simp
  · rw [if_neg (by omega)]
    simp

end Ring.Follows

/-! ## Where refusals come from -/

variable {r : Ring n α} {call : Call α} {spurious : Bool}

/-- A push is refused where it finds its slot behind. -/
theorem Call.examined_of_full {v : α} (h : (call.step spurious r).2 = .returned (.full v)) :
    ∃ pos, call = .pushExamine v pos ∧ verdict (r.seqAt pos) pos = .behind := by
  cases call with
  | pushExamine w pos =>
      cases hv : verdict (r.seqAt pos) pos <;> simp [Call.step, hv] at h
      exact ⟨pos, by rw [h], hv⟩
  | popExamine pos => cases hv : verdict (r.seqAt pos) (pos + 1) <;> simp [Call.step, hv] at h
  | pushClaim w pos | popClaim pos =>
      simp only [Call.step] at h
      split at h <;> cases h
  | _ => simp [Call.step] at h

/-- A pop is refused where it finds its slot behind. -/
theorem Call.examined_of_empty (h : (call.step spurious r).2 = .returned .empty) :
    ∃ pos, call = .popExamine pos ∧ verdict (r.seqAt pos) (pos + 1) = .behind := by
  cases call with
  | popExamine pos =>
      cases hv : verdict (r.seqAt pos) (pos + 1) <;> simp [Call.step, hv] at h
      exact ⟨pos, rfl, hv⟩
  | pushExamine w pos => cases hv : verdict (r.seqAt pos) pos <;> simp [Call.step, hv] at h
  | pushClaim w pos | popClaim pos =>
      simp only [Call.step] at h
      split at h <;> cases h
  | _ => simp [Call.step] at h

namespace System

variable {s s' : System n α ι} {t : ι} {a : Activity α}

/-- The cursor of a push that is refused is the current one, and the slot is in use. -/
theorem Sound.current_of_full (h : s.Sound) (hpaced : s.Paced) (hsize : n.size ≤ 2 ^ 57)
    (ha : s.active t = some a) {pos : UInt64} (hsaw : a.SawTail s.positions pos)
    (hv : verdict (s.ring.seqAt pos) pos = .behind) :
    a.seen = s.positions.tails ∧ s.positions.lastLap n.size s.positions.tails ≠ .released := by
  obtain ⟨rfl, hbefore, hle⟩ := hsaw
  have hnear := (hpaced t a ha).1
  have hcurrent : a.seen = s.positions.tails := by
    refine Nat.le_antisymm hle (Nat.le_of_not_lt fun hlt => ?_)
    exact h.ledger.follows.verdict_of_lt_tails hlt (by omega) hv
  refine ⟨hcurrent, fun hfree => ?_⟩
  rw [hcurrent, h.ledger.follows.verdict_tail, if_pos hfree] at hv
  cases hv

/-- The cursor of a pop that is refused is the current one, and the element is not there. -/
theorem Sound.current_of_empty (h : s.Sound) (hpaced : s.Paced) (hsize : n.size ≤ 2 ^ 57)
    (ha : s.active t = some a) {pos : UInt64} (hsaw : a.SawHead s.positions pos)
    (hv : verdict (s.ring.seqAt pos) (pos + 1) = .behind) :
    a.seen = s.positions.heads ∧ s.positions.stage s.positions.heads ≠ .published := by
  obtain ⟨rfl, hbefore, hle⟩ := hsaw
  have hnear := (hpaced t a ha).2
  have hroom := h.ledger.follows.tails_le
  rw [← ofNat_succ] at hv
  have hcurrent : a.seen = s.positions.heads := by
    refine Nat.le_antisymm hle (Nat.le_of_not_lt fun hlt => ?_)
    exact h.ledger.follows.verdict_of_lt_heads hlt (by omega) hv
  refine ⟨hcurrent, fun hready => ?_⟩
  rw [hcurrent, h.ledger.follows.verdict_head, if_pos hready] at hv
  cases hv

/-! ## What a call that has returned has left -/

/-- A pop that holds a position has taken it. -/
theorem Backs.exists_empties (hb : s.Backs a) (hholds : Holds a) : ∃ pos, s.Empties a pos := by
  unfold Holds at hholds
  unfold Backs at hb
  split at hholds
  · next pos hc =>
    rw [hc] at hb
    exact ⟨pos, hb⟩
  · next pos v hc =>
    rw [hc] at hb
    exact ⟨pos, hb.1⟩
  · exact hholds.elim

/-- A pop that has returned has freed the slot of its position. -/
theorem Sound.released_of_returned (h : s.Sound) {e : Emptying} (he : e ∈ s.emptyings)
    {request : Request α} {result : Return α}
    (hr : .returned e.number t request result ∈ s.history) :
    s.positions.stage e.pos = .released := by
  refine (h.ledger.follows.passed e.pos (h.ledger.emptying_pos_lt he)).resolve_left ?_
  -- a position is taken as long as its pop is in progress
  intro htaken
  obtain ⟨u, b, hb, hholds, hseen⟩ := h.roster.taken_held e.pos htaken
  obtain ⟨pos, -, -, hmem, -⟩ := (h.roster.active_backs u b hb).exists_empties hholds
  have heq := h.ledger.emptying_inj hmem he hseen
  exact h.roster.returned_inactive _ _ _ _ hr u b hb (congrArg Emptying.number heq)

/-- Every push that has returned after it took a position has filled it. -/
def Filled (s : System n α ι) : Prop :=
  ∀ f ∈ s.fillings, ∀ t request result, .returned f.number t request result ∈ s.history →
    (s.positions.stage f.pos).isFilled = true

/-- A call that returns without having pushed has taken no position on the tail. -/
theorem Roster.not_filling_of_kept (h : s.Roster) (ha : s.active t = some a) {result : Return α}
    (hk : s.Kept a.number a.request result) (hpush : result ≠ .pushed) :
    ∀ f ∈ s.fillings, f.number ≠ a.number := by
  intro f hf hn
  have hrequest := h.request_of_filling ha hf hn
  rw [hrequest] at hk
  cases result with
  | pushed => exact hpush rfl
  | full v => exact hk.2 f hf hn
  | popped v => cases hk.1
  | empty => cases hk.1
  | truth b => rcases hk with hk | hk <;> cases hk
  | size count => cases hk

section Filled

variable [DecidableEq ι]

/-- A call that moves may fill its position when it returns. -/
theorem Filled.moved (c : s.Filled) (h : s.Sound) (ha : s.active t = some a)
    {next : Option (Activity α)} {ring : Ring n α} {positions : Positions}
    {extra : List (Record ι α)}
    (hstage : ∀ f ∈ s.fillings, (s.positions.stage f.pos).isFilled = true →
      (positions.stage f.pos).isFilled = true)
    (hreturn : ∀ number u request result, .returned number u request result ∈ extra →
      ∀ f ∈ s.fillings, f.number = number → (positions.stage f.pos).isFilled = true)
    (hnew : ∀ f, .filling f ∈ extra → f.number = a.number ∧ extra = [.filling f]) :
    (s.moved t next ring positions extra).Filled := by
  intro f hf u request result hr
  rw [mem_fillings, mem_history_moved] at hf
  rw [positions_moved]
  rcases (mem_history_moved s t next ring positions extra _).mp hr with hr | hr
  · rcases hf with hf | hf
    · exact hstage f (mem_fillings.mpr hf) (c f (mem_fillings.mpr hf) u request result hr)
    · have hn := (hnew f hf).1
      exact absurd hn.symm (h.roster.returned_inactive _ _ _ _ hr t a ha)
  · rcases hf with hf | hf
    · exact hreturn _ u request result hr f (mem_fillings.mpr hf) rfl
    · rw [(hnew f hf).2, List.mem_singleton] at hr
      cases hr

/-- Whatever an action comes to, pushes that have returned have filled their positions. -/
theorem Filled.comes (c : s.Filled) (h : s.Sound) (hcomes : s.Comes s') : s'.Filled := by
  -- a position that comes to a later stage stays filled
  have hsettle : ∀ q stage, stage.isFilled = true → ∀ f ∈ s.fillings,
      (s.positions.stage f.pos).isFilled = true →
        ((s.positions.settle q stage).stage f.pos).isFilled = true := by
    intro q stage hstage f _ hf
    rw [Positions.stage_settle]
    split
    · exact hstage
    · exact hf
  cases hcomes with
  | still => exact c
  | begin request idle =>
      intro f hf u request' result hr
      rw [fillings_begin] at hf
      rcases (mem_history_begin s _ request _).mp hr with hr | hr
      · exact c f hf u request' result hr
      · cases hr
  | giveUp active calls fills =>
      rw [giveUp_eq_moved]
      exact c.moved h active (fun _ _ => id) (by simp) (by simp)
  | goOn active call seen backs holds =>
      exact c.moved h active (fun _ _ => id) (by simp) (by simp)
  | leave active holds kept notPushed notPopped =>
      refine c.moved h active (fun _ _ => id) ?_ (by simp)
      intro number u request result hr f hf hn
      cases List.mem_singleton.mp hr
      exact absurd hn (h.roster.not_filling_of_kept active kept notPushed f hf)
  | claim active calls seeks word current free =>
      refine c.moved h active ?_ (by simp) (by simp)
      intro f hf hs
      have hlt := h.ledger.pos_lt hf
      rwa [Positions.stage_claim, if_neg (by omega)]
  | store active calls fills => exact c.moved h active (fun _ _ => id) (by simp) (by simp)
  | publish active calls fills stored =>
      refine c.moved h active (hsettle _ _ rfl) ?_ (by simp)
      intro number u request result hr f hf hn
      cases List.mem_singleton.mp hr
      obtain rfl := List.inj_on_of_nodup_map h.roster.fillings_number hf fills.2.2.1 hn
      rw [Positions.stage_settle, if_pos rfl]
      rfl
  | take active calls waits word current ready =>
      exact c.moved h active (hsettle _ _ rfl) (by simp) (by simp)
  | release active calls empties filling same =>
      refine c.moved h active (hsettle _ _ rfl) ?_ (by simp)
      intro number u request result hr f hf hn
      cases List.mem_singleton.mp hr
      have hrequest := h.roster.request_of_filling active hf hn
      rw [empties.1] at hrequest
      cases hrequest

/-- In every reachable state pushes that have returned have filled their positions. -/
theorem Reachable.filled (h : s.Reachable) : s.Filled := by
  induction h with
  | start blank => exact fun f hf => absurd hf List.not_mem_nil
  | act action hreach hpaced ih =>
      exact ih.comes hreach.sound (hreach.sound.comes hreach.paced action)

end Filled

/-! ## Verdicts -/

/-- The ring has no room: the slot of the next position to fill was taken by a push one
lap before, and no pop of that position has returned. -/
def NoRoom (s : System n α ι) : Prop :=
  ∃ f ∈ s.fillings, f.pos + n.size = s.fillings.length ∧
    ∀ e ∈ s.emptyings, e.pos = f.pos → ∀ t request result,
      .returned e.number t request result ∉ s.history

/-- The ring has nothing to give: no push has taken the next position to empty, or the one
that has taken it has not returned. -/
def NoElement (s : System n α ι) : Prop :=
  s.emptyings.length = s.fillings.length ∨
    ∃ f ∈ s.fillings, f.pos = s.emptyings.length ∧ ∀ t request result,
      .returned f.number t request result ∉ s.history

/-- A slot that is in use from the lap before is one that no pop has freed. -/
theorem Sound.noRoom (h : s.Sound)
    (huse : s.positions.lastLap n.size s.positions.tails ≠ .released) : s.NoRoom := by
  have hlap : n.size ≤ s.positions.tails :=
    Nat.le_of_not_lt fun hlt => huse (s.positions.lastLap_of_lt hlt)
  obtain ⟨q, hq⟩ := Nat.exists_eq_add_of_le' hlap
  have hpos := n.size_pos
  obtain ⟨f, hf, rfl⟩ := h.ledger.exists_filling (q := q) (by omega)
  refine ⟨f, hf, by rw [h.ledger.length_fillings, hq], ?_⟩
  intro e he heq t request result hr
  rw [hq, Positions.lastLap_add, ← heq] at huse
  exact huse (h.released_of_returned he hr)

/-- A position that has no element is one that no push has filled. -/
theorem Sound.noElement (h : s.Sound) (c : s.Filled)
    (hstage : s.positions.stage s.positions.heads ≠ .published) : s.NoElement := by
  rcases Nat.lt_or_ge s.positions.heads s.positions.tails with hlt | hge
  · obtain ⟨f, hf, hpos⟩ := h.ledger.exists_filling hlt
    have hclaimed : s.positions.stage f.pos = .claimed := by
      rw [hpos]
      exact (h.ledger.follows.waiting _ (Nat.le_refl _) hlt).resolve_right hstage
    right
    refine ⟨f, hf, by rw [hpos, h.ledger.length_emptyings], ?_⟩
    intro t request result hr
    have hfilled := c f hf t request result hr
    rw [hclaimed] at hfilled
    cases hfilled
  · left
    rw [h.ledger.length_emptyings, h.ledger.length_fillings]
    exact Nat.le_antisymm h.ledger.follows.heads_le hge

variable [DecidableEq ι]

/-- What refusals in a run say.  The instant is that of the last load of a sequence
number: the call returns with that step. -/
structure Verdicts (n : SlotCount) (blank : α) (actions : List (Action ι α)) : Prop where
  /-- a push that is refused gets back its element, and at the instant of its last look at
  a slot it looked from the current tail and the ring had no room -/
  full : ∀ number t request v,
    .returned number t request (.full v) ∈ (run n blank actions).history →
      request = .push v ∧ ∃ k spurious a, actions[k]? = some (.step t spurious) ∧
        (stateAt n blank actions k).active t = some a ∧ a.number = number ∧
        a.call = .pushExamine v (stateAt n blank actions k).ring.tail ∧
        .returned number t request (.full v) ∈ (stateAt n blank actions (k + 1)).history ∧
        (stateAt n blank actions k).NoRoom
  /-- a push that is refused has at no instant come to build its element -/
  unbuilt : ∀ number t request v,
    .returned number t request (.full v) ∈ (run n blank actions).history →
      ∀ k u a, (stateAt n blank actions k).active u = some a → a.number = number →
        ∀ w pos, a.call ≠ .pushStore w pos
  /-- a pop that is refused looked last from the current head, and at that instant the
  ring had nothing to give -/
  empty : ∀ number t request,
    .returned number t request .empty ∈ (run n blank actions).history →
      request = .pop ∧ ∃ k spurious a, actions[k]? = some (.step t spurious) ∧
        (stateAt n blank actions k).active t = some a ∧ a.number = number ∧
        a.call = .popExamine (stateAt n blank actions k).ring.head ∧
        .returned number t request .empty ∈ (stateAt n blank actions (k + 1)).history ∧
        (stateAt n blank actions k).NoElement

/-- Whatever the threads do and in whatever order their steps come, a refusal is right at
the instant of the last look at a slot. -/
theorem PacedRun.verdicts {blank : α} {actions : List (Action ι α)}
    (hpaced : PacedRun n blank actions) (hsize : n.size ≤ 2 ^ 57) :
    Verdicts n blank actions := by
  have hrun : run n blank actions = stateAt n blank actions actions.length :=
    (stateAt_of_length_le (Nat.le_refl _)).symm
  have hkept : ∀ number t request result,
      .returned number t request result ∈ (run n blank actions).history →
        (run n blank actions).Kept number request result := by
    intro number t request result hr
    rw [hrun] at hr ⊢
    exact (hpaced.sound _).roster.returned_kept number t request result hr
  constructor
  case full =>
    intro number t request v hr
    refine ⟨(hkept _ _ _ _ hr).1, ?_⟩
    obtain ⟨k, action, haction, hold, hnew⟩ := exists_instant hr
    obtain ⟨spurious, a, rfl, ha, hn, -, hturn⟩ := returned_of_act hold hnew
    obtain ⟨pos, hc, hv⟩ := Call.examined_of_full hturn
    have hsound := hpaced.sound k
    have hbacks := hsound.roster.active_backs t a ha
    simp only [Backs, hc] at hbacks
    obtain ⟨hcurrent, huse⟩ := hsound.current_of_full (hpaced k) hsize ha hbacks.2 hv
    have hpos : pos = (stateAt n blank actions k).ring.tail := by
      rw [hbacks.2.1, hcurrent, hsound.ledger.follows.tail]
    refine ⟨k, spurious, a, haction, ha, hn, by rw [hc, hpos], ?_, hsound.noRoom huse⟩
    rwa [stateAt_succ haction]
  case unbuilt =>
    intro number t request v hr k u a ha hn w pos hc
    have hbacks := (hpaced.sound k).roster.active_backs u a ha
    simp only [Backs, hc] at hbacks
    refine (hkept _ _ _ _ hr).2 ⟨a.number, a.seen, w⟩ ?_ hn
    exact mem_fillings.mpr (mem_history_run (mem_fillings.mp hbacks.2.2.1))
  case empty =>
    intro number t request hr
    refine ⟨(hkept _ _ _ _ hr).1, ?_⟩
    obtain ⟨k, action, haction, hold, hnew⟩ := exists_instant hr
    obtain ⟨spurious, a, rfl, ha, hn, -, hturn⟩ := returned_of_act hold hnew
    obtain ⟨pos, hc, hv⟩ := Call.examined_of_empty hturn
    have hsound := hpaced.sound k
    have hbacks := hsound.roster.active_backs t a ha
    simp only [Backs, hc] at hbacks
    obtain ⟨hcurrent, hnone⟩ := hsound.current_of_empty (hpaced k) hsize ha hbacks.2 hv
    have hpos : pos = (stateAt n blank actions k).ring.head := by
      rw [hbacks.2.1, hcurrent, hsound.ledger.follows.head]
    refine ⟨k, spurious, a, haction, ha, hn, by rw [hc, hpos], ?_,
      hsound.noElement (hpaced.reachable k).filled hnone⟩
    rwa [stateAt_succ haction]

/-- A pop finds the first position claimed and not filled, and a push finds the ring full
while a pop has taken the first position and not freed it. -/
def crowd : List (Action Bool Nat) :=
  [.begin true (.push 7), .step true false, .step true false, .step true false,
    .begin false .pop, .step false false, .step false false, .step true false,
    .step true false, .begin true (.push 8), .step true false, .step true false,
    .step true false, .step true false, .step true false, .begin false .pop,
    .step false false, .step false false, .step false false, .begin true (.push 9),
    .step true false, .step true false, .step false false, .step false false]

theorem crowd_verdicts :
    SlotCount.size ⟨1, by decide, by decide⟩ ≤ 2 ^ 57 ∧
      PacedRun ⟨1, by decide, by decide⟩ 0 crowd ∧
      Verdicts ⟨1, by decide, by decide⟩ 0 crowd ∧
      .returned 1 false .pop .empty ∈ (run ⟨1, by decide, by decide⟩ 0 crowd).history ∧
      .returned 4 true (.push 9) (.full 9) ∈
        (run ⟨1, by decide, by decide⟩ 0 crowd).history :=
  have hsize : SlotCount.size ⟨1, by decide, by decide⟩ ≤ 2 ^ 57 := by decide
  have hpaced : PacedRun ⟨1, by decide, by decide⟩ 0 crowd :=
    pacedRun_of_length_le _ _ _ (by simp [crowd])
  ⟨hsize, hpaced, hpaced.verdicts hsize, List.mem_of_getElem? (i := 3) rfl,
    List.mem_of_getElem? (i := 11) rfl⟩

end System

end LockFreeRings.Mpmc
