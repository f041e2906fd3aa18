import LockFreeRings.Proofs.Mpmc.Ownership
import LockFreeRings.Proofs.Mpmc.Verdicts
set_option autoImplicit false

/-!
# What sequence numbers say

Of the last positions that were taken on the tail, as many as there are slots, each slot has
one.  The sequence number of a slot, counted without wrapping (`System.sequence`), tells how
far that position has come: it is the position until its push has filled the slot, one more
until its pop has freed the slot, and a lap more from then on.  The slots that no push has
taken yet have a position before the first one, which counts as freed.

`System.Reachable.sequenced` says so of every reachable state, in terms of the calls that the
history tells of, and that no action makes a sequence number go down.  The words that the calls
compare are close enough to each other for the sign of their difference, as a signed word, to be
that of the counts; here the pace of the run is needed.
-/

namespace LockFreeRings.Mpmc

variable {n : SlotCount} {α ι : Type}

/-! ## Signed differences -/

/-- The difference of two words as a signed word. -/
def signedDiff (a b : UInt64) : Int := (a - b).toInt64.toInt

/-- The verdict on a difference. -/
def Verdict.ofDiff (d : Int) : Verdict :=
  if d = 0 then .level else if d < 0 then .behind else .ahead

/-- A difference that fits is the one of the counts. -/
theorem signedDiff_ofNat {a b : Nat} (ha : a < b + 2 ^ 63) (hb : b ≤ a + 2 ^ 63) :
    signedDiff (UInt64.ofNat a) (UInt64.ofNat b) = (a : Int) - b := by
  have hsize : Int64.size = 2 ^ 64 := rfl
  rw [signedDiff, UInt64.toInt64_sub, UInt64.toInt64_ofNat', UInt64.toInt64_ofNat',
    Int64.toInt_sub, Int64.toInt_ofNat', Int64.toInt_ofNat', hsize, Int.bmod_sub_bmod,
    Int.sub_bmod_bmod]
  exact Int.bmod_eq_of_le (by omega) (by omega)

theorem signedDiff_eq (a b : UInt64) :
    signedDiff a b =
      if (a - b).toNat < 2 ^ 63 then ((a - b).toNat : Int) else (a - b).toNat - 2 ^ 64 := by
  show (a - b).toBitVec.toInt = _
  rw [BitVec.toInt_eq_toNat_cond]
  show (if 2 * (a - b).toNat < 2 ^ 64 then ((a - b).toNat : Int)
    else (a - b).toNat - (2 ^ 64 : Nat)) = _
  split <;> split <;> omega

/-- A verdict is the sign of the signed difference, whatever the words are. -/
theorem verdict_eq_ofDiff (seq needed : UInt64) :
    verdict seq needed = .ofDiff (signedDiff seq needed) := by
  have hlt := (seq - needed).toNat_lt
  have hzero : seq - needed = 0 ↔ (seq - needed).toNat = 0 := by
    rw [← UInt64.toNat_inj]
    rfl
  have hhigh : 0x8000000000000000 ≤ seq - needed ↔ 2 ^ 63 ≤ (seq - needed).toNat := by
    rw [UInt64.le_iff_toNat_le]
    rfl
  rw [signedDiff_eq, verdict, Verdict.ofDiff]
  simp only [hzero, hhigh]
  split_ifs <;> first | rfl | omega

/-! ## Sequence numbers as counts -/

namespace Positions

/-- The position that uses a slot next: it is in the coming lap. -/
def coming (p : Positions) (n : SlotCount) (i : Fin n.size) : Nat :=
  p.tails + (i.val + n.size - p.tails % n.size) % n.size

variable (p : Positions) (n : SlotCount) (i : Fin n.size)

theorem le_coming : p.tails ≤ p.coming n i := Nat.le_add_right _ _

theorem coming_lt : p.coming n i < p.tails + n.size :=
  Nat.add_lt_add_left (Nat.mod_lt _ n.size_pos) _

theorem coming_mod : p.coming n i % n.size = i.val := by
  have hi := i.isLt
  have hmod := Nat.mod_lt p.tails n.size_pos
  have hsum : p.tails % n.size + (i.val + n.size - p.tails % n.size) = i.val + n.size := by omega
  rw [coming, Nat.add_mod_mod, ← Nat.mod_add_mod, hsum, Nat.add_mod_right, Nat.mod_eq_of_lt hi]

variable {p n i}

/-- No other position of the coming lap has that slot. -/
theorem eq_coming {q : Nat} (hle : p.tails ≤ q) (hlt : q < p.tails + n.size)
    (hq : q % n.size = i.val) : q = p.coming n i := by
  have hmod : q % n.size = p.coming n i % n.size := hq.trans (p.coming_mod n i).symm
  have hcoming := p.le_coming n i
  have hcoming' := p.coming_lt n i
  rcases Nat.le_total q (p.coming n i) with hqc | hcq
  · exact eq_of_mod_eq hqc (by omega) hmod
  · exact (eq_of_mod_eq hcq (by omega) hmod.symm).symm

/-- The sequence number of a slot, counted without wrapping. -/
def sequence (p : Positions) (n : SlotCount) (i : Fin n.size) : Nat :=
  p.seqBefore n.size (p.coming n i)

end Positions

/-- The sequence number of a slot, counted without wrapping. -/
def System.sequence (s : System n α ι) (i : Fin n.size) : Nat := s.positions.sequence n i

theorem Ring.Follows.seqAt_eq {r : Ring n α} {p : Positions} (h : r.Follows p) (pos : UInt64) :
    r.seqAt pos = UInt64.ofNat (p.sequence n (n.index pos)) := by
  have hcoming := p.coming_mod n (n.index pos)
  rw [Positions.sequence, ← h.seq _ (p.le_coming n _) (p.coming_lt n _)]
  apply Ring.seqAt_congr
  rw [Fin.ext_iff, SlotCount.val_index_ofNat, hcoming]

/-- A sequence number is from the lap at the tail or the one before. -/
theorem Positions.sequence_bounds (p : Positions) (n : SlotCount) (i : Fin n.size) :
    p.tails ≤ p.sequence n i + n.size ∧ p.sequence n i < p.tails + n.size := by
  have hle := p.le_seqBefore_add n.size (p.coming n i)
  have hup := p.seqBefore_le n.size_pos (p.coming n i)
  have hcoming := p.le_coming n i
  have hcoming' := p.coming_lt n i
  rw [sequence]
  omega

/-! ## Positions and the calls that took them -/

namespace System

/-- A push has taken the position and has not returned: it has not filled its slot yet, or
will never do so. -/
def Unfilled (s : System n α ι) (q : Nat) : Prop :=
  ∃ f ∈ s.fillings, f.pos = q ∧ ∀ t request result,
    .returned f.number t request result ∉ s.history

/-- The push of the position has returned.  No pop has taken the position, or the one that
has is in progress. -/
def Occupied (s : System n α ι) (q : Nat) : Prop :=
  (∃ f ∈ s.fillings, f.pos = q ∧ ∃ t, .returned f.number t (.push f.value) .pushed ∈ s.history) ∧
    (s.emptyings.length ≤ q ∨
      ∃ e ∈ s.emptyings, e.pos = q ∧ ∃ t a, s.active t = some a ∧ a.number = e.number)

/-- The pop of the position has returned. -/
def Freed (s : System n α ι) (q : Nat) : Prop :=
  ∃ e ∈ s.emptyings, e.pos = q ∧ ∃ t v, .returned e.number t .pop (.popped v) ∈ s.history

variable {s : System n α ι} {t : ι} {a : Activity α} {q : Nat}

namespace Sound

/-- A position is taken as long as its pop is in progress. -/
theorem taken_of_active (h : s.Sound) (ha : s.active t = some a) {e : Emptying}
    (he : e ∈ s.emptyings) (hn : e.number = a.number) : s.positions.stage e.pos = .taken := by
  have hrequest := h.roster.request_of_emptying ha he hn
  have hwindow := h.roster.window_of_emptying ha he hn
  rcases (h.roster.active_backs t a ha).of_window hwindow with ⟨v, hpush, -⟩ | ⟨-, -, hmem, htaken⟩
  · cases hrequest.symm.trans hpush
  · obtain rfl := List.inj_on_of_nodup_map h.roster.emptyings_number he hmem hn
    exact htaken

/-- A pop that has taken a position is in progress or has returned. -/
theorem active_or_returned (h : s.Sound) (hend : s.Endings) {e : Emptying}
    (he : e ∈ s.emptyings) :
    (∃ t a, s.active t = some a ∧ a.number = e.number) ∨
      ∃ t v, .returned e.number t .pop (.popped v) ∈ s.history := by
  obtain ⟨t, hbegan⟩ := h.roster.emptying_began e he
  rcases hend.ended e.number t .pop hbegan with ⟨a, ha, hn⟩ | ⟨record, hrecord, hends⟩
  · exact .inl ⟨t, a, ha, hn⟩
  · cases record with
    | returned number u request result =>
        obtain ⟨rfl, rfl⟩ := hends
        obtain ⟨v, rfl⟩ := h.roster.popped_of_returned he hrecord
        obtain rfl := h.roster.began_inj _ _ _ _ _ (h.roster.returned_began _ _ _ _ hrecord) hbegan
        exact .inr ⟨_, v, hrecord⟩
    | failed number u q =>
        -- what fails is a push
        obtain ⟨rfl, rfl⟩ := hends
        obtain ⟨⟨v, hf⟩, -⟩ := hend.failed _ _ q hrecord
        obtain ⟨w, hpush⟩ := h.roster.filling_began _ hf
        cases h.roster.began_inj _ _ _ _ _ hpush hbegan
    | _ => exact hends.elim

/-- A position whose pop has not been taken is before the head, or waits behind it. -/
theorem heads_le_of_published (h : s.Sound) (hq : s.positions.stage q = .published) :
    s.positions.heads ≤ q := by
  by_contra hlt
  rcases h.ledger.follows.passed q (by omega) with hp | hp <;> rw [hq] at hp <;> cases hp

theorem lt_heads_of_released (h : s.Sound) (hq : s.positions.stage q = .released) :
    q < s.positions.heads := by
  by_contra hle
  rcases Nat.lt_or_ge q s.positions.tails with hlt | hge
  · rcases h.ledger.follows.waiting q (by omega) hlt with hw | hw <;> rw [hq] at hw <;> cases hw
  · cases hq.symm.trans (h.ledger.follows.unclaimed q hge)

theorem exists_emptying (h : s.Sound) (hq : q < s.positions.heads) :
    ∃ e ∈ s.emptyings, e.pos = q := by
  have : q ∈ s.emptyings.map Emptying.pos := by
    rw [h.ledger.emptyings_pos]
    exact List.mem_range.mpr hq
  exact List.mem_map.mp this

theorem unfilled_iff (h : s.Sound) (hend : s.Endings) (hfilled : s.Filled) :
    s.Unfilled q ↔ s.positions.stage q = .claimed := by
  constructor
  · rintro ⟨f, hf, rfl, hnone⟩
    have hne := h.ledger.follows.stage_ne_unclaimed (h.ledger.pos_lt hf)
    cases hs : s.positions.stage f.pos with
    | claimed => rfl
    | unclaimed => exact absurd hs hne
    | _ =>
        obtain ⟨t, ht⟩ := hend.filled f hf (by rw [hs]; rfl)
        exact absurd ht (hnone _ _ _)
  · intro hs
    obtain ⟨f, hf, rfl⟩ := h.ledger.exists_filling (h.ledger.follows.lt_tails (.inl hs))
    refine ⟨f, hf, rfl, fun t request result hr => ?_⟩
    have := hfilled f hf t request result hr
    rw [hs] at this
    cases this

theorem occupied_iff (h : s.Sound) (hend : s.Endings) (hfilled : s.Filled) :
    s.Occupied q ↔ s.positions.stage q = .published ∨ s.positions.stage q = .taken := by
  constructor
  · rintro ⟨⟨f, hf, rfl, t, hr⟩, hwaits⟩
    have hs := hfilled f hf t _ _ hr
    rcases hwaits with hbehind | ⟨e, he, hpos, u, a, ha, hn⟩
    · rw [h.ledger.length_emptyings] at hbehind
      rcases h.ledger.follows.waiting _ hbehind (h.ledger.pos_lt hf) with hw | hw
      · rw [hw] at hs
        cases hs
      · exact .inl hw
    · exact .inr (hpos ▸ h.taken_of_active ha he hn.symm)
  · intro hs
    have huse : s.positions.InUse q := .inr hs
    obtain ⟨f, hf, rfl⟩ := h.ledger.exists_filling (h.ledger.follows.lt_tails huse)
    have hreturned := hend.filled f hf (by rcases hs with hs | hs <;> rw [hs] <;> rfl)
    refine ⟨⟨f, hf, rfl, hreturned⟩, ?_⟩
    rcases hs with hs | hs
    · rw [h.ledger.length_emptyings]
      exact .inl (h.heads_le_of_published hs)
    · obtain ⟨u, a, ha, hholds, hseen⟩ := h.roster.taken_held f.pos hs
      obtain ⟨pos, -, -, he, -⟩ := (h.roster.active_backs u a ha).exists_empties hholds
      exact .inr ⟨_, he, hseen, u, a, ha, rfl⟩

theorem freed_iff (h : s.Sound) (hend : s.Endings) :
    s.Freed q ↔ s.positions.stage q = .released := by
  constructor
  · rintro ⟨e, he, rfl, t, v, hr⟩
    exact h.released_of_returned he hr
  · intro hs
    obtain ⟨e, he, rfl⟩ := h.exists_emptying (h.lt_heads_of_released hs)
    rcases h.active_or_returned hend he with ⟨t, a, ha, hn⟩ | hr
    · cases hs.symm.trans (h.taken_of_active ha he hn.symm)
    · exact ⟨e, he, rfl, hr⟩

end Sound

/-! ## The last use of a slot -/

end System

/-- Until it is filled, a position leaves its slot with its own number. -/
theorem Stage.seq_eq_self_iff {lap : Nat} (h : 2 ≤ lap) (q : Nat) {stage : Stage} :
    stage.seq lap q = q ↔ stage = .claimed := by
  cases stage <;> simp [Stage.seq] <;> omega

/-- Until it is freed, a position that was filled leaves its slot with the next number. -/
theorem Stage.seq_eq_succ_iff {lap : Nat} (h : 2 ≤ lap) (q : Nat) {stage : Stage} :
    stage.seq lap q = q + 1 ↔ stage = .published ∨ stage = .taken := by
  cases stage <;> simp [Stage.seq] <;> omega

namespace System

variable {s : System n α ι}

/-- The position `p` was the last one on the tail to use the slot `i`; it is negative if
there was none. -/
structure LastUse (s : System n α ι) (i : Fin n.size) (p : Int) : Prop where
  le : (s.fillings.length : Int) - n.size ≤ p
  lt : p < s.fillings.length
  slot : p % (n.size : Int) = i.val

/-- The sequence number of a slot tells how far the last use of the slot has come. -/
structure Numbers (s : System n α ι) (i : Fin n.size) (p : Int) : Prop where
  unfilled : (s.sequence i : Int) = p ↔ ∃ q : Nat, p = q ∧ s.Unfilled q
  occupied : (s.sequence i : Int) = p + 1 ↔ ∃ q : Nat, p = q ∧ s.Occupied q
  freed : (s.sequence i : Int) = p + n.size ↔ p < 0 ∨ ∃ q : Nat, p = q ∧ s.Freed q
  cases : (s.sequence i : Int) = p ∨ (s.sequence i : Int) = p + 1 ∨
    (s.sequence i : Int) = p + n.size
  apart : p + 1 ≠ p + n.size

theorem Sound.lastUse_iff (h : s.Sound) {i : Fin n.size} {p : Int} :
    s.LastUse i p ↔ p + n.size = s.positions.coming n i := by
  have hle := s.positions.le_coming n i
  have hlt := s.positions.coming_lt n i
  have hmod := s.positions.coming_mod n i
  have htails := h.ledger.length_fillings
  constructor
  · rintro ⟨hp, hp', hslot⟩
    obtain ⟨q, hq⟩ := Int.eq_ofNat_of_zero_le (show 0 ≤ p + n.size by omega)
    have hqmod : q % n.size = i.val := by
      rw [← Int.add_emod_right, hq] at hslot
      exact_mod_cast hslot
    rw [hq, Positions.eq_coming (p := s.positions) (n := n) (by omega) (by omega) hqmod]
  · intro hp
    refine ⟨by omega, by omega, ?_⟩
    rw [← Int.add_emod_right, hp]
    exact_mod_cast hmod

theorem Sound.existsUnique_lastUse (h : s.Sound) (i : Fin n.size) : ∃! p : Int, s.LastUse i p := by
  refine ⟨(s.positions.coming n i : Int) - n.size, h.lastUse_iff.mpr (by omega), fun p hp => ?_⟩
  have := h.lastUse_iff.mp hp
  omega

theorem Sound.numbers (h : s.Sound) (hend : s.Endings) (hfilled : s.Filled) {i : Fin n.size}
    {p : Int} (hp : s.LastUse i p) : s.Numbers i p := by
  have hsize := n.two_le_size
  have hcoming := h.lastUse_iff.mp hp
  have htails := h.ledger.length_fillings
  rcases lt_or_ge p 0 with hneg | hpos
  · -- no push has taken the slot yet
    have hseq : (s.sequence i : Int) = p + n.size := by
      rw [hcoming, sequence, Positions.sequence, Positions.seqBefore_of_lt _ (by omega)]
    constructor
    case unfilled => exact iff_of_false (by omega) (by rintro ⟨q, rfl, -⟩; omega)
    case occupied => exact iff_of_false (by omega) (by rintro ⟨q, rfl, -⟩; omega)
    case freed => exact iff_of_true hseq (.inl hneg)
    case cases => exact .inr (.inr hseq)
    case apart => omega
  · obtain ⟨q, rfl⟩ := Int.eq_ofNat_of_zero_le hpos
    have hlt := hp.lt
    have hne := h.ledger.follows.stage_ne_unclaimed (q := q) (by omega)
    have hseq : s.sequence i = (s.positions.stage q).seq n.size q := by
      have hnext : s.positions.coming n i = q + n.size := by omega
      rw [sequence, Positions.sequence, hnext, Positions.seqBefore_add]
    have hthe : ∀ P : Nat → Prop, (∃ w : Nat, (q : Int) = w ∧ P w) ↔ P q := fun P => by
      constructor
      · rintro ⟨w, hw, hP⟩
        rwa [Int.ofNat_inj.mp hw]
      · exact fun hP => ⟨q, rfl, hP⟩
    constructor
    case unfilled =>
      rw [hthe, h.unfilled_iff hend hfilled, ← Stage.seq_eq_self_iff hsize q, ← hseq]
      omega
    case occupied =>
      rw [hthe, h.occupied_iff hend hfilled, ← Stage.seq_eq_succ_iff hsize q, ← hseq]
      omega
    case freed =>
      rw [hthe, h.freed_iff hend, ← Stage.seq_eq_iff hsize q hne, ← hseq]
      omega
    case cases =>
      rw [hseq]
      cases hs : s.positions.stage q <;> simp [Stage.seq]
    case apart => omega

end System

/-! ## Steps -/

namespace Positions

variable {p : Positions} {i : Fin n.size}

/-- A position that comes to a later stage does not take the number of its slot down. -/
theorem sequence_le_settle {q : Nat} {stage : Stage}
    (h : (p.stage q).seq n.size q ≤ stage.seq n.size q) :
    p.sequence n i ≤ (p.settle q stage).sequence n i := by
  show p.seqBefore n.size (p.coming n i) ≤ (p.settle q stage).seqBefore n.size (p.coming n i)
  unfold seqBefore
  split
  · exact Nat.le_refl _
  · rw [stage_settle]
    split
    · next heq =>
      rw [heq]
      exact h
    · exact Nat.le_refl _

/-- Taking a position whose slot is free leaves the number of the slot as it is. -/
theorem sequence_claim (h : p.lastLap n.size p.tails = .released) :
    (p.claim p.tails).sequence n i = p.sequence n i := by
  have hle := p.le_coming n i
  have hlt := p.coming_lt n i
  have hmod := p.coming_mod n i
  have htails : (p.claim p.tails).tails = p.tails + 1 := tails_claim p p.tails
  rcases Nat.eq_or_lt_of_le hle with heq | hgt
  -- the slot comes again a lap later
  · have hnext : (p.claim p.tails).coming n i = p.tails + n.size :=
      (eq_coming (by omega) (by omega) (by rw [Nat.add_mod_right, heq, hmod])).symm
    rw [sequence, hnext, seqBefore_add, stage_claim, if_pos rfl, sequence, ← heq,
      seqBefore_of_free h]
    rfl
  · have hsame : (p.claim p.tails).coming n i = p.coming n i :=
      (eq_coming (by omega) (by omega) hmod).symm
    rw [sequence, hsame, sequence]
    apply seqBefore_congr
    intro _
    rw [stage_claim, if_neg (by omega)]

end Positions

namespace System

variable [DecidableEq ι] {s s' : System n α ι}

/-- Whatever an action comes to, no sequence number goes down. -/
theorem Comes.sequence_le (h : s.Comes s') (i : Fin n.size) : s.sequence i ≤ s'.sequence i := by
  cases h with
  | claim active calls seeks word current free =>
      show s.positions.sequence n i ≤ (s.positions.claim _).sequence n i
      rw [current, Positions.sequence_claim free]
  | publish active calls fills stored =>
      refine Positions.sequence_le_settle ?_
      rw [fills.2.2.2, Stage.seq, Stage.seq]
      exact Nat.le_succ _
  | take active calls waits word current ready =>
      refine Positions.sequence_le_settle ?_
      rw [current, ready, Stage.seq, Stage.seq]
  | release active calls empties filling same =>
      have hsize := n.size_pos
      refine Positions.sequence_le_settle ?_
      rw [empties.2.2.2, Stage.seq, Stage.seq]
      omega
  | _ => exact Nat.le_refl _

end System

/-! ## What calls compare -/

/-- The position that a call holds, having read it on a cursor. -/
def Call.position? : Call α → Option UInt64
  | .pushExamine _ pos | .pushClaim _ pos | .pushStore _ pos | .pushPublish pos
  | .fullExamine pos | .popExamine pos | .popClaim pos | .popTake pos | .popRelease pos _
  | .emptyTail pos | .sizeTail pos => some pos
  | .pushLoad _ | .popLoad | .emptyHead | .fullTail | .sizeHead => none

namespace System

/-- The word `pos` stands for a position that is not far behind the tail. -/
def Near (s : System n α ι) (seen : Nat) (pos : UInt64) : Prop :=
  pos = UInt64.ofNat seen ∧ seen ≤ s.positions.tails ∧
    s.positions.tails ≤ seen + 2 ^ 62 + n.size

/-- The differences that are computed from a position `pos` that a call holds, and from what
is stored, are those of the counts: that of the number of its slot, as a push compares it;
the same as a pop does, which needs the next number; and that of the tail, for the size. -/
structure Compares (s : System n α ι) (seen : Nat) (pos : UInt64) : Prop where
  word : pos = UInt64.ofNat seen
  push : signedDiff (s.ring.seqAt pos) pos = (s.sequence (n.index pos) : Int) - seen
  push_verdict : verdict (s.ring.seqAt pos) pos = .ofDiff (s.sequence (n.index pos) - seen)
  pop : signedDiff (s.ring.seqAt pos) (pos + 1) = (s.sequence (n.index pos) : Int) - (seen + 1)
  pop_verdict :
    verdict (s.ring.seqAt pos) (pos + 1) = .ofDiff (s.sequence (n.index pos) - (seen + 1))
  size : signedDiff s.ring.tail pos = (s.fillings.length : Int) - seen

variable {s : System n α ι} {t : ι} {a : Activity α} {pos : UInt64}

/-- A position in use is less than a lap behind the tail. -/
theorem Sound.near_of_inUse (h : s.Sound) {q : Nat} (hpos : pos = UInt64.ofNat q)
    (hq : s.positions.InUse q) : s.Near q pos := by
  have hlt := h.ledger.follows.lt_tails hq
  have hge := h.ledger.follows.tails_le_add hq
  exact ⟨hpos, by omega, by omega⟩

/-- No call holds a position that is far behind the tail. -/
theorem Sound.near (h : s.Sound) (hpaced : s.Paced) (ha : s.active t = some a)
    (hpos : a.call.position? = some pos) : s.Near a.seen pos := by
  have hb := h.roster.active_backs t a ha
  obtain ⟨htails, hheads⟩ := hpaced t a ha
  have hlap := h.ledger.follows.tails_le
  have horder := h.ledger.follows.heads_le
  -- as long as it has taken no position, the pace of the run keeps the call near
  have htail : ∀ q, a.SawTail s.positions q → s.Near a.seen q :=
    fun q ⟨hq, hle, hge⟩ => ⟨hq, hge, by omega⟩
  have hhead : ∀ q, a.SawHead s.positions q → s.Near a.seen q :=
    fun q ⟨hq, hle, hge⟩ => ⟨hq, by omega, by omega⟩
  have hfills : ∀ q v, s.Fills a q v → s.Near a.seen q :=
    fun q v ⟨_, hq, _, hs⟩ => h.near_of_inUse hq (.inl hs)
  have hempties : ∀ q, s.Empties a q → s.Near a.seen q :=
    fun q ⟨_, hq, _, hs⟩ => h.near_of_inUse hq (.inr (.inr hs))
  unfold Backs at hb
  unfold Call.position? at hpos
  cases hc : a.call <;> rw [hc] at hb hpos <;> cases hpos
  case pushExamine v => exact htail _ hb.2
  case pushClaim v => exact htail _ hb.2.1
  case pushStore v => exact hfills _ v hb
  case pushPublish =>
    obtain ⟨v, hv, -⟩ := hb
    exact hfills _ v hv
  case popExamine => exact hhead _ hb.2
  case popClaim => exact hhead _ hb.2.1
  case popTake => exact hempties _ hb
  case popRelease v => exact hempties _ hb.1
  case emptyTail => exact hhead _ hb.2
  case fullExamine => exact htail _ hb.2
  case sizeTail => exact hhead _ hb.2

theorem Sound.compares (h : s.Sound) (hsize : n.size ≤ 2 ^ 57) {seen : Nat}
    (hnear : s.Near seen pos) : s.Compares seen pos := by
  obtain ⟨rfl, hle, hge⟩ := hnear
  obtain ⟨hlow, hhigh⟩ := s.positions.sequence_bounds n (n.index (UInt64.ofNat seen))
  have hseq := h.ledger.follows.seqAt_eq (UInt64.ofNat seen)
  have hpush : signedDiff (s.ring.seqAt (UInt64.ofNat seen)) (UInt64.ofNat seen) =
      (s.sequence (n.index (UInt64.ofNat seen)) : Int) - seen := by
    rw [hseq]
    exact signedDiff_ofNat (by omega) (by omega)
  have hpop : signedDiff (s.ring.seqAt (UInt64.ofNat seen)) (UInt64.ofNat seen + 1) =
      (s.sequence (n.index (UInt64.ofNat seen)) : Int) - (seen + 1) := by
    rw [hseq, ← ofNat_succ]
    exact signedDiff_ofNat (by omega) (by omega)
  constructor
  case word => rfl
  case push => exact hpush
  case push_verdict => rw [verdict_eq_ofDiff, hpush]
  case pop => exact hpop
  case pop_verdict => rw [verdict_eq_ofDiff, hpop]
  case size =>
    rw [h.ledger.follows.tail, h.ledger.length_fillings]
    exact signedDiff_ofNat (by omega) (by omega)

/-! ## The invariant -/

/-- The cursors and the sequence numbers are counts that wrap, and tell how far each position
has come. -/
structure Sequenced [DecidableEq ι] (s : System n α ι) : Prop where
  /-- the cursors count the positions that were taken -/
  tail : s.ring.tail = UInt64.ofNat s.fillings.length
  head : s.ring.head = UInt64.ofNat s.emptyings.length
  /-- the tail is not behind the head, and not more than a lap before it -/
  head_le : s.emptyings.length ≤ s.fillings.length
  tail_le : s.fillings.length ≤ s.emptyings.length + n.size
  /-- the slots store the sequence numbers -/
  stored : ∀ i : Fin n.size, s.ring.slots[i].seq = UInt64.ofNat (s.sequence i)
  /-- every slot has one position among the last ones -/
  last : ∀ i, ∃! p, s.LastUse i p
  /-- its number tells how far that position has come -/
  numbers : ∀ i p, s.LastUse i p → s.Numbers i p
  /-- a slot that is filled and one that is free have different numbers as words, too -/
  apart : ∀ q : Nat, UInt64.ofNat (q + 1) ≠ UInt64.ofNat (q + n.size)
  /-- no number goes down -/
  grows : ∀ action i, s.sequence i ≤ (s.act action).sequence i
  /-- what calls compare is as far apart as the counts -/
  compares : ∀ t a pos, s.active t = some a → a.call.position? = some pos → s.Compares a.seen pos

/-- The numbers that a position leaves when it is filled and when it is freed are less than a
lap apart, so their words differ. -/
theorem ofNat_succ_ne_ofNat_add (n : SlotCount) (q : Nat) :
    UInt64.ofNat (q + 1) ≠ UInt64.ofNat (q + n.size) := by
  have htwo := n.two_le_size
  have hsize := n.size_le
  intro h
  have := ofNat_inj_of_lt (by omega) (by omega) h
  omega

/-- What a slot stores is its sequence number. -/
theorem Sound.seq_slot (h : s.Sound) (i : Fin n.size) :
    s.ring.slots[i].seq = UInt64.ofNat (s.sequence i) := by
  obtain ⟨pos, rfl⟩ : ∃ pos, n.index pos = i := by
    refine ⟨UInt64.ofNat i.val, Fin.ext ?_⟩
    rw [SlotCount.val_index_ofNat, Nat.mod_eq_of_lt i.isLt]
  exact h.ledger.follows.seqAt_eq pos

variable [DecidableEq ι]

/-- In every reachable state the sequence numbers tell how far the positions have come, and
calls that compare them with the positions they hold are not deceived by the wrap. -/
theorem Reachable.sequenced (h : s.Reachable) (hsize : n.size ≤ 2 ^ 57) : s.Sequenced where
  tail := by rw [h.sound.ledger.follows.tail, h.sound.ledger.length_fillings]
  head := by rw [h.sound.ledger.follows.head, h.sound.ledger.length_emptyings]
  head_le := by
    rw [h.sound.ledger.length_fillings, h.sound.ledger.length_emptyings]
    exact h.sound.ledger.follows.heads_le
  tail_le := by
    rw [h.sound.ledger.length_fillings, h.sound.ledger.length_emptyings]
    exact h.sound.ledger.follows.tails_le
  stored := h.sound.seq_slot
  last := h.sound.existsUnique_lastUse
  numbers _ _ := h.sound.numbers h.endings h.filled
  apart := ofNat_succ_ne_ofNat_add n
  grows action := (h.sound.comes h.paced action).sequence_le
  compares _ _ _ ha hpos := h.sound.compares hsize (h.sound.near h.paced ha hpos)

/-- On a ring of two slots, an element is pushed and popped and another one pushed.  A push
has then taken the next position and not filled it, and a pop has read the head. -/
def secondLap : List (Action Bool Nat) :=
  .begin true (.push 7) :: List.replicate 5 (.step true false) ++
    .begin false .pop :: List.replicate 5 (.step false false) ++
    .begin true (.push 8) :: List.replicate 5 (.step true false) ++
    .begin true (.push 9) :: List.replicate 3 (.step true false) ++
    [.begin false .pop, .step false false]

theorem secondLap_sequenced :
    SlotCount.size ⟨1, by decide, by decide⟩ ≤ 2 ^ 57 ∧
      (run ⟨1, by decide, by decide⟩ 0 secondLap).Reachable ∧
      (run ⟨1, by decide, by decide⟩ 0 secondLap).Sequenced ∧
      (run ⟨1, by decide, by decide⟩ 0 secondLap).sequence ⟨0, by decide⟩ = 2 ∧
      (run ⟨1, by decide, by decide⟩ 0 secondLap).sequence ⟨1, by decide⟩ = 2 ∧
      ((run ⟨1, by decide, by decide⟩ 0 secondLap).active true).map (·.call.position?) =
        some (some 2) ∧
      ((run ⟨1, by decide, by decide⟩ 0 secondLap).active false).map (·.call.position?) =
        some (some 1) :=
  have hsize : SlotCount.size ⟨1, by decide, by decide⟩ ≤ 2 ^ 57 := by decide
  have h : (run ⟨1, by decide, by decide⟩ 0 secondLap).Reachable :=
    reachable_run _ _ _ (by simp [secondLap])
  ⟨hsize, h, h.sequenced hsize, by rfl, by rfl, by rfl, by rfl⟩

end System

end LockFreeRings.Mpmc
