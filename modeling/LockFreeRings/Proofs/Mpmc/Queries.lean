import LockFreeRings.Proofs.Mpmc.Verdicts
set_option autoImplicit false

/-!
# What queries say

A query loads two words, and between the two any number of calls may come and go.  What
it answers is about two instants, and need not be true when it returns.

Still there is one instant of the call at which it is true.  The answer that is about the
instant of the second load is so if the cursor that was loaded first has not moved since.
If it has moved, then it moved during the call, and that it moved says something of the
ring at that instant: before a push takes a position the ring does not refuse it, and
after that the ring is not empty (`PacedRun.seen_or_sometime`).  A ring that is found to be
full is so at the instant of the second load (`PacedRun.refuses_of_full`).

For the size the order of the loads matters.  The head is loaded first, and the tail only
grows, so the difference is not too small for any instant between the loads.
-/

namespace LockFreeRings.Mpmc

variable {n : SlotCount} {α ι : Type}

/-! ## What the words say -/

namespace Ring

/-- A push that examines the slot of the current tail would be refused. -/
def Refuses (r : Ring n α) : Prop :=
  ∀ v spurious, (Call.step spurious r (.pushExamine v r.tail)).2 = .returned (.full v)

theorem refuses_iff (r : Ring n α) : r.Refuses ↔ verdict (r.seqAt r.tail) r.tail = .behind := by
  constructor
  · intro h
    obtain ⟨pos, hcall, hv⟩ := Call.examined_of_full (h (r.valueAt 0) false)
    cases hcall
    exact hv
  · intro hv v spurious
    simp only [Call.step, hv]

/-- The size is the difference of the counts, up to a lap. -/
theorem toNat_sizeBetween {tails seen : Nat} (hle : seen ≤ tails) (hnear : tails < seen + 2 ^ 63) :
    (sizeBetween n (UInt64.ofNat tails) (UInt64.ofNat seen)).toNat = min (tails - seen) n.size := by
  have hbound : (0x8000000000000000 : UInt64).toNat = 2 ^ 63 := rfl
  have hd := toNat_ofNat_sub_ofNat hle (by omega)
  rw [sizeBetween, if_neg (by rw [UInt64.le_iff_toNat_le, hd, hbound]; omega)]
  split
  · next hfits =>
    rw [UInt64.le_iff_toNat_le, hd, SlotCount.toNat_word] at hfits
    rw [hd, Nat.min_eq_left hfits]
  · next hover =>
    rw [UInt64.le_iff_toNat_le, hd, SlotCount.toNat_word] at hover
    rw [SlotCount.toNat_word, Nat.min_eq_right (by omega)]

namespace Follows

variable {r : Ring n α} {p : Positions}

/-- The cursors are equal as words when they are equal as counts. -/
theorem head_eq_tail_iff (h : r.Follows p) : r.head = r.tail ↔ p.heads = p.tails := by
  have hsize := n.size_le
  have hle := h.tails_le
  rw [h.head, h.tail]
  exact ⟨ofNat_inj_of_lt h.heads_le (by omega), congrArg UInt64.ofNat⟩

theorem toNat_tail_sub_head (h : r.Follows p) :
    (r.tail - r.head).toNat = p.tails - p.heads := by
  have hsize := n.size_le
  have hle := h.tails_le
  rw [h.head, h.tail, toNat_ofNat_sub_ofNat h.heads_le (by omega)]

/-- A push is refused if the slot of the next position is in use from the lap before. -/
theorem refuses_iff (h : r.Follows p) :
    r.Refuses ↔ p.lastLap n.size p.tails ≠ .released := by
  rw [Ring.refuses_iff, h.tail, h.verdict_tail]
  split <;> simp_all

end Follows

end Ring

namespace System

variable [DecidableEq ι]

/-! ## From one instant to the next -/

/-- A call in progress is where it was, or has just begun, or has taken a step. -/
theorem active_of_act {s : System n α ι} {action : Action ι α} {t : ι} {a : Activity α}
    (ha : (s.act action).active t = some a) :
    s.active t = some a ∨ (∃ request : Request α, a.number = s.calls ∧ a.call = request.call) ∨
      ∃ b spurious, s.active t = some b ∧ a.number = b.number ∧
        (b.call.step spurious s.ring).2 = .running a.call ∧ a.seen = s.seenAfter b a.call := by
  cases action with
  | begin u request =>
      cases hu : s.active u with
      | some b =>
          simp only [act, hu] at ha
          exact .inl ha
      | none =>
          simp only [act, hu, System.begin, Function.update_apply] at ha
          split at ha
          · cases ha
            exact .inr (.inl ⟨request, rfl, rfl⟩)
          · exact .inl ha
  | fail u =>
      cases hu : s.active u with
      | none =>
          simp only [act, hu] at ha
          exact .inl ha
      | some b =>
          simp only [act, hu] at ha
          split at ha
          · simp only [giveUp, Function.update_apply] at ha
            split at ha
            · cases ha
            · exact .inl ha
          · exact .inl ha
  | step u spurious =>
      cases hu : s.active u with
      | none =>
          simp only [act, hu] at ha
          exact .inl ha
      | some b =>
          have hnote : ∀ turn, (s.note b turn).active = s.active := by
            intro turn
            unfold note
            split <;> rfl
          simp only [act, hu, advance] at ha
          cases hturn : (b.call.step spurious s.ring).2 with
          | running call =>
              simp only [hturn, resume, hnote, Function.update_apply] at ha
              split at ha
              · next ht =>
                cases ha
                exact .inr (.inr ⟨b, spurious, ht ▸ hu, rfl, hturn, rfl⟩)
              · exact .inl ha
          | returned result =>
              simp only [hturn, resume, hnote, Function.update_apply] at ha
              split at ha
              · cases ha
              · exact .inl ha

/-- The tail moves by one position, past a slot that was free. -/
theorem Comes.tails {s s' : System n α ι} (h : s.Comes s') :
    s'.positions.tails = s.positions.tails ∨
      s'.positions.tails = s.positions.tails + 1 ∧ s'.positions.heads = s.positions.heads ∧
        s.positions.lastLap n.size s.positions.tails = .released := by
  cases h with
  | claim active calls seeks word current free => exact .inr ⟨rfl, rfl, free⟩
  | _ => exact .inl rfl

variable {blank : α} {actions : List (Action ι α)}

/-- The tail does not go back. -/
theorem PacedRun.tails_mono (hpaced : PacedRun n blank actions) {j k : Nat} (hle : j ≤ k) :
    (stateAt n blank actions j).positions.tails ≤
      (stateAt n blank actions k).positions.tails := by
  induction k, hle using Nat.le_induction with
  | base => exact Nat.le_refl _
  | succ k _ ih =>
      rcases stateAt_succ_cases n blank actions k with ⟨action, -, hstep⟩ | hstep
      · have hcomes := (hpaced.sound k).comes (hpaced k) action
        rw [hstep]
        rcases hcomes.tails with htails | ⟨htails, -⟩ <;> omega
      · rwa [hstep]

/-- At some instant between the beginning and the return of the call `number` of the thread
`t` the ring is such. -/
def Sometime (n : SlotCount) (blank : α) (actions : List (Action ι α)) (t : ι) (number : Nat)
    (P : Ring n α → Prop) : Prop :=
  ∃ k a, (stateAt n blank actions k).active t = some a ∧ a.number = number ∧
    P (stateAt n blank actions k).ring

/-- Of a call in a phase `Q`: the cursor that it saw is still the tail, or the ring was such
at some instant of the call.  For this the ring must be such when the call comes to the
phase and has seen something else, and whenever the tail moves, before or after. -/
theorem PacedRun.seen_or_sometime (hpaced : PacedRun n blank actions) {Q : Call α → Prop}
    {P : Ring n α → Prop} (hstart : ∀ request : Request α, ¬Q request.call)
    (hload : ∀ s : System n α ι, s.Sound → ∀ b call, Q call →
      s.seenAfter b call = s.positions.tails ∨ P s.ring)
    (hgrow : ∀ s s' : System n α ι, s.Sound → s'.Sound → s.Comes s' →
      s'.positions.tails ≠ s.positions.tails → P s.ring ∨ P s'.ring)
    (k : Nat) {t : ι} {a : Activity α} (ha : (stateAt n blank actions k).active t = some a)
    (hq : Q a.call) :
    a.seen = (stateAt n blank actions k).positions.tails ∨
      Sometime n blank actions t a.number P := by
  induction k generalizing a with
  | zero =>
      rw [stateAt_zero] at ha
      cases ha
  | succ k ih =>
      rcases stateAt_succ_cases n blank actions k with ⟨action, -, hstep⟩ | hstep
      case inr =>
        rw [hstep] at ha ⊢
        exact ih ha hq
      case inl =>
        have hsound := hpaced.sound k
        have hcomes := hsound.comes (hpaced k) action
        have hsound' := hpaced.sound (k + 1)
        have ha' := ha
        rw [hstep] at ha hsound' ⊢
        -- the call was in progress before, and what is claimed held of the tail of then
        obtain ⟨b, hb, hn, hwas⟩ : ∃ b, (stateAt n blank actions k).active t = some b ∧
            b.number = a.number ∧ (a.seen = (stateAt n blank actions k).positions.tails ∨
              Sometime n blank actions t a.number P) := by
          rcases active_of_act ha with hsame | ⟨request, -, hcall⟩ | ⟨b, _, hb, hn, -, hseen⟩
          · exact ⟨a, hsame, rfl, ih hsame hq⟩
          · exact absurd (hcall ▸ hq) (hstart request)
          · refine ⟨b, hb, hn.symm, ?_⟩
            rcases hload _ hsound b a.call hq with hload | hload
            · exact .inl (hseen.trans hload)
            · exact .inr ⟨k, b, hb, hn.symm, hload⟩
        refine hwas.elim (fun hseen => ?_) .inr
        by_cases htails : ((stateAt n blank actions k).act action).positions.tails =
            (stateAt n blank actions k).positions.tails
        · exact .inl (hseen.trans htails.symm)
        · rcases hgrow _ _ hsound hsound' hcomes htails with hp | hp
          · exact .inr ⟨k, b, hb, hn, hp⟩
          · exact .inr ⟨k + 1, a, ha', rfl, hstep ▸ hp⟩

/-! ## The second load -/

section Loads

variable {s : System n α ι} {t : ι} {a : Activity α} {spurious : Bool} {result : Return α}

omit [DecidableEq ι] in
/-- What asks whether the ring is empty returns when it has loaded the tail. -/
theorem Sound.emptyTail_of_returned (h : s.Sound) (ha : s.active t = some a)
    (hrequest : a.request = .isEmpty)
    (hturn : (a.call.step spurious s.ring).2 = .returned result) :
    ∃ head, a.call = .emptyTail head ∧ a.SawHead s.positions head ∧
      result = .truth (head = s.ring.tail) := by
  have hbacks := h.roster.active_backs t a ha
  cases hc : a.call with
  | emptyTail head =>
      simp only [Backs, hc] at hbacks
      rw [hc] at hturn
      cases hturn
      exact ⟨head, rfl, hbacks.2, rfl⟩
  | emptyHead => simp [hc, Call.step] at hturn
  | _ => simp [Backs, hc, Seeks, Fills, Waits, Empties, hrequest] at hbacks

omit [DecidableEq ι] in
/-- What asks whether the ring is full returns when it has loaded the sequence number. -/
theorem Sound.fullExamine_of_returned (h : s.Sound) (ha : s.active t = some a)
    (hrequest : a.request = .isFull)
    (hturn : (a.call.step spurious s.ring).2 = .returned result) :
    ∃ tail, a.call = .fullExamine tail ∧ a.SawTail s.positions tail ∧
      result = .truth (verdict (s.ring.seqAt tail) tail = .behind) := by
  have hbacks := h.roster.active_backs t a ha
  cases hc : a.call with
  | fullExamine tail =>
      simp only [Backs, hc] at hbacks
      rw [hc] at hturn
      cases hturn
      exact ⟨tail, rfl, hbacks.2, rfl⟩
  | fullTail => simp [hc, Call.step] at hturn
  | _ => simp [Backs, hc, Seeks, Fills, Waits, Empties, hrequest] at hbacks

omit [DecidableEq ι] in
/-- What asks for the size returns when it has loaded the tail. -/
theorem Sound.sizeTail_of_returned (h : s.Sound) (ha : s.active t = some a)
    (hrequest : a.request = .size)
    (hturn : (a.call.step spurious s.ring).2 = .returned result) :
    ∃ head, a.call = .sizeTail head ∧ a.SawHead s.positions head ∧
      result = .size (Ring.sizeBetween n s.ring.tail head) := by
  have hbacks := h.roster.active_backs t a ha
  cases hc : a.call with
  | sizeTail head =>
      simp only [Backs, hc] at hbacks
      rw [hc] at hturn
      cases hturn
      exact ⟨head, rfl, hbacks.2, rfl⟩
  | sizeHead => simp [hc, Call.step] at hturn
  | _ => simp [Backs, hc, Seeks, Fills, Waits, Empties, hrequest] at hbacks

omit [DecidableEq ι] in
/-- A head that is found equal to the tail is the current one. -/
theorem Sound.empty_of_eq_tail (h : s.Sound) (hpaced : s.Paced) (hsize : n.size ≤ 2 ^ 57)
    (ha : s.active t = some a) {head : UInt64} (hsaw : a.SawHead s.positions head)
    (heq : head = s.ring.tail) : s.ring.head = s.ring.tail := by
  obtain ⟨hhead, hbefore, hle⟩ := hsaw
  have hnear := (hpaced t a ha).2
  have hroom := h.ledger.follows.tails_le
  have hheads := h.ledger.follows.heads_le
  have hseen : a.seen = s.positions.tails := by
    refine ofNat_inj_of_lt (hle.trans hheads) (by omega) ?_
    rw [← hhead, heq, h.ledger.follows.tail]
  rw [h.ledger.follows.head_eq_tail_iff]
  omega

end Loads

/-- A call between the loads of a size stays there until it returns. -/
theorem PacedRun.eq_of_sizeTail (hpaced : PacedRun n blank actions) {j k : Nat} (hle : j ≤ k)
    {t : ι} {a : Activity α} (ha : (stateAt n blank actions j).active t = some a)
    {head : UInt64} (hc : a.call = .sizeTail head) {b : Activity α}
    (hb : (stateAt n blank actions k).active t = some b) (hn : b.number = a.number) : b = a := by
  induction k, hle using Nat.le_induction generalizing b with
  | base => exact Option.some.inj (hb.symm.trans ha)
  | succ k hle ih =>
      rcases stateAt_succ_cases n blank actions k with ⟨action, -, hstep⟩ | hstep
      case inr => exact ih (hstep ▸ hb) hn
      case inl =>
        rw [hstep] at hb
        rcases active_of_act hb with hsame | ⟨request, hfresh, -⟩ |
          ⟨b', spurious, hb', hn', hturn, -⟩
        · exact ih hsame hn
        -- the number of a call that begins now is not in use yet
        · have hbegan := (hpaced.sound j).roster.active_began t a ha
          have hlt := (hpaced.sound k).roster.began_lt _ _ _ (mem_history_stateAt_mono hle hbegan)
          omega
        · rw [ih hb' (hn'.symm.trans hn), hc] at hturn
          cases hturn

/-! ## Answers -/

/-- The call `number` of the thread `t` is between the two loads of a size. -/
def BetweenLoads (n : SlotCount) (blank : α) (actions : List (Action ι α)) (t : ι)
    (number k : Nat) : Prop :=
  ∃ a head, (stateAt n blank actions k).active t = some a ∧ a.number = number ∧
    a.call = .sizeTail head

/-- What the answers to queries in a run say. -/
structure Answers (n : SlotCount) (blank : α) (actions : List (Action ι α)) : Prop where
  /-- whether the ring is empty is answered rightly for some instant of the call -/
  isEmpty : ∀ number t result,
    .returned number t .isEmpty result ∈ (run n blank actions).history →
      ∃ b, result = .truth b ∧
        Sometime n blank actions t number fun r => b = true ↔ r.head = r.tail
  /-- whether the ring is full is answered rightly for some instant of the call -/
  isFull : ∀ number t result,
    .returned number t .isFull result ∈ (run n blank actions).history →
      ∃ b, result = .truth b ∧ Sometime n blank actions t number fun r => b = true ↔ r.Refuses
  /-- and if the answer is that it is full, then for the instant of the load of the sequence
  number, with which the call returns -/
  full : ∀ number t, .returned number t .isFull (.truth true) ∈ (run n blank actions).history →
    ∃ k spurious a, actions[k]? = some (.step t spurious) ∧
      (stateAt n blank actions k).active t = some a ∧ a.number = number ∧
      a.call = .fullExamine (stateAt n blank actions k).ring.tail ∧
      .returned number t .isFull (.truth true) ∈ (stateAt n blank actions (k + 1)).history ∧
      (stateAt n blank actions k).ring.Refuses
  /-- the size is at most that of the ring; at all instants between the two loads it is not
  less than what lies between the cursors, and if it is zero the ring is empty -/
  size : ∀ number t result, .returned number t .size result ∈ (run n blank actions).history →
    ∃ count, result = .size count ∧ count ≤ n.word ∧
      (∃ k, BetweenLoads n blank actions t number k) ∧
      ∀ k, BetweenLoads n blank actions t number k →
        (stateAt n blank actions k).ring.tail - (stateAt n blank actions k).ring.head ≤ count ∧
        (count = 0 →
          (stateAt n blank actions k).ring.head = (stateAt n blank actions k).ring.tail)

section Asked

variable {number : Nat} {t : ι} {result : Return α}

/-- The call of a return takes its last step at one instant. -/
theorem exists_last_step {request : Request α}
    (hr : .returned number t request result ∈ (run n blank actions).history) :
    ∃ k spurious a, actions[k]? = some (.step t spurious) ∧
      (stateAt n blank actions k).active t = some a ∧ a.number = number ∧
      a.request = request ∧
      (a.call.step spurious (stateAt n blank actions k).ring).2 = .returned result ∧
      .returned number t request result ∈ (stateAt n blank actions (k + 1)).history := by
  obtain ⟨k, action, haction, hold, hnew⟩ := exists_instant hr
  obtain ⟨spurious, a, rfl, ha, hn, hrequest, hturn⟩ := returned_of_act hold hnew
  refine ⟨k, spurious, a, haction, ha, hn, hrequest, hturn, ?_⟩
  rwa [stateAt_succ haction]

/-- A ring that is found to be empty is so then, and one that is not has not been so at some
instant. -/
theorem PacedRun.isEmpty_sometime (hpaced : PacedRun n blank actions) (hsize : n.size ≤ 2 ^ 57)
    (hr : .returned number t .isEmpty result ∈ (run n blank actions).history) :
    ∃ b, result = .truth b ∧
      Sometime n blank actions t number fun r => b = true ↔ r.head = r.tail := by
  obtain ⟨k, spurious, a, -, ha, hn, hrequest, hturn, -⟩ := exists_last_step hr
  have hsound := hpaced.sound k
  obtain ⟨head, hc, hsaw, rfl⟩ := hsound.emptyTail_of_returned ha hrequest hturn
  refine ⟨_, rfl, ?_⟩
  by_cases heq : head = (stateAt n blank actions k).ring.tail
  · refine ⟨k, a, ha, hn, ?_⟩
    simp [heq, hsound.empty_of_eq_tail (hpaced k) hsize ha hsaw heq]
  · have hseen := hpaced.seen_or_sometime (Q := fun call => ∃ head, call = .emptyTail head)
      (P := fun r => r.head ≠ r.tail) ?_ ?_ ?_ k ha ⟨head, hc⟩
    case refine_1 => rintro (_ | _ | _ | _ | _) ⟨_, hcall⟩ <;> cases hcall
    case refine_2 =>
      rintro s hs b _ ⟨_, rfl⟩
      rw [ne_eq, hs.ledger.follows.head_eq_tail_iff]
      exact em _
    case refine_3 =>
      intro s s' hs hs' hcomes htails
      have hle := hs.ledger.follows.heads_le
      rw [ne_eq, ne_eq, hs'.ledger.follows.head_eq_tail_iff]
      rcases hcomes.tails with htails' | ⟨htails', hheads, -⟩
      · exact absurd htails' htails
      · right
        omega
    rcases hseen with hseen | ⟨j, b, hb, hbn, hne⟩
    · rw [hsaw.1, hseen, hsound.ledger.follows.tail] at heq
      exact absurd rfl heq
    · refine ⟨j, b, hb, hbn.trans hn, ?_⟩
      simp [heq, hne]

/-- A ring that is found to be full refuses a push at that instant. -/
theorem PacedRun.refuses_of_full (hpaced : PacedRun n blank actions) (hsize : n.size ≤ 2 ^ 57)
    {k : Nat} {a : Activity α} (ha : (stateAt n blank actions k).active t = some a)
    {tail : UInt64} (hsaw : a.SawTail (stateAt n blank actions k).positions tail)
    (hv : verdict ((stateAt n blank actions k).ring.seqAt tail) tail = .behind) :
    tail = (stateAt n blank actions k).ring.tail ∧ (stateAt n blank actions k).ring.Refuses := by
  have hsound := hpaced.sound k
  obtain ⟨hcurrent, huse⟩ := hsound.current_of_full (hpaced k) hsize ha hsaw hv
  refine ⟨?_, hsound.ledger.follows.refuses_iff.mpr huse⟩
  rw [hsaw.1, hcurrent, hsound.ledger.follows.tail]

/-- A ring that is found not to be full has not been so at some instant. -/
theorem PacedRun.isFull_sometime (hpaced : PacedRun n blank actions) (hsize : n.size ≤ 2 ^ 57)
    (hr : .returned number t .isFull result ∈ (run n blank actions).history) :
    ∃ b, result = .truth b ∧
      Sometime n blank actions t number fun r => b = true ↔ r.Refuses := by
  obtain ⟨k, spurious, a, -, ha, hn, hrequest, hturn, -⟩ := exists_last_step hr
  have hsound := hpaced.sound k
  obtain ⟨tail, hc, hsaw, rfl⟩ := hsound.fullExamine_of_returned ha hrequest hturn
  refine ⟨_, rfl, ?_⟩
  by_cases hv : verdict ((stateAt n blank actions k).ring.seqAt tail) tail = .behind
  · refine ⟨k, a, ha, hn, ?_⟩
    simp [hv, (hpaced.refuses_of_full hsize ha hsaw hv).2]
  · have hseen := hpaced.seen_or_sometime (Q := fun call => ∃ tail, call = .fullExamine tail)
      (P := fun r => ¬r.Refuses) ?_ ?_ ?_ k ha ⟨tail, hc⟩
    case refine_1 => rintro (_ | _ | _ | _ | _) ⟨_, hcall⟩ <;> cases hcall
    case refine_2 =>
      rintro s hs b _ ⟨_, rfl⟩
      exact .inl rfl
    case refine_3 =>
      intro s s' hs hs' hcomes htails
      rcases hcomes.tails with htails' | ⟨-, -, hfree⟩
      · exact absurd htails' htails
      · left
        rw [hs.ledger.follows.refuses_iff]
        exact not_not.mpr hfree
    rcases hseen with hseen | ⟨j, b, hb, hbn, hfree⟩
    · refine ⟨k, a, ha, hn, ?_⟩
      have htail : tail = (stateAt n blank actions k).ring.tail := by
        rw [hsaw.1, hseen, hsound.ledger.follows.tail]
      simp [Ring.refuses_iff, ← htail]
    · refine ⟨j, b, hb, hbn.trans hn, ?_⟩
      simp [hv, hfree]

/-- The size is not too small for any instant between the two loads. -/
theorem PacedRun.size_between (hpaced : PacedRun n blank actions) (hsize : n.size ≤ 2 ^ 57)
    (hr : .returned number t .size result ∈ (run n blank actions).history) :
    ∃ count, result = .size count ∧ count ≤ n.word ∧
      (∃ k, BetweenLoads n blank actions t number k) ∧
      ∀ k, BetweenLoads n blank actions t number k →
        (stateAt n blank actions k).ring.tail - (stateAt n blank actions k).ring.head ≤ count ∧
        (count = 0 →
          (stateAt n blank actions k).ring.head = (stateAt n blank actions k).ring.tail) := by
  obtain ⟨k, spurious, a, -, ha, hn, hrequest, hturn, hlast⟩ := exists_last_step hr
  have hsound := hpaced.sound k
  obtain ⟨head, hc, ⟨hhead, hbefore, hle⟩, rfl⟩ := hsound.sizeTail_of_returned ha hrequest hturn
  have hnear := (hpaced k t a ha).2
  have hroom := hsound.ledger.follows.tails_le
  have hheads := hsound.ledger.follows.heads_le
  have hcount := Ring.toNat_sizeBetween (n := n) (hle.trans hheads) (by omega)
  rw [← hhead, ← hsound.ledger.follows.tail] at hcount
  have hbetween : ∀ j, BetweenLoads n blank actions t number j →
      (stateAt n blank actions j).ring.tail - (stateAt n blank actions j).ring.head ≤
        Ring.sizeBetween n (stateAt n blank actions k).ring.tail head := by
    rintro j ⟨b, head', hb, hbn, hbc⟩
    have hsound' := hpaced.sound j
    -- after the return no call has the number
    have hjk : j ≤ k := by
      by_contra hlt
      have hreturned := mem_history_stateAt_mono (Nat.lt_of_not_le hlt) hlast
      exact hsound'.roster.returned_inactive _ _ _ _ hreturned t b hb hbn
    obtain rfl := hpaced.eq_of_sizeTail hjk hb hbc ha (hn.trans hbn.symm)
    have hbacks := hsound'.roster.active_backs t a hb
    simp only [Backs, hc] at hbacks
    have hseen := hbacks.2.2.2
    have htails := hpaced.tails_mono hjk
    have hroom' := hsound'.ledger.follows.tails_le
    rw [UInt64.le_iff_toNat_le, hsound'.ledger.follows.toNat_tail_sub_head, hcount]
    omega
  refine ⟨_, rfl, ?_, ⟨k, a, head, ha, hn, hc⟩, ?_⟩
  · rw [UInt64.le_iff_toNat_le, hcount, SlotCount.toNat_word]
    exact Nat.min_le_right _ _
  · intro j hj
    refine ⟨hbetween j hj, fun hzero => ?_⟩
    have hle := hbetween j hj
    have hfollows := (hpaced.sound j).ledger.follows
    rw [hzero, UInt64.le_iff_toNat_le, hfollows.toNat_tail_sub_head] at hle
    have hheads' := hfollows.heads_le
    rw [hfollows.head_eq_tail_iff]
    exact Nat.le_antisymm hheads' (Nat.le_of_sub_eq_zero (Nat.le_zero.mp hle))

end Asked

/-- Whatever the threads do and in whatever order their steps come, every answer is right
for an instant of the call. -/
theorem PacedRun.answers (hpaced : PacedRun n blank actions) (hsize : n.size ≤ 2 ^ 57) :
    Answers n blank actions where
  isEmpty _ _ _ hr := hpaced.isEmpty_sometime hsize hr
  isFull _ _ _ hr := hpaced.isFull_sometime hsize hr
  full number t hr := by
    obtain ⟨k, spurious, a, haction, ha, hn, hrequest, hturn, hlast⟩ := exists_last_step hr
    obtain ⟨tail, hc, hsaw, hb⟩ := (hpaced.sound k).fullExamine_of_returned ha hrequest hturn
    have hv : verdict ((stateAt n blank actions k).ring.seqAt tail) tail = .behind := by
      simpa using hb.symm
    obtain ⟨rfl, hrefuses⟩ := hpaced.refuses_of_full hsize ha hsaw hv
    exact ⟨k, spurious, a, haction, ha, hn, hc, hlast, hrefuses⟩
  size _ _ _ hr := hpaced.size_between hsize hr

/-- Two pushes fill a ring of two slots while three queries are each between their two
loads: the ring is no longer empty, it is full, and the size is that of the second load. -/
def questions : List (Action Bool Nat) :=
  [.begin false .isEmpty, .step false false, .begin true (.push 7), .step true false,
    .step true false, .step true false, .step false false, .begin false .size,
    .step false false, .step true false, .step true false, .begin true (.push 8),
    .step true false, .step true false, .step true false, .step false false,
    .begin false .isFull, .step false false, .step true false, .step false false]

theorem questions_answers :
    SlotCount.size ⟨1, by decide, by decide⟩ ≤ 2 ^ 57 ∧
      PacedRun ⟨1, by decide, by decide⟩ 0 questions ∧
      Answers ⟨1, by decide, by decide⟩ 0 questions ∧
      .returned 0 false .isEmpty (.truth false) ∈
        (run ⟨1, by decide, by decide⟩ 0 questions).history ∧
      .returned 2 false .size (.size 2) ∈
        (run ⟨1, by decide, by decide⟩ 0 questions).history ∧
      .returned 4 false .isFull (.truth true) ∈
        (run ⟨1, by decide, by decide⟩ 0 questions).history :=
  have hsize : SlotCount.size ⟨1, by decide, by decide⟩ ≤ 2 ^ 57 := by decide
  have hpaced : PacedRun ⟨1, by decide, by decide⟩ 0 questions :=
    pacedRun_of_length_le _ _ _ (by simp [questions])
  ⟨hsize, hpaced, hpaced.answers hsize, List.mem_of_getElem? (i := 3) rfl,
    List.mem_of_getElem? (i := 8) rfl, List.mem_of_getElem? (i := 10) rfl⟩

end System

end LockFreeRings.Mpmc
