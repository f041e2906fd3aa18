import LockFreeRings.Proofs.Mpmc.Instants
set_option autoImplicit false

/-!
# Who goes round again was overtaken

A push or a pop reads its cursor, looks at the slot that the cursor names, and tries to
move the cursor on.  If the slot is ahead or the cursor has moved it goes round this loop
again, and nothing in the loop counts the rounds.

Seen from the current cursor a slot is level or behind, never ahead
(`Follows.tail_ne_ahead`, `Follows.head_ne_ahead`), whatever positions other calls hold
and whatever building of elements has failed.  So a call that goes round has failed by
chance, or its cursor is an old one.  The cursor became old because another call moved it
(`GoesBy.exists_mover`), and that call got what it wanted.  A call that is left alone reads
the current cursor at the latest when it goes round, and then comes to its end
(`Follows.ends`).
-/

namespace LockFreeRings.Mpmc

variable {n : SlotCount} {α ι : Type}

/-! ## The cursor of a call -/

/-- Pushes move the tail, and pops the head. -/
inductive Cursor where
  | tail
  | head
  deriving DecidableEq, Repr

/-- The word of a cursor. -/
def Ring.cursor (r : Ring n α) : Cursor → UInt64
  | .tail => r.tail
  | .head => r.head

/-- How often a cursor was moved. -/
def Positions.count (p : Positions) : Cursor → Nat
  | .tail => p.tails
  | .head => p.heads

namespace Call

/-- The cursor that a call is to move, and the word that it has read there. -/
def aim? : Call α → Option (Cursor × UInt64)
  | .pushExamine _ pos | .pushClaim _ pos => some (.tail, pos)
  | .popExamine pos | .popClaim pos => some (.head, pos)
  | _ => none

/-- The cursor that a push or a pop reads with its next step.  A compare-and-swap reads it
too. -/
def reads? : Call α → Option Cursor
  | .pushLoad _ | .pushClaim _ _ => some .tail
  | .popLoad | .popClaim _ => some .head
  | _ => none

/-- The cursor that a call tries to move with its next step, and where it must stand. -/
def claims? : Call α → Option (Cursor × UInt64)
  | .pushClaim _ pos => some (.tail, pos)
  | .popClaim pos => some (.head, pos)
  | _ => none

/-- Whether a call that goes on like this goes round its loop again. -/
def retries : Call α → Call α → Bool
  | .pushExamine _ _, .pushLoad _ | .pushClaim _ _, .pushExamine _ _
  | .popExamine _, .popLoad | .popClaim _, .popExamine _ => true
  | _, _ => false

/-- Whether the next step of a call loads the sequence number of a slot. -/
def looks : Call α → Bool
  | .pushExamine _ _ | .popExamine _ | .fullExamine _ => true
  | _ => false

/-- How many sequence numbers a call that runs alone loads in its next steps, of which
there are `fuel`. -/
def looksAlone : Nat → Ring n α → Call α → Nat
  | 0, _, _ => 0
  | fuel + 1, r, call =>
    (if call.looks then 1 else 0) +
      match call.step false r with
      | (r, .running call) => looksAlone fuel r call
      | (_, .returned _) => 0

end Call

/-! ## Calls that run alone -/

namespace Call

/-- Alone on this ring, a call returns within so many steps, and with so many looks at
slots. -/
structure EndsAlone (r : Ring n α) (call : Call α) (steps looks : Nat) : Prop where
  returns : ∃ r' result, call.alone steps r = (r', .returned result)
  looks_le : looksAlone steps r call ≤ looks

namespace EndsAlone

variable {r r' : Ring n α} {call next : Call α} {result : Return α} {steps looks more : Nat}

theorem returned (h : (call.step false r).2 = .returned result)
    (hlooks : (if call.looks then 1 else 0) ≤ looks) : EndsAlone r call (steps + 1) looks := by
  generalize hstep : call.step false r = stepped at h
  obtain ⟨r', turn⟩ := stepped
  obtain rfl : turn = .returned result := h
  refine ⟨⟨r', result, by rw [Call.alone, hstep]⟩, ?_⟩
  rw [looksAlone, hstep]
  exact hlooks

theorem running (h : call.step false r = (r', .running next)) (hnext : EndsAlone r' next steps looks)
    (hlooks : (if call.looks then 1 else 0) + looks ≤ more) :
    EndsAlone r call (steps + 1) more := by
  obtain ⟨r'', result, hreturns⟩ := hnext.returns
  refine ⟨⟨r'', result, by rw [Call.alone, h]; exact hreturns⟩, ?_⟩
  rw [looksAlone, h]
  exact (Nat.add_le_add_left hnext.looks_le _).trans hlooks

theorem mono (h : EndsAlone r call steps looks) (hle : looks ≤ more) :
    EndsAlone r call steps more :=
  ⟨h.returns, h.looks_le.trans hle⟩

/-! ### Calls that have a position -/

theorem pushStore (r : Ring n α) (v : α) (pos : UInt64) (steps : Nat) :
    EndsAlone r (.pushStore v pos) (steps + 2) 0 :=
  .running rfl (.returned rfl (Nat.le_refl _)) (Nat.le_refl _)

theorem pushClaim_tail (r : Ring n α) (v : α) (steps : Nat) :
    EndsAlone r (.pushClaim v r.tail) (steps + 3) 0 :=
  .running (if_pos ⟨rfl, rfl⟩) (pushStore _ v _ steps) (Nat.le_refl _)

theorem popTake (r : Ring n α) (pos : UInt64) (steps : Nat) :
    EndsAlone r (.popTake pos) (steps + 2) 0 :=
  .running rfl (.returned rfl (Nat.le_refl _)) (Nat.le_refl _)

theorem popClaim_head (r : Ring n α) (steps : Nat) :
    EndsAlone r (.popClaim r.head) (steps + 3) 0 :=
  .running (if_pos ⟨rfl, rfl⟩) (popTake _ _ steps) (Nat.le_refl _)

end EndsAlone

end Call

namespace Ring.Follows

open Call (EndsAlone)

variable {r : Ring n α} {p : Positions}

theorem tail_ne_ahead (h : r.Follows p) : verdict (r.seqAt r.tail) r.tail ≠ .ahead := by
  rw [h.tail, h.verdict_tail]
  split <;> simp

theorem head_ne_ahead (h : r.Follows p) : verdict (r.seqAt r.head) (r.head + 1) ≠ .ahead := by
  rw [h.head, ← ofNat_succ, h.verdict_head]
  split <;> simp

/-! ### Pushes -/

/-- From the current tail a push takes its position or is refused. -/
theorem pushExamine_tail_ends (h : r.Follows p) (v : α) (steps : Nat) :
    EndsAlone r (.pushExamine v r.tail) (steps + 4) 1 := by
  cases hv : verdict (r.seqAt r.tail) r.tail with
  | level =>
      exact .running (by rw [Call.step, hv]) (.pushClaim_tail r v steps) (Nat.le_refl _)
  | behind => exact .returned (by rw [Call.step, hv]) (Nat.le_refl _)
  | ahead => exact absurd hv h.tail_ne_ahead

theorem pushLoad_ends (h : r.Follows p) (v : α) (steps : Nat) :
    EndsAlone r (.pushLoad v) (steps + 5) 1 :=
  .running rfl (h.pushExamine_tail_ends v steps) (Nat.le_refl _)

/-- From an old tail the compare-and-swap finds the current one. -/
theorem pushClaim_ends (h : r.Follows p) (v : α) (pos : UInt64) (steps : Nat) :
    EndsAlone r (.pushClaim v pos) (steps + 5) 1 := by
  by_cases hpos : r.tail = pos
  · subst hpos
    exact (EndsAlone.pushClaim_tail r v (steps + 2)).mono (Nat.zero_le 1)
  · have hstep : Call.step false r (.pushClaim v pos) = (r, .running (.pushExamine v r.tail)) :=
      if_neg fun hswap => hpos hswap.1
    exact .running hstep (h.pushExamine_tail_ends v steps) (Nat.le_refl _)

theorem pushExamine_ends (h : r.Follows p) (v : α) (pos : UInt64) (steps : Nat) :
    EndsAlone r (.pushExamine v pos) (steps + 6) 2 := by
  cases hv : verdict (r.seqAt pos) pos with
  | level => exact .running (by rw [Call.step, hv]) (h.pushClaim_ends v pos steps) (Nat.le_refl _)
  | behind => exact .returned (by rw [Call.step, hv]) (Nat.le_succ 1)
  | ahead => exact .running (by rw [Call.step, hv]) (h.pushLoad_ends v steps) (Nat.le_refl _)

/-! ### Pops -/

/-- From the current head a pop takes its position or is refused. -/
theorem popExamine_head_ends (h : r.Follows p) (steps : Nat) :
    EndsAlone r (.popExamine r.head) (steps + 4) 1 := by
  cases hv : verdict (r.seqAt r.head) (r.head + 1) with
  | level => exact .running (by rw [Call.step, hv]) (.popClaim_head r steps) (Nat.le_refl _)
  | behind => exact .returned (by rw [Call.step, hv]) (Nat.le_refl _)
  | ahead => exact absurd hv h.head_ne_ahead

theorem popLoad_ends (h : r.Follows p) (steps : Nat) : EndsAlone r .popLoad (steps + 5) 1 :=
  .running rfl (h.popExamine_head_ends steps) (Nat.le_refl _)

/-- From an old head the compare-and-swap finds the current one. -/
theorem popClaim_ends (h : r.Follows p) (pos : UInt64) (steps : Nat) :
    EndsAlone r (.popClaim pos) (steps + 5) 1 := by
  by_cases hpos : r.head = pos
  · subst hpos
    exact (EndsAlone.popClaim_head r (steps + 2)).mono (Nat.zero_le 1)
  · have hstep : Call.step false r (.popClaim pos) = (r, .running (.popExamine r.head)) :=
      if_neg fun hswap => hpos hswap.1
    exact .running hstep (h.popExamine_head_ends steps) (Nat.le_refl _)

theorem popExamine_ends (h : r.Follows p) (pos : UInt64) (steps : Nat) :
    EndsAlone r (.popExamine pos) (steps + 6) 2 := by
  cases hv : verdict (r.seqAt pos) (pos + 1) with
  | level => exact .running (by rw [Call.step, hv]) (h.popClaim_ends pos steps) (Nat.le_refl _)
  | behind => exact .returned (by rw [Call.step, hv]) (Nat.le_succ 1)
  | ahead => exact .running (by rw [Call.step, hv]) (h.popLoad_ends steps) (Nat.le_refl _)

/-! ### Any call -/

/-- A call that is left alone returns within six steps, and looks at a slot at most twice,
whatever the others have left behind. -/
theorem ends (h : r.Follows p) (call : Call α) : EndsAlone r call 6 2 := by
  cases call with
  | pushLoad v => exact (h.pushLoad_ends v 1).mono (Nat.le_succ 1)
  | pushExamine v pos => exact h.pushExamine_ends v pos 0
  | pushClaim v pos => exact (h.pushClaim_ends v pos 1).mono (Nat.le_succ 1)
  | pushStore v pos => exact (EndsAlone.pushStore r v pos 4).mono (Nat.zero_le 2)
  | popLoad => exact (h.popLoad_ends 1).mono (Nat.le_succ 1)
  | popExamine pos => exact h.popExamine_ends pos 0
  | popClaim pos => exact (h.popClaim_ends pos 1).mono (Nat.le_succ 1)
  | popTake pos => exact (EndsAlone.popTake r pos 4).mono (Nat.zero_le 2)
  | pushPublish pos => exact .returned rfl (Nat.zero_le 2)
  | popRelease pos v => exact .returned rfl (Nat.zero_le 2)
  | emptyTail head => exact .returned rfl (Nat.zero_le 2)
  | sizeTail head => exact .returned rfl (Nat.zero_le 2)
  | fullExamine tail => exact .returned rfl (Nat.le_succ 1)
  | emptyHead => exact .running rfl (.returned rfl (Nat.le_refl _)) (Nat.zero_le 2)
  | sizeHead => exact .running rfl (.returned rfl (Nat.le_refl _)) (Nat.zero_le 2)
  | fullTail => exact .running rfl (.returned rfl (Nat.le_refl _)) (Nat.le_succ 1)

end Ring.Follows

namespace System

variable [DecidableEq ι]

/-! ## A thread that runs alone -/

section Alone

variable {s : System n α ι} {t : ι} {a : Activity α}

/-- What is left of the call of a thread that takes a step. -/
theorem active_advance (s : System n α ι) (t : ι) (a : Activity α) (spurious : Bool) :
    (s.advance t a spurious).active t =
      match (a.call.step spurious s.ring).2 with
      | .running call => some { a with call := call, seen := s.seenAfter a call }
      | .returned _ => none := by
  simp only [advance]
  generalize (a.call.step spurious s.ring).2 = turn
  cases turn <;> exact Function.update_self ..

theorem ring_advance (s : System n α ι) (t : ι) (a : Activity α) (spurious : Bool) :
    (s.advance t a spurious).ring = (a.call.step spurious s.ring).1 := rfl

theorem history_advance_of_returned {spurious : Bool} {result : Return α}
    (h : (a.call.step spurious s.ring).2 = .returned result) :
    .returned a.number t a.request result ∈ (s.advance t a spurious).history := by
  simp only [advance, h, resume]
  exact List.mem_append_right _ List.mem_cons_self

/-- The thread `t` takes so many steps, and no other thread takes any. -/
def alone (s : System n α ι) (t : ι) (steps : Nat) : System n α ι :=
  (List.replicate steps (.step t false)).foldl act s

theorem alone_succ (ha : s.active t = some a) (steps : Nat) :
    s.alone t (steps + 1) = (s.advance t a false).alone t steps := by
  rw [alone, List.replicate_succ, List.foldl_cons, alone]
  simp only [act, ha]

theorem alone_of_idle (h : s.active t = none) (steps : Nat) : s.alone t steps = s := by
  induction steps with
  | zero => rfl
  | succ steps ih =>
      rw [alone, List.replicate_succ, List.foldl_cons]
      simp only [act, h]
      exact ih

/-- A call whose thread runs alone does what the call does alone on the ring. -/
theorem alone_of_alone {steps : Nat} {r : Ring n α} {result : Return α}
    (ha : s.active t = some a) (h : a.call.alone steps s.ring = (r, .returned result)) :
    (s.alone t steps).ring = r ∧ (s.alone t steps).active t = none ∧
      .returned a.number t a.request result ∈ (s.alone t steps).history := by
  induction steps generalizing s a with
  | zero => cases h
  | succ steps ih =>
      rw [alone_succ ha]
      rw [Call.alone] at h
      rcases hstep : a.call.step false s.ring with ⟨r₁, next | result₁⟩
      · have hring : (s.advance t a false).ring = r₁ := congrArg Prod.fst hstep
        rw [hstep, ← hring] at h
        refine ih (a := { a with call := next, seen := s.seenAfter a next }) ?_ h
        rw [active_advance, hstep]
      · rw [hstep] at h
        cases h
        have hidle : (s.advance t a false).active t = none := by rw [active_advance, hstep]
        rw [alone_of_idle hidle]
        exact ⟨congrArg Prod.fst hstep, hidle,
          history_advance_of_returned (congrArg Prod.snd hstep)⟩

end Alone

/-! ## Why a call goes round -/

section Aimed

variable {s : System n α ι} {t : ι} {a : Activity α} {c : Cursor} {pos : UInt64}
  {spurious : Bool} {next : Call α}

omit [DecidableEq ι] in
/-- A call that is to move a cursor has read it with its last step, or had read it before. -/
theorem aim_of_step (s : System n α ι)
    (hturn : (a.call.step spurious s.ring).2 = .running next) (haim : next.aim? = some (c, pos)) :
    a.call.reads? = some c ∧ s.seenAfter a next = s.positions.count c ∨
      a.call.reads? = none ∧ a.call.aim? = some (c, pos) ∧ s.seenAfter a next = a.seen := by
  cases hcall : a.call with
  | pushLoad v =>
      rw [hcall] at hturn
      cases hturn
      cases haim
      exact .inl ⟨rfl, rfl⟩
  | popLoad =>
      rw [hcall] at hturn
      cases hturn
      cases haim
      exact .inl ⟨rfl, rfl⟩
  | pushExamine v p =>
      rw [hcall] at hturn
      cases hv : verdict (s.ring.seqAt p) p <;> simp only [Call.step, hv] at hturn <;> cases hturn
      · exact .inr ⟨rfl, haim, rfl⟩
      · cases haim
  | popExamine p =>
      rw [hcall] at hturn
      cases hv : verdict (s.ring.seqAt p) (p + 1) <;> simp only [Call.step, hv] at hturn <;>
        cases hturn
      · exact .inr ⟨rfl, haim, rfl⟩
      · cases haim
  | pushClaim v p =>
      rw [hcall] at hturn
      simp only [Call.step] at hturn
      split at hturn <;> cases hturn <;> cases haim
      exact .inl ⟨rfl, rfl⟩
  | popClaim p =>
      rw [hcall] at hturn
      simp only [Call.step] at hturn
      split at hturn <;> cases hturn <;> cases haim
      exact .inl ⟨rfl, rfl⟩
  | _ =>
      rw [hcall] at hturn
      cases hturn
      try cases haim

/-- A call that goes round has found its slot ahead, or its compare-and-swap has failed. -/
theorem found_of_retries {r : Ring n α} {call : Call α}
    (hturn : (call.step spurious r).2 = .running next) (hretries : call.retries next = true) :
    (∃ v pos, call = .pushExamine v pos ∧ verdict (r.seqAt pos) pos = .ahead) ∨
      (∃ v pos, call = .pushClaim v pos ∧ ¬(r.tail = pos ∧ spurious = false)) ∨
      (∃ pos, call = .popExamine pos ∧ verdict (r.seqAt pos) (pos + 1) = .ahead) ∨
      ∃ pos, call = .popClaim pos ∧ ¬(r.head = pos ∧ spurious = false) := by
  cases call with
  | pushExamine v pos =>
      cases hv : verdict (r.seqAt pos) pos <;> simp only [Call.step, hv] at hturn <;> cases hturn
      · cases hretries
      · exact .inl ⟨v, pos, rfl, hv⟩
  | pushClaim v pos =>
      simp only [Call.step] at hturn
      split at hturn
      · cases hturn
        cases hretries
      · next hswap => exact .inr (.inl ⟨v, pos, rfl, hswap⟩)
  | popExamine pos =>
      cases hv : verdict (r.seqAt pos) (pos + 1) <;> simp only [Call.step, hv] at hturn <;>
        cases hturn
      · cases hretries
      · exact .inr (.inr (.inl ⟨pos, rfl, hv⟩))
  | popClaim pos =>
      simp only [Call.step] at hturn
      split at hturn
      · cases hturn
        cases hretries
      · next hswap => exact .inr (.inr (.inr ⟨pos, rfl, hswap⟩))
  | _ => cases hretries

omit [DecidableEq ι] in
/-- A push or a pop that goes round again has failed by chance, or its cursor is an old
one: seen from the current cursor its slot would not be ahead. -/
theorem Sound.lt_of_retries (h : s.Sound) (ha : s.active t = some a)
    (hturn : (a.call.step spurious s.ring).2 = .running next)
    (hretries : a.call.retries next = true) :
    ∃ c pos, a.call.aim? = some (c, pos) ∧
      (a.call.claims? = some (c, pos) ∧ s.ring.cursor c = pos ∧ spurious = true ∨
        a.seen < s.positions.count c) := by
  have hbacks := h.roster.active_backs t a ha
  have htail := h.ledger.follows.tail
  have hhead := h.ledger.follows.head
  rcases found_of_retries hturn hretries with
    ⟨v, pos, hcall, hahead⟩ | ⟨v, pos, hcall, hswap⟩ | ⟨pos, hcall, hahead⟩ | ⟨pos, hcall, hswap⟩
  all_goals simp only [Backs, hcall] at hbacks
  · obtain ⟨-, hpos, -, hle⟩ := hbacks
    refine ⟨.tail, pos, by rw [hcall]; rfl, .inr (Nat.lt_of_le_of_ne hle fun hseen => ?_)⟩
    obtain rfl : s.ring.tail = pos := htail.trans ((congrArg UInt64.ofNat hseen.symm).trans hpos.symm)
    exact h.ledger.follows.tail_ne_ahead hahead
  · obtain ⟨-, ⟨hpos, -, hle⟩, -⟩ := hbacks
    refine ⟨.tail, pos, by rw [hcall]; rfl, ?_⟩
    refine (Nat.lt_or_eq_of_le hle).elim .inr fun hseen => .inl ⟨by rw [hcall]; rfl, ?_⟩
    have hcurrent : s.ring.tail = pos := by rw [hpos, hseen, htail]
    exact ⟨hcurrent, Bool.of_not_eq_false fun hfalse => hswap ⟨hcurrent, hfalse⟩⟩
  · obtain ⟨-, hpos, -, hle⟩ := hbacks
    refine ⟨.head, pos, by rw [hcall]; rfl, .inr (Nat.lt_of_le_of_ne hle fun hseen => ?_)⟩
    obtain rfl : s.ring.head = pos := hhead.trans ((congrArg UInt64.ofNat hseen.symm).trans hpos.symm)
    exact h.ledger.follows.head_ne_ahead hahead
  · obtain ⟨-, ⟨hpos, -, hle⟩, -⟩ := hbacks
    refine ⟨.head, pos, by rw [hcall]; rfl, ?_⟩
    refine (Nat.lt_or_eq_of_le hle).elim .inr fun hseen => .inl ⟨by rw [hcall]; rfl, ?_⟩
    have hcurrent : s.ring.head = pos := by rw [hpos, hseen, hhead]
    exact ⟨hcurrent, Bool.of_not_eq_false fun hfalse => hswap ⟨hcurrent, hfalse⟩⟩

/-- A call in progress that aims at a cursor was in progress before an action that is no
step of its own. -/
theorem active_of_other {action : Action ι α} (hother : ∀ spurious, action ≠ .step t spurious)
    (ha : (s.act action).active t = some a) (haim : a.call.aim? = some (c, pos)) :
    s.active t = some a := by
  cases action with
  | begin u request =>
      cases hu : s.active u with
      | some b => simpa only [act, hu] using ha
      | none =>
          simp only [act, hu, System.begin, Function.update_apply] at ha
          split at ha
          · cases ha
            cases request <;> cases haim
          · exact ha
  | fail u =>
      cases hu : s.active u with
      | none => simpa only [act, hu] using ha
      | some b =>
          simp only [act, hu] at ha
          split at ha
          · simp only [giveUp, Function.update_apply] at ha
            split at ha
            · cases ha
            · exact ha
          · exact ha
  | step u spurious =>
      have hne : t ≠ u := by
        rintro rfl
        exact hother spurious rfl
      cases hu : s.active u with
      | none => simpa only [act, hu] using ha
      | some b =>
          have hnote : ∀ turn, (s.note b turn).active = s.active := by
            intro turn
            unfold note
            split <;> rfl
          simp only [act, hu, advance] at ha
          generalize (b.call.step spurious s.ring).2 = turn at ha
          cases turn with
          | running call => simpa only [resume, hnote, Function.update_of_ne hne] using ha
          | returned result => simpa only [resume, hnote, Function.update_of_ne hne] using ha

theorem positions_advance (s : System n α ι) (t : ι) (a : Activity α) (spurious : Bool) :
    (s.advance t a spurious).positions =
      (s.note a (a.call.step spurious s.ring).2).positions := by
  simp only [advance]
  generalize (a.call.step spurious s.ring).2 = turn
  cases turn <;> rfl

omit [DecidableEq ι] in
/-- A step after which a call is still to move a cursor takes nothing. -/
theorem note_of_aim (s : System n α ι) (a : Activity α) (haim : next.aim? = some (c, pos)) :
    s.note a (.running next) = s := by
  unfold note
  split
  · next hturn =>
    cases hturn
    cases haim
  · next hturn =>
    cases hturn
    cases haim
  · next hturn => cases hturn
  · next hturn => cases hturn
  · rfl

/-- A step that moves a cursor is a compare-and-swap that succeeds. -/
theorem claims_of_count (hcount : (s.advance t a spurious).positions.count c ≠ s.positions.count c) :
    a.call.claims? = some (c, s.ring.cursor c) ∧
      (s.advance t a spurious).ring.cursor c = s.ring.cursor c + 1 := by
  rw [positions_advance] at hcount
  rw [ring_advance]
  cases hcall : a.call with
  | pushClaim v pos =>
      by_cases hswap : s.ring.tail = pos ∧ spurious = false
      · obtain ⟨rfl, rfl⟩ := hswap
        cases c with
        | tail => exact ⟨rfl, by rw [Call.step, if_pos ⟨rfl, rfl⟩]; rfl⟩
        | head => simp [note, hcall, Call.step, Positions.count] at hcount
      · simp [note, hcall, Call.step, hswap] at hcount
  | popClaim pos =>
      by_cases hswap : s.ring.head = pos ∧ spurious = false
      · obtain ⟨rfl, rfl⟩ := hswap
        cases c with
        | tail => simp [note, hcall, Call.step, Positions.count] at hcount
        | head => exact ⟨rfl, by rw [Call.step, if_pos ⟨rfl, rfl⟩]; rfl⟩
      · simp [note, hcall, Call.step, hswap] at hcount
  | pushPublish pos | popRelease pos v =>
      cases c <;> simp [note, hcall, Call.step, Positions.count] at hcount
  | pushExamine v pos | popExamine pos =>
      cases hturn : (a.call.step spurious s.ring).2 <;> simp [note, hcall] at hcount
  | _ => simp [note, hcall, Call.step] at hcount

/-- A cursor is moved by a compare-and-swap that succeeds. -/
theorem mover_of_count {action : Action ι α}
    (hcount : (s.act action).positions.count c ≠ s.positions.count c) :
    ∃ u spurious b, action = .step u spurious ∧ s.active u = some b ∧
      b.call.claims? = some (c, s.ring.cursor c) ∧
      (s.act action).ring.cursor c = s.ring.cursor c + 1 := by
  cases action with
  | begin u request => cases hu : s.active u <;> simp [act, hu, System.begin] at hcount
  | fail u =>
      cases hu : s.active u with
      | none => simp [act, hu] at hcount
      | some b =>
          simp only [act, hu] at hcount
          split at hcount <;> simp [giveUp] at hcount
  | step u spurious =>
      cases hu : s.active u with
      | none => simp [act, hu] at hcount
      | some b =>
          simp only [act, hu] at hcount ⊢
          obtain ⟨hclaims, hcursor⟩ := claims_of_count hcount
          exact ⟨u, spurious, b, rfl, hu, hclaims, hcursor⟩

end Aimed

/-! ## Runs -/

section Runs

variable {blank : α} {actions : List (Action ι α)} {t : ι} {a : Activity α} {c : Cursor}
  {pos : UInt64} {number j k : Nat}

/-- With the action `j` the call `number` of the thread `t` reads a cursor. -/
def Reads (n : SlotCount) (blank : α) (actions : List (Action ι α)) (t : ι) (number : Nat)
    (c : Cursor) (j : Nat) : Prop :=
  ∃ spurious a, actions[j]? = some (.step t spurious) ∧
    (stateAt n blank actions j).active t = some a ∧ a.number = number ∧ a.call.reads? = some c

/-- Before the action `k` the call `number` of the thread `t` has read a cursor last with the
action `j`. -/
structure LastRead (n : SlotCount) (blank : α) (actions : List (Action ι α)) (t : ι)
    (number : Nat) (c : Cursor) (j k : Nat) : Prop where
  lt : j < k
  reads : Reads n blank actions t number c j
  since : ∀ m, j < m → m < k → ¬Reads n blank actions t number c m

/-- With the action `i` another call than `number` moves a cursor, and so takes a position. -/
def Moves (n : SlotCount) (blank : α) (actions : List (Action ι α)) (number : Nat)
    (c : Cursor) (i : Nat) : Prop :=
  ∃ u spurious b, actions[i]? = some (.step u spurious) ∧
    (stateAt n blank actions i).active u = some b ∧ b.number ≠ number ∧
    b.call.claims? = some (c, (stateAt n blank actions i).ring.cursor c) ∧
    (stateAt n blank actions (i + 1)).ring.cursor c =
      (stateAt n blank actions i).ring.cursor c + 1

/-- What a call that is to move a cursor goes by: it has read the cursor with the action `j`
and has been in progress since. -/
structure GoesBy (n : SlotCount) (blank : α) (actions : List (Action ι α)) (t : ι)
    (a : Activity α) (c : Cursor) (j k : Nat) : Prop where
  last : LastRead n blank actions t a.number c j k
  seen : a.seen = (stateAt n blank actions (j + 1)).positions.count c
  during : ∀ m, j < m → m ≤ k → ∃ b, (stateAt n blank actions m).active t = some b ∧
    b.number = a.number

/-- The call has gone on without reading the cursor. -/
theorem GoesBy.snoc {b : Activity α} (h : GoesBy n blank actions t b c j k)
    (ha : (stateAt n blank actions (k + 1)).active t = some a) (hnumber : a.number = b.number)
    (hseen : a.seen = b.seen) (hnot : ¬Reads n blank actions t b.number c k) :
    GoesBy n blank actions t a c j (k + 1) where
  last := by
    refine hnumber ▸ ⟨Nat.lt_succ_of_lt h.last.lt, h.last.reads, fun m hj hk => ?_⟩
    rcases Nat.lt_or_eq_of_le (Nat.le_of_lt_succ hk) with hlt | rfl
    · exact h.last.since m hj hlt
    · exact hnot
  seen := hseen.trans h.seen
  during m hj hk := by
    rcases Nat.lt_or_eq_of_le hk with hlt | rfl
    · obtain ⟨b', hb', hn⟩ := h.during m hj (Nat.le_of_lt_succ hlt)
      exact ⟨b', hb', hn.trans hnumber.symm⟩
    · exact ⟨a, ha, rfl⟩

/-- A call that is to move a cursor has read it at some time. -/
theorem exists_goesBy (k : Nat) (ha : (stateAt n blank actions k).active t = some a)
    (haim : a.call.aim? = some (c, pos)) : ∃ j, GoesBy n blank actions t a c j k := by
  induction k generalizing a with
  | zero =>
      rw [stateAt_zero] at ha
      cases ha
  | succ k ih =>
      by_cases hown : ∃ spurious, actions[k]? = some (.step t spurious)
      case neg =>
        have hnot : ¬Reads n blank actions t a.number c k := by
          rintro ⟨spurious, _, haction, -⟩
          exact hown ⟨spurious, haction⟩
        have hbefore : (stateAt n blank actions k).active t = some a := by
          rcases stateAt_succ_cases n blank actions k with ⟨action, haction, hstep⟩ | hstep
          · refine active_of_other ?_ (hstep ▸ ha) haim
            rintro spurious rfl
            exact hown ⟨spurious, haction⟩
          · exact hstep ▸ ha
        obtain ⟨j, hgoes⟩ := ih hbefore haim
        exact ⟨j, hgoes.snoc ha rfl rfl hnot⟩
      case pos =>
        obtain ⟨spurious, haction⟩ := hown
        have hstate : stateAt n blank actions (k + 1) =
            (stateAt n blank actions k).act (.step t spurious) := stateAt_succ haction
        cases hb : (stateAt n blank actions k).active t with
        | none =>
            rw [hstate] at ha
            simp only [act, hb] at ha
            cases ha
        | some b =>
            simp only [act, hb] at hstate
            have hafter := ha
            rw [hstate, active_advance] at hafter
            cases hturn : (b.call.step spurious (stateAt n blank actions k).ring).2 with
            | returned result =>
                rw [hturn] at hafter
                cases hafter
            | running next =>
                rw [hturn] at hafter
                cases hafter
                rcases aim_of_step _ hturn haim with ⟨hreads, hseen⟩ | ⟨hreads, hbaim, hseen⟩
                -- the step has read the cursor
                · refine ⟨k, ⟨Nat.lt_succ_self k, ⟨spurious, b, haction, hb, rfl, hreads⟩, ?_⟩,
                    ?_, ?_⟩
                  · intro m hj hm
                    omega
                  · rw [hstate, positions_advance, hturn, note_of_aim _ _ haim]
                    exact hseen
                  · intro m hj hm
                    obtain rfl : m = k + 1 := by omega
                    exact ⟨_, ha, rfl⟩
                · obtain ⟨j, hgoes⟩ := ih hb hbaim
                  refine ⟨j, hgoes.snoc ha rfl hseen ?_⟩
                  rintro ⟨_, b', -, hb', -, hreads'⟩
                  cases hb.symm.trans hb'
                  cases hreads.symm.trans hreads'

/-- Between two instants at which a cursor was moved differently often it was moved. -/
theorem exists_count_ne (hle : j ≤ k) (hne : (stateAt n blank actions k).positions.count c ≠
      (stateAt n blank actions j).positions.count c) :
    ∃ i, j ≤ i ∧ i < k ∧ (stateAt n blank actions (i + 1)).positions.count c ≠
      (stateAt n blank actions i).positions.count c := by
  induction k, hle using Nat.le_induction with
  | base => exact absurd rfl hne
  | succ k hle ih =>
      by_cases hstep : (stateAt n blank actions (k + 1)).positions.count c =
          (stateAt n blank actions k).positions.count c
      · obtain ⟨i, hj, hk, hmoved⟩ := ih (hstep ▸ hne)
        exact ⟨i, hj, Nat.lt_succ_of_lt hk, hmoved⟩
      · exact ⟨k, hle, Nat.lt_succ_self k, hstep⟩

/-- A cursor that was moved since a call has read it was moved by another call. -/
theorem GoesBy.exists_mover (h : GoesBy n blank actions t a c j k)
    (hpaced : PacedRun n blank actions)
    (hlt : a.seen < (stateAt n blank actions k).positions.count c) :
    ∃ i, j < i ∧ i < k ∧ Moves n blank actions a.number c i := by
  obtain ⟨i, hj, hk, hmoved⟩ := exists_count_ne (Nat.succ_le_of_lt h.last.lt)
    (by rw [← h.seen]; exact hlt.ne')
  refine ⟨i, hj, hk, ?_⟩
  rcases stateAt_succ_cases n blank actions i with ⟨action, haction, hstep⟩ | hstep
  case inr => exact absurd (congrArg (fun s => s.positions.count c) hstep) hmoved
  case inl =>
    rw [hstep] at hmoved
    obtain ⟨u, spurious, b, rfl, hb, hclaims, hcursor⟩ := mover_of_count hmoved
    refine ⟨u, spurious, b, haction, hb, fun hnumber => ?_, hclaims, hstep ▸ hcursor⟩
    -- a compare-and-swap of the call itself would have read the cursor
    obtain ⟨b', hb', hn⟩ := h.during i hj hk.le
    obtain rfl := (hpaced.sound i).roster.active_inj u t b b' hb hb' (hnumber.trans hn.symm)
    refine h.last.since i hj hk ⟨spurious, b, haction, hb, hnumber, ?_⟩
    cases hcall : b.call <;> rw [hcall] at hclaims <;> cases hclaims <;> rfl

/-! ## No call goes round for nothing -/

/-- What holds of the loops of pushes and pops in a run. -/
structure LockFree (n : SlotCount) (blank : α) (actions : List (Action ι α)) : Prop where
  /-- a call that goes round its loop again has failed by chance, although the cursor stood
  where it had read it, or another call has moved the cursor since it read it last -/
  overtaken : ∀ k t spurious a next, actions[k]? = some (.step t spurious) →
    (stateAt n blank actions k).active t = some a →
    (a.call.step spurious (stateAt n blank actions k).ring).2 = .running next →
    a.call.retries next = true → ∃ c pos, a.call.aim? = some (c, pos) ∧
      (a.call.claims? = some (c, pos) ∧ (stateAt n blank actions k).ring.cursor c = pos ∧
          spurious = true ∨
        ∃ j i, LastRead n blank actions t a.number c j k ∧ j < i ∧ i < k ∧
          Moves n blank actions a.number c i)
  /-- a call whose thread runs alone from some instant on, and does not fail by chance, looks
  at a slot at most twice and returns within six steps -/
  returns : ∀ k t a, (stateAt n blank actions k).active t = some a →
    Call.looksAlone 6 (stateAt n blank actions k).ring a.call ≤ 2 ∧
      ∃ r result, a.call.alone 6 (stateAt n blank actions k).ring = (r, .returned result) ∧
        ((stateAt n blank actions k).alone t 6).ring = r ∧
        ((stateAt n blank actions k).alone t 6).active t = none ∧
        .returned a.number t a.request result ∈ ((stateAt n blank actions k).alone t 6).history

/-- Whatever the threads do, in whatever order their steps come, and whatever calls are left
hanging or have failed: who goes round again was overtaken, and who is left alone returns. -/
theorem PacedRun.lockFree (hpaced : PacedRun n blank actions) : LockFree n blank actions where
  overtaken k t spurious a next haction ha hturn hretries := by
    obtain ⟨c, pos, haim, hchance | hlt⟩ := (hpaced.sound k).lt_of_retries ha hturn hretries
    · exact ⟨c, pos, haim, .inl hchance⟩
    · obtain ⟨j, hgoes⟩ := exists_goesBy k ha haim
      obtain ⟨i, hj, hk, hmoves⟩ := hgoes.exists_mover hpaced hlt
      exact ⟨c, pos, haim, .inr ⟨j, i, hgoes.last, hj, hk, hmoves⟩⟩
  returns k t a ha := by
    obtain ⟨⟨r, result, halone⟩, hlooks⟩ := (hpaced.sound k).ledger.follows.ends a.call
    exact ⟨hlooks, r, result, halone, alone_of_alone ha halone⟩

/-- The call of `false` has read the tail twice when another call moves it: first its slot is
ahead, and then its compare-and-swap fails.  The call that has moved the tail fails to build
its element, and a pop hangs at the position. -/
def overtaking : List (Action Bool Nat) :=
  [.begin false (.push 7), .step false false, .begin true (.push 8), .step true false,
    .step true false, .step true false, .step true false, .step true false,
    .step false false, .step false false, .step false false, .begin true (.push 9),
    .step true false, .step true false, .step true false, .fail true,
    .step false true, .begin true .pop, .step true false, .step true false]

theorem overtaking_lockFree :
    PacedRun ⟨1, by decide, by decide⟩ 0 overtaking ∧
      LockFree ⟨1, by decide, by decide⟩ 0 overtaking ∧
      ((stateAt ⟨1, by decide, by decide⟩ 0 overtaking 8).active false).map Activity.call =
        some (.pushExamine 7 0) ∧
      ((stateAt ⟨1, by decide, by decide⟩ 0 overtaking 9).active false).map Activity.call =
        some (.pushLoad 7) :=
  have hpaced : PacedRun ⟨1, by decide, by decide⟩ 0 overtaking :=
    pacedRun_of_length_le _ _ _ (by simp [overtaking])
  ⟨hpaced, hpaced.lockFree, by rfl, by rfl⟩

end Runs

end System

end LockFreeRings.Mpmc
