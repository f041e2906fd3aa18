import LockFreeRings.Proofs.Mpmc.Turns
set_option autoImplicit false

/-!
# What an action comes to

`System.moved` is the common shape of what a step of a call leaves behind, and
`System.Comes` lists what an action may come to: a call begins, goes on, gives up,
returns without having taken a position, or makes one of the five changes of the ring
and the positions.  Each says what the call knows that makes it.

`Sound.comes` says that every action comes to one of these.  What is to hold in every
reachable state is proved by cases on them, without another look at the steps of a
call.

A compare-and-swap compares words.  That the counts are equal when it succeeds is
where the pace of the run is needed (`Sound.tails_of_swap`, `Sound.heads_of_swap`).
-/

namespace LockFreeRings.Mpmc.System

variable {n : SlotCount} {α ι : Type} [DecidableEq ι] {s : System n α ι} {t : ι}
  {a : Activity α}

/-- What a step of the thread `t` leaves behind: its call has become `next`, and
`extra` was added to the history. -/
def moved (s : System n α ι) (t : ι) (next : Option (Activity α)) (ring : Ring n α)
    (positions : Positions) (extra : List (Record ι α)) : System n α ι :=
  { s with
    ring := ring
    active := Function.update s.active t next
    positions := positions
    history := s.history ++ extra }

section moved

variable (s t) (next : Option (Activity α)) (ring : Ring n α) (positions : Positions)
  (extra : List (Record ι α))

@[simp] theorem ring_moved : (s.moved t next ring positions extra).ring = ring := rfl

@[simp] theorem positions_moved :
    (s.moved t next ring positions extra).positions = positions := rfl

@[simp] theorem fillings_moved : (s.moved t next ring positions extra).fillings =
    s.fillings ++ extra.filterMap Record.filling? :=
  List.filterMap_append

@[simp] theorem emptyings_moved : (s.moved t next ring positions extra).emptyings =
    s.emptyings ++ extra.filterMap Record.emptying? :=
  List.filterMap_append

@[simp] theorem pushed_moved : (s.moved t next ring positions extra).pushed =
    s.pushed ++ extra.filterMap Record.pushed? :=
  List.filterMap_append

@[simp] theorem popped_moved : (s.moved t next ring positions extra).popped =
    s.popped ++ extra.filterMap Record.popped? :=
  List.filterMap_append

/-- The history grows by what was added. -/
theorem mem_history_moved (record : Record ι α) :
    record ∈ (s.moved t next ring positions extra).history ↔
      record ∈ s.history ∨ record ∈ extra :=
  List.mem_append

theorem active_moved_self : (s.moved t next ring positions extra).active t = next :=
  Function.update_self ..

theorem active_moved_of_ne {u : ι} (hu : u ≠ t) :
    (s.moved t next ring positions extra).active u = s.active u :=
  Function.update_of_ne hu ..

end moved

/-- A push that gives up leaves its call, and everything else as it is. -/
theorem giveUp_eq_moved (s : System n α ι) (t : ι) (a : Activity α) :
    s.giveUp t a = s.moved t none s.ring s.positions [.failed a.number t a.seen] := rfl

/-- A call in progress afterwards is the one that moved, or another. -/
theorem active_of_moved {next : Option (Activity α)} {ring : Ring n α} {positions : Positions}
    {extra : List (Record ι α)} {u : ι} {b : Activity α}
    (hb : (s.moved t next ring positions extra).active u = some b) :
    (u = t ∧ next = some b) ∨ (u ≠ t ∧ s.active u = some b) := by
  by_cases hu : u = t
  · subst hu
    rw [active_moved_self] at hb
    exact .inl ⟨rfl, hb⟩
  · rw [active_moved_of_ne _ _ _ _ _ _ hu] at hb
    exact .inr ⟨hu, hb⟩

/-- What an action may come to. -/
inductive Comes (s : System n α ι) : System n α ι → Prop where
  /-- the action does not fit -/
  | still : Comes s s
  | begin {t : ι} (request : Request α) (idle : s.active t = none) : Comes s (s.begin t request)
  /-- building the element fails -/
  | giveUp {t : ι} {a : Activity α} {v : α} {pos : UInt64} (active : s.active t = some a)
      (calls : a.call = .pushStore v pos) (fills : s.Fills a pos v) : Comes s (s.giveUp t a)
  /-- the call has looked at something and goes on -/
  | goOn {t : ι} {a : Activity α} (active : s.active t = some a) (call : Call α) (seen : Nat)
      (backs : s.Backs { a with call := call, seen := seen })
      (holds : Holds a → Holds { a with call := call, seen := seen } ∧ seen = a.seen) :
      Comes s (s.moved t (some { a with call := call, seen := seen }) s.ring s.positions [])
  /-- the call returns without having taken a position -/
  | leave {t : ι} {a : Activity α} {result : Return α} (active : s.active t = some a)
      (holds : ¬Holds a) (kept : s.Kept a.number a.request result) (notPushed : result ≠ .pushed)
      (notPopped : ∀ v, result ≠ .popped v) :
      Comes s (s.moved t none s.ring s.positions [.returned a.number t a.request result])
  /-- a push takes the next position -/
  | claim {t : ι} {a : Activity α} {v : α} {pos : UInt64} (active : s.active t = some a)
      (calls : a.call = .pushClaim v pos) (seeks : s.Seeks a v) (word : pos = UInt64.ofNat a.seen)
      (current : a.seen = s.positions.tails)
      (free : s.positions.lastLap n.size s.positions.tails = .released) :
      Comes s (s.moved t (some { a with call := .pushStore v pos }) s.ring.advanceTail
        (s.positions.claim a.seen) [.filling ⟨a.number, a.seen, v⟩])
  /-- a push stores its element -/
  | store {t : ι} {a : Activity α} {v : α} {pos : UInt64} (active : s.active t = some a)
      (calls : a.call = .pushStore v pos) (fills : s.Fills a pos v) :
      Comes s (s.moved t (some { a with call := .pushPublish pos }) (s.ring.store pos v)
        s.positions [])
  /-- a push publishes its element, and returns -/
  | publish {t : ι} {a : Activity α} {v : α} {pos : UInt64} (active : s.active t = some a)
      (calls : a.call = .pushPublish pos) (fills : s.Fills a pos v)
      (stored : s.ring.valueAt pos = v) :
      Comes s (s.moved t none (s.ring.publish pos) (s.positions.settle a.seen .published)
        [.returned a.number t a.request .pushed])
  /-- a pop takes the oldest position -/
  | take {t : ι} {a : Activity α} {pos : UInt64} (active : s.active t = some a)
      (calls : a.call = .popClaim pos) (waits : s.Waits a) (word : pos = UInt64.ofNat a.seen)
      (current : a.seen = s.positions.heads)
      (ready : s.positions.stage s.positions.heads = .published) :
      Comes s (s.moved t (some { a with call := .popTake pos }) s.ring.advanceHead
        (s.positions.take a.seen) [.emptying ⟨a.number, a.seen⟩])
  /-- a pop frees the slot of its position, and returns the element -/
  | release {t : ι} {a : Activity α} {pos : UInt64} {f : Filling α} (active : s.active t = some a)
      (calls : a.call = .popRelease pos f.value) (empties : s.Empties a pos)
      (filling : f ∈ s.fillings) (same : f.pos = a.seen) :
      Comes s (s.moved t none (s.ring.release pos) (s.positions.settle a.seen .released)
        [.returned a.number t a.request (.popped f.value)])

/-- A step after which the call goes on, with nothing changed but that. -/
theorem Comes.of_running (ha : s.active t = some a) (call : Call α) {spurious : Bool}
    (hstep : a.call.step spurious s.ring = (s.ring, .running call))
    (hnote : s.note a (.running call) = s)
    (backs : s.Backs { a with call := call, seen := s.seenAfter a call })
    (holds : Holds a → Holds { a with call := call, seen := s.seenAfter a call } ∧
      s.seenAfter a call = a.seen) :
    s.Comes (s.advance t a spurious) := by
  have heq : s.advance t a spurious = s.moved t
      (some { a with call := call, seen := s.seenAfter a call }) s.ring s.positions [] := by
    simp [advance, hstep, hnote, resume, moved]
  rw [heq]
  exact .goOn ha _ _ backs holds

/-- A step with which the call returns, not having taken a position. -/
theorem Comes.of_returned (ha : s.active t = some a) (result : Return α) {spurious : Bool}
    (hstep : a.call.step spurious s.ring = (s.ring, .returned result))
    (hnote : s.note a (.returned result) = s) (holds : ¬Holds a)
    (kept : s.Kept a.number a.request result) (notPushed : result ≠ .pushed)
    (notPopped : ∀ v, result ≠ .popped v) :
    s.Comes (s.advance t a spurious) := by
  have heq : s.advance t a spurious = s.moved t none s.ring s.positions
      [.returned a.number t a.request result] := by
    simp [advance, hstep, hnote, resume, moved]
  rw [heq]
  exact .leave ha holds kept notPushed notPopped

namespace Sound

omit [DecidableEq ι] in
/-- A push that moves the tail takes the next position. -/
theorem tails_of_swap (h : s.Sound) (hpaced : s.Paced) (ha : s.active t = some a) {pos : UInt64}
    (hsaw : a.SawTail s.positions pos) (hswap : s.ring.tail = pos) :
    a.seen = s.positions.tails := by
  obtain ⟨hpos, hle, hge⟩ := hsaw
  have := (hpaced t a ha).1
  refine ofNat_inj_of_lt hge (by omega) ?_
  rw [← hpos, ← hswap, h.ledger.follows.tail]

omit [DecidableEq ι] in
/-- A pop that moves the head takes the oldest position. -/
theorem heads_of_swap (h : s.Sound) (hpaced : s.Paced) (ha : s.active t = some a) {pos : UInt64}
    (hsaw : a.SawHead s.positions pos) (hswap : s.ring.head = pos) :
    a.seen = s.positions.heads := by
  obtain ⟨hpos, hle, hge⟩ := hsaw
  have := (hpaced t a ha).2
  refine ofNat_inj_of_lt hge (by omega) ?_
  rw [← hpos, ← hswap, h.ledger.follows.head]

/-! ## The steps of a push -/

/-- A push looks at the slot of its position.  If that is the current one and the
slot has its number, the slot is free. -/
theorem comes_pushExamine (h : s.Sound) (ha : s.active t = some a) {v : α} {pos : UInt64}
    (hc : a.call = .pushExamine v pos) (spurious : Bool) : s.Comes (s.advance t a spurious) := by
  have hb := h.roster.active_backs t a ha
  have hh : ¬Holds a := by simp [Holds, hc]
  simp only [Backs, hc] at hb
  obtain ⟨hseeks, hpos, hle, hge⟩ := hb
  cases hv : verdict (s.ring.seqAt pos) pos with
  | level =>
      refine .of_running ha (.pushClaim v pos) (by rw [hc, Call.step, hv]) (by simp [note, hc])
        ⟨hseeks, ⟨hpos, hle, hge⟩, ?_⟩ (absurd · hh)
      intro hcur
      have hlevel := h.ledger.follows.verdict_tail
      simp only [seenAfter] at hcur ⊢
      rw [← hcur, ← hpos, hv] at hlevel
      by_contra hfree
      rw [if_neg hfree] at hlevel
      cases hlevel
  | behind =>
      exact .of_returned ha (.full v) (by rw [hc, Call.step, hv]) (by simp [note, hc]) hh hseeks
        (by simp) (by simp)
  | ahead =>
      exact .of_running ha (.pushLoad v) (by rw [hc, Call.step, hv]) (by simp [note, hc]) hseeks
        (absurd · hh)

/-- A push tries to move the tail.  It succeeds only at the current position. -/
theorem comes_pushClaim (h : s.Sound) (hpaced : s.Paced) (ha : s.active t = some a) {v : α}
    {pos : UInt64} (hc : a.call = .pushClaim v pos) (spurious : Bool) :
    s.Comes (s.advance t a spurious) := by
  have hb := h.roster.active_backs t a ha
  have hh : ¬Holds a := by simp [Holds, hc]
  simp only [Backs, hc] at hb
  obtain ⟨hseeks, hsaw, hfree⟩ := hb
  by_cases hswap : s.ring.tail = pos ∧ spurious = false
  · have heq : s.advance t a spurious = s.moved t
        (some { a with call := .pushStore v pos }) s.ring.advanceTail
        (s.positions.claim a.seen) [.filling ⟨a.number, a.seen, v⟩] := by
      simp [advance, hc, Call.step, hswap, note, resume, moved, seenAfter]
    have hcur := h.tails_of_swap hpaced ha hsaw hswap.1
    rw [heq]
    exact .claim ha hc hseeks hsaw.1 hcur (hcur ▸ hfree hcur)
  · have hbefore := (h.roster.active_before t a ha).1
    exact .of_running ha (.pushExamine v s.ring.tail) (by rw [hc, Call.step, if_neg hswap])
      (by simp [note, hc]) ⟨hseeks, h.ledger.follows.tail, hbefore, Nat.le_refl _⟩ (absurd · hh)

/-! ## The steps of a pop -/

/-- A pop looks at the slot of its position.  If that is the current one and the
slot has the number it needs, the element is there. -/
theorem comes_popExamine (h : s.Sound) (ha : s.active t = some a) {pos : UInt64}
    (hc : a.call = .popExamine pos) (spurious : Bool) : s.Comes (s.advance t a spurious) := by
  have hb := h.roster.active_backs t a ha
  have hh : ¬Holds a := by simp [Holds, hc]
  simp only [Backs, hc] at hb
  obtain ⟨hwaits, hpos, hle, hge⟩ := hb
  cases hv : verdict (s.ring.seqAt pos) (pos + 1) with
  | level =>
      refine .of_running ha (.popClaim pos) (by rw [hc, Call.step, hv]) (by simp [note, hc])
        ⟨hwaits, ⟨hpos, hle, hge⟩, ?_⟩ (absurd · hh)
      intro hcur
      have hlevel := h.ledger.follows.verdict_head
      simp only [seenAfter] at hcur ⊢
      rw [← hcur, ofNat_succ, ← hpos, hv] at hlevel
      by_contra hfree
      rw [if_neg hfree] at hlevel
      cases hlevel
  | behind =>
      exact .of_returned ha .empty (by rw [hc, Call.step, hv]) (by simp [note, hc]) hh hwaits
        (by simp) (by simp)
  | ahead =>
      exact .of_running ha .popLoad (by rw [hc, Call.step, hv]) (by simp [note, hc]) hwaits
        (absurd · hh)

/-- A pop tries to move the head.  It succeeds only at the current position. -/
theorem comes_popClaim (h : s.Sound) (hpaced : s.Paced) (ha : s.active t = some a)
    {pos : UInt64} (hc : a.call = .popClaim pos) (spurious : Bool) :
    s.Comes (s.advance t a spurious) := by
  have hb := h.roster.active_backs t a ha
  have hh : ¬Holds a := by simp [Holds, hc]
  simp only [Backs, hc] at hb
  obtain ⟨hwaits, hsaw, hpub⟩ := hb
  by_cases hswap : s.ring.head = pos ∧ spurious = false
  · have heq : s.advance t a spurious = s.moved t
        (some { a with call := .popTake pos }) s.ring.advanceHead
        (s.positions.take a.seen) [.emptying ⟨a.number, a.seen⟩] := by
      simp [advance, hc, Call.step, hswap, note, resume, moved, seenAfter]
    have hcur := h.heads_of_swap hpaced ha hsaw hswap.1
    rw [heq]
    exact .take ha hc hwaits hsaw.1 hcur (hcur ▸ hpub hcur)
  · have hbefore := (h.roster.active_before t a ha).2
    exact .of_running ha (.popExamine s.ring.head) (by rw [hc, Call.step, if_neg hswap])
      (by simp [note, hc]) ⟨hwaits, h.ledger.follows.head, hbefore, Nat.le_refl _⟩ (absurd · hh)

omit [DecidableEq ι] in
/-- The element of a position that a pop has taken is in its slot. -/
theorem exists_taken (h : s.Sound) {pos : UInt64} (hempties : s.Empties a pos) :
    ∃ f ∈ s.fillings, f.pos = a.seen ∧ s.ring.valueAt pos = f.value := by
  obtain ⟨-, rfl, -, ht⟩ := hempties
  obtain ⟨f, hf, hpos⟩ := h.ledger.exists_filling (h.ledger.follows.lt_tails (.inr (.inr ht)))
  refine ⟨f, hf, hpos, ?_⟩
  rw [← hpos]
  exact h.ledger.stored f hf (.inr (hpos ▸ ht))

/-- A pop reads its element, which is the one that was stored at its position. -/
theorem comes_popTake (h : s.Sound) (ha : s.active t = some a) {pos : UInt64}
    (hc : a.call = .popTake pos) (spurious : Bool) : s.Comes (s.advance t a spurious) := by
  have hb := h.roster.active_backs t a ha
  simp only [Backs, hc] at hb
  obtain ⟨f, hf, hpos, hv⟩ := h.exists_taken hb
  exact .of_running ha (.popRelease pos (s.ring.valueAt pos)) (by rw [hc, Call.step])
    (by simp [note, hc]) ⟨hb, f, hf, hpos, hv.symm⟩ fun _ => ⟨trivial, rfl⟩

/-! ## Any step -/

/-- What a step of a call comes to. -/
theorem comes_advance (h : s.Sound) (hpaced : s.Paced) (ha : s.active t = some a)
    (spurious : Bool) : s.Comes (s.advance t a spurious) := by
  have hb := h.roster.active_backs t a ha
  have hbefore := h.roster.active_before t a ha
  have htail := h.ledger.follows.tail
  have hhead := h.ledger.follows.head
  cases hc : a.call with
  | pushLoad v =>
      simp only [Backs, hc] at hb
      exact .of_running ha (.pushExamine v s.ring.tail) (by rw [hc, Call.step]) (by simp [note, hc])
        ⟨hb, htail, hbefore.1, Nat.le_refl _⟩ (by simp [Holds, hc])
  | pushExamine v pos => exact h.comes_pushExamine ha hc spurious
  | pushClaim v pos => exact h.comes_pushClaim hpaced ha hc spurious
  | pushStore v pos =>
      have heq : s.advance t a spurious = s.moved t (some { a with call := .pushPublish pos })
          (s.ring.store pos v) s.positions [] := by
        simp [advance, hc, Call.step, note, resume, moved, seenAfter]
      simp only [Backs, hc] at hb
      rw [heq]
      exact .store ha hc hb
  | pushPublish pos =>
      have heq : s.advance t a spurious = s.moved t none (s.ring.publish pos)
          (s.positions.settle a.seen .published) [.returned a.number t a.request .pushed] := by
        simp [advance, hc, Call.step, note, resume, moved]
      simp only [Backs, hc] at hb
      obtain ⟨v, hfills, hv⟩ := hb
      rw [heq]
      exact .publish ha hc hfills hv
  | popLoad =>
      simp only [Backs, hc] at hb
      exact .of_running ha (.popExamine s.ring.head) (by rw [hc, Call.step]) (by simp [note, hc])
        ⟨hb, hhead, hbefore.2, Nat.le_refl _⟩ (by simp [Holds, hc])
  | popExamine pos => exact h.comes_popExamine ha hc spurious
  | popClaim pos => exact h.comes_popClaim hpaced ha hc spurious
  | popTake pos => exact h.comes_popTake ha hc spurious
  | popRelease pos v =>
      have heq : s.advance t a spurious = s.moved t none (s.ring.release pos)
          (s.positions.settle a.seen .released)
          [.returned a.number t a.request (.popped v)] := by
        simp [advance, hc, Call.step, note, resume, moved]
      simp only [Backs, hc] at hb
      obtain ⟨hempties, f, hf, hpos, rfl⟩ := hb
      rw [heq]
      exact .release ha hc hempties hf hpos
  | emptyHead =>
      simp only [Backs, hc] at hb
      exact .of_running ha (.emptyTail s.ring.head) (by rw [hc, Call.step]) (by simp [note, hc])
        ⟨hb, hhead, hbefore.2, Nat.le_refl _⟩ (by simp [Holds, hc])
  | emptyTail head =>
      simp only [Backs, hc] at hb
      exact .of_returned ha (.truth (head = s.ring.tail)) (by rw [hc, Call.step])
        (by simp [note, hc]) (by simp [Holds, hc]) (.inl hb.1) (by simp) (by simp)
  | fullTail =>
      simp only [Backs, hc] at hb
      exact .of_running ha (.fullExamine s.ring.tail) (by rw [hc, Call.step]) (by simp [note, hc])
        ⟨hb, htail, hbefore.1, Nat.le_refl _⟩ (by simp [Holds, hc])
  | fullExamine tail =>
      simp only [Backs, hc] at hb
      exact .of_returned ha (.truth (verdict (s.ring.seqAt tail) tail = .behind))
        (by rw [hc, Call.step]) (by simp [note, hc]) (by simp [Holds, hc]) (.inr hb.1) (by simp)
        (by simp)
  | sizeHead =>
      simp only [Backs, hc] at hb
      exact .of_running ha (.sizeTail s.ring.head) (by rw [hc, Call.step]) (by simp [note, hc])
        ⟨hb, hhead, hbefore.2, Nat.le_refl _⟩ (by simp [Holds, hc])
  | sizeTail head =>
      simp only [Backs, hc] at hb
      exact .of_returned ha (.size (Ring.sizeBetween n s.ring.tail head)) (by rw [hc, Call.step])
        (by simp [note, hc]) (by simp [Holds, hc]) hb.1 (by simp) (by simp)

/-- What an action comes to. -/
theorem comes (h : s.Sound) (hpaced : s.Paced) (action : Action ι α) : s.Comes (s.act action) := by
  cases action with
  | begin t request =>
      cases hidle : s.active t with
      | none =>
          simp only [act, hidle]
          exact .begin request hidle
      | some a =>
          simp only [act, hidle]
          exact .still
  | step t spurious =>
      cases ha : s.active t with
      | none =>
          simp only [act, ha]
          exact .still
      | some a =>
          simp only [act, ha]
          exact h.comes_advance hpaced ha spurious
  | fail t =>
      cases ha : s.active t with
      | none =>
          simp only [act, ha]
          exact .still
      | some a =>
          simp only [act, ha]
          split
          · next v pos hc =>
            have hb := h.roster.active_backs t a ha
            simp only [Backs, hc] at hb
            exact .giveUp ha hc hb
          · exact .still

end Sound

end LockFreeRings.Mpmc.System
