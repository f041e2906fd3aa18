import LockFreeRings.Proofs.Spsc.Lengths
import LockFreeRings.Proofs.Spsc.Refusals
import Mathlib.Data.List.Forall2
set_option autoImplicit false

/-!
# Elements that a consumer may count on

The producer only brings elements.  So a consumer for which some elements are queued may take
them out, whatever the producer does meanwhile: the copy of the tail, if it shows too few of
them, is replaced by the tail.

`ConsumerPhase.Takes` says by phase that a call is certain to deliver as many elements as it
was asked for, and within how many steps of its own.  Every step of the consumer keeps it or
ends the call so (`Sound.takes`).  `Coming` is what a consumer that makes one call after
another is to get, and `Coming.delivered` says that it gets it, in every schedule.
-/

namespace LockFreeRings.Spsc

variable {n : SlotCount} {k : Nat} {ω : Type}

/-! ## Calls that are to deliver -/

/-- A call that takes out elements, which are read into `into`. -/
inductive Popping (k : Nat) (ω : Type) where
  | one (into : Element k ω)
  | batch (limit : UInt64) (into : Element k ω)

namespace Popping

/-- What the call is to do. -/
def goal : Popping k ω → ConsumerGoal k ω
  | .one into => .one into
  | .batch limit into => .batch limit into

/-- How many elements it takes out. -/
def amount : Popping k ω → Nat
  | .one _ => 1
  | .batch limit _ => limit.toNat

/-- It returns as many elements as it was asked for. -/
def Delivers : Popping k ω → ConsumerReturn k ω → Prop
  | .one _, .popped _ => True
  | .batch limit _, .poppedMany vs => vs.length = limit.toNat
  | _, _ => False

/-- The inputs of a consumer that makes calls one after another and takes as many steps of
each as it may need, or more. -/
def inputs (calls : List (Popping k ω × Nat)) : List (ConsumerInput k ω) :=
  calls.flatMap fun call =>
    .begin call.1.goal :: List.replicate (call.1.amount * (k + 1) + 4 + call.2) .proceed

/-- How many elements the calls take out together. -/
def total (calls : List (Popping k ω × Nat)) : Nat := (calls.map fun call => call.1.amount).sum

/-- What is removed when the call returns is what it returns. -/
theorem Delivers.length_elements {p : Popping k ω} {result : ConsumerReturn k ω}
    (h : p.Delivers result) (front : Element k ω) :
    (result.elements front).length = p.amount := by
  cases p <;> cases result <;> first | exact h.elim | exact h | rfl

end Popping

/-- What the consumer's caller does. -/
def Action.consumes? : Action k ω → Option (ConsumerInput k ω)
  | .produce _ => none
  | .consume input => some input

namespace System

/-- What calls of the consumer return while the actions happen. -/
def consumed : System n k ω → List (Action k ω) → List (ConsumerReturn k ω)
  | _, [] => []
  | s, .produce input :: actions => (s.produce input).consumed actions
  | s, .consume input :: actions =>
    (s.consumer.step s.ring input).result.toList ++ (s.consume input).consumed actions

/-- How many elements are queued. -/
def queued (s : System n k ω) : Nat := s.published.length - s.removed.length

end System

/-! ## The consumer's calls -/

namespace ConsumerPhase

/-- The call is certain to deliver what `p` asks for within `j` steps of its own; after that
`m` more elements are queued, if `queued` elements are queued now. -/
def Takes (p : Popping k ω) (m queued j : Nat) : ConsumerPhase k ω → Prop
  | .load goal => goal = p.goal ∧ p.amount + m ≤ queued ∧ p.amount * (k + 1) + 4 ≤ j
  | .check goal _ => goal = p.goal ∧ p.amount + m ≤ queued ∧ p.amount * (k + 1) + 3 ≤ j
  | .refresh goal _ => goal = p.goal ∧ p.amount + m ≤ queued ∧ p.amount * (k + 1) + 2 ≤ j
  | .read .one _ i _ => (∀ v, p.Delivers (.popped v)) ∧ p.amount + m ≤ queued ∧ k - i + 2 ≤ j
  | .read (.batch left out) _ i _ =>
    (∀ vs, vs.length = out.length + left + 1 → p.Delivers (.poppedMany vs)) ∧
      p.amount + m ≤ queued ∧ left * (k + 1) + (k - i) + 2 ≤ j
  | .vacate _ result => p.Delivers result ∧ p.amount + m ≤ queued ∧ 1 ≤ j
  | _ => False

variable {p : Popping k ω} {m queued j : Nat}

/-- More elements do no harm. -/
theorem Takes.mono {phase : ConsumerPhase k ω} (h : phase.Takes p m queued j) {queued' : Nat}
    (hle : queued ≤ queued') : phase.Takes p m queued' j := by
  unfold Takes at h ⊢
  split at h <;> first | exact ⟨h.1, h.2.1.trans hle, h.2.2⟩ | exact h.elim

/-- The call takes at least one step more. -/
theorem Takes.pos {phase : ConsumerPhase k ω} (h : phase.Takes p m queued j) : 0 < j := by
  unfold Takes at h
  split at h <;> first | exact h.elim | exact Nat.lt_of_lt_of_le (Nat.succ_pos _) h.2.2

/-- With enough elements a call begins to read, if it was asked for anything. -/
theorem enter_cases (p : Popping k ω) {available : UInt64} (h : p.amount ≤ available.toNat)
    (r : Ring n k ω) (head : UInt64) :
    (p.amount = 0 ∧ p.Delivers (.poppedMany []) ∧
        enter r p.goal head available = ⟨r, .idle, some (.poppedMany [])⟩) ∨
      ∃ goal into, enter r p.goal head available = ⟨r, .read goal head 0 into, none⟩ ∧
        ∀ m queued j, p.amount + m ≤ queued → p.amount * (k + 1) + 1 ≤ j →
          (ConsumerPhase.read goal head 0 into).Takes p m queued j := by
  cases p with
  | one into =>
      have hne : available ≠ 0 := by
        rintro rfl
        exact absurd h (Nat.not_succ_le_zero 0)
      refine .inr ⟨.one, into, by simp [Popping.goal, enter, hne], fun m queued j hm hj => ?_⟩
      simp only [Popping.amount] at hm hj
      exact ⟨fun _ => trivial, hm, by omega⟩
  | batch limit into =>
      have hmin : min available.toNat limit.toNat = limit.toNat :=
        Nat.min_eq_right (show limit.toNat ≤ available.toNat from h)
      simp only [Popping.goal, Popping.amount, Popping.Delivers, enter]
      rw [hmin]
      cases hlimit : limit.toNat with
      | zero => exact .inl ⟨rfl, rfl, rfl⟩
      | succ left =>
          refine .inr ⟨.batch left [], into, rfl, fun m queued j hm hj => ⟨?_, ?_, ?_⟩⟩
          · intro vs hvs
            rw [List.length_nil, Nat.zero_add] at hvs
            exact hvs.trans hlimit.symm
          · simp only [Popping.amount]
            omega
          · rw [Nat.succ_mul] at hj
            omega

end ConsumerPhase

namespace System

variable {s : System n k ω} {seenHead seenTail m j : Nat}

/-- The producer brings elements. -/
theorem queued_produce (s : System n k ω) (input : ProducerInput k ω) :
    s.queued ≤ (s.produce input).queued := by
  have hpublished : s.published.length ≤ (s.produce input).published.length := by
    simp only [produce]
    unfold publishedAfter
    split
    · rw [List.length_append]
      exact Nat.le_add_right _ _
    · exact Nat.le_refl _
  exact Nat.sub_le_sub_right hpublished _

/-- The system after a step of the consumer is certain to deliver, or it has. -/
def Serves (s' : System n k ω) (result : Option (ConsumerReturn k ω)) (p : Popping k ω)
    (m j : Nat) : Prop :=
  (result = none ∧ s'.consumer.Takes p m s'.queued j) ∨
    ((∃ value, result = some value ∧ p.Delivers value) ∧ s'.consumer = .idle ∧ m ≤ s'.queued)

/-- A call that finds enough elements begins to read. -/
theorem serves_enter {p : Popping k ω} {available : UInt64}
    (havailable : p.amount ≤ available.toNat) (hqueued : p.amount + m ≤ s.queued)
    (hj : p.amount * (k + 1) + 1 ≤ j) (r : Ring n k ω) (head : UInt64) :
    Serves (s.consuming (ConsumerPhase.enter r p.goal head available))
      (ConsumerPhase.enter r p.goal head available).result p m j := by
  rcases ConsumerPhase.enter_cases p havailable r head with ⟨hzero, hdelivers, heq⟩ |
    ⟨goal, into, heq, htakes⟩ <;> rw [heq]
  · rw [hzero, Nat.zero_add] at hqueued
    exact .inr ⟨⟨_, rfl, hdelivers⟩, rfl, hqueued⟩
  · exact .inl ⟨rfl, htakes m _ j hqueued hj⟩

/-- A call that has read an element goes on with the next one, or comes to store the head. -/
theorem takes_finished {p : Popping k ω} {goal : ReadGoal k ω} {head : UInt64} {i : Nat}
    {into : Element k ω} (hc : s.consumer = .read goal head i into) (hi : ¬i < k)
    (ht : s.consumer.Takes p m s.queued (j + 1)) :
    Serves (s.consume .proceed) (s.consumer.step s.ring .proceed).result p m j := by
  -- nothing is removed yet
  have hstep : ∀ phase, ConsumerPhase.finished s.ring goal head into = ⟨s.ring, phase, none⟩ →
      phase.Takes p m s.queued j →
        Serves (s.consume .proceed) (s.consumer.step s.ring .proceed).result p m j := by
    intro phase hfinished htakes
    have hresult : s.consumer.proceed s.ring = ⟨s.ring, phase, none⟩ := by
      rw [hc, ConsumerPhase.proceed_read_of_not_lt _ _ _ _ hi, hfinished]
    rw [consume_of_read_of_not_lt hc hi, ConsumerPhase.step, hresult, hfinished]
    exact .inl ⟨rfl, htakes⟩
  rw [hc] at ht
  cases goal with
  | one =>
      obtain ⟨hdelivers, hqueued, hj⟩ := ht
      exact hstep _ rfl ⟨hdelivers _, hqueued, by omega⟩
  | batch left out =>
      obtain ⟨hdelivers, hqueued, hj⟩ := ht
      cases left with
      | zero => exact hstep _ rfl ⟨hdelivers _ (by simp), hqueued, by omega⟩
      | succ left =>
          rw [Nat.succ_mul] at hj
          refine hstep _ rfl ⟨fun vs hvs => hdelivers vs ?_, hqueued, by omega⟩
          rw [hvs, List.length_append, List.length_singleton]
          omega
  | _ => exact ht.elim

/-- A call that is certain to deliver goes on, or returns what it was asked for. -/
theorem Sound.takes (h : s.Sound seenHead seenTail) {p : Popping k ω}
    (ht : s.consumer.Takes p m s.queued (j + 1)) :
    Serves (s.consume .proceed) (s.consumer.step s.ring .proceed).result p m j := by
  have hknows := h.consumer
  cases hc : s.consumer with
  | load goal =>
      rw [hc] at ht
      obtain ⟨rfl, hqueued, hj⟩ := ht
      rw [consume_of_load hc]
      exact .inl ⟨rfl, rfl, hqueued, by omega⟩
  | check goal head =>
      rw [hc] at ht
      obtain ⟨rfl, hqueued, hj⟩ := ht
      by_cases hwant : p.goal.want ≤ s.ring.knownAvailable head
      · have hamount : p.amount ≤ (s.ring.knownAvailable head).toNat := by
          rw [UInt64.le_iff_toNat_le] at hwant
          cases p <;> exact hwant
        rw [consume_of_check_of_le hc hwant, ConsumerPhase.step,
          ConsumerPhase.proceed_check_of_le hwant]
        exact serves_enter hamount hqueued (by omega) s.ring head
      · rw [consume_of_check_of_not_le hc hwant, ConsumerPhase.step,
          ConsumerPhase.proceed_check_of_not_le hwant]
        exact .inl ⟨rfl, rfl, hqueued, by omega⟩
  | refresh goal head =>
      rw [hc] at ht hknows
      obtain ⟨rfl, hqueued, hj⟩ := ht
      obtain rfl : head = n.cursor s.removed.length := hknows
      have hamount : p.amount ≤
          (s.ring.refreshTail.knownAvailable (n.cursor s.removed.length)).toNat := by
        have havailable := h.refreshTail.toNat_knownAvailable
        simp only at havailable
        rw [havailable]
        exact Nat.le_of_add_right_le hqueued
      rw [consume_of_refresh hc]
      exact serves_enter hamount hqueued (by omega) s.ring.refreshTail _
  | read goal head i into =>
      by_cases hi : i < k
      · rw [hc] at ht
        rw [consume_of_read_of_lt hc hi, ConsumerPhase.step,
          ConsumerPhase.proceed_read_of_lt _ _ _ _ hi]
        refine .inl ⟨rfl, ?_⟩
        cases goal with
        | one =>
            obtain ⟨hdelivers, hqueued, hj⟩ := ht
            exact ⟨hdelivers, hqueued, by omega⟩
        | batch left out =>
            obtain ⟨hdelivers, hqueued, hj⟩ := ht
            exact ⟨hdelivers, hqueued, by omega⟩
        | _ => exact ht.elim
      · have hserves := takes_finished hc hi ht
        rwa [hc] at hserves
  | vacate head result =>
      rw [hc] at ht
      obtain ⟨hdelivers, hqueued, hj⟩ := ht
      have hlength := hdelivers.length_elements (s.ring.read s.ring.head)
      rw [consume_of_vacate hc]
      refine .inr ⟨⟨_, rfl, hdelivers⟩, rfl, ?_⟩
      unfold queued at hqueued ⊢
      simp only [List.length_append, hlength]
      omega
  | _ =>
      rw [hc] at ht
      exact ht.elim

/-! ## Runs -/

/-- What is coming: a consumer that makes the calls, and has `j` steps to take before, is
delivered what these ask for.  It is between calls and enough is queued, or its call is
certain to deliver. -/
def Coming (s : System n k ω) (calls : List (Popping k ω × Nat)) (j : Nat)
    (due : List (Popping k ω)) : Prop :=
  (s.consumer = .idle ∧ Popping.total calls ≤ s.queued ∧ due = calls.map Prod.fst) ∨
    ∃ p, s.consumer.Takes p (Popping.total calls) s.queued j ∧ due = p :: calls.map Prod.fst

variable {calls : List (Popping k ω × Nat)} {due : List (Popping k ω)}

/-- A call takes steps until it returns. -/
theorem Coming.eq_nil (h : s.Coming [] 0 due) : due = [] := by
  rcases h with ⟨-, -, rfl⟩ | ⟨p, ht, -⟩
  · rfl
  · exact absurd ht.pos (Nat.lt_irrefl 0)

/-- What is coming to the consumer is coming whatever the producer does. -/
theorem Coming.produce (h : s.Coming calls j due) (input : ProducerInput k ω) :
    (s.produce input).Coming calls j due := by
  have hmore := queued_produce s input
  rcases h with ⟨hidle, htotal, hdue⟩ | ⟨p, ht, hdue⟩
  · exact .inl ⟨hidle, htotal.trans hmore, hdue⟩
  · exact .inr ⟨p, ht.mono hmore, hdue⟩

/-- A step of the consumer delivers what the first call asks for, or nothing yet. -/
theorem Sound.coming_proceed (h : s.Sound seenHead seenTail)
    (hcoming : s.Coming calls (j + 1) due) :
    ∃ now rest, due = now ++ rest ∧
      List.Forall₂ Popping.Delivers now (s.consumer.step s.ring .proceed).result.toList ∧
      (s.consume .proceed).Coming calls j rest := by
  rcases hcoming with ⟨hidle, htotal, hdue⟩ | ⟨p, ht, hdue⟩
  · have hsame : s.consume .proceed = s := by
      cases s
      simp_all [System.consume, ConsumerPhase.step, ConsumerPhase.proceed, editedAfter,
        removedAfter]
    refine ⟨[], due, rfl, by rw [hidle]; exact .nil, ?_⟩
    rw [hsame]
    exact .inl ⟨hidle, htotal, hdue⟩
  · rcases h.takes ht with ⟨hnone, ht⟩ | ⟨⟨value, hsome, hdelivers⟩, hidle, htotal⟩
    · exact ⟨[], due, rfl, by rw [hnone]; exact .nil, .inr ⟨p, ht, hdue⟩⟩
    · refine ⟨[p], _, hdue, ?_, .inl ⟨hidle, htotal, rfl⟩⟩
      rw [hsome]
      exact .cons hdelivers .nil

/-- A consumer that has taken all steps of its call begins the next one. -/
theorem Coming.begin {call : Popping k ω × Nat} (hcoming : s.Coming (call :: calls) 0 due) :
    (s.consumer.step s.ring (.begin call.1.goal)).result = none ∧
      (s.consume (.begin call.1.goal)).Coming calls (call.1.amount * (k + 1) + 4 + call.2)
        due := by
  rcases hcoming with ⟨hidle, htotal, rfl⟩ | ⟨p, ht, -⟩
  · have hbegin : s.consume (.begin call.1.goal) = { s with consumer := .load call.1.goal } := by
      simp [System.consume, hidle, ConsumerPhase.step, editedAfter, removedAfter]
    refine ⟨by rw [hidle]; rfl, ?_⟩
    rw [hbegin]
    exact .inr ⟨call.1, ⟨rfl, htotal, Nat.le_add_right _ _⟩, rfl⟩
  · exact absurd ht.pos (Nat.lt_irrefl 0)

/-- All calls of a consumer for which enough is queued deliver, whatever the producer does
meanwhile. -/
theorem Coming.delivered {later : List (Action k ω)} (h : ∃ c e, s.Sound c e)
    (hcoming : s.Coming calls j due)
    (hinputs : later.filterMap Action.consumes? =
      List.replicate j .proceed ++ Popping.inputs calls) :
    List.Forall₂ Popping.Delivers due (s.consumed later) := by
  induction later generalizing s calls j due with
  | nil =>
      obtain ⟨hj, hcalls⟩ := List.append_eq_nil_iff.mp hinputs.symm
      obtain rfl : j = 0 := by simpa using hj
      cases calls with
      | nil =>
          rw [hcoming.eq_nil]
          exact .nil
      | cons call calls => cases hcalls
  | cons action later ih =>
      obtain ⟨c, e, hs⟩ := h
      have hs' := hs.act action
      cases action with
      | produce input => exact ih hs' (hcoming.produce input) hinputs
      | consume input =>
          rw [act] at hs'
          change input :: later.filterMap Action.consumes? = _ at hinputs
          cases j with
          | succ j =>
              obtain ⟨rfl, htail⟩ := List.cons_eq_cons.mp hinputs
              obtain ⟨now, rest, rfl, hnow, hrest⟩ := hs.coming_proceed hcoming
              exact List.rel_append hnow (ih hs' hrest htail)
          | zero =>
              cases calls with
              | nil => cases hinputs
              | cons call calls =>
                  obtain ⟨rfl, htail⟩ := List.cons_eq_cons.mp hinputs
                  obtain ⟨hnone, hrest⟩ := hcoming.begin
                  rw [consumed, hnone]
                  exact ih hs' hrest htail

end System

end LockFreeRings.Spsc
