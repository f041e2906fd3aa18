import LockFreeRings.Proofs.Spsc.Lengths
import LockFreeRings.Proofs.Spsc.Refusals
set_option autoImplicit false

/-!
# Room that a producer may count on

The consumer only makes room.  So a producer that has room for some elements has it for as
long as it does nothing itself, and a call that is to append no more of them is certain to
append all.  It looks first at its copy of the head, which may be older than what the
producer was told of the room; if the copy shows too little, the call loads the head, which
is not older.

`ProducerPhase.Appends` says by phase that a call is certain to append all that it was given,
and within how many steps of its own.  Every step of the producer keeps it or ends the call
with success (`Sound.appends`), and steps of the consumer do not matter.  `Due` is what
a producer that makes one call after another is to get, and `Due.produced_eq` says that it
gets it, in every schedule.
-/

namespace LockFreeRings.Spsc

variable {n : SlotCount} {k : Nat} {ω : Type}

/-! ## Calls that are to succeed -/

/-- A call that appends elements. -/
inductive Pushing (k : Nat) (ω : Type) where
  | one (v : Element k ω)
  | batch (vs : List (Element k ω))

namespace Pushing

/-- What the call is to do. -/
def goal : Pushing k ω → ProducerGoal k ω
  | .one v => .one v
  | .batch vs => .batch vs

theorem goal_ne_stream (p : Pushing k ω) : p.goal ≠ .stream := by
  cases p <;> simp [goal]

/-- How many elements it appends. -/
def amount : Pushing k ω → Nat
  | .one _ => 1
  | .batch vs => vs.length

/-- What it returns when it has appended all of them. -/
def success : Pushing k ω → ProducerReturn k ω
  | .one _ => .pushed
  | .batch vs => .pushedMany vs.length

/-- The inputs of a producer that makes calls one after another and takes as many steps of
each as it may need, or more. -/
def inputs (calls : List (Pushing k ω × Nat)) : List (ProducerInput k ω) :=
  calls.flatMap fun call =>
    .begin call.1.goal :: List.replicate (call.1.amount * (k + 2) + 4 + call.2) .proceed

/-- How many elements the calls append together. -/
def total (calls : List (Pushing k ω × Nat)) : Nat := (calls.map fun call => call.1.amount).sum

end Pushing

/-! ## What is returned in a run -/

/-- What the producer's caller does. -/
def Action.produces? : Action k ω → Option (ProducerInput k ω)
  | .produce input => some input
  | .consume _ => none

namespace System

/-- What calls of the producer return while the actions happen. -/
def produced : System n k ω → List (Action k ω) → List (ProducerReturn k ω)
  | _, [] => []
  | s, .produce input :: actions =>
    (s.producer.step s.ring input).result.toList ++ (s.produce input).produced actions
  | s, .consume input :: actions => (s.consume input).produced actions

/-- How many elements fit behind the published and the drafted ones. -/
def ahead (s : System n k ω) : Nat :=
  s.removed.length + (n.size - 1) - (s.published.length + s.draft.length)

end System

/-! ## The producer's calls -/

namespace ProducerPhase

/-- The call is certain to return the success of `p` within `j` steps of its own; after that
`m` more elements fit, if `ahead` elements fit now. -/
def Appends (p : Pushing k ω) (m ahead j : Nat) : ProducerPhase k ω → Prop
  | .load goal => goal = p.goal ∧ p.amount + m ≤ ahead ∧ p.amount * (k + 2) + 4 ≤ j
  | .check goal _ _ _ => goal = p.goal ∧ p.amount + m ≤ ahead ∧ p.amount * (k + 2) + 3 ≤ j
  | .refresh goal _ _ _ => goal = p.goal ∧ p.amount + m ≤ ahead ∧ p.amount * (k + 2) + 2 ≤ j
  | .copy _ rest _ count => p.success = .pushedMany (count + 1 + rest.length) ∧
      rest.length + 1 + m ≤ ahead ∧ (rest.length + 1) * (k + 2) + 1 ≤ j
  | .store .one _ _ i => p.success = .pushed ∧ 1 + m ≤ ahead ∧ k - i + 2 ≤ j
  | .store (.batch rest count) _ _ i => p.success = .pushedMany (count + 1 + rest.length) ∧
      rest.length + 1 + m ≤ ahead ∧ rest.length * (k + 2) + (k - i) + 2 ≤ j
  | .publish _ result => result = p.success ∧ m ≤ ahead ∧ 1 ≤ j
  | _ => False

variable {p : Pushing k ω} {m ahead j : Nat}

/-- More room does no harm. -/
theorem Appends.mono {phase : ProducerPhase k ω} (h : phase.Appends p m ahead j) {ahead' : Nat}
    (hle : ahead ≤ ahead') : phase.Appends p m ahead' j := by
  unfold Appends at h ⊢
  split at h <;> first | exact ⟨h.1, h.2.1.trans hle, h.2.2⟩ | exact h.elim

/-- The call takes at least one step more. -/
theorem Appends.pos {phase : ProducerPhase k ω} (h : phase.Appends p m ahead j) : 0 < j := by
  unfold Appends at h
  split at h <;> first | exact h.elim | exact Nat.lt_of_lt_of_le (Nat.succ_pos _) h.2.2

/-- With enough room a call begins to store, if it has anything to store. -/
theorem enter_cases (p : Pushing k ω) {room : UInt64} (h : p.amount ≤ room.toNat)
    (r : Ring n k ω) (start tail : UInt64) (count : Nat) :
    (p.amount = 0 ∧ enter r p.goal start tail count room = ⟨r, .idle, some p.success⟩) ∨
      (∃ v, p = .one v ∧
        enter r p.goal start tail count room = ⟨r, .store .one v tail 0, none⟩) ∨
      ∃ v rest, p = .batch (v :: rest) ∧
        enter r p.goal start tail count room = ⟨r, .copy v rest tail 0, none⟩ := by
  cases p with
  | one v =>
      have hne : room ≠ 0 := by
        rintro rfl
        exact absurd h (Nat.not_succ_le_zero 0)
      exact .inr (.inl ⟨v, rfl, by simp [Pushing.goal, enter, hne]⟩)
  | batch vs =>
      have htake : vs.take (min room.toNat vs.length) = vs := by
        rw [Nat.min_eq_right (show vs.length ≤ room.toNat from h), List.take_length]
      cases vs with
      | nil => exact .inl ⟨rfl, by simp [Pushing.goal, enter, Pushing.success]⟩
      | cons v rest =>
          right
          right
          refine ⟨v, rest, rfl, ?_⟩
          simp only [Pushing.goal, enter]
          rw [htake]

end ProducerPhase

namespace System

variable {s : System n k ω} {seenHead seenTail m j : Nat}

/-- The consumer makes room. -/
theorem ahead_consume (s : System n k ω) (input : ConsumerInput k ω) :
    s.ahead ≤ (s.consume input).ahead := by
  have hpublished := length_published_consume s input
  have hremoved := (removed_prefix_consume s input).length_le
  have hdraft : (s.consume input).draft = s.draft := rfl
  unfold ahead
  rw [hpublished, hdraft]
  omega

/-- The system after a step of the producer is certain to append, or it has. -/
def Advances (s' : System n k ω) (result : Option (ProducerReturn k ω)) (p : Pushing k ω)
    (m j : Nat) : Prop :=
  (result = none ∧ s'.producer.Appends p m s'.ahead j) ∨
    (result = some p.success ∧ s'.producer = .idle ∧ m ≤ s'.ahead)

/-- A call that finds enough room begins to store. -/
theorem advances_enter {p : Pushing k ω} {room : UInt64} (hroom : p.amount ≤ room.toNat)
    (hdraft : s.draft.length = 0) (hahead : p.amount + m ≤ s.ahead)
    (hj : p.amount * (k + 2) + 1 ≤ j) (r : Ring n k ω) (start tail : UInt64) (count : Nat) :
    Advances (s.producing (ProducerPhase.enter r p.goal start tail count room))
      (ProducerPhase.enter r p.goal start tail count room).result p m j := by
  rcases ProducerPhase.enter_cases p hroom r start tail count with ⟨hzero, heq⟩ |
    ⟨v, rfl, heq⟩ | ⟨v, rest, rfl, heq⟩ <;> rw [heq]
  · refine .inr ⟨rfl, rfl, ?_⟩
    simp only [producing, ahead, draftEntering, List.length_nil] at hahead ⊢
    omega
  · simp only [Pushing.amount] at hahead hj
    exact .inl ⟨rfl, rfl, hahead, by omega⟩
  · simp only [Pushing.amount, List.length_cons] at hahead hj
    refine .inl ⟨rfl, ?_, hahead, hj⟩
    rw [Pushing.success, List.length_cons, Nat.zero_add, Nat.add_comm]

/-- A call that has enough room before it loads the head has it when it has loaded it. -/
theorem Sound.amount_le_refreshed (h : s.Sound seenHead seenTail) {amount : Nat}
    (hahead : amount ≤ s.ahead) :
    amount ≤ (s.ring.refreshHead.knownRoom
      (n.cursor (s.published.length + s.draft.length))).toNat := by
  have hroom := h.refreshHead.toNat_knownRoom
  have hbound := h.refreshHead.room
  have hle := h.removed_le.trans h.seenTail_le
  unfold ahead at hahead
  simp only at hroom hbound
  rw [hroom]
  omega

/-- A call whose copy of the head shows what it wants has enough room. -/
theorem amount_le_of_want {p : Pushing k ω} {room : UInt64} (hwant : p.goal.want ≤ room)
    (hsize : p.amount ≤ n.size - 1) : p.amount ≤ room.toNat := by
  have hle := n.size_le
  rw [UInt64.le_iff_toNat_le] at hwant
  cases p with
  | one v => exact hwant
  | batch vs =>
      simp only [Pushing.amount] at hsize ⊢
      rw [Pushing.goal, ProducerGoal.want, Ring.sliceLength, UInt64.toNat_ofNat',
        Nat.mod_eq_of_lt (by omega)] at hwant
      omega

/-- A call that has stored an element goes on with the next one, or publishes. -/
theorem appends_stored {p : Pushing k ω} {goal : StoreGoal k ω} {v : Element k ω}
    {tail : UInt64} {i : Nat} (hp : s.producer = .store goal v tail i) (hi : ¬i < k)
    (ha : s.producer.Appends p m s.ahead (j + 1)) :
    Advances (s.produce .proceed) (s.producer.step s.ring .proceed).result p m j := by
  -- the element joins the draft
  have hstep : ∀ phase, ProducerPhase.stored s.ring goal tail = ⟨s.ring, phase, none⟩ →
      phase.Appends p m (s.ahead - 1) j →
        Advances (s.produce .proceed) (s.producer.step s.ring .proceed).result p m j := by
    intro phase hstored happends
    have hresult : s.producer.proceed s.ring = ⟨s.ring, phase, none⟩ := by
      rw [hp, ProducerPhase.proceed_store_of_not_lt _ _ _ _ hi, hstored]
    rw [produce_of_store_of_not_lt hp hi, ProducerPhase.step, hresult, hstored]
    refine .inl ⟨rfl, happends.mono ?_⟩
    simp only [ahead, List.length_append, List.length_singleton]
    omega
  rw [hp] at ha
  cases goal with
  | one =>
      obtain ⟨hsuccess, hahead, hj⟩ := ha
      exact hstep _ rfl ⟨hsuccess.symm, by omega, by omega⟩
  | batch rest count =>
      obtain ⟨hsuccess, hahead, hj⟩ := ha
      cases rest with
      | nil => exact hstep _ rfl ⟨hsuccess.symm, Nat.le_sub_of_add_le' hahead, by omega⟩
      | cons u rest =>
          simp only [List.length_cons, Nat.succ_mul] at hsuccess hahead hj
          refine hstep _ rfl ⟨?_, by omega, ?_⟩
          · rw [hsuccess]
            congr 1
            omega
          · rw [Nat.succ_mul]
            omega
  | _ => exact ha.elim

/-- A call that is certain to append goes on, or returns with success. -/
theorem Sound.appends (h : s.Sound seenHead seenTail) {p : Pushing k ω}
    (ha : s.producer.Appends p m s.ahead (j + 1)) :
    Advances (s.produce .proceed) (s.producer.step s.ring .proceed).result p m j := by
  have hknows := h.producer
  have hle := h.removed_le.trans h.seenTail_le
  cases hp : s.producer with
  | load goal =>
      rw [hp] at ha
      obtain ⟨rfl, hahead, hj⟩ := ha
      rw [produce_of_load hp]
      exact .inl ⟨rfl, rfl, hahead, by omega⟩
  | check goal start tail count =>
      rw [hp] at ha hknows
      obtain ⟨rfl, hahead, hj⟩ := ha
      obtain ⟨-, -, hdraft⟩ := hknows
      replace hdraft := hdraft.resolve_left p.goal_ne_stream
      by_cases hwant : p.goal.want ≤ s.ring.knownRoom tail
      · have hamount := amount_le_of_want (n := n) hwant (by unfold ahead at hahead; omega)
        rw [produce_of_check_of_le hp hwant, ProducerPhase.step,
          ProducerPhase.proceed_check_of_le hwant]
        exact advances_enter hamount hdraft hahead (by omega) s.ring start tail count
      · rw [produce_of_check_of_not_le hp hwant, ProducerPhase.step,
          ProducerPhase.proceed_check_of_not_le hwant]
        exact .inl ⟨rfl, rfl, hahead, by omega⟩
  | refresh goal start tail count =>
      rw [hp] at ha hknows
      obtain ⟨rfl, hahead, hj⟩ := ha
      obtain ⟨-, rfl, hdraft⟩ := hknows
      replace hdraft := hdraft.resolve_left p.goal_ne_stream
      have hamount := h.amount_le_refreshed (Nat.le_of_add_right_le hahead)
      rw [produce_of_refresh hp]
      exact advances_enter hamount hdraft hahead (by omega) s.ring.refreshHead start _ count
  | copy v rest tail count =>
      rw [hp] at ha
      obtain ⟨hsuccess, hahead, hj⟩ := ha
      rw [produce_of_copy hp]
      rw [Nat.succ_mul] at hj
      exact .inl ⟨rfl, hsuccess, hahead, by omega⟩
  | store goal v tail i =>
      rw [hp] at ha
      by_cases hi : i < k
      · rw [produce_of_store_of_lt hp hi, ProducerPhase.step,
          ProducerPhase.proceed_store_of_lt _ _ _ _ hi]
        refine .inl ⟨rfl, ?_⟩
        cases goal with
        | one =>
            obtain ⟨hsuccess, hahead, hj⟩ := ha
            exact ⟨hsuccess, hahead, by omega⟩
        | batch rest count =>
            obtain ⟨hsuccess, hahead, hj⟩ := ha
            exact ⟨hsuccess, hahead, by omega⟩
        | _ => exact ha.elim
      · rw [← hp] at ha
        have hadvances := appends_stored hp hi ha
        rwa [hp] at hadvances
  | publish tail result =>
      rw [hp] at ha
      obtain ⟨rfl, hahead, hj⟩ := ha
      rw [produce_of_publish hp]
      refine .inr ⟨rfl, rfl, ?_⟩
      unfold ahead at hahead ⊢
      simp only [List.length_append, List.length_nil]
      omega
  | _ =>
      rw [hp] at ha
      exact ha.elim

/-- What is due: a producer that makes the calls, and has `j` steps to take before, returns
the results.  It is between calls and has room, or its call is certain to append. -/
def Due (s : System n k ω) (calls : List (Pushing k ω × Nat)) (j : Nat)
    (results : List (ProducerReturn k ω)) : Prop :=
  (s.producer = .idle ∧ Pushing.total calls ≤ s.ahead ∧
      results = calls.map fun call => call.1.success) ∨
    ∃ p, s.producer.Appends p (Pushing.total calls) s.ahead j ∧
      results = p.success :: calls.map fun call => call.1.success

variable {calls : List (Pushing k ω × Nat)} {results : List (ProducerReturn k ω)}

/-- A call takes steps until it returns. -/
theorem Due.eq_nil (h : s.Due [] 0 results) : results = [] := by
  rcases h with ⟨-, -, rfl⟩ | ⟨p, ha, -⟩
  · rfl
  · exact absurd ha.pos (Nat.lt_irrefl 0)

/-- What is due to the producer is due whatever the consumer does. -/
theorem Due.consume (h : s.Due calls j results) (input : ConsumerInput k ω) :
    (s.consume input).Due calls j results := by
  have hmore := ahead_consume s input
  rcases h with ⟨hidle, htotal, hresults⟩ | ⟨p, ha, hresults⟩
  · exact .inl ⟨hidle, htotal.trans hmore, hresults⟩
  · exact .inr ⟨p, ha.mono hmore, hresults⟩

/-- A step of the producer returns the first of what is due, or nothing. -/
theorem Sound.due_proceed (h : s.Sound seenHead seenTail) (hdue : s.Due calls (j + 1) results) :
    ∃ rest, results = (s.producer.step s.ring .proceed).result.toList ++ rest ∧
      (s.produce .proceed).Due calls j rest := by
  rcases hdue with ⟨hidle, htotal, hresults⟩ | ⟨p, ha, hresults⟩
  · have hsame : s.produce .proceed = s := by
      have hdraft := h.draft_of_idle hidle
      cases s
      simp_all [System.produce, ProducerPhase.step, ProducerPhase.proceed, draftAfter,
        publishedAfter]
    refine ⟨results, by rw [hidle]; rfl, ?_⟩
    rw [hsame]
    exact .inl ⟨hidle, htotal, hresults⟩
  · rcases h.appends ha with ⟨hnone, ha⟩ | ⟨hsome, hidle, htotal⟩
    · exact ⟨results, by rw [hnone]; rfl, .inr ⟨p, ha, hresults⟩⟩
    · exact ⟨_, by rw [hsome, hresults]; rfl, .inl ⟨hidle, htotal, rfl⟩⟩

/-- A producer that has taken all steps of its call begins the next one. -/
theorem Sound.due_begin (h : s.Sound seenHead seenTail) {call : Pushing k ω × Nat}
    (hdue : s.Due (call :: calls) 0 results) :
    (s.producer.step s.ring (.begin call.1.goal)).result = none ∧
      (s.produce (.begin call.1.goal)).Due calls (call.1.amount * (k + 2) + 4 + call.2)
        results := by
  rcases hdue with ⟨hidle, htotal, rfl⟩ | ⟨p, ha, -⟩
  · have hbegin : s.produce (.begin call.1.goal) = { s with producer := .load call.1.goal } := by
      simp [System.produce, hidle, ProducerPhase.step, draftAfter, publishedAfter,
        h.draft_of_idle hidle]
    refine ⟨by rw [hidle]; rfl, ?_⟩
    rw [hbegin]
    exact .inr ⟨call.1, ⟨rfl, htotal, Nat.le_add_right _ _⟩, rfl⟩
  · exact absurd ha.pos (Nat.lt_irrefl 0)

/-- All calls of a producer that has room for them return with success, whatever the
consumer does meanwhile. -/
theorem Due.produced_eq {later : List (Action k ω)} (h : ∃ c e, s.Sound c e)
    (hdue : s.Due calls j results)
    (hinputs : later.filterMap Action.produces? =
      List.replicate j .proceed ++ Pushing.inputs calls) : s.produced later = results := by
  induction later generalizing s calls j results with
  | nil =>
      obtain ⟨hj, hcalls⟩ := List.append_eq_nil_iff.mp hinputs.symm
      obtain rfl : j = 0 := by simpa using hj
      cases calls with
      | nil => exact hdue.eq_nil.symm
      | cons call calls => cases hcalls
  | cons action later ih =>
      obtain ⟨c, e, hs⟩ := h
      have hs' := hs.act action
      cases action with
      | consume input => exact ih hs' (hdue.consume input) hinputs
      | produce input =>
          rw [act] at hs'
          change input :: later.filterMap Action.produces? = _ at hinputs
          cases j with
          | succ j =>
              obtain ⟨rfl, htail⟩ := List.cons_eq_cons.mp hinputs
              obtain ⟨rest, rfl, hrest⟩ := hs.due_proceed hdue
              rw [produced, ih hs' hrest htail]
          | zero =>
              cases calls with
              | nil => cases hinputs
              | cons call calls =>
                  obtain ⟨rfl, htail⟩ := List.cons_eq_cons.mp hinputs
                  obtain ⟨hnone, hrest⟩ := hs.due_begin hdue
                  rw [produced, hnone, ih hs' hrest htail]
                  rfl

end System

end LockFreeRings.Spsc
