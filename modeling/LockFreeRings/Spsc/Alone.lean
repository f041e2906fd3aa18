import LockFreeRings.Spsc.Producer
import LockFreeRings.Spsc.Consumer
set_option autoImplicit false

/-!
# Calls that run alone

The operations of the ring and the calls taken apart into steps are two accounts
of the same queue.  A call whose steps are not interleaved with those of the
other side does what the operation does.  Where a call of the producer waits for
a copy or for an iterator, the caller may use the consumer before it goes on,
as it may inside the operation (`Caller`).

An element is stored and read word by word, so a call needs as many steps for
each element as that has words, and a few more.
-/

namespace LockFreeRings.Spsc

variable {n : SlotCount} {k : Nat} {ω : Type}

/-- An element whose words from `j` on are those of `v` and whose words before
are those of `w`. -/
def upTo (j : Nat) (w v : Element k ω) : Element k ω :=
  Vector.ofFn fun i => if j ≤ i.val then getElem v i i.isLt else getElem w i i.isLt

theorem upTo_zero (w v : Element k ω) : upTo 0 w v = v := by
  ext i hi
  simp [upTo]

theorem upTo_length (w v : Element k ω) : upTo k w v = w := by
  ext i hi
  simp [upTo, Nat.not_le.2 hi]

theorem upTo_set (w v : Element k ω) {j : Nat} (h : j < k) :
    upTo (j + 1) (w.set j v[j]) v = upTo j w v := by
  ext i hi
  simp only [upTo, Vector.getElem_ofFn]
  by_cases hij : i = j
  · subst hij
    simp
  · have hset : (w.set j v[j])[i] = w[i] := Vector.getElem_set_ne h hi (Ne.symm hij)
    rcases Nat.lt_or_gt_of_ne hij with hlt | hgt
    · rw [if_neg (by omega), if_neg (by omega)]
      exact hset
    · rw [if_pos (by omega), if_pos (by omega)]

/-! ## The producer -/

/-- What a caller of the producer does where a call waits for it.  Before it goes on it may use
the consumer. -/
structure Caller (n : SlotCount) (k : Nat) (ω σ : Type) where
  /-- whether the copy of an element is made -/
  copies : Element k ω → σ → Ring n k ω → Bool × σ × Ring n k ω
  /-- what the iterator answers -/
  answers : σ → Ring n k ω → Ring.Pull (Element k ω) × σ × Ring n k ω

namespace Caller

variable {σ : Type}

/-- A copy that an operation asks for. -/
def copy (c : Caller n k ω σ) (v : Element k ω) (s : σ) (r : Ring n k ω) :
    Option (Element k ω) × σ × Ring n k ω :=
  let (made, s, r) := c.copies v s r
  (if made then some v else none, s, r)

/-- What a producer is told that has come to a phase. -/
def input (c : Caller n k ω σ) (s : σ) (r : Ring n k ω) :
    ProducerPhase k ω → ProducerInput k ω × σ × Ring n k ω
  | .copy v _ _ _ =>
    let (made, s, r) := c.copies v s r
    (if made then .proceed else .copyFails, s, r)
  | .ask _ _ _ =>
    let (answer, s, r) := c.answers s r
    (.answer answer, s, r)
  | _ => (.proceed, s, r)

end Caller

/-- Goes on from what a step leaves, unless a call has returned. -/
def ProducerStep.andThen {σ : Type} (step : ProducerStep n k ω) (s : σ)
    (f : σ → Ring n k ω → ProducerPhase k ω → σ × ProducerStep n k ω) : σ × ProducerStep n k ω :=
  match step.result with
  | none => f s step.ring step.phase
  | some _ => (s, step)

namespace ProducerPhase

variable {σ : Type} (c : Caller n k ω σ)

/-- Lets a producer go on by itself until a call returns, for at most `fuel`
steps. -/
def alone : Nat → σ → Ring n k ω → ProducerPhase k ω → σ × ProducerStep n k ω
  | 0, s, r, phase => (s, ⟨r, phase, none⟩)
  | fuel + 1, s, r, phase =>
    let (input, s, r) := c.input s r phase
    (phase.step r input).andThen s (alone fuel)

section

variable (fuel : Nat) (s : σ) (r : Ring n k ω)

theorem alone_load (goal : ProducerGoal k ω) :
    alone c (fuel + 1) s r (.load goal) = alone c fuel s r (.check goal r.tail r.tail 0) := rfl

/-- When the room is known, the call goes on with what it is to do. -/
theorem exists_alone_check (goal : ProducerGoal k ω) (start tail : UInt64) (count : Nat) :
    ∃ extra, alone c (fuel + 2) s r (.check goal start tail count) =
      (enter (r.room tail goal.want).2 goal start tail count (r.room tail goal.want).1).andThen s
        (alone c (fuel + extra)) := by
  by_cases h : goal.want ≤ r.knownRoom tail
  · refine ⟨1, ?_⟩
    rw [Ring.room, if_pos h, ← proceed_check_of_le h]
    rfl
  · refine ⟨0, ?_⟩
    have hcheck : alone c (fuel + 2) s r (.check goal start tail count) =
        ((check goal start tail count).proceed r).andThen s (alone c (fuel + 1)) := rfl
    rw [hcheck, proceed_check_of_not_le h, Ring.room, if_neg h]
    rfl

/-- Storing an element word by word stores the element. -/
theorem alone_store (goal : StoreGoal k ω) (v : Element k ω) (tail : UInt64) {j d : Nat}
    (h : j + d = k) :
    alone c (fuel + d) s r (.store goal v tail j) =
      alone c fuel s (r.write tail (upTo j (r.read tail) v)) (.store goal v tail k) := by
  induction d generalizing r j with
  | zero =>
    subst h
    simp [upTo_length]
  | succ d ih =>
    have hj : j < k := by omega
    have hstep : alone c (fuel + d + 1) s r (.store goal v tail j) =
        ((store goal v tail j).proceed r).andThen s (alone c (fuel + d)) := rfl
    rw [← Nat.add_assoc, hstep, proceed_store_of_lt r goal v tail hj]
    simp only [ProducerStep.andThen]
    rw [ih _ (by omega : j + 1 + d = k), Ring.writeWord, Ring.write_write, Ring.read_write,
      upTo_set _ _ hj]

/-- When an element is stored, the call goes on with what it is part of. -/
theorem alone_stored (goal : StoreGoal k ω) (v : Element k ω) (tail : UInt64) :
    alone c (fuel + 1 + k) s r (.store goal v tail 0) =
      (stored (r.write tail v) goal tail).andThen s (alone c fuel) := by
  rw [alone_store c _ s r goal v tail (Nat.zero_add k), upTo_zero,
    ← proceed_store_of_not_lt (r.write tail v) goal v tail (Nat.lt_irrefl k)]
  rfl

theorem alone_publish (tail : UInt64) (result : ProducerReturn k ω) :
    alone c (fuel + 1) s r (.publish tail result) = (s, ⟨r.publish tail, .idle, some result⟩) := rfl

/-- A push that runs alone does what `Ring.push` does, and hands the element back
when the ring is full. -/
theorem alone_push (v : Element k ω) :
    alone c (fuel + (5 + k)) s r (.load (.one v)) =
      (s, ⟨(r.push v).2, .idle, some (if (r.push v).1 then .pushed else .full v)⟩) := by
  rw [show fuel + (5 + k) = fuel + 2 + k + 2 + 1 by omega, alone_load]
  obtain ⟨extra, hroom⟩ := exists_alone_check c (fuel + 2 + k) s r (.one v) r.tail r.tail 0
  simp only [hroom, ProducerGoal.want, Ring.push, enter]
  by_cases h0 : (r.room r.tail 1).1 = 0
  · simp only [h0, if_true]
    rfl
  · simp only [h0, if_false, ProducerStep.andThen]
    rw [show fuel + 2 + k + extra = fuel + extra + 1 + 1 + k by omega, alone_stored]
    rfl

end

/-! ### Batches -/

/-- A copy that is made is stored; when it fails, the call ends at once. -/
theorem alone_copy (fuel : Nat) (v : Element k ω) (rest : List (Element k ω)) (tail : UInt64)
    (count : Nat) {s s' : σ} {r r' : Ring n k ω} {made : Bool}
    (h : c.copies v s r = (made, s', r')) :
    alone c (fuel + 1) s r (.copy v rest tail count) =
      if made then alone c fuel s' r' (.store (.batch rest count) v tail 0)
      else (s', ⟨r', .idle, some .copyFailed⟩) := by
  have hinput : c.input s r (.copy v rest tail count) =
      (if made then .proceed else .copyFails, s', r') := by
    rw [Caller.input, h]
  rw [alone, hinput]
  cases made <;> rfl

/-- Copies are made and stored one after the other, as `Ring.writeCopies` does it, and are then
published together. -/
theorem alone_copies (fuel : Nat) (v : Element k ω) (rest : List (Element k ω)) (tail : UInt64)
    (count : Nat) (s : σ) (r : Ring n k ω) :
    alone c (fuel + 1 + (k + 2) * (rest.length + 1)) s r (.copy v rest tail count) =
      match Ring.writeCopies c.copy (v :: rest) tail s r with
      | (none, s, r) => (s, ⟨r, .idle, some .copyFailed⟩)
      | (some tail, s, r) =>
        (s, ⟨r.publish tail, .idle, some (.pushedMany (count + (rest.length + 1)))⟩) := by
  induction rest generalizing v tail count s r with
  | nil =>
    rcases hcopy : c.copies v s r with ⟨made, s', r'⟩
    rw [List.length_nil, show fuel + 1 + (k + 2) * (0 + 1) = fuel + 1 + 1 + k + 1 by omega,
      alone_copy c _ v [] tail count hcopy]
    cases made with
    | false => simp [Ring.writeCopies, Caller.copy, hcopy]
    | true =>
      rw [if_pos rfl, alone_stored]
      simp [Ring.writeCopies, Caller.copy, hcopy, stored, ProducerStep.andThen, alone_publish]
  | cons w rest ih =>
    rcases hcopy : c.copies v s r with ⟨made, s', r'⟩
    rw [List.length_cons,
      show fuel + 1 + (k + 2) * (rest.length + 1 + 1) =
        fuel + 1 + (k + 2) * (rest.length + 1) + 1 + k + 1 by rw [Nat.mul_succ]; omega,
      alone_copy c _ v (w :: rest) tail count hcopy]
    cases made with
    | false => simp [Ring.writeCopies, Caller.copy, hcopy]
    | true =>
      have hnext := ih w (next n tail) (count + 1) s' (r'.write tail v)
      have hcopies : Ring.writeCopies c.copy (v :: w :: rest) tail s r =
          Ring.writeCopies c.copy (w :: rest) (next n tail) s' (r'.write tail v) := by
        rw [Ring.writeCopies]
        simp only [Caller.copy, hcopy, if_true]
      rw [if_pos rfl, alone_stored]
      simp only [stored, ProducerStep.andThen]
      rw [hnext, hcopies, Nat.add_assoc count, Nat.add_comm 1]

/-- A batch that runs alone does what `Ring.pushCopies` does. -/
theorem alone_pushCopies (fuel : Nat) (s : σ) (r : Ring n k ω) (vs : List (Element k ω)) :
    alone c (fuel + (4 + (k + 2) * vs.length)) s r (.load (.batch vs)) =
      match r.pushCopies c.copy vs s with
      | (none, s, r) => (s, ⟨r, .idle, some .copyFailed⟩)
      | (some count, s, r) => (s, ⟨r, .idle, some (.pushedMany count)⟩) := by
  rw [show fuel + (4 + (k + 2) * vs.length) = fuel + 1 + (k + 2) * vs.length + 2 + 1 by omega,
    alone_load]
  obtain ⟨extra, hroom⟩ := exists_alone_check c (fuel + 1 + (k + 2) * vs.length) s r (.batch vs)
    r.tail r.tail 0
  rw [hroom, Ring.pushCopies]
  simp only [ProducerGoal.want, enter]
  generalize hmin : min (r.room r.tail (Ring.sliceLength vs)).1.toNat vs.length = count
  have hle : count ≤ vs.length := by omega
  cases htake : vs.take count with
  | nil =>
    have hzero : count = 0 := by
      have hlength := congrArg List.length htake
      rw [List.length_take, List.length_nil] at hlength
      omega
    simp only [hzero, if_true, ProducerStep.andThen]
  | cons v rest =>
    have hlength := congrArg List.length htake
    rw [List.length_take, List.length_cons] at hlength
    have hcount : count = rest.length + 1 := by omega
    have hsteps : (k + 2) * count ≤ (k + 2) * vs.length := Nat.mul_le_mul_left _ hle
    obtain ⟨spare, hspare⟩ := Nat.exists_eq_add_of_le hsteps
    rw [show fuel + 1 + (k + 2) * vs.length + extra =
      fuel + spare + extra + 1 + (k + 2) * (rest.length + 1) by rw [← hcount]; omega]
    simp only [ProducerStep.andThen, alone_copies]
    rw [if_neg (by omega), hcount, Nat.zero_add]
    rcases Ring.writeCopies c.copy (v :: rest) r.tail s
      (r.room r.tail (Ring.sliceLength vs)).2 with ⟨_ | tail, s', r'⟩ <;> rfl

/-! ### Streams -/

/-- What a call returns that streams from `start` on, when its loop has come to this end. -/
def streamReturn (start : UInt64) (ended : Bool) :
    Option (Nat × UInt64) × σ × Ring n k ω → σ × ProducerStep n k ω
  | (none, s, r) => (s, ⟨r, .idle, some .streamFailed⟩)
  | (some (count, tail), s, r) =>
    (s, ⟨if tail = start then r else r.publish tail, .idle, some (.streamed count ended)⟩)

theorem alone_endStream (fuel : Nat) (s : σ) (r : Ring n k ω) (start tail : UInt64) (count : Nat)
    (ended : Bool) : (endStream r start tail count ended).andThen s (alone c (fuel + 1)) =
      streamReturn start ended (some (count, tail), s, r) := by
  by_cases h : tail = start
  · simp only [endStream, streamReturn, if_pos h, ProducerStep.andThen]
  · simp only [endStream, streamReturn, if_neg h, ProducerStep.andThen, alone_publish]

/-- The steps of a stream come to what the loop of the operation comes to. -/
def Streams (steps items : Nat) (start tail : UInt64) (count : Nat) (s : σ) (r : Ring n k ω) :
    Prop :=
  ∀ fuel, ∃ ended, alone c (fuel + steps) s r (.check .stream start tail count) =
    streamReturn start ended (Ring.writePulls c.answers items count tail s r)

variable {steps items count : Nat} {start tail : UInt64} {s : σ} {r : Ring n k ω}

theorem alone_ask {s' : σ} {r' : Ring n k ω} {answer : Ring.Pull (Element k ω)}
    (h : c.answers s r = (answer, s', r')) (fuel : Nat) (start tail : UInt64) (count : Nat) :
    alone c (fuel + 1) s r (.ask start tail count) =
      match answer with
      | .item v => alone c fuel s' r' (.store (.stream start count) v tail 0)
      | .ended => (endStream r' start tail count true).andThen s' (alone c fuel)
      | .failed => (s', ⟨r', .idle, some .streamFailed⟩) := by
  have hinput : c.input s r (.ask start tail count) = (.answer answer, s', r') := by
    rw [Caller.input, h]
  rw [alone, hinput]
  cases answer <;> rfl

/-- The iterator is asked if there is room, and what it gives is stored. -/
theorem Streams.succ (h : ∀ v s' r', c.answers s (r.room tail 1).2 = (.item v, s', r') →
      (r.room tail 1).1 ≠ 0 →
        Streams c steps items start (next n tail) (count + 1) s' (r'.write tail v)) :
    Streams c (steps + (k + 4)) (items + 1) start tail count s r := by
  intro fuel
  obtain ⟨extra, hroom⟩ := exists_alone_check c (fuel + steps + k + 2) s r .stream start tail count
  rw [show fuel + (steps + (k + 4)) = fuel + steps + k + 2 + 2 by omega, hroom, Ring.writePulls]
  simp only [ProducerGoal.want, enter]
  by_cases h0 : (r.room tail 1).1 = 0
  · refine ⟨false, ?_⟩
    simp only [h0, if_true]
    rw [show fuel + steps + k + 2 + extra = fuel + steps + k + 1 + extra + 1 by omega,
      alone_endStream]
  · rcases hask : c.answers s (r.room tail 1).2 with ⟨answer, s', r'⟩
    simp only [h0, if_false, ProducerStep.andThen]
    rw [show fuel + steps + k + 2 + extra = fuel + extra + steps + 1 + k + 1 by omega,
      alone_ask c hask]
    cases answer with
    | failed => exact ⟨false, rfl⟩
    | ended =>
      refine ⟨true, ?_⟩
      simp only
      rw [show fuel + extra + steps + 1 + k = fuel + extra + steps + k + 1 by omega,
        alone_endStream]
    | item v =>
      obtain ⟨ended, hrest⟩ := h v s' r' hask h0 (fuel + extra)
      refine ⟨ended, ?_⟩
      simp only [alone_stored, stored, ProducerStep.andThen, hrest]

/-- When the loop of the operation comes to its end without its fuel, so do the steps. -/
theorem streams_of_stops (h : ∀ more, Ring.writePulls c.answers (items + more) count tail s r =
      Ring.writePulls c.answers items count tail s r) :
    Streams c ((k + 4) * (items + 1)) items start tail count s r := by
  induction items generalizing tail count s r with
  | zero =>
    -- one more question is put, and no element comes of it, which would be counted
    have hone := h 1
    have hlast : Streams c (0 + (k + 4)) (0 + 1) start tail count s r := by
      refine Streams.succ c fun v s' r' hask h0 => ?_
      rw [Nat.zero_add, Ring.writePulls] at hone
      simp only [h0, if_false, hask, Ring.writePulls] at hone
      injection hone with hcount
      injection hcount with hcount
      injection hcount with hcount
      exact absurd hcount (Nat.succ_ne_self count)
    intro fuel
    have hfuel := hlast fuel
    rwa [hone, Nat.zero_add, ← Nat.mul_one (k + 4)] at hfuel
  | succ items ih =>
    rw [Nat.mul_succ]
    refine Streams.succ c fun v s' r' hask h0 => ih fun more => ?_
    have hmore := h more
    rw [show items + 1 + more = items + more + 1 by omega, Ring.writePulls, Ring.writePulls] at hmore
    simpa only [h0, if_false, hask] using hmore

/-- A stream that runs alone does what `Ring.pushFrom` does, if the loop of that comes to its end
within as many questions as there are slots. -/
theorem alone_pushFrom (s : σ) (r : Ring n k ω)
    (h : ∀ more, Ring.writePulls c.answers (n.size + more) 0 r.tail s r =
      Ring.writePulls c.answers n.size 0 r.tail s r) (fuel : Nat) :
    ∃ ended, alone c (fuel + ((k + 4) * (n.size + 1) + 1)) s r (.load .stream) =
      match r.pushFrom c.answers s with
      | (none, s, r) => (s, ⟨r, .idle, some .streamFailed⟩)
      | (some count, s, r) => (s, ⟨r, .idle, some (.streamed count ended)⟩) := by
  obtain ⟨ended, hloop⟩ := streams_of_stops c h fuel
  refine ⟨ended, ?_⟩
  rw [← Nat.add_assoc, alone_load, hloop, Ring.pushFrom]
  rcases Ring.writePulls c.answers n.size 0 r.tail s r with ⟨_ | ⟨count, tail⟩, s', r'⟩ <;> rfl

/-! ### Held slots -/

theorem alone_hold (fuel : Nat) (s : σ) (r : Ring n k ω) (tail : UInt64) :
    alone c fuel s r (.hold tail) = (s, ⟨r, .hold tail, none⟩) := by
  induction fuel with
  | zero => rfl
  | succ fuel ih => exact ih

/-- A slot that is acquired is held at the position that `Ring.acquireWrite` gives. -/
theorem alone_acquireWrite (fuel : Nat) (s : σ) (r : Ring n k ω) :
    alone c (fuel + 3) s r (.load .slot) =
      match r.acquireWrite with
      | (none, r) => (s, ⟨r, .idle, some .noSlot⟩)
      | (some tail, r) => (s, ⟨r, .hold tail, none⟩) := by
  obtain ⟨extra, hroom⟩ := exists_alone_check c fuel s r .slot r.tail r.tail 0
  rw [alone_load, hroom, Ring.acquireWrite]
  simp only [ProducerGoal.want, enter]
  by_cases h0 : (r.room r.tail 1).1 = 0
  · simp only [h0, if_true]
    rfl
  · simp only [h0, if_false, ProducerStep.andThen, alone_hold]

/-- An element that is stored in the held slot is published. -/
theorem alone_write (fuel : Nat) (s : σ) (r : Ring n k ω) (v : Element k ω) (tail : UInt64) :
    (step r (.write v) (.hold tail)).andThen s (alone c (fuel + 3 + k)) =
      (s, ⟨(r.write tail v).commitWrite, .idle, some .committed⟩) :=
  alone_stored c (fuel + 2) s r .slot v tail

theorem alone_commit (fuel : Nat) (s : σ) (r : Ring n k ω) (tail : UInt64) :
    (step r .commit (.hold tail)).andThen s (alone c (fuel + 2)) =
      (s, ⟨r.commitWrite, .idle, some .committed⟩) := rfl

theorem alone_len (fuel : Nat) (s : σ) (r : Ring n k ω) :
    (step r .count .idle).andThen s (alone c (fuel + 2)) = (s, ⟨r, .idle, some (.len r.len)⟩) := rfl

end ProducerPhase

/-! ## The consumer -/

/-- Goes on from what a step leaves, unless a call has returned. -/
def ConsumerStep.andThen (step : ConsumerStep n k ω)
    (f : Ring n k ω → ConsumerPhase k ω → ConsumerStep n k ω) : ConsumerStep n k ω :=
  match step.result with
  | none => f step.ring step.phase
  | some _ => step

namespace ConsumerPhase

/-- Lets a consumer go on by itself until a call returns, for at most `fuel`
steps. -/
def alone : Nat → Ring n k ω → ConsumerPhase k ω → ConsumerStep n k ω
  | 0, r, phase => ⟨r, phase, none⟩
  | fuel + 1, r, phase => (phase.proceed r).andThen (alone fuel)

variable (fuel : Nat) (r : Ring n k ω) (into : Element k ω)

theorem alone_load (goal : ConsumerGoal k ω) :
    alone (fuel + 1) r (.load goal) = alone fuel r (.check goal r.head) := rfl

/-- When it is known how many elements there are, the call goes on with what it is to do. -/
theorem exists_alone_check (goal : ConsumerGoal k ω) (head : UInt64) :
    ∃ extra, alone (fuel + 2) r (.check goal head) =
      (enter (r.available head goal.want).2 goal head (r.available head goal.want).1).andThen
        (alone (fuel + extra)) := by
  by_cases h : goal.want ≤ r.knownAvailable head
  · refine ⟨1, ?_⟩
    rw [Ring.available, if_pos h, ← proceed_check_of_le h]
    rfl
  · refine ⟨0, ?_⟩
    have hcheck : alone (fuel + 2) r (.check goal head) =
        ((check goal head).proceed r).andThen (alone (fuel + 1)) := rfl
    rw [hcheck, proceed_check_of_not_le h, Ring.available, if_neg h]
    rfl

/-- Reading an element word by word gives the element. -/
theorem alone_read (goal : ReadGoal k ω) (head : UInt64) {j d : Nat} (h : j + d = k) :
    alone (fuel + d) r (.read goal head j into) =
      alone fuel r (.read goal head k (upTo j into (r.read head))) := by
  induction d generalizing j into with
  | zero =>
    subst h
    simp [upTo_length]
  | succ d ih =>
    have hj : j < k := by omega
    have hstep : alone (fuel + d + 1) r (.read goal head j into) =
        ((read goal head j into).proceed r).andThen (alone (fuel + d)) := rfl
    rw [← Nat.add_assoc, hstep, proceed_read_of_lt r goal head into hj]
    simp only [ConsumerStep.andThen]
    rw [ih _ (by omega : j + 1 + d = k), upTo_set _ _ hj]

/-- When an element is read, the call goes on with what it is part of. -/
theorem alone_finished (goal : ReadGoal k ω) (head : UInt64) :
    alone (fuel + 1 + k) r (.read goal head 0 into) =
      (finished r goal head (r.read head)).andThen (alone fuel) := by
  rw [alone_read _ r into goal head (Nat.zero_add k), upTo_zero,
    ← proceed_read_of_not_lt r goal head (r.read head) (Nat.lt_irrefl k)]
  rfl

/-- A pop that runs alone does what `Ring.pop` does. -/
theorem alone_pop : alone (fuel + (5 + k)) r (.load (.one into)) =
    ⟨(r.pop).2, .idle, some ((r.pop).1.elim .empty .popped)⟩ := by
  rw [show fuel + (5 + k) = fuel + 2 + k + 2 + 1 by omega, alone_load]
  obtain ⟨extra, havailable⟩ := exists_alone_check (fuel + 2 + k) r (.one into) r.head
  simp only [havailable, ConsumerGoal.want, Ring.pop, enter]
  by_cases h0 : (r.available r.head 1).1 = 0
  · simp only [h0, if_true]
    rfl
  · simp only [h0, if_false, ConsumerStep.andThen]
    rw [show fuel + 2 + k + extra = fuel + extra + 1 + 1 + k by omega, alone_finished]
    rfl

/-! ### Batches -/

/-- Elements are read one after the other, as `Ring.readRun` does it, and their slots are then
freed together. -/
theorem alone_readRun (left : Nat) (head : UInt64) (out : List (Element k ω)) :
    alone (fuel + 1 + (k + 1) * (left + 1)) r (.read (.batch left out) head 0 into) =
      ⟨r.vacate (r.readRun (left + 1) head).2, .idle,
        some (.poppedMany (out ++ (r.readRun (left + 1) head).1))⟩ := by
  induction left generalizing head out into with
  | zero =>
    rw [show fuel + 1 + (k + 1) * (0 + 1) = fuel + 1 + 1 + k by omega, alone_finished]
    rfl
  | succ left ih =>
    rw [show fuel + 1 + (k + 1) * (left + 1 + 1) = fuel + 1 + (k + 1) * (left + 1) + 1 + k by
      rw [Nat.mul_succ]; omega, alone_finished]
    simp only [finished, ConsumerStep.andThen]
    rw [ih, List.append_assoc, Ring.readRun]
    rfl

/-- A batch that runs alone does what `Ring.popBatch` does, in steps for as many elements as it
asks for. -/
theorem alone_popBatch (limit : UInt64) :
    alone (fuel + (4 + (k + 1) * limit.toNat)) r (.load (.batch limit into)) =
      ⟨(r.popBatch limit).2, .idle, some (.poppedMany (r.popBatch limit).1)⟩ := by
  rw [show fuel + (4 + (k + 1) * limit.toNat) = fuel + 1 + (k + 1) * limit.toNat + 2 + 1 by omega,
    alone_load]
  obtain ⟨extra, havailable⟩ :=
    exists_alone_check (fuel + 1 + (k + 1) * limit.toNat) r (.batch limit into) r.head
  rw [havailable, Ring.popBatch]
  simp only [ConsumerGoal.want, enter]
  generalize hcount : min (r.available r.head limit).1.toNat limit.toNat = count
  cases count with
  | zero => rfl
  | succ left =>
    have hle : (k + 1) * (left + 1) ≤ (k + 1) * limit.toNat := Nat.mul_le_mul_left _ (by omega)
    obtain ⟨spare, hspare⟩ := Nat.exists_eq_add_of_le hle
    rw [show fuel + 1 + (k + 1) * limit.toNat + extra =
      fuel + spare + extra + 1 + (k + 1) * (left + 1) by omega]
    simp only [ConsumerStep.andThen, alone_readRun, List.nil_append]
    rw [if_neg (Nat.succ_ne_zero left)]

/-! ### Held slots -/

theorem alone_hold (head : UInt64) : alone fuel r (.hold head) = ⟨r, .hold head, none⟩ := by
  induction fuel with
  | zero => rfl
  | succ fuel ih => exact ih

/-- A slot that is acquired is held at the position that `Ring.acquireRead` gives. -/
theorem alone_acquireRead :
    alone (fuel + 3) r (.load .slot) =
      match r.acquireRead with
      | (none, r) => ⟨r, .idle, some .noSlot⟩
      | (some head, r) => ⟨r, .hold head, none⟩ := by
  obtain ⟨extra, havailable⟩ := exists_alone_check fuel r .slot r.head
  rw [alone_load, havailable, Ring.acquireRead]
  simp only [ConsumerGoal.want, enter]
  by_cases h0 : (r.available r.head 1).1 = 0
  · simp only [h0, if_true]
    rfl
  · simp only [h0, if_false, ConsumerStep.andThen, alone_hold]

/-- The element in the held slot is seen as it is there. -/
theorem alone_look (head : UInt64) :
    (step r (.look into) (.hold head)).andThen (alone (fuel + 1 + k)) =
      ⟨r, .hold head, some (.seen (r.read head))⟩ :=
  alone_finished fuel r into .look head

/-- The element in the held slot is taken, and the slot is handed back. -/
theorem alone_take (head : UInt64) :
    (step r (.take into) (.hold head)).andThen (alone (fuel + 3 + k)) =
      ⟨r.releaseRead, .idle, some (.taken (r.read head))⟩ :=
  alone_finished (fuel + 2) r into .take head

theorem alone_release (head : UInt64) :
    (step r .release (.hold head)).andThen (alone (fuel + 2)) =
      ⟨r.releaseRead, .idle, some .released⟩ := rfl

theorem alone_len :
    (step r .count .idle).andThen (alone (fuel + 2)) = ⟨r, .idle, some (.len r.len)⟩ := rfl

end ConsumerPhase

end LockFreeRings.Spsc
