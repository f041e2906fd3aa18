import LockFreeRings.Spsc.Alone
import LockFreeRings.Proofs.Spsc.Arising
import LockFreeRings.Proofs.Spsc.Iterators
set_option autoImplicit false

/-!
# Nothing that an iterator gives is lost

A stream asks an iterator for one element after the other and publishes them together in the
end, when the iterator has no more or the ring has no room.  The iterator may use the consumer
before it answers (`Ring.Consumes`), so the head can move while the call goes on; the tail
cannot, since nothing is published before the end.

So the elements of one call lie less than a lap behind a tail that stands still, and the head
does not come past it: there are never as many as slots (`Ring.Drafts.queue_add_le`).  That ends
the loop when the iterator does not, and it is why the position behind the last element is the
tail again only when there are none.

The questions that an iterator is asked are written down beside the call (`Ring.watch`).
-/

namespace LockFreeRings

variable {n : SlotCount}

theorem SlotCount.cursor_add (n : SlotCount) (p i : Nat) :
    (n.cursor p + UInt64.ofNat i) &&& n.mask = n.cursor (p + i) := by
  apply UInt64.toNat_inj.1
  rw [toNat_and_mask, UInt64.toNat_add, Nat.mod_mod_of_dvd _ n.size_dvd, toNat_cursor,
    UInt64.toNat_ofNat', toNat_cursor, Nat.add_mod, Nat.mod_mod,
    Nat.mod_mod_of_dvd _ n.size_dvd, ← Nat.add_mod]

theorem SlotCount.index_cursor_add (n : SlotCount) (p i : Nat) :
    n.index (n.cursor p + UInt64.ofNat i) = n.index (n.cursor (p + i)) := by
  rw [← n.cursor_add p i]
  apply Fin.ext
  rw [val_index, val_index, toNat_and_mask, Nat.mod_mod]

namespace Spsc

variable {k : Nat} {ω σ : Type}

/-! ## What an iterator is asked -/

namespace Ring

/-- A question that an iterator was asked: what was left of it, and the ring it could use. -/
structure Question (σ : Type) (n : SlotCount) (k : Nat) (ω : Type) where
  state : σ
  ring : Ring n k ω

/-- Writes down what an iterator is asked. -/
def watch (pull : σ → Ring n k ω → Pull (Element k ω) × σ × Ring n k ω) :
    σ × List (Question σ n k ω) → Ring n k ω →
      Pull (Element k ω) × (σ × List (Question σ n k ω)) × Ring n k ω
  | (s, log), r =>
    let (answer, s', r') := pull s r
    (answer, (s', log ++ [⟨s, r⟩]), r')

/-- Why a stream stops. -/
inductive Stop where
  /-- the ring has no room -/
  | full
  /-- the iterator has no more -/
  | ended
  /-- the iterator fails -/
  | failed
  deriving DecidableEq

/-- What is answered last, after the elements. -/
def Stop.answers {α : Type} : Stop → List (Pull α)
  | .full => []
  | .ended => [.ended]
  | .failed => [.failed]

/-- What a stream that stops returns; it returns nothing when the iterator fails. -/
def Stop.result {α : Type} : Stop → α → Option α
  | .failed, _ => none
  | _, a => some a

/-- What is published of the elements that were stored. -/
def Stop.published {α : Type} : Stop → List α → List α
  | .failed, _ => []
  | _, vs => vs

theorem Stop.result_of_ne {α : Type} {stop : Stop} (h : stop ≠ .failed) (a : α) :
    stop.result a = some a := by
  cases stop with
  | failed => exact absurd rfl h
  | full => rfl
  | ended => rfl

theorem Stop.published_of_ne {α : Type} {stop : Stop} (h : stop ≠ .failed) (vs : List α) :
    stop.published vs = vs := by
  cases stop with
  | failed => exact absurd rfl h
  | full => rfl
  | ended => rfl

/-- The ring when a stream has stopped, which stores a tail that moved. -/
def Stop.publish (stop : Stop) (start tail : UInt64) (r : Ring n k ω) : Ring n k ω :=
  match stop with
  | .failed => r
  | _ => if tail = start then r else r.publish tail

variable (pull : σ → Ring n k ω → Pull (Element k ω) × σ × Ring n k ω)

/-- The questions lead from one state of the iterator and one queue to others: each is put to
what the one before has left of the iterator, with what it has left of the queue. -/
inductive Asked : σ → List (Element k ω) → List (Question σ n k ω) → σ → List (Element k ω) → Prop
  where
  | nil (s : σ) (queue : List (Element k ω)) : Asked s queue [] s queue
  | cons {q : Question σ n k ω} {log : List (Question σ n k ω)} {queue : List (Element k ω)}
      {s' : σ} {queue' : List (Element k ω)} (hqueue : q.ring.queue = queue)
      (h : Asked (pull q.state q.ring).2.1 (pull q.state q.ring).2.2.queue log s' queue') :
      Asked q.state queue (q :: log) s' queue'

/-- The loop does not depend on whether it is watched. -/
theorem writePulls_watch (fuel count : Nat) (tail : UInt64) (s : σ)
    (log : List (Question σ n k ω)) (r : Ring n k ω) :
    ∃ log', writePulls (watch pull) fuel count tail (s, log) r =
      ((writePulls pull fuel count tail s r).1,
        ((writePulls pull fuel count tail s r).2.1, log'),
        (writePulls pull fuel count tail s r).2.2) := by
  induction fuel generalizing count tail s log r with
  | zero => exact ⟨log, rfl⟩
  | succ fuel ih =>
      unfold writePulls
      rcases r.room tail 1 with ⟨room, r₁⟩
      simp only [watch]
      split
      · exact ⟨log, rfl⟩
      · rcases hpull : pull s r₁ with ⟨answer, s₁, r₂⟩
        cases answer with
        | failed => exact ⟨_, rfl⟩
        | ended => exact ⟨_, rfl⟩
        | item v => exact ih (count + 1) (next n tail) s₁ _ (r₂.write tail v)

/-- No room is found only with a copy of the head that was refreshed. -/
theorem cachedHead_of_room_eq_zero {r : Ring n k ω} {tail : UInt64} (h : (r.room tail 1).1 = 0) :
    (r.room tail 1).2.cachedHead = (r.room tail 1).2.head := by
  by_cases hwant : 1 ≤ r.knownRoom tail
  · rw [room, if_pos hwant] at h
    have hzero : r.knownRoom tail = 0 := h
    rw [hzero] at hwant
    cases hwant
  · rw [room, if_neg hwant]
    rfl

/-! ## The loop -/

/-- What the loop of a stream comes to, within `left` questions, that goes on with state `s` on
ring `r` when the elements `drafted` are stored from `start` on. -/
structure Streamed (left start : Nat) (drafted : List (Element k ω)) (s : σ) (r : Ring n k ω)
    (f : Fifo k ω) (log : List (Question σ n k ω)) (vs : List (Element k ω)) (stop : Stop) (s' : σ)
    (r' : Ring n k ω) (f' : Fifo k ω) (m' : Marks) : Prop where
  returns : ∀ fuel before, left < fuel →
    writePulls (watch pull) fuel drafted.length (n.cursor (start + drafted.length)) (s, before) r =
      (stop.result ((drafted ++ vs).length, n.cursor (start + (drafted ++ vs).length)),
        (s', before ++ log), r')
  asked : Asked pull s f.queue log s' f'.queue
  answers : log.map (fun q => (pull q.state q.ring).1) = vs.map .item ++ stop.answers
  room : ∀ i q, log[i]? = some q →
    q.ring.tail = n.cursor start ∧ q.ring.len.toNat + (drafted.length + i) < n.size - 1
  drafts : r'.Drafts f' m' start (drafted ++ vs) 0
  /-- Places behind the elements are left alone. -/
  vacant : f.vacant.drop (drafted ++ vs).length <+: f'.vacant.drop (drafted ++ vs).length
  full : stop = .full → f'.queue.length + (drafted ++ vs).length = n.size - 1 ∧
    r'.cachedHead = r'.head

/-- The loop puts a question: there is room, and this is what comes of it. -/
structure Asks (start : Nat) (drafted : List (Element k ω)) (s : σ) (r : Ring n k ω)
    (f : Fifo k ω) (r₁ : Ring n k ω) (answer : Pull (Element k ω)) (s₂ : σ) (r₂ : Ring n k ω)
    (f₂ : Fifo k ω) (m₂ : Marks) : Prop where
  finds : ∃ room, r.room (n.cursor (start + drafted.length)) 1 = (room, r₁) ∧ room ≠ 0
  answers : pull s r₁ = (answer, s₂, r₂)
  queue : r₁.queue = f.queue
  tail : r₁.tail = n.cursor start
  room : r₁.len.toNat + drafted.length < n.size - 1
  drafts : r₂.Drafts f₂ m₂ start drafted 1
  vacant : f.vacant <+: f₂.vacant

variable {pull} {r r₁ r₂ : Ring n k ω} {f f₂ : Fifo k ω} {m m₂ : Marks} {start : Nat}
  {drafted : List (Element k ω)} {s s₂ : σ} {answer : Pull (Element k ω)}

/-- A question is put when what is queued and what is stored do not fill the ring. -/
theorem Drafts.exists_asks (h : r.Drafts f m start drafted 0)
    (hlt : f.queue.length + drafted.length < n.size - 1)
    (hpull : ∀ r, Consumes r (pull s r).2.2) :
    ∃ r₁ answer s₂ r₂ f₂ m₂, Asks pull start drafted s r f r₁ answer s₂ r₂ f₂ m₂ := by
  obtain ⟨m₁, -, hne, hroom⟩ := h.room_of_lt hlt
  generalize hfind : r.room (n.cursor (start + drafted.length)) 1 = found at hne hroom
  obtain ⟨room, r₁⟩ := found
  obtain ⟨f₂, m₂, hr₂, hkept⟩ := (hpull r₁).keeps hroom.represents
  refine ⟨r₁, _, _, _, f₂, m₂, ⟨room, hfind, hne⟩, rfl, hroom.represents.queue_eq, ?_, ?_,
    hroom.resume hr₂ hkept, hkept.vacant⟩
  · rw [hroom.represents.tail, hroom.appended]
  · rw [hroom.represents.toNat_len]
    exact hlt

/-- What the loop does when it has put a question. -/
theorem Asks.writePulls_eq (h : Asks pull start drafted s r f r₁ answer s₂ r₂ f₂ m₂)
    (fuel : Nat) (before : List (Question σ n k ω)) :
    writePulls (watch pull) (fuel + 1) drafted.length (n.cursor (start + drafted.length))
        (s, before) r =
      match answer with
      | .failed => (none, (s₂, before ++ [⟨s, r₁⟩]), r₂)
      | .ended =>
        (some (drafted.length, n.cursor (start + drafted.length)), (s₂, before ++ [⟨s, r₁⟩]), r₂)
      | .item v =>
        writePulls (watch pull) fuel (drafted.length + 1)
          (next n (n.cursor (start + drafted.length))) (s₂, before ++ [⟨s, r₁⟩])
          (r₂.write (n.cursor (start + drafted.length)) v) := by
  obtain ⟨room, hfind, hne⟩ := h.finds
  rw [writePulls]
  simp only [hfind, hne, if_false, watch, h.answers]
  cases answer <;> rfl

/-- The iterator is not asked again after its end or a failure. -/
theorem Asks.last (h : Asks pull start drafted s r f r₁ answer s₂ r₂ f₂ m₂) {stop : Stop}
    (hlast : stop.answers = [answer]) (left : Nat) :
    Streamed pull left start drafted s r f [⟨s, r₁⟩] [] stop s₂ r₂ f₂ m₂ := by
  constructor
  case returns =>
    intro fuel before hfuel
    obtain ⟨fuel, rfl⟩ := Nat.exists_eq_add_one.mpr (Nat.zero_lt_of_lt hfuel)
    rw [h.writePulls_eq, List.append_nil]
    cases stop with
    | full => cases hlast
    | ended =>
        cases hlast
        rfl
    | failed =>
        cases hlast
        rfl
  case asked =>
    refine .cons (q := ⟨s, r₁⟩) h.queue ?_
    rw [h.answers, h.drafts.represents.queue_eq]
    exact .nil s₂ f₂.queue
  case answers => rw [List.map_singleton, h.answers, List.map_nil, List.nil_append, hlast]
  case room =>
    intro i q hq
    obtain ⟨rfl, rfl⟩ : i = 0 ∧ ⟨s, r₁⟩ = q := by
      rwa [List.getElem?_singleton, Option.ite_none_right_eq_some, Option.some_inj] at hq
    exact ⟨h.tail, h.room⟩
  case drafts =>
    rw [List.append_nil]
    exact h.drafts.weaken (Nat.zero_le _)
  case vacant => exact h.vacant.drop _
  case full =>
    intro hfull
    rw [hfull] at hlast
    cases hlast

/-- An element is stored, and the loop goes on. -/
theorem Asks.item {v : Element k ω} (h : Asks pull start drafted s r f r₁ (.item v) s₂ r₂ f₂ m₂)
    {left : Nat} {log : List (Question σ n k ω)} {vs : List (Element k ω)} {stop : Stop} {s' : σ}
    {r' : Ring n k ω} {f' : Fifo k ω} {m' : Marks}
    (hrest : Streamed pull left start (drafted ++ [v]) s₂
      (r₂.write (n.cursor (start + drafted.length)) v) (f₂.put drafted.length v) log vs stop s' r'
      f' m') :
    Streamed pull (left + 1) start drafted s r f (⟨s, r₁⟩ :: log) (v :: vs) stop s' r' f' m' := by
  have hsplit : drafted ++ v :: vs = drafted ++ [v] ++ vs := List.append_cons drafted v vs
  constructor
  case returns =>
    intro fuel before hfuel
    obtain ⟨fuel, rfl⟩ := Nat.exists_eq_add_one.mpr (Nat.zero_lt_of_lt hfuel)
    have hreturns := hrest.returns fuel (before ++ [⟨s, r₁⟩]) (Nat.lt_of_succ_lt_succ hfuel)
    rw [List.length_append, List.length_singleton] at hreturns
    rw [h.writePulls_eq]
    simp only
    rw [next_cursor, Nat.add_assoc, hreturns, hsplit, List.append_assoc before]
    rfl
  case asked =>
    refine .cons (q := ⟨s, r₁⟩) h.queue ?_
    rw [h.answers, h.drafts.represents.queue_eq]
    exact hrest.asked
  case answers =>
    rw [List.map_cons, List.map_cons, h.answers, hrest.answers]
    rfl
  case room =>
    intro i q hq
    cases i with
    | zero =>
        cases hq
        exact ⟨h.tail, h.room⟩
    | succ i =>
        obtain ⟨htail, hroom⟩ := hrest.room i q hq
        rw [List.length_append, List.length_singleton] at hroom
        exact ⟨htail, by omega⟩
  case drafts =>
    rw [hsplit]
    exact hrest.drafts
  case vacant =>
    have hput : drafted.length < (drafted ++ [v] ++ vs).length := by
      rw [List.length_append, List.length_append, List.length_singleton]
      omega
    have hvacant := hrest.vacant
    rw [Fifo.put, List.drop_set_of_lt hput] at hvacant
    rw [hsplit]
    exact (h.vacant.drop _).trans hvacant
  case full =>
    rw [hsplit]
    exact hrest.full

variable (pull s) in
/-- The iterator is not asked when what is queued and what is stored fill the ring. -/
theorem Drafts.streamed_of_full (h : r.Drafts f m start drafted 0)
    (hfull : n.size - 1 ≤ f.queue.length + drafted.length) (left : Nat) :
    ∃ r' m', Streamed pull left start drafted s r f [] [] .full s r' f m' := by
  obtain ⟨m', -, hzero, hdrafts⟩ := h.room_of_full hfull
  refine ⟨(r.room (n.cursor (start + drafted.length)) 1).2, m', ?_⟩
  constructor
  case returns =>
    intro fuel before hfuel
    obtain ⟨fuel, rfl⟩ := Nat.exists_eq_add_one.mpr (Nat.zero_lt_of_lt hfuel)
    rw [List.append_nil, List.append_nil]
    unfold writePulls
    simp only [hzero, if_true]
    rfl
  case asked => exact .nil s f.queue
  case answers => rfl
  case room =>
    intro i q hq
    cases hq
  case drafts =>
    rw [List.append_nil]
    exact hdrafts
  case vacant => exact List.prefix_rfl
  case full =>
    intro _
    have hle := hdrafts.queue_add_le
    rw [List.append_nil]
    exact ⟨by omega, cachedHead_of_room_eq_zero hzero⟩

/-- The loop stops without its fuel, whatever an iterator does that only uses the consumer,
since the tail stands still. -/
theorem Drafts.exists_streamed (Valid : σ → Prop)
    (hpull : ∀ s r, Valid s → Consumes r (pull s r).2.2 ∧ Valid (pull s r).2.1) (left : Nat)
    (hleft : drafted.length + left = n.size - 1) (h : r.Drafts f m start drafted 0)
    (hs : Valid s) :
    ∃ log vs stop s' r' f' m', Streamed pull left start drafted s r f log vs stop s' r' f' m' := by
  induction left generalizing drafted r f m s with
  | zero =>
      have hle := h.queue_add_le
      obtain ⟨r', m', hfull⟩ := h.streamed_of_full pull s (by omega) 0
      exact ⟨_, _, _, _, _, _, _, hfull⟩
  | succ left ih =>
      rcases Nat.lt_or_ge (f.queue.length + drafted.length) (n.size - 1) with hlt | hge
      · obtain ⟨r₁, answer, s₂, r₂, f₂, m₂, hasks⟩ := h.exists_asks hlt fun r => (hpull s r hs).1
        cases answer with
        | failed => exact ⟨_, _, .failed, _, _, _, _, hasks.last rfl _⟩
        | ended => exact ⟨_, _, .ended, _, _, _, _, hasks.last rfl _⟩
        | item v =>
            have hmore : (drafted ++ [v]).length + left = n.size - 1 := by
              rw [List.length_append, List.length_singleton]
              omega
            have hs₂ : Valid s₂ := by
              have hvalid := (hpull s r₁ hs).2
              rwa [hasks.answers] at hvalid
            obtain ⟨log, vs, stop, s', r', f', m', hrest⟩ := ih hmore (hasks.drafts.store v) hs₂
            exact ⟨_, _, _, _, _, _, _, hasks.item hrest⟩
      · obtain ⟨r', m', hfull⟩ := h.streamed_of_full pull s hge (left + 1)
        exact ⟨_, _, _, _, _, _, _, hfull⟩

/-! ## The call -/

/-- What comes of the loop is published. -/
theorem pushFrom_eq {s s' : σ} {r' : Ring n k ω} {stop : Stop} {count : Nat} {tail : UInt64}
    (h : writePulls pull n.size 0 r.tail s r = (stop.result (count, tail), s', r')) :
    pushFrom pull s r = (stop.result count, s', stop.publish r.tail tail r') := by
  rw [pushFrom, h]
  cases stop <;> rfl

theorem Drafts.stop (h : r.Drafts f m start drafted 0) (stop : Stop) :
    (stop.publish (n.cursor start) (n.cursor (start + drafted.length)) r).Represents
      (f.append (stop.published drafted)) m := by
  cases stop with
  | full => exact h.publish_if_moved
  | ended => exact h.publish_if_moved
  | failed =>
      rw [Stop.published, Fifo.append_nil]
      exact h.represents

theorem Stop.publish_eq (stop : Stop) (start tail : UInt64) (r : Ring n k ω) :
    ∃ tail', stop.publish start tail r = { r with tail := tail' } := by
  cases stop with
  | failed => exact ⟨r.tail, rfl⟩
  | full | ended =>
      by_cases hmoved : tail = start
      · exact ⟨r.tail, if_pos hmoved⟩
      · exact ⟨tail, if_neg hmoved⟩

/-- What came of a stream that began with state `s` on ring `r`, when its iterator was asked
`log`: the elements `vs` were taken, and it stopped for the reason `stop`. -/
structure Stream (pull : σ → Ring n k ω → Pull (Element k ω) × σ × Ring n k ω) (s : σ)
    (r : Ring n k ω) (log : List (Question σ n k ω)) (vs left : List (Element k ω)) (stop : Stop)
    (after : Option Nat × σ × Ring n k ω) : Prop where
  /-- Each question is put to what the one before has left of the iterator, and the caller finds
  what the last one has left.  Between questions the queue is left alone; in the end it is
  `left`. -/
  asked : Asked pull s r.queue log after.2.1 left
  /-- The elements are answered in turn.  After its end or a failure the iterator is not asked
  again, and when the ring is full it is not asked for one more. -/
  answers : log.map (fun q => (pull q.state q.ring).1) = vs.map .item ++ stop.answers
  /-- The iterator is asked while the elements published and those not yet published leave
  room at the moment. -/
  room : ∀ i q, log[i]? = some q → q.ring.tail = r.tail ∧ q.ring.len.toNat + i < n.size - 1
  /-- The loop stops when there is no room at the moment, with the head read again. -/
  full : stop = .full → after.2.2.isFull = true ∧ after.2.2.cachedHead = after.2.2.head
  /-- The number of elements is returned, unless the iterator fails. -/
  count : after.1 = stop.result vs.length
  /-- The elements are stored in order. -/
  stored : ∀ i v, vs[i]? = some v → after.2.2.read (r.tail + UInt64.ofNat i) = v
  /-- They are all appended to what is left of the queue, unless the iterator fails, and nothing
  else is. -/
  queue : after.2.2.queue = left ++ stop.published vs
  tail : after.2.2.tail = (r.tail + UInt64.ofNat (stop.published vs).length) &&& n.mask
  /-- There are fewer than slots. -/
  bound : vs.length ≤ n.size - 1
  /-- The position that the loop comes to. -/
  position : (writePulls pull n.size 0 r.tail s r).1 =
    stop.result (vs.length, (r.tail + UInt64.ofNat vs.length) &&& n.mask)
  /-- It is the tail only when there are no elements. -/
  moved : (r.tail + UInt64.ofNat vs.length) &&& n.mask = r.tail ↔ vs = []
  /-- The loop does not come to the end of its fuel. -/
  unbounded : ∀ fuel, n.size ≤ fuel →
    writePulls pull fuel 0 r.tail s r = writePulls pull n.size 0 r.tail s r

section

variable {s s' : σ} {log : List (Question σ n k ω)} {vs : List (Element k ω)} {stop : Stop}
  {r' : Ring n k ω} {f' : Fifo k ω} {m' : Marks}

/-- What the whole loop of a stream comes to, watched or not. -/
theorem Streamed.loop_eq
    (h : Streamed pull (n.size - 1) (f.appended m) [] s r f log vs stop s' r' f' m')
    (hr : r.Represents f m) {fuel : Nat} (hfuel : n.size ≤ fuel) :
    writePulls (watch pull) fuel 0 r.tail (s, []) r =
        (stop.result (vs.length, n.cursor (f.appended m + vs.length)), (s', log), r') ∧
      writePulls pull fuel 0 r.tail s r =
        (stop.result (vs.length, n.cursor (f.appended m + vs.length)), s', r') := by
  have hpos := n.size_pos
  have hwatched := h.returns fuel [] (by omega)
  rw [List.length_nil, Nat.add_zero, ← hr.tail, List.nil_append, List.nil_append] at hwatched
  refine ⟨hwatched, ?_⟩
  obtain ⟨log', hwatch⟩ := writePulls_watch pull fuel 0 r.tail s [] r
  rw [hwatched] at hwatch
  injection hwatch with hresult hrest
  injection hrest with hstate hring
  injection hstate with hs
  rw [hresult, hs, hring]

/-- The elements are in their slots when the stream has stopped. -/
theorem Drafts.read_stop (h : r'.Drafts f' m' start vs 0) (stop : Stop) (last : UInt64) {i : Nat}
    {v : Element k ω} (hv : vs[i]? = some v) :
    (stop.publish (n.cursor start) last r').read (n.cursor start + UInt64.ofNat i) = v := by
  obtain ⟨hi, -⟩ := List.getElem?_eq_some_iff.mp hv
  obtain ⟨rest, hrest⟩ := h.stored
  obtain ⟨tail', hpublish⟩ := stop.publish_eq (n.cursor start) last r'
  have hvacant : f'.vacant[i]? = some v := by
    rw [← hrest, List.getElem?_append_left hi]
    exact hv
  have hread := h.represents.read_vacant hvacant
  rw [h.appended] at hread
  rw [hpublish, ← hread]
  unfold Ring.read
  simp only [n.index_cursor_add]

/-- The position behind fewer elements than slots is where they start only when there are
none. -/
theorem cursor_add_eq_iff (start : Nat) (hle : vs.length ≤ n.size - 1) :
    (n.cursor start + UInt64.ofNat vs.length) &&& n.mask = n.cursor start ↔ vs = [] := by
  have hpos := n.size_pos
  rw [n.cursor_add]
  constructor
  · intro hsame
    have hcount := n.cursor_inj_of_lt (Nat.le_add_right start vs.length) (by omega) hsame.symm
    exact List.length_eq_zero_iff.mp (by omega)
  · intro hnil
    rw [hnil, List.length_nil, Nat.add_zero]

/-- What comes of the loop is what is known of the stream. -/
theorem Streamed.stream
    (h : Streamed pull (n.size - 1) (f.appended m) [] s r f log vs stop s' r' f' m')
    (hr : r.Represents f m) :
    Stream pull s r log vs f'.queue stop (stop.result vs.length, s',
      stop.publish r.tail (n.cursor (f.appended m + vs.length)) r') := by
  have hdrafts := h.drafts
  rw [List.nil_append] at hdrafts
  have hstop := hdrafts.stop stop
  have hle := hdrafts.queue_add_le
  have hcursor := n.cursor_add (f.appended m) vs.length
  rw [← hr.tail] at hstop hcursor
  constructor
  case asked =>
    rw [hr.queue_eq]
    exact h.asked
  case answers => exact h.answers
  case room =>
    intro i q hq
    obtain ⟨htail, hroom⟩ := h.room i q hq
    rw [List.length_nil, Nat.zero_add] at hroom
    exact ⟨htail.trans hr.tail.symm, hroom⟩
  case full =>
    intro hfull
    obtain ⟨hlength, hhead⟩ := h.full hfull
    rw [List.nil_append] at hlength
    subst hfull
    obtain ⟨tail', hpublish⟩ :=
      Stop.full.publish_eq r.tail (n.cursor (f.appended m + vs.length)) r'
    constructor
    · rw [hstop.isFull_eq, decide_eq_true_iff, Fifo.append, List.length_append]
      exact hlength
    · rw [hpublish]
      exact hhead
  case count => rfl
  case stored =>
    intro i v hv
    rw [hr.tail]
    exact hdrafts.read_stop stop _ hv
  case queue => rw [hstop.queue_eq, Fifo.append]
  case tail =>
    rw [hstop.tail, hr.tail, n.cursor_add, Fifo.appended, Fifo.append, List.length_append,
      ← Nat.add_assoc, ← Fifo.appended, hdrafts.appended]
  case bound => omega
  case position => rw [(h.loop_eq hr (Nat.le_refl _)).2, hcursor]
  case moved =>
    rw [hr.tail]
    exact cursor_add_eq_iff (f.appended m) (by omega)
  case unbounded =>
    intro fuel hfuel
    rw [(h.loop_eq hr hfuel).2, (h.loop_eq hr (Nat.le_refl _)).2]

end

theorem Represents.exists_stream (h : r.Represents f m)
    (hpull : ∀ s r, Consumes r (pull s r).2.2) (s : σ) :
    ∃ log vs left stop,
      pushFrom (watch pull) (s, []) r =
        ((pushFrom pull s r).1, ((pushFrom pull s r).2.1, log), (pushFrom pull s r).2.2) ∧
      Stream pull s r log vs left stop (pushFrom pull s r) := by
  obtain ⟨log, vs, stop, s', r', f', m', hloop⟩ :=
    (Drafts.new h).exists_streamed (fun _ => True) (fun s r _ => ⟨hpull s r, trivial⟩)
      (n.size - 1) (Nat.zero_add _) (s := s) trivial
  obtain ⟨hwatched, hplain⟩ := hloop.loop_eq h (Nat.le_refl _)
  refine ⟨log, vs, f'.queue, stop, ?_, ?_⟩
  · rw [pushFrom_eq hwatched, pushFrom_eq hplain]
  · rw [pushFrom_eq hplain]
    exact hloop.stream h

/-- A stream loses nothing that its iterator gives. -/
theorem Arises.stream_loses_nothing {blank : Element k ω} (h : r.Arises blank)
    (hpull : ∀ s r, Consumes r (pull s r).2.2) (s : σ) :
    ∃ log vs left stop,
      pushFrom (watch pull) (s, []) r =
        ((pushFrom pull s r).1, ((pushFrom pull s r).2.1, log), (pushFrom pull s r).2.2) ∧
      Stream pull s r log vs left stop (pushFrom pull s r) := by
  obtain ⟨f, m, hr⟩ := h.represents
  exact hr.exists_stream hpull s

/-- The steps of a stream, where the caller may use the consumer before its iterator answers, do
what the operation does. -/
theorem Arises.alone_pushFrom {blank : Element k ω} (h : r.Arises blank) (c : Caller n k ω σ)
    (hanswers : ∀ s r, Consumes r (c.answers s r).2.2) (s : σ) (fuel : Nat) :
    ∃ ended, ProducerPhase.alone c (fuel + ((k + 4) * (n.size + 1) + 1)) s r (.load .stream) =
      match r.pushFrom c.answers s with
      | (none, s, r) => (s, ⟨r, .idle, some .streamFailed⟩)
      | (some count, s, r) => (s, ⟨r, .idle, some (.streamed count ended)⟩) := by
  obtain ⟨f, m, hr⟩ := h.represents
  obtain ⟨_, _, _, _, -, hstream⟩ := hr.exists_stream hanswers s
  exact ProducerPhase.alone_pushFrom c s r
    (fun more => hstream.unbounded (n.size + more) (Nat.le_add_right _ _)) fuel

/-- Gives numbers without end, and takes an element out before each. -/
def counting (s : Nat) (r : Ring n 1 Nat) : Pull (Element 1 Nat) × Nat × Ring n 1 Nat :=
  (.item (.replicate 1 s), s + 1, r.pop.2)

/-- A ring that holds one element. -/
def beforeCounting (n : SlotCount) : Ring n 1 Nat :=
  (runCommand true 1 {} (.push (.replicate 1 7)) { iterators := [] }
    (.new n (.replicate 1 0))).ring

theorem counting_loses_nothing :
    (beforeCounting ⟨2, by decide, by decide⟩).Arises (.replicate 1 0) ∧
      (∀ s (r : Ring ⟨2, by decide, by decide⟩ 1 Nat), Consumes r (counting s r).2.2) ∧
      (pushFrom counting 10 (beforeCounting ⟨2, by decide, by decide⟩)).1 = some 3 ∧
      (pushFrom counting 10 (beforeCounting ⟨2, by decide, by decide⟩)).2.1 = 13 ∧
      ∃ log vs left stop,
        pushFrom (watch counting) (10, []) (beforeCounting ⟨2, by decide, by decide⟩) =
          ((pushFrom counting 10 (beforeCounting ⟨2, by decide, by decide⟩)).1,
            ((pushFrom counting 10 (beforeCounting ⟨2, by decide, by decide⟩)).2.1, log),
            (pushFrom counting 10 (beforeCounting ⟨2, by decide, by decide⟩)).2.2) ∧
        Stream counting 10 (beforeCounting ⟨2, by decide, by decide⟩) log vs left stop
          (pushFrom counting 10 (beforeCounting ⟨2, by decide, by decide⟩)) := by
  have harises : (beforeCounting ⟨2, by decide, by decide⟩).Arises (.replicate 1 0) :=
    .command .new true {} (.push (.replicate 1 7)) { iterators := [] } (by decide)
  have hpull : ∀ s (r : Ring ⟨2, by decide, by decide⟩ 1 Nat),
      Consumes r (counting s r).2.2 := fun s r => .pop .refl
  exact ⟨harises, hpull, by rfl, by rfl, harises.stream_loses_nothing hpull 10⟩

/-! ## Commands -/

/-- What a stream replies that has stopped, with so many entries left in its iterator. -/
def Stop.reply : Stop → Nat → Nat → Reply k ω
  | .failed, _, entries => .iteratorFailed entries
  | _, count, entries => .pulledMany count entries

/-- The command that streams an iterator of a session loses nothing, whatever the entries of the
iterator nest. -/
theorem Arises.pushFrom_loses_nothing {blank : Element k ω} (h : r.Arises blank) (watched : Bool)
    (fuel : Nat) {reach : Reach} (hreach : reach.producer = true) (scene : Scene k ω)
    (iterator : Nat) (limit : Option UInt64) :
    ∃ log vs left stop limit' ran,
      runCommand watched (fuel + 1) reach (.pushFrom iterator limit) scene r = ran ∧
      Stream (askWithin (runCommand watched fuel) { reach with producer := false } iterator)
        (limit, ⟨{ scene with built := false }, []⟩) r log vs left stop
        (stop.result vs.length, (limit', ⟨ran.scene, ran.events⟩), ran.ring) ∧
      ran.result = stop.reply vs.length (ran.scene.left iterator).length := by
  obtain ⟨f, m, hr⟩ := h.represents
  have hinside : ({ reach with producer := false } : Reach).producer = false := rfl
  obtain ⟨log, vs, left, stop, -, hstream⟩ := hr.exists_stream
    ((runCommand_consumes hinside watched fuel).askWithin iterator)
    (limit, ⟨{ scene with built := false }, []⟩)
  have hcount := hstream.count
  rw [runCommand_of_producer hreach rfl]
  unfold runProducer
  simp only
  generalize Ring.pushFrom (askWithin (runCommand watched fuel) { reach with producer := false }
    iterator) (limit, ⟨{ scene with built := false }, []⟩) r = after at hstream hcount
  obtain ⟨count?, ⟨limit', p⟩, r'⟩ := after
  obtain rfl : count? = stop.result vs.length := hcount
  refine ⟨log, vs, left, stop, limit', _, rfl, hstream, ?_⟩
  cases stop <;> rfl

end Ring

end Spsc

end LockFreeRings
