import LockFreeRings.Proofs.Mpmc.Laps
import Mathlib.Data.List.Nodup
set_option autoImplicit false

/-!
# The books are right

`System.Sound` says that the books of a system are right: the ring follows the
positions, every position was taken by the call that the history names, the slots
hold the elements that the books say, and each call in progress knows what
`System.Backs` says of its phase.

What one call knows is not disturbed by the steps of others (`Backs.mono`), because
a position has one owner: two calls that own it would be named by the history for
the same position.
-/

namespace LockFreeRings.Mpmc

variable {n : SlotCount} {α ι : Type}

/-! ## Lists -/

/-- A filter that lets one more element through. -/
theorem filter_perm_cons {β : Type} {l : List β} (hn : l.Nodup) {x : β} (hx : x ∈ l)
    {P Q : β → Bool} (hP : P x = false) (hQ : Q x = true)
    (hagree : ∀ y ∈ l, y ≠ x → Q y = P y) : (l.filter Q).Perm (x :: l.filter P) := by
  induction l with
  | nil => simp at hx
  | cons y l ih =>
      obtain ⟨hy, hn⟩ := List.nodup_cons.mp hn
      rcases List.mem_cons.mp hx with rfl | hmem
      · have hl : l.filter Q = l.filter P := List.filter_congr fun z hz =>
          hagree z (List.mem_cons_of_mem _ hz) fun h => hy (h ▸ hz)
        rw [List.filter_cons_of_pos hQ, List.filter_cons_of_neg (by simp [hP]), hl]
      · have hne : y ≠ x := fun h => hy (h ▸ hmem)
        have htail := ih hn hmem fun z hz => hagree z (List.mem_cons_of_mem _ hz)
        have hyy := hagree y List.mem_cons_self hne
        cases hPy : P y with
        | false =>
            rw [List.filter_cons_of_neg (by simp [hyy, hPy]),
              List.filter_cons_of_neg (by simp [hPy])]
            exact htail
        | true =>
            rw [List.filter_cons_of_pos (by rw [hyy, hPy]), List.filter_cons_of_pos hPy]
            exact (htail.cons y).trans (.swap x y _)

/-! ## What a call knows -/

/-- The call has read the tail as the word `pos`. -/
def Activity.SawTail (a : Activity α) (p : Positions) (pos : UInt64) : Prop :=
  pos = UInt64.ofNat a.seen ∧ a.tailsBefore ≤ a.seen ∧ a.seen ≤ p.tails

/-- The call has read the head as the word `pos`. -/
def Activity.SawHead (a : Activity α) (p : Positions) (pos : UInt64) : Prop :=
  pos = UInt64.ofNat a.seen ∧ a.headsBefore ≤ a.seen ∧ a.seen ≤ p.heads

namespace System

/-- The push is to append `v`, and has taken no position yet. -/
def Seeks (s : System n α ι) (a : Activity α) (v : α) : Prop :=
  a.request = .push v ∧ ∀ f ∈ s.fillings, f.number ≠ a.number

/-- The push has taken the position `pos`, to fill it with `v`. -/
def Fills (s : System n α ι) (a : Activity α) (pos : UInt64) (v : α) : Prop :=
  a.request = .push v ∧ pos = UInt64.ofNat a.seen ∧ ⟨a.number, a.seen, v⟩ ∈ s.fillings ∧
    s.positions.stage a.seen = .claimed

/-- The pop has taken no position yet. -/
def Waits (s : System n α ι) (a : Activity α) : Prop :=
  a.request = .pop ∧ ∀ e ∈ s.emptyings, e.number ≠ a.number

/-- The pop has taken the position `pos`. -/
def Empties (s : System n α ι) (a : Activity α) (pos : UInt64) : Prop :=
  a.request = .pop ∧ pos = UInt64.ofNat a.seen ∧ ⟨a.number, a.seen⟩ ∈ s.emptyings ∧
    s.positions.stage a.seen = .taken

/-- What a call in progress knows, by what it does next. -/
def Backs (s : System n α ι) (a : Activity α) : Prop :=
  match a.call with
  | .pushLoad v => s.Seeks a v
  | .pushExamine v pos => s.Seeks a v ∧ a.SawTail s.positions pos
  | .pushClaim v pos => s.Seeks a v ∧ a.SawTail s.positions pos ∧
      (a.seen = s.positions.tails → s.positions.lastLap n.size a.seen = .released)
  | .pushStore v pos => s.Fills a pos v
  | .pushPublish pos => ∃ v, s.Fills a pos v ∧ s.ring.valueAt pos = v
  | .popLoad => s.Waits a
  | .popExamine pos => s.Waits a ∧ a.SawHead s.positions pos
  | .popClaim pos => s.Waits a ∧ a.SawHead s.positions pos ∧
      (a.seen = s.positions.heads → s.positions.stage a.seen = .published)
  | .popTake pos => s.Empties a pos
  | .popRelease pos v => s.Empties a pos ∧ ∃ f ∈ s.fillings, f.pos = a.seen ∧ f.value = v
  | .emptyHead => a.request = .isEmpty
  | .emptyTail head => a.request = .isEmpty ∧ a.SawHead s.positions head
  | .fullTail => a.request = .isFull
  | .fullExamine tail => a.request = .isFull ∧ a.SawTail s.positions tail
  | .sizeHead => a.request = .size
  | .sizeTail head => a.request = .size ∧ a.SawHead s.positions head

/-- What a call that has returned has done. -/
def Kept (s : System n α ι) (number : Nat) (request : Request α) : Return α → Prop
  | .pushed => ∃ f ∈ s.fillings, f.number = number ∧ request = .push f.value
  | .full v => request = .push v ∧ ∀ f ∈ s.fillings, f.number ≠ number
  | .popped v => request = .pop ∧ ∃ e ∈ s.emptyings, e.number = number ∧
      ∃ f ∈ s.fillings, f.pos = e.pos ∧ f.value = v
  | .empty => request = .pop ∧ ∀ e ∈ s.emptyings, e.number ≠ number
  | .truth _ => request = .isEmpty ∨ request = .isFull
  | .size _ => request = .size

/-- A pop that has taken a position and has not freed its slot. -/
def Holds (a : Activity α) : Prop :=
  match a.call with
  | .popTake _ | .popRelease _ _ => True
  | _ => False

/-- The positions taken on the tail that have come to a stage of some kind. -/
def reached (s : System n α ι) (P : Stage → Bool) : List (Filling α) :=
  s.fillings.filter fun f => P (s.positions.stage f.pos)

/-- The ring and the history agree with the positions. -/
structure Ledger (s : System n α ι) : Prop where
  follows : s.ring.Follows s.positions
  fillings_pos : s.fillings.map Filling.pos = List.range s.positions.tails
  emptyings_pos : s.emptyings.map Emptying.pos = List.range s.positions.heads
  stored : ∀ f ∈ s.fillings,
    s.positions.stage f.pos = .published ∨ s.positions.stage f.pos = .taken →
      s.ring.valueAt (UInt64.ofNat f.pos) = f.value
  pushed_perm : s.pushed.Perm ((s.reached Stage.isFilled).map Filling.value)
  popped_perm : s.popped.Perm ((s.reached Stage.isEmptied).map Filling.value)

/-- The calls agree with the history. -/
structure Roster (s : System n α ι) : Prop where
  fillings_number : (s.fillings.map Filling.number).Nodup
  emptyings_number : (s.emptyings.map Emptying.number).Nodup
  filling_began : ∀ f ∈ s.fillings, ∃ t, .began f.number t (.push f.value) ∈ s.history
  emptying_began : ∀ e ∈ s.emptyings, ∃ t, .began e.number t .pop ∈ s.history
  began_lt : ∀ number t request, .began number t request ∈ s.history → number < s.calls
  began_inj : ∀ number t t' request request', .began number t request ∈ s.history →
    .began number t' request' ∈ s.history → request = request'
  returned_began : ∀ number t request result, .returned number t request result ∈ s.history →
    .began number t request ∈ s.history
  returned_kept : ∀ number t request result, .returned number t request result ∈ s.history →
    s.Kept number request result
  returned_inactive : ∀ number t request result, .returned number t request result ∈ s.history →
    ∀ u a, s.active u = some a → a.number ≠ number
  active_began : ∀ t a, s.active t = some a → .began a.number t a.request ∈ s.history
  active_before : ∀ t a, s.active t = some a →
    a.tailsBefore ≤ s.positions.tails ∧ a.headsBefore ≤ s.positions.heads
  active_backs : ∀ t a, s.active t = some a → s.Backs a
  active_inj : ∀ t u a b, s.active t = some a → s.active u = some b → a.number = b.number → t = u
  taken_held : ∀ q, s.positions.stage q = .taken →
    ∃ t a, s.active t = some a ∧ Holds a ∧ a.seen = q

section

variable {s : System n α ι} {t : ι} {a : Activity α}

/-- A call that has taken a position on the tail is a push. -/
theorem Roster.request_of_filling (h : s.Roster) (ha : s.active t = some a) {f : Filling α}
    (hf : f ∈ s.fillings) (hn : f.number = a.number) : a.request = .push f.value := by
  obtain ⟨u, hu⟩ := h.filling_began f hf
  rw [hn] at hu
  exact h.began_inj a.number t u a.request (.push f.value) (h.active_began t a ha) hu

/-- A call that has taken a position on the head is a pop. -/
theorem Roster.request_of_emptying (h : s.Roster) (ha : s.active t = some a) {e : Emptying}
    (he : e ∈ s.emptyings) (hn : e.number = a.number) : a.request = .pop := by
  obtain ⟨u, hu⟩ := h.emptying_began e he
  rw [hn] at hu
  exact h.began_inj a.number t u a.request .pop (h.active_began t a ha) hu

end

/-- The books of a system are right. -/
structure Sound (s : System n α ι) : Prop where
  ledger : s.Ledger
  roster : s.Roster

/-- The books are right at the start. -/
theorem Sound.start (n : SlotCount) (ι : Type) (blank : α) :
    (System.start n ι blank).Sound where
  ledger := by
    constructor <;>
      simp [System.start, fillings, emptyings, pushed, popped, reached, Ring.Follows.new]
  roster := by
    constructor <;> simp [System.start, fillings, emptyings]

/-! ## What a step leaves of what others know -/

/-- What a step leaves of what the call `b` knows about the positions. -/
structure Undisturbed (s s' : System n α ι) (b : Activity α) : Prop where
  tails_le : s.positions.tails ≤ s'.positions.tails
  heads_le : s.positions.heads ≤ s'.positions.heads
  free : s'.positions.tails = s.positions.tails →
    s.positions.lastLap n.size s.positions.tails = .released →
      s'.positions.lastLap n.size s.positions.tails = .released
  waiting : s'.positions.heads = s.positions.heads →
    s.positions.stage s.positions.heads = .published →
      s'.positions.stage s.positions.heads = .published
  claimed : ∀ q v, ⟨b.number, q, v⟩ ∈ s.fillings → s.positions.stage q = .claimed →
    s'.positions.stage q = .claimed ∧
      s'.ring.valueAt (UInt64.ofNat q) = s.ring.valueAt (UInt64.ofNat q)
  taken : ∀ q, ⟨b.number, q⟩ ∈ s.emptyings → s.positions.stage q = .taken →
    s'.positions.stage q = .taken

/-- A step that changes neither the positions nor the elements disturbs nobody. -/
theorem Undisturbed.of_eq {s s' : System n α ι} (b : Activity α)
    (hpos : s'.positions = s.positions) (hring : s'.ring = s.ring) : Undisturbed s s' b := by
  constructor <;> simp [hpos, hring]

/-- The history of `s'` is that of `s` and then something of another call than the
one with number `number`. -/
structure Extends (s s' : System n α ι) (number : Nat) : Prop where
  filling_mem : ∀ f ∈ s.fillings, f ∈ s'.fillings
  emptying_mem : ∀ e ∈ s.emptyings, e ∈ s'.emptyings
  filling_old : ∀ f ∈ s'.fillings, f.number = number → f ∈ s.fillings
  emptying_old : ∀ e ∈ s'.emptyings, e.number = number → e ∈ s.emptyings

theorem Kept.mono {s s' : System n α ι} {number : Nat} {request : Request α}
    {result : Return α} (hx : Extends s s' number) (h : s.Kept number request result) :
    s'.Kept number request result := by
  cases result with
  | pushed =>
      obtain ⟨f, hf, hn, hr⟩ := h
      exact ⟨f, hx.filling_mem f hf, hn, hr⟩
  | full v => exact ⟨h.1, fun f hf hn => h.2 f (hx.filling_old f hf hn) hn⟩
  | popped v =>
      obtain ⟨hr, e, he, hn, f, hf, hp⟩ := h
      exact ⟨hr, e, hx.emptying_mem e he, hn, f, hx.filling_mem f hf, hp⟩
  | empty => exact ⟨h.1, fun e he hn => h.2 e (hx.emptying_old e he hn) hn⟩
  | truth b => exact h
  | size count => exact h

/-- What a call knows outlives the steps of others. -/
theorem Backs.mono {s s' : System n α ι} {b : Activity α} (hx : Extends s s' b.number)
    (hu : Undisturbed s s' b) (h : s.Backs b) : s'.Backs b := by
  have hseeks : ∀ v, s.Seeks b v → s'.Seeks b v := fun v hs =>
    ⟨hs.1, fun f hf hn => hs.2 f (hx.filling_old f hf hn) hn⟩
  have hwaits : s.Waits b → s'.Waits b := fun hs =>
    ⟨hs.1, fun e he hn => hs.2 e (hx.emptying_old e he hn) hn⟩
  have htail : ∀ pos, b.SawTail s.positions pos → b.SawTail s'.positions pos := fun pos hs =>
    ⟨hs.1, hs.2.1, hs.2.2.trans hu.tails_le⟩
  have hhead : ∀ pos, b.SawHead s.positions pos → b.SawHead s'.positions pos := fun pos hs =>
    ⟨hs.1, hs.2.1, hs.2.2.trans hu.heads_le⟩
  have hfills : ∀ pos v, s.Fills b pos v → s'.Fills b pos v ∧
      s'.ring.valueAt pos = s.ring.valueAt pos := by
    rintro pos v ⟨hr, rfl, hf, hc⟩
    obtain ⟨hc', hv⟩ := hu.claimed _ v hf hc
    exact ⟨⟨hr, rfl, hx.filling_mem _ hf, hc'⟩, hv⟩
  have hempties : ∀ pos, s.Empties b pos → s'.Empties b pos := by
    rintro pos ⟨hr, hp, he, ht⟩
    exact ⟨hr, hp, hx.emptying_mem _ he, hu.taken _ he ht⟩
  unfold Backs at h ⊢
  split <;> rename_i hc <;> rw [hc] at h <;> simp only at h
  case h_1 v => exact hseeks v h
  case h_2 v pos => exact ⟨hseeks v h.1, htail pos h.2⟩
  case h_3 v pos =>
    obtain ⟨hs, ht, hfree⟩ := h
    refine ⟨hseeks v hs, htail pos ht, ?_⟩
    intro heq
    have hcur : b.seen = s.positions.tails := Nat.le_antisymm ht.2.2 (heq ▸ hu.tails_le)
    rw [hcur]
    exact hu.free (by omega) (hcur ▸ hfree hcur)
  case h_4 v pos => exact (hfills pos v h).1
  case h_5 pos =>
    obtain ⟨v, hf, hv⟩ := h
    exact ⟨v, (hfills pos v hf).1, (hfills pos v hf).2.trans hv⟩
  case h_6 => exact hwaits h
  case h_7 pos => exact ⟨hwaits h.1, hhead pos h.2⟩
  case h_8 pos =>
    obtain ⟨hs, ht, hpub⟩ := h
    refine ⟨hwaits hs, hhead pos ht, ?_⟩
    intro heq
    have hcur : b.seen = s.positions.heads := Nat.le_antisymm ht.2.2 (heq ▸ hu.heads_le)
    rw [hcur]
    exact hu.waiting (by omega) (hcur ▸ hpub hcur)
  case h_9 pos => exact hempties pos h
  case h_10 pos v =>
    obtain ⟨he, f, hf, hp⟩ := h
    exact ⟨hempties pos he, f, hx.filling_mem f hf, hp⟩
  case h_11 => exact h
  case h_12 head => exact ⟨h.1, hhead head h.2⟩
  case h_13 => exact h
  case h_14 tail => exact ⟨h.1, htail tail h.2⟩
  case h_15 => exact h
  case h_16 head => exact ⟨h.1, hhead head h.2⟩

end System

end LockFreeRings.Mpmc
