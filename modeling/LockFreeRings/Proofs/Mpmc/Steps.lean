import LockFreeRings.Proofs.Mpmc.Moves
set_option autoImplicit false

/-!
# Every step keeps the books right

An action that changes neither the ring nor the positions is covered by `Sound.goOn`,
`Sound.leave` and `Sound.giveUp`; the five changes have a lemma each, and
`Sound.begin` is about calls that begin.  `Sound.act` goes through what an action may
come to, and `Reachable.sound` is the induction over runs.
-/

namespace LockFreeRings.Mpmc.System

variable {n : SlotCount} {α ι : Type} [DecidableEq ι] {s : System n α ι} {t : ι}
  {a : Activity α}

/-- Most of `Turned` holds by the shape of what a step leaves behind. -/
theorem Turned.moved {next : Option (Activity α)} {ring : Ring n α} {positions : Positions}
    {extra : List (Record ι α)} (ha : s.active t = some a)
    (hsame : ∀ b, next = some b → b.number = a.number ∧ b.request = a.request ∧
      b.tailsBefore = a.tailsBefore ∧ b.headsBefore = a.headsBefore)
    (hown : ∀ record ∈ extra, Owned (s.moved t next ring positions extra) t a next record)
    (hfill : ((s.moved t next ring positions extra).fillings.map Filling.number).Nodup)
    (hempt : ((s.moved t next ring positions extra).emptyings.map Emptying.number).Nodup)
    (htails : s.positions.tails ≤ positions.tails) (hheads : s.positions.heads ≤ positions.heads)
    (hothers : ∀ b, b.number ≠ a.number →
      Undisturbed s (s.moved t next ring positions extra) b)
    (hbacks : ∀ b, next = some b → (s.moved t next ring positions extra).Backs b)
    (htaken : ∀ q, positions.stage q = .taken →
      (∃ b, next = some b ∧ Holds b ∧ b.seen = q) ∨
        (s.positions.stage q = .taken ∧ ¬(Holds a ∧ a.seen = q))) :
    Turned s (s.moved t next ring positions extra) t a next where
  was := ha
  now := by simp [System.moved]
  others u hu := by simp [System.moved, hu]
  calls := rfl
  same := hsame
  kept record hr := List.mem_append_left _ hr
  added record hr := (List.mem_append.mp hr).imp_right (hown record)
  fillings_number := hfill
  emptyings_number := hempt
  tails_le := htails
  heads_le := hheads
  undisturbed := hothers
  backs := hbacks
  taken := htaken

omit [DecidableEq ι] in
/-- What a call knows is about the ring, the positions, and what was taken. -/
theorem Backs.congr {s' : System n α ι} {b : Activity α} (h : s.Backs b)
    (hring : s'.ring = s.ring) (hpos : s'.positions = s.positions)
    (hfill : s'.fillings = s.fillings) (hempt : s'.emptyings = s.emptyings) : s'.Backs b := by
  refine h.mono ⟨?_, ?_, ?_, ?_⟩ (.of_eq b hpos hring)
  · intro f hf
    rwa [hfill]
  · intro e he
    rwa [hempt]
  · intro f hf _
    rwa [← hfill]
  · intro e he _
    rwa [← hempt]

namespace Sound

/-! ## Steps that change neither the ring nor the positions -/

theorem quiet (h : s.Sound) (ha : s.active t = some a) {next : Option (Activity α)}
    {extra : List (Record ι α)}
    (hsame : ∀ b, next = some b → b.number = a.number ∧ b.request = a.request ∧
      b.tailsBefore = a.tailsBefore ∧ b.headsBefore = a.headsBefore)
    (hown : ∀ record ∈ extra, Owned (s.moved t next s.ring s.positions extra) t a next record)
    (hfill : extra.filterMap Record.filling? = [])
    (hempt : extra.filterMap Record.emptying? = [])
    (hpush : extra.filterMap Record.pushed? = [])
    (hpop : extra.filterMap Record.popped? = [])
    (hbacks : ∀ b, next = some b → s.Backs b)
    (hholds : Holds a → ∃ b, next = some b ∧ Holds b ∧ b.seen = a.seen) :
    (s.moved t next s.ring s.positions extra).Sound := by
  have hf : (s.moved t next s.ring s.positions extra).fillings = s.fillings := by simp [hfill]
  have he : (s.moved t next s.ring s.positions extra).emptyings = s.emptyings := by simp [hempt]
  constructor
  · exact h.ledger.congr rfl rfl hf he (by simp [hpush]) (by simp [hpop])
  · refine h.roster.turn (.moved ha hsame hown ?_ ?_ (Nat.le_refl _) (Nat.le_refl _)
      (fun b _ => .of_eq b rfl rfl) (fun b hb => (hbacks b hb).congr rfl rfl hf he) ?_)
    · rw [hf]
      exact h.roster.fillings_number
    · rw [he]
      exact h.roster.emptyings_number
    · intro q hq
      by_cases hheld : Holds a ∧ a.seen = q
      · obtain ⟨b, hb, hold, hseen⟩ := hholds hheld.1
        exact .inl ⟨b, hb, hold, hseen.trans hheld.2⟩
      · exact .inr ⟨hq, hheld⟩

/-- A call that has looked at something and goes on. -/
theorem goOn (h : s.Sound) (ha : s.active t = some a) (call : Call α) (seen : Nat)
    (hb : s.Backs { a with call := call, seen := seen })
    (hh : Holds a → Holds { a with call := call, seen := seen } ∧ seen = a.seen) :
    (s.moved t (some { a with call := call, seen := seen }) s.ring s.positions []).Sound := by
  refine h.quiet ha ?_ (by simp) rfl rfl rfl rfl ?_ fun hold => ⟨_, rfl, hh hold⟩
  · rintro b hb
    cases hb
    exact ⟨rfl, rfl, rfl, rfl⟩
  · rintro b hb'
    cases hb'
    exact hb

/-- A call that returns without having taken a position. -/
theorem leave (h : s.Sound) (ha : s.active t = some a) (hh : ¬Holds a) {result : Return α}
    (hk : s.Kept a.number a.request result) (hpush : result ≠ .pushed)
    (hpop : ∀ v, result ≠ .popped v) :
    (s.moved t none s.ring s.positions [.returned a.number t a.request result]).Sound := by
  have hk' : (s.moved t none s.ring s.positions
      [.returned a.number t a.request result]).Kept a.number a.request result := by
    cases result with
    | pushed => exact absurd rfl hpush
    | popped v => exact absurd rfl (hpop v)
    | full v => simpa [Kept, Record.filling?] using hk
    | empty => simpa [Kept, Record.emptying?] using hk
    | truth b => exact hk
    | size count => exact hk
  refine h.quiet ha (by simp) ?_ rfl rfl ?_ ?_ (by simp) fun hold => absurd hold hh
  · intro record hr
    rw [List.mem_singleton] at hr
    subst hr
    exact ⟨rfl, rfl, rfl, rfl, hk'⟩
  · cases hr : a.request <;> cases result <;> simp_all [Record.pushed?]
  · cases result <;> simp_all [Record.popped?]

/-- A push whose element could not be built leaves its position as it is. -/
theorem giveUp (h : s.Sound) (ha : s.active t = some a) (hh : ¬Holds a) :
    (s.giveUp t a).Sound := by
  rw [giveUp_eq_moved]
  refine h.quiet ha (by simp) ?_ rfl rfl rfl rfl (by simp) fun hold => absurd hold hh
  intro record hr
  rw [List.mem_singleton] at hr
  subst hr
  trivial

/-! ## The five changes -/

/-- A push takes the next position. -/
theorem claim (h : s.Sound) (ha : s.active t = some a) {v : α} {pos : UInt64}
    (hh : ¬Holds a) (hseeks : s.Seeks a v) (hpos : pos = UInt64.ofNat a.seen)
    (hseen : a.seen = s.positions.tails)
    (hfree : s.positions.lastLap n.size s.positions.tails = .released) :
    (s.moved t (some { a with call := .pushStore v pos }) s.ring.advanceTail
      (s.positions.claim a.seen) [.filling ⟨a.number, a.seen, v⟩]).Sound := by
  have hclaim : s.positions.claim a.seen = s.positions.claim s.positions.tails := by rw [hseen]
  constructor
  · exact h.ledger.claim (f := ⟨a.number, a.seen, v⟩) hseen hfree rfl hclaim
      (by simp [Record.filling?]) (by simp [List.filterMap_cons, Record.emptying?])
      (by simp [List.filterMap_cons, Record.pushed?])
      (by simp [List.filterMap_cons, Record.popped?])
  · refine h.roster.turn (.moved ha ?_ ?_ ?_ ?_ (Nat.le_succ _) (Nat.le_refl _)
      (fun b _ => .claim h.ledger rfl hclaim) ?_ ?_)
    · rintro b hb
      cases hb
      exact ⟨rfl, rfl, rfl, rfl⟩
    · intro record hr
      rw [List.mem_singleton] at hr
      subst hr
      exact ⟨rfl, hseeks.1⟩
    · have := h.roster.fillings_number
      simpa [List.filterMap_cons, Record.filling?, List.nodup_append, this] using hseeks.2
    · simpa [List.filterMap_cons, Record.emptying?] using h.roster.emptyings_number
    · rintro b hb
      cases hb
      refine ⟨hseeks.1, hpos, ?_, ?_⟩
      · simp [Record.filling?]
      · rw [positions_moved, Positions.stage_claim, if_pos rfl]
    · intro q hq
      rw [Positions.stage_claim] at hq
      split at hq
      · cases hq
      · exact .inr ⟨hq, fun hold => hh hold.1⟩

/-- A push stores its element. -/
theorem store (h : s.Sound) (ha : s.active t = some a) {v : α} {pos : UInt64}
    (hh : ¬Holds a) (hfills : s.Fills a pos v) :
    (s.moved t (some { a with call := .pushPublish pos }) (s.ring.store pos v) s.positions
      []).Sound := by
  obtain ⟨hr, rfl, hf, hc⟩ := hfills
  constructor
  · exact h.ledger.store hc v rfl rfl (by simp) (by simp) (by simp) (by simp)
  · refine h.roster.turn (.moved ha ?_ (by simp) ?_ ?_ (Nat.le_refl _) (Nat.le_refl _)
      (fun b hne => .store h.ledger hf hne hc v rfl rfl) ?_ ?_)
    · rintro b hb
      cases hb
      exact ⟨rfl, rfl, rfl, rfl⟩
    · simpa using h.roster.fillings_number
    · simpa using h.roster.emptyings_number
    · rintro b hb
      cases hb
      refine ⟨v, ⟨hr, rfl, by simpa using hf, hc⟩, ?_⟩
      rw [ring_moved, Ring.valueAt_store, if_pos rfl]
    · exact fun q hq => .inr ⟨hq, fun hold => hh hold.1⟩

/-- A push publishes its element, and returns. -/
theorem publish (h : s.Sound) (ha : s.active t = some a) {v : α} {pos : UInt64}
    (hh : ¬Holds a) (hfills : s.Fills a pos v) (hv : s.ring.valueAt pos = v) :
    (s.moved t none (s.ring.publish pos) (s.positions.settle a.seen .published)
      [.returned a.number t a.request .pushed]).Sound := by
  obtain ⟨hr, rfl, hf, hc⟩ := hfills
  constructor
  · exact h.ledger.publish hf hc hv rfl rfl (by simp [List.filterMap_cons, Record.filling?])
      (by simp [List.filterMap_cons, Record.emptying?]) (by simp [Record.pushed?, hr])
      (by simp [List.filterMap_cons, Record.popped?])
  · refine h.roster.turn (.moved ha (by simp) ?_ ?_ ?_ (Nat.le_refl _) (Nat.le_refl _)
      (fun b hne => .publish h.ledger hf hne hc rfl rfl) (by simp) ?_)
    · intro record hrec
      rw [List.mem_singleton] at hrec
      subst hrec
      refine ⟨rfl, rfl, rfl, rfl, ⟨a.number, a.seen, v⟩, ?_, rfl, hr⟩
      simpa [List.filterMap_cons, Record.filling?] using hf
    · simpa [List.filterMap_cons, Record.filling?] using h.roster.fillings_number
    · simpa [List.filterMap_cons, Record.emptying?] using h.roster.emptyings_number
    · intro q hq
      rw [Positions.stage_settle] at hq
      split at hq
      · cases hq
      · exact .inr ⟨hq, fun hold => hh hold.1⟩

/-- A pop takes the oldest position. -/
theorem take (h : s.Sound) (ha : s.active t = some a) {pos : UInt64}
    (hh : ¬Holds a) (hwaits : s.Waits a) (hpos : pos = UInt64.ofNat a.seen)
    (hseen : a.seen = s.positions.heads)
    (hp : s.positions.stage s.positions.heads = .published) :
    (s.moved t (some { a with call := .popTake pos }) s.ring.advanceHead
      (s.positions.take a.seen) [.emptying ⟨a.number, a.seen⟩]).Sound := by
  have htake : s.positions.take a.seen = s.positions.take s.positions.heads := by rw [hseen]
  constructor
  · exact h.ledger.take (e := ⟨a.number, a.seen⟩) hseen hp rfl htake
      (by simp [List.filterMap_cons, Record.filling?]) (by simp [Record.emptying?])
      (by simp [List.filterMap_cons, Record.pushed?])
      (by simp [List.filterMap_cons, Record.popped?])
  · refine h.roster.turn (.moved ha ?_ ?_ ?_ ?_ (Nat.le_refl _) (Nat.le_succ _)
      (fun b _ => .take hp rfl htake) ?_ ?_)
    · rintro b hb
      cases hb
      exact ⟨rfl, rfl, rfl, rfl⟩
    · intro record hr
      rw [List.mem_singleton] at hr
      subst hr
      exact ⟨rfl, hwaits.1⟩
    · simpa [List.filterMap_cons, Record.filling?] using h.roster.fillings_number
    · have := h.roster.emptyings_number
      simpa [List.filterMap_cons, Record.emptying?, List.nodup_append, this] using hwaits.2
    · rintro b hb
      cases hb
      refine ⟨hwaits.1, hpos, ?_, ?_⟩
      · simp [Record.emptying?]
      · rw [positions_moved, Positions.stage_take, if_pos rfl]
    · intro q hq
      rw [Positions.stage_take] at hq
      split at hq
      · next heq => exact .inl ⟨_, rfl, trivial, heq.symm⟩
      · exact .inr ⟨hq, fun hold => hh hold.1⟩

/-- A pop frees the slot of its position, and returns the element. -/
theorem release (h : s.Sound) (ha : s.active t = some a) {v : α} {pos : UInt64}
    (hempties : s.Empties a pos) (hv : ∃ f ∈ s.fillings, f.pos = a.seen ∧ f.value = v) :
    (s.moved t none (s.ring.release pos) (s.positions.settle a.seen .released)
      [.returned a.number t a.request (.popped v)]).Sound := by
  obtain ⟨hr, rfl, he, hc⟩ := hempties
  obtain ⟨f, hf, hfp, rfl⟩ := hv
  constructor
  · refine h.ledger.release hf (hfp ▸ hc) (by rw [hfp]; rfl) (by rw [hfp]; rfl) ?_ ?_ ?_ ?_
    · simp [List.filterMap_cons, Record.filling?]
    · simp [List.filterMap_cons, Record.emptying?]
    · simp [List.filterMap_cons, Record.pushed?, hr]
    · simp [Record.popped?]
  · refine h.roster.turn (.moved ha (by simp) ?_ ?_ ?_ (Nat.le_refl _) (Nat.le_refl _)
      (fun b hne => .release h.ledger he hne hc rfl rfl) (by simp) ?_)
    · intro record hrec
      rw [List.mem_singleton] at hrec
      subst hrec
      refine ⟨rfl, rfl, rfl, rfl, hr, ⟨a.number, a.seen⟩, ?_, rfl, f, ?_, hfp, rfl⟩
      · simpa [List.filterMap_cons, Record.emptying?] using he
      · simpa [List.filterMap_cons, Record.filling?] using hf
    · simpa [List.filterMap_cons, Record.filling?] using h.roster.fillings_number
    · simpa [List.filterMap_cons, Record.emptying?] using h.roster.emptyings_number
    · intro q hq
      rw [Positions.stage_settle] at hq
      split at hq
      · cases hq
      · next hne => exact .inr ⟨hq, fun hold => hne hold.2.symm⟩

end Sound

/-! ## Runs -/

section begin

variable (s) (t) (request : Request α)

@[simp] theorem fillings_begin : (s.begin t request).fillings = s.fillings := by
  simp [System.begin, fillings, List.filterMap_cons, Record.filling?]

@[simp] theorem emptyings_begin : (s.begin t request).emptyings = s.emptyings := by
  simp [System.begin, emptyings, List.filterMap_cons, Record.emptying?]

@[simp] theorem pushed_begin : (s.begin t request).pushed = s.pushed := by
  simp [System.begin, pushed, List.filterMap_cons, Record.pushed?]

@[simp] theorem popped_begin : (s.begin t request).popped = s.popped := by
  simp [System.begin, popped, List.filterMap_cons, Record.popped?]

/-- The history grows by the record of the beginning. -/
theorem mem_history_begin (record : Record ι α) :
    record ∈ (s.begin t request).history ↔
      record ∈ s.history ∨ record = .began s.calls t request := by
  simp [System.begin]

/-- Nothing that anyone knows is disturbed. -/
theorem extends_begin (number : Nat) : Extends s (s.begin t request) number := by
  constructor <;> simp <;> exact fun _ hx _ => hx

end begin

/-- The calls in progress afterwards: the new one and those before. -/
theorem Roster.active_begin (h : s.Roster) {request : Request α} {u : ι} {b : Activity α}
    (hb : (s.begin t request).active u = some b) :
    (u = t ∧ b = ⟨s.calls, request, request.call, 0, s.positions.tails, s.positions.heads⟩) ∨
      (s.active u = some b ∧ b.number < s.calls) := by
  by_cases hu : u = t
  · subst hu
    simp only [System.begin, Function.update_self, Option.some.injEq] at hb
    exact .inl ⟨rfl, hb.symm⟩
  · simp only [System.begin, Function.update_of_ne hu] at hb
    exact .inr ⟨hb, h.began_lt _ _ _ (h.active_began u b hb)⟩

/-- A call that begins has taken no position: its number is new. -/
theorem Roster.backs_begin (h : s.Roster) (t : ι) (request : Request α) :
    (s.begin t request).Backs
      ⟨s.calls, request, request.call, 0, s.positions.tails, s.positions.heads⟩ := by
  cases request with
  | push v =>
      refine ⟨rfl, ?_⟩
      intro f hf
      rw [fillings_begin] at hf
      obtain ⟨u, hu⟩ := h.filling_began f hf
      exact (h.began_lt _ _ _ hu).ne
  | pop =>
      refine ⟨rfl, ?_⟩
      intro e he
      rw [emptyings_begin] at he
      obtain ⟨u, hu⟩ := h.emptying_began e he
      exact (h.began_lt _ _ _ hu).ne
  | isEmpty => exact rfl
  | isFull => exact rfl
  | size => exact rfl

/-- A thread that begins a call changes nothing but that. -/
theorem Roster.begin (h : s.Roster) (hidle : s.active t = none) (request : Request α) :
    (s.begin t request).Roster := by
  have hkept : ∀ record ∈ s.history, record ∈ (s.begin t request).history := by
    intro record hr
    exact (mem_history_begin s t request record).mpr (.inl hr)
  constructor
  case fillings_number =>
    rw [fillings_begin]
    exact h.fillings_number
  case emptyings_number =>
    rw [emptyings_begin]
    exact h.emptyings_number
  case filling_began =>
    intro f hf
    rw [fillings_begin] at hf
    obtain ⟨u, hu⟩ := h.filling_began f hf
    exact ⟨u, hkept _ hu⟩
  case emptying_began =>
    intro e he
    rw [emptyings_begin] at he
    obtain ⟨u, hu⟩ := h.emptying_began e he
    exact ⟨u, hkept _ hu⟩
  case began_lt =>
    intro number u request' hb
    rcases (mem_history_begin s t request _).mp hb with hb | hb
    · exact (h.began_lt _ _ _ hb).trans (Nat.lt_succ_self _)
    · cases hb
      exact Nat.lt_succ_self _
  case began_inj =>
    intro number u u' request₁ request₂ hb hb'
    rcases (mem_history_begin s t request _).mp hb with hb | hb <;>
      rcases (mem_history_begin s t request _).mp hb' with hb' | hb'
    · exact h.began_inj _ _ _ _ _ hb hb'
    · cases hb'
      exact absurd (h.began_lt _ _ _ hb) (Nat.lt_irrefl _)
    · cases hb
      exact absurd (h.began_lt _ _ _ hb') (Nat.lt_irrefl _)
    · cases hb
      cases hb'
      rfl
  case returned_began =>
    intro number u request' result hr
    rcases (mem_history_begin s t request _).mp hr with hr | hr
    · exact hkept _ (h.returned_began _ _ _ _ hr)
    · cases hr
  case returned_kept =>
    intro number u request' result hr
    rcases (mem_history_begin s t request _).mp hr with hr | hr
    · exact (h.returned_kept _ _ _ _ hr).mono (extends_begin s t request number)
    · cases hr
  case returned_inactive =>
    intro number u request' result hr w b hb
    rcases (mem_history_begin s t request _).mp hr with hr | hr
    · rcases h.active_begin hb with ⟨-, rfl⟩ | ⟨hw, -⟩
      · exact (h.began_lt _ _ _ (h.returned_began _ _ _ _ hr)).ne'
      · exact h.returned_inactive _ _ _ _ hr w b hw
    · cases hr
  case active_began =>
    intro u b hb
    rcases h.active_begin hb with ⟨rfl, rfl⟩ | ⟨hu, -⟩
    · exact (mem_history_begin s u request _).mpr (.inr rfl)
    · exact hkept _ (h.active_began u b hu)
  case active_before =>
    intro u b hb
    rcases h.active_begin hb with ⟨-, rfl⟩ | ⟨hu, -⟩
    · exact ⟨Nat.le_refl _, Nat.le_refl _⟩
    · exact h.active_before u b hu
  case active_backs =>
    intro u b hb
    rcases h.active_begin hb with ⟨-, rfl⟩ | ⟨hu, -⟩
    · exact h.backs_begin t request
    · exact (h.active_backs u b hu).congr rfl rfl (fillings_begin s t request)
        (emptyings_begin s t request)
  case active_inj =>
    intro u w b c hb hc hn
    rcases h.active_begin hb with ⟨rfl, rfl⟩ | ⟨hu, hlt⟩ <;>
      rcases h.active_begin hc with ⟨rfl, rfl⟩ | ⟨hw, hlt'⟩
    · rfl
    · exact absurd hn hlt'.ne'
    · exact absurd hn hlt.ne
    · exact h.active_inj u w b c hu hw hn
  case taken_held =>
    intro q hq
    obtain ⟨u, b, hu, hb⟩ := h.taken_held q hq
    have hne : u ≠ t := by
      rintro rfl
      cases hidle.symm.trans hu
    refine ⟨u, b, ?_, hb⟩
    simpa [System.begin, Function.update_of_ne hne] using hu

/-- A thread that begins a call takes nothing. -/
theorem Sound.begin (h : s.Sound) (hidle : s.active t = none) (request : Request α) :
    (s.begin t request).Sound :=
  ⟨h.ledger.congr rfl rfl (fillings_begin s t request) (emptyings_begin s t request)
    (pushed_begin s t request) (popped_begin s t request), h.roster.begin hidle request⟩

/-- Every action keeps the books right. -/
theorem Sound.act (h : s.Sound) (hpaced : s.Paced) (action : Action ι α) :
    (s.act action).Sound := by
  have hcomes := h.comes hpaced action
  generalize s.act action = s' at hcomes
  cases hcomes with
  | still => exact h
  | begin request idle => exact h.begin idle request
  | giveUp active calls fills => exact h.giveUp active (by simp [Holds, calls])
  | goOn active call seen backs holds => exact h.goOn active call seen backs holds
  | leave active holds kept notPushed notPopped =>
      exact h.leave active holds kept notPushed notPopped
  | claim active calls seeks word current free =>
      exact h.claim active (by simp [Holds, calls]) seeks word current free
  | store active calls fills => exact h.store active (by simp [Holds, calls]) fills
  | publish active calls fills stored =>
      exact h.publish active (by simp [Holds, calls]) fills stored
  | take active calls waits word current ready =>
      exact h.take active (by simp [Holds, calls]) waits word current ready
  | release active calls empties filling same =>
      exact h.release active empties ⟨_, filling, same, rfl⟩

theorem Reachable.paced (h : s.Reachable) : s.Paced := by
  cases h with
  | start blank => exact fun t a ha => by cases ha
  | act action hreach hpaced => exact hpaced

/-- The books are right in every reachable state. -/
theorem Reachable.sound (h : s.Reachable) : s.Sound := by
  induction h with
  | start blank => exact .start n ι blank
  | act action hreach hpaced ih => exact ih.act hreach.paced action

end LockFreeRings.Mpmc.System
