import LockFreeRings.Proofs.Mpmc.Steps
import Mathlib.Data.List.Induction
import Mathlib.Data.List.Perm.Basic
set_option autoImplicit false

/-!
# Every element is handed over once

What threads that share a ring may rely on, in every reachable state
(`Reachable.exchanges`): every position is taken by one push and by at most one
pop, that pop returns the element of that push, and when no thread is in a call
the elements pushed are those popped and those in the ring.  The statement
(`System.Exchanges`) speaks of the ring and the history only; the proof reads it
off the books.

`reachable_run` says that short runs are paced, so that the states of all runs
of up to `2 ^ 62` actions are reachable.
-/

namespace LockFreeRings.Mpmc.System

variable {n : SlotCount} {α ι : Type} {s : System n α ι}

/-- What threads may rely on. -/
structure Exchanges (s : System n α ι) : Prop where
  /-- the tail counts the positions taken by pushes -/
  tail : s.ring.tail = UInt64.ofNat s.fillings.length
  /-- the head counts the positions taken by pops -/
  head : s.ring.head = UInt64.ofNat s.emptyings.length
  /-- every position was taken by one push -/
  one_push : ∀ p < s.fillings.length, ∃! f, f ∈ s.fillings ∧ f.pos = p
  /-- what took a position on the tail is a push, which took no other -/
  push_began : ∀ f ∈ s.fillings, f.pos < s.fillings.length ∧
    ∃ t, .began f.number t (.push f.value) ∈ s.history
  push_once : (s.fillings.map Filling.number).Nodup
  /-- every position was taken by one pop -/
  one_pop : ∀ p < s.emptyings.length, ∃! e, e ∈ s.emptyings ∧ e.pos = p
  /-- what took a position on the head is a pop, which took no other -/
  pop_began : ∀ e ∈ s.emptyings, e.pos < s.emptyings.length ∧
    ∃ t, .began e.number t .pop ∈ s.history
  pop_once : (s.emptyings.map Emptying.number).Nodup
  /-- a pop that has taken a position returns what the push was to store there -/
  pop_returns : ∀ e ∈ s.emptyings, ∀ t request result,
    .returned e.number t request result ∈ s.history →
      ∃ f ∈ s.fillings, f.pos = e.pos ∧ result = .popped f.value
  /-- a pop that returns an element has taken a position -/
  popped_took : ∀ number t request v, .returned number t request (.popped v) ∈ s.history →
    ∃ e ∈ s.emptyings, e.number = number
  /-- no element is returned twice, or out of nothing -/
  popped_subperm : s.popped.Subperm (s.fillings.map Filling.value)
  /-- nothing is lost -/
  conserved : s.Quiescent → s.pushed.Perm (s.popped ++ s.ring.contents)

/-! ## Short runs -/

section Runs

variable [DecidableEq ι]

/-- A step takes at most one position on each cursor. -/
theorem positions_advance_le (s : System n α ι) (t : ι) (a : Activity α) (spurious : Bool) :
    (s.advance t a spurious).positions.tails ≤ s.positions.tails + 1 ∧
      (s.advance t a spurious).positions.heads ≤ s.positions.heads + 1 := by
  have hnote : ∀ turn, (s.note a turn).positions.tails ≤ s.positions.tails + 1 ∧
      (s.note a turn).positions.heads ≤ s.positions.heads + 1 := by
    intro turn
    unfold note
    split <;> simp
  have hresume : ∀ (s' : System n α ι) seen turn,
      (s'.resume t a seen turn).positions = s'.positions := by
    intro s' seen turn
    cases turn <;> rfl
  simp only [advance, hresume]
  exact hnote _

theorem positions_act_le (s : System n α ι) (action : Action ι α) :
    (s.act action).positions.tails ≤ s.positions.tails + 1 ∧
      (s.act action).positions.heads ≤ s.positions.heads + 1 := by
  cases action with
  | begin t request => cases h : s.active t <;> simp [act, h, begin]
  | step t spurious =>
      cases h : s.active t with
      | none => simp [act, h]
      | some a =>
          simp only [act, h]
          exact s.positions_advance_le t a spurious
  | fail t =>
      cases h : s.active t with
      | none => simp [act, h]
      | some a =>
          simp only [act, h]
          split <;> simp [giveUp]

/-- The state after a run from the start. -/
def run (n : SlotCount) (blank : α) (actions : List (Action ι α)) : System n α ι :=
  actions.foldl act (start n ι blank)

theorem run_append_singleton (n : SlotCount) (blank : α) (actions : List (Action ι α))
    (action : Action ι α) :
    run n blank (actions ++ [action]) = (run n blank actions).act action := by
  rw [run, List.foldl_append]
  rfl

theorem positions_run_le (n : SlotCount) (blank : α) (actions : List (Action ι α)) :
    (run n blank actions).positions.tails ≤ actions.length ∧
      (run n blank actions).positions.heads ≤ actions.length := by
  induction actions using List.reverseRecOn with
  | nil => exact ⟨Nat.le_refl _, Nat.le_refl _⟩
  | append_singleton actions action ih =>
      have hstep := (run n blank actions).positions_act_le action
      rw [run_append_singleton, List.length_append, List.length_singleton]
      omega

/-- No run of up to `2 ^ 62` actions can overtake a call by more positions than
that. -/
theorem reachable_run (n : SlotCount) (blank : α) (actions : List (Action ι α))
    (hlen : actions.length ≤ 2 ^ 62) : (run n blank actions).Reachable := by
  induction actions using List.reverseRecOn with
  | nil => exact .start blank
  | append_singleton actions action ih =>
      have hpos := positions_run_le n blank (actions ++ [action])
      rw [List.length_append, List.length_singleton] at hlen hpos
      rw [run_append_singleton] at hpos ⊢
      refine .act action (ih (by omega)) ?_
      intro t a _
      omega

end Runs

/-! ## The elements in a ring -/

theorem Ledger.length_fillings (h : s.Ledger) : s.fillings.length = s.positions.tails := by
  simpa using congrArg List.length h.fillings_pos

theorem Ledger.length_emptyings (h : s.Ledger) : s.emptyings.length = s.positions.heads := by
  simpa using congrArg List.length h.emptyings_pos

/-- What the ring shows at a position. -/
def shown (r : Ring n α) (pos : Nat) : Option α :=
  if r.seqAt (UInt64.ofNat pos) = UInt64.ofNat pos + 1 then some (r.valueAt (UInt64.ofNat pos))
  else none

/-- The contents of a ring, by counted positions. -/
theorem Ledger.contents_eq (h : s.Ledger) : s.ring.contents =
    (List.range' s.positions.heads (s.positions.tails - s.positions.heads)).filterMap
      (shown s.ring) := by
  have hle := h.follows.heads_le
  have hcount : (s.ring.tail - s.ring.head).toNat = s.positions.tails - s.positions.heads := by
    have := h.follows.tails_le
    have := n.size_le
    rw [h.follows.tail, h.follows.head, toNat_ofNat_sub_ofNat hle (by omega)]
  rw [Ring.contents, hcount, List.range'_eq_map_range, List.filterMap_map]
  apply List.filterMap_congr
  intro i _
  rw [h.follows.head, ← UInt64.ofNat_add]
  rfl

/-- The ring shows the elements of the published positions, and no others. -/
theorem Ledger.shown_eq (h : s.Ledger) {f : Filling α} (hf : f ∈ s.fillings)
    (hle : s.positions.heads ≤ f.pos) :
    shown s.ring f.pos =
      if s.positions.stage f.pos = .published then some f.value else none := by
  have hsize := n.size_le
  rcases h.follows.waiting f.pos hle (h.pos_lt hf) with hs | hs
  · have hne : UInt64.ofNat f.pos ≠ UInt64.ofNat (f.pos + 1) := fun heq => by
      have := ofNat_inj_of_lt (Nat.le_succ _) (by omega) heq
      omega
    rw [shown, h.follows.seqAt_of_inUse (.inl hs), hs, Stage.seq, ← ofNat_succ, if_neg hne,
      if_neg (by decide)]
  · rw [shown, h.follows.seqAt_of_inUse (.inr (.inl hs)), hs, Stage.seq, ← ofNat_succ,
      if_pos rfl, if_pos rfl, h.stored f hf (.inl hs)]

/-- The contents of a ring are the elements of the published positions. -/
theorem Ledger.contents_eq_published (h : s.Ledger) : s.ring.contents =
    (s.reached fun stage => stage = .published).map Filling.value := by
  have hle := h.follows.heads_le
  have htake : ∀ f ∈ s.fillings.take s.positions.heads, f.pos < s.positions.heads := by
    intro f hf
    have hmem : f.pos ∈ (s.fillings.take s.positions.heads).map Filling.pos :=
      List.mem_map_of_mem hf
    rw [List.map_take, h.fillings_pos, List.take_range, Nat.min_eq_left hle] at hmem
    exact List.mem_range.mp hmem
  have hdrop : (s.fillings.drop s.positions.heads).map Filling.pos =
      List.range' s.positions.heads (s.positions.tails - s.positions.heads) := by
    rw [List.map_drop, h.fillings_pos, List.range_eq_range', List.drop_range']
    simp
  have hbehind : (s.fillings.take s.positions.heads).filter
      (fun f => s.positions.stage f.pos = .published) = [] := by
    apply List.filter_eq_nil_iff.mpr
    intro f hf
    rcases h.follows.passed f.pos (htake f hf) with hs | hs <;> simp [hs]
  have hahead : ((s.fillings.drop s.positions.heads).map Filling.pos).filterMap (shown s.ring) =
      ((s.fillings.drop s.positions.heads).filter
        fun f => s.positions.stage f.pos = .published).map Filling.value := by
    rw [List.filterMap_map, ← List.filterMap_eq_map, ← List.filterMap_eq_filter,
      List.filterMap_filterMap]
    apply List.filterMap_congr
    intro f hf
    have hmem : f.pos ∈ (s.fillings.drop s.positions.heads).map Filling.pos :=
      List.mem_map_of_mem hf
    rw [hdrop, List.mem_range'_1] at hmem
    rw [Function.comp_apply, h.shown_eq (List.mem_of_mem_drop hf) hmem.1]
    by_cases hs : s.positions.stage f.pos = .published <;> simp [hs, Option.guard]
  rw [h.contents_eq, ← hdrop, hahead, reached, ← List.take_append_drop s.positions.heads s.fillings,
    List.filter_append, hbehind, List.nil_append, List.take_append_drop]

/-- When no thread is in a call, a position whose element has been there has its
element still, or its slot is free. -/
theorem Sound.conserved (h : s.Sound) (hq : s.Quiescent) :
    s.pushed.Perm (s.popped ++ s.ring.contents) := by
  have hnone : ∀ q, s.positions.stage q ≠ .taken := by
    intro q ht
    obtain ⟨t, a, ha, -⟩ := h.roster.taken_held q ht
    rw [hq t] at ha
    cases ha
  have hemptied : (s.reached Stage.isFilled).filter
      (fun f => (s.positions.stage f.pos).isEmptied) = s.reached Stage.isEmptied := by
    rw [reached, List.filter_filter]
    refine List.filter_congr fun f _ => ?_
    cases s.positions.stage f.pos <;> rfl
  have hpublished : (s.reached Stage.isFilled).filter
      (fun f => !(s.positions.stage f.pos).isEmptied) =
        s.reached fun stage => stage = .published := by
    rw [reached, List.filter_filter]
    refine List.filter_congr fun f _ => ?_
    have := hnone f.pos
    cases hs : s.positions.stage f.pos <;> simp_all [Stage.isEmptied, Stage.isFilled]
  have hsplit := List.filter_append_perm (fun f => (s.positions.stage f.pos).isEmptied)
    (s.reached Stage.isFilled)
  rw [hemptied, hpublished] at hsplit
  refine (h.ledger.pushed_perm.trans (hsplit.map Filling.value).symm).trans ?_
  rw [List.map_append, h.ledger.contents_eq_published]
  exact h.ledger.popped_perm.symm.append_right _

/-! ## What pops return -/

/-- A pop that has taken a position returns an element, and nothing else. -/
theorem Roster.popped_of_returned (h : s.Roster) {e : Emptying} (he : e ∈ s.emptyings) {t : ι}
    {request : Request α} {result : Return α}
    (hr : .returned e.number t request result ∈ s.history) : ∃ v, result = .popped v := by
  obtain ⟨u, hu⟩ := h.emptying_began e he
  obtain rfl : request = .pop :=
    h.began_inj e.number t u request .pop (h.returned_began _ _ _ _ hr) hu
  have hk := h.returned_kept e.number t .pop result hr
  cases result with
  | pushed =>
      obtain ⟨f, -, -, hf⟩ := hk
      cases hf
  | full v => cases hk.1
  | popped v => exact ⟨v, rfl⟩
  | empty => exact absurd rfl (hk.2 e he)
  | truth b => rcases hk with hk | hk <;> cases hk
  | size count => cases hk

/-- The element that a pop returns is the one that was to be stored at its
position. -/
theorem Roster.value_of_returned (h : s.Roster) {e : Emptying} (he : e ∈ s.emptyings) {t : ι}
    {request : Request α} {v : α} (hr : .returned e.number t request (.popped v) ∈ s.history) :
    ∃ f ∈ s.fillings, f.pos = e.pos ∧ f.value = v := by
  obtain ⟨-, d, hd, hn, f, hf, hpos, hv⟩ := h.returned_kept e.number t request (.popped v) hr
  obtain rfl : d = e := List.inj_on_of_nodup_map h.emptyings_number hd he hn
  exact ⟨f, hf, hpos, hv⟩

/-- The elements popped are those of different positions. -/
theorem Ledger.popped_subperm (h : s.Ledger) :
    s.popped.Subperm (s.fillings.map Filling.value) := by
  refine h.popped_perm.subperm.trans (List.Sublist.subperm ?_)
  exact (List.filter_sublist).map Filling.value

/-- Whatever the threads do and in whatever order their steps come, every position
is taken by one push and at most one pop, which returns the element of that push,
and nothing is lost. -/
theorem Reachable.exchanges [DecidableEq ι] (h : s.Reachable) : s.Exchanges := by
  obtain ⟨hledger, hroster⟩ := h.sound
  have hfillings := hledger.length_fillings
  have hemptyings := hledger.length_emptyings
  constructor
  case tail => rw [hfillings, hledger.follows.tail]
  case head => rw [hemptyings, hledger.follows.head]
  case one_push =>
    intro p hp
    obtain ⟨f, hf, hpos⟩ := hledger.exists_filling (hfillings ▸ hp)
    exact ⟨f, ⟨hf, hpos⟩, fun g hg => hledger.filling_inj hg.1 hf (hg.2.trans hpos.symm)⟩
  case push_began =>
    intro f hf
    rw [hfillings]
    exact ⟨hledger.pos_lt hf, hroster.filling_began f hf⟩
  case push_once => exact hroster.fillings_number
  case one_pop =>
    intro p hp
    have hmem : p ∈ s.emptyings.map Emptying.pos := by
      rw [hledger.emptyings_pos, ← hemptyings]
      exact List.mem_range.mpr hp
    obtain ⟨e, he, hpos⟩ := List.mem_map.mp hmem
    exact ⟨e, ⟨he, hpos⟩, fun d hd => hledger.emptying_inj hd.1 he (hd.2.trans hpos.symm)⟩
  case pop_began =>
    intro e he
    have hmem : e.pos ∈ s.emptyings.map Emptying.pos := List.mem_map_of_mem he
    rw [hledger.emptyings_pos, ← hemptyings] at hmem
    exact ⟨List.mem_range.mp hmem, hroster.emptying_began e he⟩
  case pop_once => exact hroster.emptyings_number
  case pop_returns =>
    intro e he t request result hr
    obtain ⟨v, rfl⟩ := hroster.popped_of_returned he hr
    obtain ⟨f, hf, hpos, rfl⟩ := hroster.value_of_returned he hr
    exact ⟨f, hf, hpos, rfl⟩
  case popped_took =>
    intro number t request v hr
    obtain ⟨-, e, he, hn, -⟩ := hroster.returned_kept number t request (.popped v) hr
    exact ⟨e, he, hn⟩
  case popped_subperm => exact hledger.popped_subperm
  case conserved => exact h.sound.conserved

/-- Two pushes that race for the first position, and a pop. -/
def race : List (Action Bool Nat) :=
  [.begin true (.push 7), .begin false (.push 9), .step true false, .step false false,
    .step true false, .step false false, .step false false, .step true false,
    .step false false, .step false false, .step true false, .step true false,
    .step true false, .step true false, .begin false .pop, .step false false,
    .step false true, .step false false, .step false true, .step false false,
    .step false false, .step false false, .step false false]

/-- After the race nothing is lost. -/
theorem race_exchanges :
    (run ⟨1, by decide, by decide⟩ 0 race).Reachable ∧
      (run ⟨1, by decide, by decide⟩ 0 race).Exchanges ∧
      (run ⟨1, by decide, by decide⟩ 0 race).popped = [9] :=
  have h : (run ⟨1, by decide, by decide⟩ 0 race).Reachable :=
    reachable_run _ _ _ (by simp [race])
  ⟨h, h.exchanges, by rfl⟩

end LockFreeRings.Mpmc.System
