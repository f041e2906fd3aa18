import LockFreeRings.Proofs.Mpmc.Exchange
import Mathlib.Data.Nat.Order.Lemmas
set_option autoImplicit false

/-!
# The instants of a run

A run is a list of actions, and `System.stateAt` is the state after the first `k` of
them.  What is said of a call "at the instant of its last load" is said of such a state.

The history only grows (`mem_history_stateAt_mono`), so every record in it was added by
one action of the run (`exists_instant`).  The record of a return is added by a step of
the call that returns (`returned_of_act`).

`System.PacedRun` asks that the state be paced at every instant; then every instant's
state is reachable.  Short runs are paced (`pacedRun_of_length_le`).
-/

namespace LockFreeRings.Mpmc.System

variable {n : SlotCount} {α ι : Type} [DecidableEq ι]

/-- The state after the first `k` actions of a run. -/
def stateAt (n : SlotCount) (blank : α) (actions : List (Action ι α)) (k : Nat) : System n α ι :=
  run n blank (actions.take k)

/-- The states at all instants of a run are paced. -/
def PacedRun (n : SlotCount) (blank : α) (actions : List (Action ι α)) : Prop :=
  ∀ k, (stateAt n blank actions k).Paced

variable {blank : α} {actions : List (Action ι α)} {k : Nat}

theorem stateAt_zero : stateAt n blank actions 0 = start n ι blank := by
  rw [stateAt, List.take_zero]
  rfl

theorem stateAt_of_length_le (h : actions.length ≤ k) :
    stateAt n blank actions k = run n blank actions := by
  rw [stateAt, List.take_of_length_le h]

/-- The next instant is one action later. -/
theorem stateAt_succ {action : Action ι α} (h : actions[k]? = some action) :
    stateAt n blank actions (k + 1) = (stateAt n blank actions k).act action := by
  rw [stateAt, List.take_add_one, h, Option.toList_some, run_append_singleton]
  rfl

/-- Between two instants there is an action, or the run is over. -/
theorem stateAt_succ_cases (n : SlotCount) (blank : α) (actions : List (Action ι α)) (k : Nat) :
    (∃ action, actions[k]? = some action ∧
      stateAt n blank actions (k + 1) = (stateAt n blank actions k).act action) ∨
    stateAt n blank actions (k + 1) = stateAt n blank actions k := by
  cases h : actions[k]? with
  | some action => exact .inl ⟨action, rfl, stateAt_succ h⟩
  | none =>
      have hle : actions.length ≤ k := List.getElem?_eq_none_iff.mp h
      right
      rw [stateAt_of_length_le hle, stateAt_of_length_le (Nat.le_succ_of_le hle)]

/-! ## Paced runs -/

theorem PacedRun.reachable (h : PacedRun n blank actions) (k : Nat) :
    (stateAt n blank actions k).Reachable := by
  induction k with
  | zero =>
      rw [stateAt_zero]
      exact .start blank
  | succ k ih =>
      rcases stateAt_succ_cases n blank actions k with ⟨action, -, hstep⟩ | hstep
      · have hpaced := h (k + 1)
        rw [hstep] at hpaced ⊢
        exact .act action ih hpaced
      · rw [hstep]
        exact ih

theorem PacedRun.sound (h : PacedRun n blank actions) (k : Nat) :
    (stateAt n blank actions k).Sound :=
  (h.reachable k).sound

/-- No run of up to `2 ^ 62` actions can overtake a call by more positions than that. -/
theorem pacedRun_of_length_le (n : SlotCount) (blank : α) (actions : List (Action ι α))
    (hlen : actions.length ≤ 2 ^ 62) : PacedRun n blank actions := by
  intro k
  refine (reachable_run n blank _ ?_).paced
  rw [List.length_take]
  exact (Nat.min_le_right _ _).trans hlen

/-! ## The history grows -/

/-- What a call in progress takes and returns is added at the end. -/
theorem history_prefix_advance (s : System n α ι) (t : ι) (a : Activity α) (spurious : Bool) :
    s.history <+: (s.advance t a spurious).history := by
  have hnote : ∀ turn, s.history <+: (s.note a turn).history := by
    intro turn
    unfold note
    split <;> simp
  have hresume : ∀ (s' : System n α ι) seen turn,
      s'.history <+: (s'.resume t a seen turn).history := by
    intro s' seen turn
    cases turn <;> simp [resume]
  simp only [advance]
  exact (hnote _).trans (hresume _ _ _)

theorem history_prefix_act (s : System n α ι) (action : Action ι α) :
    s.history <+: (s.act action).history := by
  cases action with
  | begin t request => cases h : s.active t <;> simp [act, h, begin]
  | step t spurious =>
      cases h : s.active t with
      | none => simp [act, h]
      | some a =>
          simp only [act, h]
          exact s.history_prefix_advance t a spurious
  | fail t =>
      cases h : s.active t with
      | none => simp [act, h]
      | some a =>
          simp only [act, h]
          split <;> simp [giveUp]

/-- What is in the history at one instant is so at all later ones. -/
theorem mem_history_stateAt_mono {record : Record ι α} {j k : Nat} (hle : j ≤ k)
    (h : record ∈ (stateAt n blank actions j).history) :
    record ∈ (stateAt n blank actions k).history := by
  induction k, hle using Nat.le_induction with
  | base => exact h
  | succ k _ ih =>
      rcases stateAt_succ_cases n blank actions k with ⟨action, -, hstep⟩ | hstep
      · rw [hstep]
        exact (history_prefix_act _ action).subset ih
      · rw [hstep]
        exact ih

theorem mem_history_run {record : Record ι α}
    (h : record ∈ (stateAt n blank actions k).history) :
    record ∈ (run n blank actions).history := by
  rw [← stateAt_of_length_le (Nat.le_max_right k actions.length)]
  exact mem_history_stateAt_mono (Nat.le_max_left k actions.length) h

/-- Every record was added by one action of the run. -/
theorem exists_instant {record : Record ι α} (h : record ∈ (run n blank actions).history) :
    ∃ k action, actions[k]? = some action ∧ record ∉ (stateAt n blank actions k).history ∧
      record ∈ ((stateAt n blank actions k).act action).history := by
  have hzero : record ∉ (stateAt n blank actions 0).history := by
    rw [stateAt_zero]
    exact List.not_mem_nil
  have hlast : record ∈ (stateAt n blank actions actions.length).history := by
    rwa [stateAt_of_length_le (Nat.le_refl _)]
  obtain ⟨k, hk, hsucc⟩ := Nat.exists_not_and_succ_of_not_zero_of_exists
    (p := fun k => record ∈ (stateAt n blank actions k).history) hzero ⟨_, hlast⟩
  rcases stateAt_succ_cases n blank actions k with ⟨action, haction, hstep⟩ | hstep
  · exact ⟨k, action, haction, hk, hstep ▸ hsucc⟩
  · exact absurd (hstep ▸ hsucc) hk

/-! ## Where returns come from -/

variable {s : System n α ι} {number : Nat} {t : ι} {request : Request α} {result : Return α}

omit [DecidableEq ι] in
/-- What a step takes is no return. -/
theorem returned_of_note {a : Activity α} {turn : Turn α}
    (h : .returned number t request result ∈ (s.note a turn).history) :
    .returned number t request result ∈ s.history := by
  unfold note at h
  split at h <;> simpa using h

/-- The record of a return was added by a step of the call that returned. -/
theorem returned_of_act {action : Action ι α}
    (hold : .returned number t request result ∉ s.history)
    (hnew : .returned number t request result ∈ (s.act action).history) :
    ∃ spurious a, action = .step t spurious ∧ s.active t = some a ∧ a.number = number ∧
      a.request = request ∧ (a.call.step spurious s.ring).2 = .returned result := by
  cases action with
  | begin u request' =>
      exfalso
      cases hu : s.active u <;> simp [act, hu, System.begin, hold] at hnew
  | fail u =>
      exfalso
      cases hu : s.active u with
      | none => simp [act, hu, hold] at hnew
      | some a =>
          simp only [act, hu] at hnew
          split at hnew
          · simp [giveUp, hold] at hnew
          · exact hold hnew
  | step u spurious =>
      cases hu : s.active u with
      | none => simp [act, hu, hold] at hnew
      | some a =>
          simp only [act, hu, advance] at hnew
          cases hturn : (a.call.step spurious s.ring).2 with
          | running call =>
              rw [hturn] at hnew
              exact absurd (returned_of_note hnew) hold
          | returned result' =>
              rw [hturn] at hnew
              rcases List.mem_append.mp hnew with hnew | hnew
              · exact absurd (returned_of_note hnew) hold
              · cases List.mem_singleton.mp hnew
                exact ⟨spurious, a, rfl, hu, rfl, rfl, hturn⟩

end LockFreeRings.Mpmc.System
