import LockFreeRings.Proofs.Mpmc.Steps
set_option autoImplicit false

/-!
# How calls have ended

The history tells of every call how it has ended, and what that means for the
position that it took (`System.Endings`).  A position comes to be filled only by the
push that took it, which has then returned.  A call whose element could not be built
has left its position claimed, and nobody fills it later.  A call that has begun and is
not in progress has ended.
-/

namespace LockFreeRings.Mpmc

variable {n : SlotCount} {α ι : Type}

/-- The record says that the call with number `number` of the thread `t` has ended. -/
def Record.Ends (number : Nat) (t : ι) : Record ι α → Prop
  | .returned m u _ _ => m = number ∧ u = t
  | .failed m u _ => m = number ∧ u = t
  | .began _ _ _ | .filling _ | .emptying _ => False

theorem Record.ends_returned (number : Nat) (t : ι) (request : Request α) (result : Return α) :
    (Record.returned number t request result).Ends number t := ⟨rfl, rfl⟩

namespace System

/-- What the history tells of calls that have ended. -/
structure Endings (s : System n α ι) : Prop where
  /-- a position that has been filled was so by its push, which has returned -/
  filled : ∀ f ∈ s.fillings, (s.positions.stage f.pos).isFilled = true →
    ∃ t, .returned f.number t (.push f.value) .pushed ∈ s.history
  /-- a position that was given up stays as it is -/
  failed : ∀ number t q, .failed number t q ∈ s.history →
    (∃ v, ⟨number, q, v⟩ ∈ s.fillings) ∧ s.positions.stage q = .claimed
  failed_inactive : ∀ number t q, .failed number t q ∈ s.history →
    ∀ u b, s.active u = some b → b.number ≠ number
  /-- a call that has begun is in progress, or has ended -/
  ended : ∀ number t request, .began number t request ∈ s.history →
    (∃ a, s.active t = some a ∧ a.number = number) ∨ ∃ record ∈ s.history, record.Ends number t

theorem Endings.start (n : SlotCount) (ι : Type) (blank : α) :
    (System.start n ι blank).Endings := by
  constructor <;> simp [System.start, fillings]

variable [DecidableEq ι] {s s' : System n α ι} {t : ι} {a : Activity α}

omit [DecidableEq ι] in
/-- A call in progress has not ended. -/
theorem Sound.not_ends (h : s.Sound) (e : s.Endings) (ha : s.active t = some a)
    {record : Record ι α} (hrecord : record ∈ s.history) (u : ι) : ¬record.Ends a.number u := by
  intro hends
  cases record with
  | returned number w request result =>
      exact h.roster.returned_inactive number w request result hrecord t a ha hends.1.symm
  | failed number w q => exact e.failed_inactive number w q hrecord t a ha hends.1.symm
  | _ => exact hends

namespace Endings

/-- A call that begins ends nothing. -/
theorem begin (e : s.Endings) (h : s.Sound) (hidle : s.active t = none) (request : Request α) :
    (s.begin t request).Endings := by
  constructor
  case filled =>
    intro f hf hs
    rw [fillings_begin] at hf
    obtain ⟨u, hu⟩ := e.filled f hf hs
    exact ⟨u, (mem_history_begin s t request _).mpr (.inl hu)⟩
  case failed =>
    intro number u q hr
    rcases (mem_history_begin s t request _).mp hr with hr | hr
    · rw [fillings_begin]
      exact e.failed number u q hr
    · cases hr
  case failed_inactive =>
    intro number u q hr w b hb
    rcases (mem_history_begin s t request _).mp hr with hr | hr
    · rcases h.roster.active_begin hb with ⟨-, rfl⟩ | ⟨hw, -⟩
      · obtain ⟨⟨v, hv⟩, -⟩ := e.failed number u q hr
        obtain ⟨u', hu'⟩ := h.roster.filling_began _ hv
        exact (h.roster.began_lt _ _ _ hu').ne'
      · exact e.failed_inactive number u q hr w b hw
    · cases hr
  case ended =>
    intro number u request' hr
    rcases (mem_history_begin s t request _).mp hr with hr | hr
    · rcases e.ended number u request' hr with ⟨b, hb, hn⟩ | ⟨record, hrec, hends⟩
      · have hne : u ≠ t := by
          rintro rfl
          cases hidle.symm.trans hb
        exact .inl ⟨b, by simpa [System.begin, Function.update_of_ne hne] using hb, hn⟩
      · exact .inr ⟨record, (mem_history_begin s t request _).mpr (.inl hrec), hends⟩
    · cases hr
      exact .inl ⟨_, Function.update_self .., rfl⟩

/-- What a call that moves may add to the history, and what becomes of its position. -/
theorem moved (e : s.Endings) (h : s.Sound) (ha : s.active t = some a)
    {next : Option (Activity α)} {ring : Ring n α} {positions : Positions}
    {extra : List (Record ι α)} (hsame : ∀ b, next = some b → b.number = a.number)
    (hfilled : ∀ f ∈ (s.moved t next ring positions extra).fillings,
      (positions.stage f.pos).isFilled = true →
        (f ∈ s.fillings ∧ (s.positions.stage f.pos).isFilled = true) ∨
          .returned f.number t (.push f.value) .pushed ∈ extra)
    (hothers : ∀ b, b.number ≠ a.number →
      Undisturbed s (s.moved t next ring positions extra) b)
    (hfailed : ∀ number u q, .failed number u q ∈ extra → next = none ∧ number = a.number ∧
      (∃ v, ⟨a.number, q, v⟩ ∈ s.fillings) ∧ positions.stage q = .claimed)
    (hbegan : ∀ number u request, .began number u request ∉ extra)
    (hended : next = none → ∃ record ∈ extra, record.Ends a.number t) :
    (s.moved t next ring positions extra).Endings := by
  have hmem := s.mem_history_moved t next ring positions extra
  constructor
  case filled =>
    intro f hf hs
    rcases hfilled f hf hs with ⟨hold, hs⟩ | hr
    · obtain ⟨u, hu⟩ := e.filled f hold hs
      exact ⟨u, (hmem _).mpr (.inl hu)⟩
    · exact ⟨t, (hmem _).mpr (.inr hr)⟩
  case failed =>
    intro number u q hr
    rw [fillings_moved, positions_moved]
    rcases (hmem _).mp hr with hr | hr
    · obtain ⟨⟨v, hv⟩, hc⟩ := e.failed number u q hr
      have hne : number ≠ a.number := (e.failed_inactive number u q hr t a ha).symm
      obtain ⟨hc', -⟩ := (hothers { a with number := number } hne).claimed q v hv hc
      exact ⟨⟨v, List.mem_append_left _ hv⟩, hc'⟩
    · obtain ⟨-, rfl, ⟨v, hv⟩, hc⟩ := hfailed number u q hr
      exact ⟨⟨v, List.mem_append_left _ hv⟩, hc⟩
  case failed_inactive =>
    intro number u q hr w b hb
    rcases active_of_moved hb with ⟨rfl, hnext⟩ | ⟨hne, hw⟩ <;>
      rcases (hmem _).mp hr with hr | hr
    · rw [hsame b hnext]
      exact e.failed_inactive number u q hr w a ha
    · obtain ⟨hnone, -⟩ := hfailed number u q hr
      cases hnone.symm.trans hnext
    · exact e.failed_inactive number u q hr w b hw
    · obtain ⟨-, rfl, -⟩ := hfailed number u q hr
      exact fun hn => hne (h.roster.active_inj w t b a hw ha hn)
  case ended =>
    intro number u request hr
    have hr := ((hmem _).mp hr).resolve_right (hbegan number u request)
    rcases e.ended number u request hr with ⟨b, hb, hn⟩ | ⟨record, hrec, hends⟩
    · by_cases hu : u = t
      · subst hu
        cases ha.symm.trans hb
        cases hnext : next with
        | none =>
            obtain ⟨record, hrec, hends⟩ := hended hnext
            exact .inr ⟨record, List.mem_append_right _ hrec, hn ▸ hends⟩
        | some c => exact .inl ⟨c, active_moved_self .., (hsame c hnext).trans hn⟩
      · exact .inl ⟨b, (active_moved_of_ne _ _ _ _ _ _ hu).trans hb, hn⟩
    · exact .inr ⟨record, (hmem _).mpr (.inl hrec), hends⟩

/-- Where no position comes to be filled, none has to be accounted for. -/
theorem filled_of_agree {next : Option (Activity α)} {ring : Ring n α} {positions : Positions}
    {extra : List (Record ι α)} (hextra : extra.filterMap Record.filling? = [])
    (hagree : ∀ f ∈ s.fillings,
      (positions.stage f.pos).isFilled = (s.positions.stage f.pos).isFilled) :
    ∀ f ∈ (s.moved t next ring positions extra).fillings,
      (positions.stage f.pos).isFilled = true →
        (f ∈ s.fillings ∧ (s.positions.stage f.pos).isFilled = true) ∨
          .returned f.number t (.push f.value) .pushed ∈ extra := by
  intro f hf hs
  rw [fillings_moved, hextra, List.append_nil] at hf
  exact .inl ⟨hf, hagree f hf ▸ hs⟩

/-- Whatever an action comes to, the history still tells how calls have ended. -/
theorem comes (e : s.Endings) (h : s.Sound) (hcomes : s.Comes s') : s'.Endings := by
  cases hcomes with
  | still => exact e
  | begin request idle => exact e.begin h idle request
  | giveUp active calls fills =>
      obtain ⟨-, -, hf, hc⟩ := fills
      rw [giveUp_eq_moved]
      refine e.moved h active (by simp) (filled_of_agree rfl fun _ _ => rfl)
        (fun b _ => .of_eq b rfl rfl) ?_ (by simp) (by simp [Record.Ends])
      rintro number u q hr
      cases List.mem_singleton.mp hr
      exact ⟨rfl, rfl, ⟨_, hf⟩, hc⟩
  | goOn active call seen backs holds =>
      exact e.moved h active (by rintro b ⟨⟩; rfl) (filled_of_agree rfl fun _ _ => rfl)
        (fun b _ => .of_eq b rfl rfl) (by simp) (by simp) (by simp)
  | leave active holds kept notPushed notPopped =>
      exact e.moved h active (by simp) (filled_of_agree rfl fun _ _ => rfl)
        (fun b _ => .of_eq b rfl rfl) (by simp) (by simp) (by simp [Record.Ends])
  | claim active calls seeks word current free =>
      rw [current]
      refine e.moved h active (by rintro b ⟨⟩; rfl) ?_ (fun b _ => .claim h.ledger rfl rfl)
        (by simp) (by simp) (by simp)
      intro f hf hs
      rw [fillings_moved, List.mem_append] at hf
      rw [Positions.stage_claim] at hs
      rcases hf with hf | hf
      · rw [if_neg (h.ledger.pos_lt hf).ne] at hs
        exact .inl ⟨hf, hs⟩
      · cases List.mem_singleton.mp hf
        rw [if_pos rfl] at hs
        cases hs
  | store active calls fills =>
      obtain ⟨-, rfl, hf, hc⟩ := fills
      exact e.moved h active (by rintro b ⟨⟩; rfl) (filled_of_agree rfl fun _ _ => rfl)
        (fun b hne => .store h.ledger hf hne hc _ rfl rfl) (by simp) (by simp) (by simp)
  | publish active calls fills stored =>
      obtain ⟨hr, rfl, hf, hc⟩ := fills
      refine e.moved h active (by simp) ?_ (fun b hne => .publish h.ledger hf hne hc rfl rfl)
        (by simp) (by simp) (by simp [Record.Ends])
      intro g hg hs
      have hg : g ∈ s.fillings := by simpa [Record.filling?] using hg
      rw [Positions.stage_settle] at hs
      split at hs
      · next heq =>
        obtain rfl := h.ledger.filling_inj hg hf heq
        exact .inr (by simp [hr])
      · exact .inl ⟨hg, hs⟩
  | take active calls waits word current ready =>
      rw [current]
      refine e.moved h active (by rintro b ⟨⟩; rfl) (filled_of_agree rfl fun f hf => ?_)
        (fun b _ => .take ready rfl rfl) (by simp) (by simp) (by simp)
      rw [Positions.stage_take]
      split
      · next heq => rw [heq, ready]; rfl
      · rfl
  | release active calls empties filling same =>
      obtain ⟨hr, rfl, he, hc⟩ := empties
      refine e.moved h active (by simp) (filled_of_agree rfl fun f hf => ?_)
        (fun b hne => .release h.ledger he hne hc rfl rfl) (by simp) (by simp)
        (by simp [Record.Ends])
      rw [Positions.stage_settle]
      split
      · next heq => rw [heq, hc]; rfl
      · rfl

end Endings

/-- In every reachable state the history tells how calls have ended. -/
theorem Reachable.endings (h : s.Reachable) : s.Endings := by
  induction h with
  | start blank => exact .start n ι blank
  | act action hreach hpaced ih =>
      exact ih.comes hreach.sound (hreach.sound.comes hreach.paced action)

end System

end LockFreeRings.Mpmc
