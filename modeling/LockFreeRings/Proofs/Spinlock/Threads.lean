import LockFreeRings.Spinlock.Sections
import Mathlib.Algebra.Ring.Int.Defs
import Mathlib.Logic.Function.Basic
set_option autoImplicit false

/-!
# Threads on one lock

Any number of threads share a lock and a number, each with sections to run.  At
every moment any thread may take its next step, a weak compare-and-swap may fail
without reason, a thread between sections may leave out the next one, as one does
that tried once and gave up, and a section may fail before it has written, which
ends its guard.  So a run is any list of `Action`s; `System.run` is the state after
it.

A thread is inside (`SectionPhase.isInside`) from its successful compare-and-swap
until it frees the lock.  `SectionThread.stepped` says what a step of a thread can
do.  `System.Sound` is the invariant: one thread at most is inside, the flag is set
exactly then, what this thread has read is still the number, and the number is what
the sections that have written add up to.
-/

namespace LockFreeRings

/-- Whether a thread is between its successful compare-and-swap and the store that
frees the lock. -/
def SectionPhase.isInside : SectionPhase → Bool
  | .read | .write _ | .leave => true
  | .outside | .look _ | .grab _ | .attempt => false

/-- What a step of a thread can do to the thread and to what it shares. -/
inductive SectionThread.Stepped (s : Protected) (t : SectionThread) :
    Protected → SectionThread → Prop where
  /-- it goes on to look for the lock, or has nothing to do -/
  | seek (phase : SectionPhase) (hout : t.phase.isInside = false)
      (hphase : phase.isInside = false) : Stepped s t s ⟨phase, t.sections⟩
  /-- it has found the flag free and set it -/
  | enter (hout : t.phase.isInside = false) (hfree : s.flag.held = false) :
      Stepped s t { s with flag := ⟨true⟩ } ⟨.read, t.sections⟩
  | read (hphase : t.phase = .read) : Stepped s t s ⟨.write s.number, t.sections⟩
  | write (v : Int) (hphase : t.phase = .write v) :
      Stepped s t { s with number := v + t.amount } ⟨.leave, t.sections⟩
  | leave (hphase : t.phase = .leave) :
      Stepped s t { s with flag := t.exit.release s.flag } ⟨.outside, t.sections.tail⟩

/-- A weak or strong compare-and-swap that succeeds has found the flag free. -/
theorem SectionThread.stepped (spurious : Bool) (s : Protected) (t : SectionThread) :
    t.Stepped s (t.step spurious s).1 (t.step spurious s).2 := by
  obtain ⟨phase, sections⟩ := t
  obtain ⟨⟨held⟩, number⟩ := s
  cases phase with
  | outside =>
      cases sections with
      | nil => exact .seek .outside rfl rfl
      | cons first rest =>
          simp only [step]
          cases first.entry with
          | waiting => exact .seek (.look {}) rfl rfl
          | trying => exact .seek .attempt rfl rfl
  | look backoff =>
      cases held with
      | true => exact .seek (.look backoff.snooze) rfl rfl
      | false => exact .seek (.grab backoff) rfl rfl
  | grab backoff =>
      cases spurious <;> cases held
      case false.false => exact .enter rfl rfl
      all_goals exact .seek (.look backoff.snooze) rfl rfl
  | attempt =>
      cases held with
      | true => exact .seek .outside rfl rfl
      | false => exact .enter rfl rfl
  | read => exact .read rfl
  | write v => exact .write v rfl
  | leave => exact .leave rfl

namespace Sections

variable {ι : Type}

/-- What threads share, where each of them is, and the sections that have written,
in that order, with their threads. -/
structure System (ι : Type) where
  shared : Protected
  thread : ι → SectionThread
  written : List (ι × CriticalSection) := []

/-- What happens next. -/
inductive Action (ι : Type) where
  | step (t : ι) (spurious : Bool)
  /-- a thread between sections leaves out the next one -/
  | skip (t : ι)
  /-- the section of a thread fails before it has written, and its guard ends -/
  | unwind (t : ι)
  deriving DecidableEq

/-- Whether with an action a section of the thread `t` comes to nothing. -/
def Action.Drops (t : ι) : Action ι → Prop
  | .step _ _ => False
  | .skip u | .unwind u => u = t

namespace System

/-- A free lock, and all threads before their first section. -/
def start (number : Int) (program : ι → List CriticalSection) : System ι where
  shared := ⟨{}, number⟩
  thread t := ⟨.outside, program t⟩

/-- The thread `t` is in its section. -/
def Inside (s : System ι) (t : ι) : Prop := (s.thread t).phase.isInside = true

/-- The sections that have written after a step of the thread `t`. -/
def writtenAfter (s : System ι) (t : ι) : List (ι × CriticalSection) :=
  match (s.thread t).phase with
  | .write _ => s.written ++ (s.thread t).sections.head?.toList.map (Prod.mk t)
  | _ => s.written

variable [DecidableEq ι]

/-- What the thread `t` leaves behind when it comes to be at `thread`. -/
def moved (s : System ι) (t : ι) (thread : SectionThread) (shared : Protected)
    (written : List (ι × CriticalSection)) : System ι where
  shared := shared
  thread := Function.update s.thread t thread
  written := written

/-- The thread `t` takes its next step. -/
def advance (s : System ι) (t : ι) (spurious : Bool) : System ι :=
  let step := (s.thread t).step spurious s.shared
  s.moved t step.2 step.1 (s.writtenAfter t)

/-- What an action does; where it does not fit, nothing happens. -/
def act (s : System ι) : Action ι → System ι
  | .step t spurious => s.advance t spurious
  | .skip t =>
    match (s.thread t).phase with
    | .outside => s.moved t ⟨.outside, (s.thread t).sections.tail⟩ s.shared s.written
    | _ => s
  | .unwind t =>
    match (s.thread t).phase with
    | .read | .write _ => s.moved t (s.thread t).unwind s.shared s.written
    | _ => s

/-- The state after a run. -/
def run (number : Int) (program : ι → List CriticalSection) (actions : List (Action ι)) :
    System ι :=
  actions.foldl act (start number program)

/-! ## Where a thread is after a step -/

section moved

variable (s : System ι) (t : ι) (thread : SectionThread) (shared : Protected)
  (written : List (ι × CriticalSection))

@[simp] theorem shared_moved : (s.moved t thread shared written).shared = shared := rfl

@[simp] theorem written_moved : (s.moved t thread shared written).written = written := rfl

@[simp] theorem thread_moved_self : (s.moved t thread shared written).thread t = thread := by
  simp [moved]

theorem thread_moved_of_ne {u : ι} (h : u ≠ t) :
    (s.moved t thread shared written).thread u = s.thread u := by
  simp [moved, h]

theorem inside_moved_self :
    (s.moved t thread shared written).Inside t ↔ thread.phase.isInside = true := by
  simp [Inside]

theorem inside_moved_of_ne {u : ι} (h : u ≠ t) :
    (s.moved t thread shared written).Inside u ↔ s.Inside u := by
  rw [Inside, thread_moved_of_ne s t thread shared written h, Inside]

/-- Nobody goes in or out when the thread that moves does not. -/
theorem inside_moved (h : thread.phase.isInside = true ↔ s.Inside t) (u : ι) :
    (s.moved t thread shared written).Inside u ↔ s.Inside u := by
  by_cases hu : u = t
  · rw [hu, inside_moved_self, h]
  · exact inside_moved_of_ne s t thread shared written hu

end moved

/-! ## One thread at most is inside -/

omit [DecidableEq ι] in
/-- One thread at most is inside, exactly when the flag is set; what it has read is
the number, which is what the sections that have written add up to. -/
structure Sound (s : System ι) (number : Int) : Prop where
  alone : ∀ t u, s.Inside t → s.Inside u → t = u
  held : s.shared.flag.held = true ↔ ∃ t, s.Inside t
  seen : ∀ t v, (s.thread t).phase = .write v → v = s.shared.number
  total : s.shared.number = number + (s.written.map fun w => w.2.amount).sum

omit [DecidableEq ι] in
theorem Sound.start (number : Int) (program : ι → List CriticalSection) :
    (System.start number program).Sound number := by
  constructor <;> simp [System.start, Inside, SectionPhase.isInside]

omit [DecidableEq ι] in
theorem inside_of_write {s : System ι} {t : ι} {v : Int} (h : (s.thread t).phase = .write v) :
    s.Inside t := by
  rw [Inside, h]
  rfl

omit [DecidableEq ι] in
theorem writtenAfter_of_outside {s : System ι} {t : ι}
    (h : (s.thread t).phase.isInside = false) : s.writtenAfter t = s.written := by
  rw [writtenAfter]
  split
  · next hp =>
    rw [hp] at h
    cases h
  · rfl

namespace Sound

variable {s : System ι} {number : Int} {t : ι} {thread : SectionThread}

/-- A thread goes on and stays inside, or stays outside. -/
theorem goOn (h : s.Sound number)
    (hin : thread.phase.isInside = true ↔ s.Inside t)
    (hseen : ∀ v, thread.phase = .write v → v = s.shared.number) :
    (s.moved t thread s.shared s.written).Sound number := by
  have hinside := inside_moved s t thread s.shared s.written hin
  constructor
  case alone =>
    intro u w hu hw
    exact h.alone u w ((hinside u).mp hu) ((hinside w).mp hw)
  case held => simpa only [hinside, shared_moved] using h.held
  case seen =>
    intro u v hv
    by_cases hu : u = t
    · rw [hu, thread_moved_self] at hv
      exact hseen v hv
    · rw [thread_moved_of_ne s t thread s.shared s.written hu] at hv
      exact h.seen u v hv
  case total => exact h.total

/-- A thread that finds the flag free sets it, and is the only one inside. -/
theorem enter (h : s.Sound number) (hfree : s.shared.flag.held = false)
    (hphase : thread.phase = .read) :
    (s.moved t thread { s.shared with flag := ⟨true⟩ } s.written).Sound number := by
  have hnone : ∀ u, ¬s.Inside u := by
    intro u hu
    rw [h.held.mpr ⟨u, hu⟩] at hfree
    cases hfree
  have honly : ∀ u, (s.moved t thread { s.shared with flag := ⟨true⟩ } s.written).Inside u →
      u = t := by
    intro u hu
    by_contra hne
    exact hnone u ((inside_moved_of_ne s t thread _ _ hne).mp hu)
  constructor
  case alone => exact fun u w hu hw => (honly u hu).trans (honly w hw).symm
  case held =>
    refine ⟨fun _ => ⟨t, ?_⟩, fun _ => rfl⟩
    rw [inside_moved_self, hphase]
    rfl
  case seen =>
    intro u v hv
    obtain rfl := honly u (inside_of_write hv)
    rw [thread_moved_self, hphase] at hv
    cases hv
  case total => exact h.total

/-- The thread inside writes what it has read plus its amount. -/
theorem write (h : s.Sound number) {v : Int} (hphase : (s.thread t).phase = .write v)
    {sections : List CriticalSection} :
    (s.moved t ⟨.leave, sections⟩ { s.shared with number := v + (s.thread t).amount }
      (s.writtenAfter t)).Sound number := by
  have hin := inside_of_write hphase
  have hinside := inside_moved s t ⟨.leave, sections⟩
    { s.shared with number := v + (s.thread t).amount } (s.writtenAfter t)
    (iff_of_true rfl hin)
  constructor
  case alone =>
    intro u w hu hw
    exact h.alone u w ((hinside u).mp hu) ((hinside w).mp hw)
  case held => simpa only [hinside, shared_moved] using h.held
  case seen =>
    intro u w hw
    obtain rfl := h.alone u t ((hinside u).mp (inside_of_write hw)) hin
    rw [thread_moved_self] at hw
    cases hw
  case total =>
    have hamount : (((s.thread t).sections.head?.toList.map (Prod.mk t)).map
        fun w => w.2.amount).sum = (s.thread t).amount := by
      rw [SectionThread.amount]
      cases (s.thread t).sections.head? <;> simp
    simp only [shared_moved, written_moved, writtenAfter, hphase]
    rw [List.map_append, List.sum_append, hamount, h.seen t v hphase, h.total, Int.add_assoc]

/-- The thread inside frees the lock, in whichever way it leaves. -/
theorem leave (h : s.Sound number) (hin : s.Inside t) (hout : thread.phase.isInside = false)
    (exit : SectionExit) : (s.moved t thread
      { s.shared with flag := exit.release s.shared.flag } s.written).Sound number := by
  have hnone : ∀ u, ¬(s.moved t thread
      { s.shared with flag := exit.release s.shared.flag } s.written).Inside u := by
    intro u hu
    by_cases hne : u = t
    · rw [hne, inside_moved_self, hout] at hu
      cases hu
    · exact hne (h.alone u t ((inside_moved_of_ne s t _ _ _ hne).mp hu) hin)
  constructor
  case alone => exact fun u _ hu => absurd hu (hnone u)
  case held => simp [hnone]
  case seen => exact fun u v hv => absurd (inside_of_write hv) (hnone u)
  case total => exact h.total

/-- A thread that is not inside goes on to look for the lock. -/
theorem seek (h : s.Sound number) {phase : SectionPhase}
    (hout : (s.thread t).phase.isInside = false)
    (hphase : phase.isInside = false) (sections : List CriticalSection) :
    (s.moved t ⟨phase, sections⟩ s.shared s.written).Sound number := by
  refine h.goOn ?_ fun v hv => ?_
  · rw [Inside, hout, hphase]
  · rw [show phase = .write v from hv] at hphase
    cases hphase

/-- Every step of a thread keeps the invariant. -/
theorem advance (h : s.Sound number) (t : ι) (spurious : Bool) :
    (s.advance t spurious).Sound number := by
  have hstep := (s.thread t).stepped spurious s.shared
  rw [System.advance]
  revert hstep
  generalize (s.thread t).step spurious s.shared = step
  obtain ⟨shared, thread⟩ := step
  rintro (⟨phase, hout, hphase⟩ | ⟨hout, hfree⟩ | hphase | ⟨v, hphase⟩ | hphase)
  case seek =>
    rw [writtenAfter_of_outside hout]
    exact h.seek hout hphase _
  case enter =>
    rw [writtenAfter_of_outside hout]
    exact h.enter hfree rfl
  case read =>
    rw [writtenAfter, hphase]
    refine h.goOn (iff_of_true rfl ?_) fun v hv => ?_
    · rw [Inside, hphase]
      rfl
    · cases hv
      rfl
  case write => exact h.write hphase
  case leave =>
    rw [writtenAfter, hphase]
    refine h.leave ?_ rfl _
    rw [Inside, hphase]
    rfl

/-- Every action keeps the invariant. -/
theorem act (h : s.Sound number) (action : Action ι) : (s.act action).Sound number := by
  cases action with
  | step t spurious => exact h.advance t spurious
  | skip t =>
      simp only [System.act]
      split
      · next hp => exact h.seek (by rw [hp]; rfl) rfl _
      · exact h
  | unwind t =>
      simp only [System.act]
      split
      · next hp =>
        exact h.goOn (iff_of_true rfl (by simp [Inside, hp, SectionPhase.isInside])) nofun
      · next hp => exact h.goOn (iff_of_true rfl (inside_of_write hp)) nofun
      · exact h

end Sound

/-- The invariant holds after every run. -/
theorem run_sound (number : Int) (program : ι → List CriticalSection)
    (actions : List (Action ι)) : (run number program actions).Sound number := by
  have hfold : ∀ s : System ι, s.Sound number → (actions.foldl System.act s).Sound number := by
    induction actions with
    | nil => exact fun s hs => hs
    | cons action actions ih => exact fun s hs => ih (s.act action) (hs.act action)
  exact hfold _ (.start number program)

end System

end Sections

end LockFreeRings
