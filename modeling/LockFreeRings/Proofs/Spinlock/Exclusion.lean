import LockFreeRings.Proofs.Spinlock.Threads
import Mathlib.Algebra.BigOperators.Group.Finset.Piecewise
set_option autoImplicit false

/-!
# Critical sections exclude each other

What threads that share a lock may rely on after any run (`System.run_excludes`):
one of them at most is in its section, the flag is set exactly while one is, and
the number is what it was at the start and what the sections have added, as if they
had come one by one.

Which sections these are is read off an account (`System.account`): what a thread
has written, and behind it what it has not written yet, is its program, apart from
the sections that it has dropped.
-/

namespace LockFreeRings

/-- The sections of a thread that have not written yet. -/
def SectionThread.remaining (t : SectionThread) : List CriticalSection :=
  match t.phase with
  | .leave => t.sections.tail
  | _ => t.sections

theorem SectionThread.remaining_of_outside {t : SectionThread} (h : t.phase.isInside = false) :
    t.remaining = t.sections := by
  rw [remaining]
  split
  · next hp =>
    rw [hp] at h
    cases h
  · rfl

/-- A section that fails before it has written comes to nothing. -/
theorem SectionThread.remaining_unwind (t : SectionThread) :
    t.unwind.remaining = t.sections.tail := by
  show (t.sections.modifyHead _).tail = t.sections.tail
  cases t.sections <;> rfl

namespace Sections.System

variable {ι : Type} [DecidableEq ι]

/-- The sections of the thread `t` that have written, in order. -/
def writtenBy (s : System ι) (t : ι) : List CriticalSection :=
  (s.written.filter fun w => w.1 = t).map Prod.snd

/-! ## What a thread has written and what it has left -/

/-- The sections of a thread that have written, and then those that have not. -/
def account (s : System ι) (t : ι) : List CriticalSection :=
  s.writtenBy t ++ (s.thread t).remaining

theorem writtenBy_moved (s : System ι) (t : ι) (thread : SectionThread) (shared : Protected)
    (extra : List CriticalSection) (u : ι) :
    (s.moved t thread shared (s.written ++ extra.map (Prod.mk t))).writtenBy u =
      s.writtenBy u ++ if u = t then extra else [] := by
  rw [writtenBy, written_moved, List.filter_append, List.map_append, writtenBy]
  split
  · next hu =>
    subst hu
    simp [List.filter_map, Function.comp_def]
  · next hu =>
    simp [List.filter_map, Function.comp_def, Ne.symm hu]

/-- The account of the thread that has moved. -/
theorem account_moved_self (s : System ι) (t : ι) (thread : SectionThread) (shared : Protected)
    (extra : List CriticalSection) :
    (s.moved t thread shared (s.written ++ extra.map (Prod.mk t))).account t =
      s.writtenBy t ++ (extra ++ thread.remaining) := by
  rw [account, writtenBy_moved, if_pos rfl, thread_moved_self, List.append_assoc]

/-- The accounts of the others. -/
theorem account_moved_of_ne (s : System ι) {t u : ι} (h : u ≠ t) (thread : SectionThread)
    (shared : Protected) (extra : List CriticalSection) :
    (s.moved t thread shared (s.written ++ extra.map (Prod.mk t))).account u = s.account u := by
  rw [account, writtenBy_moved, if_neg h, thread_moved_of_ne s t _ _ _ h, List.append_nil, account]

/-- What the thread writes in a step, it has left before. -/
theorem account_advance (s : System ι) (t : ι) (spurious : Bool) (u : ι) :
    (s.advance t spurious).account u = s.account u := by
  obtain ⟨extra, hextra, hsplit⟩ : ∃ extra : List CriticalSection,
      s.writtenAfter t = s.written ++ extra.map (Prod.mk t) ∧
        extra ++ ((s.thread t).step spurious s.shared).2.remaining = (s.thread t).remaining := by
    have hstep := (s.thread t).stepped spurious s.shared
    generalize ((s.thread t).step spurious s.shared).2 = thread at hstep ⊢
    generalize ((s.thread t).step spurious s.shared).1 = shared at hstep
    cases hstep with
    | seek phase hout hphase =>
        refine ⟨[], by simp [writtenAfter_of_outside hout], ?_⟩
        rw [SectionThread.remaining_of_outside hout, SectionThread.remaining_of_outside hphase]
        rfl
    | enter hout hfree =>
        refine ⟨[], by simp [writtenAfter_of_outside hout], ?_⟩
        rw [SectionThread.remaining_of_outside hout]
        rfl
    | read hphase =>
        refine ⟨[], by simp [writtenAfter, hphase], ?_⟩
        simp [SectionThread.remaining, hphase]
    | write v hphase =>
        refine ⟨(s.thread t).sections.head?.toList, by simp [writtenAfter, hphase], ?_⟩
        simp only [SectionThread.remaining, hphase]
        cases (s.thread t).sections <;> rfl
    | leave hphase =>
        refine ⟨[], by simp [writtenAfter, hphase], ?_⟩
        simp [SectionThread.remaining, hphase]
  simp only [advance, hextra]
  by_cases hu : u = t
  · rw [hu, account_moved_self, hsplit, account]
  · exact s.account_moved_of_ne hu _ _ _

/-- A thread that leaves out its section takes it from its account. -/
theorem account_drop (s : System ι) {t : ι} {thread : SectionThread}
    (hbefore : (s.thread t).remaining = (s.thread t).sections)
    (hafter : thread.remaining = (s.thread t).sections.tail) (u : ι) :
    ((s.moved t thread s.shared s.written).account u).Sublist (s.account u) ∧
      (t ≠ u → (s.moved t thread s.shared s.written).account u = s.account u) := by
  have hself := s.account_moved_self t thread s.shared []
  rw [List.map_nil, List.append_nil, List.nil_append, hafter] at hself
  by_cases hu : u = t
  · subst hu
    refine ⟨?_, fun hne => absurd rfl hne⟩
    rw [hself, account, hbefore]
    exact (List.tail_sublist _).append_left _
  · have hother := s.account_moved_of_ne hu thread s.shared []
    rw [List.map_nil, List.append_nil] at hother
    exact ⟨hother ▸ List.Sublist.refl _, fun _ => hother⟩

/-- No action adds to what a thread has written and has left, and only one that
drops a section takes from it. -/
theorem account_act (s : System ι) (action : Action ι) (u : ι) :
    ((s.act action).account u).Sublist (s.account u) ∧
      (¬action.Drops u → (s.act action).account u = s.account u) := by
  have hsame : (s.account u).Sublist (s.account u) ∧
      (¬action.Drops u → s.account u = s.account u) :=
    ⟨List.Sublist.refl _, fun _ => rfl⟩
  cases action with
  | step t spurious =>
      have h := s.account_advance t spurious u
      exact ⟨h ▸ List.Sublist.refl _, fun _ => h⟩
  | skip t =>
      simp only [act]
      split
      · next hp => exact s.account_drop (by rw [SectionThread.remaining, hp]) rfl u
      · exact hsame
  | unwind t =>
      simp only [act]
      split
      · next hp =>
        exact s.account_drop (by rw [SectionThread.remaining, hp])
          (s.thread t).remaining_unwind u
      · next hp =>
        exact s.account_drop (by rw [SectionThread.remaining, hp])
          (s.thread t).remaining_unwind u
      · exact hsame

/-- What a thread has written and has left in the end comes from its program. -/
theorem account_run (number : Int) (program : ι → List CriticalSection)
    (actions : List (Action ι)) (t : ι) :
    ((run number program actions).account t).Sublist (program t) ∧
      ((∀ action ∈ actions, ¬action.Drops t) →
        (run number program actions).account t = program t) := by
  have hfold : ∀ s : System ι, ((actions.foldl act s).account t).Sublist (s.account t) ∧
      ((∀ action ∈ actions, ¬action.Drops t) →
        (actions.foldl act s).account t = s.account t) := by
    induction actions with
    | nil => exact fun s => ⟨List.Sublist.refl _, fun _ => rfl⟩
    | cons action actions ih =>
        intro s
        obtain ⟨hle, heq⟩ := s.account_act action t
        obtain ⟨hle', heq'⟩ := ih (s.act action)
        refine ⟨hle'.trans hle, fun hdrop => ?_⟩
        rw [List.foldl_cons, heq' fun b hb => hdrop b (List.mem_cons_of_mem _ hb),
          heq (hdrop action List.mem_cons_self)]
  exact hfold (start number program)

/-! ## No update is lost -/

/-- What all sections have added is what those of each thread have added. -/
theorem sum_written [Fintype ι] (s : System ι) :
    (s.written.map fun w => w.2.amount).sum =
      ∑ t, ((s.writtenBy t).map CriticalSection.amount).sum := by
  simp only [writtenBy]
  induction s.written with
  | nil => simp
  | cons w written ih =>
      have hcons : ∀ t, ((((w :: written).filter fun w => w.1 = t).map Prod.snd).map
          CriticalSection.amount).sum = (if w.1 = t then w.2.amount else 0) +
            (((written.filter fun w => w.1 = t).map Prod.snd).map
              CriticalSection.amount).sum := by
        intro t
        by_cases hw : w.1 = t <;> simp [hw]
      simp only [hcons]
      rw [List.map_cons, List.sum_cons, ih, Finset.sum_add_distrib, Finset.sum_ite_eq,
        if_pos (Finset.mem_univ _)]

/-- Sections that add one each add their number. -/
theorem sum_amount_eq_length {cs : List CriticalSection} (h : ∀ c ∈ cs, c.amount = 1) :
    (cs.map CriticalSection.amount).sum = cs.length := by
  induction cs with
  | nil => rfl
  | cons c cs ih =>
      rw [List.map_cons, List.sum_cons, h c List.mem_cons_self,
        ih fun d hd => h d (List.mem_cons_of_mem _ hd), List.length_cons, Int.natCast_succ,
        Int.add_comm]

/-- A thread that has finished has written all that it has not dropped. -/
theorem account_of_isFinished {s : System ι} {t : ι} (h : (s.thread t).isFinished = true) :
    s.account t = s.writtenBy t := by
  obtain ⟨hphase, hsections⟩ : (s.thread t).phase = .outside ∧ (s.thread t).sections = [] := by
    simpa [SectionThread.isFinished] using h
  rw [account, SectionThread.remaining_of_outside (by rw [hphase]; rfl), hsections,
    List.append_nil]

/-- A thread runs sections of its program, each once and in order. -/
theorem writtenBy_run_sublist (number : Int) (program : ι → List CriticalSection)
    (actions : List (Action ι)) (t : ι) :
    ((run number program actions).writtenBy t).Sublist (program t) :=
  (List.sublist_append_left _ _).trans (account_run number program actions t).1

/-- A thread that has finished and has dropped no section has run its program. -/
theorem writtenBy_run_of_isFinished (number : Int) (program : ι → List CriticalSection)
    (actions : List (Action ι)) {t : ι}
    (hfinished : ((run number program actions).thread t).isFinished = true)
    (hdrop : ∀ action ∈ actions, ¬action.Drops t) :
    (run number program actions).writtenBy t = program t := by
  rw [← account_of_isFinished hfinished]
  exact (account_run number program actions t).2 hdrop

/-- The number is what it was at the start and what the sections have added. -/
theorem number_run [Fintype ι] (number : Int) (program : ι → List CriticalSection)
    (actions : List (Action ι)) : (run number program actions).shared.number =
      number + ∑ t, (((run number program actions).writtenBy t).map CriticalSection.amount).sum := by
  rw [(run_sound number program actions).total, sum_written]

/-- What threads that share a lock may rely on after a run. -/
structure Excludes [Fintype ι] (s : System ι) (number : Int)
    (program : ι → List CriticalSection) (actions : List (Action ι)) : Prop where
  /-- one thread at most is between its successful compare-and-swap and its release -/
  alone : ∀ t u, s.Inside t → s.Inside u → t = u
  /-- the flag is set exactly while one is -/
  held : s.shared.flag.held = true ↔ ∃ t, s.Inside t
  /-- no update of a section is lost -/
  conserved : s.shared.number =
    number + ∑ t, ((s.writtenBy t).map CriticalSection.amount).sum
  /-- where every section adds one, the number counts the sections that were run -/
  counted : (∀ t, ∀ c ∈ program t, c.amount = 1) →
    s.shared.number = number + ∑ t, ((s.writtenBy t).length : Int)
  /-- a thread runs the sections of its program, each once and in order -/
  ran : ∀ t, (s.writtenBy t).Sublist (program t)
  /-- a thread that has finished and has dropped none has run them all -/
  ran_all : ∀ t, (s.thread t).isFinished = true → (∀ action ∈ actions, ¬action.Drops t) →
    s.writtenBy t = program t
  /-- when all have finished and dropped none, the number counts the sections of all -/
  finished : (∀ t, (s.thread t).isFinished = true) →
    (∀ t, ∀ action ∈ actions, ¬action.Drops t) → (∀ t, ∀ c ∈ program t, c.amount = 1) →
      s.shared.number = number + ∑ t, ((program t).length : Int)

/-- Whatever the threads run and in whatever order their steps come, one at most is
in its section, and the sections add to the number as if they came one by one. -/
theorem run_excludes [Fintype ι] (number : Int) (program : ι → List CriticalSection)
    (actions : List (Action ι)) :
    (run number program actions).Excludes number program actions := by
  have hsound := run_sound number program actions
  have hcounted : (∀ t, ∀ c ∈ program t, c.amount = 1) →
      (run number program actions).shared.number =
        number + ∑ t, (((run number program actions).writtenBy t).length : Int) := by
    intro hone
    rw [number_run]
    congr 1
    refine Finset.sum_congr rfl fun t _ => sum_amount_eq_length fun c hc => hone t c ?_
    exact (writtenBy_run_sublist number program actions t).subset hc
  constructor
  case alone => exact hsound.alone
  case held => exact hsound.held
  case conserved => exact number_run number program actions
  case counted => exact hcounted
  case ran => exact writtenBy_run_sublist number program actions
  case ran_all => exact fun t => writtenBy_run_of_isFinished number program actions
  case finished =>
    intro hfinished hdrop hone
    rw [hcounted hone]
    congr 1
    refine Finset.sum_congr rfl fun t _ => ?_
    rw [writtenBy_run_of_isFinished number program actions (hfinished t) (hdrop t)]

/-- One thread has a section that waits and one that tries, and the other one a section that
waits and is left while a failure unwinds. -/
def meeting : Bool → List CriticalSection
  | true => [⟨.waiting, 1, .dropGuard⟩, ⟨.trying, 1, .unlock⟩]
  | false => [⟨.waiting, 1, .unwind⟩]

/-- Both find the lock free and one takes it; the other fails without reason, waits, takes it in
its turn, and frees it after the first one has tried in vain. -/
def meetingActions : List (Action Bool) :=
  .flatten
    [[.step true false, .step false false, .step true false, .step false false, .step true false,
        .step false false],
      .replicate 3 (.step true false),
      [.step false false, .step false true, .step false false, .step false false,
        .step true false, .step true false],
      .replicate 3 (.step false false), .replicate 5 (.step true false)]

/-- All sections were run, and each has added one. -/
theorem meeting_excludes :
    (∀ t, ((run 4 meeting meetingActions).thread t).isFinished = true) ∧
      (∀ t, ∀ action ∈ meetingActions, ¬action.Drops t) ∧
      (∀ t, ∀ c ∈ meeting t, c.amount = 1) ∧
      (run 4 meeting meetingActions).Excludes 4 meeting meetingActions ∧
      (run 4 meeting meetingActions).shared = ⟨⟨false⟩, 7⟩ := by
  have hfinished : ∀ t, ((run 4 meeting meetingActions).thread t).isFinished = true := by decide
  have hdrop : ∀ t, ∀ action ∈ meetingActions, ¬action.Drops t := by
    simp [meetingActions, Action.Drops]
  have hone : ∀ t, ∀ c ∈ meeting t, c.amount = 1 := by decide
  exact ⟨hfinished, hdrop, hone, run_excludes 4 meeting meetingActions, by decide⟩

end Sections.System

end LockFreeRings
