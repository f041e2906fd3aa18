import LockFreeRings.Spinlock.Guarded
set_option autoImplicit false

/-!
# The life of guards

What is done with one lock is a list of commands, and their answers are all that can be seen
of it.  From these answers alone, without a look at the cell, `Account` counts the guards that
were given out and have ended or were leaked, and keeps the value that was written last.

`LifeCycle` says what the next answer is in terms of this account: at most one guard is alive
and a leaked one is the last there is, the lock is held exactly while a guard is alive or
after one was leaked, whatever ends a guard frees the lock, a section that fails leaves its
write behind, and every read gives the value that was written last.  `history_answers` says so of
every answer in every history.
-/

namespace LockFreeRings.Guarded

variable {α : Type}

/-! ## Histories -/

/-- A command, its reply, and whether the lock is held after it, if there still is one. -/
structure Step (α : Type) where
  command : Command α
  reply : Reply α
  locked : Option Bool

/-- What a command comes to on a cell. -/
def stepOf (cell : Option (Guarded α)) (command : Command α) : Step α :=
  ⟨command, (exec cell command).2, (exec cell command).1.map isLocked⟩

/-- The commands that are carried out on a cell, with what they answer. -/
def steps (cell : Option (Guarded α)) (commands : List (Command α)) : List (Step α) :=
  List.zipWith (fun command answer => ⟨command, answer.1, answer.2⟩) commands (run cell commands)

/-- The commands that are carried out on a new cell, with what they answer. -/
def history (init : α) (commands : List (Command α)) : List (Step α) :=
  steps (some { data := init }) commands

theorem steps_cons (cell : Option (Guarded α)) (command : Command α)
    (commands : List (Command α)) : steps cell (command :: commands) =
      stepOf cell command :: steps (exec cell command).1 commands := rfl

/-! ## Accounts -/

/-- What an answer tells about guards and data. -/
inductive Effect (α : Type) where
  | nothing
  /-- a guard was given out -/
  | opens
  /-- the guard was dropped -/
  | drops
  /-- the guard was leaked -/
  | leaks
  /-- a value was written, through a guard or past the lock -/
  | writes (v : α)
  /-- the cell was taken apart -/
  | ends

/-- What is read off an answer. -/
def Step.effect (step : Step α) : Effect α :=
  match step.reply, step.command with
  | .locked, _ | .tried true, _ => .opens
  | .unlocked, _ => .drops
  | .forgotten, _ => .leaks
  | .stored, .set v | .value _, .getMut (some v) | .failed, .failingSection v => .writes v
  | .value _, .intoInner => .ends
  | _, _ => .nothing

/-- What answers tell, taken together. -/
structure Account (α : Type) where
  /-- the guards that were given out, less those that were dropped or leaked -/
  alive : Int := 0
  leaked : Nat := 0
  /-- the value that was written last -/
  last : α
  /-- the cell was taken apart -/
  ended : Bool := false

namespace Account

/-- What one more answer adds. -/
def add (a : Account α) : Effect α → Account α
  | .nothing => a
  | .opens => { a with alive := a.alive + 1 }
  | .drops => { a with alive := a.alive - 1 }
  | .leaks => { a with alive := a.alive - 1, leaked := a.leaked + 1 }
  | .writes v => { a with last := v }
  | .ends => { a with ended := true }

/-- A guard is alive, or one was leaked. -/
def held (a : Account α) : Bool := 0 < a.alive || 0 < a.leaked

/-- What a list of answers adds. -/
def addAll (a : Account α) (past : List (Step α)) : Account α :=
  past.foldl (fun a step => a.add step.effect) a

theorem addAll_append (a : Account α) (past future : List (Step α)) :
    a.addAll (past ++ future) = (a.addAll past).addAll future :=
  List.foldl_append

theorem held_of_leaked {a : Account α} (h : 0 < a.leaked) : a.held = true := by
  rw [held, decide_eq_true h, Bool.or_true]

theorem leaked_le_add (a : Account α) (effect : Effect α) : a.leaked ≤ (a.add effect).leaked := by
  cases effect with
  | leaks => exact Nat.le_succ _
  | nothing | opens | drops | writes v | ends => exact Nat.le_refl _

/-- A leaked guard stays leaked. -/
theorem leaked_le_addAll (a : Account α) (past : List (Step α)) :
    a.leaked ≤ (a.addAll past).leaked := by
  induction past generalizing a with
  | nil => exact Nat.le_refl _
  | cons step past ih => exact Nat.le_trans (a.leaked_le_add step.effect) (ih _)

end Account

/-- What a history tells that began with a value. -/
def account (init : α) (past : List (Step α)) : Account α := Account.addAll { last := init } past

/-! ## What cells owe to accounts -/

/-- The cell is as the account says. -/
structure Agrees (a : Account α) (g : Guarded α) : Prop where
  ended : a.ended = false
  data : g.data = a.last
  guarded : g.guarded = true ↔ a.alive = 1
  isLocked : g.isLocked = a.held
  alive : 0 ≤ a.alive
  one : a.alive + a.leaked ≤ 1

namespace Agrees

variable {a : Account α} {g : Guarded α}

theorem new (init : α) : Agrees { last := init } ({ data := init } : Guarded α) := by
  constructor <;> simp [Guarded.isLocked, Account.held]

theorem not_guarded (h : Agrees a g) (hzero : a.alive = 0) : ¬ g.guarded = true := by
  rw [h.guarded, hzero]
  decide

/-- A free lock has no guard, and none was leaked. -/
theorem of_free (h : Agrees a g) (hfree : g.isLocked = false) :
    a.alive = 0 ∧ a.leaked = 0 ∧ g.guarded = false := by
  have hheld := h.isLocked
  rw [hfree, Account.held, eq_comm, Bool.or_eq_false_iff, decide_eq_false_iff_not,
    decide_eq_false_iff_not] at hheld
  have halive := h.alive
  have hzero : a.alive = 0 := by omega
  exact ⟨hzero, by omega, Bool.eq_false_iff.mpr (h.not_guarded hzero)⟩

/-- The lock is held while there is a guard, and none was leaked. -/
theorem of_guarded (h : Agrees a g) (hguard : g.guarded = true) :
    a.alive = 1 ∧ a.leaked = 0 ∧ g.isLocked = true := by
  have hone := h.guarded.mp hguard
  have hle := h.one
  refine ⟨hone, by omega, ?_⟩
  rw [h.isLocked, Account.held, hone]
  rfl

/-! ### One effect -/

/-- A free lock is taken. -/
theorem opens (h : Agrees a g) (hfree : g.isLocked = false) :
    Agrees (a.add .opens) { g with flag := ⟨true⟩, guarded := true } := by
  obtain ⟨hzero, hleaked, -⟩ := h.of_free hfree
  constructor
  case ended => exact h.ended
  case data => exact h.data
  case guarded => simp [Account.add, hzero]
  case isLocked => simp [Account.add, Account.held, Guarded.isLocked, hzero]
  case alive => simp [Account.add, hzero]
  case one => simp [Account.add, hzero, hleaked]

/-- The guard is dropped. -/
theorem drops (h : Agrees a g) (hguard : g.guarded = true) :
    Agrees (a.add .drops) g.dropGuard := by
  obtain ⟨hone, hleaked, -⟩ := h.of_guarded hguard
  constructor
  case ended => exact h.ended
  case data => exact h.data
  case guarded => simp [Account.add, dropGuard, hone]
  case isLocked => simp [Account.add, Account.held, dropGuard, Guarded.isLocked, hone, hleaked]
  case alive => simp [Account.add, hone]
  case one => simp [Account.add, hone, hleaked]

/-- The guard is leaked. -/
theorem leaks (h : Agrees a g) (hguard : g.guarded = true) :
    Agrees (a.add .leaks) g.forgetGuard := by
  obtain ⟨hone, hleaked, hheld⟩ := h.of_guarded hguard
  constructor
  case ended => exact h.ended
  case data => exact h.data
  case guarded => simp [Account.add, forgetGuard, hone]
  case isLocked =>
    have hflag : g.forgetGuard.isLocked = g.isLocked := rfl
    simp [Account.add, Account.held, hflag, hheld, hleaked]
  case alive => simp [Account.add, hone]
  case one => simp [Account.add, hone, hleaked]

/-- A value is written. -/
theorem writes (h : Agrees a g) (v : α) : Agrees (a.add (.writes v)) { g with data := v } where
  ended := h.ended
  data := rfl
  guarded := h.guarded
  isLocked := h.isLocked
  alive := h.alive
  one := h.one

end Agrees

/-! ### One command -/

section exec

variable {a : Account α} {g : Guarded α}

theorem tryLock_of_free (h : g.isLocked = false) :
    g.tryLock = ({ g with flag := ⟨true⟩, guarded := true }, true) := by
  have hflag : g.flag.held = false := h
  simp [tryLock, hflag]

theorem tryLock_of_held (h : g.isLocked = true) : g.tryLock = (g, false) := by
  obtain ⟨⟨held⟩, data, guarded⟩ := g
  obtain rfl : held = true := h
  simp [tryLock, LockFlag.tryLock]

/-- A section that fails leaves nothing but what it wrote. -/
theorem dropGuard_of_free (h : g.isLocked = false) (hguard : g.guarded = false) (v : α) :
    { g.tryLock.1 with data := v }.dropGuard = { g with data := v } := by
  obtain ⟨⟨held⟩, data, guarded⟩ := g
  obtain rfl : held = false := h
  obtain rfl : guarded = false := hguard
  rfl

/-- What is read is what the cell holds. -/
theorem eq_data_of_value {command : Command α} {v : α}
    (h : (exec (some g) command).2 = .value v) : v = g.data := by
  cases command with
  | get | getMut w | intoInner =>
      simp only [exec] at h
      split at h <;> cases h
      rfl
  | lock | unlock | forget | set w | failingSection w =>
      simp only [exec] at h
      split at h <;> cases h
  | tryLock | debug | debugExpanded => cases h

/-- The cell, if it is still there, is as the account says. -/
def Tells (a : Account α) : Option (Guarded α) → Prop
  | none => a.ended = true ∧ 0 ≤ a.alive ∧ a.alive + a.leaked ≤ 1
  | some g => Agrees a g

namespace Tells

variable {cell cell' : Option (Guarded α)}

theorem alive_nonneg (h : Tells a cell) : 0 ≤ a.alive := by
  cases cell with
  | none => exact h.2.1
  | some g => exact h.alive

theorem alive_add_leaked_le (h : Tells a cell) : a.alive + a.leaked ≤ 1 := by
  cases cell with
  | none => exact h.2.2
  | some g => exact h.one

theorem locked_eq (h : Tells a cell) :
    cell.map isLocked = if a.ended then none else some a.held := by
  cases cell with
  | none =>
      rw [if_pos h.1]
      rfl
  | some g =>
      rw [h.ended, ← h.isLocked]
      rfl

/-- It is enough to know what the command does. -/
theorem of_exec {command : Command α} {reply : Reply α}
    (heq : exec cell command = (cell', reply))
    (h : Tells (a.add (Step.effect ⟨command, reply, cell'.map isLocked⟩)) cell') :
    Tells (a.add (stepOf cell command).effect) (exec cell command).1 := by
  rw [stepOf, heq]
  exact h

end Tells

/-- Every command leaves the cell as its answer says. -/
theorem Agrees.tells_exec (h : Agrees a g) (command : Command α) :
    Tells (a.add (stepOf (some g) command).effect) (exec (some g) command).1 := by
  cases command with
  | lock =>
      cases hlocked : g.isLocked with
      | true =>
          have heq : exec (some g) .lock = (some g, .wouldBlock) := by simp [exec, hlocked]
          exact .of_exec heq h
      | false =>
          have heq : exec (some g) .lock =
              (some { g with flag := ⟨true⟩, guarded := true }, .locked) := by
            simp [exec, hlocked, tryLock_of_free hlocked]
          exact .of_exec heq (h.opens hlocked)
  | tryLock =>
      cases hlocked : g.isLocked with
      | true =>
          have heq : exec (some g) .tryLock = (some g, .tried false) := by
            simp [exec, tryLock_of_held hlocked]
          exact .of_exec heq h
      | false =>
          have heq : exec (some g) .tryLock =
              (some { g with flag := ⟨true⟩, guarded := true }, .tried true) := by
            simp [exec, tryLock_of_free hlocked]
          exact .of_exec heq (h.opens hlocked)
  | unlock =>
      cases hguard : g.guarded with
      | true =>
          have heq : exec (some g) .unlock = (some g.dropGuard, .unlocked) := by
            simp [exec, hguard]
          exact .of_exec heq (h.drops hguard)
      | false =>
          have heq : exec (some g) .unlock = (some g, .noGuard) := by simp [exec, hguard]
          exact .of_exec heq h
  | forget =>
      cases hguard : g.guarded with
      | true =>
          have heq : exec (some g) .forget = (some g.forgetGuard, .forgotten) := by
            simp [exec, hguard]
          exact .of_exec heq (h.leaks hguard)
      | false =>
          have heq : exec (some g) .forget = (some g, .noGuard) := by simp [exec, hguard]
          exact .of_exec heq h
  | get =>
      cases hguard : g.guarded with
      | true =>
          have heq : exec (some g) .get = (some g, .value g.data) := by simp [exec, hguard]
          exact .of_exec heq h
      | false =>
          have heq : exec (some g) .get = (some g, .noGuard) := by simp [exec, hguard]
          exact .of_exec heq h
  | set v =>
      cases hguard : g.guarded with
      | true =>
          have heq : exec (some g) (.set v) = (some { g with data := v }, .stored) := by
            simp [exec, hguard]
          exact .of_exec heq (h.writes v)
      | false =>
          have heq : exec (some g) (.set v) = (some g, .noGuard) := by simp [exec, hguard]
          exact .of_exec heq h
  | getMut value =>
      cases hguard : g.guarded with
      | true =>
          have heq : exec (some g) (.getMut value) = (some g, .borrowed) := by
            simp [exec, hguard]
          exact .of_exec heq h
      | false =>
          have heq : exec (some g) (.getMut value) =
              (some { g with data := value.getD g.data }, .value g.data) := by
            simp [exec, hguard]
          cases value with
          | none => exact .of_exec heq h
          | some v => exact .of_exec heq (h.writes v)
  | intoInner =>
      cases hguard : g.guarded with
      | true =>
          have heq : exec (some g) .intoInner = (some g, .borrowed) := by simp [exec, hguard]
          exact .of_exec heq h
      | false =>
          have heq : exec (some g) .intoInner = (none, .value g.data) := by simp [exec, hguard]
          exact .of_exec heq ⟨rfl, h.alive, h.one⟩
  | failingSection v =>
      cases hlocked : g.isLocked with
      | true =>
          have heq : exec (some g) (.failingSection v) = (some g, .wouldBlock) := by
            simp [exec, hlocked]
          exact .of_exec heq h
      | false =>
          obtain ⟨-, -, hguard⟩ := h.of_free hlocked
          have heq : exec (some g) (.failingSection v) = (some { g with data := v }, .failed) := by
            simp [exec, hlocked, dropGuard_of_free hlocked hguard]
          exact .of_exec heq (h.writes v)
  | debug | debugExpanded => exact h

end exec

/-! ## The life cycle -/

/-- What the next answer of a cell that was not taken apart is, when the answers before it come
to the account `a`. -/
structure LifeCycle (a : Account α) (step : Step α) : Prop where
  alive_nonneg : 0 ≤ (a.add step.effect).alive
  /-- never are two guards alive, and none is once one was leaked -/
  alive_add_leaked_le : (a.add step.effect).alive + (a.add step.effect).leaked ≤ 1
  /-- the lock, if it is still there, is held while a guard is alive or was leaked -/
  locked : step.locked =
    if (a.add step.effect).ended then none else some (a.add step.effect).held
  lock : step.command = .lock → step.reply = if a.held then .wouldBlock else .locked
  /-- a single attempt succeeds if the lock is free -/
  tryLock : step.command = .tryLock → step.reply = .tried (!a.held)
  dropped : step.command = .unlock → a.alive = 1 →
    step.reply = .unlocked ∧ step.locked = some false
  forgotten : step.command = .forget → a.alive = 1 →
    step.reply = .forgotten ∧ step.locked = some true
  /-- a section that fails leaves the lock free and its write behind -/
  failed : ∀ v, step.command = .failingSection v → a.held = false →
    step.reply = .failed ∧ step.locked = some false ∧ (a.add step.effect).last = v
  /-- the lock stays held once a guard was leaked, and there is no other guard -/
  leaked : 0 < a.leaked →
    step.reply ≠ .locked ∧ step.reply ≠ .tried true ∧ step.locked ≠ some false
  /-- reads through a guard and past the lock give the value that was written last, also when
  a leaked guard holds the lock -/
  get : step.command = .get → a.alive = 1 → step.reply = .value a.last
  getMut : ∀ v, step.command = .getMut v → a.alive = 0 → step.reply = .value a.last
  intoInner : step.command = .intoInner → a.alive = 0 → step.reply = .value a.last
  /-- and nothing else is ever read -/
  read : ∀ v, step.reply = .value v → v = a.last
  set : ∀ v, step.command = .set v → a.alive = 1 →
    step.reply = .stored ∧ (a.add step.effect).last = v

section lifeCycle

variable {a : Account α} {g : Guarded α}

theorem Agrees.lifeCycle (h : Agrees a g) (command : Command α) :
    LifeCycle a (stepOf (some g) command) := by
  have htells := h.tells_exec command
  have hlocked := htells.locked_eq
  have hle := htells.alive_add_leaked_le
  constructor
  case alive_nonneg => exact htells.alive_nonneg
  case alive_add_leaked_le => exact hle
  case locked => exact hlocked
  case lock =>
    rintro ⟨⟩
    rw [← h.isLocked]
    simp only [stepOf, exec]
    split <;> rfl
  case tryLock =>
    rintro ⟨⟩
    rw [← h.isLocked]
    rfl
  case dropped =>
    rintro ⟨⟩ hone
    simp only [stepOf, exec, if_pos (h.guarded.mpr hone)]
    exact ⟨trivial, rfl⟩
  case forgotten =>
    rintro ⟨⟩ hone
    have hguard := h.guarded.mpr hone
    have hheld := (h.of_guarded hguard).2.2
    simp only [stepOf, exec, if_pos hguard]
    exact ⟨trivial, congrArg some hheld⟩
  case failed =>
    rintro v ⟨⟩ hfree
    rw [← h.isLocked] at hfree
    simp only [stepOf, exec, if_neg (Bool.eq_false_iff.mp hfree)]
    exact ⟨trivial, rfl, rfl⟩
  case leaked =>
    intro hleaked
    have hopens : (stepOf (some g) command).effect ≠ .opens := by
      intro heffect
      have halive := h.alive
      rw [heffect] at hle
      simp only [Account.add] at hle
      omega
    refine ⟨fun hreply => hopens ?_, fun hreply => hopens ?_, ?_⟩
    · simp only [Step.effect, hreply]
    · simp only [Step.effect, hreply]
    · have hgrown := a.leaked_le_add (stepOf (some g) command).effect
      rw [show (stepOf (some g) command).locked = _ from hlocked,
        Account.held_of_leaked (Nat.lt_of_lt_of_le hleaked hgrown)]
      split <;> simp
  case get =>
    rintro ⟨⟩ hone
    simp only [stepOf, exec, if_pos (h.guarded.mpr hone), h.data]
  case getMut =>
    rintro v ⟨⟩ hzero
    simp only [stepOf, exec, if_neg (h.not_guarded hzero), h.data]
  case intoInner =>
    rintro ⟨⟩ hzero
    simp only [stepOf, exec, if_neg (h.not_guarded hzero), h.data]
  case read =>
    intro v hread
    rw [← h.data]
    exact eq_data_of_value hread
  case set =>
    rintro v ⟨⟩ hone
    simp only [stepOf, exec, if_pos (h.guarded.mpr hone)]
    exact ⟨trivial, rfl⟩

/-- What an answer is after others. -/
structure Answers (a : Account α) (step : Step α) : Prop where
  lives : a.ended = false → LifeCycle a step
  /-- there is nothing left when the cell was taken apart -/
  gone : a.ended = true → step.reply = .gone ∧ step.locked = none

theorem Tells.answers_stepOf {cell : Option (Guarded α)} (h : Tells a cell) (command : Command α) :
    Answers a (stepOf cell command) ∧
      Tells (a.add (stepOf cell command).effect) (exec cell command).1 := by
  cases cell with
  | none =>
      refine ⟨⟨fun hended => ?_, fun _ => ⟨rfl, rfl⟩⟩, h⟩
      rw [h.1] at hended
      cases hended
  | some g =>
      refine ⟨⟨fun _ => Agrees.lifeCycle h command, fun hended => ?_⟩, Agrees.tells_exec h command⟩
      rw [Agrees.ended h] at hended
      cases hended

/-- So is every answer. -/
theorem Tells.answers_steps {cell : Option (Guarded α)} (h : Tells a cell)
    (commands : List (Command α)) {past future : List (Step α)} {step : Step α}
    (hsteps : steps cell commands = past ++ step :: future) : Answers (a.addAll past) step := by
  induction commands generalizing a cell past with
  | nil =>
      have hnil : ([] : List (Step α)) = past ++ step :: future := hsteps
      simp at hnil
  | cons command commands ih =>
      obtain ⟨hanswers, htells⟩ := h.answers_stepOf command
      rw [steps_cons] at hsteps
      cases past with
      | nil =>
          obtain ⟨rfl, -⟩ := List.cons.inj hsteps
          exact hanswers
      | cons first past =>
          obtain ⟨rfl, hrest⟩ := List.cons.inj hsteps
          exact ih htells hrest

/-- **The life of guards.**  Every answer in a history is what the answers before it make it,
and whatever follows when a guard was leaked, the lock stays held and is not given out
again. -/
theorem history_answers (init : α) (commands : List (Command α)) {past future : List (Step α)}
    {step : Step α} (h : history init commands = past ++ step :: future) :
    Answers (account init past) step ∧
      (step.reply = .forgotten → ∀ later ∈ future,
        later.reply ≠ .locked ∧ later.reply ≠ .tried true ∧ later.locked ≠ some false) := by
  have htells : Tells { last := init } (some ({ data := init } : Guarded α)) := Agrees.new init
  refine ⟨htells.answers_steps commands h, fun hreply later hlater => ?_⟩
  obtain ⟨between, beyond, rfl⟩ := List.append_of_mem hlater
  -- the account before the later answer counts the guard that was leaked
  have hleaked : 0 < (account init (past ++ step :: between)).leaked := by
    have heffect : step.effect = .leaks := by simp only [Step.effect, hreply]
    rw [account, Account.addAll_append]
    refine Nat.lt_of_lt_of_le ?_ (Account.leaked_le_addAll _ between)
    show 0 < (Account.add _ step.effect).leaked
    rw [heffect]
    exact Nat.succ_pos _
  have hanswers : Answers (account init (past ++ step :: between)) later := by
    have hsteps : history init commands = (past ++ step :: between) ++ later :: beyond := by
      rw [h, List.append_assoc]
      rfl
    exact htells.answers_steps commands hsteps
  cases hended : (account init (past ++ step :: between)).ended with
  | false => exact (hanswers.lives hended).leaked hleaked
  | true =>
      obtain ⟨hreply, hlocked⟩ := hanswers.gone hended
      rw [hreply, hlocked]
      simp

/-- A section fails, then a guard writes and is leaked, and the data is reached past the
lock. -/
def leakingCommands : List (Command Nat) :=
  [.failingSection 1, .tryLock, .set 2, .forget, .tryLock, .getMut (some 3), .intoInner]

theorem leakingCommands_answers :
    history 0 leakingCommands =
        (history 0 leakingCommands).take 6 ++ ⟨.intoInner, .value 3, none⟩ :: [] ∧
      Answers (account 0 ((history 0 leakingCommands).take 6)) ⟨.intoInner, .value 3, none⟩ ∧
      (account 0 ((history 0 leakingCommands).take 6)).ended = false ∧
      (account 0 ((history 0 leakingCommands).take 6)).leaked = 1 := by
  have hhistory : history 0 leakingCommands =
      (history 0 leakingCommands).take 6 ++ ⟨.intoInner, .value 3, none⟩ :: [] := rfl
  exact ⟨hhistory, (history_answers 0 leakingCommands hhistory).1, rfl, rfl⟩

end lifeCycle

end LockFreeRings.Guarded
