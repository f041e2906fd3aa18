import LockFreeRings.Proofs.Spsc.Handover
set_option autoImplicit false

/-!
# Traces of calls

What a call returns may be the verdict of a cursor that it loaded earlier, in a state that
has passed.  `Traced` is a system of two handles that keeps, for each handle, what its call
is to do and the whole state in which that call last loaded the other side's cursor; a call
that returns is filed with both.  No step reads a trace.
-/

namespace LockFreeRings.Spsc

variable {n : SlotCount} {k : Nat} {ω : Type}

/-- A call that has returned: what it was to do, what it returned, and the state in which it
last loaded the other side's cursor, if it did. -/
structure Finished (γ ρ σ : Type) where
  goal : Option γ
  result : ρ
  load : Option σ

/-- What the calls of a handle were to do and what they have returned; of the call in
progress also the state of its last load. -/
structure Trace (γ ρ σ : Type) where
  goal : Option γ := none
  load : Option σ := none
  returns : List (Finished γ ρ σ) := []

namespace Trace

variable {γ ρ σ : Type}

/-- A call begins, and has loaded nothing yet. -/
def begin (t : Trace γ ρ σ) (goal : Option γ) : Trace γ ρ σ :=
  { t with goal := goal, load := none }

/-- The call loads the other side's cursor in the state `s`. -/
def loads (t : Trace γ ρ σ) (s : σ) : Trace γ ρ σ := { t with load := some s }

/-- What a step returns, if anything, is filed. -/
def returned (t : Trace γ ρ σ) : Option ρ → Trace γ ρ σ
  | none => t
  | some result => { t with returns := t.returns ++ [⟨t.goal, result, t.load⟩] }

@[simp] theorem goal_returned (t : Trace γ ρ σ) (result : Option ρ) :
    (t.returned result).goal = t.goal := by
  cases result <;> rfl

@[simp] theorem load_returned (t : Trace γ ρ σ) (result : Option ρ) :
    (t.returned result).load = t.load := by
  cases result <;> rfl

/-- Every return says something of what its call was to do and of the state it loaded in. -/
def Holds (verdict : Option γ → Option σ → ρ → Prop) (t : Trace γ ρ σ) : Prop :=
  ∀ c ∈ t.returns, verdict c.goal c.load c.result

theorem Holds.returned {verdict : Option γ → Option σ → ρ → Prop} {t : Trace γ ρ σ}
    (h : t.Holds verdict) {result : Option ρ}
    (hresult : ∀ value ∈ result, verdict t.goal t.load value) :
    (t.returned result).Holds verdict := by
  cases result with
  | none => exact h
  | some value =>
      intro c hc
      rcases List.mem_append.mp hc with hc | hc
      · exact h c hc
      · rw [List.mem_singleton.mp hc]
        exact hresult value rfl

end Trace

/-- Two handles on a ring, and the traces of their calls. -/
structure Traced (n : SlotCount) (k : Nat) (ω : Type) where
  system : System n k ω
  producer : Trace (ProducerGoal k ω) (ProducerReturn k ω) (System n k ω) := {}
  consumer : Trace (ConsumerGoal k ω) (ConsumerReturn k ω) (System n k ω) := {}

namespace Traced

/-- A new ring, and no calls yet. -/
def start (n : SlotCount) (blank : Element k ω) : Traced n k ω where
  system := .start n blank

/-- What a step of the producer begins or loads. -/
def producing (s : Traced n k ω) (input : ProducerInput k ω) :
    Trace (ProducerGoal k ω) (ProducerReturn k ω) (System n k ω) :=
  match input, s.system.producer with
  | .begin goal, .idle => s.producer.begin (some goal)
  | .count, .idle => s.producer.begin none
  | .proceed, .refresh _ _ _ _ => s.producer.loads s.system
  | _, _ => s.producer

/-- What a step of the consumer begins or loads. -/
def consuming (s : Traced n k ω) (input : ConsumerInput k ω) :
    Trace (ConsumerGoal k ω) (ConsumerReturn k ω) (System n k ω) :=
  match input, s.system.consumer with
  | .begin goal, .idle => s.consumer.begin (some goal)
  | .count, .idle => s.consumer.begin none
  | .proceed, .refresh _ _ => s.consumer.loads s.system
  | _, _ => s.consumer

/-- What an action does. -/
def act (s : Traced n k ω) : Action k ω → Traced n k ω
  | .produce input =>
    { s with
      system := s.system.produce input
      producer := (s.producing input).returned
        (s.system.producer.step s.system.ring input).result }
  | .consume input =>
    { s with
      system := s.system.consume input
      consumer := (s.consuming input).returned
        (s.system.consumer.step s.system.ring input).result }

/-- The state after a run. -/
def run (n : SlotCount) (blank : Element k ω) (actions : List (Action k ω)) : Traced n k ω :=
  actions.foldl act (start n blank)

/-- Without the traces, what an action does is what it does to the two handles. -/
theorem system_act (s : Traced n k ω) (action : Action k ω) :
    (s.act action).system = s.system.act action := by
  cases action <;> rfl

theorem system_run (n : SlotCount) (blank : Element k ω) (actions : List (Action k ω)) :
    (run n blank actions).system = System.run n blank actions := by
  have hfold : ∀ s : Traced n k ω,
      (actions.foldl act s).system = actions.foldl System.act s.system := by
    induction actions with
    | nil => exact fun _ => rfl
    | cons action actions ih =>
        intro s
        rw [List.foldl_cons, List.foldl_cons, ih, system_act]
  exact hfold (start n blank)

end Traced

end LockFreeRings.Spsc
