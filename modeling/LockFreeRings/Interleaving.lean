set_option autoImplicit false

/-!
# Interleaved runs

Several participants share a state and each has one of its own.  A participant's
step changes the two.  A round lets each participant take one step in turn, so
steps of different participants alternate and none is left out.
-/

namespace LockFreeRings

variable {σ τ : Type}

/-- A round: each participant takes one step in turn. -/
def oneRound (step : σ → τ → σ × τ) : σ → List τ → σ × List τ
  | s, [] => (s, [])
  | s, t :: ts =>
    let (s, t) := step s t
    let (s, ts) := oneRound step s ts
    (s, t :: ts)

/-- Rounds until all is done, at most `fuel` of them. -/
def manyRounds (step : σ → τ → σ × τ) (done : σ → List τ → Bool) :
    Nat → σ → List τ → σ × List τ
  | 0, s, ts => (s, ts)
  | fuel + 1, s, ts =>
    if done s ts then (s, ts)
    else
      let (s, ts) := oneRound step s ts
      manyRounds step done fuel s ts

/-- A round leaves as many participants as there were. -/
theorem length_oneRound (step : σ → τ → σ × τ) (s : σ) (ts : List τ) :
    (oneRound step s ts).2.length = ts.length := by
  induction ts generalizing s with
  | nil => rfl
  | cons t ts ih => simp [oneRound, ih]

end LockFreeRings
