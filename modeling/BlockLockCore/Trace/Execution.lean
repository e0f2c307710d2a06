import Mathlib.Data.List.Basic
import Mathlib.Order.Basic
import Mathlib.Data.Nat.Init

/-! Padded executions of a deterministic step function. -/
namespace Trace

variable {σ ε τ δ : Type*} {init : σ} {step : σ → ε → σ} {init' : τ} {step' : τ → δ → τ}

/-- An event moves the state, padding leaves it alone. -/
def advance (step : σ → ε → σ) (s : σ) : Option ε → σ
  | none => s
  | some e => step s e

@[simp] theorem advance_none (s : σ) : advance step s none = s := rfl

@[simp] theorem advance_some (s : σ) (e : ε) : advance step s (some e) = step s e := rfl

/-- Observation `n` performs `event n` in `state n`. A finite run is padded after its end. -/
structure Execution (init : σ) (step : σ → ε → σ) where
  state : ℕ → σ
  event : ℕ → Option ε
  start : state 0 = init
  next : ∀ n, state (n + 1) = advance step (state n) (event n)

namespace Execution

theorem next_none (E : Execution init step) {n : ℕ} (h : E.event n = none) :
    E.state (n + 1) = E.state n := by
  simp only [E.next, h, advance_none]

theorem next_some (E : Execution init step) {n : ℕ} {e : ε} (h : E.event n = some e) :
    E.state (n + 1) = step (E.state n) e := by
  simp only [E.next, h, advance_some]

/-- What holds initially and is kept by every event holds in every observed state. -/
theorem invariant (E : Execution init step) {P : σ → Prop} (h0 : P init)
    (hs : ∀ s e, P s → P (step s e)) (n : ℕ) : P (E.state n) := by
  induction n with
  | zero => simpa only [E.start] using h0
  | succ n ih =>
    cases he : E.event n with
    | none => simpa only [E.next_none he] using ih
    | some e => simpa only [E.next_some he] using hs _ _ ih

/-- Every finite run is an execution, padded after its last event. -/
def ofList (init : σ) (step : σ → ε → σ) (run : List ε) : Execution init step where
  state n := (run.take n).foldl step init
  event n := run[n]?
  start := rfl
  next n := by
    rw [List.take_add_one, List.foldl_append]
    cases run[n]? <;> rfl

/-- Forgetting state: an event of the large machine is an event or padding of the small one. -/
def project (E : Execution init step) (f : σ → τ) (g : σ → ε → Option δ)
    (h0 : f init = init') (hs : ∀ s e, f (step s e) = advance step' (f s) (g s e)) :
    Execution init' step' where
  state n := f (E.state n)
  event n := (E.event n).bind (g (E.state n))
  start := (congrArg f E.start).trans h0
  next n := by
    cases he : E.event n with
    | none => simp [E.next_none he]
    | some e => simpa [E.next_some he] using hs _ _

end Execution

end Trace
