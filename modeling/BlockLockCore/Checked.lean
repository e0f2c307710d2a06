import Mathlib.Algebra.Group.Int.Defs
import Mathlib.Tactic.Common

/-! Fallible checks in `Except`, and 64-bit signed addition with or without overflow checks. -/
namespace Checked

variable {ε α β : Type} {p : Prop} [Decidable p] {e : ε}

/-- Continue exactly when the check holds. -/
def require (p : Prop) [Decidable p] (e : ε) : Except ε Unit :=
  if p then .ok () else .error e

@[simp] theorem require_eq_ok {u : Unit} : require p e = .ok u ↔ p := by
  unfold require
  split <;> simp [*]

theorem require_of (h : p) : require p e = .ok () := require_eq_ok.mpr h

theorem require_of_not (h : ¬ p) : require p e = .error e := by
  simp [require, h]

@[simp] theorem ok_bind (a : α) (f : α → Except ε β) : (Except.ok a >>= f) = f a := rfl

@[simp] theorem error_bind (e : ε) (f : α → Except ε β) :
    (Except.error e >>= f) = .error e := rfl

@[simp] theorem pure_eq_ok {a b : α} : (pure a : Except ε α) = .ok b ↔ a = b :=
  Except.ok.injEq a b ▸ Iff.rfl

/-- A sequence succeeds exactly when both parts do. -/
theorem bind_eq_ok {x : Except ε α} {f : α → Except ε β} {b : β} :
    (x >>= f) = .ok b ↔ ∃ a, x = .ok a ∧ f a = .ok b := by
  cases x <;> simp

theorem isOk_iff {x : Except ε α} : x.isOk = true ↔ ∃ a, x = .ok a := by
  cases x <;> simp [Except.isOk, Except.toBool]

theorem isOk_eq_false_iff {x : Except ε α} : x.isOk = false ↔ ∃ e, x = .error e := by
  cases x <;> simp [Except.isOk, Except.toBool]

/-- The sum as compiled code computes it. Out of range it aborts in a build that checks for
overflow, and wraps around in one that does not. -/
def add (overflowChecks : Bool) (a b : Int64) : Option Int64 :=
  if overflowChecks = true ∧ ¬ (-2 ^ 63 ≤ a.toInt + b.toInt ∧ a.toInt + b.toInt < 2 ^ 63) then none
  else some (a + b)

theorem add_eq_some_iff {overflowChecks : Bool} {a b c : Int64} :
    add overflowChecks a b = some c ↔
      (overflowChecks = true → -2 ^ 63 ≤ a.toInt + b.toInt ∧ a.toInt + b.toInt < 2 ^ 63) ∧
        a + b = c := by
  unfold add
  split
  · rename_i h
    constructor
    · intro hc
      cases hc
    · rintro ⟨hrange, _⟩
      exact (h.2 (hrange h.1)).elim
  · rename_i h
    rw [Option.some.injEq]
    constructor
    · intro hc
      exact ⟨fun hchecks => by_contra fun hrange => h ⟨hchecks, hrange⟩, hc⟩
    · rintro ⟨_, hc⟩
      exact hc

end Checked
