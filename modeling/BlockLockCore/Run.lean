import BlockLockCore.Program
import BlockLockCore.Trace.Execution
import BlockLockCore.Trace.TimeLock
import Mathlib.Algebra.Order.Group.Int
import Mathlib.Algebra.Order.Monoid.Unbundled.Basic
import Mathlib.Data.Int.ConditionallyCompleteOrder
import Mathlib.Order.ConditionallyCompleteLattice.Basic

/-! Runs of the program, and the time lock that every run implements. -/
namespace BlockLockCore

open Checked Trace TimeLock

/-- What a `lock_tokens` puts up: the amount, and the accounts it names. -/
structure Lock (Pubkey : Type) where
  amount : UInt64
  tokenAccount : Pubkey
  mint : Pubkey

/-- The weight of a lock is its amount. -/
def Lock.weight {Pubkey : Type} (l : Lock Pubkey) : ℕ := l.amount.toNat

variable {Pubkey : Type}

/-- An instruction as a deed on the integer time line. -/
def Invocation.deed (inv : Invocation Pubkey) : Deed (Lock Pubkey) ℤ :=
  match inv.instruction with
  | .lockTokens accts amount =>
    .lock ⟨amount, accts.userTokenAccount.key, accts.mint.key⟩ inv.clock.toInt
  | .unlockTokens _ => .unlock inv.clock.toInt

theorem deed_time (inv : Invocation Pubkey) : inv.deed.time = inv.clock.toInt := by
  rcases inv with ⟨clock, accts | accts⟩ <;> rfl

/-- A lock is due 24 hours after it was put up. -/
def due (s : ℤ) : ℤ := s + 86400

/-- The `unlock_time` of a lock put up at `s`. It is due then, but for a build that does not check
for overflow: there the sum wraps around. -/
def unlockTime (s : ℤ) : ℤ := (due s).bmod (2 ^ 64)

theorem toInt_add_lockDuration (clock : Int64) :
    (clock + lockDuration).toInt = unlockTime clock.toInt := by
  rw [Int64.toInt_add, toInt_lockDuration, unlockTime, due]

theorem unlockTime_of_range {clock : Int64} (h : clock.toInt + 86400 < 2 ^ 63) :
    unlockTime clock.toInt = due clock.toInt := by
  have hlow := clock.le_toInt
  unfold unlockTime due
  exact Int.bmod_eq_of_le (by omega) (by omega)

/-- Around the end of the range the sum falls behind the clock. -/
theorem unlockTime_of_wrap {clock : Int64} (h : 2 ^ 63 ≤ clock.toInt + 86400) :
    unlockTime clock.toInt < clock.toInt := by
  have hhigh := clock.toInt_lt
  have hwrap : unlockTime clock.toInt = clock.toInt + 86400 - 2 ^ 64 := by
    rw [unlockTime, due, ← Int.sub_bmod_right]
    exact Int.bmod_eq_of_le (by omega) (by omega)
  omega

theorem unlockTime_le_due (clock : Int64) : unlockTime clock.toInt ≤ due clock.toInt := by
  by_cases h : clock.toInt + 86400 < 2 ^ 63
  · exact (unlockTime_of_range h).le
  · have hwrap := unlockTime_of_wrap (Int.not_lt.mp h)
    unfold due
    omega

/-- The record of `u` is determined by the last deed of `u`. -/
def Represents (u : Pubkey) : Option (Deed (Lock Pubkey) ℤ) → Option (UserLockInfo Pubkey) → Prop
  | none, r => r = none
  | some (.lock l s), r => ∃ t : Int64, t.toInt = unlockTime s ∧ r = some ⟨l.amount, t, u⟩
  | some (.unlock _), r => r = some ⟨0, 0, u⟩

variable [DecidableEq Pubkey] {rt : Runtime Pubkey} {records : Records Pubkey}

/-- A successful instruction is a deed of its signing user; a failed one is none. -/
def outcome (rt : Runtime Pubkey) (records : Records Pubkey) (inv : Invocation Pubkey) :
    Option (Entry Pubkey (Deed (Lock Pubkey) ℤ)) :=
  if (process rt records inv).isOk then some ⟨inv.instruction.user.key, inv.deed⟩ else none

/-- Before deployment no record exists. -/
def noRecords (Pubkey : Type) : Records Pubkey := fun _ => none

/-- Instructions one after the other, padded by whatever else the chain does. -/
abbrev Run (rt : Runtime Pubkey) := Execution (noRecords Pubkey) (step rt)

/-- The record of `u` after the first `n` observations. -/
def Run.record (E : Run rt) (n : ℕ) (u : Pubkey) : Option (UserLockInfo Pubkey) :=
  E.state n (rt.userLockInfoAddress u)

/-- The successful instructions of the run. -/
def Run.deeds (E : Run rt) : History Pubkey (Deed (Lock Pubkey) ℤ) :=
  fun n => (E.event n).bind (outcome rt (E.state n))

/-- Instruction `n` is signed by `u` and succeeds. -/
def Run.Succeeds (E : Run rt) (u : Pubkey) (inv : Invocation Pubkey) (n : ℕ) : Prop :=
  E.event n = some inv ∧ inv.instruction.user.key = u ∧
    (process rt (E.state n) inv).isOk = true

/-- Instruction `n` is a successful `lock_tokens(amount)` signed by `u` at `clock`. -/
def Run.Locks (E : Run rt) (u : Pubkey) (accts : LockTokens Pubkey) (amount : UInt64)
    (clock : Int64) (n : ℕ) : Prop :=
  E.Succeeds u ⟨clock, .lockTokens accts amount⟩ n

/-- Instruction `n` is a successful `unlock_tokens` signed by `u` at `clock` that finds
`amount` locked in the record. -/
def Run.Clears (E : Run rt) (u : Pubkey) (accts : UnlockTokens Pubkey) (amount : UInt64)
    (clock : Int64) (n : ℕ) : Prop :=
  E.Succeeds u ⟨clock, .unlockTokens accts⟩ n ∧
    (E.record n u).map UserLockInfo.lockedAmount = some amount

/-- Instruction `k` is the latest successful one of `u` before `n`. -/
def Run.LatestSuccess (E : Run rt) (u : Pubkey) (k n : ℕ) : Prop :=
  k < n ∧ (∃ inv, E.Succeeds u inv k) ∧ ∀ m, k < m → m < n → ∀ inv, ¬ E.Succeeds u inv m

/-- The clock never runs backwards along the run. -/
def Run.ClockMonotone (E : Run rt) : Prop :=
  ∀ m n i j, m ≤ n → E.event m = some i → E.event n = some j → i.clock ≤ j.clock

/-- No lock of `u` overflows the clock. -/
def Run.NoOverflow (E : Run rt) (u : Pubkey) : Prop :=
  ∀ n accts amount clock, E.Locks u accts amount clock n → clock.toInt + 86400 < 2 ^ 63

/-- A finite run, padded after its end. -/
def Run.ofList (rt : Runtime Pubkey) (run : List (Invocation Pubkey)) : Run rt :=
  Execution.ofList (noRecords Pubkey) (step rt) run

theorem clockMonotone_ofList {run : List (Invocation Pubkey)}
    (h : run.Pairwise fun i j => i.clock ≤ j.clock) : (Run.ofList rt run).ClockMonotone := by
  intro m n i j hmn hi hj
  obtain ⟨hm, rfl⟩ := List.getElem?_eq_some_iff.mp hi
  obtain ⟨hn, rfl⟩ := List.getElem?_eq_some_iff.mp hj
  rcases Nat.lt_or_eq_of_le hmn with hlt | rfl
  · exact List.pairwise_iff_getElem.mp h m n hm hn hlt
  · exact Int64.le_refl _

theorem outcome_of_ok {inv : Invocation Pubkey} {e : Effect Pubkey}
    (h : process rt records inv = .ok e) :
    outcome rt records inv = some ⟨inv.instruction.user.key, inv.deed⟩ :=
  if_pos (isOk_iff.mpr ⟨e, h⟩)

theorem outcome_of_error {inv : Invocation Pubkey} {x : Error}
    (h : process rt records inv = .error x) : outcome rt records inv = none := by
  simp [outcome, isOk_eq_false_iff.mpr ⟨x, h⟩]

theorem outcome_eq_some_iff {inv : Invocation Pubkey} {u : Pubkey} {d : Deed (Lock Pubkey) ℤ} :
    outcome rt records inv = some ⟨u, d⟩ ↔
      (∃ e, process rt records inv = .ok e) ∧ inv.instruction.user.key = u ∧ inv.deed = d := by
  rw [← isOk_iff, outcome]
  split <;> simp_all

theorem deeds_eq_some_iff {E : Run rt} {n : ℕ} {u : Pubkey} {d : Deed (Lock Pubkey) ℤ} :
    E.deeds n = some ⟨u, d⟩ ↔ ∃ inv, E.Succeeds u inv n ∧ inv.deed = d := by
  simp only [Run.deeds, Option.bind_eq_some_iff, outcome_eq_some_iff, Run.Succeeds, isOk_iff]
  constructor
  · rintro ⟨inv, he, hok, hu, hd⟩
    exact ⟨inv, ⟨he, hu, hok⟩, hd⟩
  · rintro ⟨inv, ⟨he, hu, hok⟩, hd⟩
    exact ⟨inv, he, hok, hu, hd⟩

theorem deeds_of_succeeds {E : Run rt} {n : ℕ} {u : Pubkey} {inv : Invocation Pubkey}
    (h : E.Succeeds u inv n) : E.deeds n = some ⟨u, inv.deed⟩ :=
  deeds_eq_some_iff.mpr ⟨inv, h, rfl⟩

theorem latestSuccess_iff {E : Run rt} {u : Pubkey} {k n : ℕ} :
    E.LatestSuccess u k n ↔ Latest E.deeds u k n := by
  constructor
  · rintro ⟨hkn, ⟨inv, hinv⟩, hno⟩
    refine ⟨hkn, ⟨_, deeds_of_succeeds hinv⟩, ?_⟩
    intro m hkm hmn d hd
    obtain ⟨inv, hinv, _⟩ := deeds_eq_some_iff.mp hd
    exact hno m hkm hmn inv hinv
  · rintro ⟨hkn, ⟨d, hd⟩, hno⟩
    obtain ⟨inv, hinv, _⟩ := deeds_eq_some_iff.mp hd
    refine ⟨hkn, ⟨inv, hinv⟩, ?_⟩
    intro m hkm hmn inv hinv
    exact hno m hkm hmn _ (deeds_of_succeeds hinv)

/-- A lock deed comes from a `lock_tokens` with the amount and the accounts of the deed. -/
theorem locks_of_deed {E : Run rt} {n : ℕ} {u : Pubkey} {l : Lock Pubkey} {s : ℤ}
    (h : E.deeds n = some ⟨u, .lock l s⟩) :
    ∃ accts clock, E.Locks u accts l.amount clock n ∧ clock.toInt = s ∧
      accts.userTokenAccount.key = l.tokenAccount ∧ accts.mint.key = l.mint := by
  rcases deeds_eq_some_iff.mp h with ⟨⟨clock, accts | accts⟩, hs, hd⟩
  · cases hd
    exact ⟨accts, clock, hs, rfl, rfl, rfl⟩
  · cases hd

end BlockLockCore
