import BlockLockCore.Client
import BlockLockCore.Refinement

/-! The deadline of a lock, over the whole life of its record. -/
namespace BlockLockCore

open Checked Trace TimeLock

variable {Pubkey : Type} [DecidableEq Pubkey] {rt : Runtime Pubkey} {E : Run rt}
  {u : Pubkey} {k m n : ℕ} {r : UserLockInfo Pubkey}

/-- An unlock deed is an `unlock_tokens` that finds some amount in the record. -/
theorem clears_of_deed {t : ℤ} (h : E.deeds k = some ⟨u, .unlock t⟩) :
    ∃ accts a T, E.Clears u accts a T k ∧ T.toInt = t := by
  rcases deeds_eq_some_iff.mp h with ⟨⟨clock, accts | accts⟩, hs, hd⟩
  · cases hd
  · obtain ⟨e, he⟩ := isOk_iff.mp hs.2.2
    obtain ⟨_, r, hr, _⟩ := process_unlock_eq_ok.mp he
    have huser : accts.user.key = u := hs.2.1
    have hrec : E.record k u = some r := by
      rw [← huser]
      exact hr
    cases hd
    exact ⟨accts, r.lockedAmount, clock, ⟨hs, by rw [hrec, Option.map_some]⟩, rfl⟩

/--
With a clock that never runs backwards and that no lock of the user overflows, a record with a
locked amount keeps its deadline or gets a later one, in every later state, unless its user clears
it in between at or after that deadline.
-/
theorem deadline_never_moves_back (hc : E.ClockMonotone) (hno : E.NoOverflow u) (hmn : m ≤ n)
    (hr : E.record m u = some r) (ha : 0 < r.lockedAmount) :
    (∃ r', E.record n u = some r' ∧ r.unlockTime ≤ r'.unlockTime) ∨
    ∃ k accts a T, m ≤ k ∧ k < n ∧ E.Clears u accts a T k ∧ r.unlockTime ≤ T := by
  rcases record_origin hr with ⟨l, s, hl, _, hdue⟩ | ⟨t, _, rfl⟩
  · rcases stands_or_released (deeds_guarded E) (deeds_advancing hc hno) hl hmn with
      ⟨l', s', hl', hs⟩ | ⟨k, t, hmk, hkn, hk, ht⟩
    · obtain ⟨t, ht, hrec⟩ := record_of_lock hl'
      refine Or.inl ⟨_, hrec, Int64.le_iff_toInt_le.mpr ?_⟩
      exact (hdue.trans_le hs).trans_eq ht.symm
    · obtain ⟨accts, a, T, hclear, rfl⟩ := clears_of_deed hk
      have hle : r.unlockTime ≤ T := Int64.le_iff_toInt_le.mpr (hdue.trans_le ht)
      exact Or.inr ⟨k, accts, a, T, hmk, hkn, hclear, hle⟩
  · exact (UInt64.lt_irrefl 0 ha).elim

/-- 100 USDC locked at 1000 s, and 1 USDC more at 2000 s. -/
def relockingRun : Run testnet :=
  .ofList testnet [usdcClient.lockUSDC testnet 1000 0 100000000,
    usdcClient.lockUSDC testnet 2000 0 101000000]

theorem relockingRun_deadline :
    (∃ r, relockingRun.record 2 usdcClient.wallet = some r ∧ 87400 ≤ r.unlockTime) ∨
    ∃ k accts a T, 1 ≤ k ∧ k < 2 ∧ relockingRun.Clears usdcClient.wallet accts a T k ∧
      87400 ≤ T := by
  have hc : relockingRun.ClockMonotone := clockMonotone_ofList (by decide)
  have hr : relockingRun.record 1 usdcClient.wallet =
      some ⟨100000000, 87400, usdcClient.wallet⟩ := by
    decide
  have hlater : (1 : ℕ) ≤ 2 := by decide
  have hno : relockingRun.NoOverflow usdcClient.wallet := noOverflow_of_checks rfl _ _
  have hkept := deadline_never_moves_back hc hno hlater hr (by decide)
  exact hkept

end BlockLockCore
