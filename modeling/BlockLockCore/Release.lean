import BlockLockCore.Client
import BlockLockCore.Refinement

/-! Every release of a locked amount is matched to its own matured lock. -/
namespace BlockLockCore

open Checked Trace TimeLock

variable {Pubkey : Type} [DecidableEq Pubkey] {rt : Runtime Pubkey} {E : Run rt}
  {u v : Pubkey} {k m n : ℕ}

theorem succeeds_unique {i j : Invocation Pubkey} (hi : E.Succeeds u i n)
    (hj : E.Succeeds v j n) : i = j ∧ u = v := by
  obtain ⟨hi, rfl, _⟩ := hi
  obtain ⟨hj, rfl, _⟩ := hj
  obtain rfl := Option.some.inj (hi.symm.trans hj)
  exact ⟨rfl, rfl⟩

/-- A cleared amount was put up by the last deed of its user. -/
theorem last_of_clears {accts : UnlockTokens Pubkey} {a : UInt64} {T : Int64}
    (h : E.Clears u accts a T n) (ha : 0 < a) :
    ∃ l s, last E.deeds u n = some (.lock l s) ∧ l.amount = a := by
  obtain ⟨r, hr, rfl⟩ := Option.map_eq_some_iff.mp h.2
  exact lock_of_record hr ha

theorem clears_deed {accts : UnlockTokens Pubkey} {a : UInt64} {T : Int64}
    (h : E.Clears u accts a T n) : E.deeds n = some ⟨u, .unlock T.toInt⟩ :=
  deeds_of_succeeds h.1

/-- The latest successful instruction of the user is a `lock_tokens` of the cleared amount, whose
time has come. -/
theorem locks_of_clears {accts : UnlockTokens Pubkey} {a : UInt64} {T : Int64}
    (h : E.Clears u accts a T n) (ha : 0 < a) :
    ∃ k accts' s, E.LatestSuccess u k n ∧ E.Locks u accts' a s k ∧
      unlockTime s.toInt ≤ T.toInt := by
  obtain ⟨l, s, hl, rfl⟩ := last_of_clears h ha
  obtain ⟨k, hk, hkd⟩ := last_eq_some_iff.mp hl
  obtain ⟨accts', clock, hlock, rfl, _⟩ := locks_of_deed hkd
  have hdue : unlockTime clock.toInt ≤ T.toInt :=
    due_of_unlock (deeds_guarded E) (clears_deed h) hl
  exact ⟨k, accts', clock, latestSuccess_iff.mpr hk, hlock, hdue⟩

theorem locks_before_clears (hno : E.NoOverflow u) (hc : E.ClockMonotone)
    {accts : UnlockTokens Pubkey} {accts' : LockTokens Pubkey} {a b : UInt64} {s T : Int64}
    (h : E.Clears u accts a T n) (ha : 0 < a) (hmn : m < n) (hm : E.Locks u accts' b s m) :
    s.toInt ≤ T.toInt - 86400 := by
  obtain ⟨l, s', hl, _⟩ := last_of_clears h ha
  have hlock := deeds_of_succeeds hm
  have hdue : unlockTime s.toInt ≤ T.toInt :=
    due_of_earlier_lock (deeds_guarded E) (deeds_advancing hc hno) (clears_deed h) hl hmn hlock
  rw [unlockTime_of_deed hno hlock] at hdue
  exact Int.le_sub_right_of_add_le hdue

/-- One successful instruction is the latest one before at most one success of its user. -/
theorem latestSuccess_target {i j : Invocation Pubkey} (hm : E.Succeeds u i m)
    (hn : E.Succeeds v j n) (hkm : E.LatestSuccess u k m) (hkn : E.LatestSuccess v k n) :
    m = n := by
  obtain ⟨inv, hinv⟩ := hkm.2.1
  obtain ⟨inv', hinv'⟩ := hkn.2.1
  obtain ⟨_, rfl⟩ := succeeds_unique hinv hinv'
  exact latest_target_unique (latestSuccess_iff.mp hkm) (latestSuccess_iff.mp hkn)
    (deeds_of_succeeds hm) (deeds_of_succeeds hn)

/--
In a build that checks for overflow, every successful `unlock_tokens` that clears an amount follows,
as the next success of its user, a `lock_tokens` of that amount at least 24 hours older; no two of
them follow the same one; and all earlier locks of the user are at least that old.
-/
theorem release_matched (hb : rt.overflowChecks = true) (hc : E.ClockMonotone) :
    (∀ u accts a T n, E.Clears u accts a T n → 0 < a →
      ∃ k accts' s, E.LatestSuccess u k n ∧ E.Locks u accts' a s k ∧
        s.toInt + 86400 ≤ T.toInt) ∧
    (∀ u v accts accts' a b S T k m n, E.Clears u accts a S m → E.Clears v accts' b T n →
      m ≠ n → E.LatestSuccess u k m → ¬ E.LatestSuccess v k n) ∧
    (∀ u accts a T n, E.Clears u accts a T n → 0 < a →
      ∀ m accts' b s, m < n → E.Locks u accts' b s m → s.toInt ≤ T.toInt - 86400) := by
  refine ⟨?_, ?_, ?_⟩
  · intro u accts a T n h ha
    obtain ⟨k, accts', s, hk, hlock, hdue⟩ := locks_of_clears h ha
    rw [unlockTime_of_range ((accepted_of_locks hlock).inRange hb)] at hdue
    exact ⟨k, accts', s, hk, hlock, hdue⟩
  · intro u v accts accts' a b S T k m n hm hn hne hkm hkn
    exact hne (latestSuccess_target hm.1 hn.1 hkm hkn)
  · intro u accts a T n h ha m accts' b s hmn hm
    exact locks_before_clears (noOverflow_of_checks hb E u) hc h ha hmn hm

/-- 100 USDC locked at 1000 s, released 24 hours later. -/
def releaseRun : Run testnet :=
  .ofList testnet [usdcClient.lockUSDC testnet 1000 0 100000000,
    usdcClient.unlockUSDC testnet 87400 0]

theorem releaseRun_clears : releaseRun.Clears usdcClient.wallet
    (usdcClient.unlockAccounts testnet 0) 100000000 87400 1 := by
  refine ⟨⟨rfl, rfl, ?_⟩, ?_⟩ <;> decide

theorem releaseRun_matched : ∃ k accts s, releaseRun.LatestSuccess usdcClient.wallet k 1 ∧
    releaseRun.Locks usdcClient.wallet accts 100000000 s k ∧ s.toInt + 86400 ≤ 87400 :=
  (release_matched rfl (clockMonotone_ofList (by decide))).1 usdcClient.wallet
    (usdcClient.unlockAccounts testnet 0) 100000000 87400 1 releaseRun_clears (by decide)

end BlockLockCore
