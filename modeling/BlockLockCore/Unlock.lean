import BlockLockCore.Client
import BlockLockCore.Refinement

/-! Which unlock requests are accepted in a reachable state, and that nobody is locked out. -/
namespace BlockLockCore

open Checked Trace TimeLock

variable {Pubkey : Type} [DecidableEq Pubkey] {rt : Runtime Pubkey} {E : Run rt}
  {u : Pubkey} {n : ℕ} {r : UserLockInfo Pubkey}

/-- Before observation `n` the clock only read non-negative values up to `now`. -/
def Run.Elapsed (E : Run rt) (n : ℕ) (now : Int64) : Prop :=
  ∀ m i, m < n → E.event m = some i → 0 ≤ i.clock ∧ i.clock ≤ now

/-- The instruction behind a last deed ran at a clock value seen before. -/
theorem deed_elapsed {now : Int64} {d : Deed (Lock Pubkey) ℤ} (hn : E.Elapsed n now)
    (hd : last E.deeds u n = some d) : 0 ≤ d.time ∧ d.time ≤ now.toInt := by
  obtain ⟨k, hk, hkd⟩ := last_eq_some_iff.mp hd
  obtain ⟨inv, ⟨he, _⟩, rfl⟩ := deeds_eq_some_iff.mp hkd
  obtain ⟨h0, hnow⟩ := hn k inv hk.1 he
  have ht := deed_time inv
  exact ⟨(Int64.le_iff_toInt_le.mp h0).trans_eq ht.symm,
    ht.trans_le (Int64.le_iff_toInt_le.mp hnow)⟩

/-- No record is ever due later than 24 hours from now. -/
theorem unlockTime_le {now : Int64} (hn : E.Elapsed n now) (hr : E.record n u = some r) :
    r.unlockTime.toInt ≤ now.toInt + 86400 := by
  rcases record_origin hr with ⟨l, s, hl, _, htime⟩ | ⟨t, hl, rfl⟩
  · have hs : s ≤ now.toInt := (deed_elapsed hn hl).2
    obtain ⟨k, _, hkd⟩ := last_eq_some_iff.mp hl
    obtain ⟨_, clock, _, rfl, _⟩ := locks_of_deed hkd
    have hle := unlockTime_le_due clock
    unfold due at hle
    omega
  · obtain ⟨h0, ht⟩ := deed_elapsed hn hl
    have hnow : 0 ≤ now.toInt := h0.trans ht
    change (0 : ℤ) ≤ now.toInt + 86400
    omega

/--
In every reachable state, a request with well-formed accounts is accepted exactly when the
record exists, the owner passed is the user and the record is due. A wrong owner is refused as
such at any time, an early request as early, and a refusal changes nothing. No record is due
later than 24 hours after the last clock value, and from then on the user's request is accepted
and clears the record.
-/
theorem unlock_accepts_exactly (E : Run rt) (n : ℕ) (accts : UnlockTokens Pubkey) (T : Int64)
    (hw : accts.WellFormed rt) :
    ((process rt (E.state n) ⟨T, .unlockTokens accts⟩).isOk = true ↔
      ∃ r, E.record n accts.user.key = some r ∧ accts.owner = accts.user.key ∧
        r.unlockTime ≤ T) ∧
    (∀ r, E.record n accts.user.key = some r → accts.owner ≠ accts.user.key →
      process rt (E.state n) ⟨T, .unlockTokens accts⟩ = .error (.blocklock .invalidOwner)) ∧
    (∀ r, E.record n accts.user.key = some r → accts.owner = accts.user.key →
      T < r.unlockTime →
      process rt (E.state n) ⟨T, .unlockTokens accts⟩ = .error (.blocklock .lockNotExpired)) ∧
    (∀ x, process rt (E.state n) ⟨T, .unlockTokens accts⟩ = .error x →
      step rt (E.state n) ⟨T, .unlockTokens accts⟩ = E.state n) ∧
    (∀ r now, E.record n accts.user.key = some r → E.Elapsed n now →
      r.unlockTime.toInt ≤ now.toInt + 86400 ∧
      (accts.owner = accts.user.key → now.toInt + 86400 ≤ T.toInt →
        (process rt (E.state n) ⟨T, .unlockTokens accts⟩).isOk = true ∧
        step rt (E.state n) ⟨T, .unlockTokens accts⟩ (rt.userLockInfoAddress accts.user.key) =
          some ⟨0, 0, accts.user.key⟩)) := by
  refine ⟨?_, ?_, ?_, ?_, ?_⟩
  · apply isOk_iff.trans
    constructor
    · rintro ⟨e, he⟩
      obtain ⟨_, r, hr, howner, hdue, _⟩ := process_unlock_eq_ok.mp he
      exact ⟨r, hr, howner.symm.trans (record_owner hr), hdue⟩
    · rintro ⟨r, hr, howner, hdue⟩
      exact ⟨_, process_unlock_eq_ok.mpr
        ⟨hw, r, hr, (record_owner hr).trans howner.symm, hdue, rfl⟩⟩
  · intro r hr howner
    apply process_unlock_invalidOwner hw hr
    intro h
    exact howner (h.symm.trans (record_owner hr))
  · intro r hr howner hearly
    exact process_unlock_lockNotExpired hw hr ((record_owner hr).trans howner.symm) hearly
  · intro x hx
    exact step_of_error hx
  · intro r now hr hn
    refine ⟨unlockTime_le hn hr, ?_⟩
    intro howner hT
    have hdue : r.unlockTime ≤ T := Int64.le_iff_toInt_le.mpr ((unlockTime_le hn hr).trans hT)
    have hok := process_unlock_eq_ok.mpr
      ⟨hw, r, hr, (record_owner hr).trans howner.symm, hdue, rfl⟩
    have hstep := step_self hok
    refine ⟨isOk_iff.mpr ⟨_, hok⟩, hstep.trans ?_⟩
    rw [record_owner hr]

/-- 100 USDC locked at 1000 s. -/
def pendingRun : Run testnet :=
  .ofList testnet [usdcClient.lockUSDC testnet 1000 0 100000000]

theorem pendingRun_accepts_exactly :
    process testnet (pendingRun.state 1) (usdcClient.unlockUSDC testnet 87399 0) =
      .error (.blocklock .lockNotExpired) ∧
    (process testnet (pendingRun.state 1) (usdcClient.unlockUSDC testnet 87400 0)).isOk = true := by
  have hr : pendingRun.record 1 usdcClient.wallet = some ⟨100000000, 87400, usdcClient.wallet⟩ := by
    decide
  have hw : (usdcClient.unlockAccounts testnet 0).WellFormed testnet :=
    Client.unlockAccounts_wellFormed
  obtain ⟨_, _, hearly, _, _⟩ := unlock_accepts_exactly pendingRun 1 _ 87399 hw
  obtain ⟨haccept, _, _, _, _⟩ := unlock_accepts_exactly pendingRun 1 _ 87400 hw
  exact ⟨hearly _ hr rfl (by decide), haccept.mpr ⟨_, hr, rfl, by decide⟩⟩

end BlockLockCore
