import BlockLockCore.Release

/-! Which asset a release concerns: the lock names a mint, the record does not keep it. -/
namespace BlockLockCore

open Checked Trace TimeLock

variable {Pubkey : Type} [DecidableEq Pubkey] {rt : Runtime Pubkey} {records : Records Pubkey}
  {E : Run rt} {u : Pubkey} {n : ℕ}

/-- A release names the mint of its lock and a token account of that mint. -/
def Run.SameAsset (E : Run rt) : Prop :=
  ∀ u accts a T n, E.Clears u accts a T n → 0 < a →
    ∀ k accts' s, E.LatestSuccess u k n → E.Locks u accts' a s k →
      accts.mint.key = accts'.mint.key ∧
      ∃ t, accts.userTokenAccount.data = .ok t ∧ t.mint = accts'.mint.key

/-- `lock_tokens` verifies that the token account is of the mint. -/
theorem mint_of_locks {accts : LockTokens Pubkey} {a : UInt64} {s : Int64}
    (h : E.Locks u accts a s n) :
    ∃ t, accts.userTokenAccount.data = .ok t ∧ t.mint = accts.mint.key := by
  obtain ⟨e, he⟩ := isOk_iff.mp h.2.2
  obtain ⟨t, ht, hmint⟩ := (process_lock_eq_ok.mp he).1.mintMatches
  exact ⟨t, ht, hmint.symm⟩

/-- The effect of a successful unlock does not involve the asset accounts. -/
theorem process_unlock_asset {accts : UnlockTokens Pubkey} {clock : Int64} {e : Effect Pubkey}
    {mint : Account Pubkey Mint} {token : Account Pubkey (TokenAccount Pubkey)}
    {t : TokenAccount Pubkey} (h : process rt records ⟨clock, .unlockTokens accts⟩ = .ok e)
    (hm : mint.data = .ok ()) (ht : token.data = .ok t) (hw : token.isWritable = true) :
    process rt records
      ⟨clock, .unlockTokens { accts with mint := mint, userTokenAccount := token }⟩ = .ok e := by
  obtain ⟨hf, hr⟩ := process_unlock_eq_ok.mp h
  apply process_unlock_eq_ok.mpr
  exact ⟨{ hf with tokenLoaded := ⟨t, ht⟩, mintLoaded := hm, tokenWritable := hw }, hr⟩

/--
A release follows a `lock_tokens` that named a mint and a token account of that mint. The release
names some mint account and some token account; the record keeps neither, and any other mint with
a token account of it would have released the same.
-/
theorem asset_of_release {accts : UnlockTokens Pubkey} {a : UInt64} {T : Int64}
    (h : E.Clears u accts a T n) (ha : 0 < a) :
    (∃ k accts' s, E.LatestSuccess u k n ∧ E.Locks u accts' a s k ∧
      ∃ t, accts'.userTokenAccount.data = .ok t ∧ t.mint = accts'.mint.key) ∧
    (accts.mint.data = .ok () ∧ ∃ t, accts.userTokenAccount.data = .ok t) ∧
    (∀ mint token t, mint.data = .ok () → token.data = .ok t → t.mint = mint.key →
      token.isWritable = true →
      process rt (E.state n)
          ⟨T, .unlockTokens { accts with mint := mint, userTokenAccount := token }⟩ =
        process rt (E.state n) ⟨T, .unlockTokens accts⟩) := by
  obtain ⟨e, he⟩ := isOk_iff.mp h.1.2.2
  have hf := (process_unlock_eq_ok.mp he).1
  refine ⟨?_, ⟨hf.mintLoaded, hf.tokenLoaded⟩, ?_⟩
  · obtain ⟨k, accts', s, hk, hlock, _⟩ := locks_of_clears h ha
    exact ⟨k, accts', s, hk, hlock, mint_of_locks hlock⟩
  · intro mint token t hm ht _ hw
    exact (process_unlock_asset he hm ht hw).trans he.symm

/-- 100 USDC locked, and released 24 hours later in the name of wrapped SOL. -/
def switchingRun : Run testnet :=
  .ofList testnet [usdcClient.lockUSDC testnet 1000 0 100000000,
    solClient.unlockUSDC testnet 87400 0]

theorem switchingRun_not_sameAsset : ¬ switchingRun.SameAsset := by
  intro h
  have hlock : switchingRun.Locks usdcClient.wallet (usdcClient.lockAccounts testnet 0)
      100000000 1000 0 := by
    refine ⟨rfl, rfl, ?_⟩
    decide
  have hclear : switchingRun.Clears usdcClient.wallet (solClient.unlockAccounts testnet 0)
      100000000 87400 1 := by
    refine ⟨⟨rfl, rfl, ?_⟩, ?_⟩ <;> decide
  have hlatest : switchingRun.LatestSuccess usdcClient.wallet 0 1 :=
    ⟨Nat.one_pos, ⟨_, hlock⟩, fun m hm hm' => by omega⟩
  obtain ⟨hmint, _⟩ := h _ _ _ _ 1 hclear (by decide) 0 _ _ hlatest hlock
  exact absurd hmint (by decide)

/-- The release of `releaseRun` would also go through in the name of wrapped SOL. -/
theorem releaseRun_asset :
    process testnet (releaseRun.state 1) (solClient.unlockUSDC testnet 87400 0) =
      process testnet (releaseRun.state 1) (usdcClient.unlockUSDC testnet 87400 0) :=
  (asset_of_release releaseRun_clears (by decide)).2.2 solClient.mintAccount (solClient.token 0)
    ⟨solClient.mint, solClient.wallet, 0⟩ rfl rfl rfl rfl

end BlockLockCore
