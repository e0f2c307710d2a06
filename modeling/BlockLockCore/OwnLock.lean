import BlockLockCore.Custody

/-! What a wallet must do to keep its own lock covered; what others do does not matter. -/
namespace BlockLockCore

open Checked Trace TimeLock

variable {Pubkey : Type} [DecidableEq Pubkey] {rt : Runtime Pubkey} {controls : Pubkey → Bool}
  {start : ℤ} {tokens : Tokens Pubkey}

namespace ChainRun

/-- The wallet `u` locks no more against its account `k` than is there, and transfers nothing out
that its record locks. -/
structure Disciplined (C : ChainRun rt controls start tokens) (u k : Pubkey) : Prop where
  locks : ∀ n T accts b, C.event n = some ⟨T, .invoke (.lockTokens accts b)⟩ →
    accts.user.key = u → accts.userTokenAccount.key = k →
    (accts.load (C.state n).tokens).Accepted rt (C.state n).records T →
      b.toNat ≤ balance (C.state n).tokens k
  spends : ∀ n T t, C.event n = some ⟨T, .transfer t⟩ → t.authority = u → t.source = k →
    (transfer (C.state n).tokens t).isSome = true →
      C.counted n (max (C.state n).now T.toInt) k u + t.amount.toNat ≤
        balance (C.state n).tokens k

variable {C : ChainRun rt controls start tokens} {u k : Pubkey} {n : ℕ} {now : ℤ}

theorem owner_state (C : ChainRun rt controls start tokens) (n : ℕ) (k : Pubkey) :
    ((C.state n).tokens k).map TokenAccount.owner = (tokens k).map TokenAccount.owner := by
  induction n with
  | zero => rw [C.start, genesis]
  | succ n ih =>
    cases he : C.event n with
    | none => rw [C.next_none he, ih]
    | some e =>
      rw [C.next_some he]
      rcases step_cases rt controls (C.state n) e with ⟨htokens, _⟩ | ⟨T, t, _, _, ht, _⟩
      · rw [htokens, ih]
      · rw [(transfer_owners ht).2 k, ih]

/-- Nobody but its owner lowers the balance of an account. -/
theorem balance_succ {e : Timed Pubkey} (he : C.event n = some e) :
    balance (C.state n).tokens k ≤ balance (C.state (n + 1)).tokens k ∨
    ∃ T t, e = ⟨T, .transfer t⟩ ∧ t.source = k ∧
      (tokens k).map TokenAccount.owner = some t.authority ∧
      (transfer (C.state n).tokens t).isSome = true ∧
      balance (C.state (n + 1)).tokens k + t.amount.toNat = balance (C.state n).tokens k := by
  rw [C.next_some he]
  rcases step_cases rt controls (C.state n) e with ⟨htokens, _⟩ | ⟨T, t, rfl, _, ht, _⟩
  · rw [htokens]
    exact Or.inl le_rfl
  · rcases transfer_balance ht with ⟨_, hsame⟩ | ⟨_, hsource, hdest, hother⟩
    · rw [hsame]
      exact Or.inl le_rfl
    · by_cases hks : k = t.source
      · subst k
        have howner := (transfer_owners ht).1
        rw [owner_state C n] at howner
        exact Or.inr ⟨T, t, rfl, rfl, howner, by rw [ht, Option.isSome_some], hsource⟩
      · left
        by_cases hkd : k = t.destination
        · subst k
          omega
        · rw [hother k hks hkd]

/-- As time goes on without a deed of `u`, its record locks no more than before. -/
theorem counted_succ_of_not (h : ∀ d, C.program.deeds n ≠ some ⟨u, d⟩) {now' : ℤ}
    (hnow : now ≤ now') : C.counted (n + 1) now' k u ≤ C.counted n now k u := by
  rw [counted_eq_share, counted_eq_share, last_succ_of_not h]
  exact share_antitone hnow _

/-- A lock of `u` is covered by the balance that it finds. -/
theorem counted_succ_of_deed {d : Deed (Lock Pubkey) ℤ} (h : C.Disciplined u k)
    (hd : C.program.deeds n = some ⟨u, d⟩) :
    C.counted (n + 1) now k u ≤ balance (C.state n).tokens k := by
  rw [counted_eq_share, last_succ_self hd]
  cases d with
  | unlock t => exact Nat.zero_le _
  | lock l s =>
    obtain ⟨T, accts, he, ha, hu, hk, _⟩ := lock_of_deeds hd
    simp only [share]
    split_ifs with hcount
    · exact h.locks n T accts l.amount he hu (hk.trans hcount.1) ha
    · exact Nat.zero_le _

/--
In every run of the chain, a wallet that owns a token account and keeps to its discipline always
has there what its record still locks against the account. Transfers are by the owners of the
accounts: the wallet has approved no delegate.
-/
theorem own_lock_covered (C : ChainRun rt controls start tokens) (u k : Pubkey)
    (hk : (tokens k).map TokenAccount.owner = some u) (h : C.Disciplined u k) (n : ℕ) :
    C.counted n (C.state n).now k u ≤ balance (C.state n).tokens k := by
  induction n with
  | zero => exact Nat.zero_le _
  | succ n ih =>
    cases he : C.event n with
    | none =>
      have hd : ∀ d, C.program.deeds n ≠ some ⟨u, d⟩ := by
        intro d hd
        cases (deeds_of_none he).symm.trans hd
      rw [C.next_none he]
      exact (counted_succ_of_not hd le_rfl).trans ih
    | some e =>
      rw [now_succ he]
      by_cases hd : ∃ d, C.program.deeds n = some ⟨u, d⟩
      · obtain ⟨d, hd⟩ := hd
        obtain ⟨T, instruction | t⟩ := e
        · rw [(state_succ_invoke he).1]
          exact counted_succ_of_deed h hd
        · cases (deeds_of_transfer he).symm.trans hd
      · have hd : ∀ d, C.program.deeds n ≠ some ⟨u, d⟩ := fun d h => hd ⟨d, h⟩
        rcases balance_succ (k := k) he with hle | ⟨T, t, rfl, hsource, howner, hsome, hbalance⟩
        · have hkeep := counted_succ_of_not (k := k) hd
            (le_max_left (C.state n).now e.clock.toInt)
          exact hkeep.trans (ih.trans hle)
        · have hauth : t.authority = u := Option.some.inj (howner.symm.trans hk)
          have hspend := h.spends n T t he hauth hsource hsome
          have hkeep := counted_succ_of_not (k := k) hd
            (le_refl (max (C.state n).now T.toInt))
          change C.counted (n + 1) (max (C.state n).now T.toInt) k u ≤ _
          omega

end ChainRun

/-- The token account of the client with 100 USDC, and one of somebody else. -/
def fundedTokens : Tokens (BitVec 256) := fun k =>
  if k = 1 then some ⟨usdcClient.mint, 2, 0⟩ else walletTokens 100000000 k

/-- The client locks 60 USDC and then sends 40 USDC away. -/
def fundedRun :
    ChainRun testnet (fun k => k == testnet.userLockInfoAddress usdcClient.wallet) 0
      fundedTokens :=
  .ofList _ _ [⟨1000, .invoke (usdcClient.lockUSDC testnet 1000 0 60000000).instruction⟩,
    ⟨1001, .transfer ⟨usdcClient.wallet, usdcClient.userTokenAccount, 1, 40000000⟩⟩]

/-- The 40 USDC that left one account are in the other. -/
theorem fundedRun_custody :
    ∑ k ∈ {usdcClient.userTokenAccount, 1}, balance (fundedRun.state 2).tokens k =
      ∑ k ∈ {usdcClient.userTokenAccount, 1}, balance fundedTokens k := by
  have hclosed : ∀ n e, fundedRun.event n = some e → Closed {usdcClient.userTokenAccount, 1} e := by
    intro n e he T t ht
    rcases n with _ | _ | n
    · cases he
      cases ht
    · cases he
      cases ht
      decide
    · cases he
  exact ((ChainRun.custody_one_way fundedRun).1 _ hclosed 2).1

theorem fundedRun_disciplined :
    fundedRun.Disciplined usdcClient.wallet usdcClient.userTokenAccount where
  locks n T accts b he _ _ _ := by
    rcases n with _ | _ | n
    · cases he
      decide
    · cases he
    · cases he
  spends n T t he _ _ _ := by
    rcases n with _ | _ | n
    · cases he
    · cases he
      decide
    · cases he

/-- 60 USDC stay locked, and there. -/
theorem fundedRun_covered :
    fundedRun.counted 2 (fundedRun.state 2).now usdcClient.userTokenAccount usdcClient.wallet ≤
      balance (fundedRun.state 2).tokens usdcClient.userTokenAccount :=
  ChainRun.own_lock_covered fundedRun usdcClient.wallet usdcClient.userTokenAccount (by decide)
    fundedRun_disciplined 2

end BlockLockCore
