import BlockLockCore.Chain
import BlockLockCore.Client

/-! Which runs of the chain keep the locked amounts backed by tokens. -/
namespace BlockLockCore

open Checked Trace TimeLock

variable {Pubkey : Type} [DecidableEq Pubkey] {rt : Runtime Pubkey} {controls : Pubkey → Bool}
  {start : ℤ} {tokens : Tokens Pubkey}

/-- Instructions of the program and transfers by owners, in any order. -/
abbrev ChainRun (rt : Runtime Pubkey) (controls : Pubkey → Bool) (start : ℤ)
    (tokens : Tokens Pubkey) :=
  Execution (genesis start tokens) (Chain.step rt controls)

/-- What the program sees of an action. -/
def Chain.invocation (c : Chain Pubkey) (e : Timed Pubkey) : Option (Invocation Pubkey) :=
  match e.action with
  | .invoke instruction => some ⟨e.clock, instruction.load c.tokens⟩
  | .transfer _ => none

theorem step_records (c : Chain Pubkey) (e : Timed Pubkey) :
    (c.step rt controls e).records = advance (step rt) c.records (c.invocation e) := by
  rcases e with ⟨clock, instruction | t⟩
  · rw [step_invoke]
    rfl
  · exact step_transfer_records c clock t

namespace ChainRun

/-- The run of the program inside the run of the chain. -/
def program (C : ChainRun rt controls start tokens) : Run rt :=
  C.project Chain.records Chain.invocation rfl step_records

/-- The amount the record of `u` locks against the token account `k`: its last success is a
`lock_tokens` naming `k`, and it is not due at `now`. -/
def counted (C : ChainRun rt controls start tokens) (n : ℕ) (now : ℤ) (k u : Pubkey) : ℕ :=
  match last C.program.deeds u n, C.program.record n u with
  | some (.lock l _), some r =>
    if l.tokenAccount = k ∧ now < r.unlockTime.toInt then r.lockedAmount.toNat else 0
  | _, _ => 0

/-- What all records lock against `k`. -/
def lockedAgainst (C : ChainRun rt controls start tokens) (n : ℕ) (now : ℤ) (k : Pubkey) : ℕ :=
  ∑ u ∈ users C.program.deeds n, C.counted n now k u

/-- What the records of the users other than `u` lock against `k`. -/
def lockedByOthers (C : ChainRun rt controls start tokens) (n : ℕ) (now : ℤ) (k u : Pubkey) : ℕ :=
  ∑ v ∈ (users C.program.deeds n).erase u, C.counted n now k v

/-- What is locked against an account is covered by its balance and the tokens held for it. -/
def Backed (C : ChainRun rt controls start tokens) (n : ℕ) : Prop :=
  ∀ k, C.lockedAgainst n (C.state n).now k ≤ (C.state n).funds k

/-- An accepted `lock_tokens` finds its amount in the account it names, besides what others have
locked against it. -/
def LockCovered (C : ChainRun rt controls start tokens) (n : ℕ) : Prop :=
  ∀ T accts b, C.event n = some ⟨T, .invoke (.lockTokens accts b)⟩ →
    (accts.load (C.state n).tokens).Accepted rt (C.state n).records T →
    max (C.state n).now T.toInt < (T + lockDuration).toInt →
      C.lockedByOthers n (max (C.state n).now T.toInt) accts.userTokenAccount.key accts.user.key +
        b.toNat ≤ (C.state n).funds accts.userTokenAccount.key

/-- A transfer out of an account leaves what is locked against it. -/
def SpendCovered (C : ChainRun rt controls start tokens) (n : ℕ) : Prop :=
  ∀ T t, C.event n = some ⟨T, .transfer t⟩ → (C.state n).Spends controls t →
    C.lockedAgainst n (max (C.state n).now T.toInt) t.source + t.amount.toNat ≤
      (C.state n).funds t.source

variable {C : ChainRun rt controls start tokens} {n : ℕ} {k u : Pubkey} {now now' : ℤ}

/-- The share of a last deed in what is locked against `k`. -/
def share (now : ℤ) (k _user : Pubkey) : Option (Deed (Lock Pubkey) ℤ) → ℕ
  | some (.lock l s) => if l.tokenAccount = k ∧ now < unlockTime s then l.weight else 0
  | some (.unlock _) | none => 0

theorem counted_eq_share :
    C.counted n now k u = share now k u (last C.program.deeds u n) := by
  unfold counted
  cases hl : last C.program.deeds u n with
  | none => rfl
  | some d =>
    cases d with
    | lock l s =>
      obtain ⟨t, ht, hr⟩ := record_of_lock hl
      simp only [hr, ht, share, Lock.weight]
    | unlock t => rfl

theorem lockedAgainst_eq_total :
    C.lockedAgainst n now k = total (share now k) C.program.deeds n :=
  Finset.sum_congr rfl fun _ _ => counted_eq_share

theorem lockedByOthers_eq_total :
    C.lockedByOthers n now k u = totalOthers u (share now k) C.program.deeds n :=
  Finset.sum_congr rfl fun _ _ => counted_eq_share

/-- As time goes on locks are only released. -/
theorem share_antitone (h : now ≤ now') (d : Option (Deed (Lock Pubkey) ℤ)) :
    share now' k u d ≤ share now k u d := by
  rcases d with _ | l | t
  · exact le_rfl
  · simp only [share]
    split_ifs with h₁ h₂
    · exact le_rfl
    · exact (h₂ ⟨h₁.1, h.trans_lt h₁.2⟩).elim
    · exact Nat.zero_le _
    · exact le_rfl
  · exact le_rfl

theorem lockedAgainst_antitone (h : now ≤ now') :
    C.lockedAgainst n now' k ≤ C.lockedAgainst n now k := by
  simp only [lockedAgainst_eq_total]
  exact total_mono fun _ d => share_antitone h d

theorem lockedByOthers_le : C.lockedByOthers n now k u ≤ C.lockedAgainst n now k := by
  rw [lockedByOthers_eq_total, lockedAgainst_eq_total, total_eq_add rfl]
  exact Nat.le_add_left _ _

/-- An observation without a deed locks nothing. -/
theorem lockedAgainst_succ_none (h : C.program.deeds n = none) :
    C.lockedAgainst (n + 1) now k = C.lockedAgainst n now k := by
  simp only [lockedAgainst_eq_total, total_succ_none h]

/-- A deed puts its own share in the place of its user's former one. -/
theorem lockedAgainst_succ_some {d : Deed (Lock Pubkey) ℤ}
    (h : C.program.deeds n = some ⟨u, d⟩) :
    C.lockedAgainst (n + 1) now k = share now k u (some d) + C.lockedByOthers n now k u := by
  simpa only [lockedAgainst_eq_total, lockedByOthers_eq_total] using total_succ_self rfl h

theorem program_event {e : Timed Pubkey} (he : C.event n = some e) :
    C.program.event n = (C.state n).invocation e := by
  simp only [program, Execution.project, he, Option.bind_some]

theorem deeds_of_transfer {T : Int64} {t : Transfer Pubkey}
    (he : C.event n = some ⟨T, .transfer t⟩) : C.program.deeds n = none := by
  simp [Run.deeds, program_event he, Chain.invocation]

theorem deeds_of_none (he : C.event n = none) : C.program.deeds n = none := by
  simp [Run.deeds, program, Execution.project, he]

theorem deeds_of_lock {T : Int64} {accts : LockTokens Pubkey} {b : UInt64}
    (he : C.event n = some ⟨T, .invoke (.lockTokens accts b)⟩)
    (ha : (accts.load (C.state n).tokens).Accepted rt (C.state n).records T) :
    C.program.deeds n = some ⟨accts.user.key,
      .lock ⟨b, accts.userTokenAccount.key, accts.mint.key⟩ T.toInt⟩ := by
  have hok := process_lock_of_accepted ha b
  exact deeds_of_succeeds ⟨program_event he, rfl, isOk_iff.mpr ⟨_, hok⟩⟩

/-- A lock deed comes from an accepted `lock_tokens` on the token accounts of the chain. -/
theorem lock_of_deeds {l : Lock Pubkey} {s : ℤ} (hd : C.program.deeds n = some ⟨u, .lock l s⟩) :
    ∃ T accts, C.event n = some ⟨T, .invoke (.lockTokens accts l.amount)⟩ ∧
      (accts.load (C.state n).tokens).Accepted rt (C.state n).records T ∧
      accts.user.key = u ∧ accts.userTokenAccount.key = l.tokenAccount ∧ T.toInt = s := by
  obtain ⟨inv, ⟨hev, hu, hok⟩, hinv⟩ := deeds_eq_some_iff.mp hd
  obtain ⟨e, hok⟩ := isOk_iff.mp hok
  rcases Option.bind_eq_some_iff.mp hev with ⟨⟨T, instruction | t⟩, he, hs⟩
  · cases hs
    cases instruction with
    | lockTokens accts b =>
      cases hinv
      exact ⟨T, accts, he, (process_lock_eq_ok.mp hok).1, hu, rfl, rfl⟩
    | unlockTokens accts => cases hinv
  · cases hs

theorem state_succ_invoke {T : Int64} {instruction : Instruction Pubkey}
    (he : C.event n = some ⟨T, .invoke instruction⟩) :
    (C.state (n + 1)).tokens = (C.state n).tokens ∧ (C.state (n + 1)).held = (C.state n).held := by
  rw [C.next_some he, step_invoke]
  exact ⟨rfl, rfl⟩

theorem now_succ {e : Timed Pubkey} (he : C.event n = some e) :
    (C.state (n + 1)).now = max (C.state n).now e.clock.toInt := by
  rw [C.next_some he, step_now]

theorem funds_succ_invoke {T : Int64} {instruction : Instruction Pubkey}
    (he : C.event n = some ⟨T, .invoke instruction⟩) :
    (C.state (n + 1)).funds k = (C.state n).funds k := by
  obtain ⟨htokens, hheld⟩ := state_succ_invoke he
  simp only [Chain.funds, htokens, hheld]

/-- What is backed stays so as time goes on. -/
theorem Backed.later (hb : C.Backed n) (k : Pubkey) (now : ℤ) :
    C.lockedAgainst n (max (C.state n).now now) k ≤ (C.state n).funds k :=
  (lockedAgainst_antitone (le_max_left _ _)).trans (hb k)

/-- An instruction keeps the chain backed if its lock is covered. -/
theorem backed_succ_invoke {T : Int64} {instruction : Instruction Pubkey}
    (he : C.event n = some ⟨T, .invoke instruction⟩) (hb : C.Backed n) (hl : C.LockCovered n) :
    C.Backed (n + 1) := by
  intro k
  have hold := hb.later k T.toInt
  rw [now_succ he, funds_succ_invoke he]
  cases hd : C.program.deeds n with
  | none =>
    simpa only [lockedAgainst_succ_none hd] using hold
  | some entry =>
    obtain ⟨u, d⟩ := entry
    have hothers := (lockedByOthers_le (u := u)).trans hold
    rw [lockedAgainst_succ_some hd]
    cases d with
    | unlock t => simpa only [share, Nat.zero_add] using hothers
    | lock l s =>
      simp only [share]
      split_ifs with hcount
      · obtain ⟨rfl, hlt⟩ := hcount
        obtain ⟨T', accts, he', ha, rfl, hk, rfl⟩ := lock_of_deeds hd
        cases he.symm.trans he'
        rw [← toInt_add_lockDuration] at hlt
        rw [Nat.add_comm, ← hk]
        exact hl T accts l.amount he ha hlt
      · simpa only [Nat.zero_add] using hothers

/-- A transfer keeps the chain backed if what it spends is covered. -/
theorem backed_succ_transfer {T : Int64} {t : Transfer Pubkey}
    (he : C.event n = some ⟨T, .transfer t⟩) (hb : C.Backed n) (hs : C.SpendCovered n) :
    C.Backed (n + 1) := by
  intro k
  have hold := hb.later k T.toInt
  rw [now_succ he, lockedAgainst_succ_none (deeds_of_transfer he), C.next_some he]
  by_cases hspend : (C.state n).Spends controls t ∧ k = t.source
  · obtain ⟨hspend, rfl⟩ := hspend
    have hfunds := funds_of_spends rt hspend T
    have hcover := hs T t he hspend
    change C.lockedAgainst n (max (C.state n).now T.toInt) t.source ≤ _
    omega
  · exact hold.trans (funds_of_not_spends T fun h hk => hspend ⟨h, hk⟩)

theorem backed_zero : C.Backed 0 := by
  intro k
  exact Nat.zero_le _

theorem backed_of_covered (h : ∀ n, C.LockCovered n ∧ C.SpendCovered n) (n : ℕ) :
    C.Backed n := by
  induction n with
  | zero => exact backed_zero
  | succ n ih =>
    cases he : C.event n with
    | none =>
      intro k
      simpa only [lockedAgainst_succ_none (deeds_of_none he), C.next_none he] using ih k
    | some e =>
      rcases e with ⟨T, instruction | t⟩
      · exact backed_succ_invoke he ih (h n).1
      · exact backed_succ_transfer he ih (h n).2

theorem lockCovered_of_backed (h : C.Backed (n + 1)) : C.LockCovered n := by
  intro T accts b he ha hlt
  have hk := h accts.userTokenAccount.key
  rw [toInt_add_lockDuration] at hlt
  rw [now_succ he, funds_succ_invoke he, lockedAgainst_succ_some (deeds_of_lock he ha), share,
    if_pos ⟨rfl, hlt⟩, Nat.add_comm] at hk
  exact hk

theorem spendCovered_of_backed (h : C.Backed (n + 1)) : C.SpendCovered n := by
  intro T t he hspend
  have hk := h t.source
  have hfunds := funds_of_spends rt hspend T
  rw [now_succ he, lockedAgainst_succ_none (deeds_of_transfer he), C.next_some he] at hk
  change C.lockedAgainst n (max (C.state n).now T.toInt) t.source ≤ _ at hk
  omega

/--
The instructions of the program move no tokens. So the locked amounts stay backed exactly when
every lock and every transfer out of an account is covered as it happens.
-/
theorem backed_iff_covered (C : ChainRun rt controls start tokens) :
    (∀ n T instruction, C.event n = some ⟨T, .invoke instruction⟩ →
      (C.state (n + 1)).tokens = (C.state n).tokens ∧
      (C.state (n + 1)).held = (C.state n).held) ∧
    ((∀ n, C.Backed n) ↔ ∀ n, C.LockCovered n ∧ C.SpendCovered n) := by
  refine ⟨?_, ?_, ?_⟩
  · intro n T instruction he
    exact state_succ_invoke he
  · intro h n
    exact ⟨lockCovered_of_backed (h (n + 1)), spendCovered_of_backed (h (n + 1))⟩
  · intro h n
    exact backed_of_covered h n

end ChainRun

/-- The token account of the client, of some balance. -/
def walletTokens (balance : UInt64) : Tokens (BitVec 256) := fun k =>
  if k = usdcClient.userTokenAccount then some ⟨usdcClient.mint, usdcClient.wallet, balance⟩
  else none

/-- The client locks 100 USDC and has none. -/
def unfundedRun :
    ChainRun testnet (fun k => k == testnet.userLockInfoAddress usdcClient.wallet) 0
      (walletTokens 0) :=
  .ofList _ _ [⟨1000, .invoke (usdcClient.lockUSDC testnet 1000 0 100000000).instruction⟩]

theorem unfundedRun_not_backed : ¬ ∀ n, unfundedRun.Backed n := by
  intro h
  have hk := h 1 usdcClient.userTokenAccount
  exact absurd hk (by decide)

end BlockLockCore
