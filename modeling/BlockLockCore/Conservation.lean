import BlockLockCore.Client
import BlockLockCore.Refinement

/-! What becomes of the amounts a user locks. -/
namespace BlockLockCore

open Checked Trace TimeLock

variable {Pubkey : Type} [DecidableEq Pubkey] {rt : Runtime Pubkey} {E : Run rt}
  {u : Pubkey} {n : ℕ}

/-- The amount in the record of `u`, 0 without a record. -/
def Run.stored (E : Run rt) (u : Pubkey) (n : ℕ) : ℕ :=
  ((E.record n u).map fun r => r.lockedAmount.toNat).getD 0

/-- What `f` makes of instruction `n` if it is a successful one of `u`. -/
def Run.bySuccess (E : Run rt) (u : Pubkey) (f : Instruction Pubkey → ℕ) (n : ℕ) : ℕ :=
  match E.event n with
  | none => 0
  | some inv =>
    if inv.instruction.user.key = u ∧ (process rt (E.state n) inv).isOk = true then
      f inv.instruction
    else 0

/-- The amount of a successful `lock_tokens` of `u` at `n`. -/
def Run.locked (E : Run rt) (u : Pubkey) (n : ℕ) : ℕ :=
  E.bySuccess u (fun
    | .lockTokens _ amount => amount.toNat
    | .unlockTokens _ => 0) n

/-- The amount a successful `unlock_tokens` of `u` at `n` finds in the record. -/
def Run.cleared (E : Run rt) (u : Pubkey) (n : ℕ) : ℕ :=
  E.bySuccess u (fun
    | .lockTokens _ _ => 0
    | .unlockTokens _ => E.stored u n) n

/-- The amount a successful `lock_tokens` of `u` at `n` finds in the record. -/
def Run.replaced (E : Run rt) (u : Pubkey) (n : ℕ) : ℕ :=
  E.bySuccess u (fun
    | .lockTokens _ _ => E.stored u n
    | .unlockTokens _ => 0) n

theorem stored_eq_weigh (E : Run rt) (u : Pubkey) (n : ℕ) :
    E.stored u n = weigh Lock.weight (last E.deeds u n) := by
  cases hl : last E.deeds u n with
  | none => simp [Run.stored, record_eq_none_iff.mpr hl, weigh]
  | some d =>
    cases d with
    | lock l s =>
      obtain ⟨t, _, hr⟩ := record_of_lock hl
      simp [Run.stored, hr, weigh, Lock.weight]
    | unlock t => simp [Run.stored, record_of_unlock hl, weigh]

/-- Summing over successful instructions is summing over deeds. -/
theorem bySuccess_eq_shareAt {f : Instruction Pubkey → ℕ} {g : Deed (Lock Pubkey) ℤ → ℕ}
    (h : ∀ inv : Invocation Pubkey, g inv.deed = f inv.instruction) :
    E.bySuccess u f n = shareAt E.deeds u g n := by
  cases he : E.event n with
  | none =>
    have hd : E.deeds n = none := by simp [Run.deeds, he]
    simp only [Run.bySuccess, he, shareAt, hd]
  | some inv =>
    by_cases hs : inv.instruction.user.key = u ∧ (process rt (E.state n) inv).isOk = true
    · have hd := deeds_of_succeeds (E := E) ⟨he, hs⟩
      simp only [Run.bySuccess, he, if_pos hs, shareAt_self hd, h]
    · have hd : ∀ d, E.deeds n ≠ some ⟨u, d⟩ := by
        intro d hd
        obtain ⟨inv', ⟨he', hs'⟩, _⟩ := deeds_eq_some_iff.mp hd
        obtain rfl := Option.some.inj (he.symm.trans he')
        exact hs hs'
      simp only [Run.bySuccess, he, if_neg hs, shareAt_of_not hd]

/-- Everything locked was cleared by an unlock, replaced by a later lock, or is stored. -/
theorem locked_balance (E : Run rt) (u : Pubkey) (n : ℕ) :
    ∑ i ∈ Finset.range n, E.locked u i =
      ∑ i ∈ Finset.range n, E.cleared u i + ∑ i ∈ Finset.range n, E.replaced u i +
        E.stored u n := by
  have hl : ∀ i, E.locked u i = shareAt E.deeds u (putUp Lock.weight) i := by
    intro i
    apply bySuccess_eq_shareAt
    rintro ⟨clock, accts | accts⟩ <;> rfl
  have hc : ∀ i, E.cleared u i =
      shareAt E.deeds u (takenDown (weigh Lock.weight (last E.deeds u i))) i := by
    intro i
    apply bySuccess_eq_shareAt
    rintro ⟨clock, accts | accts⟩
    · rfl
    · exact (stored_eq_weigh E u i).symm
  have hr : ∀ i, E.replaced u i =
      shareAt E.deeds u (displaced (weigh Lock.weight (last E.deeds u i))) i := by
    intro i
    apply bySuccess_eq_shareAt
    rintro ⟨clock, accts | accts⟩
    · exact (stored_eq_weigh E u i).symm
    · rfl
  simp only [hl, hc, hr, stored_eq_weigh]
  exact weigh_balance Lock.weight E.deeds u n

theorem replaced_eq_zero_iff {i : ℕ} : E.replaced u i = 0 ↔
    ∀ accts amount clock, E.Locks u accts amount clock i → E.stored u i = 0 := by
  constructor
  · rintro h accts amount clock ⟨he, hs⟩
    simpa only [Run.replaced, Run.bySuccess, he, if_pos hs] using h
  · intro h
    cases he : E.event i with
    | none => simp only [Run.replaced, Run.bySuccess, he]
    | some inv =>
      rcases inv with ⟨clock, accts | accts⟩
      · have hl := h accts ‹_› clock
        simp only [Run.replaced, Run.bySuccess, he]
        split
        · exact hl ⟨he, ‹_›⟩
        · rfl
      · simp [Run.replaced, Run.bySuccess, he]

/--
The amounts `u` locked are those `u` cleared, those a later lock of `u` replaced and the one
stored. Without the replaced ones the account is exact precisely when no lock found an amount.
-/
theorem locked_amounts_accounted (E : Run rt) (u : Pubkey) (n : ℕ) :
    ∑ i ∈ Finset.range n, E.locked u i =
      ∑ i ∈ Finset.range n, E.cleared u i + ∑ i ∈ Finset.range n, E.replaced u i +
        E.stored u n ∧
    (∑ i ∈ Finset.range n, E.locked u i =
        ∑ i ∈ Finset.range n, E.cleared u i + E.stored u n ↔
      ∀ i, i < n → ∀ accts amount clock, E.Locks u accts amount clock i → E.stored u i = 0) := by
  have hb := locked_balance E u n
  have hzero : ∑ i ∈ Finset.range n, E.replaced u i = 0 ↔
      ∀ i, i < n → ∀ accts amount clock, E.Locks u accts amount clock i → E.stored u i = 0 := by
    simp only [Finset.sum_eq_zero_iff, Finset.mem_range, replaced_eq_zero_iff]
  refine ⟨hb, ?_⟩
  rw [← hzero]
  omega

/-- 100 USDC locked, and 40 USDC locked after the first lock was due but never unlocked. -/
def replacingRun : Run testnet :=
  .ofList testnet [usdcClient.lockUSDC testnet 1000 0 100000000,
    usdcClient.lockUSDC testnet 100000 0 40000000]

/-- Of 140 USDC locked, 40 are stored and none were cleared. -/
theorem replacingRun_not_conserved :
    ¬ ∑ i ∈ Finset.range 2, replacingRun.locked usdcClient.wallet i =
      ∑ i ∈ Finset.range 2, replacingRun.cleared usdcClient.wallet i +
        replacingRun.stored usdcClient.wallet 2 := by
  decide

end BlockLockCore
