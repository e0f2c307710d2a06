import BlockLockCore.Client
import BlockLockCore.Refinement

/-!
When a running lock can be weakened: by a smaller lock of the same user, and in a build without
overflow checks by a lock so late that its time wraps around.
-/
namespace BlockLockCore

open Checked Trace TimeLock

variable {Pubkey : Type} [DecidableEq Pubkey] {rt : Runtime Pubkey} {E : Run rt}
  {u : Pubkey} {n : ℕ}

/--
Once `lock_tokens(a)` of `u` has succeeded at clock `s`, the record of `u` holds at least `a`
until at least `s + 86400` after every later instruction that executes before that time.
-/
def Run.LockKept (E : Run rt) (u : Pubkey) : Prop :=
  ∀ k accts a s, E.Locks u accts a s k →
    ∀ n inv, k < n → E.event n = some inv → inv.clock.toInt < s.toInt + 86400 →
      ∃ r, E.record (n + 1) u = some r ∧ a ≤ r.lockedAmount ∧
        s.toInt + 86400 ≤ r.unlockTime.toInt

/-- An acceptable `lock_tokens` of `u` that meets a record not yet due neither lowers it nor
overflows the clock. -/
def Run.RelocksHold (E : Run rt) (u : Pubkey) : Prop :=
  ∀ n accts b T r, E.event n = some ⟨T, .lockTokens accts b⟩ → accts.user.key = u →
    accts.Accepted rt (E.state n) T → E.record n u = some r → T < r.unlockTime →
      r.lockedAmount ≤ b ∧ T.toInt + 86400 < 2 ^ 63

/-- An acceptable `lock_tokens` of `u` that overflows the clock ends the run. -/
def Run.OverflowsLast (E : Run rt) (u : Pubkey) : Prop :=
  ∀ n accts b T, E.event n = some ⟨T, .lockTokens accts b⟩ → accts.user.key = u →
    accts.Accepted rt (E.state n) T → 2 ^ 63 ≤ T.toInt + 86400 → ∀ m, n < m → E.event m = none

/-- An acceptable `lock_tokens` leaves its own amount and its own time. -/
theorem record_succ_of_accepted {accts : LockTokens Pubkey} {b : UInt64} {T : Int64}
    (he : E.event n = some ⟨T, .lockTokens accts b⟩)
    (ha : accts.Accepted rt (E.state n) T) :
    E.record (n + 1) accts.user.key = some ⟨b, T + lockDuration, accts.user.key⟩ :=
  (congrFun (E.next_some he) _).trans (step_self (process_lock_of_accepted ha b))

theorem keepsTerms_of_relocksHold (hc : E.ClockMonotone) (h : E.RelocksHold u) :
    KeepsTerms unlockTime Lock.weight E.deeds u := by
  intro n l t l' s hd hl ht
  obtain ⟨accts, clock, hlock, rfl, _⟩ := locks_of_deed hd
  obtain ⟨t', ht', hr⟩ := record_of_lock hl
  have hearly : clock < t' := Int64.lt_iff_toInt_lt.mpr (ht.trans_eq ht'.symm)
  obtain ⟨hamount, hrange⟩ :=
    h n accts l.amount clock _ hlock.1 hlock.2.1 (accepted_of_locks hlock) hr hearly
  obtain ⟨k, hk, hkd⟩ := last_eq_some_iff.mp hl
  obtain ⟨_, clock', _, rfl, _⟩ := locks_of_deed hkd
  have hs : clock'.toInt ≤ clock.toInt := deeds_ordered hc k n u u _ _ hk.1.le hkd hd
  have hnew := unlockTime_of_range hrange
  have hold := unlockTime_le_due clock'
  unfold due at hnew hold
  exact ⟨UInt64.le_iff_toNat_le.mp hamount, by omega⟩

/-- A lock that another instruction follows is due when its record says so. -/
theorem range_of_overflowsLast (h : E.OverflowsLast u) {accts : LockTokens Pubkey} {a : UInt64}
    {s : Int64} {k n : ℕ} {inv : Invocation Pubkey} (hk : E.Locks u accts a s k) (hkn : k < n)
    (hn : E.event n = some inv) : s.toInt + 86400 < 2 ^ 63 := by
  by_contra hrange
  have hend := h k accts a s hk.1 hk.2.1 (accepted_of_locks hk) (Int.not_lt.mp hrange) n hkn
  cases hn.symm.trans hend

theorem lockKept_of_relocksHold (hc : E.ClockMonotone) (h : E.RelocksHold u)
    (hlast : E.OverflowsLast u) : E.LockKept u := by
  intro k accts a s hk n inv hkn hn hclock
  have hstored := unlockTime_of_range (range_of_overflowsLast hlast hk hkn hn)
  have htimes : ∀ m, k < m → m < n + 1 → ∀ e, E.deeds m = some e →
      e.deed.time < unlockTime s.toInt := by
    rintro m _ hmn ⟨v, d⟩ hd
    obtain ⟨i, ⟨hi, _⟩, rfl⟩ := deeds_eq_some_iff.mp hd
    have hle := Int64.le_iff_toInt_le.mp (hc m n i inv (by omega) hi hn)
    have ht : i.deed.time ≤ inv.clock.toInt := (deed_time i).trans_le hle
    rw [hstored]
    exact ht.trans_lt hclock
  obtain ⟨l, s', hl, hweight, hs⟩ := stands_until_due (deeds_guarded E)
    (keepsTerms_of_relocksHold hc h) (deeds_of_succeeds hk) (by omega) htimes
  obtain ⟨t, ht, hr⟩ := record_of_lock hl
  refine ⟨_, hr, UInt64.le_iff_toNat_le.mpr hweight, ?_⟩
  change due s.toInt ≤ t.toInt
  rw [← hstored, ht]
  exact hs

theorem relocksHold_of_lockKept (h : E.LockKept u) : E.RelocksHold u := by
  intro n accts b T r he hu ha hr hearly
  subst u
  rcases record_origin hr with ⟨l, s, hl, hamount, htime⟩ | ⟨t, _, rfl⟩
  · obtain ⟨k, hk, hkd⟩ := last_eq_some_iff.mp hl
    obtain ⟨accts', clock, hlock, rfl, _⟩ := locks_of_deed hkd
    have hle := unlockTime_le_due clock
    have hclock : T.toInt < clock.toInt + 86400 :=
      ((Int64.lt_iff_toInt_lt.mp hearly).trans_eq htime).trans_le hle
    obtain ⟨r', hr', hkept, hdue⟩ := h k accts' l.amount clock hlock n _ hk.1 he hclock
    obtain rfl := Option.some.inj (hr'.symm.trans (record_succ_of_accepted he ha))
    rw [toInt_add_lockDuration] at hdue
    refine ⟨by rwa [← hamount], ?_⟩
    by_contra hrange
    have hwrap := unlockTime_of_wrap (Int.not_lt.mp hrange)
    omega
  · have hnegative : T.toInt < 0 := Int64.lt_iff_toInt_lt.mp hearly
    exact ⟨UInt64.zero_le, by omega⟩

/-- No stored time is as late as one that overflows. -/
theorem overflowsLast_of_lockKept (h : E.LockKept u) : E.OverflowsLast u := by
  intro n accts b T he hu ha hwrap m hnm
  subst u
  cases hm : E.event m with
  | none => rfl
  | some inv =>
    have hlock : E.Locks accts.user.key accts b T n :=
      ⟨he, rfl, isOk_iff.mpr ⟨_, process_lock_of_accepted ha b⟩⟩
    have hclock := inv.clock.toInt_lt
    obtain ⟨r, _, _, hdue⟩ := h n accts b T hlock m inv hnm hm (by omega)
    have hstored := r.unlockTime.toInt_lt
    omega

/--
The locks of `u` are kept exactly in the runs whose early relocks do not lower the amount, and in
which no lock overflows the clock but as the last instruction, on a record that is due. A build that
checks for overflow accepts no such lock.
-/
theorem lockKept_iff (hc : E.ClockMonotone) :
    E.LockKept u ↔ E.RelocksHold u ∧ E.OverflowsLast u := by
  constructor
  · intro h
    exact ⟨relocksHold_of_lockKept h, overflowsLast_of_lockKept h⟩
  · rintro ⟨hrelocks, hlast⟩
    exact lockKept_of_relocksHold hc hrelocks hlast

/-- 100 USDC locked at 1000 s, then nothing locked one second later. -/
def loweringRun : Run testnet :=
  .ofList testnet [usdcClient.lockUSDC testnet 1000 0 100000000,
    usdcClient.lockUSDC testnet 1001 0 0]

/-- The second lock releases the first, almost 24 hours early. -/
theorem loweringRun_not_lockKept :
    ¬ (loweringRun.ClockMonotone → ∀ u, loweringRun.LockKept u) := by
  intro h
  have hc : loweringRun.ClockMonotone := clockMonotone_ofList (by decide)
  have hfirst : loweringRun.Locks usdcClient.wallet (usdcClient.lockAccounts testnet 0)
      100000000 1000 0 := by
    refine ⟨rfl, rfl, ?_⟩
    decide
  obtain ⟨r, hr, hamount, _⟩ := h hc usdcClient.wallet 0 _ _ _ hfirst 1 _ Nat.one_pos rfl
    (by decide)
  have hlow : loweringRun.record 2 usdcClient.wallet = some ⟨0, 87401, usdcClient.wallet⟩ := by
    decide
  obtain rfl := Option.some.inj (hr.symm.trans hlow)
  exact absurd hamount (by decide)

/-- 100 USDC locked, 250 USDC locked before that is due. -/
def raisingRun : Run testnet :=
  .ofList testnet [usdcClient.lockUSDC testnet 1000 0 100000000,
    usdcClient.lockUSDC testnet 2000 0 250000000]

theorem raisingRun_lockKept : raisingRun.LockKept usdcClient.wallet := by
  apply (lockKept_iff (clockMonotone_ofList (by decide))).mpr
  constructor
  · intro n accts b T r he _ _ hr _
    rcases n with _ | _ | n
    · cases hr
    · cases he
      cases hr
      exact ⟨by decide, by decide⟩
    · cases he
  · intro n accts b T he _ ha hwrap
    have hrange := ha.inRange rfl
    omega

end BlockLockCore
