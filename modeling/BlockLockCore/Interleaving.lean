import BlockLockCore.Client
import BlockLockCore.Isolation

/-! The order in which the chain takes the instructions of different users does not matter. -/
namespace BlockLockCore

open Checked Trace

variable {Pubkey : Type} [DecidableEq Pubkey] {rt : Runtime Pubkey} {s : Records Pubkey}
  {run run' : List (Invocation Pubkey)} {k : Pubkey}

/-- No instruction writes anywhere but at the derived address of some user. -/
theorem step_elsewhere {inv : Invocation Pubkey} (h : ∀ u, k ≠ rt.userLockInfoAddress u) :
    step rt s inv k = s k := by
  cases hp : process rt s inv with
  | error x => rw [step_of_error hp]
  | ok e => rw [step_of_ok hp, Function.update_of_ne (h _)]

theorem foldl_elsewhere (run : List (Invocation Pubkey))
    (h : ∀ u, k ≠ rt.userLockInfoAddress u) : run.foldl (step rt) s k = s k := by
  induction run generalizing s with
  | nil => rfl
  | cons inv run ih => exact ih.trans (step_elsewhere h)

/-- The records of all users are all the records. -/
theorem foldl_eq_of_recordOf (h : ∀ u, recordOf rt u (run.foldl (step rt) s) =
    recordOf rt u (run'.foldl (step rt) s)) :
    run.foldl (step rt) s = run'.foldl (step rt) s := by
  funext k
  by_cases hk : ∃ u, k = rt.userLockInfoAddress u
  · obtain ⟨u, rfl⟩ := hk
    exact h u
  · have hk : ∀ u, k ≠ rt.userLockInfoAddress u := fun u hu => hk ⟨u, hu⟩
    exact (foldl_elsewhere run hk).trans (foldl_elsewhere run' hk).symm

/-- Another wallet with the same mint. -/
def otherClient : Client (BitVec 256) :=
  { usdcClient with wallet := 1, userTokenAccount := 2 }

/-- What an accepted instruction writes does not depend on what it finds. -/
theorem effect_unique {inv : Invocation Pubkey} {t : Records Pubkey} {e e' : Effect Pubkey}
    (h : process rt s inv = .ok e) (h' : process rt t inv = .ok e') : e = e' := by
  rcases inv with ⟨clock, accts | accts⟩
  · obtain ⟨_, rfl⟩ := process_lock_eq_ok.mp h
    obtain ⟨_, rfl⟩ := process_lock_eq_ok.mp h'
    rfl
  · obtain ⟨_, r, _, howner, _, rfl⟩ := process_unlock_eq_ok.mp h
    obtain ⟨_, r', _, howner', _, rfl⟩ := process_unlock_eq_ok.mp h'
    rw [howner, howner']

/-- A lock that is accepted somewhere is accepted, with the same effect, where there is a record. -/
theorem process_lock_of_some {accts : LockTokens Pubkey} {clock : Int64} {amount : UInt64}
    {t : Records Pubkey} {r : UserLockInfo Pubkey} {e : Effect Pubkey}
    (h : process rt s ⟨clock, .lockTokens accts amount⟩ = .ok e)
    (hr : t (rt.userLockInfoAddress accts.user.key) = some r) :
    process rt t ⟨clock, .lockTokens accts amount⟩ = .ok e := by
  obtain ⟨ha, he⟩ := process_lock_eq_ok.mp h
  refine process_lock_eq_ok.mpr ⟨{ ha with created := ?_ }, he⟩
  intro hnone
  rw [ha.derived, hr] at hnone
  cases hnone

/-- `j` is of the user of `i` and is accepted wherever `i` is. -/
structure Supersedes (rt : Runtime Pubkey) (i j : Invocation Pubkey) : Prop where
  user : j.instruction.user.key = i.instruction.user.key
  accepted : ∀ s e, process rt s i = .ok e → ∃ e', process rt s j = .ok e'

/-- What `j` is refused after `i`, it would have written itself. -/
theorem effect_of_refused {i j : Invocation Pubkey} (h : Supersedes rt i j) {e e' : Effect Pubkey}
    {x : Error} (hi : process rt s i = .ok e) (hj : process rt s j = .ok e')
    (hx : process rt (step rt s i) j = .error x) : e = e' := by
  have hself := step_self hi
  rcases i with ⟨clock, accts | accts⟩
  · obtain ⟨_, hj'⟩ := h.accepted _ _ (process_lock_of_some hi hself)
    cases hx.symm.trans hj'
  · rcases j with ⟨clock', accts' | accts'⟩
    · rw [← h.user] at hself
      cases hx.symm.trans (process_lock_of_some hj hself)
    · obtain ⟨_, r, hr, _, _, rfl⟩ := process_unlock_eq_ok.mp hi
      obtain ⟨_, r', hr', _, _, rfl⟩ := process_unlock_eq_ok.mp hj
      have hsame : accts'.user.key = accts.user.key := h.user
      rw [hsame] at hr'
      rw [Option.some.inj (hr.symm.trans hr')]

/-- A superseded instruction has no effect. -/
theorem step_superseded {i j : Invocation Pubkey} (h : Supersedes rt i j) :
    step rt (step rt s i) j = step rt s j := by
  cases hi : process rt s i with
  | error x => rw [step_of_error hi]
  | ok e =>
    obtain ⟨e', hj⟩ := h.accepted s e hi
    have hboth : step rt s j =
        Function.update s (rt.userLockInfoAddress i.instruction.user.key)
          (some e'.userLockInfo) := by
      rw [step_of_ok hj, h.user]
    cases hx : process rt (step rt s i) j with
    | error x => rw [step_of_error hx, hboth, step_of_ok hi, effect_of_refused h hi hj hx]
    | ok e'' =>
      rw [step_of_ok hx, hboth, step_of_ok hi, h.user, effect_unique hx hj,
        Function.update_idem]

/-- The same instruction at a later clock value that does not overflow is accepted wherever it
was. -/
theorem supersedes_later {instruction : Instruction Pubkey} {clock clock' : Int64}
    (hle : clock ≤ clock')
    (hrange : rt.overflowChecks = true → clock'.toInt + 86400 < 2 ^ 63) :
    Supersedes rt ⟨clock, instruction⟩ ⟨clock', instruction⟩ where
  user := rfl
  accepted s e h := by
    cases instruction with
    | lockTokens accts amount =>
      have ha := (process_lock_eq_ok.mp h).1
      exact ⟨_, process_lock_of_accepted { ha with inRange := hrange } amount⟩
    | unlockTokens accts =>
      obtain ⟨hw, r, hr, howner, hdue, _⟩ := process_unlock_eq_ok.mp h
      exact ⟨_, process_unlock_eq_ok.mpr ⟨hw, r, hr, howner, Int64.le_trans hdue hle, rfl⟩⟩

/--
Only the last of repeated attempts counts: two runs end in the same records, whatever the
interleaving, if every user signs the same instructions in the same order but for some that its
next one supersedes, such as the same instruction submitted again later on.
-/
theorem last_attempt_counts (rt : Runtime Pubkey) (s : Records Pubkey)
    (run run' : List (Invocation Pubkey))
    (h : ∀ u, Drops (Supersedes rt) (purge (SignedBy u) run) (purge (SignedBy u) run')) :
    run.foldl (step rt) s = run'.foldl (step rt) s := by
  apply foldl_eq_of_recordOf
  intro u
  apply view_foldl_of_drops (unwinds rt u) _ (h u)
  intro s i j hij
  rw [step_superseded hij]

/-- The client locks twice, with another wallet in between. -/
theorem last_attempt_counts_client :
    [usdcClient.lockUSDC testnet 1000 0 5, otherClient.lockUSDC testnet 1004 0 7,
      usdcClient.lockUSDC testnet 1009 0 5].foldl (step testnet) (noRecords _) =
    [otherClient.lockUSDC testnet 1004 0 7,
      usdcClient.lockUSDC testnet 1009 0 5].foldl (step testnet) (noRecords _) := by
  have hlater : Supersedes testnet (usdcClient.lockUSDC testnet 1000 0 5)
      (usdcClient.lockUSDC testnet 1009 0 5) := supersedes_later (by decide) fun _ => by decide
  have hmid : ∀ u, SignedBy u (usdcClient.lockUSDC testnet 1000 0 5) →
      ∀ e ∈ [otherClient.lockUSDC testnet 1004 0 7], ¬ SignedBy u e := by
    rintro u ⟨rfl, _⟩ e he ⟨hother, _⟩
    obtain rfl := List.mem_singleton.mp he
    exact absurd hother (by decide)
  have hdrops := drops_between hlater (fun u hu => hu) [] _ [] hmid
  exact last_attempt_counts testnet (noRecords _) _ _ hdrops

end BlockLockCore
