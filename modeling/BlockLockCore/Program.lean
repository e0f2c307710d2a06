import BlockLockCore.Accounts
import BlockLockCore.Checked
import Mathlib.Logic.Function.Basic

/-! The two instructions: Anchor's declared account checks, then the handler (`lib.rs` 6-78). -/
namespace BlockLockCore

open Checked

section
variable {Pubkey : Type} [DecidableEq Pubkey] (rt : Runtime Pubkey) (records : Records Pubkey)

/-- `Account<UserLockInfo>`: only a record of this program loads. -/
def loadUserLockInfo (key : Pubkey) : Except Error (UserLockInfo Pubkey) :=
  match records key with
  | some userLockInfo => .ok userLockInfo
  | none => .error (.anchor .accountNotInitialized)

/-- `init_if_needed`, `payer = user`: a missing record is created zeroed, an existing one loads. -/
def LockTokens.initIfNeeded (accts : LockTokens Pubkey) : Except Error (UserLockInfo Pubkey) :=
  match records accts.userLockInfo.key with
  | some userLockInfo => .ok userLockInfo
  | none => do
    accts.createAccount
    pure rt.zeroed

/--
The constraints of `lib.rs` 41-59 in the order Anchor runs them: the accounts in declaration
order, then the seeds and the creation of the record, then `mut`.
-/
def LockTokens.tryAccounts (accts : LockTokens Pubkey) :
    Except Error (UserLockInfo Pubkey × TokenAccount Pubkey) := do
  require (accts.user.isSigner = true) (.anchor .accountNotSigner)
  let userTokenAccount ← accts.userTokenAccount.data
  accts.mint.data
  require (accts.systemProgram = rt.systemProgramId) (.anchor .invalidProgramId)
  require (accts.tokenProgram = rt.tokenProgramId) (.anchor .invalidProgramId)
  require (accts.rent = rt.rentId) (.anchor .accountSysvarMismatch)
  require (accts.userLockInfo.key = rt.userLockInfoAddress accts.user.key)
    (.anchor .constraintSeeds)
  let userLockInfo ← accts.initIfNeeded rt records
  require (accts.userLockInfo.isWritable = true) (.anchor .constraintMut)
  require (accts.user.isWritable = true) (.anchor .constraintMut)
  require (accts.userTokenAccount.isWritable = true) (.anchor .constraintMut)
  pure (userLockInfo, userTokenAccount)

/-- The constraints of `lib.rs` 61-78 in the order Anchor runs them. `owner` is unchecked but
for the `has_one` of the record. -/
def UnlockTokens.tryAccounts (accts : UnlockTokens Pubkey) :
    Except Error (UserLockInfo Pubkey) := do
  require (accts.user.isSigner = true) (.anchor .accountNotSigner)
  let userLockInfo ← loadUserLockInfo records accts.userLockInfo.key
  let _ ← accts.userTokenAccount.data
  accts.mint.data
  require (accts.tokenProgram = rt.tokenProgramId) (.anchor .invalidProgramId)
  require (accts.user.isWritable = true) (.anchor .constraintMut)
  require (accts.userLockInfo.key = rt.userLockInfoAddress accts.user.key)
    (.anchor .constraintSeeds)
  require (accts.userLockInfo.isWritable = true) (.anchor .constraintMut)
  require (userLockInfo.owner = accts.owner) (.blocklock .invalidOwner)
  require (accts.userTokenAccount.isWritable = true) (.anchor .constraintMut)
  pure userLockInfo

/-- 24 hours in seconds, `lib.rs` 18. -/
def lockDuration : Int64 := 24 * 60 * 60

/-- `lib.rs` 10-25. No cross-program call is made. -/
def lockTokens (accts : LockTokens Pubkey) (userTokenAccount : TokenAccount Pubkey)
    (userLockInfo : UserLockInfo Pubkey) (clock : Int64) (amount : UInt64) :
    Except Error (Effect Pubkey) := do
  require (accts.mint.key = userTokenAccount.mint) (.blocklock .invalidMint)
  let userLockInfo := { userLockInfo with lockedAmount := amount }
  match add rt.overflowChecks clock lockDuration with
  | none => .error .overflow
  | some unlockTime =>
    let userLockInfo := { userLockInfo with unlockTime := unlockTime }
    let userLockInfo := { userLockInfo with owner := accts.user.key }
    pure { userLockInfo := userLockInfo, transfers := [] }

/-- `lib.rs` 27-38. No cross-program call is made. -/
def unlockTokens (userLockInfo : UserLockInfo Pubkey) (clock : Int64) :
    Except Error (Effect Pubkey) := do
  require (clock ≥ userLockInfo.unlockTime) (.blocklock .lockNotExpired)
  let userLockInfo := { userLockInfo with lockedAmount := 0 }
  let userLockInfo := { userLockInfo with unlockTime := 0 }
  pure { userLockInfo := userLockInfo, transfers := [] }

/-- The instruction as Anchor dispatches it. -/
def process (inv : Invocation Pubkey) : Except Error (Effect Pubkey) :=
  match inv.instruction with
  | .lockTokens accts amount => do
    let (userLockInfo, userTokenAccount) ← accts.tryAccounts rt records
    lockTokens rt accts userTokenAccount userLockInfo inv.clock amount
  | .unlockTokens accts => do
    let userLockInfo ← accts.tryAccounts rt records
    unlockTokens userLockInfo inv.clock

/-- The account passed as `user_lock_info`, where Anchor writes the record back. -/
def Instruction.userLockInfo : Instruction Pubkey → AccountInfo Pubkey
  | .lockTokens accts _ => accts.userLockInfo
  | .unlockTokens accts => accts.userLockInfo

/-- The account passed as `user`. -/
def Instruction.user : Instruction Pubkey → AccountInfo Pubkey
  | .lockTokens accts _ => accts.user
  | .unlockTokens accts => accts.user

/-- A successful instruction writes its record back; a failed one is rolled back whole. -/
def step (inv : Invocation Pubkey) : Records Pubkey :=
  match process rt records inv with
  | .ok effect => Function.update records inv.instruction.userLockInfo.key
      (some effect.userLockInfo)
  | .error _ => records

end

variable {Pubkey : Type} {rt : Runtime Pubkey} {records : Records Pubkey}

theorem toInt_lockDuration : lockDuration.toInt = 86400 := by decide

theorem loadUserLockInfo_eq_ok {key : Pubkey} {r : UserLockInfo Pubkey} :
    loadUserLockInfo records key = .ok r ↔ records key = some r := by
  unfold loadUserLockInfo
  cases records key <;> simp

/-- All that `lock_tokens` checks. -/
structure LockTokens.Accepted (rt : Runtime Pubkey) (records : Records Pubkey)
    (accts : LockTokens Pubkey) (clock : Int64) : Prop where
  signed : accts.user.isSigner = true
  mintLoaded : accts.mint.data = .ok ()
  systemProgram : accts.systemProgram = rt.systemProgramId
  tokenProgram : accts.tokenProgram = rt.tokenProgramId
  rent : accts.rent = rt.rentId
  derived : accts.userLockInfo.key = rt.userLockInfoAddress accts.user.key
  created : records accts.userLockInfo.key = none → accts.createAccount = .ok ()
  recordWritable : accts.userLockInfo.isWritable = true
  userWritable : accts.user.isWritable = true
  tokenWritable : accts.userTokenAccount.isWritable = true
  mintMatches : ∃ t, accts.userTokenAccount.data = .ok t ∧ accts.mint.key = t.mint
  inRange : rt.overflowChecks = true → clock.toInt + 86400 < 2 ^ 63

/-- All that Anchor checks for `unlock_tokens` besides the record and its owner. -/
structure UnlockTokens.WellFormed (rt : Runtime Pubkey) (accts : UnlockTokens Pubkey) :
    Prop where
  signed : accts.user.isSigner = true
  tokenLoaded : ∃ t, accts.userTokenAccount.data = .ok t
  mintLoaded : accts.mint.data = .ok ()
  tokenProgram : accts.tokenProgram = rt.tokenProgramId
  userWritable : accts.user.isWritable = true
  derived : accts.userLockInfo.key = rt.userLockInfoAddress accts.user.key
  recordWritable : accts.userLockInfo.isWritable = true
  tokenWritable : accts.userTokenAccount.isWritable = true

theorem initIfNeeded_ok {accts : LockTokens Pubkey} :
    (∃ r, accts.initIfNeeded rt records = .ok r) ↔
      (records accts.userLockInfo.key = none → accts.createAccount = .ok ()) := by
  unfold LockTokens.initIfNeeded
  cases records accts.userLockInfo.key with
  | some r => simp
  | none => cases hc : accts.createAccount <;> simp

theorem unlockTokens_eq_ok {r : UserLockInfo Pubkey} {clock : Int64} {e : Effect Pubkey} :
    unlockTokens r clock = .ok e ↔ r.unlockTime ≤ clock ∧ e = ⟨⟨0, 0, r.owner⟩, []⟩ := by
  simp only [unlockTokens, bind_eq_ok, require_eq_ok, exists_const, ge_iff_le, pure_eq_ok]
  exact and_congr_right fun _ => eq_comm

variable [DecidableEq Pubkey]

/-- Whatever record is found or created, a lock overwrites all its fields. -/
theorem lockTokens_eq_ok {accts : LockTokens Pubkey} {t : TokenAccount Pubkey}
    {r : UserLockInfo Pubkey} {clock : Int64} {amount : UInt64} {e : Effect Pubkey} :
    lockTokens rt accts t r clock amount = .ok e ↔ accts.mint.key = t.mint ∧
      (rt.overflowChecks = true → clock.toInt + 86400 < 2 ^ 63) ∧
      e = ⟨⟨amount, clock + lockDuration, accts.user.key⟩, []⟩ := by
  have hlow := clock.le_toInt
  have hadd : ∀ due, add rt.overflowChecks clock lockDuration = some due ↔
      (rt.overflowChecks = true → clock.toInt + 86400 < 2 ^ 63) ∧ clock + lockDuration = due := by
    intro due
    rw [add_eq_some_iff, toInt_lockDuration]
    refine and_congr_left fun _ => forall_congr' fun _ => ?_
    omega
  simp only [lockTokens, bind_eq_ok, require_eq_ok, exists_const]
  refine and_congr_right fun _ => ?_
  cases h : add rt.overflowChecks clock lockDuration with
  | none =>
    have hno := (hadd (clock + lockDuration)).not.mp (by simp [h])
    constructor
    · intro he
      cases he
    · rintro ⟨hrange, _⟩
      exact (hno ⟨hrange, rfl⟩).elim
  | some due =>
    obtain ⟨hrange, rfl⟩ := (hadd due).mp h
    rw [pure_eq_ok, eq_comm]
    exact (and_iff_right hrange).symm

/-- A lock goes through exactly when accepted, and leaves nothing of the record it found. -/
theorem process_lock_eq_ok {accts : LockTokens Pubkey} {clock : Int64} {amount : UInt64}
    {e : Effect Pubkey} :
    process rt records ⟨clock, .lockTokens accts amount⟩ = .ok e ↔
      accts.Accepted rt records clock ∧
        e = ⟨⟨amount, clock + lockDuration, accts.user.key⟩, []⟩ := by
  have hinit : (∃ r, accts.initIfNeeded rt records = .ok r) ↔ _ := initIfNeeded_ok
  simp only [process, LockTokens.tryAccounts, bind_eq_ok, require_eq_ok, exists_const,
    pure_eq_ok, lockTokens_eq_ok]
  constructor
  · rintro ⟨_, ⟨hsig, t, ht, _, hm, hsys, htok, hrent, hder, r, hr, hrw, huw, htw, rfl⟩,
      hmint, hrange, he⟩
    exact ⟨⟨hsig, hm, hsys, htok, hrent, hder, hinit.mp ⟨r, hr⟩, hrw, huw, htw, ⟨t, ht, hmint⟩,
      hrange⟩, he⟩
  · rintro ⟨h, he⟩
    obtain ⟨t, ht, hmint⟩ := h.mintMatches
    obtain ⟨r, hr⟩ := hinit.mpr h.created
    exact ⟨(r, t), ⟨h.signed, t, ht, (), h.mintLoaded, h.systemProgram, h.tokenProgram, h.rent,
      h.derived, r, hr, h.recordWritable, h.userWritable, h.tokenWritable, rfl⟩, hmint, h.inRange,
      he⟩

theorem process_lock_of_accepted {accts : LockTokens Pubkey} {clock : Int64}
    (h : accts.Accepted rt records clock) (amount : UInt64) :
    process rt records ⟨clock, .lockTokens accts amount⟩ =
      .ok ⟨⟨amount, clock + lockDuration, accts.user.key⟩, []⟩ :=
  process_lock_eq_ok.mpr ⟨h, rfl⟩

/-- An unlock goes through exactly when the record exists, is of the owner passed and is due. -/
theorem process_unlock_eq_ok {accts : UnlockTokens Pubkey} {clock : Int64} {e : Effect Pubkey} :
    process rt records ⟨clock, .unlockTokens accts⟩ = .ok e ↔
      accts.WellFormed rt ∧ ∃ r, records (rt.userLockInfoAddress accts.user.key) = some r ∧
        r.owner = accts.owner ∧ r.unlockTime ≤ clock ∧ e = ⟨⟨0, 0, r.owner⟩, []⟩ := by
  simp only [process, UnlockTokens.tryAccounts, bind_eq_ok, require_eq_ok, exists_const,
    pure_eq_ok, loadUserLockInfo_eq_ok, unlockTokens_eq_ok]
  constructor
  · rintro ⟨_, ⟨hsig, r, hr, t, ht, _, hm, htok, huw, hder, hrw, hown, htw, rfl⟩, hdue, he⟩
    rw [hder] at hr
    exact ⟨⟨hsig, ⟨t, ht⟩, hm, htok, huw, hder, hrw, htw⟩, r, hr, hown, hdue, he⟩
  · rintro ⟨h, r, hr, hown, hdue, he⟩
    obtain ⟨t, ht⟩ := h.tokenLoaded
    rw [← h.derived] at hr
    exact ⟨r, ⟨h.signed, r, hr, t, ht, (), h.mintLoaded, h.tokenProgram, h.userWritable,
      h.derived, h.recordWritable, hown, h.tokenWritable, rfl⟩, hdue, he⟩

/-- With well-formed accounts and an existing record only `has_one` is left to check. -/
theorem tryAccounts_of_wellFormed {accts : UnlockTokens Pubkey} {r : UserLockInfo Pubkey}
    (h : accts.WellFormed rt) (hr : records (rt.userLockInfoAddress accts.user.key) = some r) :
    accts.tryAccounts rt records =
      (require (r.owner = accts.owner) (.blocklock .invalidOwner) >>= fun _ => .ok r) := by
  obtain ⟨t, ht⟩ := h.tokenLoaded
  rw [← h.derived] at hr
  simp only [UnlockTokens.tryAccounts, loadUserLockInfo_eq_ok.mpr hr, ht, h.mintLoaded,
    require_of h.signed, require_of h.tokenProgram, require_of h.userWritable,
    require_of h.derived, require_of h.recordWritable, require_of h.tokenWritable, ok_bind]
  rfl

/-- The owner passed is compared before the handler looks at the clock. -/
theorem process_unlock_invalidOwner {accts : UnlockTokens Pubkey} {clock : Int64}
    {r : UserLockInfo Pubkey} (h : accts.WellFormed rt)
    (hr : records (rt.userLockInfoAddress accts.user.key) = some r)
    (ho : r.owner ≠ accts.owner) :
    process rt records ⟨clock, .unlockTokens accts⟩ = .error (.blocklock .invalidOwner) := by
  simp only [process, tryAccounts_of_wellFormed h hr, require_of_not ho, error_bind]

theorem process_unlock_lockNotExpired {accts : UnlockTokens Pubkey} {clock : Int64}
    {r : UserLockInfo Pubkey} (h : accts.WellFormed rt)
    (hr : records (rt.userLockInfoAddress accts.user.key) = some r)
    (ho : r.owner = accts.owner) (ht : clock < r.unlockTime) :
    process rt records ⟨clock, .unlockTokens accts⟩ = .error (.blocklock .lockNotExpired) := by
  have hearly : ¬ clock ≥ r.unlockTime := Int64.not_le.mpr ht
  simp only [process, tryAccounts_of_wellFormed h hr, require_of ho, unlockTokens,
    require_of_not hearly, ok_bind, error_bind]

theorem process_transfers {inv : Invocation Pubkey} {e : Effect Pubkey}
    (h : process rt records inv = .ok e) : e.transfers = [] := by
  rcases inv with ⟨clock, accts | accts⟩
  · obtain ⟨_, rfl⟩ := process_lock_eq_ok.mp h
    rfl
  · obtain ⟨_, r, _, _, _, rfl⟩ := process_unlock_eq_ok.mp h
    rfl

/-- A successful instruction was signed and passed its signer's own record. -/
theorem process_user {inv : Invocation Pubkey} {e : Effect Pubkey}
    (h : process rt records inv = .ok e) : inv.instruction.user.isSigner = true ∧
      inv.instruction.userLockInfo.key = rt.userLockInfoAddress inv.instruction.user.key := by
  rcases inv with ⟨clock, accts | accts⟩
  · have ha := (process_lock_eq_ok.mp h).1
    exact ⟨ha.signed, ha.derived⟩
  · have hw := (process_unlock_eq_ok.mp h).1
    exact ⟨hw.signed, hw.derived⟩

theorem process_writable {inv : Invocation Pubkey} {e : Effect Pubkey}
    (h : process rt records inv = .ok e) : inv.instruction.userLockInfo.isWritable = true := by
  rcases inv with ⟨clock, accts | accts⟩
  · exact (process_lock_eq_ok.mp h).1.recordWritable
  · exact (process_unlock_eq_ok.mp h).1.recordWritable

theorem step_of_error {inv : Invocation Pubkey} {x : Error}
    (h : process rt records inv = .error x) : step rt records inv = records := by
  simp only [step, h]

theorem step_of_ok {inv : Invocation Pubkey} {e : Effect Pubkey}
    (h : process rt records inv = .ok e) : step rt records inv =
      Function.update records (rt.userLockInfoAddress inv.instruction.user.key)
        (some e.userLockInfo) := by
  simp only [step, h, (process_user h).2]

/-- Nobody but `u` as signing user touches the record of `u`. -/
theorem step_other {inv : Invocation Pubkey} {u : Pubkey} (hu : inv.instruction.user.key ≠ u) :
    step rt records inv (rt.userLockInfoAddress u) = records (rt.userLockInfoAddress u) := by
  cases h : process rt records inv with
  | error x => simp only [step_of_error h]
  | ok e =>
    have hne : rt.userLockInfoAddress u ≠ rt.userLockInfoAddress inv.instruction.user.key := by
      simpa using Ne.symm hu
    rw [step_of_ok h, Function.update_of_ne hne]

theorem step_self {inv : Invocation Pubkey} {e : Effect Pubkey}
    (h : process rt records inv = .ok e) :
    step rt records inv (rt.userLockInfoAddress inv.instruction.user.key) =
      some e.userLockInfo := by
  rw [step_of_ok h, Function.update_self]

/-- Every record lies at the derived address of its owner. -/
def Derived (rt : Runtime Pubkey) (records : Records Pubkey) : Prop :=
  ∀ k r, records k = some r → k = rt.userLockInfoAddress r.owner

/-- What a successful instruction writes is owned by its signing user: `lock_tokens` sets the
owner, `unlock_tokens` finds it. -/
theorem process_owner {inv : Invocation Pubkey} {e : Effect Pubkey} (hd : Derived rt records)
    (h : process rt records inv = .ok e) : e.userLockInfo.owner = inv.instruction.user.key := by
  rcases inv with ⟨clock, accts | accts⟩
  · obtain ⟨_, rfl⟩ := process_lock_eq_ok.mp h
    rfl
  · obtain ⟨_, r, hr, _, _, rfl⟩ := process_unlock_eq_ok.mp h
    have haddr := hd _ r hr
    exact (rt.userLockInfoAddress_inj.mp haddr).symm

theorem derived_step (hd : Derived rt records) (inv : Invocation Pubkey) :
    Derived rt (step rt records inv) := by
  cases hp : process rt records inv with
  | error x => simpa only [step_of_error hp] using hd
  | ok e =>
    intro k r hr
    by_cases hk : k = rt.userLockInfoAddress inv.instruction.user.key
    · subst k
      obtain rfl := Option.some.inj ((step_self hp).symm.trans hr)
      rw [process_owner hd hp]
    · rw [step_of_ok hp, Function.update_of_ne hk] at hr
      exact hd k r hr

end BlockLockCore
