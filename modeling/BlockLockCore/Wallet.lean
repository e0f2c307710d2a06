import BlockLockCore.Client
import BlockLockCore.LedgerRun

/-!
What the client sends to the ledger and reads back (`app/src/lock_usdc.js`). The library it uses
orders the accounts by the client's copy of the IDL, and merges the flags of each key.
-/
namespace BlockLockCore

open Checked Trace Wire Storage Deployment

/-- The accounts that the IDL names, `lock_usdc.js` 34-54. -/
inductive AccountName
  | user
  | userLockInfo
  | userTokenAccount
  | mint
  | systemProgram
  | tokenProgram
  | rent
  | owner
  deriving DecidableEq, Repr

structure IdlAccount where
  name : AccountName
  isMut : Bool
  isSigner : Bool
  deriving DecidableEq, Repr

/-- `lock_usdc.js` 34-42. -/
def lockTokensIdl : List IdlAccount :=
  [⟨.user, true, true⟩, ⟨.userLockInfo, true, false⟩, ⟨.userTokenAccount, true, false⟩,
    ⟨.mint, false, false⟩, ⟨.systemProgram, false, false⟩, ⟨.tokenProgram, false, false⟩,
    ⟨.rent, false, false⟩]

/-- `lock_usdc.js` 47-54. -/
def unlockTokensIdl : List IdlAccount :=
  [⟨.user, true, true⟩, ⟨.userLockInfo, true, false⟩, ⟨.userTokenAccount, true, false⟩,
    ⟨.mint, false, false⟩, ⟨.tokenProgram, false, false⟩, ⟨.owner, false, false⟩]

/-- Why the client cannot show a record. -/
inductive FetchError
  | accountDoesNotExist
  | invalidAccountDiscriminator
  | outOfRange
  deriving DecidableEq, Repr

section
variable {Pubkey : Type}

/-- The accounts in the order of the IDL; one that is not given is an error of the client. -/
def accountMetas (given : AccountName → Option Pubkey) (idl : List IdlAccount) :
    Option (List (AccountInfo Pubkey)) :=
  idl.mapM fun a =>
    (given a.name).map fun key => { key := key, isSigner := a.isSigner, isWritable := a.isMut }

/-- `program.account.userLockInfo.fetch`. It does not look at the owner of the account. -/
def fetchUserLockInfo (key : Codec Pubkey) (a : RawAccount Pubkey) :
    Except FetchError (UserLockInfo Pubkey) := do
  require (a.lamports ≠ 0) .accountDoesNotExist
  require (a.data.take 8 = userLockInfoDiscriminator) .invalidAccountDiscriminator
  match (userLockInfoCodec key).decode (a.data.drop 8) with
  | some userLockInfo => .ok userLockInfo
  | none => .error .outOfRange

/-- `new Date(unlockTime * 1000).toLocaleString()`. A `Date` reaches 100000000 days from the epoch;
up to there the product is exact in a double, and beyond it is too large in any rounding. How a date
is written depends on where the client runs. -/
def dateText (toLocaleString : ℤ → String) (unlockTime : Int64) : String :=
  if (unlockTime.toInt * 1000).natAbs ≤ 8640000000000000 then
    toLocaleString (unlockTime.toInt * 1000)
  else "Invalid Date"

/-- The two texts on display. -/
structure LockStatus where
  lockedAmount : String
  unlockTime : String
  deriving DecidableEq, Repr

/-- `lock_usdc.js` 205-206. -/
def lockStatus (toLocaleString : ℤ → String) (lockedAmount : UInt64) (unlockTime : Int64) :
    LockStatus where
  lockedAmount := toString lockedAmount
  unlockTime := dateText toLocaleString unlockTime

namespace Client
variable (c : Client Pubkey) (rt : Runtime Pubkey)

/-- `lock_usdc.js` 152-160. -/
def lockUSDCAccounts : AccountName → Option Pubkey
  | .user => some c.wallet
  | .userLockInfo => some (rt.userLockInfoAddress c.wallet)
  | .userTokenAccount => some c.userTokenAccount
  | .mint => some c.mint
  | .systemProgram => some rt.systemProgramId
  | .tokenProgram => some rt.tokenProgramId
  | .rent => some rt.rentId
  | .owner => none

/-- `lock_usdc.js` 180-187. -/
def unlockUSDCAccounts : AccountName → Option Pubkey
  | .user => some c.wallet
  | .userLockInfo => some (rt.userLockInfoAddress c.wallet)
  | .userTokenAccount => some c.userTokenAccount
  | .mint => some c.mint
  | .tokenProgram => some rt.tokenProgramId
  | .owner => some c.wallet
  | .systemProgram | .rent => none

/-- `lock_usdc.js` 195-210. -/
def checkLockStatus (D : Deployment Pubkey) (toLocaleString : ℤ → String) (l : Ledger Pubkey) :
    Except FetchError LockStatus := do
  let userLockInfo ← fetchUserLockInfo D.key (l (D.userLockInfoAddress c.wallet))
  pure (lockStatus toLocaleString userLockInfo.lockedAmount userLockInfo.unlockTime)

end Client

/-- The accounts that the client names besides its record are what it takes them for: the mint is
a mint, and `createAssociatedTokenAccountIfNotExist` has seen to the token account. -/
structure Client.Loads (c : Client Pubkey) (D : Deployment Pubkey) (l : Ledger Pubkey) : Prop where
  token : ∃ t, D.loadToken (l c.userTokenAccount) = .ok t ∧ c.mint = t.mint
  mint : D.loadMint (l c.mint) = .ok ()

/-- `unlock_tokens` does not compare the mints. -/
structure Client.Opens (c : Client Pubkey) (D : Deployment Pubkey) (l : Ledger Pubkey) : Prop where
  token : ∃ t, D.loadToken (l c.userTokenAccount) = .ok t
  mint : D.loadMint (l c.mint) = .ok ()

theorem Client.Loads.opens {c : Client Pubkey} {D : Deployment Pubkey} {l : Ledger Pubkey}
    (h : c.Loads D l) : c.Opens D l where
  token := by
    obtain ⟨t, ht, _⟩ := h.token
    exact ⟨t, ht⟩
  mint := h.mint

end

variable {Pubkey : Type} [DecidableEq Pubkey]

/-- A transaction has each key once, with the flags of all its uses. The fee payer signs and is
charged. -/
def merged (feePayer : Pubkey) (metas : List (AccountInfo Pubkey)) (a : AccountInfo Pubkey) :
    AccountInfo Pubkey where
  key := a.key
  isSigner := decide (a.key = feePayer) || metas.any fun b => decide (b.key = a.key) && b.isSigner
  isWritable :=
    decide (a.key = feePayer) || metas.any fun b => decide (b.key = a.key) && b.isWritable

def compile (feePayer : Pubkey) (metas : List (AccountInfo Pubkey)) : List (AccountInfo Pubkey) :=
  metas.map (merged feePayer metas)

namespace Client

/-- The instruction that `lockUSDC` sends, `lock_usdc.js` 151-161. -/
def lockUSDCInstruction (c : Client Pubkey) (rt : Runtime Pubkey) (amount : UInt64) :
    Option (RawInstruction Pubkey) :=
  (accountMetas (c.lockUSDCAccounts rt) lockTokensIdl).map fun metas =>
    { accounts := compile c.wallet metas, data := (Request.lockTokens amount).bytes }

/-- The instruction that `unlockUSDC` sends, `lock_usdc.js` 179-188. -/
def unlockUSDCInstruction (c : Client Pubkey) (rt : Runtime Pubkey) :
    Option (RawInstruction Pubkey) :=
  (accountMetas (c.unlockUSDCAccounts rt) unlockTokensIdl).map fun metas =>
    { accounts := compile c.wallet metas, data := Request.unlockTokens.bytes }

end Client

section
variable {feePayer : Pubkey} {metas : List (AccountInfo Pubkey)} {a : AccountInfo Pubkey}

theorem isSigner_merged (ha : a ∈ metas) (h : a.isSigner = true) :
    (merged feePayer metas a).isSigner = true := by
  have hany : (metas.any fun b => decide (b.key = a.key) && b.isSigner) = true :=
    List.any_eq_true.mpr ⟨a, ha, by simp [h]⟩
  simp only [merged, hany, Bool.or_true]

theorem isWritable_merged (ha : a ∈ metas) (h : a.isWritable = true) :
    (merged feePayer metas a).isWritable = true := by
  have hany : (metas.any fun b => decide (b.key = a.key) && b.isWritable) = true :=
    List.any_eq_true.mpr ⟨a, ha, by simp [h]⟩
  simp only [merged, hany, Bool.or_true]

/-- Nobody signs but the fee payer and those who sign in some account. -/
theorem signer_of_compile (ha : a ∈ compile feePayer metas) (h : a.isSigner = true) :
    a.key = feePayer ∨ ∃ b ∈ metas, b.key = a.key ∧ b.isSigner = true := by
  obtain ⟨b, hb, rfl⟩ := List.mem_map.mp ha
  simpa [merged] using h

end

variable {D : Deployment Pubkey} {l : Ledger Pubkey} {c : Client Pubkey} {u : Pubkey}
  {r : UserLockInfo Pubkey} {ix : RawInstruction Pubkey} {clock : Int64} {amount : UInt64}

/-- The wallet has the lamports for the rent of a new record. -/
def Client.CanPay (c : Client Pubkey) (D : Deployment Pubkey) (l : Ledger Pubkey) : Prop :=
  D.rentDue l (D.userLockInfoAddress c.wallet) = 0 ∨
    ((l c.wallet).owner = D.systemProgramId ∧ (l c.wallet).data = [] ∧
      D.rentDue l (D.userLockInfoAddress c.wallet) ≤ (l c.wallet).lamports)

/-- The System program creates a missing record exactly when the wallet can pay. -/
theorem create_isOk_iff (hs : D.Sound l) (hw : D.canSign c.wallet)
    (hr : D.records l (D.userLockInfoAddress c.wallet) = none) :
    (∃ l₁, D.create l c.wallet (D.userLockInfoAddress c.wallet) = .ok l₁) ↔ c.CanPay D l := by
  have hunused := unused_of_none hs hw hr
  have hne : c.wallet ≠ D.userLockInfoAddress c.wallet := ne_userLockInfoAddress hw
  simp only [create, bind_eq_ok, require_eq_ok, exists_const, pure_eq_ok, hunused, and_self,
    true_and, ne_eq, hne, not_false_eq_true, or_true]
  constructor
  · rintro ⟨_, hfunds, _⟩
    exact hfunds
  · intro hfunds
    exact ⟨_, hfunds, rfl⟩

/-- What the program understands of the client's request to lock. -/
theorem lockUSDCInstruction_invocation (clock : Int64)
    (hix : c.lockUSDCInstruction D.toRuntime amount = some ix) (hs : D.Sound l)
    (hw : D.canSign c.wallet) :
    ∃ accts, D.invocation l clock ix = some ⟨clock, .lockTokens accts amount⟩ ∧
      accts.user.key = c.wallet ∧
      (accts.Accepted D.toRuntime (D.records l) clock ↔ c.Loads D l ∧
        (D.overflowChecks = true → clock.toInt + 86400 < 2 ^ 63) ∧
        (D.records l (D.userLockInfoAddress c.wallet) = none → c.CanPay D l)) := by
  cases hix
  refine ⟨_, invocation_of_lock (parseRequest_bytes (.lockTokens amount)) rfl, rfl, ?_⟩
  constructor
  · intro ha
    refine ⟨⟨ha.mintMatches, ha.mintLoaded⟩, ha.inRange, ?_⟩
    intro hr
    have hcreated := ha.created hr
    apply (create_isOk_iff hs hw hr).mp
    cases hc : D.create l c.wallet (D.userLockInfoAddress c.wallet) with
    | ok l₁ => exact ⟨l₁, rfl⟩
    | error x => simp [merged, hc] at hcreated
  · rintro ⟨hloads, hrange, hpay⟩
    obtain ⟨t, ht, hmint⟩ := hloads.token
    refine ⟨?_, hloads.mint, rfl, rfl, rfl, rfl, ?_, ?_, ?_, ?_, ⟨t, ht, hmint⟩, hrange⟩
    · exact isSigner_merged (List.mem_of_getElem? (i := 0) rfl) rfl
    · intro hr
      obtain ⟨l₁, hc⟩ := (create_isOk_iff hs hw hr).mpr (hpay hr)
      simp only [merged, hc]
    · exact isWritable_merged (List.mem_of_getElem? (i := 1) rfl) rfl
    · exact isWritable_merged (List.mem_of_getElem? (i := 0) rfl) rfl
    · exact isWritable_merged (List.mem_of_getElem? (i := 2) rfl) rfl

/-- What the program understands of the client's request to unlock. -/
theorem unlockUSDCInstruction_read (l : Ledger Pubkey)
    (hix : c.unlockUSDCInstruction D.toRuntime = some ix) :
    parseRequest ix.data = .ok (.request .unlockTokens) ∧
      ∃ accts, D.readUnlockTokens l ix.accounts = some accts ∧ accts.user.key = c.wallet ∧
        accts.owner = c.wallet ∧ (accts.WellFormed D.toRuntime ↔ c.Opens D l) := by
  cases hix
  refine ⟨parseRequest_bytes .unlockTokens, _, rfl, rfl, rfl, ?_⟩
  constructor
  · intro hwf
    exact ⟨hwf.tokenLoaded, hwf.mintLoaded⟩
  · intro hopens
    refine ⟨?_, hopens.token, hopens.mint, rfl, ?_, rfl, ?_, ?_⟩
    · exact isSigner_merged (List.mem_of_getElem? (i := 0) rfl) rfl
    · exact isWritable_merged (List.mem_of_getElem? (i := 0) rfl) rfl
    · exact isWritable_merged (List.mem_of_getElem? (i := 1) rfl) rfl
    · exact isWritable_merged (List.mem_of_getElem? (i := 2) rfl) rfl

/-- Only the wallet signs what the client sends. -/
theorem signed_compile {metas : List (AccountInfo Pubkey)} (hw : D.canSign c.wallet)
    (h : ∀ b ∈ metas, b.isSigner = true → b.key = c.wallet) :
    D.Signed (compile c.wallet metas) := by
  intro a ha hsigner
  rcases signer_of_compile ha hsigner with hkey | ⟨b, hb, hkey, hb'⟩
  · rwa [hkey]
  · rwa [← hkey, h b hb hb']

theorem signed_lockUSDCInstruction (hix : c.lockUSDCInstruction D.toRuntime amount = some ix)
    (hw : D.canSign c.wallet) : D.Signed ix.accounts := by
  cases hix
  apply signed_compile hw
  simp

theorem signed_unlockUSDCInstruction (hix : c.unlockUSDCInstruction D.toRuntime = some ix)
    (hw : D.canSign c.wallet) : D.Signed ix.accounts := by
  cases hix
  apply signed_compile hw
  simp

/-- Who sends the client's request to lock can sign for the wallet. -/
theorem canSign_of_signed (hix : c.lockUSDCInstruction D.toRuntime amount = some ix)
    (hsig : D.Signed ix.accounts) : D.canSign c.wallet := by
  cases hix
  apply hsig (merged c.wallet _ c.user) (List.mem_of_getElem? (i := 0) rfl)
  exact isSigner_merged (List.mem_of_getElem? (i := 0) rfl) rfl

/-- The ledger takes the client's request to lock unless its accounts do not load, the build checks
for overflow and the clock overflows, or a new record cannot be paid. -/
theorem lockUSDCInstruction_isOk_iff
    (hix : c.lockUSDCInstruction D.toRuntime amount = some ix) (hs : D.Sound l)
    (hw : D.canSign c.wallet) :
    (D.entry l clock ix).isOk = true ↔ c.Loads D l ∧
      (D.overflowChecks = true → clock.toInt + 86400 < 2 ^ 63) ∧
      (D.records l (D.userLockInfoAddress c.wallet) = none → c.CanPay D l) := by
  obtain ⟨accts, hinv, _, haccepted⟩ := lockUSDCInstruction_invocation clock hix hs hw
  rw [entry_isOk_iff hs (signed_lockUSDCInstruction hix hw) (not_idl_of_invocation hinv),
    ← haccepted, hinv]
  simp only [Option.some.injEq, exists_eq_left', isOk_iff, process_lock_eq_ok]
  constructor
  · rintro ⟨e, ha, _⟩
    exact ha
  · intro ha
    exact ⟨_, ha, rfl⟩

/-- The ledger takes the client's request to unlock exactly when its accounts load and its record
is due. -/
theorem unlockUSDCInstruction_isOk_iff (hix : c.unlockUSDCInstruction D.toRuntime = some ix)
    (hs : D.Sound l) (hw : D.canSign c.wallet)
    (howner : ∀ r, D.records l (D.userLockInfoAddress c.wallet) = some r → r.owner = c.wallet) :
    (D.entry l clock ix).isOk = true ↔ c.Opens D l ∧
      ∃ r, D.records l (D.userLockInfoAddress c.wallet) = some r ∧ r.unlockTime ≤ clock := by
  obtain ⟨hrequest, accts, hread, huser, hown, hwf⟩ := unlockUSDCInstruction_read l hix
  have hinv : D.invocation l clock ix = some ⟨clock, .unlockTokens accts⟩ :=
    invocation_of_unlock hrequest hread
  rw [entry_isOk_iff hs (signed_unlockUSDCInstruction hix hw) (not_idl_of_request hrequest), ← hwf,
    hinv, ← huser]
  rw [← huser] at howner hown
  simp only [Option.some.injEq, exists_eq_left', isOk_iff, process_unlock_eq_ok]
  constructor
  · rintro ⟨_, hopens, r, hr, _, hdue, _⟩
    exact ⟨hopens, r, hr, hdue⟩
  · rintro ⟨hopens, r, hr, hdue⟩
    exact ⟨_, hopens, r, hr, (howner r hr).trans hown.symm, hdue, rfl⟩

/-- Before its record is due, the ledger says so to the client. -/
theorem unlockUSDCInstruction_early (hix : c.unlockUSDCInstruction D.toRuntime = some ix)
    (hopens : c.Opens D l) (hr : D.records l (D.userLockInfoAddress c.wallet) = some r)
    (howner : r.owner = c.wallet) (hearly : clock < r.unlockTime) :
    D.entry l clock ix = .error (.declared (.blocklock .lockNotExpired)) := by
  obtain ⟨hrequest, accts, hread, huser, hown, hwf⟩ := unlockUSDCInstruction_read l hix
  rw [← huser] at hr
  simp only [entry, hrequest, ok_bind]
  exact unlockTokens_early hread (hwf.mpr hopens) hr (howner.trans hown.symm) hearly

/-- The client's library shows the records and nothing else: at the address of a user there is no
other account with the discriminator. -/
theorem fetchUserLockInfo_eq_ok (hs : D.Sound l) (hu : D.canSign u)
    (hrent : 0 < D.minimumBalance space) :
    fetchUserLockInfo D.key (l (D.userLockInfoAddress u)) = .ok r ↔
      D.records l (D.userLockInfoAddress u) = some r := by
  have hfetch : fetchUserLockInfo D.key (l (D.userLockInfoAddress u)) = .ok r ↔
      (l (D.userLockInfoAddress u)).lamports ≠ 0 ∧
      ∃ rest, (l (D.userLockInfoAddress u)).data = r.bytes D.key ++ rest := by
    rw [← tryDeserialize_eq_ok]
    simp only [fetchUserLockInfo, tryDeserialize, bind_eq_ok, require_eq_ok, exists_const,
      tryDeserializeUnchecked]
    have hlong : (l (D.userLockInfoAddress u)).data.take 8 = userLockInfoDiscriminator →
        8 ≤ (l (D.userLockInfoAddress u)).data.length := le_length_of_take rfl
    cases (userLockInfoCodec D.key).decode ((l (D.userLockInfoAddress u)).data.drop 8) with
    | none => simp
    | some r' =>
      simp only [Except.ok.injEq]
      constructor
      · rintro ⟨hlamports, htake, hr⟩
        exact ⟨hlamports, hlong htake, htake, hr⟩
      · rintro ⟨hlamports, _, htake, hr⟩
        exact ⟨hlamports, htake, hr⟩
  rw [hfetch, records_eq_some_iff]
  constructor
  · rintro ⟨_, rest, hdata⟩
    refine ⟨?_, rest, hdata⟩
    by_contra hne
    obtain ⟨_, hempty⟩ := hs.unused u hu fun htag => hne htag.1
    have hlen := congrArg List.length (hempty.symm.trans hdata)
    rw [List.length_append, length_bytes D.key_size] at hlen
    change 0 = 56 + _ at hlen
    omega
  · rintro ⟨howner, rest, hdata⟩
    have htag : D.Tagged (l (D.userLockInfoAddress u)) := tagged_of_bytes howner hdata
    obtain ⟨_, _, hlamports⟩ := hs.held _ htag
    exact ⟨by omega, rest, hdata⟩

end BlockLockCore
