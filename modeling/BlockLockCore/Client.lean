import BlockLockCore.Run

/-! The requests of the repository's client, `app/src/lock_usdc.js`. -/
namespace BlockLockCore

open Checked Trace

variable {Pubkey : Type}

/-- A wallet, the mint it works with and its token account of that mint. -/
structure Client (Pubkey : Type) where
  wallet : Pubkey
  mint : Pubkey
  userTokenAccount : Pubkey

namespace Client
variable (c : Client Pubkey) (rt : Runtime Pubkey) (clock : Int64) (balance amount : UInt64)

/-- The wallet signs and pays. -/
def user : AccountInfo Pubkey := { key := c.wallet, isSigner := true, isWritable := true }

/-- `userLockInfoPDA`. -/
def userLockInfo : AccountInfo Pubkey :=
  { key := rt.userLockInfoAddress c.wallet, isSigner := false, isWritable := true }

/-- The token account of the wallet, created for the mint if need be. -/
def token : Account Pubkey (TokenAccount Pubkey) :=
  { key := c.userTokenAccount, isSigner := false, isWritable := true,
    data := .ok { mint := c.mint, owner := c.wallet, amount := balance } }

def mintAccount : Account Pubkey Mint :=
  { key := c.mint, isSigner := false, isWritable := false, data := .ok () }

/-- The accounts of `lockUSDC`, with lamports enough for the record. -/
def lockAccounts : LockTokens Pubkey where
  user := c.user
  userLockInfo := c.userLockInfo rt
  userTokenAccount := c.token balance
  mint := c.mintAccount
  systemProgram := rt.systemProgramId
  tokenProgram := rt.tokenProgramId
  rent := rt.rentId
  createAccount := .ok ()

/-- The accounts of `unlockUSDC`. -/
def unlockAccounts : UnlockTokens Pubkey where
  user := c.user
  userLockInfo := c.userLockInfo rt
  userTokenAccount := c.token balance
  mint := c.mintAccount
  tokenProgram := rt.tokenProgramId
  owner := c.wallet

def lockUSDC : Invocation Pubkey :=
  { clock := clock, instruction := .lockTokens (c.lockAccounts rt balance) amount }

def unlockUSDC : Invocation Pubkey :=
  { clock := clock, instruction := .unlockTokens (c.unlockAccounts rt balance) }

end Client

/--
A deployment to run the client on, built with the workspace's release profile. Keys are 32 bytes.
The derivation stands in for the hash of the runtime: it is one to one, and on `wallet` it gives
the real address.
-/
def testnet : Runtime (BitVec 256) where
  id := 0x1f26f0fe63a1b7b766d8279cd7097aeba8c684cc52eb295b16b9bcb89a0f0362#256
  overflowChecks := true
  systemProgramId := 0
  tokenProgramId := 0x06ddf6e1d765a193d9cbe146ceeb79ac1cb485ed5f5b37913a8cf5857eff00a9#256
  rentId := 0x06a7d517192c5c51218cc94c3d4af17f58daee089ba1fd44e3dbd98a00000000#256
  findProgramAddress seeds _ :=
    match seeds with
    | [.bytes _, .key user] =>
      user ^^^ 0xb30e4f981afe9760b9e04beab682b9b6be520d73c1d317f4ba5f22377c25257b#256
    | _ => 0
  addresses_distinct _ _ h := (BitVec.xor_left_inj _).mp h

/-- `ACCOUNT_PUBLIC_KEY` with `USDC_MINT_TESTNET`. -/
def usdcClient : Client (BitVec 256) where
  wallet := 0xbfc24801fa0583050f461cac4a1bc12e093098a7a72cea9e77d88f7cbd6a3b31#256
  mint := 0x36f844b64f2b7c16761eb1949991ca8a55d1b5858f947c666f9cfbb8f2ea2d5d#256
  userTokenAccount := 0x82e4f496ba8fe3cb8d86841f3fa99abca716241ab812fe696f57287f270d10f9#256

/-- The same wallet with the mint of wrapped SOL. -/
def solClient : Client (BitVec 256) where
  wallet := usdcClient.wallet
  mint := 0x069b8857feab8184fb687f634618c035dac439dc1aeb3b5598a0f00000000001#256
  userTokenAccount := 0xfd32c2006d1089bcff308771681b5acc986a5b949356af2422dbc1f050b3d355#256

namespace Client
variable {c : Client Pubkey} {rt : Runtime Pubkey} {clock : Int64} {balance amount : UInt64}
  {records : Records Pubkey}

theorem unlockAccounts_wellFormed : (c.unlockAccounts rt balance).WellFormed rt where
  signed := rfl
  tokenLoaded := ⟨_, rfl⟩
  mintLoaded := rfl
  tokenProgram := rfl
  userWritable := rfl
  derived := rfl
  recordWritable := rfl
  tokenWritable := rfl

theorem lockAccounts_accepted (h : rt.overflowChecks = true → clock.toInt + 86400 < 2 ^ 63) :
    (c.lockAccounts rt balance).Accepted rt records clock where
  signed := rfl
  mintLoaded := rfl
  systemProgram := rfl
  tokenProgram := rfl
  rent := rfl
  derived := rfl
  created _ := rfl
  recordWritable := rfl
  userWritable := rfl
  tokenWritable := rfl
  mintMatches := ⟨_, rfl, rfl⟩
  inRange := h

variable [DecidableEq Pubkey]

/-- The client can lock any amount at any time: its balance does not matter. -/
theorem lockUSDC_isOk_iff :
    (process rt records (c.lockUSDC rt clock balance amount)).isOk = true ↔
      (rt.overflowChecks = true → clock.toInt + 86400 < 2 ^ 63) := by
  apply isOk_iff.trans
  constructor
  · rintro ⟨e, he⟩
    exact (process_lock_eq_ok.mp he).1.inRange
  · intro h
    exact ⟨_, process_lock_of_accepted (lockAccounts_accepted h) amount⟩

/-- The client can unlock its own record exactly when it is due. -/
theorem unlockUSDC_isOk_iff :
    (process rt records (c.unlockUSDC rt clock balance)).isOk = true ↔
      ∃ r, records (rt.userLockInfoAddress c.wallet) = some r ∧ r.owner = c.wallet ∧
        r.unlockTime ≤ clock := by
  apply isOk_iff.trans
  constructor
  · rintro ⟨e, he⟩
    obtain ⟨_, r, hr, hown, hdue, _⟩ := process_unlock_eq_ok.mp he
    exact ⟨r, hr, hown, hdue⟩
  · rintro ⟨r, hr, hown, hdue⟩
    exact ⟨_, process_unlock_eq_ok.mpr ⟨unlockAccounts_wellFormed, r, hr, hown, hdue, rfl⟩⟩

theorem step_lockUSDC (h : rt.overflowChecks = true → clock.toInt + 86400 < 2 ^ 63) :
    step rt records (c.lockUSDC rt clock balance amount) (rt.userLockInfoAddress c.wallet) =
      some ⟨amount, clock + lockDuration, c.wallet⟩ :=
  step_self (process_lock_of_accepted (lockAccounts_accepted h) amount)

/-- `main` locks 100 USDC. -/
example : step testnet (noRecords _) (usdcClient.lockUSDC testnet 1000 0 100000000)
    (testnet.userLockInfoAddress usdcClient.wallet) =
      some ⟨100000000, 87400, usdcClient.wallet⟩ := by
  decide

theorem step_unlockUSDC {r : UserLockInfo Pubkey}
    (hr : records (rt.userLockInfoAddress c.wallet) = some r) (howner : r.owner = c.wallet)
    (hdue : r.unlockTime ≤ clock) :
    step rt records (c.unlockUSDC rt clock balance) (rt.userLockInfoAddress c.wallet) =
      some ⟨0, 0, c.wallet⟩ := by
  have hok : process rt records (c.unlockUSDC rt clock balance) = .ok ⟨⟨0, 0, r.owner⟩, []⟩ :=
    process_unlock_eq_ok.mpr ⟨unlockAccounts_wellFormed, r, hr, howner, hdue, rfl⟩
  rw [howner] at hok
  exact step_self hok

end Client

end BlockLockCore
