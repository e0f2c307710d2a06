import Mathlib.Tactic.Common

/-!
The accounts of the program and of one instruction (`lib.rs` 41-95).

The runtime, Anchor and the SPL Token program are outside the repository. What they hand to
the program is data of the instruction: keys, signer and writable flags, the outcome of
Anchor's own type check of each foreign account, and of paying for a new record.
-/
namespace BlockLockCore

/-- `lib.rs` 80-85. -/
structure UserLockInfo (Pubkey : Type) where
  lockedAmount : UInt64
  unlockTime : Int64
  owner : Pubkey
  deriving DecidableEq, Repr

/-- `lib.rs` 87-95. -/
inductive BlocklockError
  | lockNotExpired
  | invalidOwner
  | invalidMint
  deriving DecidableEq, Repr

def BlocklockError.msg : BlocklockError → String
  | .lockNotExpired => "The lock period has not expired yet"
  | .invalidOwner => "Invalid owner"
  | .invalidMint => "Invalid mint"

/-- Anchor numbers the errors of a program from 6000 in their declared order. -/
def BlocklockError.code : BlocklockError → ℕ
  | .lockNotExpired => 6000
  | .invalidOwner => 6001
  | .invalidMint => 6002

/-- A client can tell the three errors apart by text and by number. -/
theorem blocklockError_distinct (e f : BlocklockError) (h : e.msg = f.msg ∨ e.code = f.code) :
    e = f := by
  cases e <;> cases f <;> simp_all [BlocklockError.msg, BlocklockError.code]

/-- Rejections by the declared account constraints, before a handler runs. -/
inductive AnchorError
  | constraintMut
  | constraintSeeds
  | accountNotSigner
  | accountNotInitialized
  | accountOwnedByWrongProgram
  | accountDidNotDeserialize
  | invalidProgramId
  | accountSysvarMismatch
  deriving DecidableEq, Repr

inductive Error
  | blocklock (e : BlocklockError)
  | anchor (e : AnchorError)
  /-- In a build with `overflow-checks` an overflowing addition panics. -/
  | overflow
  /-- The System program refuses to create the record, for instance for want of lamports. -/
  | insufficientFunds
  deriving DecidableEq, Repr

/-- The fields of an SPL token account that the program or a transfer reads. -/
structure TokenAccount (Pubkey : Type) where
  mint : Pubkey
  owner : Pubkey
  amount : UInt64
  deriving DecidableEq, Repr

/-- An account as the runtime passes it. -/
structure AccountInfo (Pubkey : Type) where
  key : Pubkey
  isSigner : Bool
  isWritable : Bool
  deriving DecidableEq, Repr

/-- A foreign account, with what Anchor's check of its owner program and type gives. -/
structure Account (Pubkey α : Type) extends AccountInfo Pubkey where
  data : Except Error α

/-- No field of a mint account is read. -/
abbrev Mint := Unit

/-- `lib.rs` 41-59. -/
structure LockTokens (Pubkey : Type) where
  user : AccountInfo Pubkey
  userLockInfo : AccountInfo Pubkey
  userTokenAccount : Account Pubkey (TokenAccount Pubkey)
  mint : Account Pubkey Mint
  systemProgram : Pubkey
  tokenProgram : Pubkey
  rent : Pubkey
  /-- What creating the record at the user's expense gives, should it be needed. -/
  createAccount : Except Error Unit

/-- `lib.rs` 61-78. -/
structure UnlockTokens (Pubkey : Type) where
  user : AccountInfo Pubkey
  userLockInfo : AccountInfo Pubkey
  userTokenAccount : Account Pubkey (TokenAccount Pubkey)
  mint : Account Pubkey Mint
  tokenProgram : Pubkey
  owner : Pubkey

inductive Instruction (Pubkey : Type)
  | lockTokens (accounts : LockTokens Pubkey) (amount : UInt64)
  | unlockTokens (accounts : UnlockTokens Pubkey)

/-- An instruction together with `Clock::get()?.unix_timestamp` at its execution. -/
structure Invocation (Pubkey : Type) where
  clock : Int64
  instruction : Instruction Pubkey

inductive Seed (Pubkey : Type)
  | bytes (text : String)
  | key (k : Pubkey)

/-- `seeds = [b"user_lock_info", user.key().as_ref()]`, the same in both account structs. -/
def userLockInfoSeeds {Pubkey : Type} (user : Pubkey) : List (Seed Pubkey) :=
  [.bytes "user_lock_info", .key user]

/--
What the deployment fixes: the program's declared id and its build, the ids its account types demand
and the runtime's address derivation, assumed to give distinct users distinct addresses.
-/
structure Runtime (Pubkey : Type) where
  id : Pubkey
  /-- Whether the program is built with `overflow-checks`. The release profile of the repository's
  `Cargo.toml` sets them, but the program's own `Cargo.toml` is a workspace without that profile. -/
  overflowChecks : Bool
  systemProgramId : Pubkey
  tokenProgramId : Pubkey
  rentId : Pubkey
  findProgramAddress : List (Seed Pubkey) → Pubkey → Pubkey
  addresses_distinct : ∀ u v,
    findProgramAddress (userLockInfoSeeds u) id = findProgramAddress (userLockInfoSeeds v) id →
      u = v

namespace Runtime
variable {Pubkey : Type} (rt : Runtime Pubkey)

/-- The address the seeds of both account structs demand for the record of `user`. -/
def userLockInfoAddress (user : Pubkey) : Pubkey :=
  rt.findProgramAddress (userLockInfoSeeds user) rt.id

@[simp] theorem userLockInfoAddress_inj {u v : Pubkey} :
    rt.userLockInfoAddress u = rt.userLockInfoAddress v ↔ u = v :=
  ⟨rt.addresses_distinct u v, fun h => h ▸ rfl⟩

/-- A new account is zeroed, and the System program's id is the zero key. -/
def zeroed : UserLockInfo Pubkey :=
  { lockedAmount := 0, unlockTime := 0, owner := rt.systemProgramId }

end Runtime

/-- A transfer instruction of the SPL Token program. -/
structure Transfer (Pubkey : Type) where
  authority : Pubkey
  source : Pubkey
  destination : Pubkey
  amount : UInt64
  deriving DecidableEq, Repr

/-- What a handler leaves: the record Anchor writes back and the token transfers it invoked. -/
structure Effect (Pubkey : Type) where
  userLockInfo : UserLockInfo Pubkey
  transfers : List (Transfer Pubkey)
  deriving DecidableEq, Repr

/-- The accounts the program owns that hold a `UserLockInfo`, by address. -/
abbrev Records (Pubkey : Type) := Pubkey → Option (UserLockInfo Pubkey)

end BlockLockCore
