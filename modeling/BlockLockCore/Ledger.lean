import BlockLockCore.Layout
import BlockLockCore.Program

/-!
The program on the accounts of the ledger: positional accounts and instruction data in, account
bytes out. The runtime, the System program and Anchor are outside the repository; what the
attributes of `lib.rs` 41-85 ask of them is written out here.
-/
namespace BlockLockCore

open Checked Wire

/-- An account as the ledger stores it. Lamports cannot overflow: their supply is fixed. -/
structure RawAccount (Pubkey : Type) where
  lamports : ℕ
  owner : Pubkey
  data : List UInt8

/-- Every address has an account; an unused one is empty and of the System program. -/
abbrev Ledger (Pubkey : Type) := Pubkey → RawAccount Pubkey

/-- A runtime that stores bytes. The two loads are those of the SPL Token program's types. -/
structure Storage (Pubkey : Type) extends Runtime Pubkey where
  key : Codec Pubkey
  key_size : key.size = 32
  key_zero : key.decode (List.replicate 32 0) = some systemProgramId
  id_ne_system : id ≠ systemProgramId
  /-- The keys that can sign at all. The program signs for none of the addresses it derives. -/
  canSign : Pubkey → Prop
  derived_cannot_sign : ∀ u, canSign u → ¬ canSign (toRuntime.userLockInfoAddress u)
  minimumBalance : ℕ → ℕ
  loadToken : RawAccount Pubkey → Except Error (TokenAccount Pubkey)
  loadMint : RawAccount Pubkey → Except Error Mint

/-- What the runtime hands to the entry point. -/
structure RawInstruction (Pubkey : Type) where
  accounts : List (AccountInfo Pubkey)
  data : List UInt8

namespace Storage
variable {Pubkey : Type} (D : Storage Pubkey)

/-- The runtime verified every signature. -/
def Signed (accounts : List (AccountInfo Pubkey)) : Prop :=
  ∀ a ∈ accounts, a.isSigner = true → D.canSign a.key

/-- An account of the program that claims to hold a record. -/
def Tagged (a : RawAccount Pubkey) : Prop :=
  a.owner = D.id ∧ a.data.take 8 = userLockInfoDiscriminator

/-- What claims to be a record is one, fills its account and pays its rent. The address of a user
without a record belongs to nobody else; users are the keys that can sign. -/
structure Sound (l : Ledger Pubkey) : Prop where
  held : ∀ k, D.Tagged (l k) →
    ∃ r : UserLockInfo Pubkey, (l k).data = r.bytes D.key ∧ D.minimumBalance space ≤ (l k).lamports
  unused : ∀ u, D.canSign u → ¬ D.Tagged (l (D.userLockInfoAddress u)) →
    (l (D.userLockInfoAddress u)).owner = D.systemProgramId ∧
      (l (D.userLockInfoAddress u)).data = []

/-- What the rest of the chain may do. Only this program writes to its accounts, and only it signs
for the derived addresses; lamports can be sent to any of them. -/
structure Outside (l l' : Ledger Pubkey) : Prop where
  kept : ∀ k, D.Tagged (l k) →
    (l' k).owner = (l k).owner ∧ (l' k).data = (l k).data ∧ (l k).lamports ≤ (l' k).lamports
  noForgery : ∀ k, ¬ D.Tagged (l k) → ¬ D.Tagged (l' k)
  unused : ∀ u, D.canSign u → ¬ D.Tagged (l (D.userLockInfoAddress u)) →
    (l' (D.userLockInfoAddress u)).owner = (l (D.userLockInfoAddress u)).owner ∧
      (l' (D.userLockInfoAddress u)).data = (l (D.userLockInfoAddress u)).data

end Storage

/--
The program as it is deployed. Anchor's IDL instructions, outside the repository, publish a
description of the program: they write accounts of their own, never a record, so that to the records
they are like the rest of the chain.
-/
structure Deployment (Pubkey : Type) extends Storage Pubkey where
  idlDispatch : Ledger Pubkey → List (AccountInfo Pubkey) → List UInt8 →
    Except EntryError (Ledger Pubkey)
  idl_outside : ∀ l accounts data l', toStorage.Sound l → toStorage.Signed accounts →
    idlDispatch l accounts data = .ok l' → toStorage.Outside l l'

def EntryError.anchor (e : AnchorError) : EntryError := .declared (.anchor e)

/-- Lifts a rejection the program declares. -/
def declared {α : Type} : Except Error α → Except EntryError α
  | .ok a => .ok a
  | .error e => .error (.declared e)

/-- Accounts are taken in declaration order. -/
def nextAccount {Pubkey : Type} :
    List (AccountInfo Pubkey) → Except EntryError (AccountInfo Pubkey × List (AccountInfo Pubkey))
  | [] => .error .accountNotEnoughKeys
  | info :: rest => .ok (info, rest)

variable {Pubkey : Type} [DecidableEq Pubkey]

namespace Storage
variable (D : Storage Pubkey) (l : Ledger Pubkey)

/-- `Account<UserLockInfo>`. -/
def loadUserLockInfo (a : RawAccount Pubkey) : Except EntryError (UserLockInfo Pubkey) := do
  require (¬ (a.owner = D.systemProgramId ∧ a.lamports = 0)) (.anchor .accountNotInitialized)
  require (a.owner = D.id) (.anchor .accountOwnedByWrongProgram)
  tryDeserialize D.key a.data

/-- What the payer owes: an address may hold lamports before it holds a record. -/
def rentDue (field : Pubkey) : ℕ :=
  if (l field).lamports = 0 then D.minimumBalance space
  else max (D.minimumBalance space) 1 - (l field).lamports

/-- The System program moves the rent, then allocates `space` zeroes and assigns them. -/
def create (payer field : Pubkey) : Except EntryError (Ledger Pubkey) := do
  require ((l field).lamports = 0 ∨ payer ≠ field) .tryingToInitPayerAsProgramAccount
  require (D.rentDue l field = 0 ∨ ((l payer).owner = D.systemProgramId ∧ (l payer).data = [] ∧
    D.rentDue l field ≤ (l payer).lamports)) (.declared .insufficientFunds)
  require ((l field).owner = D.systemProgramId ∧ (l field).data = []) (.declared .insufficientFunds)
  let due := D.rentDue l field
  let l := Function.update l payer { l payer with lamports := (l payer).lamports - due }
  pure (Function.update l field
    { lamports := (l field).lamports + due, owner := D.id, data := List.replicate space 0 })

/-- `init_if_needed, payer = user, space = space`. -/
def initIfNeeded (payer field : Pubkey) :
    Except EntryError (Ledger Pubkey × UserLockInfo Pubkey) := do
  let (l, userLockInfo) ←
    if (l field).owner = D.systemProgramId then do
      let l ← D.create l payer field
      let userLockInfo ← tryDeserializeUnchecked D.key (l field).data
      pure (l, userLockInfo)
    else do
      let userLockInfo ← D.loadUserLockInfo (l field)
      pure (l, userLockInfo)
  require ((l field).data.length = space) .constraintSpace
  require ((l field).owner = D.id) .constraintOwner
  require (D.minimumBalance space ≤ (l field).lamports) .constraintRentExempt
  pure (l, userLockInfo)

/-- Anchor's exit: the record goes back into the account it came from. -/
def exit (field : Pubkey) (userLockInfo : UserLockInfo Pubkey) :
    Except EntryError (Ledger Pubkey) := do
  let data ← trySerialize D.key userLockInfo (l field).data
  pure (Function.update l field { l field with data := data })

/-- `lock_tokens` with its accounts, `lib.rs` 10-25 and 41-59. -/
def enterLockTokens (clock : Int64) (accounts : List (AccountInfo Pubkey)) (amount : UInt64) :
    Except EntryError (Ledger Pubkey) := do
  let (user, accounts) ← nextAccount accounts
  require (user.isSigner = true) (.anchor .accountNotSigner)
  let (userLockInfo, accounts) ← nextAccount accounts
  let (userTokenAccount, accounts) ← nextAccount accounts
  let token ← declared (D.loadToken (l userTokenAccount.key))
  let (mint, accounts) ← nextAccount accounts
  declared (D.loadMint (l mint.key))
  let (systemProgram, accounts) ← nextAccount accounts
  require (systemProgram.key = D.systemProgramId) (.anchor .invalidProgramId)
  let (tokenProgram, accounts) ← nextAccount accounts
  require (tokenProgram.key = D.tokenProgramId) (.anchor .invalidProgramId)
  let (rent, _) ← nextAccount accounts
  require (rent.key = D.rentId) (.anchor .accountSysvarMismatch)
  require (userLockInfo.key = D.userLockInfoAddress user.key) (.anchor .constraintSeeds)
  let (l, record) ← D.initIfNeeded l user.key userLockInfo.key
  require (userLockInfo.isWritable = true) (.anchor .constraintMut)
  require (user.isWritable = true) (.anchor .constraintMut)
  require (userTokenAccount.isWritable = true) (.anchor .constraintMut)
  let accts : LockTokens Pubkey :=
    { user := user, userLockInfo := userLockInfo, mint := { toAccountInfo := mint, data := .ok () },
      userTokenAccount := { toAccountInfo := userTokenAccount, data := .ok token },
      systemProgram := systemProgram.key, tokenProgram := tokenProgram.key, rent := rent.key,
      createAccount := .ok () }
  let effect ← declared (lockTokens D.toRuntime accts token record clock amount)
  D.exit l userLockInfo.key effect.userLockInfo

/-- `unlock_tokens` with its accounts, `lib.rs` 27-38 and 61-78. -/
def enterUnlockTokens (clock : Int64) (accounts : List (AccountInfo Pubkey)) :
    Except EntryError (Ledger Pubkey) := do
  let (user, accounts) ← nextAccount accounts
  require (user.isSigner = true) (.anchor .accountNotSigner)
  let (userLockInfo, accounts) ← nextAccount accounts
  let record ← D.loadUserLockInfo (l userLockInfo.key)
  let (userTokenAccount, accounts) ← nextAccount accounts
  let _ ← declared (D.loadToken (l userTokenAccount.key))
  let (mint, accounts) ← nextAccount accounts
  declared (D.loadMint (l mint.key))
  let (tokenProgram, accounts) ← nextAccount accounts
  require (tokenProgram.key = D.tokenProgramId) (.anchor .invalidProgramId)
  let (owner, _) ← nextAccount accounts
  require (user.isWritable = true) (.anchor .constraintMut)
  require (userLockInfo.key = D.userLockInfoAddress user.key) (.anchor .constraintSeeds)
  require (userLockInfo.isWritable = true) (.anchor .constraintMut)
  require (record.owner = owner.key) (.declared (.blocklock .invalidOwner))
  require (userTokenAccount.isWritable = true) (.anchor .constraintMut)
  let effect ← declared (unlockTokens record clock)
  D.exit l userLockInfo.key effect.userLockInfo

/-- The records the ledger holds. -/
def records : Records Pubkey := fun k =>
  if (l k).owner = D.id then (tryDeserialize D.key (l k).data).toOption else none

/-- The positional accounts of `lock_tokens`; what lies behind them is left alone. -/
def readLockTokens : List (AccountInfo Pubkey) → Option (LockTokens Pubkey)
  | user :: userLockInfo :: userTokenAccount :: mint :: systemProgram :: tokenProgram :: rent ::
      _ =>
    some
      { user := user
        userLockInfo := userLockInfo
        userTokenAccount :=
          { toAccountInfo := userTokenAccount, data := D.loadToken (l userTokenAccount.key) }
        mint := { toAccountInfo := mint, data := D.loadMint (l mint.key) }
        systemProgram := systemProgram.key
        tokenProgram := tokenProgram.key
        rent := rent.key
        createAccount :=
          match D.create l user.key userLockInfo.key with
          | .ok _ => .ok ()
          | .error _ => .error .insufficientFunds }
  | _ => none

/-- The positional accounts of `unlock_tokens`. -/
def readUnlockTokens : List (AccountInfo Pubkey) → Option (UnlockTokens Pubkey)
  | user :: userLockInfo :: userTokenAccount :: mint :: tokenProgram :: owner :: _ =>
    some
      { user := user
        userLockInfo := userLockInfo
        userTokenAccount :=
          { toAccountInfo := userTokenAccount, data := D.loadToken (l userTokenAccount.key) }
        mint := { toAccountInfo := mint, data := D.loadMint (l mint.key) }
        tokenProgram := tokenProgram.key
        owner := owner.key }
  | _ => none

end Storage

namespace Deployment
variable (D : Deployment Pubkey) (l : Ledger Pubkey)

/-- The entry point: dispatch on the data, then the accounts, the handler and the exit. -/
def entry (clock : Int64) (ix : RawInstruction Pubkey) : Except EntryError (Ledger Pubkey) := do
  let dispatched ← parseRequest ix.data
  match dispatched with
  | .request (.lockTokens amount) => D.enterLockTokens l clock ix.accounts amount
  | .request .unlockTokens => D.enterUnlockTokens l clock ix.accounts
  | .idl data => D.idlDispatch l ix.accounts data

/-- A failed instruction is rolled back whole. -/
def execute (clock : Int64) (ix : RawInstruction Pubkey) : Ledger Pubkey :=
  match D.entry l clock ix with
  | .ok l' => l'
  | .error _ => l

/-- What the entry point is asked to do: the bytes as an instruction over the accounts. Anchor's IDL
instructions are none of `lib.rs`. -/
def invocation (clock : Int64) (ix : RawInstruction Pubkey) : Option (Invocation Pubkey) :=
  match parseRequest ix.data with
  | .ok (.request (.lockTokens amount)) =>
    (D.readLockTokens l ix.accounts).map fun accts => ⟨clock, .lockTokens accts amount⟩
  | .ok (.request .unlockTokens) =>
    (D.readUnlockTokens l ix.accounts).map fun accts => ⟨clock, .unlockTokens accts⟩
  | .ok (.idl _) | .error _ => none

end Deployment

end BlockLockCore
