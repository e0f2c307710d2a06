import BlockLockCore.Trace.Execution
import BlockLockCore.Trace.History
import BlockLockCore.Trace.Noninterference
import BlockLockCore.Trace.TimeLock
import BlockLockCore.Trace.Atomic
import BlockLockCore.Accounts
import BlockLockCore.Checked
import BlockLockCore.Program
import BlockLockCore.Run
import BlockLockCore.Refinement
import BlockLockCore.Client
import BlockLockCore.Release
import BlockLockCore.Unlock
import BlockLockCore.Isolation
import BlockLockCore.Interleaving
import BlockLockCore.Conservation
import BlockLockCore.Weakening
import BlockLockCore.Asset
import BlockLockCore.Chain
import BlockLockCore.Backing
import BlockLockCore.Custody
import BlockLockCore.OwnLock
import BlockLockCore.Lifetime
import BlockLockCore.Reachable
import BlockLockCore.Wire.Codec
import BlockLockCore.Layout
import BlockLockCore.Ledger
import BlockLockCore.LedgerRefinement
import BlockLockCore.LedgerRun
import BlockLockCore.Rent
import BlockLockCore.Wallet
import BlockLockCore.Session
import BlockLockCore.LedgerTransaction
import BlockLockCore.AssociatedToken
