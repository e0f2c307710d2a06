import BlockLockCore.LedgerRefinement
import BlockLockCore.Refinement

/-! Whole runs of the ledger: everyone else's programs between the instructions of this one. -/
namespace BlockLockCore

open Checked Trace Wire Storage

variable {Pubkey : Type}

theorem Storage.outside_refl (D : Storage Pubkey) (l : Ledger Pubkey) : D.Outside l l :=
  ⟨fun _ _ => ⟨rfl, rfl, le_rfl⟩, fun _ h => h, fun _ _ _ => ⟨rfl, rfl⟩⟩

theorem Storage.sound_outside {D : Storage Pubkey} {l l' : Ledger Pubkey} (hs : D.Sound l)
    (h : D.Outside l l') : D.Sound l' where
  held k htag := by
    have htag' : D.Tagged (l k) := by
      by_contra hnot
      exact h.noForgery k hnot htag
    obtain ⟨_, hdata, hrent⟩ := h.kept k htag'
    obtain ⟨r, hr, hmin⟩ := hs.held k htag'
    exact ⟨r, hdata.trans hr, hmin.trans hrent⟩
  unused u hu htag := by
    have htag' : ¬ D.Tagged (l (D.userLockInfoAddress u)) := by
      intro ht
      obtain ⟨howner, hdata, _⟩ := h.kept _ ht
      exact htag ((tagged_congr howner hdata).mpr ht)
    obtain ⟨howner, hdata⟩ := h.unused u hu htag'
    obtain ⟨howner', hdata'⟩ := hs.unused u hu htag'
    exact ⟨howner.trans howner', hdata.trans hdata'⟩

/-- One of Anchor's IDL instructions. -/
def RawInstruction.Idl (ix : RawInstruction Pubkey) : Prop := ix.data.take 8 = idlDiscriminator

instance (ix : RawInstruction Pubkey) : Decidable ix.Idl :=
  inferInstanceAs (Decidable (_ = idlDiscriminator))

/-- The request without its accounts. -/
def Instruction.request : Instruction Pubkey → Request
  | .lockTokens _ amount => .lockTokens amount
  | .unlockTokens _ => .unlockTokens

/-- The owner or the data of an account changes. -/
def Touches (l l' : Ledger Pubkey) (k : Pubkey) : Prop :=
  (l' k).owner ≠ (l k).owner ∨ (l' k).data ≠ (l k).data

/-- An instruction with the clock it reads. -/
structure RawInvocation (Pubkey : Type) where
  clock : Int64
  instruction : RawInstruction Pubkey

variable [DecidableEq Pubkey]

/-- The ledger from the deployment on: instructions of the program, and whatever happens between
them. -/
structure LedgerRun (D : Deployment Pubkey) where
  ledger : ℕ → Ledger Pubkey
  event : ℕ → Option (RawInvocation Pubkey)
  sound : D.Sound (ledger 0)
  blank : ∀ k, ¬ D.Tagged (ledger 0 k)
  signed : ∀ n inv, event n = some inv → D.Signed inv.instruction.accounts
  next_some : ∀ n inv, event n = some inv →
    ledger (n + 1) = D.execute (ledger n) inv.clock inv.instruction
  next_none : ∀ n, event n = none → D.Outside (ledger n) (ledger (n + 1))

variable {D : Deployment Pubkey} {l l' : Ledger Pubkey} {clock : Int64}
  {ix : RawInstruction Pubkey} {k u : Pubkey} {m n : ℕ}

namespace Storage

theorem records_of_not_tagged (h : ¬ D.Tagged (l k)) : D.records l k = none := by
  cases hr : D.records l k with
  | none => rfl
  | some r => exact (h (tagged_of_record hr)).elim

/-- The rest of the chain is padding for the records. -/
theorem records_outside (h : D.Outside l l') : D.records l' = D.records l := by
  funext k
  by_cases htag : D.Tagged (l k)
  · obtain ⟨howner, hdata, _⟩ := h.kept k htag
    simp only [records, howner, hdata]
  · rw [records_of_not_tagged htag, records_of_not_tagged (h.noForgery k htag)]

end Storage

namespace Deployment

theorem execute_of_ok (h : D.entry l clock ix = .ok l') : D.execute l clock ix = l' := by
  simp only [execute, h]

theorem execute_of_error {x : EntryError} (h : D.entry l clock ix = .error x) :
    D.execute l clock ix = l := by
  simp only [execute, h]

omit [DecidableEq Pubkey] in
theorem parseRequest_of_idl (hidl : ix.Idl) :
    parseRequest ix.data = .ok (.idl (ix.data.drop 8)) :=
  parseRequest_eq_idl.mpr (eq_append_of_take hidl)

omit [DecidableEq Pubkey] in
theorem not_idl_of_request {q : Request} (h : parseRequest ix.data = .ok (.request q)) :
    ¬ ix.Idl := by
  intro hidl
  cases h.symm.trans (parseRequest_of_idl hidl)

/-- Anchor's IDL instructions are steps of the rest of the chain. -/
theorem entry_outside (hs : D.Sound l) (hsig : D.Signed ix.accounts) (hidl : ix.Idl)
    (h : D.entry l clock ix = .ok l') : D.Outside l l' := by
  simp only [entry, parseRequest_of_idl hidl, ok_bind] at h
  exact D.idl_outside l ix.accounts _ l' hs hsig h

theorem invocation_of_lock {accts : LockTokens Pubkey} {amount : UInt64}
    (h : parseRequest ix.data = .ok (.request (.lockTokens amount)))
    (hread : D.readLockTokens l ix.accounts = some accts) :
    D.invocation l clock ix = some ⟨clock, .lockTokens accts amount⟩ := by
  simp only [invocation, h, hread, Option.map_some]

theorem invocation_of_unlock {accts : UnlockTokens Pubkey}
    (h : parseRequest ix.data = .ok (.request .unlockTokens))
    (hread : D.readUnlockTokens l ix.accounts = some accts) :
    D.invocation l clock ix = some ⟨clock, .unlockTokens accts⟩ := by
  simp only [invocation, h, hread, Option.map_some]

theorem invocation_of_idl (hidl : ix.Idl) : D.invocation l clock ix = none := by
  simp only [invocation, parseRequest_of_idl hidl]

/-- A successful entry is a successful instruction on the records, and stores what it leaves. -/
theorem entry_sound (hs : D.Sound l) (hsig : D.Signed ix.accounts) (hidl : ¬ ix.Idl)
    (h : D.entry l clock ix = .ok l') :
    ∃ inv e l₁ r, D.invocation l clock ix = some inv ∧
      process D.toRuntime (D.records l) inv = .ok e ∧
      D.Loaded l inv.instruction.user.key (D.userLockInfoAddress inv.instruction.user.key) l₁ r ∧
      D.exit l₁ (D.userLockInfoAddress inv.instruction.user.key) e.userLockInfo = .ok l' := by
  simp only [entry, bind_eq_ok] at h
  obtain ⟨dispatched, hrequest, h⟩ := h
  rcases dispatched with (amount | _) | data
  · obtain ⟨accts, l₁, r, hlock⟩ := (enterLockTokens_eq_ok hs hsig).mp h
    exact ⟨_, _, l₁, r, invocation_of_lock hrequest hlock.read,
      process_lock_of_accepted hlock.accepted amount, hlock.loaded, hlock.exited⟩
  · obtain ⟨accts, r, hunlock⟩ := enterUnlockTokens_eq_ok.mp h
    exact ⟨_, _, l, r, invocation_of_unlock hrequest hunlock.read,
      process_unlock_eq_ok.mpr
        ⟨hunlock.wellFormed, r, hunlock.found, hunlock.owner, hunlock.due, rfl⟩,
      .found hunlock.found, hunlock.exited⟩
  · exact (hidl (by rw [RawInstruction.Idl, parseRequest_eq_idl.mp hrequest]; rfl)).elim

theorem entry_writes (hs : D.Sound l) (hsig : D.Signed ix.accounts) (hidl : ¬ ix.Idl)
    (h : D.entry l clock ix = .ok l') :
    ∃ inv e, D.invocation l clock ix = some inv ∧
      process D.toRuntime (D.records l) inv = .ok e ∧
      D.Writes l l' (D.userLockInfoAddress inv.instruction.user.key) e.userLockInfo := by
  obtain ⟨inv, e, l₁, r, hinv, hok, hloaded, hexit⟩ := entry_sound hs hsig hidl h
  exact ⟨inv, e, hinv, hok, writes_of_exit (prepared_of_loaded hs hloaded) hexit⟩

theorem entry_complete (hs : D.Sound l) (hsig : D.Signed ix.accounts) {inv : Invocation Pubkey}
    {e : Effect Pubkey} (hinv : D.invocation l clock ix = some inv)
    (h : process D.toRuntime (D.records l) inv = .ok e) : ∃ l', D.entry l clock ix = .ok l' := by
  unfold invocation at hinv
  split at hinv
  · rename_i hrequest
    obtain ⟨accts, hread, rfl⟩ := Option.map_eq_some_iff.mp hinv
    obtain ⟨l', l₁, r, hlock⟩ := locksTokens_of_process hs hread h
    have hentry := (enterLockTokens_eq_ok hs hsig).mpr ⟨accts, l₁, r, hlock⟩
    exact ⟨l', by simp only [entry, hrequest, ok_bind, hentry]⟩
  · rename_i hrequest
    obtain ⟨accts, hread, rfl⟩ := Option.map_eq_some_iff.mp hinv
    obtain ⟨l', r, hunlock⟩ := unlocksTokens_of_process hs hread h
    have hentry := enterUnlockTokens_eq_ok.mpr ⟨accts, r, hunlock⟩
    exact ⟨l', by simp only [entry, hrequest, ok_bind, hentry]⟩
  · cases hinv
  · cases hinv

theorem entry_isOk_iff (hs : D.Sound l) (hsig : D.Signed ix.accounts) (hidl : ¬ ix.Idl) :
    (D.entry l clock ix).isOk = true ↔ ∃ inv, D.invocation l clock ix = some inv ∧
      (process D.toRuntime (D.records l) inv).isOk = true := by
  simp only [isOk_iff]
  constructor
  · rintro ⟨l', h⟩
    obtain ⟨inv, e, _, _, hinv, hok, _⟩ := entry_sound hs hsig hidl h
    exact ⟨inv, hinv, e, hok⟩
  · rintro ⟨inv, hinv, e, hok⟩
    exact entry_complete hs hsig hinv hok

/-- One instruction on the bytes is one step, or none, of the records. -/
theorem records_execute (hs : D.Sound l) (hsig : D.Signed ix.accounts) :
    D.records (D.execute l clock ix) =
      advance (step D.toRuntime) (D.records l) (D.invocation l clock ix) := by
  by_cases hidl : ix.Idl
  · rw [invocation_of_idl hidl]
    cases h : D.entry l clock ix with
    | ok l' =>
      rw [execute_of_ok h]
      exact records_outside (entry_outside hs hsig hidl h)
    | error x =>
      rw [execute_of_error h]
      rfl
  cases h : D.entry l clock ix with
  | ok l' =>
    obtain ⟨inv, e, hinv, hok, hw⟩ := entry_writes hs hsig hidl h
    rw [execute_of_ok h, hinv, advance_some, step_of_ok hok]
    exact records_of_writes hw
  | error x =>
    rw [execute_of_error h]
    cases hinv : D.invocation l clock ix with
    | none => rfl
    | some inv =>
      cases hp : process D.toRuntime (D.records l) inv with
      | error y => exact (step_of_error hp).symm
      | ok e =>
        obtain ⟨l', hl'⟩ := entry_complete hs hsig hinv hp
        rw [h] at hl'
        cases hl'

theorem sound_execute (hs : D.Sound l) (hsig : D.Signed ix.accounts) :
    D.Sound (D.execute l clock ix) := by
  cases h : D.entry l clock ix with
  | error x => rwa [execute_of_error h]
  | ok l' =>
    rw [execute_of_ok h]
    by_cases hidl : ix.Idl
    · exact sound_outside hs (entry_outside hs hsig hidl h)
    · obtain ⟨_, _, _, _, hw⟩ := entry_writes hs hsig hidl h
      exact sound_of_writes hs hw

/-- The instruction is the one that the data asks for, about the accounts that were passed. -/
theorem invocation_cases {inv : Invocation Pubkey} (h : D.invocation l clock ix = some inv) :
    inv.clock = clock ∧ parseRequest ix.data = .ok (.request inv.instruction.request) ∧
      ∃ rest, ix.accounts = inv.instruction.user :: inv.instruction.userLockInfo :: rest := by
  unfold invocation at h
  split at h
  · rename_i hrequest
    obtain ⟨accts, hread, rfl⟩ := Option.map_eq_some_iff.mp h
    unfold readLockTokens at hread
    split at hread
    · rename_i haccounts
      cases hread
      exact ⟨rfl, hrequest, _, haccounts⟩
    · cases hread
  · rename_i hrequest
    obtain ⟨accts, hread, rfl⟩ := Option.map_eq_some_iff.mp h
    unfold readUnlockTokens at hread
    split at hread
    · rename_i haccounts
      cases hread
      exact ⟨rfl, hrequest, _, haccounts⟩
    · cases hread
  · cases h
  · cases h

/-- An instruction that means one of `lib.rs` is none of Anchor's. -/
theorem not_idl_of_invocation {inv : Invocation Pubkey} (h : D.invocation l clock ix = some inv) :
    ¬ ix.Idl := by
  obtain ⟨_, hrequest, _⟩ := invocation_cases h
  exact not_idl_of_request hrequest

end Deployment

open Deployment

namespace LedgerRun

theorem sound_ledger (R : LedgerRun D) (n : ℕ) : D.Sound (R.ledger n) := by
  induction n with
  | zero => exact R.sound
  | succ n ih =>
    cases he : R.event n with
    | none => exact sound_outside ih (R.next_none n he)
    | some inv =>
      rw [R.next_some n inv he]
      exact sound_execute ih (R.signed n inv he)

/-- The run of the records inside the run of the ledger. -/
def program (R : LedgerRun D) : Run D.toRuntime where
  state n := D.records (R.ledger n)
  event n := (R.event n).bind fun inv => D.invocation (R.ledger n) inv.clock inv.instruction
  start := by
    funext k
    exact records_of_not_tagged (R.blank k)
  next n := by
    cases he : R.event n with
    | none => exact records_outside (R.next_none n he)
    | some inv =>
      rw [R.next_some n inv he]
      exact records_execute (R.sound_ledger n) (R.signed n inv he)

/--
Every run of the ledger decodes to a run of the records, instruction by instruction, with the same
successes; Anchor's IDL instructions are padding. So all that holds of runs of the records holds of
the bytes.
-/
theorem refines_records (R : LedgerRun D) :
    ∃ E : Run D.toRuntime, (∀ n, E.state n = D.records (R.ledger n)) ∧
      (∀ n, R.event n = none → E.event n = none) ∧
      (∀ n inv, R.event n = some inv → inv.instruction.Idl → E.event n = none) ∧
      ∀ n inv, R.event n = some inv → ¬ inv.instruction.Idl →
        E.event n = D.invocation (R.ledger n) inv.clock inv.instruction ∧
        ((D.entry (R.ledger n) inv.clock inv.instruction).isOk = true ↔
          ∃ i, E.event n = some i ∧ (process D.toRuntime (E.state n) i).isOk = true) := by
  have hevent : ∀ n inv, R.event n = some inv →
      R.program.event n = D.invocation (R.ledger n) inv.clock inv.instruction := by
    intro n inv he
    simp only [program, he, Option.bind_some]
  refine ⟨R.program, fun n => rfl, ?_, ?_, ?_⟩
  · intro n he
    simp only [program, he, Option.bind_none]
  · intro n inv he hidl
    rw [hevent n inv he, invocation_of_idl hidl]
  · intro n inv he hidl
    refine ⟨hevent n inv he, ?_⟩
    rw [hevent n inv he]
    exact entry_isOk_iff (R.sound_ledger n) (R.signed n inv he) hidl

/--
At any time, an account of the program that carries the discriminator holds one record in exactly
the declared space, at the address of its owner and rent exempt; and the address of a user without
a record is unused.
-/
theorem stored_well_formed (R : LedgerRun D) (n : ℕ) :
    (∀ k, D.Tagged (R.ledger n k) → ∃ u amount due,
      k = D.userLockInfoAddress u ∧
      (R.ledger n k).data = UserLockInfo.bytes D.key ⟨amount, due, u⟩ ∧
      (R.ledger n k).data.length = space ∧
      D.minimumBalance space ≤ (R.ledger n k).lamports) ∧
    ∀ u, D.canSign u → ¬ D.Tagged (R.ledger n (D.userLockInfoAddress u)) →
      (R.ledger n (D.userLockInfoAddress u)).owner = D.systemProgramId ∧
      (R.ledger n (D.userLockInfoAddress u)).data = [] := by
  have hs := R.sound_ledger n
  refine ⟨?_, hs.unused⟩
  intro k htag
  obtain ⟨r, hr⟩ := record_of_tagged hs htag
  obtain ⟨hdata, hrent⟩ := data_of_record hs hr
  have hderived : k = D.userLockInfoAddress r.owner := records_derived R.program n k r hr
  refine ⟨r.owner, r.lockedAmount, r.unlockTime, hderived, hdata, ?_, hrent⟩
  rw [hdata, length_bytes D.key_size]

/--
Whatever accounts and data it is given, an instruction that is none of Anchor's IDL instructions
changes the owner and the data of at most one account: the record of a user who signs it, and which
it passes as writable.
-/
theorem writes_own_record_only (R : LedgerRun D) (n : ℕ) (inv : RawInvocation Pubkey)
    (he : R.event n = some inv) (hidl : ¬ inv.instruction.Idl) :
    (∀ k, Touches (R.ledger n) (R.ledger (n + 1)) k → ∃ u, k = D.userLockInfoAddress u ∧
      (∃ a ∈ inv.instruction.accounts, a.key = u ∧ a.isSigner = true) ∧
      ∃ a ∈ inv.instruction.accounts, a.key = k ∧ a.isWritable = true) ∧
    ∀ k k', Touches (R.ledger n) (R.ledger (n + 1)) k →
      Touches (R.ledger n) (R.ledger (n + 1)) k' → k = k' := by
  rw [R.next_some n inv he]
  have hs := R.sound_ledger n
  have hsig := R.signed n inv he
  cases h : D.entry (R.ledger n) inv.clock inv.instruction with
  | error x =>
    rw [execute_of_error h]
    have hnone : ∀ k, ¬ Touches (R.ledger n) (R.ledger n) k := by
      rintro k (howner | hdata)
      · exact howner rfl
      · exact hdata rfl
    exact ⟨fun k hk => (hnone k hk).elim, fun k k' hk => (hnone k hk).elim⟩
  | ok l' =>
    obtain ⟨i, e, hinv, hok, hw⟩ := entry_writes hs hsig hidl h
    obtain ⟨_, _, rest, haccounts⟩ := invocation_cases hinv
    have huser : i.instruction.user ∈ inv.instruction.accounts := by
      simp [haccounts]
    have hfield : i.instruction.userLockInfo ∈ inv.instruction.accounts := by
      simp [haccounts]
    obtain ⟨hsigner, hderived⟩ := process_user hok
    rw [execute_of_ok h]
    have honly : ∀ k, Touches (R.ledger n) l' k →
        k = D.userLockInfoAddress i.instruction.user.key := by
      intro k hk
      by_contra hne
      obtain ⟨howner, hdata⟩ := hw.frame k hne
      rcases hk with hk | hk
      · exact hk howner
      · exact hk hdata
    constructor
    · intro k hk
      obtain rfl := honly k hk
      exact ⟨_, rfl, ⟨_, huser, rfl, hsigner⟩, _, hfield, hderived, process_writable hok⟩
    · intro k k' hk hk'
      rw [honly k hk, honly k' hk']

end LedgerRun

end BlockLockCore
