import BlockLockCore.Session
import BlockLockCore.Trace.Atomic

/-!
Transactions of the ledger: instructions of this program and of any others in one batch, at one
clock value, executed whole or not at all. Other programs may call this one.
-/
namespace BlockLockCore

open Checked Trace Wire Storage Deployment

/-- This program is called, the signatures verified, or another one does to the ledger what others
can. -/
inductive LedgerAction {Pubkey : Type} (D : Deployment Pubkey)
  | call (ix : RawInstruction Pubkey) (hsig : D.Signed ix.accounts)
  | other (run : Ledger Pubkey → Option (Ledger Pubkey))
      (houtside : ∀ l l', run l = some l' → D.Outside l l')

/-- An instruction of this program, or of another one. What the other one does, and how it calls
this program on the way, may depend on the ledger that it finds. -/
inductive LedgerInstruction {Pubkey : Type} (D : Deployment Pubkey)
  | call (ix : RawInstruction Pubkey) (hsig : D.Signed ix.accounts)
  | other (script : Ledger Pubkey → List (LedgerAction D))

def LedgerInstruction.actions {Pubkey : Type} {D : Deployment Pubkey} :
    LedgerInstruction D → Ledger Pubkey → List (LedgerAction D)
  | .call ix hsig, _ => [.call ix hsig]
  | .other script, l => script l

/-- What the runtime itself does, taking the fee before or refusing the transaction in the end, is a
step of another program like any other. -/
structure LedgerTransaction {Pubkey : Type} (D : Deployment Pubkey) where
  clock : Int64
  instructions : List (LedgerInstruction D)

section
variable {Pubkey : Type} [DecidableEq Pubkey] {rt : Runtime Pubkey} {records : Records Pubkey}
  {u : Pubkey} {clock : Int64} {e : Effect Pubkey}

/-- The record of `u` is not due at `clock`. -/
def Standing (rt : Runtime Pubkey) (u : Pubkey) (clock : Int64) (records : Records Pubkey) :
    Prop :=
  ∃ r, records (rt.userLockInfoAddress u) = some r ∧ clock < r.unlockTime

/-- A lock at `clock` is not due at `clock`, unless its time wraps around. -/
theorem standing_of_lock {accts : LockTokens Pubkey} {amount : UInt64}
    (hclock : rt.overflowChecks = true ∨ clock.toInt + 86400 < 2 ^ 63)
    (h : process rt records ⟨clock, .lockTokens accts amount⟩ = .ok e) :
    Standing rt accts.user.key clock (step rt records ⟨clock, .lockTokens accts amount⟩) := by
  obtain ⟨haccepted, rfl⟩ := process_lock_eq_ok.mp h
  have hrange : clock.toInt + 86400 < 2 ^ 63 := hclock.elim haccepted.inRange id
  refine ⟨_, step_self h, ?_⟩
  apply Int64.lt_iff_toInt_lt.mpr
  rw [toInt_add_lockDuration, unlockTime_of_range hrange, due]
  omega

/-- While it stands the record is not released at this clock value. -/
theorem not_unlock_of_standing {accts : UnlockTokens Pubkey}
    (hs : Standing rt accts.user.key clock records) :
    process rt records ⟨clock, .unlockTokens accts⟩ ≠ .ok e := by
  intro h
  obtain ⟨_, r, hr, _, hdue, _⟩ := process_unlock_eq_ok.mp h
  obtain ⟨r', hr', htime⟩ := hs
  obtain rfl := Option.some.inj (hr.symm.trans hr')
  exact Int64.not_lt.mpr hdue htime

theorem standing_step {instruction : Instruction Pubkey}
    (hclock : rt.overflowChecks = true ∨ clock.toInt + 86400 < 2 ^ 63)
    (hs : Standing rt u clock records)
    (h : process rt records ⟨clock, instruction⟩ = .ok e) :
    Standing rt u clock (step rt records ⟨clock, instruction⟩) := by
  by_cases hu : instruction.user.key = u
  · subst u
    cases instruction with
    | lockTokens accts amount => exact standing_of_lock hclock h
    | unlockTokens accts => exact (not_unlock_of_standing hs h).elim
  · obtain ⟨r, hr, htime⟩ := hs
    exact ⟨r, (step_other hu).trans hr, htime⟩

end

/-- The calls of this program from time `m` on and before time `n`. -/
def LedgerRun.calls {Pubkey : Type} [DecidableEq Pubkey] {D : Deployment Pubkey} (R : LedgerRun D)
    (m n : ℕ) : List (RawInvocation Pubkey) :=
  (List.range' m (n - m)).filterMap R.event

namespace LedgerTransaction
variable {Pubkey : Type} {D : Deployment Pubkey}

/-- What was called, if it is this program. -/
def called : Int64 × LedgerAction D → Option (RawInvocation Pubkey)
  | (clock, .call ix _) => some ⟨clock, ix⟩
  | (_, .other _ _) => none

theorem called_eq_some {e : Int64 × LedgerAction D} {inv : RawInvocation Pubkey} :
    called e = some inv ↔ ∃ hsig, e = (inv.clock, .call inv.instruction hsig) := by
  rcases e with ⟨clock, ⟨ix, hsig⟩ | ⟨run, houtside⟩⟩
  · constructor
    · intro h
      cases h
      exact ⟨hsig, rfl⟩
    · rintro ⟨_, h⟩
      cases h
      rfl
  · constructor
    · intro h
      cases h
    · rintro ⟨_, h⟩
      cases h

variable [DecidableEq Pubkey] {l l' : Ledger Pubkey} {clock : Int64} {tx : LedgerTransaction D}

def attempt (l : Ledger Pubkey) : Int64 × LedgerAction D → Option (Ledger Pubkey)
  | (clock, .call ix _) => (D.entry l clock ix).toOption
  | (_, .other run _) => run l

/-- What an instruction does at this clock value. -/
def part (clock : Int64) (i : LedgerInstruction D) (l : Ledger Pubkey) :
    List (Int64 × LedgerAction D) :=
  (i.actions l).map fun a => (clock, a)

/-- What the instructions do one after the other, up to one that fails. -/
def script (tx : LedgerTransaction D) : Ledger Pubkey → List (Int64 × LedgerAction D) :=
  sequence attempt (tx.instructions.map (part tx.clock))

/-- The calls of this program, by the transaction or by other programs in it. -/
def calls (tx : LedgerTransaction D) (l : Ledger Pubkey) : List (RawInvocation Pubkey) :=
  (tx.script l).filterMap called

/-- No instruction fails. -/
def GoesThrough (tx : LedgerTransaction D) (l : Ledger Pubkey) : Prop :=
  (commit attempt l (tx.script l)).isSome = true

instance : Decidable (tx.GoesThrough l) :=
  inferInstanceAs (Decidable (_ = true))

/-- A transaction with an instruction that fails does nothing. -/
def execute (l : Ledger Pubkey) (tx : LedgerTransaction D) : Ledger Pubkey :=
  atomic attempt l tx.script

theorem orStay_call {ix : RawInstruction Pubkey} {hsig : D.Signed ix.accounts} :
    orStay attempt l (clock, .call ix hsig) = D.execute l clock ix := by
  cases h : D.entry l clock ix with
  | ok l' => simp only [orStay, attempt, h, execute_of_ok h, Except.toOption, Option.getD_some]
  | error x => simp only [orStay, attempt, h, execute_of_error h, Except.toOption, Option.getD_none]

theorem isSome_call {ix : RawInstruction Pubkey} {hsig : D.Signed ix.accounts} :
    (attempt l (clock, .call ix hsig)).isSome = (D.entry l clock ix).isOk := by
  simp only [attempt]
  cases D.entry l clock ix <;> rfl

/-- What is not of this program is outside of it. -/
theorem outside_orStay {e : Int64 × LedgerAction D} (h : called e = none) :
    D.Outside l (orStay attempt l e) := by
  rcases e with ⟨clock, ⟨ix, hsig⟩ | ⟨run, houtside⟩⟩
  · cases h
  · cases hrun : run l with
    | none =>
      simp only [orStay, attempt, hrun, Option.getD_none]
      exact D.outside_refl l
    | some l' =>
      simp only [orStay, attempt, hrun, Option.getD_some]
      exact houtside l l' hrun

/-- The clock stands still within a transaction. -/
theorem clock_of_mem_script {e : Int64 × LedgerAction D} (h : e ∈ tx.script l) :
    e.1 = tx.clock := by
  obtain ⟨b, hb, t, he⟩ := mem_of_mem_sequence h
  obtain ⟨i, _, rfl⟩ := List.mem_map.mp hb
  obtain ⟨a, _, rfl⟩ := List.mem_map.mp he
  rfl

/-- A transaction has all of its calls or none. -/
theorem called_effective (l : Ledger Pubkey) (tx : LedgerTransaction D) :
    (effective attempt l tx.script).filterMap called =
      if tx.GoesThrough l then tx.calls l else [] := by
  by_cases hgoes : (commit attempt l (tx.script l)).isSome = true
  · simp only [effective, GoesThrough, hgoes, if_true, calls]
  · simp only [effective, GoesThrough, hgoes, if_false, List.filterMap_nil, Bool.false_eq_true]

/-- Actions one after the other, whichever of them fail. -/
def toRun (D : Deployment Pubkey) (l : Ledger Pubkey) (hs : D.Sound l)
    (hblank : ∀ k, ¬ D.Tagged (l k)) (run : List (Int64 × LedgerAction D)) :
    LedgerRun D where
  ledger n := (run.take n).foldl (orStay attempt) l
  event n := run[n]?.bind called
  sound := hs
  blank := hblank
  signed n inv h := by
    obtain ⟨e, _, he⟩ := Option.bind_eq_some_iff.mp h
    obtain ⟨hsig, _⟩ := called_eq_some.mp he
    exact hsig
  next_some n inv h := by
    obtain ⟨e, he, hcalled⟩ := Option.bind_eq_some_iff.mp h
    obtain ⟨hsig, rfl⟩ := called_eq_some.mp hcalled
    rw [List.take_add_one, List.foldl_append, he]
    exact orStay_call
  next_none n h := by
    rw [List.take_add_one, List.foldl_append]
    cases he : run[n]? with
    | none => exact D.outside_refl _
    | some e =>
      rw [he, Option.bind_some] at h
      exact outside_orStay h

theorem calls_toRun {hs : D.Sound l} {hblank : ∀ k, ¬ D.Tagged (l k)}
    (run : List (Int64 × LedgerAction D)) (m n : ℕ) :
    (toRun D l hs hblank run).calls m n = ((run.take n).drop m).filterMap called := by
  rw [List.drop_take]
  exact filterMap_range run called m (n - m)

theorem pairwise_committed {txs : List (LedgerTransaction D)}
    (h : txs.Pairwise fun a b => a.clock ≤ b.clock) :
    (committed attempt l (txs.map script)).Pairwise fun d e => d.1 ≤ e.1 := by
  induction txs generalizing l with
  | nil => exact .nil
  | cons tx txs ih =>
    obtain ⟨hfirst, hrest⟩ := List.pairwise_cons.mp h
    have hown : ∀ e ∈ effective attempt l tx.script, e.1 = tx.clock := by
      intro e he
      exact clock_of_mem_script (mem_of_mem_effective he)
    rw [List.map_cons, committed]
    apply List.pairwise_append.mpr
    refine ⟨?_, ih hrest, ?_⟩
    · apply List.pairwise_of_forall_mem_list
      intro d hd e he
      rw [hown d hd, hown e he]
      exact Int64.le_refl _
    · intro d hd e he
      obtain ⟨b, hb, t, hmem⟩ := mem_of_mem_committed he
      obtain ⟨tx', htx', rfl⟩ := List.mem_map.mp hb
      rw [hown d hd, clock_of_mem_script hmem]
      exact hfirst tx' htx'

theorem clockMonotone_toRun {hs : D.Sound l} {hblank : ∀ k, ¬ D.Tagged (l k)}
    {run : List (Int64 × LedgerAction D)} (h : run.Pairwise fun d e => d.1 ≤ e.1) :
    (toRun D l hs hblank run).program.ClockMonotone := by
  have hclock : ∀ n i, (toRun D l hs hblank run).program.event n = some i →
      ∃ e, run[n]? = some e ∧ i.clock = e.1 := by
    intro n i hi
    obtain ⟨inv, hinv, hi⟩ := Option.bind_eq_some_iff.mp hi
    obtain ⟨e, he, hcalled⟩ := Option.bind_eq_some_iff.mp hinv
    obtain ⟨_, rfl⟩ := called_eq_some.mp hcalled
    exact ⟨_, he, (invocation_cases hi).1⟩
  intro m n i j hmn hi hj
  obtain ⟨d, hd, hid⟩ := hclock m i hi
  obtain ⟨e, he, hje⟩ := hclock n j hj
  rw [hid, hje]
  obtain ⟨hm, rfl⟩ := List.getElem?_eq_some_iff.mp hd
  obtain ⟨hn, rfl⟩ := List.getElem?_eq_some_iff.mp he
  rcases Nat.lt_or_eq_of_le hmn with hlt | rfl
  · exact List.pairwise_iff_getElem.mp h m n hm hn hlt
  · exact Int64.le_refl _

/--
Any sequence of transactions on the ledger is a run of single instructions of this program, all of
them accepted, with what other programs do between them. Transaction `k` is the part of the run from
`start k` to `start (k + 1)`: the calls there are those of the transaction, in its order, if it goes
through, and none if it does not. The ledgers between transactions are those of the run, and its
clock runs backwards only if theirs does. So all that holds of runs of the ledger, and of the
records in them, holds of the chain with its transactions.
-/
theorem ledger_transactions_are_runs (D : Deployment Pubkey) (l : Ledger Pubkey) (hs : D.Sound l)
    (hblank : ∀ k, ¬ D.Tagged (l k)) (txs : List (LedgerTransaction D)) :
    ∃ (R : LedgerRun D) (start : ℕ → ℕ), R.ledger 0 = l ∧ start 0 = 0 ∧ Monotone start ∧
      (∀ k, R.ledger (start k) = (txs.take k).foldl execute l) ∧
      (∀ k tx, txs[k]? = some tx → R.calls (start k) (start (k + 1)) =
        if tx.GoesThrough (R.ledger (start k)) then tx.calls (R.ledger (start k)) else []) ∧
      (∀ n, start txs.length ≤ n → R.event n = none) ∧
      (∀ n inv, R.event n = some inv →
        (D.entry (R.ledger n) inv.clock inv.instruction).isOk = true) ∧
      (txs.Pairwise (fun a b => a.clock ≤ b.clock) → R.program.ClockMonotone) := by
  have hledger : ∀ k, (toRun D l hs hblank (committed attempt l (txs.map script))).ledger
      (startOf attempt l (txs.map script) k) = (txs.take k).foldl execute l := by
    intro k
    refine (state_startOf attempt l (txs.map script) k).trans ?_
    rw [← List.map_take, List.foldl_map]
    rfl
  refine ⟨toRun D l hs hblank (committed attempt l (txs.map script)),
    startOf attempt l (txs.map script), rfl, rfl, monotone_startOf attempt l _, hledger, ?_, ?_, ?_,
    fun h => clockMonotone_toRun (pairwise_committed h)⟩
  · intro k tx htx
    have hscript : (txs.map script)[k]? = some tx.script := by
      simp only [List.getElem?_map, htx, Option.map_some]
    have hfold : ((txs.map script).take k).foldl (atomic attempt) l =
        (txs.take k).foldl execute l := by
      rw [← List.map_take, List.foldl_map]
      rfl
    rw [calls_toRun, events_startOf hscript, hfold, hledger, called_effective]
  · intro n hn
    have hlong : (committed attempt l (txs.map script)).length ≤ n := by
      simpa [startOf, List.take_of_length_le] using hn
    simp only [toRun, List.getElem?_eq_none hlong, Option.bind_none]
  · intro n inv h
    obtain ⟨e, he, hcalled⟩ := Option.bind_eq_some_iff.mp h
    obtain ⟨hsig, rfl⟩ := called_eq_some.mp hcalled
    have hsome := isSome_of_committed he
    rwa [isSome_call] at hsome

theorem sound_attempt {e : Int64 × LedgerAction D} (hs : D.Sound l)
    (h : attempt l e = some l') : D.Sound l' := by
  have hstep : orStay attempt l e = l' := by
    simp only [orStay, h, Option.getD_some]
  rw [← hstep]
  rcases e with ⟨clock, ⟨ix, hsig⟩ | ⟨run, houtside⟩⟩
  · rw [orStay_call]
    exact sound_execute hs hsig
  · exact sound_outside hs (outside_orStay rfl)

theorem entry_of_attempt {ix : RawInstruction Pubkey} {hsig : D.Signed ix.accounts}
    (h : attempt l (clock, .call ix hsig) = some l') : D.entry l clock ix = .ok l' := by
  simp only [attempt] at h
  cases hx : D.entry l clock ix with
  | ok l'' =>
    rw [hx] at h
    exact congrArg Except.ok (Option.some.inj h)
  | error x =>
    rw [hx] at h
    cases h

/-- An accepted instruction is accepted on the records. -/
theorem records_attempt {ix : RawInstruction Pubkey} {hsig : D.Signed ix.accounts}
    (hs : D.Sound l) (hidl : ¬ ix.Idl) (h : attempt l (clock, .call ix hsig) = some l') :
    ∃ instruction rest e, parseRequest ix.data = .ok (.request instruction.request) ∧
      ix.accounts = instruction.user :: rest ∧
      process D.toRuntime (D.records l) ⟨clock, instruction⟩ = .ok e ∧
      D.records l' = step D.toRuntime (D.records l) ⟨clock, instruction⟩ := by
  obtain ⟨⟨time, instruction⟩, e, hinv, hok, hw⟩ := entry_writes hs hsig hidl (entry_of_attempt h)
  obtain ⟨rfl, hrequest, rest, haccounts⟩ := invocation_cases hinv
  refine ⟨instruction, _, e, hrequest, haccounts, hok, ?_⟩
  rw [step_of_ok hok, records_of_writes hw]

/-- Nothing that happens, by whatever program, releases at the same clock value what was just
locked. -/
theorem standing_attempt {a : LedgerAction D} {u : Pubkey} (hs : D.Sound l)
    (hclock : D.overflowChecks = true ∨ clock.toInt + 86400 < 2 ^ 63)
    (hstanding : Standing D.toRuntime u clock (D.records l))
    (h : attempt l (clock, a) = some l') : Standing D.toRuntime u clock (D.records l') := by
  rcases a with ⟨ix, hsig⟩ | ⟨run, houtside⟩
  · by_cases hidl : ix.Idl
    · rwa [records_outside (entry_outside hs hsig hidl (entry_of_attempt h))]
    · obtain ⟨instruction, _, e, _, _, hok, hrecords⟩ := records_attempt hs hidl h
      rw [hrecords]
      exact standing_step hclock hstanding hok
  · rwa [records_outside (houtside l l' h)]

/-- Nowhere between a lock and the end of a sequence of actions at one clock value is the same user
unlocked. -/
theorem commit_lock_unlock {lock unlock : RawInstruction Pubkey} {hsig : D.Signed lock.accounts}
    {hsig' : D.Signed unlock.accounts} {amount : UInt64}
    {pre mid post : List (Int64 × LedgerAction D)} (hs : D.Sound l)
    (hclock : D.overflowChecks = true ∨ clock.toInt + 86400 < 2 ^ 63)
    (hlock : parseRequest lock.data = .ok (.request (.lockTokens amount)))
    (hunlock : parseRequest unlock.data = .ok (.request .unlockTokens))
    (huser : lock.accounts.head?.map AccountInfo.key = unlock.accounts.head?.map AccountInfo.key)
    (hall : ∀ e ∈ mid, e.1 = clock) :
    commit attempt l
      (pre ++ (clock, .call lock hsig) :: (mid ++ (clock, .call unlock hsig') :: post)) = none := by
  apply Option.eq_none_iff_forall_ne_some.mpr
  intro t h
  simp only [commit_append, Option.bind_eq_some_iff, commit] at h
  obtain ⟨l₁, hpre, l₂, hlocked, l₃, hmid, l₄, hunlocked, _⟩ := h
  have hs₁ : D.Sound l₁ := commit_invariant (fun _ _ _ _ hs => sound_attempt hs) hs hpre
  obtain ⟨i, _, _, hi, haccounts, hok, hrecords⟩ :=
    records_attempt hs₁ (not_idl_of_request hlock) hlocked
  have hstanding₂ : Standing D.toRuntime i.user.key clock (D.records l₂) := by
    rw [hrecords]
    cases i with
    | lockTokens accts b => exact standing_of_lock hclock hok
    | unlockTokens accts => cases hlock.symm.trans hi
  obtain ⟨hs₃, hstanding⟩ : D.Sound l₃ ∧
      Standing D.toRuntime i.user.key clock (D.records l₃) := by
    apply commit_invariant _ ⟨sound_attempt hs₁ hlocked, hstanding₂⟩ hmid
    rintro l l' ⟨time, a⟩ he ⟨hs, hstanding⟩ hstep
    obtain rfl : time = clock := hall _ he
    exact ⟨sound_attempt hs hstep, standing_attempt hs hclock hstanding hstep⟩
  obtain ⟨j, _, _, hj, haccounts', hok', _⟩ :=
    records_attempt hs₃ (not_idl_of_request hunlock) hunlocked
  have hsame : i.user.key = j.user.key := by
    simpa [haccounts, haccounts'] using huser
  rw [hsame] at hstanding
  cases j with
  | lockTokens accts b => cases hunlock.symm.trans hj
  | unlockTokens accts => exact not_unlock_of_standing hstanding hok'

/-- The instruction, if it is of this program. -/
def direct (clock : Int64) : LedgerInstruction D → Option (RawInvocation Pubkey)
  | .call ix _ => some ⟨clock, ix⟩
  | .other _ => none

theorem direct_sublist {instructions : List (LedgerInstruction D)}
    (h : commit attempt l (sequence attempt (instructions.map (part clock)) l) = some l') :
    List.Sublist (instructions.filterMap (direct clock))
      ((sequence attempt (instructions.map (part clock)) l).filterMap called) := by
  induction instructions generalizing l with
  | nil => exact .slnil
  | cons i instructions ih =>
    obtain ⟨l₁, hscript, hrest⟩ := sequence_of_commit h
    rw [List.map_cons, hscript, List.filterMap_append]
    cases i with
    | call ix hsig => exact (ih hrest).cons_cons ⟨clock, ix⟩
    | other script => exact (ih hrest).trans (List.sublist_append_right _ _)

/-- A transaction that goes through makes the calls it consists of, in its order. -/
theorem direct_sublist_calls (h : tx.GoesThrough l) :
    List.Sublist (tx.instructions.filterMap (direct tx.clock)) (tx.calls l) := by
  obtain ⟨l', h⟩ := Option.isSome_iff_exists.mp h
  exact direct_sublist h

/--
No transaction gets around the 24 hours, as long as they end before the end of the clock or the
build checks for that: one that locks and later on unlocks for the same user is refused as a whole,
whether the calls are its own instructions or made by other programs in it, and whatever else it has
before, between and after.
-/
theorem no_flash_release (R : LedgerRun D) (n : ℕ) (tx : LedgerTransaction D)
    (hclock : D.overflowChecks = true ∨ tx.clock.toInt + 86400 < 2 ^ 63)
    (lock unlock : RawInstruction Pubkey) (amount : UInt64)
    (hlock : parseRequest lock.data = .ok (.request (.lockTokens amount)))
    (hunlock : parseRequest unlock.data = .ok (.request .unlockTokens))
    (huser : lock.accounts.head?.map AccountInfo.key = unlock.accounts.head?.map AccountInfo.key) :
    (List.Sublist [⟨tx.clock, lock⟩, ⟨tx.clock, unlock⟩] (tx.calls (R.ledger n)) →
      execute (R.ledger n) tx = R.ledger n) ∧
    ∀ hsig hsig', List.Sublist [.call lock hsig, .call unlock hsig'] tx.instructions →
      execute (R.ledger n) tx = R.ledger n := by
  have hcalls : List.Sublist [⟨tx.clock, lock⟩, ⟨tx.clock, unlock⟩] (tx.calls (R.ledger n)) →
      commit attempt (R.ledger n) (tx.script (R.ledger n)) = none := by
    intro h
    obtain ⟨pre, mid, post, d, e, hscript, hd, he⟩ := split_of_sublist h
    obtain ⟨hsig, rfl⟩ := called_eq_some.mp hd
    obtain ⟨hsig', rfl⟩ := called_eq_some.mp he
    have hmid : ∀ e ∈ mid, e.1 = tx.clock := by
      intro e he
      apply clock_of_mem_script (l := R.ledger n)
      rw [hscript]
      simp [he]
    rw [hscript]
    exact commit_lock_unlock (R.sound_ledger n) hclock hlock hunlock huser hmid
  refine ⟨fun h => atomic_of_none (hcalls h), ?_⟩
  intro hsig hsig' h
  apply atomic_of_none
  by_contra hnone
  have hgoes : tx.GoesThrough (R.ledger n) := Option.isSome_iff_ne_none.mpr hnone
  exact hnone (hcalls ((h.filterMap (direct tx.clock)).trans (direct_sublist_calls hgoes)))

theorem mainLock_request :
    parseRequest mainLock.data = .ok (.request (.lockTokens 100000000)) :=
  parseRequest_bytes (.lockTokens 100000000)

theorem mainUnlock_request : parseRequest mainUnlock.data = .ok (.request .unlockTokens) :=
  parseRequest_bytes .unlockTokens

/-- `main` in one transaction. -/
def mainTransaction : LedgerTransaction testDeployment :=
  ⟨1000, [.call mainLock mainLock_signed, .call mainUnlock mainUnlock_signed]⟩

/-- Another program that calls this one for both. -/
def callingTransaction : LedgerTransaction testDeployment :=
  ⟨1000, [.other fun _ => [.call mainLock mainLock_signed, .call mainUnlock mainUnlock_signed]]⟩

theorem callingTransaction_calls (l : Ledger (BitVec 256)) :
    callingTransaction.calls l = [⟨1000, mainLock⟩, ⟨1000, mainUnlock⟩] := by
  simp only [calls, script, callingTransaction, List.map_cons, List.map_nil, sequence_singleton]
  rfl

theorem no_flash_release_main : execute (mainRun.ledger 0) mainTransaction = mainRun.ledger 0 ∧
    execute (mainRun.ledger 0) callingTransaction = mainRun.ledger 0 := by
  constructor
  · exact (no_flash_release mainRun 0 mainTransaction (.inl rfl) mainLock mainUnlock 100000000
      mainLock_request mainUnlock_request rfl).2 mainLock_signed mainUnlock_signed (.refl _)
  · apply (no_flash_release mainRun 0 callingTransaction (.inl rfl) mainLock mainUnlock 100000000
      mainLock_request mainUnlock_request rfl).1
    rw [callingTransaction_calls]
    exact .refl _

/-- Both instructions of `main` in one transaction, and the first one in another. -/
def mainTransactions : List (LedgerTransaction testDeployment) :=
  [mainTransaction, ⟨1001, [.call mainLock mainLock_signed]⟩]

theorem mainTransactions_run : ∃ (R : LedgerRun testDeployment) (start : ℕ → ℕ),
    R.ledger 0 = walletLedger ∧ R.ledger (start 2) = mainTransactions.foldl execute walletLedger ∧
    ∀ n, start 2 ≤ n → R.event n = none := by
  obtain ⟨R, start, hzero, _, _, hledger, _, hend, _⟩ := ledger_transactions_are_runs testDeployment
    walletLedger walletLedger_sound walletLedger_blank mainTransactions
  exact ⟨R, start, hzero, hledger 2, hend⟩

end LedgerTransaction

end BlockLockCore
