import BlockLockCore.LedgerRun

/-! Who pays for a record, and that nobody is ever paid back (`payer = user`, no `close`). -/
namespace BlockLockCore

open Checked Trace Wire Storage Deployment

variable {Pubkey : Type} [DecidableEq Pubkey] {D : Deployment Pubkey} {l l' l₁ : Ledger Pubkey}
  {clock : Int64} {ix : RawInstruction Pubkey} {payer field u : Pubkey} {m n : ℕ}

/-- `u` pays the rent for its new record, and no other lamports move. -/
structure Storage.RentPaid (D : Storage Pubkey) (l l' : Ledger Pubkey) (u : Pubkey) :
    Prop where
  missing : ¬ D.Tagged (l (D.userLockInfoAddress u))
  created : D.Tagged (l' (D.userLockInfoAddress u))
  payer : (l' u).lamports + D.rentDue l (D.userLockInfoAddress u) = (l u).lamports
  paid : (l' (D.userLockInfoAddress u)).lamports =
    (l (D.userLockInfoAddress u)).lamports + D.rentDue l (D.userLockInfoAddress u)
  others : ∀ k, k ≠ u → k ≠ D.userLockInfoAddress u → (l' k).lamports = (l k).lamports

/-- Another account pays for the one that is created. -/
theorem create_lamports_of_ne (hne : payer ≠ field) (h : D.create l payer field = .ok l₁) :
    (l₁ payer).lamports + D.rentDue l field = (l payer).lamports ∧
      (l₁ field).lamports = (l field).lamports + D.rentDue l field ∧
      ∀ k, k ≠ payer → k ≠ field → (l₁ k).lamports = (l k).lamports := by
  simp only [create, bind_eq_ok, require_eq_ok, exists_const, pure_eq_ok] at h
  obtain ⟨_, hfunds, _, rfl⟩ := h
  refine ⟨?_, ?_, ?_⟩
  · simp only [Function.update_of_ne hne, Function.update_self]
    omega
  · simp only [Function.update_self, Function.update_of_ne (Ne.symm hne)]
  · intro k hk hkf
    simp only [Function.update_of_ne hkf, Function.update_of_ne hk]

/-- The lamports that the creation of an account moves. -/
theorem create_lamports (h : D.create l payer field = .ok l₁) :
    (∀ k, (l₁ k).lamports = (l k).lamports) ∨
    ((l₁ payer).lamports + D.rentDue l field = (l payer).lamports ∧
      (l₁ field).lamports = (l field).lamports + D.rentDue l field ∧
      ∀ k, k ≠ payer → k ≠ field → (l₁ k).lamports = (l k).lamports) := by
  by_cases hself : payer = field
  · -- an empty account that pays for itself pays nothing
    subst field
    simp only [create, bind_eq_ok, require_eq_ok, exists_const, pure_eq_ok] at h
    obtain ⟨hpayer, hfunds, _, rfl⟩ := h
    have hzero : (l payer).lamports = 0 := by simpa using hpayer
    refine Or.inl fun k => ?_
    by_cases hk : k = payer
    · subst k
      simp only [Function.update_self]
      omega
    · simp only [Function.update_of_ne hk]
  · exact Or.inr (create_lamports_of_ne hself h)

/-- The exit moves no lamports. -/
theorem exit_lamports {r : UserLockInfo Pubkey} (h : D.exit l field r = .ok l') (k : Pubkey) :
    (l' k).lamports = (l k).lamports := by
  simp only [Storage.exit, bind_eq_ok, pure_eq_ok] at h
  obtain ⟨data, _, rfl⟩ := h
  exact update_keeps RawAccount.lamports (by rfl) k

/-- An instruction moves no lamports, or creates the record of its user at the user's expense. -/
theorem entry_lamports (hs : D.Sound l) (hsig : D.Signed ix.accounts) (hidl : ¬ ix.Idl)
    (h : D.entry l clock ix = .ok l') :
    (∀ k, (l' k).lamports = (l k).lamports) ∨ ∃ u, D.RentPaid l l' u := by
  obtain ⟨inv, e, l₁, r, _, _, hloaded, hexit⟩ := entry_sound hs hsig hidl h
  have hw := writes_of_exit (prepared_of_loaded hs hloaded) hexit
  have hsame := exit_lamports hexit
  cases hloaded with
  | found hr => exact Or.inl hsame
  | created hr hc =>
    rcases create_lamports hc with hnone | ⟨hpayer, hpaid, hothers⟩
    · exact Or.inl fun k => (hsame k).trans (hnone k)
    · refine Or.inr ⟨inv.instruction.user.key, ?_, ?_, ?_, ?_, ?_⟩
      · intro htag
        obtain ⟨r', hr'⟩ := record_of_tagged hs htag
        cases hr.symm.trans hr'
      · exact tagged_of_writes hw
      · rw [hsame]
        exact hpayer
      · rw [hsame]
        exact hpaid
      · intro k hk hkf
        rw [hsame]
        exact hothers k hk hkf

theorem execute_lamports (hs : D.Sound l) (hsig : D.Signed ix.accounts) (hidl : ¬ ix.Idl) :
    (∀ k, (D.execute l clock ix k).lamports = (l k).lamports) ∨
      ∃ u, D.RentPaid l (D.execute l clock ix) u := by
  cases h : D.entry l clock ix with
  | ok l' =>
    rw [execute_of_ok h]
    exact entry_lamports hs hsig hidl h
  | error x => exact Or.inl fun k => by rw [execute_of_error h]

omit [DecidableEq Pubkey] in
theorem kept_outside {k : Pubkey} (h : D.Outside l l') (htag : D.Tagged (l k)) :
    D.Tagged (l' k) ∧ (l k).lamports ≤ (l' k).lamports := by
  obtain ⟨howner, hdata, hlamports⟩ := h.kept k htag
  exact ⟨(tagged_congr howner hdata).mpr htag, hlamports⟩

/-- A record stays, with all its lamports, whatever comes next. -/
theorem kept_execute (hs : D.Sound l) (hsig : D.Signed ix.accounts) {k : Pubkey}
    (htag : D.Tagged (l k)) :
    D.Tagged (D.execute l clock ix k) ∧
      (l k).lamports ≤ (D.execute l clock ix k).lamports := by
  cases h : D.entry l clock ix with
  | error x =>
    rw [execute_of_error h]
    exact ⟨htag, le_rfl⟩
  | ok l' =>
    rw [execute_of_ok h]
    by_cases hidl : ix.Idl
    · exact kept_outside (entry_outside hs hsig hidl h) htag
    obtain ⟨inv, e, _, _, hw⟩ := entry_writes hs hsig hidl h
    refine ⟨?_, hw.kept k htag.1⟩
    by_cases hk : k = D.userLockInfoAddress inv.instruction.user.key
    · subst k
      exact tagged_of_writes hw
    · obtain ⟨howner, hdata⟩ := hw.frame k hk
      exact (tagged_congr howner hdata).mpr htag

namespace LedgerRun

theorem kept_succ (R : LedgerRun D) {k : Pubkey} (htag : D.Tagged (R.ledger n k)) :
    D.Tagged (R.ledger (n + 1) k) ∧
      (R.ledger n k).lamports ≤ (R.ledger (n + 1) k).lamports := by
  cases he : R.event n with
  | none => exact kept_outside (R.next_none n he) htag
  | some inv =>
    rw [R.next_some n inv he]
    exact kept_execute (R.sound_ledger n) (R.signed n inv he) htag

theorem kept_ledger (R : LedgerRun D) {k : Pubkey} (hmn : m ≤ n)
    (htag : D.Tagged (R.ledger m k)) :
    D.Tagged (R.ledger n k) ∧ (R.ledger m k).lamports ≤ (R.ledger n k).lamports := by
  induction n, hmn using Nat.le_induction with
  | base => exact ⟨htag, le_rfl⟩
  | succ n hmn ih =>
    obtain ⟨htag', hle⟩ := ih
    obtain ⟨htag'', hle'⟩ := kept_succ R htag'
    exact ⟨htag'', hle.trans hle'⟩

/--
A `lock_tokens` or `unlock_tokens` moves no lamports but the rent of a new record, from its user
into that record. In a whole run this happens at most once for each user, and what a record holds is
never paid out again: once created it stays, with at least its lamports, also past Anchor's IDL
instructions.
-/
theorem rent_paid_once (R : LedgerRun D) :
    (∀ n inv, R.event n = some inv → ¬ inv.instruction.Idl →
      (∀ k, (R.ledger (n + 1) k).lamports = (R.ledger n k).lamports) ∨
        ∃ u, D.RentPaid (R.ledger n) (R.ledger (n + 1)) u) ∧
    (∀ u m n, D.RentPaid (R.ledger m) (R.ledger (m + 1)) u →
      D.RentPaid (R.ledger n) (R.ledger (n + 1)) u → m = n) ∧
    (∀ k m n, m ≤ n → D.Tagged (R.ledger m k) →
      D.Tagged (R.ledger n k) ∧ (R.ledger m k).lamports ≤ (R.ledger n k).lamports) := by
  refine ⟨?_, ?_, ?_⟩
  · intro n inv he hidl
    rw [R.next_some n inv he]
    exact execute_lamports (R.sound_ledger n) (R.signed n inv he) hidl
  · intro u m n hm hn
    rcases lt_trichotomy m n with hlt | rfl | hlt
    · exact (hn.missing (kept_ledger R hlt hm.created).1).elim
    · rfl
    · exact (hm.missing (kept_ledger R hlt hn.created).1).elim
  · intro k m n hmn htag
    exact kept_ledger R hmn htag

end LedgerRun

end BlockLockCore
