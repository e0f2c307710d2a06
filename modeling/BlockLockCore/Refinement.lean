import BlockLockCore.Run

/-! Every run of the program is a history of the time lock, and its records are the last deeds. -/
namespace BlockLockCore

open Checked Trace TimeLock

variable {Pubkey : Type} [DecidableEq Pubkey] {rt : Runtime Pubkey} {records : Records Pubkey}
  {E : Run rt} {u : Pubkey} {n : ℕ}

/-- In every reachable state each record is where its owner's seeds put it. -/
theorem records_derived (E : Run rt) (n : ℕ) : Derived rt (E.state n) := by
  apply E.invariant
  · intro k r hr
    cases hr
  · intro records inv hd
    exact derived_step hd inv

/-- The owner field of the record of `u` is `u`, although `lock_tokens` never checks it. -/
theorem record_owner {r : UserLockInfo Pubkey} (hr : E.record n u = some r) : r.owner = u :=
  (rt.userLockInfoAddress_inj.mp (records_derived E n _ r hr)).symm

/-- A successful instruction leaves the record that its deed demands. -/
theorem represents_of_ok {inv : Invocation Pubkey} {e : Effect Pubkey}
    (hd : Derived rt records) (h : process rt records inv = .ok e) :
    Represents inv.instruction.user.key (some inv.deed) (some e.userLockInfo) := by
  have howner := process_owner hd h
  rcases inv with ⟨clock, accts | accts⟩
  · obtain ⟨_, rfl⟩ := process_lock_eq_ok.mp h
    exact ⟨_, toInt_add_lockDuration clock, rfl⟩
  · obtain ⟨_, r, _, _, _, rfl⟩ := process_unlock_eq_ok.mp h
    simpa [Represents, Invocation.deed, Instruction.user] using howner

/-- In every reachable state the record of `u` is the one the last deed of `u` demands. -/
theorem represents (E : Run rt) (u : Pubkey) (n : ℕ) :
    Represents u (last E.deeds u n) (E.record n u) := by
  induction n generalizing u with
  | zero => exact congrFun E.start _
  | succ n ih =>
    cases he : E.event n with
    | none =>
      have hd : E.deeds n = none := by simp [Run.deeds, he]
      simpa only [last_succ_none hd, Run.record, E.next_none he] using ih u
    | some inv =>
      cases hp : process rt (E.state n) inv with
      | error x =>
        have hd : E.deeds n = none := by simp [Run.deeds, he, outcome_of_error hp]
        simpa only [last_succ_none hd, Run.record, E.next_some he, step_of_error hp] using ih u
      | ok e =>
        have hd : E.deeds n = some ⟨inv.instruction.user.key, inv.deed⟩ := by
          simp [Run.deeds, he, outcome_of_ok hp]
        by_cases hu : inv.instruction.user.key = u
        · subst u
          have hr := represents_of_ok (records_derived E n) hp
          simpa only [last_succ_self hd, Run.record, E.next_some he, step_self hp] using hr
        · simpa only [last_succ_other hd hu, Run.record, E.next_some he, step_other hu] using ih u

theorem record_eq_none_iff : E.record n u = none ↔ last E.deeds u n = none := by
  have h := represents E u n
  constructor
  · intro hr
    rw [hr] at h
    cases hl : last E.deeds u n with
    | none => rfl
    | some d =>
      cases d with
      | lock l s => simp [hl, Represents] at h
      | unlock t => simp [hl, Represents] at h
  · intro hl
    rwa [hl] at h

/-- A record that a lock left. -/
theorem record_of_lock {l : Lock Pubkey} {s : ℤ} (h : last E.deeds u n = some (.lock l s)) :
    ∃ t : Int64, t.toInt = unlockTime s ∧ E.record n u = some ⟨l.amount, t, u⟩ := by
  have hr := represents E u n
  rwa [h] at hr

/-- A record that an unlock left. -/
theorem record_of_unlock {t : ℤ} (h : last E.deeds u n = some (.unlock t)) :
    E.record n u = some ⟨0, 0, u⟩ := by
  have hr := represents E u n
  rwa [h] at hr

/-- A record was left by a lock or by an unlock of its user. -/
theorem record_origin {r : UserLockInfo Pubkey} (hr : E.record n u = some r) :
    (∃ l s, last E.deeds u n = some (.lock l s) ∧ l.amount = r.lockedAmount ∧
      r.unlockTime.toInt = unlockTime s) ∨
    ∃ t, last E.deeds u n = some (.unlock t) ∧ r = ⟨0, 0, u⟩ := by
  cases hl : last E.deeds u n with
  | none =>
    have hnone := record_eq_none_iff.mpr hl
    simp [hr] at hnone
  | some d =>
    cases d with
    | lock l s =>
      obtain ⟨t, ht, hrec⟩ := record_of_lock hl
      obtain rfl := Option.some.inj (hr.symm.trans hrec)
      exact Or.inl ⟨l, s, rfl, rfl, ht⟩
    | unlock t =>
      have hrec := record_of_unlock hl
      exact Or.inr ⟨t, rfl, Option.some.inj (hr.symm.trans hrec)⟩

/-- A locked amount in the record is that of the last deed. -/
theorem lock_of_record {r : UserLockInfo Pubkey} (hr : E.record n u = some r)
    (ha : 0 < r.lockedAmount) :
    ∃ l s, last E.deeds u n = some (.lock l s) ∧ l.amount = r.lockedAmount := by
  rcases record_origin hr with ⟨l, s, hl, hamount, _⟩ | ⟨t, _, rfl⟩
  · exact ⟨l, s, hl, hamount⟩
  · exact (UInt64.lt_irrefl 0 ha).elim

/-- Refinement: the program only unlocks what the time lock permits. -/
theorem deeds_guarded (E : Run rt) : Guarded unlockTime E.deeds := by
  intro n u d hd
  rcases deeds_eq_some_iff.mp hd with ⟨⟨clock, accts | accts⟩, ⟨_, hu, hok⟩, rfl⟩
  · cases last E.deeds u n <;> trivial
  · obtain ⟨e, hok⟩ := isOk_iff.mp hok
    obtain ⟨_, r, hr, _, hdue, _⟩ := process_unlock_eq_ok.mp hok
    have hrec : E.record n u = some r := by
      subst u
      exact hr
    rcases record_origin hrec with ⟨l, s, hl, _, hdue'⟩ | ⟨t, hl, _⟩
    · have hle := Int64.le_iff_toInt_le.mp hdue
      have hp : Permitted unlockTime (some (.lock l s)) (.unlock clock.toInt) :=
        hdue'.symm.trans_le hle
      simpa only [hl, Invocation.deed] using hp
    · simp [hl, Invocation.deed, Permitted]

theorem accepted_of_locks {accts : LockTokens Pubkey} {a : UInt64} {s : Int64}
    (h : E.Locks u accts a s n) : accts.Accepted rt (E.state n) s := by
  obtain ⟨e, he⟩ := isOk_iff.mp h.2.2
  exact (process_lock_eq_ok.mp he).1

/-- A build that checks for overflow refuses the locks that would. -/
theorem noOverflow_of_checks (hb : rt.overflowChecks = true) (E : Run rt) (u : Pubkey) :
    E.NoOverflow u := by
  intro n accts amount clock h
  exact (accepted_of_locks h).inRange hb

theorem unlockTime_of_deed {l : Lock Pubkey} {s : ℤ} (h : E.NoOverflow u)
    (hd : E.deeds n = some ⟨u, .lock l s⟩) : unlockTime s = due s := by
  obtain ⟨accts, clock, hlock, rfl, _⟩ := locks_of_deed hd
  exact unlockTime_of_range (h n accts l.amount clock hlock)

theorem deeds_ordered (hc : E.ClockMonotone) : Ordered E.deeds := by
  intro m n u v d e hmn hd he
  obtain ⟨i, ⟨hi, _⟩, rfl⟩ := deeds_eq_some_iff.mp hd
  obtain ⟨j, ⟨hj, _⟩, rfl⟩ := deeds_eq_some_iff.mp he
  simpa only [deed_time] using Int64.le_iff_toInt_le.mp (hc m n i j hmn hi hj)

/-- Without overflow a later lock is due later. -/
theorem deeds_advancing (hc : E.ClockMonotone) (h : E.NoOverflow u) :
    Advancing unlockTime E.deeds u := by
  intro m n l l' s s' hmn hm hn
  have hs : s ≤ s' := deeds_ordered hc m n u u _ _ hmn hm hn
  rw [unlockTime_of_deed h hm, unlockTime_of_deed h hn]
  unfold due
  omega

end BlockLockCore
