import BlockLockCore.Interleaving
import BlockLockCore.Unlock
import Mathlib.Data.Finite.Defs
import Mathlib.Data.Set.Finite.Basic

/-! Exactly which records the program can ever hold. -/
namespace BlockLockCore

open Checked Trace TimeLock

section
variable {Pubkey : Type} {rt : Runtime Pubkey} {s : Records Pubkey} {u v : Pubkey}
  {r : UserLockInfo Pubkey}

/-- A time 24 hours after some clock value, or, in a build that does not check for overflow, one
that wrapped around. -/
def Runtime.LockTime (rt : Runtime Pubkey) (t : Int64) : Prop :=
  86400 ≤ t.toInt ∨ (rt.overflowChecks = false ∧ t.toInt < -2 ^ 63 + 86400)

instance (t : Int64) : Decidable (rt.LockTime t) :=
  inferInstanceAs (Decidable (_ ∨ _))

/-- A record as an `unlock_tokens` or a `lock_tokens` leaves it. -/
def UserLockInfo.Possible (rt : Runtime Pubkey) (r : UserLockInfo Pubkey) : Prop :=
  rt.LockTime r.unlockTime ∨ (r.lockedAmount = 0 ∧ r.unlockTime = 0)

/-- The records that can be: finitely many, each possible, where its owner's seeds put it and of an
owner who can sign and pay for it. -/
structure Admissible (rt : Runtime Pubkey) (canSign canPay : Pubkey → Prop)
    (s : Records Pubkey) : Prop where
  finite : {k | s k ≠ none}.Finite
  derived : Derived rt s
  possible : ∀ k r, s k = some r → r.Possible rt
  able : ∀ k r, s k = some r → canSign r.owner ∧ canPay r.owner

/-- A client of the wallet `u`; which token account it names does not matter. -/
def someClient (u : Pubkey) : Client Pubkey := { wallet := u, mint := u, userTokenAccount := u }

/-- The instructions of `u` that leave the record `r`. -/
def settle (rt : Runtime Pubkey) (u : Pubkey) (r : UserLockInfo Pubkey) :
    List (Invocation Pubkey) :=
  if rt.LockTime r.unlockTime then
    [(someClient u).lockUSDC rt (r.unlockTime - lockDuration) 0 r.lockedAmount]
  else [(someClient u).lockUSDC rt 0 0 0, (someClient u).unlockUSDC rt 86400 0]

theorem lockTime_of_clock {clock : Int64} (h0 : 0 ≤ clock.toInt)
    (h : rt.overflowChecks = true → clock.toInt + 86400 < 2 ^ 63) :
    rt.LockTime (clock + lockDuration) := by
  have hhigh := clock.toInt_lt
  unfold Runtime.LockTime
  rw [Int64.toInt_add, toInt_lockDuration]
  by_cases hrange : clock.toInt + 86400 < 2 ^ 63
  · left
    rw [Int.bmod_eq_of_le (by omega) (by omega)]
    omega
  · right
    refine ⟨Bool.eq_false_iff.mpr (mt h hrange), ?_⟩
    rw [← Int.sub_bmod_right, Int.bmod_eq_of_le (by omega) (by omega)]
    omega

/-- The clock value at which a lock gets its time. -/
theorem clock_of_lockTime {t : Int64} (h : rt.LockTime t) :
    0 ≤ (t - lockDuration).toInt ∧
      (rt.overflowChecks = true → (t - lockDuration).toInt + 86400 < 2 ^ 63) := by
  have hlow := t.le_toInt
  have hhigh := t.toInt_lt
  rw [Int64.toInt_sub, toInt_lockDuration]
  rcases h with hlate | ⟨hbuild, hwrap⟩
  · rw [Int.bmod_eq_of_le (by omega) (by omega)]
    exact ⟨by omega, fun _ => by omega⟩
  · rw [← Int.add_bmod_right, Int.bmod_eq_of_le (by omega) (by omega)]
    exact ⟨by omega, fun hchecks => by simp [hbuild] at hchecks⟩

theorem user_of_mem_settle {inv : Invocation Pubkey} (h : inv ∈ settle rt u r) :
    inv.instruction.user = (someClient u).user := by
  unfold settle at h
  split at h
  · rcases List.mem_singleton.mp h with rfl
    rfl
  · rcases List.mem_pair.mp h with rfl | rfl <;> rfl

theorem signedBy_of_mem_settle {inv : Invocation Pubkey} (h : inv ∈ settle rt u r) :
    SignedBy v inv ↔ u = v := by
  simp [SignedBy, user_of_mem_settle h, Client.user, someClient]

theorem clock_of_mem_settle {inv : Invocation Pubkey} (h : inv ∈ settle rt u r) :
    0 ≤ inv.clock := by
  unfold settle at h
  split at h
  · rename_i hlocked
    rcases List.mem_singleton.mp h with rfl
    exact Int64.le_iff_toInt_le.mpr (clock_of_lockTime hlocked).1
  · rcases List.mem_pair.mp h with rfl | rfl
    · exact Int64.le_refl 0
    · exact show (0 : Int64) ≤ 86400 by decide

theorem pairwise_settle :
    (settle rt u r).Pairwise fun i j => i.clock.toInt ≤ j.clock.toInt := by
  unfold settle
  split
  · exact List.pairwise_singleton _ _
  · simp [Client.lockUSDC, Client.unlockUSDC]

/-- The instructions that settle the record at `k`, if there is one. -/
def settleAt (rt : Runtime Pubkey) (s : Records Pubkey) (k : Pubkey) : List (Invocation Pubkey) :=
  match s k with
  | some r => settle rt r.owner r
  | none => []

theorem settleAt_none {k : Pubkey} (h : s k = none) : settleAt rt s k = [] := by
  simp only [settleAt, h]

theorem settleAt_some {k : Pubkey} (h : s k = some r) :
    settleAt rt s k = settle rt r.owner r := by
  simp only [settleAt, h]

theorem mem_settleAt {k : Pubkey} {inv : Invocation Pubkey} (h : inv ∈ settleAt rt s k) :
    ∃ r, s k = some r ∧ inv ∈ settle rt r.owner r := by
  cases hr : s k with
  | none => simp [settleAt_none hr] at h
  | some r =>
    rw [settleAt_some hr] at h
    exact ⟨r, rfl, h⟩

theorem pairwise_settleAt (k : Pubkey) :
    (settleAt rt s k).Pairwise fun i j => i.clock.toInt ≤ j.clock.toInt := by
  cases hr : s k with
  | none => simp [settleAt_none hr]
  | some r =>
    rw [settleAt_some hr]
    exact pairwise_settle

end

variable {Pubkey : Type} [DecidableEq Pubkey] {rt : Runtime Pubkey} {s : Records Pubkey}
  {u : Pubkey} {r : UserLockInfo Pubkey} {canSign canPay : Pubkey → Prop}

/-- Only who can sign signs, and only who can pay pays for a record. -/
structure Run.Within (E : Run rt) (canSign canPay : Pubkey → Prop) : Prop where
  signed : ∀ n inv, E.event n = some inv → inv.instruction.user.isSigner = true →
    canSign inv.instruction.user.key
  paid : ∀ n clock accts amount, E.event n = some ⟨clock, .lockTokens accts amount⟩ →
    E.record n accts.user.key = none → accts.createAccount = .ok () → canPay accts.user.key

/-- A state that some run reaches, on a clock that starts at zero and never runs backwards. -/
def Reachable (rt : Runtime Pubkey) (canSign canPay : Pubkey → Prop) (s : Records Pubkey) : Prop :=
  ∃ (E : Run rt) (n : ℕ) (now : Int64), E.Within canSign canPay ∧ E.ClockMonotone ∧
    E.Elapsed n now ∧ E.state n = s

theorem owner_mem_users {E : Run rt} {n : ℕ} (hr : E.record n u = some r) :
    u ∈ users E.deeds n := by
  by_contra hu
  have hnone : E.record n u = none := record_eq_none_iff.mpr (last_of_notMem_users hu)
  cases hr.symm.trans hnone

theorem possible_of_elapsed {E : Run rt} {n : ℕ} {now : Int64} (hn : E.Elapsed n now)
    (hr : E.record n u = some r) : r.Possible rt := by
  rcases record_origin hr with ⟨l, s, hl, _, htime⟩ | ⟨t, _, rfl⟩
  · have hs : 0 ≤ s := (deed_elapsed hn hl).1
    obtain ⟨k, _, hkd⟩ := last_eq_some_iff.mp hl
    obtain ⟨_, clock, hlock, rfl, _⟩ := locks_of_deed hkd
    rw [← toInt_add_lockDuration, Int64.toInt_inj] at htime
    left
    rw [htime]
    exact lockTime_of_clock hs (accepted_of_locks hlock).inRange
  · exact Or.inr ⟨rfl, rfl⟩

/-- A record is paid for by its user, who signs whatever is written there. -/
theorem able_of_within {E : Run rt} (hE : E.Within canSign canPay) (n : ℕ) :
    ∀ u, E.record n u ≠ none → canSign u ∧ canPay u := by
  induction n with
  | zero =>
    intro u hu
    exact (hu (congrFun E.start _)).elim
  | succ n ih =>
    intro u hu
    cases he : E.event n with
    | none =>
      rw [Run.record, E.next_none he] at hu
      exact ih u hu
    | some inv =>
      rw [Run.record, E.next_some he] at hu
      by_cases hself : inv.instruction.user.key = u ∧ E.record n u = none
      · obtain ⟨rfl, hnone⟩ := hself
        cases hp : process rt (E.state n) inv with
        | error x =>
          rw [step_of_error hp] at hu
          exact (hu hnone).elim
        | ok e =>
          refine ⟨hE.signed n inv he (process_user hp).1, ?_⟩
          rcases inv with ⟨clock, accts | accts⟩
          · have ha := (process_lock_eq_ok.mp hp).1
            apply hE.paid n clock accts _ he hnone
            apply ha.created
            rw [ha.derived]
            exact hnone
          · obtain ⟨_, r, hr, _⟩ := process_unlock_eq_ok.mp hp
            cases hnone.symm.trans hr
      · apply ih u
        intro hnone
        have hother : inv.instruction.user.key ≠ u := fun huser => hself ⟨huser, hnone⟩
        rw [step_other hother] at hu
        exact hu hnone

theorem admissible_of_reachable (h : Reachable rt canSign canPay s) :
    Admissible rt canSign canPay s := by
  obtain ⟨E, n, now, hE, _, hn, rfl⟩ := h
  have hd := records_derived E n
  have hrecord : ∀ k r, E.state n k = some r →
      k = rt.userLockInfoAddress r.owner ∧ E.record n r.owner = some r := by
    intro k r hr
    have haddr : k = rt.userLockInfoAddress r.owner := hd k r hr
    refine ⟨haddr, ?_⟩
    rw [Run.record, ← haddr]
    exact hr
  refine ⟨?_, hd, ?_, ?_⟩
  · apply ((users E.deeds n).image rt.userLockInfoAddress).finite_toSet.subset
    intro k hk
    obtain ⟨r, hr⟩ := Option.ne_none_iff_exists'.mp hk
    obtain ⟨haddr, hrec⟩ := hrecord k r hr
    exact Finset.mem_coe.mpr (Finset.mem_image.mpr ⟨r.owner, owner_mem_users hrec, haddr.symm⟩)
  · intro k r hr
    exact possible_of_elapsed hn (hrecord k r hr).2
  · intro k r hr
    apply able_of_within hE n
    rw [(hrecord k r hr).2]
    exact Option.some_ne_none r

/-- The instructions that settle `r` leave `r`. -/
theorem foldl_settle (h : r.Possible rt) (ho : r.owner = u) :
    (settle rt u r).foldl (step rt) (noRecords Pubkey) (rt.userLockInfoAddress u) = some r := by
  unfold settle
  split
  · rename_i hlocked
    have hstep : step rt (noRecords Pubkey)
        ((someClient u).lockUSDC rt (r.unlockTime - lockDuration) 0 r.lockedAmount)
        (rt.userLockInfoAddress u) =
          some ⟨r.lockedAmount, r.unlockTime - lockDuration + lockDuration, u⟩ :=
      Client.step_lockUSDC (clock_of_lockTime hlocked).2
    rw [List.foldl_cons, List.foldl_nil, hstep, Int64.sub_add_cancel, ← ho]
  · rename_i hcleared
    obtain ⟨hamount, htime⟩ := h.resolve_left hcleared
    have hstep : step rt (noRecords Pubkey) ((someClient u).lockUSDC rt 0 0 0)
        (rt.userLockInfoAddress u) = some ⟨0, 0 + lockDuration, u⟩ :=
      Client.step_lockUSDC fun _ => by decide
    have hmatured : (0 : Int64) + lockDuration ≤ 86400 := by decide
    have hclear : step rt (step rt (noRecords Pubkey) ((someClient u).lockUSDC rt 0 0 0))
        ((someClient u).unlockUSDC rt 86400 0) (rt.userLockInfoAddress u) = some ⟨0, 0, u⟩ :=
      Client.step_unlockUSDC hstep rfl hmatured
    rw [List.foldl_cons, List.foldl_cons, List.foldl_nil, hclear, ← hamount, ← htime, ← ho]

/-- They are instructions of the user whose address `k` is, and of nobody else. -/
theorem purge_settleAt (hd : Derived rt s) (u k : Pubkey) :
    purge (SignedBy u) (settleAt rt s k) =
      if k = rt.userLockInfoAddress u then settleAt rt s k else [] := by
  cases hr : s k with
  | none => simp [settleAt_none hr, purge]
  | some r =>
    have hk : k = rt.userLockInfoAddress u ↔ r.owner = u := by
      rw [hd k r hr, rt.userLockInfoAddress_inj]
    rw [settleAt_some hr]
    by_cases howner : r.owner = u
    · rw [if_pos (hk.mpr howner)]
      apply List.filter_eq_self.mpr
      intro inv hinv
      exact decide_eq_true ((signedBy_of_mem_settle hinv).mpr howner)
    · rw [if_neg (mt hk.mp howner)]
      apply List.filter_eq_nil_iff.mpr
      intro inv hinv hsigned
      exact howner ((signedBy_of_mem_settle hinv).mp (of_decide_eq_true hsigned))

theorem foldl_settleAt (hd : Derived rt s) (hp : ∀ k r, s k = some r → r.Possible rt) (u : Pubkey) :
    (settleAt rt s (rt.userLockInfoAddress u)).foldl (step rt) (noRecords Pubkey)
      (rt.userLockInfoAddress u) = s (rt.userLockInfoAddress u) := by
  cases hr : s (rt.userLockInfoAddress u) with
  | none =>
    rw [settleAt_none hr]
    rfl
  | some r =>
    have howner : r.owner = u := (rt.userLockInfoAddress_inj.mp (hd _ r hr)).symm
    rw [settleAt_some hr, howner]
    exact foldl_settle (hp _ r hr) howner

theorem flatMap_single {α β : Type} [DecidableEq α] {f : α → List β} {a : α} {l : List α}
    (hl : l.Nodup) (ha : a ∉ l → f a = []) :
    (l.flatMap fun b => if b = a then f b else []) = f a := by
  induction l with
  | nil => exact (ha List.not_mem_nil).symm
  | cons b l ih =>
    obtain ⟨hb, hl⟩ := List.nodup_cons.mp hl
    by_cases hba : b = a
    · subst b
      have hrest : (l.flatMap fun b => if b = a then f b else []) = [] := by
        apply List.flatMap_eq_nil_iff.mpr
        intro b hmem
        apply if_neg
        rintro rfl
        exact hb hmem
      simp [hrest]
    · have hal : a ∉ l → f a = [] := by
        intro h
        apply ha
        simp [h, Ne.symm hba]
      simpa [hba] using ih hl hal

/-- The instructions that settle all records, one user after the other. -/
noncomputable def settleAll (rt : Runtime Pubkey) (h : Admissible rt canSign canPay s) :
    List (Invocation Pubkey) :=
  h.finite.toFinset.toList.flatMap (settleAt rt s)

theorem purge_settleAll (h : Admissible rt canSign canPay s) (u : Pubkey) :
    purge (SignedBy u) (settleAll rt h) = settleAt rt s (rt.userLockInfoAddress u) := by
  have hmissing : rt.userLockInfoAddress u ∉ h.finite.toFinset.toList →
      settleAt rt s (rt.userLockInfoAddress u) = [] := by
    intro hmem
    have hnone : s (rt.userLockInfoAddress u) = none := by simpa using hmem
    exact settleAt_none hnone
  have hown : purge (SignedBy u) (settleAll rt h) = h.finite.toFinset.toList.flatMap
      fun k => purge (SignedBy u) (settleAt rt s k) := List.filter_flatMap
  simp only [hown, purge_settleAt h.derived]
  exact flatMap_single (Finset.nodup_toList _) hmissing

/-- Settling all records, in whatever order, leaves them. -/
theorem foldl_settleAll (h : Admissible rt canSign canPay s) {run : List (Invocation Pubkey)}
    (hr : Reschedules SignedBy (settleAll rt h) run) :
    run.foldl (step rt) (noRecords Pubkey) = s := by
  funext k
  by_cases hk : ∃ u, k = rt.userLockInfoAddress u
  · obtain ⟨u, rfl⟩ := hk
    have hview := view_foldl_purge (s := noRecords Pubkey) (unwinds rt u) run rfl
    rw [← hr u, purge_settleAll h u] at hview
    exact hview.trans (foldl_settleAt h.derived h.possible u)
  · have hk : ∀ u, k ≠ rt.userLockInfoAddress u := fun u hu => hk ⟨u, hu⟩
    rw [foldl_elsewhere run hk]
    cases hr : s k with
    | none => rfl
    | some r => exact (hk _ (h.derived k r hr)).elim

omit [DecidableEq Pubkey] in
/-- The instructions that settle the records are of the owners. -/
theorem able_of_mem_settleAll (h : Admissible rt canSign canPay s) {inv : Invocation Pubkey}
    (hinv : inv ∈ settleAll rt h) :
    canSign inv.instruction.user.key ∧ canPay inv.instruction.user.key := by
  obtain ⟨k, _, hk⟩ := List.mem_flatMap.mp hinv
  obtain ⟨r, hr, hmem⟩ := mem_settleAt hk
  rw [user_of_mem_settle hmem]
  exact h.able k r hr

theorem within_of_subset (h : Admissible rt canSign canPay s) {run : List (Invocation Pubkey)}
    (hrun : ∀ inv ∈ run, inv ∈ settleAll rt h) : (Run.ofList rt run).Within canSign canPay where
  signed _ _ hinv _ := (able_of_mem_settleAll h (hrun _ (List.mem_of_getElem? hinv))).1
  paid _ _ _ _ hinv _ _ := (able_of_mem_settleAll h (hrun _ (List.mem_of_getElem? hinv))).2

/-- Every admissible state is reached: each user settles its own record, and the clock decides
the order. -/
theorem reachable_of_admissible (h : Admissible rt canSign canPay s) :
    Reachable rt canSign canPay s := by
  let time : Invocation Pubkey → ℤ := fun inv => inv.clock.toInt
  have hr : Reschedules SignedBy (settleAll rt h) (byTime time (settleAll rt h)) := by
    apply reschedules_byTime
    intro u
    rw [purge_settleAll h u]
    exact pairwise_settleAt _
  have htimes : (byTime time (settleAll rt h)).Pairwise fun i j => time i ≤ time j :=
    pairwise_byTime
  have hsorted : (byTime time (settleAll rt h)).Pairwise fun i j => i.clock ≤ j.clock :=
    htimes.imp fun hle => Int64.le_iff_toInt_le.mpr hle
  refine ⟨.ofList rt (byTime time (settleAll rt h)), (byTime time (settleAll rt h)).length,
    Int64.maxValue, within_of_subset h fun inv => mem_byTime.mp, clockMonotone_ofList hsorted,
    ?_, ?_⟩
  · intro m inv _ hinv
    have hmem : inv ∈ settleAll rt h := mem_byTime.mp (List.mem_of_getElem? hinv)
    obtain ⟨k, _, hk⟩ := List.mem_flatMap.mp hmem
    obtain ⟨r, _, hsettle⟩ := mem_settleAt hk
    have hmax : inv.clock.toInt ≤ Int64.maxValue.toInt := by
      have hlt := inv.clock.toInt_lt
      have hvalue : Int64.maxValue.toInt = 2 ^ 63 - 1 := by decide
      omega
    exact ⟨clock_of_mem_settle hsettle, Int64.le_iff_toInt_le.mpr hmax⟩
  · exact (congrArg (fun l => l.foldl (step rt) (noRecords Pubkey)) List.take_length).trans
      (foldl_settleAll h hr)

/--
The states that runs reach, on a clock that starts at zero and never runs backwards, are exactly
those with finitely many records, each of a user who can sign and pay for it, at its address, and
either cleared or due at least 24 hours after zero; a build that does not check for overflow reaches
the times that wrapped around as well.
-/
theorem reachable_iff_admissible (rt : Runtime Pubkey) (canSign canPay : Pubkey → Prop)
    (s : Records Pubkey) : Reachable rt canSign canPay s ↔ Admissible rt canSign canPay s :=
  ⟨admissible_of_reachable, reachable_of_admissible⟩

end BlockLockCore
