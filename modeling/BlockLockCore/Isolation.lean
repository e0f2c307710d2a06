import BlockLockCore.Program
import BlockLockCore.Trace.Noninterference

/-! Users do not interfere with each other, whatever accounts they pass. -/
namespace BlockLockCore

open Checked Trace

variable {Pubkey : Type} {rt : Runtime Pubkey} {s t : Records Pubkey}
  {inv : Invocation Pubkey} {u : Pubkey}

/-- The existence and the contents of the record of `u`. -/
def recordOf (rt : Runtime Pubkey) (u : Pubkey) (s : Records Pubkey) :
    Option (UserLockInfo Pubkey) :=
  s (rt.userLockInfoAddress u)

theorem accepted_of_record {accts : LockTokens Pubkey} {clock : Int64}
    (hv : recordOf rt accts.user.key s = recordOf rt accts.user.key t)
    (h : accts.Accepted rt s clock) : accts.Accepted rt t clock := by
  refine { h with created := ?_ }
  intro hnone
  apply h.created
  rw [h.derived] at hnone ⊢
  exact hv.trans hnone

variable [DecidableEq Pubkey]

/-- `u` is the signing user of the instruction. -/
def SignedBy (u : Pubkey) (inv : Invocation Pubkey) : Prop :=
  inv.instruction.user.key = u ∧ inv.instruction.user.isSigner = true

instance (u : Pubkey) : DecidablePred (SignedBy u) :=
  fun inv => inferInstanceAs (Decidable (_ ∧ inv.instruction.user.isSigner = true))

/-- Whether an instruction goes through. -/
def succeeds (rt : Runtime Pubkey) (s : Records Pubkey) (inv : Invocation Pubkey) : Bool :=
  (process rt s inv).isOk

/-- A success depends on the record of the signing user only, and so does its effect. -/
theorem process_of_record {e : Effect Pubkey}
    (hv : recordOf rt inv.instruction.user.key s = recordOf rt inv.instruction.user.key t)
    (h : process rt s inv = .ok e) : process rt t inv = .ok e := by
  rcases inv with ⟨clock, accts | accts⟩
  · obtain ⟨ha, he⟩ := process_lock_eq_ok.mp h
    exact process_lock_eq_ok.mpr ⟨accepted_of_record hv ha, he⟩
  · obtain ⟨hw, r, hr, howner, hdue, he⟩ := process_unlock_eq_ok.mp h
    exact process_unlock_eq_ok.mpr ⟨hw, r, hv.symm.trans hr, howner, hdue, he⟩

theorem succeeds_of_record
    (hv : recordOf rt inv.instruction.user.key s = recordOf rt inv.instruction.user.key t) :
    succeeds rt s inv = succeeds rt t inv := by
  apply Bool.eq_iff_iff.mpr
  simp only [succeeds, isOk_iff]
  constructor
  · rintro ⟨e, he⟩
    exact ⟨e, process_of_record hv he⟩
  · rintro ⟨e, he⟩
    exact ⟨e, process_of_record hv.symm he⟩

theorem recordOf_step_of_record
    (hv : recordOf rt inv.instruction.user.key s = recordOf rt inv.instruction.user.key t) :
    recordOf rt inv.instruction.user.key (step rt s inv) =
      recordOf rt inv.instruction.user.key (step rt t inv) := by
  cases hs : process rt s inv with
  | ok e => exact (step_self hs).trans (step_self (process_of_record hv hs)).symm
  | error x =>
    cases ht : process rt t inv with
    | ok e =>
      have hok := hs.symm.trans (process_of_record hv.symm ht)
      cases hok
    | error y => simpa only [step_of_error hs, step_of_error ht] using hv

/-- Instructions that `u` did not sign leave the record of `u` as it is. -/
theorem recordOf_step_of_not_signedBy (h : ¬ SignedBy u inv) :
    recordOf rt u (step rt s inv) = recordOf rt u s := by
  cases hp : process rt s inv with
  | error x => simp only [step_of_error hp]
  | ok e =>
    apply step_other
    intro hu
    exact h ⟨hu, (process_user hp).1⟩

theorem unwinds (rt : Runtime Pubkey) (u : Pubkey) :
    Unwinds (step rt) (succeeds rt) (recordOf rt u) (SignedBy u) where
  quiet s inv h := recordOf_step_of_not_signedBy h
  result s t inv h hv := by
    obtain ⟨rfl, _⟩ := h
    exact succeeds_of_record hv
  consistent s t inv h hv := by
    obtain ⟨rfl, _⟩ := h
    exact recordOf_step_of_record hv

/--
Deleting every instruction that `u` did not sign changes neither which instructions of `u`
succeed nor the record of `u` after each of them; and no deleted instruction touched that record.
-/
theorem users_do_not_interfere (rt : Runtime Pubkey) (u : Pubkey) :
    (∀ s run, observe (step rt) (succeeds rt) (recordOf rt u) (SignedBy u) s run =
      observe (step rt) (succeeds rt) (recordOf rt u) (SignedBy u) s (purge (SignedBy u) run)) ∧
    (∀ s inv, ¬ SignedBy u inv → recordOf rt u (step rt s inv) = recordOf rt u s) := by
  constructor
  · intro s run
    exact observe_purge (unwinds rt u) run rfl
  · intro s inv h
    exact recordOf_step_of_not_signedBy h

end BlockLockCore
