import Mathlib.Algebra.Order.BigOperators.Group.Finset
import Mathlib.Data.Nat.Init

/-! Padded histories of deeds by users, and each user's last deed. -/
namespace Trace

/-- Who did what. -/
structure Entry (U D : Type*) where
  user : U
  deed : D

/-- What is done at each observation; padding does nothing. -/
abbrev History (U D : Type*) := ℕ → Option (Entry U D)

variable {U D : Type*} {H : History U D} {u v : U} {d d' : D} {k m n : ℕ}

/-- `k` holds the last deed of `u` before `n`. -/
def Latest (H : History U D) (u : U) (k n : ℕ) : Prop :=
  k < n ∧ (∃ d, H k = some ⟨u, d⟩) ∧ ∀ m, k < m → m < n → ∀ d, H m ≠ some ⟨u, d⟩

theorem latest_unique (hk : Latest H u k n) (hm : Latest H u m n) : k = m := by
  obtain ⟨hkn, ⟨d, hd⟩, hk⟩ := hk
  obtain ⟨hmn, ⟨e, he⟩, hm⟩ := hm
  rcases lt_trichotomy k m with h | h | h
  · exact (hk m h hmn e he).elim
  · exact h
  · exact (hm k h hkn d hd).elim

/-- The earlier observation is the last deed before at most one of the user's own deeds. -/
theorem latest_target_unique (hn : Latest H u k n) (hm : Latest H u k m)
    (hdn : H n = some ⟨u, d⟩) (hdm : H m = some ⟨u, d'⟩) : n = m := by
  rcases lt_trichotomy n m with h | h | h
  · exact (hm.2.2 n hn.1 h d hdn).elim
  · exact h
  · exact (hn.2.2 m hm.1 h d' hdm).elim

theorem user_ne_of_not {e : Entry U D} (h : ∀ d, H n ≠ some ⟨u, d⟩) (he : H n = some e) :
    e.user ≠ u := by
  intro hu
  subst u
  exact h e.deed he

section
variable [DecidableEq U]

/-- The last deed of `u` before `n`. -/
def last (H : History U D) (u : U) : ℕ → Option D
  | 0 => none
  | n + 1 =>
    match H n with
    | none => last H u n
    | some e => if e.user = u then some e.deed else last H u n

@[simp] theorem last_zero : last H u 0 = none := rfl

theorem last_succ_none (h : H n = none) : last H u (n + 1) = last H u n := by
  simp only [last, h]

theorem last_succ_self (h : H n = some ⟨u, d⟩) : last H u (n + 1) = some d := by
  simp only [last, h, if_true]

theorem last_succ_other (h : H n = some ⟨v, d⟩) (hv : v ≠ u) :
    last H u (n + 1) = last H u n := by
  simp only [last, h, if_neg hv]

/-- A user without a deed at `n` keeps the last one. -/
theorem last_succ_of_not (h : ∀ d, H n ≠ some ⟨u, d⟩) : last H u (n + 1) = last H u n := by
  cases he : H n with
  | none => exact last_succ_none he
  | some e => exact last_succ_other he (user_ne_of_not h he)

/-- `last` reads the deed at the latest observation of the user. -/
theorem last_eq_some_iff :
    last H u n = some d ↔ ∃ k, Latest H u k n ∧ H k = some ⟨u, d⟩ := by
  induction n with
  | zero =>
    constructor
    · intro h
      cases h
    · rintro ⟨k, hk, _⟩
      exact (Nat.not_lt_zero k hk.1).elim
  | succ n ih =>
    by_cases hd : ∃ d, H n = some ⟨u, d⟩
    · obtain ⟨e, he⟩ := hd
      have hn : Latest H u n (n + 1) :=
        ⟨Nat.lt_succ_self n, ⟨e, he⟩, fun m hm hmn => by omega⟩
      rw [last_succ_self he]
      constructor
      · rintro ⟨rfl⟩
        exact ⟨n, hn, he⟩
      · rintro ⟨k, hk, hkd⟩
        obtain rfl := latest_unique hk hn
        simpa [he] using hkd
    · have hn : ∀ d, H n ≠ some ⟨u, d⟩ := fun d h => hd ⟨d, h⟩
      rw [last_succ_of_not hn, ih]
      constructor
      · rintro ⟨k, ⟨hkn, hex, hk⟩, hkd⟩
        refine ⟨k, ⟨by omega, hex, ?_⟩, hkd⟩
        intro m hkm hmn
        rcases Nat.lt_succ_iff_lt_or_eq.mp hmn with hmn | rfl
        · exact hk m hkm hmn
        · exact hn
      · rintro ⟨k, ⟨hkn, hex, hk⟩, hkd⟩
        have hne : k ≠ n := by
          rintro rfl
          exact hn d hkd
        exact ⟨k, ⟨by omega, hex, fun m hkm hmn => hk m hkm (by omega)⟩, hkd⟩

theorem last_eq_none_iff : last H u n = none ↔ ∀ k d, k < n → H k ≠ some ⟨u, d⟩ := by
  induction n with
  | zero => simp
  | succ n ih =>
    by_cases hd : ∃ d, H n = some ⟨u, d⟩
    · obtain ⟨d, hd⟩ := hd
      constructor
      · intro h
        cases (last_succ_self hd).symm.trans h
      · intro h
        exact (h n d (Nat.lt_succ_self n) hd).elim
    · have hn : ∀ d, H n ≠ some ⟨u, d⟩ := fun d h => hd ⟨d, h⟩
      rw [last_succ_of_not hn, ih]
      constructor
      · intro h k d hk
        rcases Nat.lt_succ_iff_lt_or_eq.mp hk with hk | rfl
        · exact h k d hk
        · exact hn d
      · intro h k d hk
        exact h k d (Nat.lt_succ_of_lt hk)

/-- What `f` makes of the deed of `u` at `n`, and nothing for other observations. -/
def shareAt (H : History U D) (u : U) (f : D → ℕ) (n : ℕ) : ℕ :=
  match H n with
  | none => 0
  | some e => if e.user = u then f e.deed else 0

theorem shareAt_self {f : D → ℕ} (h : H n = some ⟨u, d⟩) : shareAt H u f n = f d := by
  simp only [shareAt, h, if_true]

theorem shareAt_of_not {f : D → ℕ} (h : ∀ d, H n ≠ some ⟨u, d⟩) : shareAt H u f n = 0 := by
  cases he : H n with
  | none => simp only [shareAt, he]
  | some e => simp only [shareAt, he, if_neg (user_ne_of_not h he)]

/-- The users with a deed before `n`. -/
def users (H : History U D) : ℕ → Finset U
  | 0 => ∅
  | n + 1 =>
    match H n with
    | none => users H n
    | some e => insert e.user (users H n)

theorem last_of_notMem_users (h : u ∉ users H n) : last H u n = none := by
  induction n with
  | zero => rfl
  | succ n ih =>
    cases he : H n with
    | none =>
      simp only [users, he] at h
      simpa only [last_succ_none he] using ih h
    | some e =>
      simp only [users, he, Finset.mem_insert, not_or] at h
      simpa only [last_succ_other he (Ne.symm h.1)] using ih h.2

/-- What the last deeds of all users add up to. -/
def total (f : U → Option D → ℕ) (H : History U D) (n : ℕ) : ℕ :=
  ∑ u ∈ users H n, f u (last H u n)

/-- What the last deeds of the users other than `u` add up to. -/
def totalOthers (u : U) (f : U → Option D → ℕ) (H : History U D) (n : ℕ) : ℕ :=
  ∑ v ∈ (users H n).erase u, f v (last H v n)

variable {f g : U → Option D → ℕ}

theorem total_succ_none (h : H n = none) : total f H (n + 1) = total f H n := by
  simp only [total, users, h, last_succ_none h]

theorem total_eq_add (hf : f u none = 0) :
    total f H n = f u (last H u n) + totalOthers u f H n := by
  by_cases hu : u ∈ users H n
  · exact (Finset.add_sum_erase _ _ hu).symm
  · rw [last_of_notMem_users hu, hf, Nat.zero_add, totalOthers, Finset.erase_eq_of_notMem hu, total]

/-- A deed changes the share of its user only. -/
theorem totalOthers_succ_self (h : H n = some ⟨u, d⟩) :
    totalOthers u f H (n + 1) = totalOthers u f H n := by
  have hu : (users H (n + 1)).erase u = (users H n).erase u := by
    simp only [users, h, Finset.erase_insert_eq_erase]
  rw [totalOthers, hu]
  apply Finset.sum_congr rfl
  intro v hv
  rw [last_succ_other h (Finset.ne_of_mem_erase hv).symm]

theorem total_succ_self (hf : f u none = 0) (h : H n = some ⟨u, d⟩) :
    total f H (n + 1) = f u (some d) + totalOthers u f H n := by
  rw [total_eq_add hf, last_succ_self h, totalOthers_succ_self h]

theorem total_mono (h : ∀ u d, f u d ≤ g u d) : total f H n ≤ total g H n :=
  Finset.sum_le_sum fun u _ => h u _

end

end Trace
