import BlockLockCore.Trace.History
import Mathlib.Order.Monotone.Defs

/-! One-slot time locks as histories: what a lock that opens only when due guarantees. -/
namespace Trace

/-- A user puts up a lock with some content, or takes the lock down. -/
inductive Deed (C T : Type*)
  | lock (content : C) (time : T)
  | unlock (time : T)

def Deed.time {C T : Type*} : Deed C T → T
  | .lock _ t | .unlock t => t

namespace TimeLock

variable {U C T : Type*} [DecidableEq U] {H : History U (Deed C T)}
  {due : T → T} {u v : U} {c c' : C} {s s' t : T} {d e : Deed C T} {k m n : ℕ}

section
variable [LinearOrder T]

/-- A lock may always be put up. It may be taken down once due, and not before the first one. -/
def Permitted (due : T → T) : Option (Deed C T) → Deed C T → Prop
  | _, .lock _ _ => True
  | none, .unlock _ => False
  | some (.lock _ s), .unlock t => due s ≤ t
  | some (.unlock _), .unlock _ => True

/-- Every deed is permitted after its user's last one. -/
def Guarded (due : T → T) (H : History U (Deed C T)) : Prop :=
  ∀ n u d, H n = some ⟨u, d⟩ → Permitted due (last H u n) d

/-- Deeds happen in the order of their times. -/
def Ordered (H : History U (Deed C T)) : Prop :=
  ∀ m n u v d e, m ≤ n → H m = some ⟨u, d⟩ → H n = some ⟨v, e⟩ → d.time ≤ e.time

theorem due_of_unlock (hg : Guarded due H) (h : H n = some ⟨u, .unlock t⟩)
    (hl : last H u n = some (.lock c s)) : due s ≤ t := by
  have hp := hg n u _ h
  rwa [hl] at hp

/-- A later lock of the user is due no earlier. -/
def Advancing (due : T → T) (H : History U (Deed C T)) (u : U) : Prop :=
  ∀ m n c c' s s', m ≤ n → H m = some ⟨u, .lock c s⟩ → H n = some ⟨u, .lock c' s'⟩ →
    due s ≤ due s'

/-- Not only the lock taken down but every earlier lock of the user was due. -/
theorem due_of_earlier_lock (hg : Guarded due H) (ha : Advancing due H u)
    (h : H n = some ⟨u, .unlock t⟩) (hl : last H u n = some (.lock c s))
    (hmn : m < n) (hm : H m = some ⟨u, .lock c' s'⟩) : due s' ≤ t := by
  obtain ⟨k, hk, hkd⟩ := last_eq_some_iff.mp hl
  have hmk : m ≤ k := by
    by_contra hkm
    exact hk.2.2 m (by omega) hmn _ hm
  have hs : due s' ≤ due s := ha m k _ _ _ _ hmk hm hkd
  exact hs.trans (due_of_unlock hg h hl)

/-- A lock stands, or one due no earlier in its place, until its user takes it down when due. -/
theorem stands_or_released (hg : Guarded due H) (ha : Advancing due H u)
    (hl : last H u m = some (.lock c s)) (hmn : m ≤ n) :
    (∃ c' s', last H u n = some (.lock c' s') ∧ due s ≤ due s') ∨
    ∃ k t, m ≤ k ∧ k < n ∧ H k = some ⟨u, .unlock t⟩ ∧ due s ≤ t := by
  induction n, hmn using Nat.le_induction with
  | base => exact Or.inl ⟨c, s, hl, le_rfl⟩
  | succ n hmn ih =>
    rcases ih with ⟨c', s', hstand, hs⟩ | ⟨k, t, hmk, hkn, hk, ht⟩
    · by_cases hself : ∃ d, H n = some ⟨u, d⟩
      · obtain ⟨d, hself⟩ := hself
        cases d with
        | lock c₂ t =>
          obtain ⟨k, hk, hkd⟩ := last_eq_some_iff.mp hl
          have hst : due s ≤ due t := ha k n _ _ _ _ (by have := hk.1; omega) hkd hself
          exact Or.inl ⟨c₂, t, last_succ_self hself, hst⟩
        | unlock t =>
          have hdue : due s' ≤ t := due_of_unlock hg hself hstand
          exact Or.inr ⟨n, t, hmn, Nat.lt_succ_self n, hself, hs.trans hdue⟩
      · have hkeep : last H u (n + 1) = last H u n :=
          last_succ_of_not (fun d h => hself ⟨d, h⟩)
        exact Or.inl ⟨c', s', hkeep.trans hstand, hs⟩
    · exact Or.inr ⟨k, t, hmk, by omega, hk, ht⟩

variable {W : Type*} [Preorder W] {w : C → W}

/-- A lock put up while the last one is not due weighs at least as much and is due no earlier. -/
def KeepsTerms (due : T → T) (w : C → W) (H : History U (Deed C T)) (u : U) : Prop :=
  ∀ n c t c' s, H n = some ⟨u, .lock c t⟩ → last H u n = some (.lock c' s) →
    t < due s → w c' ≤ w c ∧ due s ≤ due t

/-- Until it is due, a lock can only be replaced by heavier ones that are due no earlier. -/
theorem stands_until_due (hg : Guarded due H) (hw : KeepsTerms due w H u)
    (hk : H k = some ⟨u, .lock c s⟩) (hkn : k + 1 ≤ n)
    (ht : ∀ m, k < m → m < n → ∀ e, H m = some e → e.deed.time < due s) :
    ∃ c' s', last H u n = some (.lock c' s') ∧ w c ≤ w c' ∧ due s ≤ due s' := by
  induction n, hkn using Nat.le_induction with
  | base => exact ⟨c, s, last_succ_self hk, le_rfl, le_rfl⟩
  | succ n hkn ih =>
    obtain ⟨c', s', hl, hc, hs⟩ := ih (fun m hkm hmn => ht m hkm (by omega))
    by_cases hself : ∃ d, H n = some ⟨u, d⟩
    · obtain ⟨d, hself⟩ := hself
      have htime := ht n (by omega) (Nat.lt_succ_self n) _ hself
      cases d with
      | lock c₂ t =>
        obtain ⟨hwt, hst⟩ := hw n c₂ t c' s' hself hl (htime.trans_le hs)
        exact ⟨c₂, t, last_succ_self hself, hc.trans hwt, hs.trans hst⟩
      | unlock t =>
        -- the gate refuses the unlock: the standing lock is not due before `s` is
        have hp : due s' ≤ t := due_of_unlock hg hself hl
        exact (not_lt_of_ge (hs.trans hp) htime).elim
    · have hkeep : last H u (n + 1) = last H u n :=
        last_succ_of_not (fun d h => hself ⟨d, h⟩)
      exact ⟨c', s', hkeep.trans hl, hc, hs⟩

end

section
variable {w : C → ℕ}

/-- The weight standing after a last deed. -/
def weigh (w : C → ℕ) : Option (Deed C T) → ℕ
  | some (.lock c _) => w c
  | some (.unlock _) | none => 0

/-- The weight a deed puts up. -/
def putUp (w : C → ℕ) : Deed C T → ℕ
  | .lock c _ => w c
  | .unlock _ => 0

/-- The weight a deed takes down when `x` stands. -/
def takenDown (x : ℕ) : Deed C T → ℕ
  | .lock _ _ => 0
  | .unlock _ => x

/-- The weight a deed displaces when `x` stands. -/
def displaced (x : ℕ) : Deed C T → ℕ
  | .lock _ _ => x
  | .unlock _ => 0

/-- One observation moves weight between the three accounts and the standing lock. -/
theorem weigh_step (w : C → ℕ) (H : History U (Deed C T)) (u : U) (n : ℕ) :
    weigh w (last H u (n + 1)) + shareAt H u (takenDown (weigh w (last H u n))) n +
        shareAt H u (displaced (weigh w (last H u n))) n =
      weigh w (last H u n) + shareAt H u (putUp w) n := by
  by_cases hd : ∃ d, H n = some ⟨u, d⟩
  · obtain ⟨d, hd⟩ := hd
    simp only [last_succ_self hd, shareAt_self hd]
    cases d <;> simp [weigh, putUp, takenDown, displaced, Nat.add_comm]
  · have hn : ∀ d, H n ≠ some ⟨u, d⟩ := fun d h => hd ⟨d, h⟩
    simp only [last_succ_of_not hn, shareAt_of_not hn, Nat.add_zero]

/-- All weight put up was taken down, was displaced or still stands. -/
theorem weigh_balance (w : C → ℕ) (H : History U (Deed C T)) (u : U) (n : ℕ) :
    ∑ i ∈ Finset.range n, shareAt H u (putUp w) i =
      ∑ i ∈ Finset.range n, shareAt H u (takenDown (weigh w (last H u i))) i +
      ∑ i ∈ Finset.range n, shareAt H u (displaced (weigh w (last H u i))) i +
        weigh w (last H u n) := by
  induction n with
  | zero => simp [weigh]
  | succ n ih =>
    have hs := weigh_step w H u n
    simp only [Finset.sum_range_succ]
    omega

end

end TimeLock

end Trace
