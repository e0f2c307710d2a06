import Mathlib.Data.List.Basic
import Mathlib.Order.Lattice

/-! Two-run separation: what a party observes of a run is what it observes of its own events. -/
namespace Trace

variable {σ ε ω ν : Type*} {step : σ → ε → σ} {out : σ → ε → ω} {view : σ → ν}
  {mine : ε → Prop} [DecidablePred mine] {s t : σ}

/-- The result of each event of the party and the party's view just after it, in order. -/
def observe (step : σ → ε → σ) (out : σ → ε → ω) (view : σ → ν) (mine : ε → Prop)
    [DecidablePred mine] (s : σ) : List ε → List (ω × ν)
  | [] => []
  | e :: run =>
    if mine e then (out s e, view (step s e)) :: observe step out view mine (step s e) run
    else observe step out view mine (step s e) run

/-- Deletes the events of everyone else. -/
def purge (mine : ε → Prop) [DecidablePred mine] (run : List ε) : List ε :=
  run.filter (fun e => decide (mine e))

/-- Foreign events leave the view alone; the party's own events depend on the view only. -/
structure Unwinds (step : σ → ε → σ) (out : σ → ε → ω) (view : σ → ν) (mine : ε → Prop) :
    Prop where
  quiet : ∀ s e, ¬ mine e → view (step s e) = view s
  result : ∀ s t e, mine e → view s = view t → out s e = out t e
  consistent : ∀ s t e, mine e → view s = view t → view (step s e) = view (step t e)

/-- Starting from equal views, the whole run and the purged run are observed alike. -/
theorem observe_purge (h : Unwinds step out view mine) (run : List ε) (hv : view s = view t) :
    observe step out view mine s run = observe step out view mine t (purge mine run) := by
  induction run generalizing s t with
  | nil => rfl
  | cons e run ih =>
    by_cases he : mine e
    · have hp : purge mine (e :: run) = e :: purge mine run := by simp [purge, he]
      rw [hp, observe, observe, if_pos he, if_pos he, h.result s t e he hv,
        h.consistent s t e he hv, ih (h.consistent s t e he hv)]
    · have hp : purge mine (e :: run) = purge mine run := by simp [purge, he]
      rw [hp, observe, if_neg he]
      exact ih ((h.quiet s e he).trans hv)

/-- Starting from equal views, the whole run and the purged run end in equal views. -/
theorem view_foldl_purge (h : Unwinds step out view mine) (run : List ε) (hv : view s = view t) :
    view (run.foldl step s) = view ((purge mine run).foldl step t) := by
  induction run generalizing s t with
  | nil => exact hv
  | cons e run ih =>
    by_cases he : mine e
    · have hp : purge mine (e :: run) = e :: purge mine run := by simp [purge, he]
      rw [hp]
      exact ih (h.consistent s t e he hv)
    · have hp : purge mine (e :: run) = purge mine run := by simp [purge, he]
      rw [hp]
      exact ih ((h.quiet s e he).trans hv)

/-- Equal views stay equal. -/
theorem view_foldl_congr (h : Unwinds step out view mine) (run : List ε) (hv : view s = view t) :
    view (run.foldl step s) = view (run.foldl step t) :=
  (view_foldl_purge h run hv).trans (view_foldl_purge h run rfl).symm

/-- The second list is the first without some events that the next one supersedes. -/
inductive Drops (supersedes : ε → ε → Prop) : List ε → List ε → Prop
  | nil : Drops supersedes [] []
  | keep (e : ε) {run run' : List ε} (h : Drops supersedes run run') :
      Drops supersedes (e :: run) (e :: run')
  | drop {e e' : ε} {run run' : List ε} (he : supersedes e e')
      (h : Drops supersedes (e' :: run) run') : Drops supersedes (e :: e' :: run) run'

theorem drops_append {supersedes : ε → ε → Prop} (pre : List ε) {run run' : List ε}
    (h : Drops supersedes run run') : Drops supersedes (pre ++ run) (pre ++ run') := by
  induction pre with
  | nil => exact h
  | cons e pre ih => exact .keep e ih

theorem drops_refl {supersedes : ε → ε → Prop} (run : List ε) : Drops supersedes run run := by
  simpa using drops_append run .nil

/-- If an event that is superseded shows in no view after the next one, it shows in no later one. -/
theorem view_foldl_drops (h : Unwinds step out view mine) {supersedes : ε → ε → Prop}
    (hs : ∀ s e e', supersedes e e' → view (step (step s e) e') = view (step s e'))
    {run run' : List ε} (hd : Drops supersedes run run') :
    view (run.foldl step s) = view (run'.foldl step s) := by
  induction hd generalizing s with
  | nil => rfl
  | keep e _ ih => exact ih
  | drop he _ ih => exact (view_foldl_congr h _ (hs s _ _ he)).trans ih

section
variable {U : Type*} {signed : U → ε → Prop} [∀ u, DecidablePred (signed u)] {run run' : List ε}
  {i j : ε}

/-- Every party has the same events in the same order; how they interleave may differ. -/
def Reschedules (signed : U → ε → Prop) [∀ u, DecidablePred (signed u)] (run run' : List ε) :
    Prop :=
  ∀ u, purge (signed u) run = purge (signed u) run'

/-- Neighbouring events of different parties can be swapped. -/
theorem reschedules_swap (h : ∀ u, signed u i → ¬ signed u j) (pre post : List ε) :
    Reschedules signed (pre ++ i :: j :: post) (pre ++ j :: i :: post) := by
  intro u
  by_cases hi : signed u i
  · simp [purge, hi, h u hi]
  · simp [purge, List.filter_cons, hi]

/-- An event that the next one of its parties supersedes, whatever the others do in between. -/
theorem drops_between {supersedes : ε → ε → Prop} (hs : supersedes i j)
    (hij : ∀ u, signed u i → signed u j) (pre mid post : List ε)
    (hmid : ∀ u, signed u i → ∀ e ∈ mid, ¬ signed u e) (u : U) :
    Drops supersedes (purge (signed u) (pre ++ i :: (mid ++ j :: post)))
      (purge (signed u) (pre ++ (mid ++ j :: post))) := by
  have hsplit : ∀ run, purge (signed u) (pre ++ run) =
      purge (signed u) pre ++ purge (signed u) run := fun run => List.filter_append _ _
  rw [hsplit, hsplit]
  apply drops_append
  by_cases hi : signed u i
  · have hnone : purge (signed u) mid = [] := by
      apply List.filter_eq_nil_iff.mpr
      intro e he
      simp [hmid u hi e he]
    have hrest : purge (signed u) (mid ++ j :: post) = j :: purge (signed u) post := by
      rw [purge, List.filter_append, ← purge, hnone]
      simp [purge, hij u hi]
    have hall : purge (signed u) (i :: (mid ++ j :: post)) =
        i :: purge (signed u) (mid ++ j :: post) := by
      simp [purge, hi]
    rw [hall, hrest]
    exact .drop hs (drops_refl _)
  · have hall : purge (signed u) (i :: (mid ++ j :: post)) =
        purge (signed u) (mid ++ j :: post) := by
      simp [purge, hi]
    rw [hall]
    exact drops_refl _

section
variable {T : Type*} [LinearOrder T] {time : ε → T}

/-- The events of a run in the order of their times, those of one time as they were. -/
def byTime (time : ε → T) (run : List ε) : List ε :=
  run.mergeSort fun i j => decide (time i ≤ time j)

theorem time_trans (i j k : ε) (hij : decide (time i ≤ time j) = true)
    (hjk : decide (time j ≤ time k) = true) : decide (time i ≤ time k) = true :=
  decide_eq_true (le_trans (of_decide_eq_true hij) (of_decide_eq_true hjk))

theorem time_total (i j : ε) : (decide (time i ≤ time j) || decide (time j ≤ time i)) = true := by
  rcases le_total (time i) (time j) with hle | hle <;> simp [hle]

theorem pairwise_byTime : (byTime time run).Pairwise fun i j => time i ≤ time j :=
  (List.pairwise_mergeSort time_trans time_total run).imp of_decide_eq_true

theorem mem_byTime : i ∈ byTime time run ↔ i ∈ run := List.mem_mergeSort

/-- A run can be put in the order of its times if every party's own events are in that order. -/
theorem reschedules_byTime
    (h : ∀ u, (purge (signed u) run).Pairwise fun i j => time i ≤ time j) :
    Reschedules signed run (byTime time run) := by
  intro u
  have hown : (purge (signed u) run).Pairwise fun i j => decide (time i ≤ time j) = true :=
    (h u).imp fun hle => decide_eq_true hle
  -- the sort is stable, so it keeps the events of `u` in their order
  have hsub : (purge (signed u) run).Sublist (byTime time run) :=
    List.sublist_mergeSort time_trans time_total hown List.filter_sublist
  have hpurged : purge (signed u) (purge (signed u) run) = purge (signed u) run := by
    simp [purge, List.filter_filter]
  have hfilter : (purge (signed u) (purge (signed u) run)).Sublist
      (purge (signed u) (byTime time run)) := hsub.filter _
  rw [hpurged] at hfilter
  apply hfilter.eq_of_length
  exact ((List.mergeSort_perm run _).symm.filter _).length_eq

end

theorem observe_of_reschedules {u : U} (h : Unwinds step out view (signed u))
    (hr : Reschedules signed run run') :
    observe step out view (signed u) s run = observe step out view (signed u) s run' := by
  rw [observe_purge h run rfl, hr u, ← observe_purge h run' rfl]

theorem view_foldl_of_reschedules {u : U} (h : Unwinds step out view (signed u))
    (hr : Reschedules signed run run') : view (run.foldl step s) = view (run'.foldl step s) := by
  rw [view_foldl_purge h run rfl, hr u, ← view_foldl_purge h run' rfl]

theorem view_foldl_of_drops {u : U} {supersedes : ε → ε → Prop}
    (h : Unwinds step out view (signed u))
    (hs : ∀ s e e', supersedes e e' → view (step (step s e) e') = view (step s e'))
    (hd : Drops supersedes (purge (signed u) run) (purge (signed u) run')) :
    view (run.foldl step s) = view (run'.foldl step s) := by
  rw [view_foldl_purge h run rfl, view_foldl_drops h hs hd, ← view_foldl_purge h run' rfl]

end

end Trace
