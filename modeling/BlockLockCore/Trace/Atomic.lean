import Mathlib.Data.List.Basic
import Mathlib.Order.Monotone.Basic

/-!
Atomic batches: all events of a batch take effect, or none does. Which events a batch asks for may
depend on the state in which it starts.
-/
namespace Trace

variable {σ ε : Type*} {attempt : σ → ε → Option σ} {s t : σ} {run : List ε} {b : σ → List ε}

/-- The events one after another; `none` as soon as one is refused. -/
def commit (attempt : σ → ε → Option σ) (s : σ) : List ε → Option σ
  | [] => some s
  | e :: run => (attempt s e).bind fun t => commit attempt t run

/-- An event that is refused does nothing. -/
def orStay (attempt : σ → ε → Option σ) (s : σ) (e : ε) : σ := (attempt s e).getD s

/-- A batch that is refused leaves the state as it was. -/
def atomic (attempt : σ → ε → Option σ) (s : σ) (b : σ → List ε) : σ :=
  match commit attempt s (b s) with
  | some t => t
  | none => s

/-- The events of a batch, if it is not refused. -/
def effective (attempt : σ → ε → Option σ) (s : σ) (b : σ → List ε) : List ε :=
  if (commit attempt s (b s)).isSome then b s else []

/-- The events of the batches that were not refused. -/
def committed (attempt : σ → ε → Option σ) (s : σ) : List (σ → List ε) → List ε
  | [] => []
  | b :: bs => effective attempt s b ++ committed attempt (atomic attempt s b) bs

/-- One batch of several parts, each of which starts where the one before it ends. Nothing comes
after a part that is refused. -/
def sequence (attempt : σ → ε → Option σ) : List (σ → List ε) → σ → List ε
  | [], _ => []
  | b :: bs, s =>
    match commit attempt s (b s) with
    | some t => b s ++ sequence attempt bs t
    | none => b s

theorem atomic_of_none (h : commit attempt s (b s) = none) : atomic attempt s b = s := by
  simp only [atomic, h]

theorem atomic_of_some (h : commit attempt s (b s) = some t) : atomic attempt s b = t := by
  simp only [atomic, h]

theorem commit_append (s : σ) (run run' : List ε) :
    commit attempt s (run ++ run') =
      (commit attempt s run).bind fun t => commit attempt t run' := by
  induction run generalizing s with
  | nil => rfl
  | cons e run ih =>
    simp only [List.cons_append, commit, ih]
    cases attempt s e <;> rfl

/-- The parts of a batch take effect together. -/
theorem commit_sequence (b : σ → List ε) (bs : List (σ → List ε)) (s : σ) :
    commit attempt s (sequence attempt (b :: bs) s) =
      (commit attempt s (b s)).bind fun t => commit attempt t (sequence attempt bs t) := by
  cases h : commit attempt s (b s) with
  | none => simp only [sequence, h, Option.bind_none]
  | some t => simp only [sequence, h, commit_append, Option.bind_some]

theorem sequence_singleton (b : σ → List ε) (s : σ) : sequence attempt [b] s = b s := by
  cases h : commit attempt s (b s) with
  | none => simp only [sequence, h]
  | some t => simp only [sequence, h, List.append_nil]

theorem mem_of_mem_sequence {bs : List (σ → List ε)} {e : ε}
    (h : e ∈ sequence attempt bs s) : ∃ b ∈ bs, ∃ t, e ∈ b t := by
  induction bs generalizing s with
  | nil => cases h
  | cons b bs ih =>
    cases hc : commit attempt s (b s) with
    | none =>
      simp only [sequence, hc] at h
      exact ⟨b, List.mem_cons_self, s, h⟩
    | some t =>
      simp only [sequence, hc] at h
      rcases List.mem_append.mp h with hb | hbs
      · exact ⟨b, List.mem_cons_self, s, hb⟩
      · obtain ⟨b', hb', u, hu⟩ := ih hbs
        exact ⟨b', List.mem_cons_of_mem b hb', u, hu⟩

/-- A part of a batch that is not refused is not refused itself. -/
theorem sequence_of_commit {bs : List (σ → List ε)}
    (h : commit attempt s (sequence attempt (b :: bs) s) = some t) :
    ∃ u, sequence attempt (b :: bs) s = b s ++ sequence attempt bs u ∧
      commit attempt u (sequence attempt bs u) = some t := by
  rw [commit_sequence] at h
  obtain ⟨u, hu, h⟩ := Option.bind_eq_some_iff.mp h
  exact ⟨u, by simp only [sequence, hu], h⟩

theorem commit_effective (attempt : σ → ε → Option σ) (s : σ) (b : σ → List ε) :
    commit attempt s (effective attempt s b) = some (atomic attempt s b) := by
  cases h : commit attempt s (b s) with
  | none => simp [effective, h, atomic_of_none h, commit]
  | some t => simp [effective, h, atomic_of_some h]

theorem mem_of_mem_effective {e : ε} (h : e ∈ effective attempt s b) : e ∈ b s := by
  unfold effective at h
  split at h
  · exact h
  · cases h

/-- Batches that were not refused are one sequence of events, none of them refused. -/
theorem commit_committed (attempt : σ → ε → Option σ) (s : σ) (bs : List (σ → List ε)) :
    commit attempt s (committed attempt s bs) = some (bs.foldl (atomic attempt) s) := by
  induction bs generalizing s with
  | nil => rfl
  | cons b bs ih =>
    rw [committed, commit_append, commit_effective, Option.bind_some, ih, List.foldl_cons]

theorem committed_append (s : σ) (bs bs' : List (σ → List ε)) :
    committed attempt s (bs ++ bs') =
      committed attempt s bs ++ committed attempt (bs.foldl (atomic attempt) s) bs' := by
  induction bs generalizing s with
  | nil => rfl
  | cons b bs ih =>
    simp only [List.cons_append, committed, ih, List.foldl_cons, List.append_assoc]

theorem mem_of_mem_committed {bs : List (σ → List ε)} {e : ε}
    (h : e ∈ committed attempt s bs) : ∃ b ∈ bs, ∃ t, e ∈ b t := by
  induction bs generalizing s with
  | nil => cases h
  | cons b bs ih =>
    rcases List.mem_append.mp h with hb | hbs
    · exact ⟨b, List.mem_cons_self, s, mem_of_mem_effective hb⟩
    · obtain ⟨b', hb', t, ht⟩ := ih hbs
      exact ⟨b', List.mem_cons_of_mem b hb', t, ht⟩

/-- A sequence that is not refused is a run in which no event is. -/
theorem run_of_commit (h : commit attempt s run = some t) : run.foldl (orStay attempt) s = t ∧
    ∀ (n : ℕ) e, run[n]? = some e →
      (attempt ((run.take n).foldl (orStay attempt) s) e).isSome = true := by
  induction run generalizing s with
  | nil =>
    cases h
    refine ⟨rfl, ?_⟩
    intro n e he
    cases he
  | cons e run ih =>
    obtain ⟨u, hu, h⟩ := Option.bind_eq_some_iff.mp h
    have hstep : orStay attempt s e = u := by
      simp only [orStay, hu, Option.getD_some]
    obtain ⟨hfold, hall⟩ := ih h
    rw [List.foldl_cons, hstep]
    refine ⟨hfold, ?_⟩
    intro n e' he'
    cases n with
    | zero =>
      cases he'
      simp [hu]
    | succ n =>
      rw [List.take_succ_cons, List.foldl_cons, hstep]
      exact hall n e' he'

theorem isSome_of_committed {bs : List (σ → List ε)} {n : ℕ} {e : ε}
    (h : (committed attempt s bs)[n]? = some e) :
    (attempt (((committed attempt s bs).take n).foldl (orStay attempt) s) e).isSome = true :=
  (run_of_commit (commit_committed attempt s bs)).2 n e h

/-- The place in the run at which batch `k` starts. -/
def startOf (attempt : σ → ε → Option σ) (s : σ) (bs : List (σ → List ε)) (k : ℕ) : ℕ :=
  (committed attempt s (bs.take k)).length

theorem committed_take (bs : List (σ → List ε)) (k : ℕ) :
    (committed attempt s bs).take (startOf attempt s bs k) =
      committed attempt s (bs.take k) := by
  have hsplit : committed attempt s bs = committed attempt s (bs.take k) ++
      committed attempt ((bs.take k).foldl (atomic attempt) s) (bs.drop k) := by
    rw [← committed_append, List.take_append_drop]
  rw [hsplit, startOf, List.take_left]

theorem committed_take_succ {bs : List (σ → List ε)} {k : ℕ} (h : bs[k]? = some b) :
    committed attempt s (bs.take (k + 1)) = committed attempt s (bs.take k) ++
      effective attempt ((bs.take k).foldl (atomic attempt) s) b := by
  rw [List.take_add_one, h, Option.toList_some, committed_append, committed, committed,
    List.append_nil]

/-- The state in which batch `k` starts is the state of the run there. -/
theorem state_startOf (attempt : σ → ε → Option σ) (s : σ) (bs : List (σ → List ε)) (k : ℕ) :
    ((committed attempt s bs).take (startOf attempt s bs k)).foldl (orStay attempt) s =
      (bs.take k).foldl (atomic attempt) s := by
  rw [committed_take]
  exact (run_of_commit (commit_committed attempt s _)).1

theorem monotone_startOf (attempt : σ → ε → Option σ) (s : σ) (bs : List (σ → List ε)) :
    Monotone (startOf attempt s bs) := by
  intro j k hjk
  have hsplit : bs.take k = bs.take j ++ (bs.take k).drop j := by
    have htake : (bs.take k).take j = bs.take j := by
      rw [List.take_take, min_eq_left hjk]
    rw [← htake, List.take_append_drop]
  rw [startOf, startOf, hsplit, committed_append, List.length_append]
  exact Nat.le_add_right _ _

/-- From the start of batch `k` to the next the run has the events of that batch, or none. -/
theorem events_startOf {bs : List (σ → List ε)} {k : ℕ} (h : bs[k]? = some b) :
    ((committed attempt s bs).take (startOf attempt s bs (k + 1))).drop (startOf attempt s bs k) =
      effective attempt ((bs.take k).foldl (atomic attempt) s) b := by
  rw [committed_take, committed_take_succ h, startOf, List.drop_left]

/-- What one event establishes and all later ones keep holds to the end. -/
theorem commit_invariant {P : σ → Prop} (hs : ∀ s t e, e ∈ run → P s → attempt s e = some t → P t)
    (h : P s) (hc : commit attempt s run = some t) : P t := by
  induction run generalizing s with
  | nil =>
    cases hc
    exact h
  | cons e run ih =>
    obtain ⟨u, hu, hc⟩ := Option.bind_eq_some_iff.mp hc
    have hrest : ∀ s t e', e' ∈ run → P s → attempt s e' = some t → P t :=
      fun s t e' he' => hs s t e' (List.mem_cons_of_mem e he')
    exact ih hrest (hs s u e List.mem_cons_self h hu) hc

section
variable {α β : Type*} {f : α → Option β} {run : List α}

/-- Two of the picked items, one before the other, split the list they come from. -/
theorem split_of_sublist {a b : β} (h : List.Sublist [a, b] (run.filterMap f)) :
    ∃ pre mid post d e, run = pre ++ d :: (mid ++ e :: post) ∧ f d = some a ∧ f e = some b := by
  induction run with
  | nil => cases h
  | cons c run ih =>
    cases hc : f c with
    | none =>
      rw [List.filterMap_cons_none hc] at h
      obtain ⟨pre, mid, post, d, e, rfl, hd, he⟩ := ih h
      exact ⟨c :: pre, mid, post, d, e, rfl, hd, he⟩
    | some x =>
      rw [List.filterMap_cons_some hc] at h
      cases h with
      | cons _ h =>
        obtain ⟨pre, mid, post, d, e, rfl, hd, he⟩ := ih h
        exact ⟨c :: pre, mid, post, d, e, rfl, hd, he⟩
      | cons_cons _ h =>
        obtain ⟨e, he, hfe⟩ := List.mem_filterMap.mp (List.singleton_sublist.mp h)
        obtain ⟨mid, post, rfl⟩ := List.append_of_mem he
        exact ⟨[], mid, post, c, e, rfl, hc, hfe⟩

theorem filterMap_range (run : List α) (f : α → Option β) (m k : ℕ) :
    (List.range' m k).filterMap (fun n => run[n]?.bind f) = ((run.drop m).take k).filterMap f := by
  induction k generalizing m with
  | zero => rfl
  | succ k ih =>
    rw [List.range'_succ, List.filterMap_cons, ih]
    cases hm : run[m]? with
    | none =>
      have hlong : run.length ≤ m := List.getElem?_eq_none_iff.mp hm
      simp [List.drop_eq_nil_of_le, hlong, Nat.le_succ_of_le hlong]
    | some e =>
      obtain ⟨hlt, rfl⟩ := List.getElem?_eq_some_iff.mp hm
      rw [List.drop_eq_getElem_cons hlt, List.take_succ_cons, List.filterMap_cons]
      rfl

end

end Trace
