import BlockLockCore.Backing

/-! Where the tokens are: none is made or lost, and what comes under the program's control stays. -/
namespace BlockLockCore

open Checked Trace TimeLock

variable {Pubkey : Type} {rt : Runtime Pubkey} {controls : Pubkey → Bool} {c : Chain Pubkey}
  {tokens tokens' : Tokens Pubkey} {t : Transfer Pubkey} {k : Pubkey}

theorem inCustody_eq : inCustody controls tokens k =
    ((tokens k).map TokenAccount.owner).any controls := by
  cases h : tokens k <;> simp [inCustody, h]

variable [DecidableEq Pubkey]

theorem sum_of_gain {f g : Pubkey → ℕ} {K : Finset Pubkey} {x : ℕ} (hk : k ∈ K)
    (hg : g k = f k + x) (h : ∀ j ∈ K, j ≠ k → g j = f j) :
    ∑ j ∈ K, g j = ∑ j ∈ K, f j + x := by
  have hrest : ∑ j ∈ K.erase k, g j = ∑ j ∈ K.erase k, f j :=
    Finset.sum_congr rfl fun j hj => h j (Finset.mem_of_mem_erase hj) (Finset.ne_of_mem_erase hj)
  have hgk := Finset.add_sum_erase K g hk
  have hfk := Finset.add_sum_erase K f hk
  omega

/-- Only the owner of an account transfers out of it, and no transfer changes an owner. -/
theorem transfer_owners (h : transfer tokens t = some tokens') :
    (tokens t.source).map TokenAccount.owner = some t.authority ∧
      ∀ k, (tokens' k).map TokenAccount.owner = (tokens k).map TokenAccount.owner := by
  unfold transfer at h
  split at h
  · rename_i source destination hs hd
    split at h
    · cases h
    · rename_i hok
      have hauth : source.owner = t.authority := by
        by_contra hne
        exact hok (Or.inl hne)
      refine ⟨by rw [hs, Option.map_some, hauth], ?_⟩
      intro k
      split at h
      · cases h
        rfl
      · split at h
        · cases h
        · cases h
          by_cases hkd : k = t.destination
          · subst k
            simp [hd]
          · by_cases hks : k = t.source
            · subst k
              simp [Function.update_of_ne hkd, hs]
            · simp [Function.update_of_ne hkd, Function.update_of_ne hks]
  · cases h

/-- All that a step can do to the tokens. -/
theorem step_cases (rt : Runtime Pubkey) (controls : Pubkey → Bool) (c : Chain Pubkey)
    (e : Timed Pubkey) :
    ((c.step rt controls e).tokens = c.tokens ∧ (c.step rt controls e).held = c.held) ∨
    ∃ T t, e = ⟨T, .transfer t⟩ ∧ controls t.authority = false ∧
      transfer c.tokens t = some (c.step rt controls e).tokens ∧
      (c.step rt controls e).held =
        if t.source ≠ t.destination ∧ inCustody controls c.tokens t.destination = true then
          Function.update c.held t.source (c.held t.source + t.amount.toNat)
        else c.held := by
  rcases e with ⟨T, instruction | t⟩
  · left
    rw [step_invoke]
    exact ⟨rfl, rfl⟩
  · simp only [Chain.step]
    split
    · exact Or.inl ⟨rfl, rfl⟩
    · rename_i hauth
      cases ht : transfer c.tokens t with
      | none =>
        left
        simp only [Chain.move, ht, and_self]
      | some tokens' =>
        right
        refine ⟨T, t, rfl, by simpa using hauth, ?_, ?_⟩
        · simp only [Chain.move, ht]
        · simp only [Chain.move, ht]

/-- No step brings an account under the program's control or takes it out. -/
theorem inCustody_step (e : Timed Pubkey) :
    inCustody controls (c.step rt controls e).tokens k = inCustody controls c.tokens k := by
  rcases step_cases rt controls c e with ⟨htokens, _⟩ | ⟨T, t, _, _, ht, _⟩
  · rw [htokens]
  · rw [inCustody_eq, inCustody_eq, (transfer_owners ht).2 k]

theorem source_not_inCustody (hauth : controls t.authority = false)
    (h : transfer tokens t = some tokens') : inCustody controls tokens t.source = false := by
  rw [inCustody_eq, (transfer_owners h).1, Option.any_some, hauth]

/-- An account under the program's control never loses a token. -/
theorem balance_step_of_inCustody (e : Timed Pubkey) (hk : inCustody controls c.tokens k = true) :
    balance c.tokens k ≤ balance (c.step rt controls e).tokens k := by
  rcases step_cases rt controls c e with ⟨htokens, _⟩ | ⟨T, t, _, hauth, ht, _⟩
  · rw [htokens]
  · have hks : k ≠ t.source := by
      rintro rfl
      cases hk.symm.trans (source_not_inCustody hauth ht)
    rcases transfer_balance ht with ⟨_, hsame⟩ | ⟨_, _, hdest, hother⟩
    · rw [hsame]
    · by_cases hkd : k = t.destination
      · subst k
        omega
      · rw [hother k hks hkd]

theorem held_step (e : Timed Pubkey) : c.held k ≤ (c.step rt controls e).held k := by
  rcases step_cases rt controls c e with ⟨_, hheld⟩ | ⟨T, t, _, _, _, hheld⟩
  · rw [hheld]
  · rw [hheld]
    split
    · by_cases hk : k = t.source
      · subst k
        simp
      · rw [Function.update_of_ne hk]
    · exact le_rfl

/-- The accounts of a transfer are both among `K`, or neither is. -/
def Closed (K : Finset Pubkey) (e : Timed Pubkey) : Prop :=
  ∀ T t, e = ⟨T, .transfer t⟩ → (t.source ∈ K ↔ t.destination ∈ K)

/-- No token is made or lost. -/
theorem supply_step (rt : Runtime Pubkey) (controls : Pubkey → Bool) (c : Chain Pubkey)
    {K : Finset Pubkey} {e : Timed Pubkey} (hK : Closed K e) :
    ∑ k ∈ K, balance (c.step rt controls e).tokens k = ∑ k ∈ K, balance c.tokens k := by
  rcases step_cases rt controls c e with ⟨htokens, _⟩ | ⟨T, t, he, _, ht, _⟩
  · rw [htokens]
  · rcases transfer_balance ht with ⟨_, hsame⟩ | ⟨hne, hsource, hdest, hother⟩
    · rw [hsame]
    · by_cases hs : t.source ∈ K
      · have hd : t.destination ∈ K.erase t.source :=
          Finset.mem_erase.mpr ⟨Ne.symm hne, (hK T t he).mp hs⟩
        have hgain := sum_of_gain hd hdest fun j hj hjd => hother j (Finset.ne_of_mem_erase hj) hjd
        have hnew := Finset.add_sum_erase K (balance (c.step rt controls e).tokens) hs
        have hold := Finset.add_sum_erase K (balance c.tokens) hs
        omega
      · have hd : t.destination ∉ K := mt (hK T t he).mpr hs
        apply Finset.sum_congr rfl
        intro j hj
        exact hother j (fun h => hs (h ▸ hj)) (fun h => hd (h ▸ hj))

/-- What the accounts under the program's control gain is what is held. -/
theorem gain_step (rt : Runtime Pubkey) (controls : Pubkey → Bool) (c : Chain Pubkey)
    {K : Finset Pubkey} {e : Timed Pubkey} (hK : Closed K e) :
    ∑ k ∈ K.filter fun k => inCustody controls c.tokens k = true,
        balance (c.step rt controls e).tokens k + ∑ k ∈ K, c.held k =
      ∑ k ∈ K.filter fun k => inCustody controls c.tokens k = true, balance c.tokens k +
        ∑ k ∈ K, (c.step rt controls e).held k := by
  rcases step_cases rt controls c e with ⟨htokens, hheld⟩ | ⟨T, t, he, hauth, ht, hheld⟩
  · rw [htokens, hheld]
  · have hsource := source_not_inCustody hauth ht
    rcases transfer_balance ht with ⟨hself, hsame⟩ | ⟨hne, _, hdest, hother⟩
    · rw [hheld, hsame, if_neg fun h => h.1 hself]
    · have hother : ∀ j ∈ K.filter fun k => inCustody controls c.tokens k = true,
          j ≠ t.destination →
            balance (c.step rt controls e).tokens j = balance c.tokens j := by
        intro j hj hjd
        apply hother j _ hjd
        rintro rfl
        cases (Finset.mem_filter.mp hj).2.symm.trans hsource
      by_cases hd : t.destination ∈ K.filter fun k => inCustody controls c.tokens k = true
      · obtain ⟨hdK, hcustody⟩ := Finset.mem_filter.mp hd
        have hheldK : ∑ k ∈ K, (c.step rt controls e).held k =
            ∑ k ∈ K, c.held k + t.amount.toNat := by
          rw [hheld, if_pos ⟨hne, hcustody⟩]
          apply sum_of_gain ((hK T t he).mpr hdK) (Function.update_self ..)
          intro j _ hj
          exact Function.update_of_ne hj _ _
        have hbalance := sum_of_gain hd hdest hother
        omega
      · have hheldK : ∑ k ∈ K, (c.step rt controls e).held k = ∑ k ∈ K, c.held k := by
          apply Finset.sum_congr rfl
          intro j hj
          rw [hheld]
          split
          · rename_i hcustody
            apply Function.update_of_ne
            rintro rfl
            exact hd (Finset.mem_filter.mpr ⟨(hK T t he).mp hj, hcustody.2⟩)
          · rfl
        rw [hheldK]
        congr 1
        apply Finset.sum_congr rfl
        intro j hj
        apply hother j hj
        rintro rfl
        exact hd hj

namespace ChainRun

variable {start : ℤ} {C : ChainRun rt controls start tokens} {m n : ℕ}

theorem inCustody_state (C : ChainRun rt controls start tokens) (n : ℕ) (k : Pubkey) :
    inCustody controls (C.state n).tokens k = inCustody controls tokens k := by
  induction n with
  | zero => rw [C.start, genesis]
  | succ n ih =>
    cases he : C.event n with
    | none => rw [C.next_none he, ih]
    | some e => rw [C.next_some he, inCustody_step, ih]

theorem kept_state (hk : inCustody controls tokens k = true) (hmn : m ≤ n) :
    balance (C.state m).tokens k ≤ balance (C.state n).tokens k := by
  induction n, hmn using Nat.le_induction with
  | base => exact le_rfl
  | succ n hmn ih =>
    cases he : C.event n with
    | none => rwa [C.next_none he]
    | some e =>
      rw [C.next_some he]
      exact ih.trans (balance_step_of_inCustody e (by rwa [inCustody_state C n k]))

theorem held_state (hmn : m ≤ n) : (C.state m).held k ≤ (C.state n).held k := by
  induction n, hmn using Nat.le_induction with
  | base => exact le_rfl
  | succ n hmn ih =>
    cases he : C.event n with
    | none => rwa [C.next_none he]
    | some e =>
      rw [C.next_some he]
      exact ih.trans (held_step e)

theorem accounts_state {K : Finset Pubkey} (hK : ∀ n e, C.event n = some e → Closed K e)
    (n : ℕ) :
    ∑ k ∈ K, balance (C.state n).tokens k = ∑ k ∈ K, balance tokens k ∧
    ∑ k ∈ K.filter fun k => inCustody controls tokens k = true, balance (C.state n).tokens k =
      ∑ k ∈ K.filter fun k => inCustody controls tokens k = true, balance tokens k +
        ∑ k ∈ K, (C.state n).held k := by
  induction n with
  | zero => simp [C.start, genesis]
  | succ n ih =>
    cases he : C.event n with
    | none => rwa [C.next_none he]
    | some e =>
      have hclosed := hK n e he
      have hsupply := supply_step rt controls (C.state n) hclosed
      have hgain := gain_step rt controls (C.state n) hclosed
      simp only [inCustody_state C n] at hgain
      rw [C.next_some he]
      obtain ⟨ihsupply, ihgain⟩ := ih
      refine ⟨hsupply.trans ihsupply, ?_⟩
      omega

/--
No token is made or lost, by anybody. Accounts under the program's control never lose a token, as
no instruction moves one and nobody else can sign for them; what they gain over a run is exactly
what is held for the accounts it came from, and that never goes down either.
-/
theorem custody_one_way (C : ChainRun rt controls start tokens) :
    (∀ K : Finset Pubkey, (∀ n e, C.event n = some e → Closed K e) → ∀ n,
      ∑ k ∈ K, balance (C.state n).tokens k = ∑ k ∈ K, balance tokens k ∧
      ∑ k ∈ K.filter fun k => inCustody controls tokens k = true, balance (C.state n).tokens k =
        ∑ k ∈ K.filter fun k => inCustody controls tokens k = true, balance tokens k +
          ∑ k ∈ K, (C.state n).held k) ∧
    (∀ k m n, m ≤ n → inCustody controls (C.state m).tokens k = true →
      inCustody controls (C.state n).tokens k = true ∧
        balance (C.state m).tokens k ≤ balance (C.state n).tokens k) ∧
    (∀ k m n, m ≤ n → (C.state m).held k ≤ (C.state n).held k) := by
  refine ⟨fun K hK n => accounts_state hK n, ?_, fun k m n hmn => held_state hmn⟩
  intro k m n hmn hk
  rw [inCustody_state C m k] at hk
  exact ⟨(inCustody_state C n k).trans hk, kept_state hk hmn⟩

end ChainRun

end BlockLockCore
