import BlockLockCore.Refinement

/-!
The program among SPL token accounts. The SPL Token program is outside the repository: assumed
is that an owner can transfer up to the balance out of its account, and that inside an
instruction tokens move only by the calls its handler makes.
-/
namespace BlockLockCore

open Checked Trace

variable {Pubkey : Type} [DecidableEq Pubkey]

/-- Every SPL token account, by address. -/
abbrev Tokens (Pubkey : Type) := Pubkey → Option (TokenAccount Pubkey)

/-- The balance of an account, 0 where there is none. -/
def balance (tokens : Tokens Pubkey) (k : Pubkey) : ℕ :=
  ((tokens k).map fun t => t.amount.toNat).getD 0

/-- The transfer instruction of the SPL Token program; `none` when it refuses. -/
def transfer (tokens : Tokens Pubkey) (t : Transfer Pubkey) : Option (Tokens Pubkey) :=
  match tokens t.source, tokens t.destination with
  | some source, some destination =>
    if source.owner ≠ t.authority ∨ source.mint ≠ destination.mint ∨ source.amount < t.amount then
      none
    else if t.source = t.destination then
      some tokens
    else if 2 ^ 64 ≤ destination.amount.toNat + t.amount.toNat then
      none
    else
      some (Function.update
        (Function.update tokens t.source (some { source with amount := source.amount - t.amount }))
        t.destination (some { destination with amount := destination.amount + t.amount }))
  | _, _ => none

/-- The chain as far as it matters to locked tokens. `now` is the latest time reached, and
`held k` counts the tokens that came from `k` into accounts under the program's control. -/
structure Chain (Pubkey : Type) where
  now : ℤ
  records : Records Pubkey
  tokens : Tokens Pubkey
  held : Pubkey → ℕ

/-- An instruction of the program, or a transfer by the owner of a token account. -/
inductive Action (Pubkey : Type)
  | invoke (instruction : Instruction Pubkey)
  | transfer (t : Transfer Pubkey)

structure Timed (Pubkey : Type) where
  clock : Int64
  action : Action Pubkey

/-- Anchor loads the token account passed from the chain. Other accounts are refused as what they
are, an unused address as not initialized. -/
def loadToken (tokens : Tokens Pubkey) (a : Account Pubkey (TokenAccount Pubkey)) :
    Account Pubkey (TokenAccount Pubkey) where
  toAccountInfo := a.toAccountInfo
  data :=
    match tokens a.key, a.data with
    | some t, _ => .ok t
    | none, .error e => .error e
    | none, .ok _ => .error (.anchor .accountNotInitialized)

def LockTokens.load (tokens : Tokens Pubkey) (accts : LockTokens Pubkey) : LockTokens Pubkey :=
  { accts with userTokenAccount := loadToken tokens accts.userTokenAccount }

def UnlockTokens.load (tokens : Tokens Pubkey) (accts : UnlockTokens Pubkey) :
    UnlockTokens Pubkey :=
  { accts with userTokenAccount := loadToken tokens accts.userTokenAccount }

def Instruction.load (tokens : Tokens Pubkey) : Instruction Pubkey → Instruction Pubkey
  | .lockTokens accts amount => .lockTokens (accts.load tokens) amount
  | .unlockTokens accts => .unlockTokens (accts.load tokens)

/-- Whether the account at `k` is owned by an authority of the program. -/
def inCustody (controls : Pubkey → Bool) (tokens : Tokens Pubkey) (k : Pubkey) : Bool :=
  (tokens k).any fun t => controls t.owner

/-- The effect of a transfer; a refused one changes nothing. -/
def Chain.move (controls : Pubkey → Bool) (c : Chain Pubkey) (t : Transfer Pubkey) :
    Chain Pubkey :=
  match BlockLockCore.transfer c.tokens t with
  | none => c
  | some tokens =>
    { c with
      tokens := tokens
      held :=
        if t.source ≠ t.destination ∧ inCustody controls c.tokens t.destination = true then
          Function.update c.held t.source (c.held t.source + t.amount.toNat)
        else c.held }

/-- `controls` tells the authorities only the program can sign for: they sign no transfer of
their own. -/
def Chain.step (rt : Runtime Pubkey) (controls : Pubkey → Bool) (c : Chain Pubkey)
    (e : Timed Pubkey) : Chain Pubkey :=
  let c := { c with now := max c.now e.clock.toInt }
  match e.action with
  | .invoke instruction =>
    let inv : Invocation Pubkey := ⟨e.clock, instruction.load c.tokens⟩
    match process rt c.records inv with
    | .error _ => c
    | .ok effect =>
      effect.transfers.foldl (Chain.move controls)
        { c with records := BlockLockCore.step rt c.records inv }
  | .transfer t => if controls t.authority = true then c else c.move controls t

/-- Any token accounts, and the program just deployed. -/
def genesis (now : ℤ) (tokens : Tokens Pubkey) : Chain Pubkey :=
  { now := now, records := noRecords Pubkey, tokens := tokens, held := fun _ => 0 }

variable {rt : Runtime Pubkey} {controls : Pubkey → Bool} {c : Chain Pubkey}
  {tokens tokens' : Tokens Pubkey} {t : Transfer Pubkey} {k : Pubkey}

/-- What a transfer that goes through does to the balances. -/
theorem transfer_balance (h : transfer tokens t = some tokens') :
    (t.source = t.destination ∧ tokens' = tokens) ∨
    (t.source ≠ t.destination ∧
      balance tokens' t.source + t.amount.toNat = balance tokens t.source ∧
      balance tokens' t.destination = balance tokens t.destination + t.amount.toNat ∧
      ∀ k, k ≠ t.source → k ≠ t.destination → balance tokens' k = balance tokens k) := by
  unfold transfer at h
  split at h
  · rename_i source destination hs hd
    split at h
    · cases h
    · rename_i hok
      have hfunded : t.amount ≤ source.amount := by
        apply UInt64.not_lt.mp
        intro hlt
        exact hok (Or.inr (Or.inr hlt))
      split at h
      · exact Or.inl ⟨‹_›, (Option.some.inj h).symm⟩
      · rename_i hne
        split at h
        · cases h
        · rename_i hfits
          obtain rfl := Option.some.inj h
          have hsub := UInt64.toNat_sub_of_le source.amount t.amount hfunded
          have hle := UInt64.le_iff_toNat_le.mp hfunded
          have hadd : (destination.amount + t.amount).toNat =
              destination.amount.toNat + t.amount.toNat := by
            rw [UInt64.toNat_add, Nat.mod_eq_of_lt (by omega)]
          refine Or.inr ⟨hne, ?_, ?_, ?_⟩
          · simp only [balance, Function.update_of_ne hne, Function.update_self, hs,
              Option.map_some, Option.getD_some]
            omega
          · simp only [balance, Function.update_self, hd, Option.map_some, Option.getD_some]
            exact hadd
          · intro k hk hk'
            simp only [balance, Function.update_of_ne hk, Function.update_of_ne hk']
  · cases h

/-- The program moves no tokens: an instruction changes the clock and the records only. -/
theorem step_invoke (c : Chain Pubkey) (clock : Int64) (instruction : Instruction Pubkey) :
    c.step rt controls ⟨clock, .invoke instruction⟩ =
      { c with
        now := max c.now clock.toInt
        records := step rt c.records ⟨clock, instruction.load c.tokens⟩ } := by
  cases hp : process rt c.records ⟨clock, instruction.load c.tokens⟩ with
  | error x => simp only [Chain.step, hp, step_of_error hp]
  | ok e => simp only [Chain.step, hp, process_transfers hp, List.foldl_nil]

/-- The balance of `k` with the tokens of `k` that the program holds. -/
def Chain.funds (c : Chain Pubkey) (k : Pubkey) : ℕ := balance c.tokens k + c.held k

/-- An owner moves tokens out of its account, and not into the program's control. -/
def Chain.Spends (controls : Pubkey → Bool) (c : Chain Pubkey) (t : Transfer Pubkey) : Prop :=
  controls t.authority = false ∧ (BlockLockCore.transfer c.tokens t).isSome = true ∧
    t.source ≠ t.destination ∧ inCustody controls c.tokens t.destination = false

theorem step_transfer_tokens (c : Chain Pubkey) (clock : Int64) (t : Transfer Pubkey) :
    (c.step rt controls ⟨clock, .transfer t⟩).funds k =
      if controls t.authority = true then c.funds k else (c.move controls t).funds k := by
  simp only [Chain.step]
  split
  · rfl
  · unfold Chain.move Chain.funds
    cases transfer c.tokens t <;> rfl

/-- Spending takes the amount from the funds of the source. -/
theorem funds_of_spends (rt : Runtime Pubkey) (h : c.Spends controls t) (clock : Int64) :
    (c.step rt controls ⟨clock, .transfer t⟩).funds t.source + t.amount.toNat =
      c.funds t.source := by
  obtain ⟨hauth, hsome, hne, hdest⟩ := h
  obtain ⟨tokens, ht⟩ := Option.isSome_iff_exists.mp hsome
  have hcustody : ¬ (t.source ≠ t.destination ∧
      inCustody controls c.tokens t.destination = true) := by simp [hdest]
  rw [step_transfer_tokens, hauth, if_neg Bool.false_ne_true]
  rcases transfer_balance ht with ⟨heq, _⟩ | ⟨_, hsource, _, _⟩
  · exact (hne heq).elim
  · simp only [Chain.move, ht, if_neg hcustody, Chain.funds]
    omega

/-- Nothing else lowers the funds of an account. -/
theorem funds_of_not_spends (clock : Int64) (h : c.Spends controls t → k ≠ t.source) :
    c.funds k ≤ (c.step rt controls ⟨clock, .transfer t⟩).funds k := by
  rw [step_transfer_tokens]
  split
  · exact le_rfl
  · rename_i hauth
    unfold Chain.move
    cases ht : transfer c.tokens t with
    | none => exact le_rfl
    | some tokens =>
      rcases transfer_balance ht with ⟨heq, rfl⟩ | ⟨hne, hsource, hdest, hother⟩
      · simp [Chain.funds, heq]
      · simp only [Chain.funds]
        by_cases hcustody : inCustody controls c.tokens t.destination = true
        · -- what leaves the source is held for it
          simp only [hne, hcustody, ne_eq, not_false_eq_true, and_self, if_true]
          by_cases hk : k = t.source
          · subst k
            rw [Function.update_self]
            omega
          · rw [Function.update_of_ne hk]
            by_cases hkd : k = t.destination
            · subst k
              omega
            · rw [hother k hk hkd]
        · have hk : k ≠ t.source := by
            apply h
            refine ⟨by simpa using hauth, by simp [ht], hne, by simpa using hcustody⟩
          simp only [hcustody, Bool.false_eq_true, and_false, if_false]
          by_cases hkd : k = t.destination
          · subst k
            omega
          · rw [hother k hk hkd]

theorem move_records : (c.move controls t).records = c.records := by
  unfold Chain.move
  split <;> rfl

theorem move_now : (c.move controls t).now = c.now := by
  unfold Chain.move
  split <;> rfl

theorem step_now (e : Timed Pubkey) :
    (c.step rt controls e).now = max c.now e.clock.toInt := by
  rcases e with ⟨clock, instruction | t⟩
  · rw [step_invoke]
  · simp only [Chain.step]
    split
    · rfl
    · exact move_now

theorem step_transfer_records (c : Chain Pubkey) (clock : Int64) (t : Transfer Pubkey) :
    (c.step rt controls ⟨clock, .transfer t⟩).records = c.records := by
  simp only [Chain.step]
  split
  · rfl
  · exact move_records

end BlockLockCore
