import BlockLockCore.Rent
import BlockLockCore.Session

/-!
`lockUSDC` as a whole (`app/src/lock_usdc.js` 115-166): before it locks, the client sees to the
token account of its wallet. It sends up to two transactions and pays the fee of each; nobody else
acts between its steps.
-/
namespace BlockLockCore

open Checked Trace Wire Storage Deployment

section
variable {Pubkey : Type} {D : Deployment Pubkey}

/-- The Associated Token program, outside the repository. A wallet has one address for each mint,
and what is created there is a token account of that mint. -/
structure AssociatedToken (D : Deployment Pubkey) where
  getAssociatedTokenAddress : Pubkey → Pubkey → Pubkey
  /-- `createAssociatedTokenAccountInstruction` of a payer, an owner and a mint, confirmed. -/
  create : Ledger Pubkey → Pubkey → Pubkey → Pubkey → Option (Ledger Pubkey)
  outside : ∀ l payer owner mint l', create l payer owner mint = some l' → D.Outside l l'
  created : ∀ l payer owner mint l', create l payer owner mint = some l' →
    (∃ t, D.loadToken (l' (getAssociatedTokenAddress mint owner)) = .ok t ∧ mint = t.mint) ∧
      D.loadMint (l' mint) = .ok ()

/-- The client with the token account that the library gives its wallet. -/
def Client.associated (c : Client Pubkey) (A : AssociatedToken D) : Client Pubkey :=
  { c with userTokenAccount := A.getAssociatedTokenAddress c.mint c.wallet }

end

variable {Pubkey : Type} [DecidableEq Pubkey] {D : Deployment Pubkey}
  {l l' l₁ l₂ : Ledger Pubkey} {c : Client Pubkey} {A : AssociatedToken D} {fee : ℕ}
  {payer : Pubkey} {clock : Int64} {amount : UInt64}

/-- An account with too few lamports to be rent exempt. -/
def Storage.RentPaying (D : Storage Pubkey) (a : RawAccount Pubkey) : Prop :=
  0 < a.lamports ∧ a.lamports < D.minimumBalance a.data.length

/-- No transaction may leave an account so, but for one that was so and got no more lamports. -/
def Storage.KeepsRent (D : Storage Pubkey) (a a' : RawAccount Pubkey) : Prop :=
  D.RentPaying a' →
    D.RentPaying a ∧ a'.data.length = a.data.length ∧ a'.lamports ≤ a.lamports

instance (D : Storage Pubkey) (a : RawAccount Pubkey) : Decidable (D.RentPaying a) :=
  inferInstanceAs (Decidable (_ ∧ _))

instance (D : Storage Pubkey) (a a' : RawAccount Pubkey) : Decidable (D.KeepsRent a a') :=
  inferInstanceAs (Decidable (_ → _))

/-- An account after `amount` lamports left it. -/
def RawAccount.less (a : RawAccount Pubkey) (amount : ℕ) : RawAccount Pubkey :=
  { a with lamports := a.lamports - amount }

/-- The runtime takes the fee of a transaction from its payer before anything else. -/
def Storage.payFee (D : Storage Pubkey) (fee : ℕ) (l : Ledger Pubkey) (payer : Pubkey) :
    Option (Ledger Pubkey) :=
  if (l payer).owner = D.systemProgramId ∧ (l payer).data = [] ∧ fee ≤ (l payer).lamports ∧
      D.KeepsRent (l payer) ((l payer).less fee) then
    some (Function.update l payer ((l payer).less fee))
  else none

/-- A transaction of one instruction. The library simulates it first, and does not send one that
would fail. -/
def Client.send (c : Client Pubkey) (D : Deployment Pubkey) (fee : ℕ) (l : Ledger Pubkey)
    (clock : Int64) (ix : RawInstruction Pubkey) : Option (Ledger Pubkey) := do
  let l₁ ← D.payFee fee l c.wallet
  let l₂ ← (D.entry l₁ clock ix).toOption
  if ∀ a ∈ ix.accounts, D.KeepsRent (l₁ a.key) (l₂ a.key) then some l₂ else none

/-- `lock_usdc.js` 115-133. Any account at the address is taken for the token account. -/
def AssociatedToken.createAssociatedTokenAccountIfNotExist (A : AssociatedToken D) (fee : ℕ)
    (l : Ledger Pubkey) (payer mint owner : Pubkey) : Option (Ledger Pubkey × Pubkey) := do
  let associatedTokenAddress := A.getAssociatedTokenAddress mint owner
  if (l associatedTokenAddress).lamports = 0 then
    let l ← D.payFee fee l payer
    let l ← A.create l payer owner mint
    pure (l, associatedTokenAddress)
  else pure (l, associatedTokenAddress)

/-- `lock_usdc.js` 135-166: without a token account it throws; a lock that is not sent is only
logged. -/
def Client.runLockUSDC (c : Client Pubkey) (A : AssociatedToken D) (fee : ℕ) (l : Ledger Pubkey)
    (clock : Int64) (amount : UInt64) : Option (Ledger Pubkey) := do
  let (l, userTokenAccount) ←
    A.createAssociatedTokenAccountIfNotExist fee l c.wallet c.mint c.wallet
  let c := { c with userTokenAccount := userTokenAccount }
  let ix ← c.lockUSDCInstruction D.toRuntime amount
  pure ((c.send D fee l clock ix).getD l)

theorem payFee_eq_some (h : D.payFee fee l payer = some l') :
    (l payer).owner = D.systemProgramId ∧ (∀ k, k ≠ payer → l' k = l k) ∧
      ∀ k, (l' k).owner = (l k).owner ∧ (l' k).data = (l k).data := by
  unfold payFee at h
  split at h
  · rename_i hpays
    obtain ⟨howner, _⟩ := hpays
    cases h
    refine ⟨howner, fun k hk => Function.update_of_ne hk _ _, ?_⟩
    intro k
    exact ⟨update_keeps RawAccount.owner (by rfl) k, update_keeps RawAccount.data (by rfl) k⟩
  · cases h

/-- To the records the fee is a step of the rest of the chain. -/
theorem outside_payFee (h : D.payFee fee l payer = some l') : D.Outside l l' := by
  obtain ⟨howner, hothers, hsame⟩ := payFee_eq_some h
  refine ⟨?_, ?_, fun u _ _ => hsame _⟩
  · intro k htag
    have hk : k ≠ payer := by
      rintro rfl
      exact D.id_ne_system (htag.1.symm.trans howner)
    rw [hothers k hk]
    exact ⟨rfl, rfl, le_rfl⟩
  · intro k htag htag'
    exact htag ((tagged_congr (hsame k).1 (hsame k).2).mp htag')

/-- The client goes on with the associated address: as it finds it if there is an account, and else
with a new token account. The records are as they were. -/
theorem associated_cases {k : Pubkey} (hs : D.Sound l)
    (h : A.createAssociatedTokenAccountIfNotExist fee l c.wallet c.mint c.wallet =
      some (l₁, k)) :
    k = (c.associated A).userTokenAccount ∧ D.Sound l₁ ∧ D.records l₁ = D.records l ∧
      ((l k).lamports = 0 → (c.associated A).Loads D l₁) ∧
      ((l k).lamports ≠ 0 → l₁ = l) := by
  simp only [AssociatedToken.createAssociatedTokenAccountIfNotExist] at h
  split at h
  · rename_i hnew
    simp only [Option.bind_eq_bind, Option.bind_eq_some_iff, Option.pure_def, Option.some.injEq,
      Prod.mk.injEq] at h
    obtain ⟨l₀, hfee, l₂, hcreate, rfl, rfl⟩ := h
    have hpaid := outside_payFee hfee
    have houtside := A.outside _ _ _ _ _ hcreate
    have hs₀ := sound_outside hs hpaid
    obtain ⟨htoken, hmint⟩ := A.created _ _ _ _ _ hcreate
    refine ⟨rfl, sound_outside hs₀ houtside, ?_, fun _ => ⟨htoken, hmint⟩,
      fun hold => (hold hnew).elim⟩
    exact (records_outside houtside).trans (records_outside hpaid)
  · rename_i hold
    cases h
    exact ⟨rfl, hs, rfl, fun hnew => (hold hnew).elim, fun _ => rfl⟩

/-- What the lock needs of the ledger that the fee leaves. -/
structure Client.Ready (c : Client Pubkey) (D : Deployment Pubkey) (l : Ledger Pubkey)
    (clock : Int64) : Prop where
  loads : c.Loads D l
  inRange : D.overflowChecks = true → clock.toInt + 86400 < 2 ^ 63
  pays : D.records l (D.userLockInfoAddress c.wallet) = none → c.CanPay D l
  rest : D.records l (D.userLockInfoAddress c.wallet) = none → D.KeepsRent (l c.wallet)
    ((l c.wallet).less (D.rentDue l (D.userLockInfoAddress c.wallet)))

omit [DecidableEq Pubkey] in
theorem keepsRent_of_same {a a' : RawAccount Pubkey} (hlamports : a'.lamports = a.lamports)
    (hdata : a'.data = a.data) : D.KeepsRent a a' := by
  intro hpaying
  simp only [RentPaying, hlamports, hdata] at hpaying
  exact ⟨hpaying, by rw [hdata], hlamports.le⟩

section
variable {ix : RawInstruction Pubkey}

/-- The client's lock loads the record of its wallet, or creates it, and writes it. -/
theorem writes_lockUSDCInstruction
    (hix : c.lockUSDCInstruction D.toRuntime amount = some ix) (hs : D.Sound l)
    (hw : D.canSign c.wallet) (h : D.entry l clock ix = .ok l') :
    ∃ l₁ r, D.Loaded l c.wallet (D.userLockInfoAddress c.wallet) l₁ r ∧
      (∀ k, (l' k).lamports = (l₁ k).lamports) ∧
      D.Writes l l' (D.userLockInfoAddress c.wallet)
        ⟨amount, clock + lockDuration, c.wallet⟩ := by
  obtain ⟨accts, hinv, huser, _⟩ := lockUSDCInstruction_invocation clock hix hs hw
  have hsig := signed_lockUSDCInstruction hix hw
  obtain ⟨inv, e, l₁, r, hinv', hok, hloaded, hexit⟩ :=
    entry_sound hs hsig (not_idl_of_invocation hinv) h
  obtain rfl := Option.some.inj (hinv.symm.trans hinv')
  obtain ⟨_, rfl⟩ := process_lock_eq_ok.mp hok
  simp only [Instruction.user, huser] at hloaded hexit
  exact ⟨l₁, r, hloaded, exit_lamports hexit, writes_of_exit (prepared_of_loaded hs hloaded) hexit⟩

/-- The wallet pays for a first record, and no other lamports move. -/
theorem lamports_lockUSDCInstruction
    (hix : c.lockUSDCInstruction D.toRuntime amount = some ix) (hs : D.Sound l)
    (hw : D.canSign c.wallet) (h : D.entry l clock ix = .ok l') :
    (D.records l (D.userLockInfoAddress c.wallet) ≠ none ∧
      ∀ k, (l' k).lamports = (l k).lamports) ∨
    (D.records l (D.userLockInfoAddress c.wallet) = none ∧
      (l' c.wallet).lamports + D.rentDue l (D.userLockInfoAddress c.wallet) =
        (l c.wallet).lamports ∧
      ∀ k, k ≠ c.wallet → k ≠ D.userLockInfoAddress c.wallet →
        (l' k).lamports = (l k).lamports) := by
  obtain ⟨l₁, r, hloaded, hsame, _⟩ := writes_lockUSDCInstruction hix hs hw h
  cases hloaded with
  | found hr => exact Or.inl ⟨by rw [hr]; exact Option.some_ne_none r, hsame⟩
  | created hr hc =>
    obtain ⟨hpayer, _, hothers⟩ := create_lamports_of_ne (ne_userLockInfoAddress hw) hc
    refine Or.inr ⟨hr, ?_, ?_⟩
    · rw [hsame]
      exact hpayer
    · intro k hk hkf
      rw [hsame]
      exact hothers k hk hkf

/-- The wallet is among the accounts of its lock. -/
theorem wallet_of_lockUSDCInstruction
    (hix : c.lockUSDCInstruction D.toRuntime amount = some ix) :
    ∃ a ∈ ix.accounts, a.key = c.wallet := by
  cases hix
  exact ⟨merged c.wallet _ c.user, List.mem_of_getElem? (i := 0) rfl, rfl⟩

/-- Only the wallet can be left with too little. -/
theorem keepsRent_lockUSDCInstruction
    (hix : c.lockUSDCInstruction D.toRuntime amount = some ix) (hs : D.Sound l)
    (hw : D.canSign c.wallet) (h : D.entry l clock ix = .ok l') :
    (∀ a ∈ ix.accounts, D.KeepsRent (l a.key) (l' a.key)) ↔
      (D.records l (D.userLockInfoAddress c.wallet) = none → D.KeepsRent (l c.wallet)
        ((l c.wallet).less (D.rentDue l (D.userLockInfoAddress c.wallet)))) := by
  obtain ⟨_, _, _, _, hwrites⟩ := writes_lockUSDCInstruction hix hs hw h
  have hrecord : ∀ a, D.KeepsRent a (l' (D.userLockInfoAddress c.wallet)) := by
    rintro a ⟨_, hless⟩
    rw [hwrites.data, length_bytes D.key_size] at hless
    exact absurd hwrites.rent (Nat.not_le.mpr hless)
  have hdata : ∀ k, k ≠ D.userLockInfoAddress c.wallet → (l' k).data = (l k).data :=
    fun k hk => (hwrites.frame k hk).2
  rcases lamports_lockUSDCInstruction hix hs hw h with ⟨hsome, hsame⟩ | ⟨hnone, hpays, hothers⟩
  · refine ⟨fun _ hnone => (hsome hnone).elim, fun _ a _ => ?_⟩
    by_cases hk : a.key = D.userLockInfoAddress c.wallet
    · rw [hk]
      exact hrecord _
    · exact keepsRent_of_same (hsame _) (hdata _ hk)
  · have hwallet : D.KeepsRent (l c.wallet) (l' c.wallet) ↔ D.KeepsRent (l c.wallet)
        ((l c.wallet).less (D.rentDue l (D.userLockInfoAddress c.wallet))) := by
      have hless : (l' c.wallet).lamports =
          (l c.wallet).lamports - D.rentDue l (D.userLockInfoAddress c.wallet) := by omega
      have hsame := hdata _ (ne_userLockInfoAddress hw)
      simp only [KeepsRent, RentPaying, RawAccount.less, hless, hsame]
    constructor
    · intro hall _
      obtain ⟨a, ha, hkey⟩ := wallet_of_lockUSDCInstruction hix
      exact hwallet.mp (hkey ▸ hall a ha)
    · intro hrest a _
      by_cases hk : a.key = D.userLockInfoAddress c.wallet
      · rw [hk]
        exact hrecord _
      by_cases hkw : a.key = c.wallet
      · rw [hkw]
        exact hwallet.mpr (hrest hnone)
      · exact keepsRent_of_same (hothers _ hkw hk) (hdata _ hk)

omit [DecidableEq Pubkey] in
theorem toOption_eq_some {α ε : Type} {x : Except ε α} {a : α} :
    x.toOption = some a ↔ x = .ok a := by
  cases x <;> simp [Except.toOption]

theorem send_eq_some : c.send D fee l clock ix = some l' ↔
    ∃ l₁, D.payFee fee l c.wallet = some l₁ ∧ D.entry l₁ clock ix = .ok l' ∧
      ∀ a ∈ ix.accounts, D.KeepsRent (l₁ a.key) (l' a.key) := by
  simp only [Client.send, Option.bind_eq_bind, Option.bind_eq_some_iff, toOption_eq_some,
    Option.ite_none_right_eq_some, Option.some.injEq]
  constructor
  · rintro ⟨l₁, hfee, l₂, hentry, hrent, rfl⟩
    exact ⟨l₁, hfee, hentry, hrent⟩
  · rintro ⟨l₁, hfee, hentry, hrent⟩
    exact ⟨l₁, hfee, l', hentry, hrent, rfl⟩

/-- The client's lock is sent exactly if its wallet pays the fee and finds what it needs. -/
theorem send_isSome_iff (hix : c.lockUSDCInstruction D.toRuntime amount = some ix)
    (hs : D.Sound l) (hw : D.canSign c.wallet) : (c.send D fee l clock ix).isSome = true ↔
      ∃ l₁, D.payFee fee l c.wallet = some l₁ ∧ c.Ready D l₁ clock := by
  simp only [Option.isSome_iff_exists, send_eq_some]
  constructor
  · rintro ⟨l', l₁, hfee, hentry, hrent⟩
    have hs₁ : D.Sound l₁ := sound_outside hs (outside_payFee hfee)
    obtain ⟨hloads, hrange, hpays⟩ :=
      (lockUSDCInstruction_isOk_iff hix hs₁ hw).mp (isOk_iff.mpr ⟨l', hentry⟩)
    have hrest := (keepsRent_lockUSDCInstruction hix hs₁ hw hentry).mp hrent
    exact ⟨l₁, hfee, hloads, hrange, hpays, hrest⟩
  · rintro ⟨l₁, hfee, hready⟩
    have hs₁ : D.Sound l₁ := sound_outside hs (outside_payFee hfee)
    obtain ⟨l', hentry⟩ := isOk_iff.mp ((lockUSDCInstruction_isOk_iff hix hs₁ hw).mpr
      ⟨hready.loads, hready.inRange, hready.pays⟩)
    have hrent := (keepsRent_lockUSDCInstruction hix hs₁ hw hentry).mpr hready.rest
    exact ⟨l', l₁, hfee, hentry, hrent⟩

theorem records_send (hix : c.lockUSDCInstruction D.toRuntime amount = some ix) (hs : D.Sound l)
    (hw : D.canSign c.wallet) (h : c.send D fee l clock ix = some l') :
    D.records l' = Function.update (D.records l) (D.userLockInfoAddress c.wallet)
      (some ⟨amount, clock + lockDuration, c.wallet⟩) := by
  obtain ⟨l₁, hfee, hentry, _⟩ := send_eq_some.mp h
  have hpaid := outside_payFee hfee
  obtain ⟨_, _, _, _, hwrites⟩ :=
    writes_lockUSDCInstruction hix (sound_outside hs hpaid) hw hentry
  rw [records_of_writes hwrites, records_outside hpaid]

end

/-- This derivation too stands in for the hash of the runtime; on the client it gives the real
address. -/
def testAssociatedAddress (mint owner : BitVec 256) : BitVec 256 :=
  mint ^^^ owner ^^^ (usdcClient.mint ^^^ usdcClient.wallet ^^^ usdcClient.userTokenAccount)

/-- The payer pays the rent, and the System program creates nothing where there is something. -/
def testCreate (l : Ledger (BitVec 256)) (payer owner mint : BitVec 256) :
    Option (Ledger (BitVec 256)) :=
  let address := testAssociatedAddress mint owner
  if loadSplMint (l mint) = .ok () ∧ (l payer).owner = testnet.systemProgramId ∧
      (l payer).data = [] ∧ 2039280 ≤ (l payer).lamports ∧
      (l address).owner = testnet.systemProgramId ∧ (l address).data = [] ∧ payer ≠ address ∧
      -- two programs derive no address in common
      testnet.userLockInfoAddress usdcClient.wallet ≠ address then
    some (Function.update
      (Function.update l payer { l payer with lamports := (l payer).lamports - 2039280 }) address
      { lamports := (l address).lamports + 2039280, owner := testnet.tokenProgramId,
        data := splAccountData mint owner })
  else none

/-- Everything that a creation does. -/
theorem testCreate_eq_some {l l' : Ledger (BitVec 256)} {payer owner mint : BitVec 256}
    (h : testCreate l payer owner mint = some l') :
    loadSplMint (l mint) = .ok () ∧
      testnet.userLockInfoAddress usdcClient.wallet ≠ testAssociatedAddress mint owner ∧
      (l payer).owner = testnet.systemProgramId ∧
      (l (testAssociatedAddress mint owner)).owner = testnet.systemProgramId ∧
      (∃ lamports, l' (testAssociatedAddress mint owner) =
        ⟨lamports, testnet.tokenProgramId, splAccountData mint owner⟩) ∧
      ∀ k, k ≠ testAssociatedAddress mint owner →
        (l' k).owner = (l k).owner ∧ (l' k).data = (l k).data ∧ (k ≠ payer → l' k = l k) := by
  simp only [testCreate] at h
  split at h
  · rename_i hchecks
    obtain ⟨hmint, hpayer, _, _, haddress, _, _, hderived⟩ := hchecks
    cases h
    refine ⟨hmint, hderived, hpayer, haddress, ⟨_, Function.update_self ..⟩, ?_⟩
    intro k hk
    rw [Function.update_of_ne hk]
    exact ⟨update_keeps RawAccount.owner (by rfl) k, update_keeps RawAccount.data (by rfl) k,
      fun hkp => Function.update_of_ne hkp _ _⟩
  · cases h

def testAssociatedToken : AssociatedToken testDeployment where
  getAssociatedTokenAddress := testAssociatedAddress
  create := testCreate
  outside l payer owner mint l' h := by
    obtain ⟨_, hderived, hpayer, haddress, ⟨lamports, hnew⟩, hrest⟩ := testCreate_eq_some h
    have hnot : ∀ k, testDeployment.Tagged (l k) →
        k ≠ testAssociatedAddress mint owner ∧ k ≠ payer := by
      intro k htag
      constructor
      · rintro rfl
        exact absurd (htag.1.symm.trans haddress) (by decide)
      · rintro rfl
        exact absurd (htag.1.symm.trans hpayer) (by decide)
    refine ⟨?_, ?_, ?_⟩
    · intro k htag
      obtain ⟨hk, hkp⟩ := hnot k htag
      rw [(hrest k hk).2.2 hkp]
      exact ⟨rfl, rfl, le_rfl⟩
    · intro k htag htag'
      by_cases hk : k = testAssociatedAddress mint owner
      · subst k
        rw [hnew] at htag'
        have howner : testnet.tokenProgramId = testnet.id := htag'.1
        exact absurd howner (by decide)
      · obtain ⟨howner, hdata, _⟩ := hrest k hk
        exact htag ((tagged_congr howner hdata).mp htag')
    · intro u hu _
      obtain rfl : u = usdcClient.wallet := hu
      obtain ⟨howner, hdata, _⟩ := hrest _ hderived
      exact ⟨howner, hdata⟩
  created l payer owner mint l' h := by
    obtain ⟨hmint, _, hpayer, haddress, ⟨lamports, hnew⟩, hrest⟩ := testCreate_eq_some h
    constructor
    · rw [hnew]
      exact ⟨_, loadSplAccount_new lamports mint owner, rfl⟩
    · have howner : (l mint).owner = testnet.tokenProgramId := by
        simp only [loadSplMint, bind_eq_ok, require_eq_ok, exists_const] at hmint
        exact hmint.2.1
      have hne : mint ≠ testAssociatedAddress mint owner := by
        intro heq
        rw [← heq] at haddress
        exact absurd (howner.symm.trans haddress) (by decide)
      have hnepayer : mint ≠ payer := by
        rintro rfl
        exact absurd (howner.symm.trans hpayer) (by decide)
      rw [(hrest mint hne).2.2 hnepayer]
      exact hmint

/-- The wallet before it has a token account. -/
def freshLedger : Ledger (BitVec 256) :=
  Function.update walletLedger usdcClient.userTokenAccount ⟨0, testnet.systemProgramId, []⟩

theorem freshLedger_blank (k : BitVec 256) : ¬ testDeployment.Tagged (freshLedger k) := by
  by_cases hk : k = usdcClient.userTokenAccount
  · subst k
    rintro ⟨howner, _⟩
    exact absurd howner (by decide)
  · rw [freshLedger, Function.update_of_ne hk]
    exact walletLedger_blank k

theorem freshLedger_sound : testDeployment.Sound freshLedger where
  held k htag := (freshLedger_blank k htag).elim
  unused u hu _ := by
    obtain rfl : u = usdcClient.wallet := hu
    exact ⟨by decide, by decide⟩

/-- Nothing has happened yet. -/
def freshRun : LedgerRun testDeployment :=
  .ofList testDeployment freshLedger freshLedger_sound freshLedger_blank [] (by simp)

/-- The wallet after the fee of the creation, with its new token account, and after the fee of the
lock, at 5000 lamports each. -/
def freshCharged : Ledger (BitVec 256) :=
  (testDeployment.payFee 5000 freshLedger usdcClient.wallet).get (by decide +kernel)

def freshCreated : Ledger (BitVec 256) :=
  (testCreate freshCharged usdcClient.wallet usdcClient.wallet usdcClient.mint).get
    (by decide +kernel)

def freshPaid : Ledger (BitVec 256) :=
  (testDeployment.payFee 5000 freshCreated usdcClient.wallet).get (by decide +kernel)

theorem freshCreated_eq : testAssociatedToken.createAssociatedTokenAccountIfNotExist 5000
    freshLedger usdcClient.wallet usdcClient.mint usdcClient.wallet =
      some (freshCreated, usdcClient.userTokenAccount) := by
  have hnew :
      (freshLedger (testAssociatedAddress usdcClient.mint usdcClient.wallet)).lamports = 0 := by
    decide
  have hcharged : testDeployment.payFee 5000 freshLedger usdcClient.wallet = some freshCharged :=
    (Option.some_get _).symm
  have hcreated : testCreate freshCharged usdcClient.wallet usdcClient.wallet usdcClient.mint =
      some freshCreated := (Option.some_get _).symm
  simp only [AssociatedToken.createAssociatedTokenAccountIfNotExist, testAssociatedToken, hnew,
    if_true, hcharged, hcreated, Option.bind_eq_bind, Option.bind_some, Option.pure_def]
  rfl

theorem freshPaid_ready :
    (usdcClient.associated testAssociatedToken).Ready testDeployment freshPaid 1000 where
  loads :=
    { token := ⟨⟨usdcClient.mint, usdcClient.wallet, 0⟩, by decide +kernel, rfl⟩
      mint := by decide +kernel }
  inRange _ := by decide
  pays _ := Or.inr ⟨by decide +kernel, by decide +kernel, by decide +kernel⟩
  rest _ := by decide +kernel

end BlockLockCore
