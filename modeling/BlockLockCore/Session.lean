import BlockLockCore.Wallet

/-! What the client sees over whole runs of the ledger, whatever everybody else does meanwhile. -/
namespace BlockLockCore

open Checked Trace TimeLock Wire Deployment

/-- What the status is to show after an instruction. -/
def Invocation.Shows {Pubkey : Type} (inv : Invocation Pubkey) (amount : UInt64) (time : Int64) :
    Prop :=
  match inv.instruction with
  | .lockTokens _ b => amount = b ∧ time = inv.clock + lockDuration
  | .unlockTokens _ => amount = 0 ∧ time = 0

variable {Pubkey : Type} [DecidableEq Pubkey] {D : Deployment Pubkey} {R : LedgerRun D}
  {l : Ledger Pubkey} {c : Client Pubkey} {u : Pubkey} {a : UInt64} {t : Int64} {m n : ℕ}
  {toLocaleString : ℤ → String}

/-- Instruction `n` of the ledger goes through, is signed by `u` and means `inv`. -/
def LedgerRun.Accepts (R : LedgerRun D) (u : Pubkey) (inv : Invocation Pubkey) (n : ℕ) : Prop :=
  ∃ raw, R.event n = some raw ∧
    (D.entry (R.ledger n) raw.clock raw.instruction).isOk = true ∧
    D.invocation (R.ledger n) raw.clock raw.instruction = some inv ∧ inv.instruction.user.key = u

theorem accepts_iff {inv : Invocation Pubkey} :
    R.Accepts u inv n ↔ R.program.Succeeds u inv n := by
  constructor
  · rintro ⟨raw, he, hok, hinv, hu⟩
    obtain ⟨inv', hinv', hok'⟩ := (entry_isOk_iff (R.sound_ledger n) (R.signed n raw he)
      (not_idl_of_invocation hinv)).mp hok
    obtain rfl := Option.some.inj (hinv.symm.trans hinv')
    exact ⟨by simp only [LedgerRun.program, he, Option.bind_some, hinv], hu, hok'⟩
  · rintro ⟨he, hu, hok⟩
    obtain ⟨raw, he, hinv⟩ := Option.bind_eq_some_iff.mp he
    have hentry := (entry_isOk_iff (R.sound_ledger n) (R.signed n raw he)
      (not_idl_of_invocation hinv)).mpr ⟨inv, hinv, hok⟩
    exact ⟨raw, he, hentry, hinv, hu⟩

theorem checkLockStatus_eq_ok {status : LockStatus} (hs : D.Sound l) (hw : D.canSign c.wallet)
    (hrent : 0 < D.minimumBalance space) :
    c.checkLockStatus D toLocaleString l = .ok status ↔
      ∃ r, D.records l (D.userLockInfoAddress c.wallet) = some r ∧
        lockStatus toLocaleString r.lockedAmount r.unlockTime = status := by
  simp only [Client.checkLockStatus, bind_eq_ok, pure_eq_ok, fetchUserLockInfo_eq_ok hs hw hrent]

theorem checkLockStatus_eq_error (hs : D.Sound l) (hw : D.canSign c.wallet)
    (hrent : 0 < D.minimumBalance space) :
    (∃ x, c.checkLockStatus D toLocaleString l = .error x) ↔
      D.records l (D.userLockInfoAddress c.wallet) = none := by
  cases hr : D.records l (D.userLockInfoAddress c.wallet) with
  | some r =>
    have hok : c.checkLockStatus D toLocaleString l = .ok _ :=
      (checkLockStatus_eq_ok hs hw hrent).mpr ⟨r, hr, rfl⟩
    simp [hok]
  | none =>
    cases hc : c.checkLockStatus D toLocaleString l with
    | error x => simp
    | ok p =>
      obtain ⟨r, hr', _⟩ := (checkLockStatus_eq_ok hs hw hrent).mp hc
      cases hr.symm.trans hr'

/-- The last deed is that of the last accepted instruction. -/
theorem last_of_accepts {inv : Invocation Pubkey} {k : ℕ} (hkn : k < n) (h : R.Accepts u inv k)
    (hno : ∀ m, k < m → m < n → ∀ j, ¬ R.Accepts u j m) :
    last R.program.deeds u n = some inv.deed := by
  have hdeed := deeds_of_succeeds (accepts_iff.mp h)
  apply last_eq_some_iff.mpr
  refine ⟨k, ⟨hkn, ⟨_, hdeed⟩, ?_⟩, hdeed⟩
  intro m hkm hmn d hd
  obtain ⟨j, hj, _⟩ := deeds_eq_some_iff.mp hd
  exact hno m hkm hmn j (accepts_iff.mpr hj)

/-- The instruction behind the last deed. -/
theorem accepts_of_last {d : Deed (Lock Pubkey) ℤ} (h : last R.program.deeds u n = some d) :
    ∃ k inv, k < n ∧ R.Accepts u inv k ∧ (∀ m, k < m → m < n → ∀ j, ¬ R.Accepts u j m) ∧
      inv.deed = d := by
  obtain ⟨k, ⟨hkn, _, hno⟩, hkd⟩ := last_eq_some_iff.mp h
  obtain ⟨inv, hinv, hd⟩ := deeds_eq_some_iff.mp hkd
  refine ⟨k, inv, hkn, accepts_iff.mpr hinv, ?_, hd⟩
  intro m hkm hmn j hj
  exact hno m hkm hmn _ (deeds_of_succeeds (accepts_iff.mp hj))

/-- A last deed shows in the record. -/
theorem shows_iff {inv : Invocation Pubkey} (h : last R.program.deeds u n = some inv.deed) :
    inv.Shows a t ↔ R.program.record n u = some ⟨a, t, u⟩ := by
  rcases inv with ⟨clock, accts | accts⟩
  · obtain ⟨t', ht', hr⟩ := record_of_lock h
    obtain rfl : t' = clock + lockDuration :=
      Int64.toInt_inj.mp (ht'.trans (toInt_add_lockDuration clock).symm)
    rw [hr]
    constructor
    · rintro ⟨rfl, rfl⟩
      rfl
    · intro heq
      cases heq
      exact ⟨rfl, rfl⟩
  · rw [record_of_unlock h]
    constructor
    · rintro ⟨rfl, rfl⟩
      rfl
    · intro heq
      cases heq
      exact ⟨rfl, rfl⟩

/--
At any time the status shows, as text, exactly what the latest accepted instruction of the wallet
recorded, and nothing if there was none: no other account can be mistaken for the record, although
the client does not look at its owner.
-/
theorem lock_status_exact (R : LedgerRun D) (c : Client Pubkey) (toLocaleString : ℤ → String)
    (hw : D.canSign c.wallet) (hrent : 0 < D.minimumBalance space) (n : ℕ) :
    (∀ status, c.checkLockStatus D toLocaleString (R.ledger n) = .ok status ↔
      ∃ k inv a t, k < n ∧ R.Accepts c.wallet inv k ∧
        (∀ m, k < m → m < n → ∀ j, ¬ R.Accepts c.wallet j m) ∧ inv.Shows a t ∧
        status = lockStatus toLocaleString a t) ∧
    ((∃ x, c.checkLockStatus D toLocaleString (R.ledger n) = .error x) ↔
      ∀ k inv, k < n → ¬ R.Accepts c.wallet inv k) := by
  have hs := R.sound_ledger n
  constructor
  · intro status
    rw [checkLockStatus_eq_ok hs hw hrent]
    constructor
    · rintro ⟨r, hr, rfl⟩
      have hrec : R.program.record n c.wallet = some r := hr
      have howner : r.owner = c.wallet := record_owner hrec
      obtain ⟨d, hd⟩ : ∃ d, last R.program.deeds c.wallet n = some d := by
        apply Option.ne_none_iff_exists'.mp
        intro hnone
        cases (record_eq_none_iff.mpr hnone).symm.trans hrec
      obtain ⟨k, inv, hkn, hk, hno, rfl⟩ := accepts_of_last hd
      refine ⟨k, inv, r.lockedAmount, r.unlockTime, hkn, hk, hno, (shows_iff hd).mpr ?_, rfl⟩
      rw [hrec, ← howner]
    · rintro ⟨k, inv, a, t, hkn, hk, hno, hshows, rfl⟩
      have hrec := (shows_iff (last_of_accepts hkn hk hno)).mp hshows
      exact ⟨_, hrec, rfl⟩
  · rw [checkLockStatus_eq_error hs hw hrent]
    change R.program.record n c.wallet = none ↔ _
    rw [record_eq_none_iff, last_eq_none_iff]
    constructor
    · intro h k inv hk hinv
      exact h k _ hk (deeds_of_succeeds (accepts_iff.mp hinv))
    · intro h k d hk hd
      obtain ⟨inv, hinv, _⟩ := deeds_eq_some_iff.mp hd
      exact h k inv hk (accepts_iff.mpr hinv)

/-- What `lockUSDC` leaves in the record, until the wallet's next accepted instruction. -/
theorem record_after_lock {s : Int64} {ix : RawInstruction Pubkey} {amount : UInt64}
    (hix : c.lockUSDCInstruction D.toRuntime amount = some ix) (hn : R.event n = some ⟨s, ix⟩)
    (hok : (D.entry (R.ledger n) s ix).isOk = true)
    (hnm : n < m) (hno : ∀ k, n < k → k < m → ∀ j, ¬ R.Accepts c.wallet j k) :
    R.program.record m c.wallet = some ⟨amount, s + lockDuration, c.wallet⟩ := by
  have hw : D.canSign c.wallet := canSign_of_signed hix (R.signed n _ hn)
  obtain ⟨accts, hinv, huser, _⟩ := lockUSDCInstruction_invocation s hix (R.sound_ledger n) hw
  have haccepts : R.Accepts c.wallet ⟨s, .lockTokens accts amount⟩ n := ⟨_, hn, hok, hinv, huser⟩
  exact (shows_iff (last_of_accepts hnm haccepts hno)).mp ⟨rfl, rfl⟩

/-- After an accepted `unlockUSDC` the status is clear. -/
theorem status_after_unlock {T : Int64} {ix : RawInstruction Pubkey}
    (hrent : 0 < D.minimumBalance space) (hw : D.canSign c.wallet)
    (hix : c.unlockUSDCInstruction D.toRuntime = some ix) (hm : R.event m = some ⟨T, ix⟩)
    (hok : (D.entry (R.ledger m) T ix).isOk = true) :
    c.checkLockStatus D toLocaleString (R.ledger (m + 1)) =
      .ok (lockStatus toLocaleString 0 0) := by
  obtain ⟨hrequest, accts, hread, huser, _⟩ := unlockUSDCInstruction_read (R.ledger m) hix
  have hinv : D.invocation (R.ledger m) T ix = some ⟨T, .unlockTokens accts⟩ :=
    invocation_of_unlock hrequest hread
  have haccepts : R.Accepts c.wallet ⟨T, .unlockTokens accts⟩ m := ⟨_, hm, hok, hinv, huser⟩
  have hrec := record_of_unlock (last_succ_self (deeds_of_succeeds (accepts_iff.mp haccepts)))
  exact (checkLockStatus_eq_ok (R.sound_ledger (m + 1)) hw hrent).mpr ⟨_, hrec, rfl⟩

/--
The client locks, looks at the status and unlocks, with anything from anybody else in between. The
lock is accepted unless its accounts do not load, the build checks for overflow and the clock
overflows, or a first record cannot be paid. Until the wallet's next accepted instruction the status
shows the amount and the time 24 hours on, as the build adds it. If its accounts load the unlock is
accepted, and clears the status, exactly from that time on; before, it is refused as too early and
changes nothing.
-/
theorem client_session (R : LedgerRun D) (c : Client Pubkey) (toLocaleString : ℤ → String) (n : ℕ)
    (s : Int64) (amount : UInt64) (ix : RawInstruction Pubkey) (hrent : 0 < D.minimumBalance space)
    (hix : c.lockUSDCInstruction D.toRuntime amount = some ix)
    (hn : R.event n = some ⟨s, ix⟩) :
    ((D.entry (R.ledger n) s ix).isOk = true ↔ c.Loads D (R.ledger n) ∧
      (D.overflowChecks = true → s.toInt + 86400 < 2 ^ 63) ∧
      ((∃ x, c.checkLockStatus D toLocaleString (R.ledger n) = .error x) →
        c.CanPay D (R.ledger n))) ∧
    (s.toInt + 86400 < 2 ^ 63 → (s + lockDuration).toInt = s.toInt + 86400) ∧
    ((D.entry (R.ledger n) s ix).isOk = true →
      ∀ m, n < m → (∀ k, n < k → k < m → ∀ j, ¬ R.Accepts c.wallet j k) →
      c.checkLockStatus D toLocaleString (R.ledger m) =
          .ok (lockStatus toLocaleString amount (s + lockDuration)) ∧
      ∀ T ix', c.unlockUSDCInstruction D.toRuntime = some ix' → R.event m = some ⟨T, ix'⟩ →
        ((D.entry (R.ledger m) T ix').isOk = true ↔
          c.Opens D (R.ledger m) ∧ s + lockDuration ≤ T) ∧
        ((D.entry (R.ledger m) T ix').isOk = true →
          c.checkLockStatus D toLocaleString (R.ledger (m + 1)) =
            .ok (lockStatus toLocaleString 0 0)) ∧
        (c.Opens D (R.ledger m) → T < s + lockDuration →
          D.entry (R.ledger m) T ix' = .error (.declared (.blocklock .lockNotExpired)) ∧
          R.ledger (m + 1) = R.ledger m)) := by
  have hw : D.canSign c.wallet := canSign_of_signed hix (R.signed n _ hn)
  refine ⟨?_, ?_, ?_⟩
  · rw [checkLockStatus_eq_error (R.sound_ledger n) hw hrent]
    exact lockUSDCInstruction_isOk_iff hix (R.sound_ledger n) hw
  · intro hrange
    rw [toInt_add_lockDuration, unlockTime_of_range hrange, due]
  · intro hok m hnm hno
    have hrec := record_after_lock hix hn hok hnm hno
    have hs := R.sound_ledger m
    refine ⟨(checkLockStatus_eq_ok hs hw hrent).mpr ⟨_, hrec, rfl⟩, ?_⟩
    intro T ix' hix' hm
    refine ⟨?_, fun hok' => status_after_unlock hrent hw hix' hm hok', ?_⟩
    · have hrecord : ∀ r, D.records (R.ledger m) (D.userLockInfoAddress c.wallet) = some r →
          r = ⟨amount, s + lockDuration, c.wallet⟩ :=
        fun r hr => Option.some.inj (hr.symm.trans hrec)
      rw [unlockUSDCInstruction_isOk_iff hix' hs hw fun r hr => by rw [hrecord r hr]]
      constructor
      · rintro ⟨hopens, r, hr, hle⟩
        rw [hrecord r hr] at hle
        exact ⟨hopens, hle⟩
      · rintro ⟨hopens, hle⟩
        exact ⟨hopens, _, hrec, hle⟩
    · intro hopens hlt
      have herror := unlockUSDCInstruction_early hix' hopens hrec rfl hlt
      exact ⟨herror, (R.next_some m _ hm).trans (execute_of_error herror)⟩

/-- A run of the given instructions and nothing else. -/
def LedgerRun.ofList (D : Deployment Pubkey) (l : Ledger Pubkey) (hs : D.Sound l)
    (hblank : ∀ k, ¬ D.Tagged (l k)) (run : List (RawInvocation Pubkey))
    (hsigned : ∀ inv ∈ run, D.Signed inv.instruction.accounts) : LedgerRun D where
  ledger n := (run.take n).foldl (fun l inv => D.execute l inv.clock inv.instruction) l
  event n := run[n]?
  sound := hs
  blank := hblank
  signed n inv h := hsigned inv (List.mem_of_getElem? h)
  next_some n inv h := by
    rw [List.take_add_one, List.foldl_append, h]
    rfl
  next_none n h := by
    rw [List.take_add_one, List.foldl_append, h]
    exact D.outside_refl _

/-- `spl_token::state::Account`: the mint, the owner and the amount come first, and byte 108 of 165
says that the account is initialized. -/
def splAccountCodec : Codec (BitVec 256 × BitVec 256 × UInt64) :=
  let key : Codec (BitVec 256) := (Codec.word 32).reverse
  key.pair (key.pair Codec.uint64)

def loadSplAccount (a : RawAccount (BitVec 256)) : Except Error (TokenAccount (BitVec 256)) := do
  require (¬ (a.owner = testnet.systemProgramId ∧ a.lamports = 0)) (.anchor .accountNotInitialized)
  require (a.owner = testnet.tokenProgramId) (.anchor .accountOwnedByWrongProgram)
  require (a.data.length = 165 ∧ a.data[108]? = some 1) (.anchor .accountDidNotDeserialize)
  match splAccountCodec.decode a.data with
  | some (mint, owner, amount) => .ok ⟨mint, owner, amount⟩
  | none => .error (.anchor .accountDidNotDeserialize)

/-- A new token account. -/
def splAccountData (mint owner : BitVec 256) : List UInt8 :=
  splAccountCodec.encode (mint, owner, 0) ++
    (List.replicate 36 0 ++ [1] ++ List.replicate 56 0)

theorem loadSplAccount_new (lamports : ℕ) (mint owner : BitVec 256) :
    loadSplAccount ⟨lamports, testnet.tokenProgramId, splAccountData mint owner⟩ =
      .ok ⟨mint, owner, 0⟩ := by
  have hsize : (splAccountCodec.encode (mint, owner, 0)).length = 72 :=
    splAccountCodec.length_encode _
  have hlength : (splAccountData mint owner).length = 165 := by
    simp [splAccountData, hsize]
  have hstate : (splAccountData mint owner)[108]? = some 1 := by
    rw [splAccountData, List.getElem?_append_right (by omega), hsize]
    rfl
  have hdecode : splAccountCodec.decode (splAccountData mint owner) = some (mint, owner, 0) :=
    splAccountCodec.decode_append _ _
  have hused : ¬ (testnet.tokenProgramId = testnet.systemProgramId ∧ lamports = 0) := by
    rintro ⟨howner, _⟩
    exact absurd howner (by decide)
  simp only [loadSplAccount, hdecode, hlength, hstate, and_self, require_of, require_of hused,
    ok_bind]

/-- `spl_token::state::Mint`: byte 45 of 82 says that it is initialized. -/
def loadSplMint (a : RawAccount (BitVec 256)) : Except Error Mint := do
  require (¬ (a.owner = testnet.systemProgramId ∧ a.lamports = 0)) (.anchor .accountNotInitialized)
  require (a.owner = testnet.tokenProgramId) (.anchor .accountOwnedByWrongProgram)
  require (a.data.length = 82 ∧ a.data[45]? = some 1) (.anchor .accountDidNotDeserialize)

/-- The deployment on which the client runs, with the rent of the chain. Nobody sends it IDL
instructions. -/
def testDeployment : Deployment (BitVec 256) where
  toRuntime := testnet
  key := (Codec.word 32).reverse
  key_size := rfl
  key_zero := by decide
  id_ne_system := by decide
  canSign k := k = usdcClient.wallet
  derived_cannot_sign u hu := by
    subst hu
    decide
  minimumBalance n := (128 + n) * 6960
  loadToken := loadSplAccount
  loadMint := loadSplMint
  idlDispatch _ _ _ := .error .instructionDidNotDeserialize
  idl_outside _ _ _ _ _ _ h := by cases h

/-- The wallet has 1 SOL and a token account for USDC. -/
def walletLedger : Ledger (BitVec 256) := fun k =>
  if k = usdcClient.wallet then ⟨1000000000, testnet.systemProgramId, []⟩
  else if k = usdcClient.userTokenAccount then
    ⟨2039280, testnet.tokenProgramId, splAccountData usdcClient.mint usdcClient.wallet⟩
  else if k = usdcClient.mint then
    ⟨1461600, testnet.tokenProgramId, List.replicate 45 0 ++ [1] ++ List.replicate 36 0⟩
  else ⟨0, testnet.systemProgramId, []⟩

theorem walletLedger_blank (k : BitVec 256) : ¬ testDeployment.Tagged (walletLedger k) := by
  rintro ⟨howner, _⟩
  unfold walletLedger at howner
  split_ifs at howner <;> exact absurd howner (by decide)

theorem walletLedger_sound : testDeployment.Sound walletLedger where
  held k htag := (walletLedger_blank k htag).elim
  unused u hu _ := by
    obtain rfl : u = usdcClient.wallet := hu
    exact ⟨by decide, by decide⟩

/-- The two instructions of `main`. -/
def mainLock : RawInstruction (BitVec 256) :=
  (usdcClient.lockUSDCInstruction testnet 100000000).get rfl

def mainUnlock : RawInstruction (BitVec 256) := (usdcClient.unlockUSDCInstruction testnet).get rfl

theorem mainLock_eq :
    usdcClient.lockUSDCInstruction testDeployment.toRuntime 100000000 = some mainLock := rfl

theorem mainUnlock_eq :
    usdcClient.unlockUSDCInstruction testDeployment.toRuntime = some mainUnlock := rfl

theorem mainLock_signed : testDeployment.Signed mainLock.accounts :=
  signed_lockUSDCInstruction mainLock_eq rfl

theorem mainUnlock_signed : testDeployment.Signed mainUnlock.accounts :=
  signed_unlockUSDCInstruction mainUnlock_eq rfl

theorem main_signed (inv : RawInvocation (BitVec 256))
    (h : inv ∈ [⟨1000, mainLock⟩, ⟨1001, mainUnlock⟩]) :
    testDeployment.Signed inv.instruction.accounts := by
  rcases List.mem_pair.mp h with rfl | rfl
  · exact mainLock_signed
  · exact mainUnlock_signed

/-- `main` within a second, `lock_usdc.js` 212-221. -/
def mainRun : LedgerRun testDeployment :=
  .ofList testDeployment walletLedger walletLedger_sound walletLedger_blank
    [⟨1000, mainLock⟩, ⟨1001, mainUnlock⟩] main_signed

theorem mainRun_loads_zero : usdcClient.Loads testDeployment (mainRun.ledger 0) where
  token := ⟨⟨usdcClient.mint, usdcClient.wallet, 0⟩, by decide +kernel, rfl⟩
  mint := by decide +kernel

theorem mainRun_loads_one : usdcClient.Loads testDeployment (mainRun.ledger 1) where
  token := ⟨⟨usdcClient.mint, usdcClient.wallet, 0⟩, by decide +kernel, rfl⟩
  mint := by decide +kernel

/-- The record is written, and so the wallet that pays for it is not. -/
theorem mainRun_writes :
    Touches (mainRun.ledger 0) (mainRun.ledger 1)
        (testDeployment.userLockInfoAddress usdcClient.wallet) ∧
      ¬ Touches (mainRun.ledger 0) (mainRun.ledger 1) usdcClient.wallet := by
  have hrecord : Touches (mainRun.ledger 0) (mainRun.ledger 1)
      (testDeployment.userLockInfoAddress usdcClient.wallet) := by
    left
    decide +kernel
  refine ⟨hrecord, ?_⟩
  intro hwallet
  have hone := (mainRun.writes_own_record_only 0 ⟨1000, mainLock⟩ rfl (by decide)).2
  exact absurd (hone _ _ hwallet hrecord) (by decide)

/-- `toLocaleString` in January 1970, in Sweden with its clocks on UTC. -/
def januaryText (ms : ℤ) : String :=
  let two (n : ℤ) := if n < 10 then "0" ++ toString n else toString n
  "1970-01-" ++ two (ms / 86400000 + 1) ++ " " ++ two (ms / 3600000 % 24) ++ ":" ++
    two (ms / 60000 % 60) ++ ":" ++ two (ms / 1000 % 60)

/-- Before `main` there is nothing to show. -/
theorem mainRun_status :
    ∃ x, usdcClient.checkLockStatus testDeployment januaryText (mainRun.ledger 0) = .error x := by
  have hstatus := lock_status_exact mainRun usdcClient januaryText rfl (by decide) 0
  exact hstatus.2.mpr fun k _ hk => absurd hk (Nat.not_lt_zero k)

/-- `main` locks 100 USDC, finds them locked until the next day and cannot unlock them. -/
theorem mainRun_session :
    usdcClient.checkLockStatus testDeployment januaryText (mainRun.ledger 1) =
      .ok ⟨"100000000", "1970-01-02 00:16:40"⟩ ∧
    testDeployment.entry (mainRun.ledger 1) 1001 mainUnlock =
      .error (.declared (.blocklock .lockNotExpired)) := by
  have hsession := client_session mainRun usdcClient januaryText 0 1000 100000000 mainLock
    (by decide) mainLock_eq rfl
  obtain ⟨haccepted, _, hlater⟩ := hsession
  have hpays : usdcClient.CanPay testDeployment (mainRun.ledger 0) :=
    Or.inr ⟨by decide, by decide, by decide⟩
  have hok := haccepted.mpr ⟨mainRun_loads_zero, fun _ => by decide, fun _ => hpays⟩
  obtain ⟨hstatus, hunlock⟩ := hlater hok 1 (by omega) (fun k h0 h1 => by omega)
  obtain ⟨_, _, hrefuse⟩ := hunlock 1001 mainUnlock mainUnlock_eq rfl
  have htext : lockStatus januaryText 100000000 (1000 + lockDuration) =
      ⟨"100000000", "1970-01-02 00:16:40"⟩ := by
    decide +kernel
  rw [htext] at hstatus
  exact ⟨hstatus, (hrefuse mainRun_loads_one.opens (by decide)).1⟩

end BlockLockCore
