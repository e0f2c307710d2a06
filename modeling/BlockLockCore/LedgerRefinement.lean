import BlockLockCore.Ledger
import BlockLockCore.Run

/-! The ledger refines the records: bytes decode, at every step, to what the records become. -/
namespace BlockLockCore

open Checked Trace Wire

variable {Pubkey : Type}

theorem nextAccount_eq_ok {infos rest : List (AccountInfo Pubkey)} {info : AccountInfo Pubkey} :
    nextAccount infos = .ok (info, rest) ↔ infos = info :: rest := by
  cases infos <;> simp [nextAccount]

theorem declared_eq_ok {α : Type} {x : Except Error α} {a : α} :
    declared x = .ok a ↔ x = .ok a := by
  cases x <;> simp [declared]

theorem declared_error {α : Type} (e : Error) :
    declared (.error e : Except Error α) = .error (.declared e) := rfl

namespace Storage

/-- The rent due tops the account up to its minimum. -/
theorem minimumBalance_le (D : Storage Pubkey) (l : Ledger Pubkey) (field : Pubkey) :
    D.minimumBalance space ≤ (l field).lamports + D.rentDue l field := by
  unfold rentDue
  split <;> omega

/-- A created account reads as the zeroed record. -/
theorem tryDeserializeUnchecked_zeroes (D : Storage Pubkey) :
    tryDeserializeUnchecked D.key (List.replicate space 0) = .ok D.zeroed := by
  apply tryDeserializeUnchecked_eq_ok.mpr
  obtain ⟨rest, hkey⟩ := Codec.decode_eq_some_iff.mp D.key_zero
  have hrest : rest = [] := by
    have hlen := congrArg List.length hkey
    rw [List.length_append, D.key.length_encode, D.key_size, List.length_replicate] at hlen
    exact List.length_eq_zero_iff.mp (by omega)
  subst rest
  have hamount : Codec.uint64.encode 0 = List.replicate 8 0 := by decide
  have htime : Codec.int64.encode 0 = List.replicate 8 0 := by decide
  refine ⟨[], ?_⟩
  change List.replicate 48 0 = (Codec.uint64.encode 0 ++
    (Codec.int64.encode 0 ++ D.key.encode D.systemProgramId)) ++ []
  rw [hamount, htime, List.append_nil, ← List.append_nil (D.key.encode _), ← hkey]
  rfl

variable {D : Storage Pubkey} {l : Ledger Pubkey} {k : Pubkey} {r : UserLockInfo Pubkey}

theorem tagged_of_bytes {rest : List UInt8} (howner : (l k).owner = D.id)
    (hdata : (l k).data = r.bytes D.key ++ rest) : D.Tagged (l k) := by
  refine ⟨howner, ?_⟩
  rw [hdata, UserLockInfo.bytes, List.append_assoc]
  exact List.take_left' rfl

theorem tagged_congr {a a' : RawAccount Pubkey} (howner : a'.owner = a.owner)
    (hdata : a'.data = a.data) : D.Tagged a' ↔ D.Tagged a := by
  simp only [Tagged, howner, hdata]

end Storage

variable [DecidableEq Pubkey] {D : Storage Pubkey} {l l' l₁ : Ledger Pubkey}
  {field k payer u : Pubkey} {r : UserLockInfo Pubkey}

/-- What a new value of an account leaves alone there it leaves alone everywhere. -/
theorem update_keeps {β : Type} (f : RawAccount Pubkey → β) {a : RawAccount Pubkey}
    (h : f a = f (l field)) (k : Pubkey) : f (Function.update l field a k) = f (l k) := by
  by_cases hk : k = field
  · subst k
    rw [Function.update_self, h]
  · rw [Function.update_of_ne hk]

namespace Storage

theorem records_eq_some_iff : D.records l k = some r ↔
    (l k).owner = D.id ∧ ∃ rest, (l k).data = r.bytes D.key ++ rest := by
  rw [← tryDeserialize_eq_ok, records]
  split
  · rename_i h
    cases hd : tryDeserialize D.key (l k).data <;> simp [h, Except.toOption]
  · rename_i h
    simp [h]

theorem loadUserLockInfo_eq_ok :
    D.loadUserLockInfo (l k) = .ok r ↔ D.records l k = some r := by
  simp only [loadUserLockInfo, bind_eq_ok, require_eq_ok, exists_const, tryDeserialize_eq_ok,
    records_eq_some_iff]
  constructor
  · rintro ⟨_, howner, hdata⟩
    exact ⟨howner, hdata⟩
  · rintro ⟨howner, hdata⟩
    refine ⟨?_, howner, hdata⟩
    rintro ⟨hsystem, _⟩
    exact D.id_ne_system (howner.symm.trans hsystem)

theorem tagged_of_record (h : D.records l k = some r) : D.Tagged (l k) := by
  obtain ⟨howner, rest, hdata⟩ := records_eq_some_iff.mp h
  exact tagged_of_bytes howner hdata

theorem record_of_tagged (hs : D.Sound l) (h : D.Tagged (l k)) : ∃ r, D.records l k = some r := by
  obtain ⟨r, hdata, _⟩ := hs.held k h
  exact ⟨r, records_eq_some_iff.mpr ⟨h.1, [], hdata.trans (List.append_nil _).symm⟩⟩

/-- The record of an account is all of its data. -/
theorem data_of_record (hs : D.Sound l) (h : D.records l k = some r) :
    (l k).data = r.bytes D.key ∧ D.minimumBalance space ≤ (l k).lamports := by
  obtain ⟨r', hdata, hrent⟩ := hs.held k (tagged_of_record h)
  obtain ⟨_, rest, hrest⟩ := records_eq_some_iff.mp h
  rw [hdata, UserLockInfo.bytes, UserLockInfo.bytes, List.append_assoc] at hrest
  have hcodec : (userLockInfoCodec D.key).encode r' ++ [] =
      (userLockInfoCodec D.key).encode r ++ rest := by
    rw [List.append_nil]
    exact List.append_cancel_left hrest
  obtain ⟨rfl, _⟩ := Codec.encode_append_inj hcodec
  exact ⟨hdata, hrent⟩

/-- An address without a record is unused where it is a user's. -/
theorem unused_of_none (hs : D.Sound l) (hu : D.canSign u)
    (h : D.records l (D.userLockInfoAddress u) = none) :
    (l (D.userLockInfoAddress u)).owner = D.systemProgramId ∧
      (l (D.userLockInfoAddress u)).data = [] := by
  apply hs.unused u hu
  intro htag
  obtain ⟨r, hr⟩ := record_of_tagged hs htag
  cases hr.symm.trans h

omit [DecidableEq Pubkey] in
/-- No user is where a record is. -/
theorem ne_userLockInfoAddress (hu : D.canSign u) : u ≠ D.userLockInfoAddress u := by
  intro h
  exact D.derived_cannot_sign u hu (h ▸ hu)

/-- What an instruction does to the ledger: it writes one record, and touches no other data. -/
structure Writes (D : Storage Pubkey) (l l' : Ledger Pubkey) (field : Pubkey)
    (r : UserLockInfo Pubkey) : Prop where
  owner : (l' field).owner = D.id
  data : (l' field).data = r.bytes D.key
  rent : D.minimumBalance space ≤ (l' field).lamports
  frame : ∀ k, k ≠ field → (l' k).owner = (l k).owner ∧ (l' k).data = (l k).data
  kept : ∀ k, (l k).owner = D.id → (l k).lamports ≤ (l' k).lamports

omit [DecidableEq Pubkey] in
theorem tagged_of_writes (h : D.Writes l l' field r) : D.Tagged (l' field) :=
  tagged_of_bytes h.owner (h.data.trans (List.append_nil _).symm)

theorem records_of_writes (h : D.Writes l l' field r) :
    D.records l' = Function.update (D.records l) field (some r) := by
  funext k
  by_cases hk : k = field
  · subst k
    rw [Function.update_self]
    exact records_eq_some_iff.mpr ⟨h.owner, [], h.data.trans (List.append_nil _).symm⟩
  · obtain ⟨howner, hdata⟩ := h.frame k hk
    rw [Function.update_of_ne hk, records, records, howner, hdata]

theorem sound_of_writes (hs : D.Sound l) (h : D.Writes l l' field r) : D.Sound l' where
  held k htag := by
    by_cases hk : k = field
    · subst k
      exact ⟨r, h.data, h.rent⟩
    · obtain ⟨howner, hdata⟩ := h.frame k hk
      have htag' : D.Tagged (l k) := (tagged_congr howner hdata).mp htag
      obtain ⟨r', hdata', hrent⟩ := hs.held k htag'
      exact ⟨r', hdata.trans hdata', hrent.trans (h.kept k htag'.1)⟩
  unused u hu htag := by
    have hk : D.userLockInfoAddress u ≠ field := by
      rintro rfl
      exact htag (tagged_of_writes h)
    obtain ⟨howner, hdata⟩ := h.frame _ hk
    have htag' : ¬ D.Tagged (l (D.userLockInfoAddress u)) :=
      mt (tagged_congr howner hdata).mpr htag
    obtain ⟨howner', hdata'⟩ := hs.unused u hu htag'
    exact ⟨howner.trans howner', hdata.trans hdata'⟩

/-- Everything the System program does when it creates a record account. -/
theorem create_eq_ok (h : D.create l payer field = .ok l₁) :
    (l field).owner = D.systemProgramId ∧ (l₁ field).owner = D.id ∧
      (l₁ field).data = List.replicate space 0 ∧
      D.minimumBalance space ≤ (l₁ field).lamports ∧
      (∀ k, k ≠ field → (l₁ k).owner = (l k).owner ∧ (l₁ k).data = (l k).data) ∧
      ∀ k, (l k).owner = D.id → (l k).lamports ≤ (l₁ k).lamports := by
  simp only [create, bind_eq_ok, require_eq_ok, exists_const, pure_eq_ok] at h
  obtain ⟨hpayer, hfunds, ⟨howner, _⟩, rfl⟩ := h
  refine ⟨howner, ?_, ?_, ?_, ?_, ?_⟩
  · rw [Function.update_self]
  · rw [Function.update_self]
  · rw [Function.update_self]
    by_cases hself : field = payer
    · -- only an empty address can pay for itself, and then for no rent at all
      subst payer
      have hzero : (l field).lamports = 0 := by simpa using hpayer
      simp only [rentDue, hzero, if_true, Function.update_self] at hfunds ⊢
      omega
    · rw [Function.update_of_ne hself]
      exact minimumBalance_le D l field
  · intro k hk
    rw [Function.update_of_ne hk]
    exact ⟨update_keeps RawAccount.owner (by rfl) k, update_keeps RawAccount.data (by rfl) k⟩
  · intro k hk
    have hkf : k ≠ field := by
      rintro rfl
      exact D.id_ne_system (hk.symm.trans howner)
    rw [Function.update_of_ne hkf]
    by_cases hkp : k = payer
    · subst k
      rw [Function.update_self]
      rcases hfunds with hfree | ⟨hsystem, _, _⟩
      · simp [hfree]
      · exact (D.id_ne_system (hk.symm.trans hsystem)).elim
    · rw [Function.update_of_ne hkp]

/-- The ledger and the record that a handler starts from. -/
inductive Loaded (D : Storage Pubkey) (l : Ledger Pubkey) (payer field : Pubkey) :
    Ledger Pubkey → UserLockInfo Pubkey → Prop
  | found {r : UserLockInfo Pubkey} (hr : D.records l field = some r) : Loaded D l payer field l r
  | created {l₁ : Ledger Pubkey} (hr : D.records l field = none)
      (hc : D.create l payer field = .ok l₁) : Loaded D l payer field l₁ D.zeroed

/-- At the address of a user either the record loads, or it is created at the payer's expense. -/
theorem initIfNeeded_eq_ok (hs : D.Sound l) (hu : D.canSign u) :
    D.initIfNeeded l payer (D.userLockInfoAddress u) = .ok (l₁, r) ↔
      D.Loaded l payer (D.userLockInfoAddress u) l₁ r := by
  cases hr : D.records l (D.userLockInfoAddress u) with
  | some r' =>
    have howner := (records_eq_some_iff.mp hr).1
    have hsystem : ¬ (l (D.userLockInfoAddress u)).owner = D.systemProgramId := by
      rw [howner]
      exact D.id_ne_system
    obtain ⟨hdata, hrent⟩ := data_of_record hs hr
    have hlen : (l (D.userLockInfoAddress u)).data.length = space := by
      rw [hdata, length_bytes D.key_size]
    simp only [initIfNeeded, if_neg hsystem, bind_eq_ok, pure_eq_ok, loadUserLockInfo_eq_ok, hr,
      require_eq_ok, exists_const, Prod.exists, Prod.mk.injEq]
    constructor
    · rintro ⟨r₀, hr₀, _, _, ⟨rfl, rfl⟩, _, _, _, rfl, rfl⟩
      exact .found (hr.trans hr₀)
    · rintro (hr₀ | ⟨hnone, _⟩)
      · exact ⟨r, hr.symm.trans hr₀, l, r, ⟨rfl, rfl⟩, hlen, howner, hrent, rfl, rfl⟩
      · cases hr.symm.trans hnone
  | none =>
    have hsystem := (unused_of_none hs hu hr).1
    simp only [initIfNeeded, if_pos hsystem, bind_eq_ok, pure_eq_ok, require_eq_ok, exists_const,
      Prod.exists, Prod.mk.injEq]
    constructor
    · rintro ⟨l₂, hcreate, r₀, hr₀, _, _, ⟨rfl, rfl⟩, _, _, _, rfl, rfl⟩
      obtain ⟨_, _, hdata, _⟩ := create_eq_ok hcreate
      rw [hdata, tryDeserializeUnchecked_zeroes] at hr₀
      obtain rfl := Except.ok.inj hr₀
      exact .created hr hcreate
    · rintro (hr₀ | ⟨_, hcreate⟩)
      · cases hr.symm.trans hr₀
      obtain ⟨_, howner, hdata, hrent, _⟩ := create_eq_ok hcreate
      refine ⟨l₁, hcreate, D.zeroed, ?_, l₁, D.zeroed, ⟨rfl, rfl⟩, ?_, howner, hrent, rfl, rfl⟩
      · rw [hdata, tryDeserializeUnchecked_zeroes]
      · rw [hdata, List.length_replicate]

/-- Writing a record back into a full account. -/
theorem exit_eq_ok (hlen : (l field).data.length = space) :
    D.exit l field r = .ok l' ↔
      l' = Function.update l field { l field with data := r.bytes D.key } := by
  have hbytes : (r.bytes D.key).length = space := length_bytes D.key_size r
  have hdrop : (l field).data.drop space = [] := List.drop_eq_nil_of_le hlen.le
  simp only [exit, bind_eq_ok, trySerialize_eq_ok, pure_eq_ok, hbytes, hlen, le_refl, true_and,
    hdrop, List.append_nil, exists_eq_left]
  exact eq_comm

/-- A record account ready for the handler, nothing else changed. -/
structure Prepared (D : Storage Pubkey) (l l₁ : Ledger Pubkey) (field : Pubkey) : Prop where
  owner : (l₁ field).owner = D.id
  full : (l₁ field).data.length = space
  rent : D.minimumBalance space ≤ (l₁ field).lamports
  frame : ∀ k, k ≠ field → (l₁ k).owner = (l k).owner ∧ (l₁ k).data = (l k).data
  kept : ∀ k, (l k).owner = D.id → (l k).lamports ≤ (l₁ k).lamports

theorem prepared_of_record (hs : D.Sound l) (hr : D.records l field = some r) :
    D.Prepared l l field := by
  obtain ⟨hdata, hrent⟩ := data_of_record hs hr
  have hfull : (l field).data.length = space := by
    rw [hdata, length_bytes D.key_size]
  exact ⟨(records_eq_some_iff.mp hr).1, hfull, hrent, fun k _ => ⟨rfl, rfl⟩, fun k _ => le_rfl⟩

theorem prepared_of_create (h : D.create l payer field = .ok l₁) : D.Prepared l l₁ field := by
  obtain ⟨_, howner, hdata, hrent, hframe, hkept⟩ := create_eq_ok h
  have hfull : (l₁ field).data.length = space := by
    rw [hdata, List.length_replicate]
  exact ⟨howner, hfull, hrent, hframe, hkept⟩

theorem prepared_of_loaded (hs : D.Sound l) (h : D.Loaded l payer field l₁ r) :
    D.Prepared l l₁ field := by
  cases h with
  | found hr => exact prepared_of_record hs hr
  | created _ hc => exact prepared_of_create hc

/-- The exit always succeeds on a prepared account, and is one write. -/
theorem exit_of_prepared (h : D.Prepared l l₁ field) (r : UserLockInfo Pubkey) :
    ∃ l', D.exit l₁ field r = .ok l' ∧ D.Writes l l' field r := by
  refine ⟨_, (exit_eq_ok h.full).mpr rfl, ?_, ?_, ?_, ?_, ?_⟩
  · rw [Function.update_self]
    exact h.owner
  · rw [Function.update_self]
  · rw [Function.update_self]
    exact h.rent
  · intro k hk
    rw [Function.update_of_ne hk]
    exact h.frame k hk
  · intro k hk
    have hsame : (Function.update l₁ field { l₁ field with data := r.bytes D.key } k).lamports =
        (l₁ k).lamports := update_keeps RawAccount.lamports (by rfl) k
    rw [hsame]
    exact h.kept k hk

theorem writes_of_exit (h : D.Prepared l l₁ field) (hexit : D.exit l₁ field r = .ok l') :
    D.Writes l l' field r := by
  obtain ⟨l₂, hl₂, hw⟩ := exit_of_prepared h r
  obtain rfl := Except.ok.inj (hexit.symm.trans hl₂)
  exact hw

section
variable {clock : Int64} {accounts : List (AccountInfo Pubkey)} {amount : UInt64}

/-- A `lock_tokens` that goes through: what it reads, what it finds or creates, and the exit. The
checks are those of the records. -/
structure LocksTokens (D : Storage Pubkey) (l : Ledger Pubkey) (clock : Int64)
    (accounts : List (AccountInfo Pubkey)) (amount : UInt64) (l' : Ledger Pubkey)
    (accts : LockTokens Pubkey) (l₁ : Ledger Pubkey) (r : UserLockInfo Pubkey) : Prop where
  read : D.readLockTokens l accounts = some accts
  accepted : accts.Accepted D.toRuntime (D.records l) clock
  loaded : D.Loaded l accts.user.key (D.userLockInfoAddress accts.user.key) l₁ r
  exited : D.exit l₁ (D.userLockInfoAddress accts.user.key)
    ⟨amount, clock + lockDuration, accts.user.key⟩ = .ok l'

/-- An `unlock_tokens` that goes through. -/
structure UnlocksTokens (D : Storage Pubkey) (l : Ledger Pubkey) (clock : Int64)
    (accounts : List (AccountInfo Pubkey)) (l' : Ledger Pubkey) (accts : UnlockTokens Pubkey)
    (r : UserLockInfo Pubkey) : Prop where
  read : D.readUnlockTokens l accounts = some accts
  wellFormed : accts.WellFormed D.toRuntime
  found : D.records l (D.userLockInfoAddress accts.user.key) = some r
  owner : r.owner = accts.owner
  due : r.unlockTime ≤ clock
  exited : D.exit l (D.userLockInfoAddress accts.user.key) ⟨0, 0, r.owner⟩ = .ok l'

theorem createAccount_of_read {accts : LockTokens Pubkey}
    (h : D.readLockTokens l accounts = some accts) : accts.createAccount = .ok () ↔
      ∃ l₁, D.create l accts.user.key accts.userLockInfo.key = .ok l₁ := by
  unfold readLockTokens at h
  split at h
  · rename_i user field _ _ _ _ _ _
    cases h
    cases D.create l user.key field.key <;> simp
  · cases h

/-- The bytes let through exactly the `lock_tokens` that the records let through. -/
theorem enterLockTokens_eq_ok (hs : D.Sound l) (hsig : D.Signed accounts) :
    D.enterLockTokens l clock accounts amount = .ok l' ↔
      ∃ accts l₁ r, D.LocksTokens l clock accounts amount l' accts l₁ r := by
  simp only [enterLockTokens, bind_eq_ok, require_eq_ok, exists_const, Prod.exists,
    nextAccount_eq_ok, declared_eq_ok, lockTokens_eq_ok]
  constructor
  · rintro ⟨user, _, rfl, hsigned, field, _, rfl, tokenInfo, _, rfl, token, htoken, mint, _, rfl, _,
      hmint, system, _, rfl, hsystem, tokenProgram, _, rfl, htokenProgram, rent, rest, rfl, hrent,
      hderived, l₁, r, hinit, hfield, huser, htokenInfo, e, ⟨hmatch, hrange, rfl⟩, hexit⟩
    rw [hderived] at hinit hexit
    have hu : D.canSign user.key := hsig user List.mem_cons_self hsigned
    have hloaded := (initIfNeeded_eq_ok hs hu).mp hinit
    have hread : D.readLockTokens l (user :: field :: tokenInfo :: mint :: system ::
      tokenProgram :: rent :: rest) = some _ := rfl
    refine ⟨_, l₁, r, hread, ?_, hloaded, hexit⟩
    have hcreated : D.records l field.key = none →
        ∃ l₁, D.create l user.key field.key = .ok l₁ := by
      intro hnone
      rw [hderived] at hnone ⊢
      cases hloaded with
      | found hr => cases hnone.symm.trans hr
      | created _ hc => exact ⟨l₁, hc⟩
    exact
      { signed := hsigned
        mintLoaded := hmint
        systemProgram := hsystem
        tokenProgram := htokenProgram
        rent := hrent
        derived := hderived
        created := fun hnone => (createAccount_of_read hread).mpr (hcreated hnone)
        recordWritable := hfield
        userWritable := huser
        tokenWritable := htokenInfo
        mintMatches := ⟨token, htoken, hmatch⟩
        inRange := hrange }
  · rintro ⟨accts, l₁, r, hread, ha, hloaded, hexit⟩
    unfold readLockTokens at hread
    split at hread
    · rename_i user field tokenInfo mint system tokenProgram rent rest
      cases hread
      obtain ⟨token, htoken, hmatch⟩ := ha.mintMatches
      have hderived : field.key = D.userLockInfoAddress user.key := ha.derived
      have hu : D.canSign user.key := hsig user List.mem_cons_self ha.signed
      have hinit := (initIfNeeded_eq_ok hs hu).mpr hloaded
      rw [← hderived] at hinit hexit
      exact ⟨user, _, rfl, ha.signed, field, _, rfl, tokenInfo, _, rfl, token, htoken, mint, _, rfl,
        (), ha.mintLoaded, system, _, rfl, ha.systemProgram, tokenProgram, _, rfl, ha.tokenProgram,
        rent, _, rfl, ha.rent, hderived, l₁, r, hinit, ha.recordWritable, ha.userWritable,
        ha.tokenWritable, _, ⟨hmatch, ha.inRange, rfl⟩, hexit⟩
    · cases hread

/-- The bytes let through exactly the `unlock_tokens` that the records let through. -/
theorem enterUnlockTokens_eq_ok :
    D.enterUnlockTokens l clock accounts = .ok l' ↔
      ∃ accts r, D.UnlocksTokens l clock accounts l' accts r := by
  simp only [enterUnlockTokens, bind_eq_ok, require_eq_ok, exists_const, Prod.exists,
    nextAccount_eq_ok, declared_eq_ok, unlockTokens_eq_ok, loadUserLockInfo_eq_ok]
  constructor
  · rintro ⟨user, _, rfl, hsigned, field, _, rfl, r, hr, tokenInfo, _, rfl, token, htoken, mint, _,
      rfl, _, hmint, tokenProgram, _, rfl, htokenProgram, owner, _, rfl, huser, hderived, hfield,
      howner, htokenInfo, e, ⟨hdue, rfl⟩, hexit⟩
    rw [hderived] at hr hexit
    refine ⟨_, r, rfl, ?_, hr, howner, hdue, hexit⟩
    exact
      { signed := hsigned
        tokenLoaded := ⟨token, htoken⟩
        mintLoaded := hmint
        tokenProgram := htokenProgram
        userWritable := huser
        derived := hderived
        recordWritable := hfield
        tokenWritable := htokenInfo }
  · rintro ⟨accts, r, hread, hw, hr, howner, hdue, hexit⟩
    unfold readUnlockTokens at hread
    split at hread
    · rename_i user field tokenInfo mint tokenProgram owner rest
      cases hread
      obtain ⟨token, htoken⟩ := hw.tokenLoaded
      have hderived : field.key = D.userLockInfoAddress user.key := hw.derived
      rw [← hderived] at hr hexit
      exact ⟨user, _, rfl, hw.signed, field, _, rfl, r, hr, tokenInfo, _, rfl, token, htoken, mint,
        _, rfl, (), hw.mintLoaded, tokenProgram, _, rfl, hw.tokenProgram, owner, _, rfl,
        hw.userWritable, hderived, hw.recordWritable, howner, hw.tokenWritable, _, ⟨hdue, rfl⟩,
        hexit⟩
    · cases hread

/-- A `lock_tokens` that is accepted finds the record or creates it. -/
theorem loaded_of_accepted {accts : LockTokens Pubkey}
    (hread : D.readLockTokens l accounts = some accts)
    (ha : accts.Accepted D.toRuntime (D.records l) clock) :
    ∃ l₁ r, D.Loaded l accts.user.key (D.userLockInfoAddress accts.user.key) l₁ r := by
  cases hr : D.records l (D.userLockInfoAddress accts.user.key) with
  | some r => exact ⟨l, r, .found hr⟩
  | none =>
    have hmissing : D.records l accts.userLockInfo.key = none := by
      rw [ha.derived]
      exact hr
    obtain ⟨l₁, hc⟩ := (createAccount_of_read hread).mp (ha.created hmissing)
    rw [ha.derived] at hc
    exact ⟨l₁, D.zeroed, .created hr hc⟩

/-- What the records let through, the bytes let through. -/
theorem locksTokens_of_process (hs : D.Sound l) {accts : LockTokens Pubkey} {e : Effect Pubkey}
    (hread : D.readLockTokens l accounts = some accts)
    (h : process D.toRuntime (D.records l) ⟨clock, .lockTokens accts amount⟩ = .ok e) :
    ∃ l' l₁ r, D.LocksTokens l clock accounts amount l' accts l₁ r := by
  obtain ⟨ha, rfl⟩ := process_lock_eq_ok.mp h
  obtain ⟨l₁, r, hloaded⟩ := loaded_of_accepted hread ha
  obtain ⟨l', hexit, _⟩ := exit_of_prepared (prepared_of_loaded hs hloaded)
    ⟨amount, clock + lockDuration, accts.user.key⟩
  exact ⟨l', l₁, r, hread, ha, hloaded, hexit⟩

theorem unlocksTokens_of_process (hs : D.Sound l) {accts : UnlockTokens Pubkey}
    {e : Effect Pubkey} (hread : D.readUnlockTokens l accounts = some accts)
    (h : process D.toRuntime (D.records l) ⟨clock, .unlockTokens accts⟩ = .ok e) :
    ∃ l' r, D.UnlocksTokens l clock accounts l' accts r := by
  obtain ⟨hw, r, hr, howner, hdue, rfl⟩ := process_unlock_eq_ok.mp h
  obtain ⟨l', hexit, _⟩ := exit_of_prepared (prepared_of_record hs hr) ⟨0, 0, r.owner⟩
  exact ⟨l', r, hread, hw, hr, howner, hdue, hexit⟩

/-- With the right accounts an early `unlock_tokens` gets as far as the clock. -/
theorem unlockTokens_early {accts : UnlockTokens Pubkey}
    (hread : D.readUnlockTokens l accounts = some accts) (hw : accts.WellFormed D.toRuntime)
    (hr : D.records l (D.userLockInfoAddress accts.user.key) = some r)
    (howner : r.owner = accts.owner) (hearly : clock < r.unlockTime) :
    D.enterUnlockTokens l clock accounts = .error (.declared (.blocklock .lockNotExpired)) := by
  unfold readUnlockTokens at hread
  split at hread
  · rename_i user field tokenInfo mint tokenProgram owner rest
    cases hread
    obtain ⟨token, htoken⟩ := hw.tokenLoaded
    have htoken : declared (D.loadToken (l tokenInfo.key)) = .ok token := declared_eq_ok.mpr htoken
    have hmint : declared (D.loadMint (l mint.key)) = .ok () := declared_eq_ok.mpr hw.mintLoaded
    have hload : D.loadUserLockInfo (l field.key) = .ok r := by
      apply loadUserLockInfo_eq_ok.mpr
      rw [show field.key = D.userLockInfoAddress user.key from hw.derived]
      exact hr
    have hearly : ¬ clock ≥ r.unlockTime := Int64.not_le.mpr hearly
    simp only [enterUnlockTokens, nextAccount, ok_bind, require_of hw.signed, hload, htoken, hmint,
      require_of hw.tokenProgram, require_of hw.userWritable, require_of hw.derived,
      require_of hw.recordWritable, require_of howner, require_of hw.tokenWritable, unlockTokens,
      require_of_not hearly, error_bind, declared_error]
  · cases hread

end

end Storage

end BlockLockCore
