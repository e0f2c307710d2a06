import BlockLockCore.Accounts
import BlockLockCore.Checked
import BlockLockCore.Wire.Codec

/-!
The bytes of the record and of instruction data: Anchor puts an 8-byte discriminator in front of
the Borsh encoding (`lib.rs` 45-52 and 80-85, `app/src/idl/blocklockcore.ts`).
-/
namespace BlockLockCore

open Checked Wire

/-- `idl/blocklockcore.ts` 18-27. -/
def lockTokensDiscriminator : List UInt8 := [136, 11, 32, 232, 161, 117, 54, 211]

/-- `idl/blocklockcore.ts` 94-103. -/
def unlockTokensDiscriminator : List UInt8 := [233, 35, 95, 159, 37, 185, 47, 88]

/-- `idl/blocklockcore.ts` 165-174. -/
def userLockInfoDiscriminator : List UInt8 := [125, 0, 43, 190, 172, 84, 106, 88]

/-- `anchor_lang::idl::IDL_IX_TAG_LE`: the instructions that Anchor adds to every program unless the
feature `no-idl` is on, which `Cargo.toml` leaves off. -/
def idlDiscriminator : List UInt8 := [64, 244, 188, 120, 167, 233, 105, 10]

/-- `anchor_lang::event::EVENT_IX_TAG_LE`, of use only with the feature `event-cpi`. -/
def eventDiscriminator : List UInt8 := [228, 69, 165, 46, 81, 203, 154, 29]

/-- `space = 8 + 8 + 8 + 32`, `lib.rs` 48. -/
def space : ℕ := 8 + 8 + 8 + 32

/-- Rejections that concern bytes, and those the program declares. -/
inductive EntryError
  | instructionMissing
  | instructionFallbackNotFound
  | instructionDidNotDeserialize
  | eventInstructionStub
  | accountNotEnoughKeys
  | accountDiscriminatorNotFound
  | accountDiscriminatorMismatch
  | accountDidNotSerialize
  | tryingToInitPayerAsProgramAccount
  | constraintSpace
  | constraintOwner
  | constraintRentExempt
  | declared (e : Error)
  deriving DecidableEq, Repr

variable {Pubkey : Type} {key : Codec Pubkey} {r : UserLockInfo Pubkey} {data : List UInt8}

/-- The fields in declared order. -/
def userLockInfoCodec (key : Codec Pubkey) : Codec (UserLockInfo Pubkey) :=
  (Codec.uint64.pair (Codec.int64.pair key)).iso
    ⟨fun p => ⟨p.1, p.2.1, p.2.2⟩, fun r => (r.lockedAmount, r.unlockTime, r.owner),
      fun _ => rfl, fun _ => rfl⟩

/-- The account data that holds a record. -/
def UserLockInfo.bytes (key : Codec Pubkey) (r : UserLockInfo Pubkey) : List UInt8 :=
  userLockInfoDiscriminator ++ (userLockInfoCodec key).encode r

/-- Reads past the discriminator without looking at it. -/
def tryDeserializeUnchecked (key : Codec Pubkey) (data : List UInt8) :
    Except EntryError (UserLockInfo Pubkey) :=
  match (userLockInfoCodec key).decode (data.drop 8) with
  | some r => .ok r
  | none => .error (.declared (.anchor .accountDidNotDeserialize))

def tryDeserialize (key : Codec Pubkey) (data : List UInt8) :
    Except EntryError (UserLockInfo Pubkey) := do
  require (8 ≤ data.length) .accountDiscriminatorNotFound
  require (data.take 8 = userLockInfoDiscriminator) .accountDiscriminatorMismatch
  tryDeserializeUnchecked key data

/-- Writes over the front of the account data; an account cannot grow. -/
def trySerialize (key : Codec Pubkey) (r : UserLockInfo Pubkey) (data : List UInt8) :
    Except EntryError (List UInt8) :=
  if data.length < (r.bytes key).length then .error .accountDidNotSerialize
  else .ok (r.bytes key ++ data.drop (r.bytes key).length)

/-- The instructions with their arguments. -/
inductive Request
  | lockTokens (amount : UInt64)
  | unlockTokens
  deriving DecidableEq, Repr

/-- The instruction data a client sends. -/
def Request.bytes : Request → List UInt8
  | .lockTokens amount => lockTokensDiscriminator ++ Codec.uint64.encode amount
  | .unlockTokens => unlockTokensDiscriminator

/-- What the dispatch hands on: an instruction of `lib.rs`, or what follows the tag of Anchor's own
IDL instructions. -/
inductive Dispatch
  | request (q : Request)
  | idl (data : List UInt8)
  deriving DecidableEq, Repr

/-- Anchor's dispatch on instruction data. Bytes behind the arguments are ignored. -/
def parseRequest (data : List UInt8) : Except EntryError Dispatch :=
  if data.length < 8 then .error .instructionMissing
  else if data.take 8 = lockTokensDiscriminator then
    match Codec.uint64.decode (data.drop 8) with
    | some amount => .ok (.request (.lockTokens amount))
    | none => .error .instructionDidNotDeserialize
  else if data.take 8 = unlockTokensDiscriminator then .ok (.request .unlockTokens)
  else if data.take 8 = idlDiscriminator then .ok (.idl (data.drop 8))
  else if data.take 8 = eventDiscriminator then .error .eventInstructionStub
  else .error .instructionFallbackNotFound

theorem length_bytes (hkey : key.size = 32) (r : UserLockInfo Pubkey) :
    (r.bytes key).length = space := by
  rw [UserLockInfo.bytes, List.length_append, (userLockInfoCodec key).length_encode]
  change 8 + (8 + (8 + key.size)) = space
  rw [hkey]
  rfl

theorem tryDeserializeUnchecked_eq_ok : tryDeserializeUnchecked key data = .ok r ↔
    ∃ rest, data.drop 8 = (userLockInfoCodec key).encode r ++ rest := by
  rw [← Codec.decode_eq_some_iff, tryDeserializeUnchecked]
  cases (userLockInfoCodec key).decode (data.drop 8) <;> simp

/-- An account loads as a record exactly when its data starts with the bytes of that record. -/
theorem tryDeserialize_eq_ok :
    tryDeserialize key data = .ok r ↔ ∃ rest, data = r.bytes key ++ rest := by
  simp only [tryDeserialize, bind_eq_ok, require_eq_ok, exists_const,
    tryDeserializeUnchecked_eq_ok]
  constructor
  · rintro ⟨_, htag, rest, hrest⟩
    refine ⟨rest, ?_⟩
    calc data = data.take 8 ++ data.drop 8 := (List.take_append_drop 8 data).symm
      _ = r.bytes key ++ rest := by rw [htag, hrest, UserLockInfo.bytes, List.append_assoc]
  · rintro ⟨rest, rfl⟩
    have htag : userLockInfoDiscriminator.length = 8 := rfl
    rw [UserLockInfo.bytes, List.append_assoc, List.take_left' htag, List.drop_left' htag]
    exact ⟨by simp [htag], rfl, rest, rfl⟩

theorem trySerialize_eq_ok {data' : List UInt8} : trySerialize key r data = .ok data' ↔
    (r.bytes key).length ≤ data.length ∧ data' = r.bytes key ++ data.drop (r.bytes key).length := by
  unfold trySerialize
  split
  · simp only [reduceCtorEq, false_iff, not_and]
    omega
  · rename_i h
    simp only [Except.ok.injEq, Nat.not_lt.mp h, true_and]
    exact eq_comm

/-- Only data of full length starts with a discriminator. -/
theorem le_length_of_take {tag : List UInt8} (htag : tag.length = 8) (h : data.take 8 = tag) :
    8 ≤ data.length := by
  have hlen := congrArg List.length h
  rw [List.length_take, htag] at hlen
  omega

/-- The dispatch goes by the first 8 bytes. -/
theorem parseRequest_append {tag rest : List UInt8} (htag : tag.length = 8) :
    parseRequest (tag ++ rest) =
      if tag = lockTokensDiscriminator then
        match Codec.uint64.decode rest with
        | some amount => .ok (.request (.lockTokens amount))
        | none => .error .instructionDidNotDeserialize
      else if tag = unlockTokensDiscriminator then .ok (.request .unlockTokens)
      else if tag = idlDiscriminator then .ok (.idl rest)
      else if tag = eventDiscriminator then .error .eventInstructionStub
      else .error .instructionFallbackNotFound := by
  have hlong : ¬ (tag ++ rest).length < 8 := by
    rw [List.length_append, htag]
    omega
  rw [parseRequest, if_neg hlong, List.take_left' htag, List.drop_left' htag]

theorem eq_append_of_take {tag : List UInt8} (h : data.take 8 = tag) :
    data = tag ++ data.drop 8 := by
  rw [← h, List.take_append_drop]

/-- Dispatch takes for a request exactly the data that starts with the bytes of that request. -/
theorem parseRequest_eq_ok {q : Request} :
    parseRequest data = .ok (.request q) ↔ ∃ rest, data = q.bytes ++ rest := by
  constructor
  · intro h
    unfold parseRequest at h
    split at h
    · cases h
    split at h
    · rename_i htag
      cases hd : Codec.uint64.decode (data.drop 8) with
      | none => simp [hd] at h
      | some amount =>
        simp only [hd, Except.ok.injEq, Dispatch.request.injEq] at h
        subst q
        obtain ⟨rest, hrest⟩ := Codec.decode_eq_some_iff.mp hd
        refine ⟨rest, ?_⟩
        calc data = lockTokensDiscriminator ++ data.drop 8 := eq_append_of_take htag
          _ = Request.bytes (.lockTokens amount) ++ rest := by
            rw [hrest, Request.bytes, List.append_assoc]
    split at h
    · rename_i htag
      cases h
      exact ⟨data.drop 8, eq_append_of_take htag⟩
    split at h
    · cases h
    split at h
    · cases h
    · cases h
  · rintro ⟨rest, rfl⟩
    cases q with
    | lockTokens amount =>
      have hl : lockTokensDiscriminator.length = 8 := rfl
      rw [Request.bytes, List.append_assoc, parseRequest_append hl, if_pos rfl,
        Codec.decode_append]
    | unlockTokens =>
      have hu : unlockTokensDiscriminator.length = 8 := rfl
      have hne : unlockTokensDiscriminator ≠ lockTokensDiscriminator := by decide
      rw [Request.bytes, parseRequest_append hu, if_neg hne, if_pos rfl]

theorem parseRequest_bytes (q : Request) : parseRequest q.bytes = .ok (.request q) :=
  parseRequest_eq_ok.mpr ⟨[], (List.append_nil _).symm⟩

/-- The IDL instructions get all that follows their tag. -/
theorem parseRequest_eq_idl {rest : List UInt8} :
    parseRequest data = .ok (.idl rest) ↔ data = idlDiscriminator ++ rest := by
  constructor
  · intro h
    unfold parseRequest at h
    split at h
    · cases h
    split at h
    · cases hd : Codec.uint64.decode (data.drop 8) <;> simp [hd] at h
    split at h
    · cases h
    split at h
    · rename_i htag
      cases h
      exact eq_append_of_take htag
    split at h
    · cases h
    · cases h
  · rintro rfl
    have hi : idlDiscriminator.length = 8 := rfl
    have hlock : idlDiscriminator ≠ lockTokensDiscriminator := by decide
    have hunlock : idlDiscriminator ≠ unlockTokensDiscriminator := by decide
    rw [parseRequest_append hi, if_neg hlock, if_neg hunlock, if_pos rfl]

variable {x : EntryError}

theorem tryDeserializeUnchecked_eq_error (hkey : key.size = 32) :
    tryDeserializeUnchecked key data = .error x ↔
      data.length < space ∧ x = .declared (.anchor .accountDidNotDeserialize) := by
  have hsize : (userLockInfoCodec key).size = 8 + (8 + 32) := by
    change 8 + (8 + key.size) = _
    rw [hkey]
  have hshort : (userLockInfoCodec key).decode (data.drop 8) = none ↔ data.length < space := by
    rw [Codec.decode_eq_none_iff, hsize, List.length_drop]
    change _ ↔ data.length < 8 + 8 + 8 + 32
    omega
  rw [tryDeserializeUnchecked, ← hshort]
  cases (userLockInfoCodec key).decode (data.drop 8) <;> simp [eq_comm]

/-- What is wrong with the data decides how loading fails. -/
theorem tryDeserialize_eq_error (hkey : key.size = 32) :
    tryDeserialize key data = .error x ↔
      (data.length < 8 ∧ x = .accountDiscriminatorNotFound) ∨
      (8 ≤ data.length ∧ data.take 8 ≠ userLockInfoDiscriminator ∧
        x = .accountDiscriminatorMismatch) ∨
      (data.take 8 = userLockInfoDiscriminator ∧ data.length < space ∧
        x = .declared (.anchor .accountDidNotDeserialize)) := by
  have hlong : data.take 8 = userLockInfoDiscriminator → 8 ≤ data.length := le_length_of_take rfl
  by_cases hlen : 8 ≤ data.length
  · by_cases htag : data.take 8 = userLockInfoDiscriminator
    · simp only [tryDeserialize, require_of hlen, require_of htag, ok_bind,
        tryDeserializeUnchecked_eq_error hkey]
      simp [Nat.not_lt.mpr hlen, htag]
    · simp only [tryDeserialize, require_of hlen, require_of_not htag, ok_bind, error_bind]
      simp [Nat.not_lt.mpr hlen, htag, hlen, eq_comm]
  · simp only [tryDeserialize, require_of_not hlen, error_bind]
    simp [hlen, mt hlong hlen, Nat.lt_of_not_le hlen, eq_comm]

/-- Loading gives back what was stored, and storing touches nothing behind the record. -/
theorem tryDeserialize_trySerialize {data' : List UInt8} (hkey : key.size = 32)
    (h : trySerialize key r data = .ok data') :
    tryDeserialize key data' = .ok r ∧ data'.length = data.length ∧
      data'.drop space = data.drop space := by
  have hbytes : (r.bytes key).length = space := length_bytes hkey r
  obtain ⟨hroom, rfl⟩ := trySerialize_eq_ok.mp h
  rw [hbytes] at hroom ⊢
  refine ⟨tryDeserialize_eq_ok.mpr ⟨_, rfl⟩, ?_, List.drop_left' hbytes⟩
  rw [List.length_append, hbytes, List.length_drop]
  omega

/--
The format of the record is exact. Data loads as a record exactly when it starts with the bytes of
that record, which fill the declared space; otherwise the error says what is wrong. Storing fails
exactly for want of space, and what was stored loads again, with all behind it in place.
-/
theorem layout_exact (key : Codec Pubkey) (hkey : key.size = 32) :
    (∀ data r, tryDeserialize key data = .ok r ↔ ∃ rest, data = r.bytes key ++ rest) ∧
    (∀ data x, tryDeserialize key data = .error x ↔
      (data.length < 8 ∧ x = .accountDiscriminatorNotFound) ∨
      (8 ≤ data.length ∧ data.take 8 ≠ userLockInfoDiscriminator ∧
        x = .accountDiscriminatorMismatch) ∨
      (data.take 8 = userLockInfoDiscriminator ∧ data.length < space ∧
        x = .declared (.anchor .accountDidNotDeserialize))) ∧
    (∀ r data, (∃ data', trySerialize key r data = .ok data') ↔ space ≤ data.length) ∧
    (∀ r data data', trySerialize key r data = .ok data' →
      tryDeserialize key data' = .ok r ∧ data'.length = data.length ∧
        data'.drop space = data.drop space) := by
  refine ⟨fun data r => tryDeserialize_eq_ok, fun data x => tryDeserialize_eq_error hkey, ?_, ?_⟩
  · intro r data
    simp only [trySerialize_eq_ok, length_bytes hkey, exists_and_left, exists_eq, and_true]
  · intro r data data' h
    exact tryDeserialize_trySerialize hkey h

/-- 100 USDC locked, with 32-byte keys. -/
theorem layout_exact_word :
    tryDeserialize (Codec.word 32) (UserLockInfo.bytes (Codec.word 32) ⟨100000000, 87400, 1⟩) =
      .ok ⟨100000000, 87400, 1⟩ :=
  ((layout_exact (Codec.word 32) rfl).1 _ _).mpr ⟨[], (List.append_nil _).symm⟩

/-- What is wrong with the data decides how dispatch fails. -/
theorem parseRequest_eq_error : parseRequest data = .error x ↔
    (data.length < 8 ∧ x = .instructionMissing) ∨
    (data.take 8 = lockTokensDiscriminator ∧ data.length < 16 ∧
      x = .instructionDidNotDeserialize) ∨
    (data.take 8 = eventDiscriminator ∧ x = .eventInstructionStub) ∨
    (8 ≤ data.length ∧
      data.take 8 ∉ [lockTokensDiscriminator, unlockTokensDiscriminator, idlDiscriminator,
        eventDiscriminator] ∧
      x = .instructionFallbackNotFound) := by
  by_cases hlen : data.length < 8
  · have hshort : ∀ tag : List UInt8, tag.length = 8 → data.take 8 ≠ tag := by
      intro tag htag h
      exact absurd (le_length_of_take htag h) (Nat.not_le.mpr hlen)
    simp [parseRequest, hlen, hshort lockTokensDiscriminator rfl,
      hshort eventDiscriminator rfl, Nat.not_le.mpr hlen, eq_comm]
  obtain ⟨tag, rest, htag, rfl⟩ : ∃ tag rest : List UInt8, tag.length = 8 ∧ data = tag ++ rest :=
    ⟨data.take 8, data.drop 8, by simp; omega, (List.take_append_drop 8 data).symm⟩
  have hcut : Codec.uint64.decode rest = none ↔ (tag ++ rest).length < 16 := by
    rw [Codec.decode_eq_none_iff, List.length_append, htag]
    change rest.length < 8 ↔ _
    omega
  rw [parseRequest_append htag, List.take_left' htag, ← hcut]
  have hfull : 8 ≤ (tag ++ rest).length := Nat.not_lt.mp hlen
  have hevent : lockTokensDiscriminator ≠ eventDiscriminator := by decide
  by_cases hlock : tag = lockTokensDiscriminator
  · subst tag
    cases Codec.uint64.decode rest <;> simp [-List.length_append, hlen, hevent, eq_comm]
  by_cases hunlock : tag = unlockTokensDiscriminator
  · have hne : unlockTokensDiscriminator ≠ eventDiscriminator := by decide
    subst tag
    simp [-List.length_append, hlen, hlock, hne]
  by_cases hidl : tag = idlDiscriminator
  · have hne : idlDiscriminator ≠ eventDiscriminator := by decide
    subst tag
    simp [-List.length_append, hlen, hlock, hunlock, hne]
  by_cases hev : tag = eventDiscriminator
  · subst tag
    simp [-List.length_append, hlen, hlock, hunlock, hidl, eq_comm]
  · simp [-List.length_append, hlen, hlock, hunlock, hidl, hev, hfull, eq_comm]

/--
Dispatch is exact. Data is taken for a request exactly when it starts with the bytes of that
request, and starts with the bytes of at most one; it goes to Anchor's IDL instructions exactly when
it starts with their tag; otherwise the error says what is wrong. The bytes of a record are never
taken for a request.
-/
theorem dispatch_exact (key : Codec Pubkey) :
    (∀ data q, parseRequest data = .ok (.request q) ↔ ∃ rest, data = q.bytes ++ rest) ∧
    (∀ q q' rest rest', Request.bytes q ++ rest = Request.bytes q' ++ rest' →
      q = q' ∧ rest = rest') ∧
    (∀ data rest, parseRequest data = .ok (.idl rest) ↔ data = idlDiscriminator ++ rest) ∧
    (∀ data x, parseRequest data = .error x ↔
      (data.length < 8 ∧ x = .instructionMissing) ∨
      (data.take 8 = lockTokensDiscriminator ∧ data.length < 16 ∧
        x = .instructionDidNotDeserialize) ∨
      (data.take 8 = eventDiscriminator ∧ x = .eventInstructionStub) ∨
      (8 ≤ data.length ∧
        data.take 8 ∉ [lockTokensDiscriminator, unlockTokensDiscriminator, idlDiscriminator,
          eventDiscriminator] ∧
        x = .instructionFallbackNotFound)) ∧
    (∀ r rest, parseRequest (UserLockInfo.bytes key r ++ rest) =
      .error .instructionFallbackNotFound) := by
  refine ⟨fun data q => parseRequest_eq_ok, ?_, fun data rest => parseRequest_eq_idl,
    fun data x => parseRequest_eq_error, ?_⟩
  · intro q q' rest rest' h
    have hq : parseRequest (q.bytes ++ rest) = .ok (.request q) :=
      parseRequest_eq_ok.mpr ⟨rest, rfl⟩
    rw [h, parseRequest_eq_ok.mpr ⟨rest', rfl⟩] at hq
    cases hq
    exact ⟨rfl, List.append_cancel_left h⟩
  · intro r rest
    have htag : userLockInfoDiscriminator.length = 8 := rfl
    rw [UserLockInfo.bytes, List.append_assoc, parseRequest_append htag]
    rfl

end BlockLockCore
