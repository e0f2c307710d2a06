import Mathlib.Data.Nat.Digits.Lemmas

/-! Fixed-size codecs: values read from the front of a byte string, every bit pattern a value. -/
namespace Wire

/-- Exactly the first `size` bytes are read, and any `size` bytes encode one value. -/
structure Codec (α : Type) where
  size : ℕ
  encode : α → List UInt8
  decode : List UInt8 → Option α
  length_encode : ∀ a, (encode a).length = size
  decode_append : ∀ a rest, decode (encode a ++ rest) = some a
  decode_take : ∀ bs, size ≤ bs.length → ∃ a, decode bs = some a ∧ bs.take size = encode a
  decode_short : ∀ bs, bs.length < size → decode bs = none

namespace Codec

variable {α β : Type} {c : Codec α} {d : Codec β} {bs rest : List UInt8} {a a' : α}

theorem size_le_of_decode (h : c.decode bs = some a) : c.size ≤ bs.length := by
  by_contra hlt
  have hnone := c.decode_short bs (by omega)
  rw [h] at hnone
  cases hnone

/-- What decodes is the encoding of the value, with something behind it. -/
theorem decode_eq_some_iff : c.decode bs = some a ↔ ∃ rest, bs = c.encode a ++ rest := by
  constructor
  · intro h
    obtain ⟨a', ha', htake⟩ := c.decode_take bs (size_le_of_decode h)
    obtain rfl := Option.some.inj (h.symm.trans ha')
    exact ⟨bs.drop c.size, by rw [← htake, List.take_append_drop]⟩
  · rintro ⟨rest, rfl⟩
    exact c.decode_append a rest

/-- Only the length decides whether bytes decode. -/
theorem decode_eq_none_iff : c.decode bs = none ↔ bs.length < c.size := by
  constructor
  · intro h
    by_contra hlen
    obtain ⟨a, ha, _⟩ := c.decode_take bs (by omega)
    rw [h] at ha
    cases ha
  · exact c.decode_short bs

theorem decode_encode : c.decode (c.encode a) = some a :=
  decode_eq_some_iff.mpr ⟨[], (List.append_nil _).symm⟩

theorem drop_encode : (c.encode a ++ rest).drop c.size = rest :=
  List.drop_left' (c.length_encode a)

/-- A value and its encoding, whatever follows, determine each other. -/
theorem encode_append_inj {rest' : List UInt8}
    (h : c.encode a ++ rest = c.encode a' ++ rest') : a = a' ∧ rest = rest' := by
  have ha : a = a' := by
    have hd := c.decode_append a rest
    rw [h, c.decode_append] at hd
    exact (Option.some.inj hd).symm
  subst a'
  exact ⟨rfl, List.append_cancel_left h⟩

/-- The same bytes, read as another type. -/
def iso (c : Codec α) (e : α ≃ β) : Codec β where
  size := c.size
  encode b := c.encode (e.symm b)
  decode bs := (c.decode bs).map e
  length_encode b := c.length_encode _
  decode_append b rest := by simp [c.decode_append]
  decode_take bs h := by
    obtain ⟨a, ha, htake⟩ := c.decode_take bs h
    exact ⟨e a, by simp [ha], by simpa using htake⟩
  decode_short bs h := by simp [c.decode_short bs h]

/-- One value after the other. -/
def pair (c : Codec α) (d : Codec β) : Codec (α × β) where
  size := c.size + d.size
  encode p := c.encode p.1 ++ d.encode p.2
  decode bs := do
    let a ← c.decode bs
    let b ← d.decode (bs.drop c.size)
    pure (a, b)
  length_encode p := by simp [c.length_encode, d.length_encode]
  decode_append p rest := by
    simp [List.append_assoc, c.decode_append, drop_encode, d.decode_append]
  decode_take bs h := by
    obtain ⟨a, ha, htake⟩ := c.decode_take bs (by omega)
    obtain ⟨b, hb, htake'⟩ := d.decode_take (bs.drop c.size) (by simp; omega)
    refine ⟨(a, b), by simp [ha, hb], ?_⟩
    rw [List.take_add, htake, htake']
  decode_short bs h := by
    cases ha : c.decode bs with
    | none => rfl
    | some a =>
      have hle := size_le_of_decode ha
      have hnone := d.decode_short (bs.drop c.size) (by simp; omega)
      simp [hnone]

/-- The bytes of a word of `w` bytes, the least significant first. -/
def littleEndian (w n : ℕ) : List UInt8 := (Nat.digitsAppend 256 w n).map UInt8.ofNat

/-- The number that bytes stand for, the least significant first. -/
def ofLittleEndian (bs : List UInt8) : ℕ := Nat.ofDigits 256 (bs.map UInt8.toNat)

theorem length_littleEndian {w n : ℕ} (h : n < 256 ^ w) : (littleEndian w n).length = w := by
  simp [littleEndian, Nat.length_digitsAppend, h]

theorem ofLittleEndian_lt (bs : List UInt8) : ofLittleEndian bs < 256 ^ bs.length := by
  have h := Nat.ofDigits_lt_base_pow_length (b := 256) (l := bs.map UInt8.toNat) (by omega) (by
    intro x hx
    obtain ⟨b, _, rfl⟩ := List.mem_map.mp hx
    exact b.toNat_lt)
  simpa [ofLittleEndian] using h

theorem ofLittleEndian_littleEndian {w n : ℕ} (h : n < 256 ^ w) :
    ofLittleEndian (littleEndian w n) = n := by
  have hdigits : (Nat.digitsAppend 256 w n).map (UInt8.toNat ∘ UInt8.ofNat) =
      Nat.digitsAppend 256 w n := by
    have hbyte : ∀ x ∈ Nat.digitsAppend 256 w n, (UInt8.toNat ∘ UInt8.ofNat) x = id x := by
      intro x hx
      have hlt := Nat.lt_of_mem_digitsAppend (by omega) w x hx
      simp only [Function.comp_apply, UInt8.toNat_ofNat', id]
      omega
    exact (List.map_congr_left hbyte).trans (List.map_id _)
  rw [ofLittleEndian, littleEndian, List.map_map, hdigits]
  exact (Nat.setInvOn_digitsAppend_ofDigits (by omega) w).2 h

theorem littleEndian_ofLittleEndian (bs : List UInt8) :
    littleEndian bs.length (ofLittleEndian bs) = bs := by
  have hdigits : Nat.digitsAppend 256 bs.length (ofLittleEndian bs) = bs.map UInt8.toNat := by
    apply (Nat.setInvOn_digitsAppend_ofDigits (by omega) bs.length).1
    refine ⟨List.length_map _, ?_⟩
    intro x hx
    obtain ⟨b, _, rfl⟩ := List.mem_map.mp hx
    exact b.toNat_lt
  have hbyte : UInt8.ofNat ∘ UInt8.toNat = id := funext fun b => UInt8.ofNat_toNat
  simp [littleEndian, hdigits, hbyte]

/-- Words of `w` bytes, the least significant first. -/
def word (w : ℕ) : Codec (BitVec (8 * w)) where
  size := w
  encode b := littleEndian w b.toNat
  decode bs := if bs.length < w then none else some (BitVec.ofNat _ (ofLittleEndian (bs.take w)))
  length_encode b := length_littleEndian (by simpa [Nat.pow_mul] using b.isLt)
  decode_append b rest := by
    have hlt : b.toNat < 256 ^ w := by simpa [Nat.pow_mul] using b.isLt
    have hlen := length_littleEndian hlt
    simp [hlen, List.take_left' hlen, ofLittleEndian_littleEndian hlt]
  decode_take bs h := by
    have hlen : (bs.take w).length = w := List.length_take_of_le h
    have hlt := ofLittleEndian_lt (bs.take w)
    rw [hlen] at hlt
    refine ⟨_, if_neg (by omega), ?_⟩
    have hmod : ofLittleEndian (bs.take w) % 2 ^ (8 * w) = ofLittleEndian (bs.take w) :=
      Nat.mod_eq_of_lt (by simpa [Nat.pow_mul] using hlt)
    have hbytes := littleEndian_ofLittleEndian (bs.take w)
    rw [hlen] at hbytes
    rw [BitVec.toNat_ofNat, hmod, hbytes]
  decode_short bs h := if_pos h

/-- The most significant byte first. -/
def reverse (c : Codec α) : Codec α where
  size := c.size
  encode a := (c.encode a).reverse
  decode bs := if bs.length < c.size then none else c.decode (bs.take c.size).reverse
  length_encode a := by simp [c.length_encode]
  decode_append a rest := by
    have hlen : (c.encode a).reverse.length = c.size := by simp [c.length_encode]
    rw [if_neg (by simp [c.length_encode]), List.take_left' hlen, List.reverse_reverse]
    exact decode_encode
  decode_take bs h := by
    have hlen : (bs.take c.size).reverse.length = c.size := by simpa using h
    obtain ⟨a, ha, htake⟩ := c.decode_take (bs.take c.size).reverse hlen.ge
    rw [List.take_of_length_le hlen.le] at htake
    exact ⟨a, (if_neg (by omega)).trans ha, by rw [← htake, List.reverse_reverse]⟩
  decode_short bs h := if_pos h

/-- `u64`. -/
def uint64 : Codec UInt64 :=
  (word 8).iso ⟨UInt64.ofBitVec, UInt64.toBitVec, fun _ => rfl, fun _ => rfl⟩

/-- `i64`, in two's complement. -/
def int64 : Codec Int64 :=
  (word 8).iso ⟨Int64.ofBitVec, Int64.toBitVec, fun _ => rfl, fun _ => rfl⟩

end Codec

end Wire
