import Supdb.Lib.Bytes

/-!
# Base-128 varints

Seven bits a byte, least significant first, the top bit of a byte saying that another follows.

* **`uvarint v`** – the encoding, of any natural number.
* **`readUvarint`** – a 64-bit reader: it takes bytes until one without the top bit and says
  whether it found it (`whole`) or ran out of bytes or of bits first (`short`).

`readUvarint_uvarint` is the round trip, for every value of 64 bits and whatever follows.
-/

namespace StorageLib

/-- The base-128 encoding of `v`. -/
def uvarint (v : ℕ) : Bytes :=
  if v < 128 then [UInt8.ofNat v]
  else UInt8.ofNat (v % 128 + 128) :: uvarint (v / 128)
termination_by v
decreasing_by omega

/-- How a varint read ended: at its last byte, or before it, with the value so far and the
cursor. -/
inductive UvarintRead where
  | whole (v p : ℕ)
  | short (v p : ℕ)
  deriving DecidableEq, Repr

/-- Read a varint from the bytes at the cursor `p`, `v` and `shift` being what the bytes before
gave. -/
def readUvarint : Bytes → ℕ → ℕ → ℕ → UvarintRead
  | [], p, v, _ => .short v p
  | b :: bs, p, v, shift =>
      let v' := (v ||| ((b.toNat &&& 0x7f) <<< shift)) % 2 ^ 64
      if b.toNat < 0x80 then .whole v' (p + 1)
      else if 63 < shift + 7 then .short v' (p + 1)
      else readUvarint bs (p + 1) v' (shift + 7)

lemma uvarint_of_lt {v : ℕ} (h : v < 128) : uvarint v = [UInt8.ofNat v] := by
  rw [uvarint, if_pos h]

lemma uvarint_of_ge {v : ℕ} (h : 128 ≤ v) :
    uvarint v = UInt8.ofNat (v % 128 + 128) :: uvarint (v / 128) := by
  rw [uvarint, if_neg (by omega)]

lemma uvarint_ne_nil (v : ℕ) : uvarint v ≠ [] := by
  by_cases h : v < 128
  · simp [uvarint_of_lt h]
  · simp [uvarint_of_ge (by omega : 128 ≤ v)]

lemma length_uvarint_pos (v : ℕ) : 0 < (uvarint v).length :=
  List.length_pos_iff.mpr (uvarint_ne_nil v)

/-- The bits read so far and the next seven do not meet, so the reader's or is a sum. -/
lemma or_shiftLeft_eq {v x shift : ℕ} (hv : v < 2 ^ shift) :
    v ||| (x <<< shift) = v + x * 2 ^ shift := by
  rw [Nat.shiftLeft_eq, Nat.or_comm, mul_comm x, ← Nat.two_pow_add_eq_or_of_lt hv, add_comm]

lemma and_127 (n : ℕ) : n &&& 0x7f = n % 128 := by
  have : (0x7f : ℕ) = 2 ^ 7 - 1 := by norm_num
  rw [this, Nat.and_two_pow_sub_one_eq_mod]

/-- The reader over the encoding, from any state: `acc` is what was read, `shift` bits of it. -/
lemma readUvarint_uvarint_aux (v acc shift p : ℕ) (rest : Bytes) (hacc : acc < 2 ^ shift)
    (hfit : acc + v * 2 ^ shift < 2 ^ 64) :
    readUvarint (uvarint v ++ rest) p acc shift
      = .whole (acc + v * 2 ^ shift) (p + (uvarint v).length) := by
  induction v using Nat.strong_induction_on generalizing acc shift p with
  | _ v ih =>
      by_cases hv : v < 128
      · have hb : (UInt8.ofNat v).toNat = v := by rw [UInt8.toNat_ofNat']; omega
        rw [uvarint_of_lt hv, List.singleton_append, readUvarint, hb, and_127,
          Nat.mod_eq_of_lt hv, or_shiftLeft_eq hacc, Nat.mod_eq_of_lt hfit, if_pos hv]
        rfl
      · have hge : 128 ≤ v := by omega
        have hb : (UInt8.ofNat (v % 128 + 128)).toNat = v % 128 + 128 := by
          rw [UInt8.toNat_ofNat']; omega
        have hdm : v = v % 128 + 128 * (v / 128) := (Nat.mod_add_div v 128).symm
        have hsum : acc + v * 2 ^ shift
            = (acc + v % 128 * 2 ^ shift) + v / 128 * 2 ^ (shift + 7) := by
          have hpow : 2 ^ (shift + 7) = 2 ^ shift * 128 := by rw [pow_add]; norm_num
          calc acc + v * 2 ^ shift
              = acc + (v % 128 + 128 * (v / 128)) * 2 ^ shift := by rw [← hdm]
            _ = (acc + v % 128 * 2 ^ shift) + v / 128 * 2 ^ (shift + 7) := by rw [hpow]; ring
        have hlow : acc + v % 128 * 2 ^ shift < 2 ^ 64 := by omega
        have hacc' : acc + v % 128 * 2 ^ shift < 2 ^ (shift + 7) := by
          have h127 : v % 128 * 2 ^ shift ≤ 127 * 2 ^ shift :=
            Nat.mul_le_mul_right _ (by omega)
          have hpow : 2 ^ (shift + 7) = 128 * 2 ^ shift := by rw [pow_add]; ring
          omega
        -- the bits above these seven are not all zero, so there is room for them
        have hshift : ¬ 63 < shift + 7 := by
          intro hgt
          have h1 : 1 ≤ v / 128 := by omega
          have h2 : 2 ^ 64 ≤ 2 ^ (shift + 7) := Nat.pow_le_pow_right (by norm_num) (by omega)
          have h3 : 2 ^ (shift + 7) ≤ v / 128 * 2 ^ (shift + 7) := Nat.le_mul_of_pos_left _ h1
          omega
        have hmod : (v % 128 + 128) % 128 = v % 128 := by omega
        rw [uvarint_of_ge hge, List.cons_append, readUvarint, hb, and_127, hmod,
          or_shiftLeft_eq hacc, Nat.mod_eq_of_lt hlow, if_neg (by omega), if_neg hshift,
          ih (v / 128) (by omega) _ _ _ hacc' (by omega), ← hsum, List.length_cons]
        congr 1
        ring

/-- **Varints round-trip.**  A 64-bit value is read back whole, the cursor behind it, whatever
follows. -/
theorem readUvarint_uvarint {v : ℕ} (hv : v < 2 ^ 64) (p : ℕ) (rest : Bytes) :
    readUvarint (uvarint v ++ rest) p 0 0 = .whole v (p + (uvarint v).length) := by
  have := readUvarint_uvarint_aux v 0 0 p rest (by norm_num) (by simpa using hv)
  simpa using this

end StorageLib
