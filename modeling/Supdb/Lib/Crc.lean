import Supdb.Lib.Bytes

/-!
# Reflected CRCs as linear maps

A reflected CRC of width `w` over a polynomial `poly` is a register that is shifted one bit at a
time; a byte is xored into its low end and eight shifts follow.  Everything that makes a CRC useful
to a storage engine is that the shift is linear over exclusive or:

* **`crcState_xor`** – a difference in the start state travels past `data` on its own, as
  `8 * data.length` plain shifts;
* **`crcBits_shiftLeft`** – a value moved up `k` places comes back down by `k` shifts, which is
  why a table of one byte's eight shifts can stand in for the division;
* **`gf2Times_of_linear`** – a linear map is the exclusive or of its values on the powers of two,
  so it can be tabulated as `w` words, and squared (`gf2Square_of_linear`).
-/

namespace StorageLib

variable {w : ℕ}

/-! ## The register -/

/-- One shift of the register. -/
def crcBit (poly c : BitVec w) : BitVec w :=
  if c.getLsbD 0 then poly ^^^ (c >>> 1) else c >>> 1

/-- `n` shifts of the register. -/
def crcBits (poly : BitVec w) (n : ℕ) : BitVec w → BitVec w := (crcBit poly)^[n]

/-- One byte into the register, a bit at a time. -/
def crcByte (poly c : BitVec w) (b : UInt8) : BitVec w :=
  crcBits poly 8 (c ^^^ b.toBitVec.setWidth w)

/-- A byte string into the register. -/
def crcState (poly : BitVec w) (c : BitVec w) (data : Bytes) : BitVec w :=
  data.foldl (crcByte poly) c

lemma xor_xor_xor_comm (a b c d : BitVec w) :
    (a ^^^ b) ^^^ (c ^^^ d) = (a ^^^ c) ^^^ (b ^^^ d) := by
  ac_rfl

lemma crcBit_xor (poly a b : BitVec w) :
    crcBit poly (a ^^^ b) = crcBit poly a ^^^ crcBit poly b := by
  have hp : (poly ^^^ (a >>> 1)) ^^^ (poly ^^^ (b >>> 1)) = (a >>> 1) ^^^ (b >>> 1) := by
    rw [xor_xor_xor_comm, BitVec.xor_self, BitVec.zero_xor]
  unfold crcBit
  rw [BitVec.getLsbD_xor, BitVec.ushiftRight_xor_distrib]
  cases a.getLsbD 0 <;> cases b.getLsbD 0
  · simp
  · simp only [Bool.false_xor, if_true, Bool.false_eq_true, if_false]; ac_rfl
  · simp only [Bool.xor_false, if_true, Bool.false_eq_true, if_false]; ac_rfl
  · simp [hp]

lemma crcBits_succ (poly c : BitVec w) (n : ℕ) :
    crcBits poly (n + 1) c = crcBits poly n (crcBit poly c) := rfl

lemma crcBits_add (poly c : BitVec w) (m n : ℕ) :
    crcBits poly (m + n) c = crcBits poly m (crcBits poly n c) :=
  Function.iterate_add_apply _ m n c

lemma crcBits_xor (poly : BitVec w) (n : ℕ) (a b : BitVec w) :
    crcBits poly n (a ^^^ b) = crcBits poly n a ^^^ crcBits poly n b := by
  induction n generalizing a b with
  | zero => rfl
  | succ n ih => rw [crcBits_succ, crcBits_succ, crcBits_succ, crcBit_xor, ih]

lemma crcState_append (poly c : BitVec w) (a b : Bytes) :
    crcState poly c (a ++ b) = crcState poly (crcState poly c a) b :=
  List.foldl_append

/-- **A difference in the start state travels on its own.**  What is xored into the register
before `data` comes out of it shifted by `data`'s bits and otherwise untouched. -/
theorem crcState_xor (poly : BitVec w) (data : Bytes) (a b : BitVec w) :
    crcState poly (a ^^^ b) data
      = crcBits poly (8 * data.length) a ^^^ crcState poly b data := by
  induction data generalizing a b with
  | nil => rfl
  | cons d data ih =>
      have hstep : crcByte poly (a ^^^ b) d = crcBits poly 8 a ^^^ crcByte poly b d := by
        rw [crcByte, BitVec.xor_assoc, crcBits_xor]; rfl
      have hlen : 8 * (d :: data).length = 8 * data.length + 8 := by
        rw [List.length_cons]; ring
      have hcons : ∀ c, crcState poly c (d :: data) = crcState poly (crcByte poly c d) data :=
        fun _ => rfl
      rw [hcons, hcons, hstep, ih, hlen, crcBits_add]

/-! ## Shifting back down -/

lemma crcBit_shiftLeft_one (poly x : BitVec w) (h : x.toNat * 2 < 2 ^ w) :
    crcBit poly (x <<< 1) = x := by
  have hlow : (x <<< 1).getLsbD 0 = false := by simp
  rw [crcBit, hlow]
  simp only [Bool.false_eq_true, if_false]
  apply BitVec.eq_of_toNat_eq
  rw [BitVec.toNat_ushiftRight, BitVec.toNat_shiftLeft, Nat.shiftLeft_eq, Nat.shiftRight_eq_div_pow,
    Nat.mod_eq_of_lt (by simpa using h)]
  simp

/-- **A value moved up `k` places comes back down by `k` shifts**, as long as none of it was
pushed out at the top. -/
lemma crcBits_shiftLeft (poly x : BitVec w) (k : ℕ) (h : x.toNat * 2 ^ k < 2 ^ w) :
    crcBits poly k (x <<< k) = x := by
  induction k with
  | zero => simp [crcBits]
  | succ k ih =>
      have hk : x.toNat * 2 ^ k < 2 ^ w := by
        rw [pow_succ, ← mul_assoc] at h; omega
      have htop : (x <<< k).toNat * 2 < 2 ^ w := by
        rw [BitVec.toNat_shiftLeft, Nat.shiftLeft_eq, Nat.mod_eq_of_lt hk, mul_assoc, ← pow_succ]
        exact h
      rw [crcBits_succ, BitVec.shiftLeft_add, crcBit_shiftLeft_one poly _ htop, ih hk]

/-! ## Linear maps as tables -/

/-- The exclusive or of the table's words at the set bits of `vec`, the table read from `i` on. -/
def gf2TimesFrom (mat : ℕ → BitVec w) (sum : BitVec w) (vec : BitVec w) (i : ℕ) : BitVec w :=
  if h : vec = 0 then sum
  else gf2TimesFrom mat (if vec.getLsbD 0 then sum ^^^ mat i else sum) (vec >>> 1) (i + 1)
termination_by vec.toNat
decreasing_by
  have hpos : vec.toNat ≠ 0 := fun h0 => h (BitVec.eq_of_toNat_eq (by simpa using h0))
  rw [BitVec.toNat_ushiftRight, Nat.shiftRight_eq_div_pow]
  omega

/-- Splitting off the lowest bit of a value that stands `i` places up. -/
lemma shiftLeft_split (vec : BitVec w) (i : ℕ) :
    vec <<< i = (if vec.getLsbD 0 then BitVec.twoPow w i else 0#w) ^^^
    ((vec >>> 1) <<< (i + 1)) := by
  apply BitVec.eq_of_getLsbD_eq
  intro j hj
  by_cases hv : vec.getLsbD 0
  · rw [if_pos hv, BitVec.getLsbD_xor, BitVec.getLsbD_twoPow, BitVec.getLsbD_shiftLeft,
      BitVec.getLsbD_shiftLeft, BitVec.getLsbD_ushiftRight]
    rcases lt_trichotomy j i with h | h | h
    · simp [hj, h, show j < i + 1 by omega, show i ≠ j by omega]
    · subst h; simp [hj, hv]
    · have hk : 1 + (j - (i + 1)) = j - i := by omega
      simp [hj, hk, show ¬ j < i by omega, show ¬ j < i + 1 by omega, show i ≠ j by omega]
  · rw [if_neg hv, BitVec.zero_xor, BitVec.getLsbD_shiftLeft, BitVec.getLsbD_shiftLeft,
      BitVec.getLsbD_ushiftRight]
    rcases lt_trichotomy j i with h | h | h
    · simp [h, show j < i + 1 by omega]
    · subst h; simp [hv]
    · have hk : 1 + (j - (i + 1)) = j - i := by omega
      simp [hj, hk, show ¬ j < i by omega, show ¬ j < i + 1 by omega]

/-- **A linear map is its table.**  With `mat` holding `f` of every power of two, the loop over the
set bits computes `f`. -/
theorem gf2TimesFrom_of_linear (f : BitVec w → BitVec w) (mat : ℕ → BitVec w)
    (hlin : ∀ a b, f (a ^^^ b) = f a ^^^ f b) (hmat : ∀ i < w, mat i = f (BitVec.twoPow w i))
    (sum vec : BitVec w) (i : ℕ) (hfit : vec.toNat * 2 ^ i < 2 ^ w) :
    gf2TimesFrom mat sum vec i = sum ^^^ f (vec <<< i) := by
  have hzero : f 0#w = 0#w := by
    have := hlin 0#w 0#w
    rw [BitVec.xor_self] at this
    simpa using this
  fun_induction gf2TimesFrom mat sum vec i with
  | case1 sum i => simp [hzero]
  | case2 sum vec i h ih =>
      have hvec : vec.toNat ≠ 0 := fun h0 => h (BitVec.eq_of_toNat_eq (by simpa using h0))
      have hi : i < w := by
        by_contra hge
        have : 2 ^ w ≤ 2 ^ i := Nat.pow_le_pow_right (by norm_num) (by omega)
        have : 2 ^ i ≤ vec.toNat * 2 ^ i := Nat.le_mul_of_pos_left _ (by omega)
        omega
      have hfit' : (vec >>> 1).toNat * 2 ^ (i + 1) < 2 ^ w := by
        rw [BitVec.toNat_ushiftRight, Nat.shiftRight_eq_div_pow, pow_one, pow_succ]
        calc vec.toNat / 2 * (2 ^ i * 2) = (vec.toNat / 2 * 2) * 2 ^ i := by ring
          _ ≤ vec.toNat * 2 ^ i := Nat.mul_le_mul_right _ (Nat.div_mul_le_self _ _)
          _ < 2 ^ w := hfit
      simp only [dite_eq_ite] at ih
      rw [ih hfit', shiftLeft_split vec i, hlin]
      by_cases hv : vec.getLsbD 0
      · rw [if_pos hv, if_pos hv, hmat i hi]; ac_rfl
      · rw [if_neg hv, if_neg hv, hzero, BitVec.zero_xor]

/-- The product of a table and a vector. -/
def gf2Times (mat : ℕ → BitVec w) (vec : BitVec w) : BitVec w := gf2TimesFrom mat 0 vec 0

/-- The table of a map applied twice. -/
def gf2Square (mat : ℕ → BitVec w) (n : ℕ) : BitVec w := gf2Times mat (mat n)

theorem gf2Times_of_linear {f : BitVec w → BitVec w} {mat : ℕ → BitVec w}
    (hlin : ∀ a b, f (a ^^^ b) = f a ^^^ f b) (hmat : ∀ i < w, mat i = f (BitVec.twoPow w i))
    (vec : BitVec w) : gf2Times mat vec = f vec := by
  have := gf2TimesFrom_of_linear f mat hlin hmat 0 vec 0 (by simpa using vec.isLt)
  simpa [gf2Times] using this

theorem gf2Square_of_linear {f : BitVec w → BitVec w} {mat : ℕ → BitVec w}
    (hlin : ∀ a b, f (a ^^^ b) = f a ^^^ f b) (hmat : ∀ i < w, mat i = f (BitVec.twoPow w i)) :
    ∀ i < w, gf2Square mat i = f (f (BitVec.twoPow w i)) := by
  intro i hi
  rw [gf2Square, gf2Times_of_linear hlin hmat, hmat i hi]

end StorageLib
