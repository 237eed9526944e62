import Mathlib.Tactic

/-!
# Byte strings, slices and little-endian words

The vocabulary every on-disk format here is written in.  A byte string is a `List UInt8`; a
half-open window of it is a `slice`; a fixed-width word is its little-endian bytes.

* **`leBytes n v`** – the `n` low bytes of `v`, least significant first.
* **`leNat bs`** – the number those bytes spell; `leNat_leBytes` is the round trip.
* **`slice l a b`** – the elements at positions `a ≤ i < b`, short when the list is.
* **`addWord a b`** and its kin – the arithmetic of 64-bit words, which wraps.

A decoder works on a whole buffer and a cursor, an encoder only ever appends.  The two meet in
the `slice_append…` lemmas: a buffer that is `pre ++ x ++ post` has `x` at `pre.length`, and cutting
the buffer behind `x` does not change that.
-/

namespace StorageLib

/-- Byte strings. -/
abbrev Bytes := List UInt8

/-- Bytes are ordered by value, and byte strings, by way of it, lexicographically. -/
instance instLinearOrderUInt8 : LinearOrder UInt8 where
  le_refl := UInt8.le_refl
  le_trans _ _ _ := UInt8.le_trans
  le_antisymm _ _ := UInt8.le_antisymm
  le_total := UInt8.le_total
  lt_iff_le_not_ge _ _ :=
    ⟨fun h => ⟨UInt8.le_of_lt h, UInt8.not_le.mpr h⟩, fun h => UInt8.not_le.mp h.2⟩
  toDecidableLE := inferInstance
  toDecidableEq := inferInstance
  toDecidableLT := inferInstance

/-! ## Little-endian words -/

/-- The `n` low bytes of `v`, least significant first. -/
def leBytes : ℕ → ℕ → Bytes
  | 0, _ => []
  | n + 1, v => UInt8.ofNat v :: leBytes n (v / 256)

/-- The number a little-endian byte string spells. -/
def leNat : Bytes → ℕ
  | [] => 0
  | b :: bs => b.toNat + 256 * leNat bs

@[simp] lemma length_leBytes (n v : ℕ) : (leBytes n v).length = n := by
  induction n generalizing v with
  | zero => rfl
  | succ n ih => simp [leBytes, ih]

lemma leNat_leBytes_mod (n v : ℕ) : leNat (leBytes n v) = v % 256 ^ n := by
  induction n generalizing v with
  | zero => simp [leBytes, leNat, Nat.mod_one]
  | succ n ih =>
      rw [leBytes, leNat, ih, UInt8.toNat_ofNat']
      rw [pow_succ' 256 n, Nat.mod_mul]

/-- **Words round-trip.**  A value that fits its width is read back as it was written. -/
lemma leNat_leBytes {n v : ℕ} (h : v < 256 ^ n) : leNat (leBytes n v) = v := by
  rw [leNat_leBytes_mod, Nat.mod_eq_of_lt h]

lemma leNat_lt (bs : Bytes) : leNat bs < 256 ^ bs.length := by
  induction bs with
  | nil => simp [leNat]
  | cons b bs ih =>
      have hb : b.toNat < 256 := b.toNat_lt
      rw [leNat, List.length_cons, pow_succ]
      omega

lemma leNat_replicate_zero (n : ℕ) : leNat (List.replicate n 0) = 0 := by
  induction n with
  | zero => rfl
  | succ n ih => simp [List.replicate_succ, leNat, ih]

/-- The bytes of a word determine it, so a word is written back as it was read. -/
lemma leBytes_leNat (bs : Bytes) : leBytes bs.length (leNat bs) = bs := by
  induction bs with
  | nil => rfl
  | cons b bs ih =>
      have hb : b.toNat < 256 := b.toNat_lt
      have hdiv : (b.toNat + 256 * leNat bs) / 256 = leNat bs := by omega
      have hlow : UInt8.ofNat (b.toNat + 256 * leNat bs) = b := by
        apply UInt8.toNat_inj.mp
        rw [UInt8.toNat_ofNat']
        omega
      rw [List.length_cons, leNat, leBytes, hdiv, ih, hlow]

/-- Only the low bytes of a number are written. -/
lemma leBytes_mod (n v : ℕ) : leBytes n (v % 256 ^ n) = leBytes n v := by
  have h := leBytes_leNat (leBytes n v)
  rwa [length_leBytes, leNat_leBytes_mod] at h

/-! ## Slices -/

variable {α : Type*}

/-- The elements of `l` at positions `a ≤ i < b`. -/
def slice (l : List α) (a b : ℕ) : List α := (l.take b).drop a

lemma slice_eq_take_drop (l : List α) (a b : ℕ) : slice l a b = (l.drop a).take (b - a) := by
  rw [slice, List.drop_take]

lemma length_slice (l : List α) (a b : ℕ) : (slice l a b).length = min b l.length - a := by
  simp [slice]

lemma length_slice_of_le {l : List α} {a b : ℕ} (h : b ≤ l.length) :
    (slice l a b).length = b - a := by
  rw [length_slice, min_eq_left h]

@[simp] lemma slice_self (l : List α) (a : ℕ) : slice l a a = [] := by
  simp [slice]

@[simp] lemma slice_zero_length (l : List α) : slice l 0 l.length = l := by
  simp [slice]

/-- A slice of a slice. -/
lemma slice_slice (l : List α) (a b c d : ℕ) (h : a + d ≤ b) :
    slice (slice l a b) c d = slice l (a + c) (a + d) := by
  simp only [slice]
  rw [List.take_drop, List.drop_drop, List.take_take, min_eq_left h]

/-- What was appended behind `pre` is found at `pre.length`, whatever follows it. -/
lemma slice_append_right (pre x post : List α) :
    slice (pre ++ (x ++ post)) pre.length (pre.length + x.length) = x := by
  rw [slice_eq_take_drop]
  simp

/-- The same with the window given by offset and length. -/
lemma slice_append_mid {pre x post : List α} {a b : ℕ} (ha : a = pre.length)
    (hb : b = pre.length + x.length) : slice (pre ++ (x ++ post)) a b = x := by
  subst ha hb
  exact slice_append_right pre x post

/-- A window that ends inside the first part does not see the second. -/
lemma slice_append_left {l r : List α} {a b : ℕ} (h : b ≤ l.length) :
    slice (l ++ r) a b = slice l a b := by
  rw [slice, slice, List.take_append_of_le_length h]

lemma getElem?_slice {l : List α} {a b i : ℕ} (h : a + i < b) : (slice l a b)[i]? = l[a + i]? := by
  rw [slice, List.getElem?_drop, List.getElem?_take, if_pos h]

/-- A window behind the first part reads the second, shifted. -/
lemma slice_append_shift (l r : List α) (a b : ℕ) :
    slice (l ++ r) (l.length + a) (l.length + b) = slice r a b := by
  rw [slice_eq_take_drop, slice_eq_take_drop, ← List.drop_drop, List.drop_left]
  congr 1
  omega

/-- A window that starts behind the first part, with the bounds as they are. -/
lemma slice_append_of_le {l r : List α} {a b : ℕ} (ha : l.length ≤ a) (hb : l.length ≤ b) :
    slice (l ++ r) a b = slice r (a - l.length) (b - l.length) := by
  have := slice_append_shift l r (a - l.length) (b - l.length)
  rwa [Nat.add_sub_cancel' ha, Nat.add_sub_cancel' hb] at this

/-- Two windows that share an end join. -/
lemma slice_append_slice (l : List α) {a b c : ℕ} (hab : a ≤ b) (hbc : b ≤ c) :
    slice l a b ++ slice l b c = slice l a c := by
  rw [slice_eq_take_drop, slice_eq_take_drop, slice_eq_take_drop]
  have hd : l.drop b = (l.drop a).drop (b - a) := by
    rw [List.drop_drop]; congr 1; omega
  have hc : c - a = (b - a) + (c - b) := by omega
  rw [hd, hc, List.take_add]

lemma slice_take {l : List α} {a b n : ℕ} (h : b ≤ n) : slice (l.take n) a b = slice l a b := by
  rw [slice, slice, List.take_take, min_eq_left h]

lemma slice_replicate (v : α) (n a b : ℕ) (h : b ≤ n) :
    slice (List.replicate n v) a b = List.replicate (b - a) v := by
  simp [slice, h]

/-! ## Words in a buffer -/

/-- The little-endian `u32` at `p`. -/
def u32At (buf : Bytes) (p : ℕ) : ℕ := leNat (slice buf p (p + 4))

/-- The little-endian `u64` at `p`. -/
def u64At (buf : Bytes) (p : ℕ) : ℕ := leNat (slice buf p (p + 8))

lemma u32At_lt (buf : Bytes) (p : ℕ) : u32At buf p < 2 ^ 32 := by
  have hlen : (slice buf p (p + 4)).length ≤ 4 := by
    rw [length_slice]; omega
  calc u32At buf p < 256 ^ (slice buf p (p + 4)).length := leNat_lt _
    _ ≤ 256 ^ 4 := Nat.pow_le_pow_right (by norm_num) hlen
    _ = 2 ^ 32 := by norm_num

/-- A `u32` written behind `pre` is read back at `pre.length`. -/
lemma u32At_append {pre post : Bytes} {v p : ℕ} (hp : p = pre.length) (hv : v < 2 ^ 32) :
    u32At (pre ++ (leBytes 4 v ++ post)) p = v := by
  rw [u32At, slice_append_mid hp (by simp [hp])]
  exact leNat_leBytes (by omega)

/-- A `u64` written behind `pre` is read back at `pre.length`. -/
lemma u64At_append {pre post : Bytes} {v p : ℕ} (hp : p = pre.length) (hv : v < 2 ^ 64) :
    u64At (pre ++ (leBytes 8 v ++ post)) p = v := by
  rw [u64At, slice_append_mid hp (by simp [hp])]
  exact leNat_leBytes (by omega)

/-! ## Checked reads -/

/-- The window `a..b`, if the list has it. -/
def getRange (l : List α) (a b : ℕ) : Option (List α) :=
  if a ≤ b ∧ b ≤ l.length then some (slice l a b) else none

/-- The little-endian word of `n` bytes at `p`, if the buffer has it. -/
def readWord (n : ℕ) (buf : Bytes) (p : ℕ) : Option ℕ :=
  (getRange buf p (p + n)).map leNat

lemma getRange_eq_some {l x : List α} {a b : ℕ} :
    getRange l a b = some x ↔ a ≤ b ∧ b ≤ l.length ∧ slice l a b = x := by
  rw [getRange]
  by_cases h : a ≤ b ∧ b ≤ l.length
  · simp [h]
  · rw [if_neg h]
    constructor
    · intro hc; exact absurd hc (by simp)
    · rintro ⟨h1, h2, -⟩; exact absurd ⟨h1, h2⟩ h

/-- A window that is there stays there when the list grows. -/
lemma getRange_append {l r x : List α} {a b : ℕ} (h : getRange l a b = some x) :
    getRange (l ++ r) a b = some x := by
  obtain ⟨h1, h2, h3⟩ := getRange_eq_some.mp h
  refine getRange_eq_some.mpr ⟨h1, ?_, ?_⟩
  · rw [List.length_append]; omega
  · rw [slice_append_left h2]; exact h3

/-- What was appended behind `pre` is there. -/
lemma getRange_append_mid {pre x post : List α} {a b : ℕ} (ha : a = pre.length)
    (hb : b = pre.length + x.length) : getRange (pre ++ (x ++ post)) a b = some x := by
  refine getRange_eq_some.mpr ⟨by omega, ?_, slice_append_mid ha hb⟩
  simp only [List.length_append]
  omega

/-- A window that is two pieces holds each where it lies. -/
lemma getRange_split {l x y : List α} {a b : ℕ} (h : getRange l a b = some (x ++ y)) :
    getRange l a (a + x.length) = some x ∧ getRange l (a + x.length) b = some y := by
  obtain ⟨h1, h2, h3⟩ := getRange_eq_some.mp h
  have hb : b = a + x.length + y.length := by
    have := congrArg List.length h3
    rw [length_slice_of_le h2, List.length_append] at this
    omega
  have hx : slice (x ++ y) 0 x.length = x := by simp [slice]
  have hy : slice (x ++ y) x.length (x.length + y.length) = y := by
    rw [slice, List.take_of_length_le (by rw [List.length_append]), List.drop_left]
  rw [← h3, slice_slice _ _ _ _ _ (by omega)] at hx hy
  refine ⟨getRange_eq_some.mpr ⟨by omega, by omega, hx⟩,
    getRange_eq_some.mpr ⟨by omega, h2, ?_⟩⟩
  rw [hb, add_assoc]
  exact hy

/-- A range behind the first part reads the second, shifted. -/
lemma getRange_append_right (pre l : List α) (a b : ℕ) :
    getRange (pre ++ l) (pre.length + a) (pre.length + b) = getRange l a b := by
  rw [getRange, getRange, slice_append_shift, List.length_append]
  by_cases h : a ≤ b ∧ b ≤ l.length
  · rw [if_pos h, if_pos (by omega)]
  · rw [if_neg h, if_neg (by omega)]

/-- A range of a range. -/
lemma getRange_getRange {l x y : List α} {a b c d : ℕ} (hx : getRange l a b = some x)
    (hy : getRange x c d = some y) : getRange l (a + c) (a + d) = some y := by
  obtain ⟨h1, h2, rfl⟩ := getRange_eq_some.mp hx
  obtain ⟨h3, h4, rfl⟩ := getRange_eq_some.mp hy
  rw [length_slice_of_le h2] at h4
  exact getRange_eq_some.mpr ⟨by omega, by omega, (slice_slice l a b c d (by omega)).symm⟩

/-- A word is read exactly where the buffer has all of it. -/
lemma readWord_of_le {n p : ℕ} {buf : Bytes} (h : p + n ≤ buf.length) :
    readWord n buf p = some (leNat (slice buf p (p + n))) := by
  rw [readWord, getRange, if_pos ⟨by omega, h⟩, Option.map_some]

lemma readWord_of_gt {n p : ℕ} {buf : Bytes} (h : buf.length < p + n) :
    readWord n buf p = none := by
  rw [readWord, getRange, if_neg (by omega), Option.map_none]

lemma le_of_readWord {n p v : ℕ} {buf : Bytes} (h : readWord n buf p = some v) :
    p + n ≤ buf.length := by
  by_contra hlt
  rw [readWord_of_gt (by omega)] at h
  exact absurd h (by simp)

lemma leNat_lt_of_length {bs : Bytes} {n : ℕ} (h : bs.length ≤ n) : leNat bs < 256 ^ n :=
  lt_of_lt_of_le (leNat_lt bs) (Nat.pow_le_pow_right (by norm_num) h)

lemma leNat_slice_lt (b : Bytes) {i j n : ℕ} (h : j ≤ i + n) : leNat (slice b i j) < 256 ^ n :=
  leNat_lt_of_length (by rw [length_slice]; omega)

lemma readWord_lt {n p v : ℕ} {buf : Bytes} (h : readWord n buf p = some v) : v < 256 ^ n := by
  rw [readWord_of_le (le_of_readWord h), Option.some_inj] at h
  rw [← h]
  exact leNat_slice_lt buf le_rfl

lemma readWord_append {n : ℕ} {buf x : Bytes} {p v : ℕ} (h : readWord n buf p = some v) :
    readWord n (buf ++ x) p = some v := by
  rw [readWord, Option.map_eq_some_iff] at h ⊢
  obtain ⟨y, hy, rfl⟩ := h
  exact ⟨y, getRange_append hy, rfl⟩

/-- A word written behind `pre` is read back at `pre.length`. -/
lemma readWord_append_mid {n v p : ℕ} {pre post : Bytes} (hp : p = pre.length)
    (hv : v < 256 ^ n) : readWord n (pre ++ (leBytes n v ++ post)) p = some v := by
  rw [readWord, getRange_append_mid hp (by simp [hp]), Option.map_some, leNat_leBytes hv]

/-! ## Alignment -/

/-- The first multiple of `a` at or above `n`. -/
def alignUp (n a : ℕ) : ℕ := (n + a - 1) / a * a

/-- The zeros that bring `n` bytes up to a multiple of `a`. -/
def padding (n a : ℕ) : Bytes := List.replicate (alignUp n a - n) 0

lemma le_alignUp (n : ℕ) {a : ℕ} (h : 0 < a) : n ≤ alignUp n a := by
  have hdm := Nat.div_add_mod (n + a - 1) a
  have hlt := Nat.mod_lt (n + a - 1) h
  rw [alignUp, mul_comm]
  omega

lemma alignUp_lt (n : ℕ) {a : ℕ} (h : 0 < a) : alignUp n a < n + a := by
  have hdm := Nat.div_add_mod (n + a - 1) a
  rw [alignUp, mul_comm]
  omega

lemma alignUp_mono {n m : ℕ} (h : n ≤ m) (a : ℕ) : alignUp n a ≤ alignUp m a :=
  Nat.mul_le_mul_right a (Nat.div_le_div_right (by omega))

lemma dvd_alignUp (n a : ℕ) : a ∣ alignUp n a := ⟨_, mul_comm _ _⟩

lemma alignUp_of_dvd {n a : ℕ} (h : 0 < a) (hd : a ∣ n) : alignUp n a = n := by
  obtain ⟨k, rfl⟩ := hd
  have hk : (a * k + a - 1) / a = k := by
    have : a * k + a - 1 = a * k + (a - 1) := by omega
    rw [this, Nat.mul_add_div h, Nat.div_eq_of_lt (by omega), add_zero]
  rw [alignUp, hk, mul_comm]

lemma alignUp_add {n m a : ℕ} (h : 0 < a) (hd : a ∣ m) : alignUp (m + n) a = m + alignUp n a := by
  obtain ⟨k, rfl⟩ := hd
  have hk : (a * k + n + a - 1) / a = k + (n + a - 1) / a := by
    have : a * k + n + a - 1 = a * k + (n + a - 1) := by omega
    rw [this, Nat.mul_add_div h]
  rw [alignUp, alignUp, hk]
  ring

lemma length_padding (n : ℕ) {a : ℕ} (h : 0 < a) : n + (padding n a).length = alignUp n a := by
  have := le_alignUp n h
  rw [padding, List.length_replicate]
  omega

/-! ## Writing in place -/

/-- `data` written at `off` of a file, which grows with zeros where it is shorter. -/
def writeAt (file : Bytes) (off : ℕ) (data : Bytes) : Bytes :=
  (file.take off ++ List.replicate (off - file.length) 0) ++ (data ++ file.drop (off + data.length))

/-- Within a file, the bytes behind the data stay. -/
lemma writeAt_of_le {file data : Bytes} {off : ℕ} (h : off + data.length ≤ file.length) :
    writeAt file off data = file.take off ++ (data ++ file.drop (off + data.length)) := by
  have hz : off - file.length = 0 := by omega
  rw [writeAt, hz, List.replicate_zero, List.append_nil]

lemma length_writeAt_of_le {file data : Bytes} {off : ℕ} (h : off + data.length ≤ file.length) :
    (writeAt file off data).length = file.length := by
  rw [writeAt_of_le h, List.length_append, List.length_append, List.length_take, List.length_drop]
  omega

/-- What was written reads back. -/
lemma slice_writeAt {file data : Bytes} {off : ℕ} (h : off + data.length ≤ file.length) :
    slice (writeAt file off data) off (off + data.length) = data := by
  rw [writeAt_of_le h]
  have hoff : off = (file.take off).length := by
    rw [List.length_take]
    omega
  exact slice_append_mid hoff (by rw [← hoff])

/-- What lies before it reads as it did. -/
lemma slice_writeAt_before {file data : Bytes} {off a b : ℕ} (h : off + data.length ≤ file.length)
    (hb : b ≤ off) : slice (writeAt file off data) a b = slice file a b := by
  have hlen : b ≤ (file.take off).length := by
    rw [List.length_take]
    omega
  rw [writeAt_of_le h, slice_append_left hlen, slice_take hb]

/-- A part of a file written over with as many bytes. -/
lemma writeAt_append_mid {pre old new post : Bytes} {off : ℕ} (hoff : off = pre.length)
    (hlen : new.length = old.length) :
    writeAt (pre ++ (old ++ post)) off new = pre ++ (new ++ post) := by
  have hz : off - (pre ++ (old ++ post)).length = 0 := by
    rw [List.length_append]
    omega
  have hdrop : (pre ++ (old ++ post)).drop (off + new.length) = post := by
    rw [hoff, hlen, ← List.drop_drop, List.drop_left, List.drop_left]
  rw [writeAt, hz, hdrop, hoff, List.take_left]
  simp

/-- A write straight behind another is one write. -/
lemma writeAt_writeAt (file : Bytes) (off : ℕ) {x y : Bytes}
    (h : off + x.length + y.length ≤ file.length) :
    writeAt (writeAt file off x) (off + x.length) y = writeAt file off (x ++ y) := by
  have h1 : writeAt file off x = file.take off ++ (x ++ file.drop (off + x.length)) :=
    writeAt_of_le (by omega)
  have h2 : writeAt file off (x ++ y)
    = file.take off ++ (x ++ y ++ file.drop (off + (x ++ y).length)) :=
    writeAt_of_le (by rw [List.length_append]; omega)
  have hoff : (file.take off).length = off := by rw [List.length_take]; omega
  rw [h2, h1, ← List.append_assoc]
  have hsplit : file.drop (off + x.length) = slice file (off + x.length) (off + x.length + y.length)
      ++ file.drop (off + x.length + y.length) := by
    rw [slice_eq_take_drop, Nat.add_sub_cancel_left, ← List.drop_drop (j := off + x.length),
      List.take_append_drop]
  rw [hsplit, writeAt_append_mid (by rw [List.length_append, hoff])
    (by rw [length_slice_of_le h]; omega),
    List.length_append, Nat.add_assoc, List.append_assoc, List.append_assoc]

/-- A write over the first of a run of zeros. -/
lemma writeAt_zeros (pre : Bytes) (n : ℕ) (post : Bytes) {file x : Bytes} {off : ℕ}
    (hfile : file = pre ++ (List.replicate n 0 ++ post)) (hoff : off = pre.length)
    (hx : x.length ≤ n) :
    writeAt file off x = pre ++ (x ++ (List.replicate (n - x.length) 0 ++ post)) := by
  have hn : List.replicate n (0 : UInt8) = List.replicate x.length 0 ++
    List.replicate (n - x.length) 0 := by
    rw [List.replicate_append_replicate]
    congr 1
    omega
  rw [hfile, hn, List.append_assoc]
  exact writeAt_append_mid hoff (by rw [List.length_replicate])

/-! ## What lies at an offset -/

/-- The file has these bytes at `off`. -/
def HasAt (file : Bytes) (off : ℕ) (x : Bytes) : Prop := slice file off (off + x.length) = x

lemma hasAt_nil (file : Bytes) (off : ℕ) : HasAt file off [] := by
  rw [HasAt, slice_eq_take_drop, List.length_nil, Nat.add_zero, Nat.sub_self, List.take_zero]

lemma hasAt_append {file x y : Bytes} {off : ℕ} :
    HasAt file off (x ++ y) ↔ HasAt file off x ∧ HasAt file (off + x.length) y := by
  simp only [HasAt, slice_eq_take_drop, List.length_append, Nat.add_sub_cancel_left]
  rw [List.take_add, ← List.drop_drop]
  constructor
  · intro h
    have hx := congrArg (List.take x.length) h
    rw [List.take_left, ← List.take_add, List.take_take, Nat.min_eq_left (by omega)] at hx
    exact ⟨hx, by rwa [hx, List.append_cancel_left_eq] at h⟩
  · rintro ⟨hx, hy⟩
    rw [hx, hy]

lemma HasAt.le {file x : Bytes} {off : ℕ} (h : HasAt file off x) (hx : x ≠ []) :
    off + x.length ≤ file.length := by
  have hl := congrArg List.length h
  have := List.length_pos_iff.mpr hx
  rw [length_slice] at hl
  omega

/-- What lies between two places. -/
lemma hasAt_slice {file : Bytes} {a b : ℕ} (hab : a ≤ b) (hb : b ≤ file.length) :
    HasAt file a (slice file a b) := by
  rw [HasAt, length_slice_of_le hb, Nat.add_sub_cancel' hab]

lemma hasAt_start (x post : Bytes) : HasAt (x ++ post) 0 x := by
  rw [HasAt, Nat.zero_add, slice_append_left le_rfl, slice, List.take_length, List.drop_zero]

/-- A file's whole rest lies where it begins. -/
lemma drop_eq_iff_hasAt {file x : Bytes} {off : ℕ} (hlen : file.length = off + x.length) :
    file.drop off = x ↔ HasAt file off x := by
  rw [HasAt, slice_eq_take_drop, Nat.add_sub_cancel_left,
    List.take_of_length_le (by rw [List.length_drop]; omega)]

/-- A word of a file is its bytes there. -/
lemma hasAt_leBytes {file : Bytes} {off n w : ℕ} (hlen : off + n ≤ file.length) (hw : w < 256 ^ n) :
    HasAt file off (leBytes n w) ↔ leNat (slice file off (off + n)) = w := by
  rw [HasAt, length_leBytes]
  constructor
  · intro h
    rw [h, leNat_leBytes hw]
  · rintro rfl
    have h := leBytes_leNat (slice file off (off + n))
    rw [length_slice_of_le hlen, Nat.add_sub_cancel_left] at h
    exact h.symm

/-- Zeros at an offset, as a scan for another byte finds them. -/
lemma hasAt_zeros {file : Bytes} {a b : ℕ} (hab : a ≤ b) (hb : b ≤ file.length) :
    HasAt file a (List.replicate (b - a) 0) ↔ (slice file a b).any (· ≠ 0) = false := by
  rw [HasAt, List.length_replicate, Nat.add_sub_cancel' hab, List.eq_replicate_iff,
    length_slice_of_le hb, List.any_eq_false]
  simp

lemma hasAt_byte {file : Bytes} {off : ℕ} {b : UInt8} : HasAt file off [b] ↔
    file[off]? = some b := by
  rw [HasAt, slice_eq_take_drop, List.length_singleton, Nat.add_sub_cancel_left, List.take_one,
    List.head?_drop]
  cases file[off]? with
  | none => simp
  | some x => simp

/-- What was written lies where it was written. -/
lemma hasAt_writeAt {file data : Bytes} {off : ℕ} (h : off + data.length ≤ file.length) :
    HasAt (writeAt file off data) off data := slice_writeAt h

/-- What lies apart from a write is still there. -/
lemma HasAt.writeAt {file data x : Bytes} {off pos : ℕ} (hat : HasAt file pos x)
    (h : off + data.length ≤ file.length) (hoff : pos + x.length ≤ off ∨ off + data.length ≤ pos) :
    HasAt (writeAt file off data) pos x := by
  rcases hoff with hb | ha
  · rw [HasAt, slice_writeAt_before h hb]
    exact hat
  · rw [HasAt, writeAt_of_le h, ← List.append_assoc]
    have hlen : (file.take off ++ data).length = off + data.length := by
      rw [List.length_append, List.length_take]
      omega
    rw [slice_append_of_le (by omega) (by omega), hlen]
    have h1 := slice_append_of_le (l := file.take (off + data.length))
      (r := file.drop (off + data.length))
      (a := pos) (b := pos + x.length) (by rw [List.length_take]; omega)
      (by rw [List.length_take]; omega)
    rw [List.take_append_drop, List.length_take, Nat.min_eq_left h] at h1
    rw [← h1]
    exact hat

/-- A file cut behind what lies in it. -/
lemma HasAt.take {file x : Bytes} {off n : ℕ} (hat : HasAt file off x) (h : off + x.length ≤ n) :
    HasAt (file.take n) off x := by
  rw [HasAt, slice_take h]
  exact hat

/-! ## Arrays of words -/

lemma length_flatMap_leBytes (n : ℕ) (ws : List ℕ) :
    (ws.flatMap (leBytes n)).length = ws.length * n := by
  induction ws with
  | nil => simp
  | cons w ws ih => rw [List.flatMap_cons, List.length_append, ih, length_leBytes, List.length_cons,
      Nat.add_mul, one_mul, Nat.add_comm]

/-- An array of words is read by position, and nothing past its end. -/
lemma readWord_flatMap {n : ℕ} (hn : 0 < n) (ws : List ℕ) (hws : ∀ w ∈ ws, w < 256 ^ n) (i : ℕ) :
    readWord n (ws.flatMap (leBytes n)) (i * n) = ws[i]? := by
  by_cases hi : i < ws.length
  · have hsplit : ws.flatMap (leBytes n) = (ws.take i).flatMap (leBytes n) ++
        (leBytes n ws[i] ++ (ws.drop (i + 1)).flatMap (leBytes n)) := by
      conv_lhs => rw [← List.take_append_drop i ws, List.drop_eq_getElem_cons hi]
      rw [List.flatMap_append, List.flatMap_cons]
    have hpre : i * n = ((ws.take i).flatMap (leBytes n)).length := by
      rw [length_flatMap_leBytes, List.length_take, min_eq_left (le_of_lt hi)]
    rw [hsplit, readWord_append_mid hpre (hws _ (List.getElem_mem hi)),
      List.getElem?_eq_getElem hi]
  · have hlen := length_flatMap_leBytes n ws
    have hge : ws.length * n ≤ i * n := Nat.mul_le_mul_right n (by omega)
    rw [List.getElem?_eq_none (by omega), readWord, getRange, if_neg (by omega)]
    rfl

/-- An array of words of eight bytes, read where it lies; a number that is no word is read by its
low bytes. -/
lemma u64At_flatMap (ws : List ℕ) (rest : Bytes) {i : ℕ} (hi : i < ws.length) :
    u64At (ws.flatMap (leBytes 8) ++ rest) (i * 8) = ws[i] % 2 ^ 64 := by
  have hsplit : ws.flatMap (leBytes 8) ++ rest = (ws.take i).flatMap (leBytes 8) ++
      (leBytes 8 ws[i] ++ ((ws.drop (i + 1)).flatMap (leBytes 8) ++ rest)) := by
    conv_lhs => rw [← List.take_append_drop i ws, List.drop_eq_getElem_cons hi]
    rw [List.flatMap_append, List.flatMap_cons]
    simp only [List.append_assoc]
  have hpre : i * 8 = ((ws.take i).flatMap (leBytes 8)).length := by
    rw [length_flatMap_leBytes, List.length_take, min_eq_left (le_of_lt hi)]
  rw [hsplit, u64At, slice_append_mid hpre (by rw [length_leBytes, hpre]), leNat_leBytes_mod]
  norm_num

/-! ## Machine words

Numbers of 64 bits, kept as natural numbers below `2 ^ 64`; the operations wrap as the machine's do.
-/

/-- `a + b`. -/
def addWord (a b : ℕ) : ℕ := (a + b) % 2 ^ 64

/-- `a - b`, of words. -/
def subWord (a b : ℕ) : ℕ := (a + 2 ^ 64 - b) % 2 ^ 64

/-- `a << s`: the shift is taken modulo the word's bits. -/
def shlWord (a s : ℕ) : ℕ := a * 2 ^ (s % 64) % 2 ^ 64

/-- `a >> s`. -/
def shrWord (a s : ℕ) : ℕ := a / 2 ^ (s % 64)

/-- A sum that fits a word is the sum. -/
lemma addWord_of_lt {a b : ℕ} (h : a + b < 2 ^ 64) : addWord a b = a + b := Nat.mod_eq_of_lt h

lemma addWord_le (a b : ℕ) : addWord a b ≤ a + b := Nat.mod_le _ _

/-! ## Fallible computations -/

/-- A sequence that succeeded, taken apart. -/
lemma some_bind_eq {α β : Type} (a : α) (f : α → Option β) : (some a >>= f) = f a := rfl

lemma except_bind_eq_ok {ε α β : Type} {x : Except ε α} {f : α → Except ε β} {b : β} :
    (x >>= f) = .ok b ↔ ∃ a, x = .ok a ∧ f a = .ok b := by
  cases x with
  | error e => simp [bind, Except.bind]
  | ok a => simp [bind, Except.bind]

end StorageLib
