import Supdb.Lib.Uvarint
import Mathlib.Data.Nat.Bitwise

/-!
# Extents and runs

A key's values are stored as one **run**, and an `Ext` says where the run lies and what is in it.
`index.rs` has two encodings of a run and one decoder for both: a *fixed* run is the values back to
back, all of one non-zero width; a *prefixed* run writes each value's length before it.  Which one
was chosen is a flag in the extent's `count`, beside the tombstone flag and above the number of
values.

* `encodeRun`, `eachValue` – the encoder and the decoder.
* `eachValue_encodeRun` – every value comes back, in order, from the run its extent describes.
-/

namespace Supdb

open StorageLib

/-- One contiguous run of a key's values: five `u32`s. -/
structure Ext where
  block : ℕ
  off : ℕ
  len : ℕ
  last : ℕ
  count : ℕ
  deriving DecidableEq, Repr

namespace Ext

/-- Set in `count` of an extent that supersedes every older value of its key. -/
def TOMBSTONE : ℕ := 2 ^ 31

/-- Set in `count` of a run whose values share one width and carry no prefixes. -/
def FIXED : ℕ := 2 ^ 30

/-- The `block` of a run that lies in the record itself. -/
def INLINE : ℕ := 2 ^ 32 - 1

def isFixed (e : Ext) : Bool := e.count &&& FIXED ≠ 0

def isInline (e : Ext) : Bool := e.block = INLINE

/-- Values in the run, without the flags. -/
def records (e : Ext) : ℕ := e.count &&& (2 ^ 30 - 1)

def isTombstone (e : Ext) : Bool := e.count &&& TOMBSTONE ≠ 0

/-- The width of a fixed run's values; none for a prefixed run or an inconsistent one. -/
def fixedWidth (e : Ext) : Option ℕ :=
  if ¬ e.isFixed then none
  else if e.records = 0 ∨ e.len % e.records ≠ 0 then none
  else some (e.len / e.records)

/-- Every field is a `u32`. -/
structure Fits (e : Ext) : Prop where
  block : e.block < 2 ^ 32
  off : e.off < 2 ^ 32
  len : e.len < 2 ^ 32
  last : e.last < 2 ^ 32
  count : e.count < 2 ^ 32

end Ext

/-- A count word: so many values, and the two flags. -/
def countWord (records : ℕ) (fixed tombstone : Bool) : ℕ :=
  records ||| (if fixed then Ext.FIXED else 0) ||| (if tombstone then Ext.TOMBSTONE else 0)

/-! ## The encoder and the decoder -/

namespace Index

/-- `put_uvarint`. -/
def putUvarint (v : ℕ) : Bytes :=
  if _h : 0x80 ≤ v then (UInt8.ofNat v ||| 0x80) :: putUvarint (v >>> 7) else [UInt8.ofNat v]
termination_by v
decreasing_by
  rw [Nat.shiftRight_eq_div_pow]
  omega

/-- `get_uvarint`: the value and the cursor behind it; what was decoded so far where the bytes
run out. -/
def getUvarint (buf : Bytes) (pos : ℕ) : ℕ × ℕ :=
  match readUvarint (buf.drop pos) pos 0 0 with
  | .whole v p => (v, p)
  | .short v p => (v, p)

end Index

/-- What a walk over values did: the values it handed out, and how it ended. -/
abbrev Visited := List Bytes × Except String ℕ

/-- `chunks_exact`: the windows of width `w`, back to back. -/
def chunksExact (w : ℕ) (run : Bytes) : List Bytes :=
  (List.range (run.length / w)).map (fun i => slice run (i * w) ((i + 1) * w))

lemma readUvarint_advances {bs : Bytes} {p v shift : ℕ} (h : bs ≠ []) :
    ∀ {v' p' : ℕ}, readUvarint bs p v shift = .whole v' p' ∨
      readUvarint bs p v shift = .short v' p' → p < p' := by
  induction bs generalizing p v shift with
  | nil => exact absurd rfl h
  | cons b bs ih =>
      intro v' p' hr
      rw [readUvarint] at hr
      split_ifs at hr with h1 h2
      · rcases hr with hr | hr
        · injection hr with _ hp; omega
        · exact absurd hr (by simp)
      · rcases hr with hr | hr
        · exact absurd hr (by simp)
        · injection hr with _ hp; omega
      · by_cases hbs : bs = []
        · subst hbs
          rcases hr with hr | hr
          · exact absurd hr (by simp [readUvarint])
          · rw [readUvarint] at hr
            injection hr with _ hp
            omega
        · have := ih hbs hr
          omega

lemma Index.getUvarint_advances {buf : Bytes} {pos : ℕ} (h : pos < buf.length) :
    pos < (Index.getUvarint buf pos).2 := by
  have hne : buf.drop pos ≠ [] := by
    intro hnil
    have := congrArg List.length hnil
    rw [List.length_drop, List.length_nil] at this
    omega
  rw [Index.getUvarint]
  cases hr : readUvarint (buf.drop pos) pos 0 0 with
  | whole v p => exact readUvarint_advances hne (Or.inl hr)
  | short v p => exact readUvarint_advances hne (Or.inr hr)

/-- The walk over a prefixed run from cursor `p`, `n` values behind it. -/
def eachPrefixed (run : Bytes) (p n : ℕ) : Visited :=
  if _h : p < run.length then
    let len := (Index.getUvarint run p).1
    let q := (Index.getUvarint run p).2
    let fin := q + len
    if 2 ^ 64 ≤ fin then ([], .error "record length overflows")
    else if run.length < fin then ([], .error "record runs past the end of its extent")
    else
      let (vs, r) := eachPrefixed run fin (n + 1)
      (slice run q fin :: vs, r)
  else ([], .ok n)
termination_by run.length - p
decreasing_by
  have := Index.getUvarint_advances _h
  omega

/-- `each_value`: the values of a run, in order, and how many. -/
def eachValue (run : Bytes) (e : Ext) : Visited :=
  if e.isFixed then
    match e.fixedWidth with
    | none => ([], .error "fixed run's length is not a multiple of its count")
    | some w =>
        if run.length ≠ e.len ∨ w = 0 then ([], .error "fixed run does not match its extent")
        else (chunksExact w run, .ok (run.length / w))
  else eachPrefixed run 0 0

/-- The prefixed encoding: the bytes so far, the values left, and where the last value's prefix
stands. -/
def encodePrefixed (out values : Bytes) (last : ℕ) : List ℕ → Bytes × ℕ
  | [] => (out, last)
  | l :: ls =>
      encodePrefixed (out ++ (Index.putUvarint l ++ values.take l)) (values.drop l)
        (out.length % 2 ^ 32) ls

/-- Whether a run of these lengths is stored fixed. -/
def isFixedRun : List ℕ → Bool
  | [] => false
  | l :: ls => 0 < l ∧ ls.all (fun x => x = l)

/-- `encode_run`: the run's bytes, the offset of its last value, and the count word's flag. -/
def encodeRun (values : Bytes) (lens : List ℕ) : Bytes × ℕ × Bool :=
  if isFixedRun lens then (values, ((lens.length - 1) * lens.headD 0) % 2 ^ 32, true)
  else
    let (run, last) := encodePrefixed [] values 0 lens
    (run, last, false)

/-! ## Count words -/

/-- A number of fewer than `k` bits with two flags right above it. -/
def flagWord (k n : ℕ) (f t : Bool) : ℕ :=
  n ||| (if f then 2 ^ k else 0) ||| (if t then 2 ^ (k + 1) else 0)

section Flags

variable {k n : ℕ} (f t : Bool)

lemma flagWord_eq (h : n < 2 ^ k) :
    flagWord k n f t = n + (if f then 2 ^ k else 0) + (if t then 2 ^ (k + 1) else 0) := by
  have hflag : ∀ m i, m < 2 ^ i → m ||| 2 ^ i = m + 2 ^ i := by
    intro m i hm
    have := (Nat.two_pow_add_eq_or_of_lt hm 1).symm
    rw [mul_one] at this
    rw [Nat.or_comm, this, add_comm]
  have hpow : 2 ^ (k + 1) = 2 ^ k + 2 ^ k := by rw [pow_succ]; ring
  unfold flagWord
  cases f <;> cases t <;>
    simp only [if_true, if_false, Bool.false_eq_true, Nat.or_zero, add_zero]
  · rw [hflag n (k + 1) (by omega)]
  · rw [hflag n k h]
  · rw [hflag n k h, hflag (n + 2 ^ k) (k + 1) (by omega)]

lemma flagWord_lt (h : n < 2 ^ k) : flagWord k n f t < 2 ^ (k + 2) := by
  have hpow : 2 ^ (k + 1) = 2 ^ k + 2 ^ k := by rw [pow_succ]; ring
  have hpow' : 2 ^ (k + 2) = 2 ^ (k + 1) + 2 ^ (k + 1) := by rw [pow_succ]; ring
  rw [flagWord_eq f t h]
  cases f <;> cases t <;> simp only [if_true, if_false, Bool.false_eq_true, add_zero] <;> omega

lemma flagWord_low (h : n < 2 ^ k) : flagWord k n f t &&& (2 ^ k - 1) = n := by
  have hpow : 2 ^ (k + 1) = 2 ^ k * 2 := pow_succ 2 k
  rw [flagWord_eq f t h, Nat.and_two_pow_sub_one_eq_mod, hpow]
  cases f <;> cases t <;>
    simp [Nat.mod_eq_of_lt h]

lemma and_two_pow_ne_zero (m i : ℕ) : (m &&& 2 ^ i ≠ 0) ↔ m / 2 ^ i % 2 = 1 := by
  rw [Nat.and_two_pow]
  have : m.testBit i = decide (m / 2 ^ i % 2 = 1) := Nat.testBit_eq_decide_div_mod_eq
  by_cases h : m / 2 ^ i % 2 = 1
  · simp [this, h]
  · simp [this, h]

lemma flagWord_fst (h : n < 2 ^ k) : (flagWord k n f t &&& 2 ^ k ≠ 0) ↔ f = true := by
  have hpos : 0 < 2 ^ k := by positivity
  have hn : n / 2 ^ k = 0 := Nat.div_eq_of_lt h
  have hpow : 2 ^ (k + 1) = 2 ^ k * 2 := pow_succ 2 k
  rw [and_two_pow_ne_zero, flagWord_eq f t h, hpow]
  cases f <;> cases t <;>
    simp [Nat.add_mul_div_left _ _ hpos, Nat.add_div_right _ hpos, hn]

lemma flagWord_snd (h : n < 2 ^ k) : (flagWord k n f t &&& 2 ^ (k + 1) ≠ 0) ↔ t = true := by
  have hpos : 0 < 2 ^ (k + 1) := by positivity
  have hpow : 2 ^ (k + 1) = 2 ^ k + 2 ^ k := by rw [pow_succ]; ring
  have hn : n / 2 ^ (k + 1) = 0 := Nat.div_eq_of_lt (by omega)
  have hn' : (n + 2 ^ k) / 2 ^ (k + 1) = 0 := Nat.div_eq_of_lt (by omega)
  rw [and_two_pow_ne_zero, flagWord_eq f t h]
  cases f <;> cases t <;> simp [Nat.add_div_right _ hpos, hn, hn']

end Flags

section Count

variable {n : ℕ} (fixed tombstone : Bool) {e : Ext}

lemma countWord_lt (h : n < 2 ^ 30) : countWord n fixed tombstone < 2 ^ 32 :=
  flagWord_lt fixed tombstone h

lemma Ext.records_countWord (h : n < 2 ^ 30) (he : e.count = countWord n fixed tombstone) :
    e.records = n := by
  rw [Ext.records, he]
  exact flagWord_low fixed tombstone h

lemma Ext.isFixed_countWord (h : n < 2 ^ 30) (he : e.count = countWord n fixed tombstone) :
    e.isFixed = fixed := by
  have := flagWord_fst fixed tombstone h
  rw [Ext.isFixed, he, Bool.eq_iff_iff, decide_eq_true_iff]
  exact this

lemma Ext.isTombstone_countWord (h : n < 2 ^ 30) (he : e.count = countWord n fixed tombstone) :
    e.isTombstone = tombstone := by
  have := flagWord_snd fixed tombstone h
  rw [Ext.isTombstone, he, Bool.eq_iff_iff, decide_eq_true_iff]
  exact this

end Count

/-! ## Varints of a run -/

namespace Index

lemma ofNat_or_128 (v : ℕ) : UInt8.ofNat v ||| 0x80 = UInt8.ofNat (v % 128 + 128) := by
  apply UInt8.toNat_inj.mp
  have h128 : (0x80 : UInt8).toNat = 2 ^ 7 := rfl
  have hor : ∀ x < 2 ^ 7, x ||| 2 ^ 7 = x + 2 ^ 7 := by
    intro x hx
    have := (Nat.two_pow_add_eq_or_of_lt hx 1).symm
    rw [mul_one] at this
    rw [Nat.or_comm, this, add_comm]
  rw [UInt8.toNat_or, h128, UInt8.toNat_ofNat', UInt8.toNat_ofNat']
  by_cases h : v % 2 ^ 8 < 2 ^ 7
  · rw [hor _ h]; omega
  · have hsplit : v % 2 ^ 8 = v % 128 ||| 2 ^ 7 := by rw [hor _ (by omega)]; omega
    rw [hsplit, Nat.or_assoc, Nat.or_self, hor _ (by omega)]
    omega

lemma putUvarint_eq (v : ℕ) : putUvarint v = uvarint v := by
  induction v using Nat.strong_induction_on with
  | _ v ih =>
      rw [putUvarint]
      by_cases h : v < 128
      · rw [dif_neg (by omega), uvarint_of_lt h]
      · have hrec : putUvarint (v >>> 7) = uvarint (v / 128) := by
          rw [Nat.shiftRight_eq_div_pow]; exact ih _ (by omega)
        rw [dif_pos (by omega), hrec, uvarint_of_ge (by omega : 128 ≤ v), ofNat_or_128]

/-- What `put_uvarint` wrote at the cursor is read back, whatever follows. -/
lemma getUvarint_append {pre post : Bytes} {v p : ℕ} (hp : p = pre.length) (hv : v < 2 ^ 64) :
    getUvarint (pre ++ (putUvarint v ++ post)) p = (v, p + (putUvarint v).length) := by
  rw [getUvarint, hp, List.drop_left, putUvarint_eq, readUvarint_uvarint hv]

end Index

/-! ## Prefixed runs -/

/-- Values with their lengths before them. -/
def prefixedRun (vals : List Bytes) : Bytes :=
  vals.flatMap (fun v => Index.putUvarint v.length ++ v)

lemma prefixedRun_cons (v : Bytes) (vals : List Bytes) :
    prefixedRun (v :: vals) = Index.putUvarint v.length ++ (v ++ prefixedRun vals) := by
  rw [prefixedRun, List.flatMap_cons, List.append_assoc]; rfl

lemma length_prefixedRun_ge (vals : List Bytes) : vals.length ≤ (prefixedRun vals).length := by
  induction vals with
  | nil => simp
  | cons v vals ih =>
      have : 0 < (Index.putUvarint v.length).length := by
        rw [Index.putUvarint_eq]; exact length_uvarint_pos _
      rw [prefixedRun_cons, List.length_cons, List.length_append, List.length_append]
      omega

/-- Where the last value of a prefixed run starts; zero for a run of none. -/
def prefixedLast (vals : List Bytes) : ℕ := (prefixedRun vals.dropLast).length

lemma encodePrefixed_eq (vals : List Bytes) (out : Bytes) (last : ℕ) :
    encodePrefixed out vals.flatten last (vals.map List.length)
      = (out ++ prefixedRun vals,
          if vals = [] then last else (out ++ prefixedRun vals.dropLast).length % 2 ^ 32) := by
  induction vals generalizing out last with
  | nil => simp [encodePrefixed, prefixedRun]
  | cons v vals ih =>
      rw [List.map_cons, List.flatten_cons, encodePrefixed, List.take_left, List.drop_left, ih,
        prefixedRun_cons]
      simp only [List.append_assoc, if_neg (List.cons_ne_nil v vals)]
      by_cases h : vals = []
      · subst h; simp [prefixedRun]
      · rw [if_neg h, List.dropLast_cons_of_ne_nil h, prefixedRun_cons]

/-- **A prefixed run hands its values back**, from any value's start on. -/
lemma eachPrefixed_prefixedRun {run pre : Bytes} {p : ℕ} (vals : List Bytes) (n : ℕ)
    (hrun : run = pre ++ prefixedRun vals) (hp : p = pre.length) (hlen : run.length < 2 ^ 64) :
    eachPrefixed run p n = (vals, .ok (n + vals.length)) := by
  induction vals generalizing pre p n with
  | nil =>
      have hend : ¬ p < run.length := by rw [hrun, hp]; simp [prefixedRun]
      rw [eachPrefixed, dif_neg hend]
      rfl
  | cons v vals ih =>
      rw [prefixedRun_cons] at hrun
      set q := p + (Index.putUvarint v.length).length with hq
      have hpos : 0 < (Index.putUvarint v.length).length := by
        rw [Index.putUvarint_eq]; exact length_uvarint_pos _
      have hrunlen : run.length = q + v.length + (prefixedRun vals).length := by
        rw [hrun, hq, hp]; simp only [List.length_append]; omega
      have hget : Index.getUvarint run p = (v.length, q) := by
        rw [hrun]; exact Index.getUvarint_append hp (by omega)
      have hrun' : run = (pre ++ Index.putUvarint v.length) ++ (v ++ prefixedRun vals) := by
        rw [hrun, List.append_assoc]
      have hrun'' : run = (pre ++ Index.putUvarint v.length ++ v) ++ prefixedRun vals := by
        rw [hrun', List.append_assoc _ v]
      have hslice : slice run q (q + v.length) = v := by
        rw [hrun']; exact slice_append_mid (by simp [hq, hp]) (by simp [hq, hp])
      rw [eachPrefixed, dif_pos (by omega), hget]
      dsimp only
      rw [if_neg (by omega), if_neg (by omega),
        ih (n + 1) hrun'' (by simp [hq, hp]; omega), hslice]
      simp only [List.length_cons]
      congr 2
      omega

/-! ## Fixed runs -/

/-- Values of one width, back to back, are cut where they were joined. -/
lemma chunksExact_flatten {w : ℕ} (hw : 0 < w) (vals : List Bytes)
    (h : ∀ v ∈ vals, v.length = w) : chunksExact w vals.flatten = vals := by
  induction vals with
  | nil => simp [chunksExact]
  | cons v vals ih =>
      have hv : v.length = w := h v (List.mem_cons_self ..)
      have hvals : ∀ v ∈ vals, v.length = w := fun v hv => h v (List.mem_cons_of_mem _ hv)
      have hlen : (v :: vals).flatten.length / w = vals.flatten.length / w + 1 := by
        rw [List.flatten_cons, List.length_append, hv, Nat.add_div_left _ hw]
      have hhead : slice (v :: vals).flatten (0 * w) ((0 + 1) * w) = v := by
        rw [List.flatten_cons, zero_mul, zero_add, one_mul, slice, List.drop_zero, ← hv,
          List.take_left]
      rw [chunksExact, hlen, List.range_succ_eq_map, List.map_cons, hhead, List.map_map]
      congr 1
      conv_rhs => rw [← ih hvals]
      rw [chunksExact]
      apply List.map_congr_left
      intro i _
      have h1 : i.succ * w = v.length + i * w := by rw [hv, Nat.succ_mul]; omega
      have h2 : (i.succ + 1) * w = v.length + (i + 1) * w := by
        rw [hv, Nat.add_mul, Nat.succ_mul]; ring
      rw [Function.comp_apply, h2, h1, List.flatten_cons, slice_append_shift]

lemma length_flatten_of_width {w : ℕ} (vals : List Bytes) (h : ∀ v ∈ vals, v.length = w) :
    vals.flatten.length = vals.length * w := by
  induction vals with
  | nil => simp
  | cons v vals ih =>
      rw [List.flatten_cons, List.length_append, h v (List.mem_cons_self ..),
        ih (fun v hv => h v (List.mem_cons_of_mem _ hv)), List.length_cons]
      ring

/-- A fixed run has a first value, that value is not empty, and all have its width. -/
lemma isFixedRun_map_length {vals : List Bytes} (h : isFixedRun (vals.map List.length)) :
    ∃ w, 0 < w ∧ vals ≠ [] ∧ (vals.map List.length).headD 0 = w ∧ ∀ v ∈ vals, v.length = w := by
  cases vals with
  | nil => exact absurd h (by simp [isFixedRun])
  | cons v vals =>
      simp only [List.map_cons, isFixedRun, decide_eq_true_eq, List.all_eq_true,
        List.mem_map] at h
      obtain ⟨hpos, hall⟩ := h
      refine ⟨v.length, hpos, List.cons_ne_nil _ _, rfl, fun u hu => ?_⟩
      rcases List.mem_cons.mp hu with rfl | hu
      · rfl
      · exact hall u.length ⟨u, hu, rfl⟩

/-! ## The round trip -/

/-- The run the writer stores for `vals`. -/
def runOf (vals : List Bytes) : Bytes := (encodeRun vals.flatten (vals.map List.length)).1

/-- Whether that run is fixed. -/
def fixedOf (vals : List Bytes) : Bool := isFixedRun (vals.map List.length)

/-- Where its last value starts. -/
def lastOf (vals : List Bytes) : ℕ :=
  if fixedOf vals then (vals.length - 1) * (vals.map List.length).headD 0 else prefixedLast vals

lemma runOf_eq (vals : List Bytes) :
    runOf vals = if fixedOf vals then vals.flatten else prefixedRun vals := by
  rw [runOf, fixedOf, encodeRun]
  by_cases h : isFixedRun (vals.map List.length)
  · rw [if_pos h, if_pos h]
  · rw [if_neg h, if_neg h, encodePrefixed_eq]; rfl

lemma encodeRun_eq (vals : List Bytes) :
    encodeRun vals.flatten (vals.map List.length)
      = (runOf vals, lastOf vals % 2 ^ 32, fixedOf vals) := by
  rw [runOf, lastOf, fixedOf, encodeRun]
  by_cases h : isFixedRun (vals.map List.length)
  · simp only [h, if_true, List.length_map]
  · simp only [h, Bool.false_eq_true, if_false, encodePrefixed_eq, List.nil_append]
    by_cases hnil : vals = []
    · subst hnil; simp [prefixedLast, prefixedRun]
    · rw [if_neg hnil]; rfl

/-- **Runs round-trip.**  Every value comes back, in order, from the run and the extent that
describes it. -/
lemma eachValue_runOf {vals : List Bytes} {e : Ext} {tombstone : Bool}
    (hn : vals.length < 2 ^ 30) (hrun : (runOf vals).length < 2 ^ 32)
    (hlen : e.len = (runOf vals).length)
    (hcount : e.count = countWord vals.length (fixedOf vals) tombstone) :
    eachValue (runOf vals) e = (vals, .ok vals.length) := by
  have hfixed : e.isFixed = fixedOf vals := Ext.isFixed_countWord _ _ hn hcount
  have hrecords : e.records = vals.length := Ext.records_countWord _ _ hn hcount
  rw [eachValue, hfixed]
  by_cases h : fixedOf vals
  · obtain ⟨w, hw, hne, -, hall⟩ := isFixedRun_map_length h
    have hr : runOf vals = vals.flatten := by rw [runOf_eq, if_pos h]
    have hflat : (runOf vals).length = vals.length * w := by
      rw [hr, length_flatten_of_width vals hall]
    have hpos : 0 < vals.length := List.length_pos_iff.mpr hne
    have hwidth : e.fixedWidth = some w := by
      rw [Ext.fixedWidth, hfixed, hrecords, hlen, hflat, Nat.mul_mod_right]
      simp [h, hne, Nat.mul_div_cancel_left _ hpos]
    have hbad : ¬ ((runOf vals).length ≠ e.len ∨ w = 0) := by omega
    rw [if_pos h, hwidth]
    dsimp only
    rw [if_neg hbad, hflat, Nat.mul_div_cancel _ hw, hr, chunksExact_flatten hw vals hall]
  · have hr : runOf vals = [] ++ prefixedRun vals := by rw [runOf_eq, if_neg h]; rfl
    have hwalk := eachPrefixed_prefixedRun (p := 0) vals 0 hr rfl (by omega)
    rw [if_neg h, hwalk, zero_add]

end Supdb
