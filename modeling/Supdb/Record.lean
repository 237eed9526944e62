import Supdb.Index

/-!
# Records of the key section

A record is the key's length and its extent count, the key, and then either the extents and the
inline tail their runs lie in (the *full* form) or, for the one inline run almost every key has, a
four-byte header and the run (the *compact* form).  Everything is padded to four bytes, because a
reader borrows a full record's extents in place: an address that is not aligned for them is a
record it cannot read.

* `recordBytes` – the layout `record_into` writes.
* `parseRecord` – the reader, over a buffer at address `base`.
* `parseRecord_recordBytes` – a record is read back from where it was appended.
* `parseRecord_append` – what is read from a buffer is read from any longer one.
-/

namespace Supdb

open StorageLib

/-- Records are aligned to this. -/
def REC_ALIGN : ℕ := 4

/-- Bytes of an extent in a record. -/
def EXT_BYTES : ℕ := 20

/-- The extent count of a compact record. -/
def COMPACT : ℕ := 0x8000

/-- Runs shorter than this are written compact. -/
def COMPACT_RUN : ℕ := 2 ^ 14

def C_FIXED : ℕ := 2 ^ 14
def C_TOMB : ℕ := 2 ^ 15

/-! ## Writing -/

/-- `compacts`: one inline run from the tail's start, short enough. -/
def compacts : List Ext → Bool
  | [e] => e.isInline ∧ e.off = 0 ∧ e.len < COMPACT_RUN
  | _ => false

/-- `compact_header`: the run's length, and its count with the two flags above it. -/
def compactHeader (e : Ext) : Bytes :=
  let c := e.records % 2 ^ 16 ||| (if e.isFixed then C_FIXED else 0) |||
    (if e.isTombstone then C_TOMB else 0)
  leBytes 2 e.len ++ leBytes 2 c

/-- An extent as a record holds it. -/
def extBytes (e : Ext) : Bytes :=
  leBytes 4 e.block ++ (leBytes 4 e.off ++ (leBytes 4 e.len ++ (leBytes 4 e.last ++
    leBytes 4 e.count)))

/-- The part of a record before its extents: the two lengths, the key, the padding. -/
def recordHead (key : Bytes) (n : ℕ) : Bytes :=
  leBytes 2 key.length ++ (leBytes 2 n ++ (key ++ padding (4 + key.length) REC_ALIGN))

/-- `record_into`: the bytes of a record. -/
def recordBytes (key : Bytes) (exts : List Ext) (tail : Bytes) (compact : Bool) : Bytes :=
  let tailBytes := tail ++ padding tail.length REC_ALIGN
  if compact ∧ compacts exts then
    recordHead key COMPACT ++ (exts.flatMap compactHeader ++ tailBytes)
  else recordHead key exts.length ++ (exts.flatMap extBytes ++ tailBytes)

/-- `record_tail_at`: where the tail begins within the record. -/
def recordTailAt (klen : ℕ) (exts : List Ext) (compact : Bool) : ℕ :=
  alignUp (4 + klen) REC_ALIGN +
    if compact ∧ compacts exts then 4 else exts.length * EXT_BYTES

/-- `record_len_for`: the record's length; none where no record can hold it. -/
def recordLenFor (klen : ℕ) (exts : List Ext) (tail : ℕ) (compact : Bool) : Option ℕ :=
  if 65535 < klen ∨ COMPACT ≤ exts.length then none
  else some (recordTailAt klen exts compact + alignUp tail REC_ALIGN)

/-- `stream_record_as`: the record appended to `out`, and its length. -/
def streamRecordAs (out key : Bytes) (exts : List Ext) (tail : Bytes) (compact : Bool) :
    Option (Bytes × ℕ) :=
  (recordLenFor key.length exts tail.length compact).map
    (fun len => (out ++ recordBytes key exts tail compact, len))

/-! ## Reading -/

/-- The walk of `compact_ext` over the prefixes of a run: the offset of the value `k` behind the
one at `p`, if the run has it. -/
def walkPrefixes (run : Bytes) : ℕ → ℕ → Option ℕ
  | 0, p => some p
  | k + 1, p =>
      let (l, q) := Index.getUvarint run p
      if 2 ^ 64 ≤ q + l then none
      else if run.length ≤ q + l then none
      else walkPrefixes run k (q + l)

/-- `compact_ext`: the extent a compact header stands for over its run. -/
def compactExt (h run : Bytes) : Option Ext :=
  let len := leNat (h.take 2)
  let c := leNat (slice h 2 4)
  let records := c &&& (2 ^ 14 - 1)
  let fixed : Bool := c &&& C_FIXED ≠ 0
  let tombstone : Bool := c &&& C_TOMB ≠ 0
  if run.length ≠ len ∨ max len 1 < records then none
  else
    let last : Option ℕ :=
      if records ≤ 1 then some 0
      else if fixed then
        if len % records ≠ 0 then none else some ((records - 1) * (len / records))
      else walkPrefixes run (records - 1) 0
    last.map (fun last => ⟨Ext.INLINE, 0, len, last, countWord records fixed tombstone⟩)

/-- An extent read from a record. -/
def extOf (b : Bytes) : Ext :=
  { block := leNat (slice b 0 4), off := leNat (slice b 4 8), len := leNat (slice b 8 12),
    last := leNat (slice b 12 16), count := leNat (slice b 16 20) }

/-- The `n` extents at the start of `b`. -/
def extsOf : ℕ → Bytes → List Ext
  | 0, _ => []
  | n + 1, b => extOf (b.take EXT_BYTES) :: extsOf n (b.drop EXT_BYTES)

/-- The bytes of a record's tail its inline extents reach. -/
def tailSpan (exts : List Ext) : ℕ :=
  exts.foldl (fun t e => if e.isInline then max t (e.off + e.len) else t) 0

/-- What a record holds: its key, its extents, its tail, and the bytes it spans. -/
abbrev ParsedRecord := Bytes × List Ext × Bytes × ℕ

/-- `parse_record_tail`: the extents, the tail and the bytes used, of a record whose image from
its aligned tail start is `rest`, at address `addr`. -/
def parseRecordTail (addr : ℕ) (header rest : Bytes) : Option (List Ext × Bytes × ℕ) := do
  let n := leNat (slice header 2 4)
  if n &&& COMPACT ≠ 0 then
    if n ≠ COMPACT then none
    else
      let h ← getRange rest 0 4
      let len := leNat (h.take 2)
      let tail ← getRange rest 4 (4 + len)
      let e ← compactExt h tail
      some ([e], tail, 4 + len)
  else
    let bytes ← getRange rest 0 (n * EXT_BYTES)
    if addr % 4 ≠ 0 then none
    else
      let exts := extsOf n bytes
      let tail ← getRange rest (n * EXT_BYTES) (n * EXT_BYTES + tailSpan exts)
      some (exts, tail, n * EXT_BYTES + tailSpan exts)

/-- `parse_record`: the record at `off` of a buffer that lies at address `base`. -/
def parseRecord (base : ℕ) (buf : Bytes) (off : ℕ) : Option ParsedRecord := do
  let klen ← readWord 2 buf off
  let header ← getRange buf off (off + 4)
  let key ← getRange buf (off + 4) (off + 4 + klen)
  let eAt := off + alignUp (4 + klen) REC_ALIGN
  let rest ← getRange buf eAt buf.length
  let (exts, tail, used) ← parseRecordTail (base + eAt) header rest
  some (key, exts, tail, alignUp (eAt + used - off) REC_ALIGN)

/-! ## Lengths -/

@[simp] lemma length_extBytes (e : Ext) : (extBytes e).length = EXT_BYTES := by
  simp [extBytes, EXT_BYTES]

@[simp] lemma length_compactHeader (e : Ext) : (compactHeader e).length = 4 := by
  simp [compactHeader]

lemma length_flatMap_extBytes (exts : List Ext) :
    (exts.flatMap extBytes).length = exts.length * EXT_BYTES := by
  induction exts with
  | nil => simp
  | cons e exts ih =>
      rw [List.flatMap_cons, List.length_append, length_extBytes, ih, List.length_cons]
      ring

lemma length_recordHead (key : Bytes) (n : ℕ) :
    (recordHead key n).length = alignUp (4 + key.length) REC_ALIGN := by
  have := length_padding (4 + key.length) (by norm_num [REC_ALIGN] : 0 < REC_ALIGN)
  simp only [recordHead, List.length_append, length_leBytes]
  omega

lemma compacts_eq_singleton {exts : List Ext} (h : compacts exts) : ∃ e, exts = [e] := by
  match exts with
  | [] => exact absurd h (by simp [compacts])
  | [e] => exact ⟨e, rfl⟩
  | _ :: _ :: _ => exact absurd h (by simp [compacts])

lemma length_recordBytes (key : Bytes) (exts : List Ext) (tail : Bytes) (compact : Bool) :
    (recordBytes key exts tail compact).length
      = recordTailAt key.length exts compact + alignUp tail.length REC_ALIGN := by
  have hpad := length_padding tail.length (by norm_num [REC_ALIGN] : 0 < REC_ALIGN)
  rw [recordBytes, recordTailAt]
  by_cases h : compact ∧ compacts exts
  · obtain ⟨e, rfl⟩ := compacts_eq_singleton h.2
    simp only [if_pos h, List.length_append, length_recordHead, List.flatMap_cons,
      List.flatMap_nil, List.append_nil, length_compactHeader]
    omega
  · simp only [if_neg h, List.length_append, length_recordHead, length_flatMap_extBytes]
    omega

lemma dvd_length_recordBytes (key : Bytes) (exts : List Ext) (tail : Bytes) (compact : Bool) :
    4 ∣ (recordBytes key exts tail compact).length := by
  have h1 : 4 ∣ alignUp (4 + key.length) REC_ALIGN := dvd_alignUp _ _
  have h2 : 4 ∣ alignUp tail.length REC_ALIGN := dvd_alignUp _ _
  have h3 : 4 ∣ if compact ∧ compacts exts then 4 else exts.length * EXT_BYTES := by
    split_ifs with h
    · exact dvd_refl 4
    · exact Dvd.dvd.mul_left (by norm_num [EXT_BYTES]) _
  rw [length_recordBytes, recordTailAt]
  exact dvd_add (dvd_add h1 h3) h2

/-! ## Extents -/

lemma extOf_extBytes {e : Ext} (h : e.Fits) (post : Bytes) :
    extOf (extBytes e ++ post) = e := by
  have hb : extBytes e ++ post = [] ++ (leBytes 4 e.block ++ (leBytes 4 e.off ++
      (leBytes 4 e.len ++ (leBytes 4 e.last ++ (leBytes 4 e.count ++ post))))) := by
    simp only [extBytes, List.append_assoc, List.nil_append]
  have ho : extBytes e ++ post = leBytes 4 e.block ++ (leBytes 4 e.off ++
      (leBytes 4 e.len ++ (leBytes 4 e.last ++ (leBytes 4 e.count ++ post)))) := hb
  have hl : extBytes e ++ post = (leBytes 4 e.block ++ leBytes 4 e.off) ++
      (leBytes 4 e.len ++ (leBytes 4 e.last ++ (leBytes 4 e.count ++ post))) := by
    rw [ho]; simp only [List.append_assoc]
  have ha : extBytes e ++ post = (leBytes 4 e.block ++ leBytes 4 e.off ++ leBytes 4 e.len) ++
      (leBytes 4 e.last ++ (leBytes 4 e.count ++ post)) := by
    rw [ho]; simp only [List.append_assoc]
  have hc : extBytes e ++ post = (leBytes 4 e.block ++ leBytes 4 e.off ++ leBytes 4 e.len ++
      leBytes 4 e.last) ++ (leBytes 4 e.count ++ post) := by
    rw [ho]; simp only [List.append_assoc]
  have h1 : leNat (slice (extBytes e ++ post) 0 4) = e.block := by
    rw [hb, slice_append_mid (by simp) (by simp)]; exact leNat_leBytes (by have := h.block; omega)
  have h2 : leNat (slice (extBytes e ++ post) 4 8) = e.off := by
    rw [ho, slice_append_mid (by simp) (by simp)]; exact leNat_leBytes (by have := h.off; omega)
  have h3 : leNat (slice (extBytes e ++ post) 8 12) = e.len := by
    rw [hl, slice_append_mid (by simp) (by simp)]; exact leNat_leBytes (by have := h.len; omega)
  have h4 : leNat (slice (extBytes e ++ post) 12 16) = e.last := by
    rw [ha, slice_append_mid (by simp) (by simp)]; exact leNat_leBytes (by have := h.last; omega)
  have h5 : leNat (slice (extBytes e ++ post) 16 20) = e.count := by
    rw [hc, slice_append_mid (by simp) (by simp)]; exact leNat_leBytes (by have := h.count; omega)
  rw [extOf, h1, h2, h3, h4, h5]

lemma extsOf_flatMap (exts : List Ext) (h : ∀ e ∈ exts, e.Fits) :
    extsOf exts.length (exts.flatMap extBytes) = exts := by
  induction exts with
  | nil => rfl
  | cons e exts ih =>
      have hfirst : extOf (extBytes e) = e := by
        have := extOf_extBytes (h e (List.mem_cons_self ..)) []
        rwa [List.append_nil] at this
      rw [List.length_cons, List.flatMap_cons, extsOf, ← length_extBytes e, List.take_left,
        List.drop_left, hfirst, ih (fun e he => h e (List.mem_cons_of_mem _ he))]

/-! ## The compact header -/

/-- The extent the writer records for a key whose values `vals` lie inline. -/
def inlineExt (vals : List Bytes) (tombstone : Bool) : Ext :=
  { block := Ext.INLINE, off := 0, len := (runOf vals).length, last := lastOf vals,
    count := countWord vals.length (fixedOf vals) tombstone }

/-- The words of an inline run's extent. -/
lemma inlineExt_fits {vals : List Bytes} {tombstone : Bool} (hn : vals.length < 2 ^ 30)
    (hrun : (runOf vals).length < 2 ^ 32) (hlast : lastOf vals < 2 ^ 32) :
    (inlineExt vals tombstone).Fits where
  block := by norm_num [inlineExt, Ext.INLINE]
  off := by norm_num [inlineExt]
  len := hrun
  last := hlast
  count := countWord_lt _ _ hn

lemma fixedOf_singleton (v : Bytes) : fixedOf [v] = decide (0 < v.length) := by
  simp [fixedOf, isFixedRun]

lemma runOf_singleton_of_ne {v : Bytes} (h : v ≠ []) : runOf [v] = v := by
  have hpos : 0 < v.length := List.length_pos_iff.mpr h
  rw [runOf_eq, fixedOf_singleton, if_pos (by simpa using hpos)]
  simp

lemma runOf_singleton_nil : runOf [([] : Bytes)] = [0] := by
  rw [runOf_eq, fixedOf_singleton]
  simp [prefixedRun, Index.putUvarint_eq, uvarint_of_lt]

lemma lastOf_singleton (v : Bytes) : lastOf [v] = 0 := by
  simp [lastOf, prefixedLast, prefixedRun]

/-- The extent a one-value inline run gets, from either way of writing it. -/
lemma inlineExt_singleton {v : Bytes} (h : (runOf [v]).length < 2 ^ 32) :
    ({ block := Ext.INLINE, off := 0, len := (runOf [v]).length % 2 ^ 32, last := 0,
       count := countWord 1 (fixedOf [v]) false } : Ext) = inlineExt [v] false := by
  rw [inlineExt, lastOf_singleton, Nat.mod_eq_of_lt h]
  rfl

lemma length_le_runOf (vals : List Bytes) : vals.length ≤ (runOf vals).length := by
  rw [runOf_eq]
  by_cases h : fixedOf vals
  · obtain ⟨w, hw, -, -, hall⟩ := isFixedRun_map_length h
    rw [if_pos h, length_flatten_of_width vals hall]
    exact Nat.le_mul_of_pos_right _ hw
  · rw [if_neg h]
    exact length_prefixedRun_ge vals

/-- The walk over the prefixes reaches the value `us.length` behind, as long as another value
follows. -/
lemma walkPrefixes_prefixedRun {run pre : Bytes} {p : ℕ} (us vs : List Bytes) (hvs : vs ≠ [])
    (hrun : run = pre ++ prefixedRun (us ++ vs)) (hp : p = pre.length)
    (hlen : run.length < 2 ^ 64) :
    walkPrefixes run us.length p = some (p + (prefixedRun us).length) := by
  induction us generalizing pre p with
  | nil => simp [walkPrefixes, prefixedRun]
  | cons u us ih =>
      rw [List.cons_append, prefixedRun_cons] at hrun
      set q := p + (Index.putUvarint u.length).length with hq
      have hmore : 0 < (prefixedRun (us ++ vs)).length := by
        have h1 := length_prefixedRun_ge (us ++ vs)
        have h2 := List.length_pos_iff.mpr hvs
        rw [List.length_append] at h1
        omega
      have hrunlen : run.length = q + u.length + (prefixedRun (us ++ vs)).length := by
        rw [hrun, hq, hp]; simp only [List.length_append]; omega
      have hget : Index.getUvarint run p = (u.length, q) := by
        rw [hrun]; exact Index.getUvarint_append hp (by omega)
      have hrun' : run = (pre ++ Index.putUvarint u.length ++ u) ++ prefixedRun (us ++ vs) := by
        rw [hrun]; simp only [List.append_assoc]
      rw [List.length_cons, walkPrefixes, hget]
      dsimp only
      rw [if_neg (by omega), if_neg (by omega), ih hrun' (by simp [hq, hp]; omega),
        prefixedRun_cons]
      congr 1
      simp only [List.length_append, hq]
      omega

/-- The `last` a compact header leaves out is found again. -/
lemma compactLast_eq (vals : List Bytes) (hrun : (runOf vals).length < 2 ^ 64) :
    (if vals.length ≤ 1 then some 0
      else if fixedOf vals then
        if (runOf vals).length % vals.length ≠ 0 then none
        else some ((vals.length - 1) * ((runOf vals).length / vals.length))
      else walkPrefixes (runOf vals) (vals.length - 1) 0) = some (lastOf vals) := by
  rw [lastOf]
  by_cases h1 : vals.length ≤ 1
  · rw [if_pos h1]
    cases vals with
    | nil => simp [fixedOf, isFixedRun, prefixedLast, prefixedRun]
    | cons v rest =>
        rw [List.length_cons] at h1
        obtain rfl := List.length_eq_zero_iff.mp (by omega : rest.length = 0)
        simp [prefixedLast, prefixedRun]
  · rw [if_neg h1]
    by_cases h : fixedOf vals
    · obtain ⟨w, hw, hne, hhead, hall⟩ := isFixedRun_map_length h
      have hr : (runOf vals).length = vals.length * w := by
        rw [runOf_eq, if_pos h, length_flatten_of_width vals hall]
      have hpos : 0 < vals.length := List.length_pos_iff.mpr hne
      rw [if_pos h, if_pos h, hr, Nat.mul_mod_right, Nat.mul_div_cancel_left _ hpos, hhead]
      simp
    · have hne : vals ≠ [] := by rintro rfl; simp at h1
      have hr : runOf vals = [] ++ prefixedRun (vals.dropLast ++ [vals.getLast hne]) := by
        rw [List.dropLast_append_getLast, runOf_eq, if_neg h]; rfl
      have hwalk := walkPrefixes_prefixedRun (p := 0) vals.dropLast [vals.getLast hne] (by simp) hr
        rfl hrun
      rw [List.length_dropLast] at hwalk
      rw [if_neg h, if_neg h, hwalk, zero_add, prefixedLast]

lemma compactHeader_inlineExt {vals : List Bytes} (tombstone : Bool)
    (hrun : (runOf vals).length < COMPACT_RUN) :
    compactHeader (inlineExt vals tombstone)
      = leBytes 2 (runOf vals).length ++
      leBytes 2 (flagWord 14 vals.length (fixedOf vals) tombstone) := by
  have hn := length_le_runOf vals
  have hn14 : vals.length < 2 ^ 14 := lt_of_le_of_lt hn hrun
  have hn30 : vals.length < 2 ^ 30 := by omega
  have hrec : (inlineExt vals tombstone).records = vals.length :=
    Ext.records_countWord _ _ hn30 rfl
  have hfix : (inlineExt vals tombstone).isFixed = fixedOf vals :=
    Ext.isFixed_countWord _ _ hn30 rfl
  have htomb : (inlineExt vals tombstone).isTombstone = tombstone :=
    Ext.isTombstone_countWord _ _ hn30 rfl
  rw [compactHeader, hrec, hfix, htomb, Nat.mod_eq_of_lt (by omega)]
  rfl

/-- **A compact header stands for its extent.** -/
lemma compactExt_inlineExt {vals : List Bytes} (tombstone : Bool)
    (hrun : (runOf vals).length < COMPACT_RUN) :
    compactExt (compactHeader (inlineExt vals tombstone)) (runOf vals)
      = some (inlineExt vals tombstone) := by
  have hrun' : (runOf vals).length < 2 ^ 14 := hrun
  have hn := length_le_runOf vals
  have hn14 : vals.length < 2 ^ 14 := by omega
  have hword := flagWord_lt (fixedOf vals) tombstone hn14
  set c := flagWord 14 vals.length (fixedOf vals) tombstone with hc
  have hhead := compactHeader_inlineExt tombstone hrun
  have hlen : leNat ((compactHeader (inlineExt vals tombstone)).take 2) = (runOf vals).length := by
    rw [hhead]
    have : (leBytes 2 (runOf vals).length ++ leBytes 2 c).take 2 = leBytes 2 (runOf vals).length :=
      List.take_left' (length_leBytes _ _)
    rw [this]
    exact leNat_leBytes (by omega)
  have hcount : leNat (slice (compactHeader (inlineExt vals tombstone)) 2 4) = c := by
    have : leBytes 2 (runOf vals).length ++ leBytes 2 c
        = leBytes 2 (runOf vals).length ++ (leBytes 2 c ++ []) := by rw [List.append_nil]
    rw [hhead, ← hc, this, slice_append_mid (by simp) (by simp)]
    exact leNat_leBytes (by omega)
  have hlow : c &&& (2 ^ 14 - 1) = vals.length := flagWord_low _ _ hn14
  have hfix : decide (c &&& C_FIXED ≠ 0) = fixedOf vals := by
    rw [Bool.eq_iff_iff, decide_eq_true_iff]; exact flagWord_fst _ _ hn14
  have htomb : decide (c &&& C_TOMB ≠ 0) = tombstone := by
    rw [Bool.eq_iff_iff, decide_eq_true_iff]; exact flagWord_snd _ _ hn14
  have hgood :
    ¬ ((runOf vals).length ≠ (runOf vals).length ∨ max (runOf vals).length 1 < vals.length) := by
    omega
  have hlast := compactLast_eq vals (by omega)
  simp only [compactExt, hlen, hcount, hlow, hfix, htomb]
  rw [if_neg hgood, hlast]
  rfl

/-! ## The round trip -/

/-- What a record can hold and give back: lengths that fit their fields, a tail that is exactly
what its inline extents span, and, where the record is compact, the extent and run a writer builds
for some values. -/
structure RecordOk (key : Bytes) (exts : List Ext) (tail : Bytes) : Prop where
  klen : key.length ≤ 65535
  count : exts.length < COMPACT
  fits : ∀ e ∈ exts, e.Fits
  span : tail.length = tailSpan exts
  run : compacts exts → ∃ vals tombstone, exts = [inlineExt vals tombstone] ∧ tail = runOf vals

lemma and_COMPACT_of_lt {n : ℕ} (h : n < COMPACT) : ¬ n &&& COMPACT ≠ 0 := by
  have h15 : COMPACT = 2 ^ 15 := by norm_num [COMPACT]
  rw [h15] at h ⊢
  rw [and_two_pow_ne_zero, Nat.div_eq_of_lt h]
  norm_num

/-- The tail of a compact record, read back. -/
lemma parseRecordTail_compact {addr : ℕ} {header post : Bytes} {vals : List Bytes}
    {tombstone : Bool} (hhead : leNat (slice header 2 4) = COMPACT)
    (hrun : (runOf vals).length < COMPACT_RUN) :
    parseRecordTail addr header (compactHeader (inlineExt vals tombstone) ++ (runOf vals ++ post))
      = some ([inlineExt vals tombstone], runOf vals, 4 + (runOf vals).length) := by
  have hrun' : (runOf vals).length < 2 ^ 14 := hrun
  set h := compactHeader (inlineExt vals tombstone) with hh
  have hlen : leNat (h.take 2) = (runOf vals).length := by
    rw [hh, compactHeader_inlineExt tombstone hrun, List.take_left' (length_leBytes _ _)]
    exact leNat_leBytes (by omega)
  have hget : getRange (h ++ (runOf vals ++ post)) 0 4 = some h := by
    have : h ++ (runOf vals ++ post) = [] ++ (h ++ (runOf vals ++ post)) := rfl
    rw [this]
    exact getRange_append_mid rfl (by simp [hh])
  have htail : getRange (h ++ (runOf vals ++ post)) 4 (4 + (runOf vals).length)
      = some (runOf vals) :=
    getRange_append_mid (by simp [hh]) (by simp [hh])
  have hbit : COMPACT &&& COMPACT ≠ 0 := by decide
  have hext : compactExt h (runOf vals) = some (inlineExt vals tombstone) :=
    compactExt_inlineExt tombstone hrun
  simp only [parseRecordTail, hhead, if_pos hbit, ne_eq, not_true_eq_false, if_false, hget,
    Option.bind_eq_bind, Option.bind_some, hlen, htail, hext]

/-- The tail of a full record, read back from an aligned address. -/
lemma parseRecordTail_full {addr : ℕ} {header tail post : Bytes} {exts : List Ext}
    (hhead : leNat (slice header 2 4) = exts.length) (hcount : exts.length < COMPACT)
    (hfits : ∀ e ∈ exts, e.Fits) (hspan : tail.length = tailSpan exts) (haddr : 4 ∣ addr) :
    parseRecordTail addr header (exts.flatMap extBytes ++ (tail ++ post))
      = some (exts, tail, exts.length * EXT_BYTES + tail.length) := by
  have hlen := length_flatMap_extBytes exts
  have hget : getRange (exts.flatMap extBytes ++ (tail ++ post)) 0 (exts.length * EXT_BYTES)
      = some (exts.flatMap extBytes) := by
    have : exts.flatMap extBytes ++ (tail ++ post)
        = [] ++ (exts.flatMap extBytes ++ (tail ++ post)) := rfl
    rw [this]
    exact getRange_append_mid rfl (by rw [hlen]; simp)
  have htail : getRange (exts.flatMap extBytes ++ (tail ++ post)) (exts.length * EXT_BYTES)
      (exts.length * EXT_BYTES + tailSpan exts) = some tail :=
    getRange_append_mid hlen.symm (by rw [hlen, hspan])
  have haddr' : ¬ addr % 4 ≠ 0 := by omega
  simp only [parseRecordTail, hhead, if_neg (and_COMPACT_of_lt hcount), hget, if_neg haddr',
    Option.bind_eq_bind, Option.bind_some, extsOf_flatMap exts hfits, htail, hspan]

/-- **Records round-trip.**  A record is read back from where it was appended, whatever follows;
a full one needs the address it lies at to be aligned. -/
theorem parseRecord_recordBytes {base off : ℕ} {pre key tail post : Bytes} {exts : List Ext}
    {compact : Bool} (hoff : off = pre.length) (hok : RecordOk key exts tail)
    (haddr : 4 ∣ base + off) :
    parseRecord base (pre ++ (recordBytes key exts tail compact ++ post)) off
      = some (key, exts, tail, (recordBytes key exts tail compact).length) := by
  have hklen := hok.klen
  have hcount := hok.count
  set at4 := alignUp (4 + key.length) REC_ALIGN with hat
  -- both forms are a head and what `parse_record_tail` reads
  obtain ⟨n, mid, hn, hbytes, hmid, htailParse⟩ : ∃ (n : ℕ) (mid : Bytes), n < 2 ^ 16 ∧
      recordBytes key exts tail compact
        = recordHead key n ++ (mid ++ (tail ++ padding tail.length REC_ALIGN)) ∧
      4 ∣ mid.length ∧
      ∀ header x : Bytes, leNat (slice header 2 4) = n →
        parseRecordTail (base + (off + at4)) header (mid ++ (tail ++ x))
          = some (exts, tail, mid.length + tail.length) := by
    by_cases h : compact ∧ compacts exts
    · obtain ⟨vals, tombstone, rfl, rfl⟩ := hok.run h.2
      have hrun : (runOf vals).length < COMPACT_RUN := by
        have := h.2
        simp only [compacts, decide_eq_true_eq] at this
        exact this.2.2
      refine ⟨COMPACT, compactHeader (inlineExt vals tombstone), by norm_num [COMPACT], ?_,
        by simp, fun header x hh => ?_⟩
      · rw [recordBytes, if_pos h]; simp
      · rw [parseRecordTail_compact hh hrun, length_compactHeader]
    · refine ⟨exts.length, exts.flatMap extBytes, by norm_num [COMPACT] at hcount ⊢; omega, ?_, ?_,
        fun header x hh => ?_⟩
      · rw [recordBytes, if_neg h]
      · rw [length_flatMap_extBytes]
        exact Dvd.dvd.mul_left (by norm_num [EXT_BYTES]) _
      · have hal : 4 ∣ at4 := dvd_alignUp _ _
        rw [parseRecordTail_full hh hcount hok.fits hok.span (by omega), length_flatMap_extBytes]
  have hheadlen : (recordHead key n).length = at4 := length_recordHead key n
  set buf := pre ++ (recordBytes key exts tail compact ++ post) with hbuf
  have hsplit : buf = pre ++ (leBytes 2 key.length ++ (leBytes 2 n ++ (key ++
      (padding (4 + key.length) REC_ALIGN ++ (mid ++ (tail ++
        (padding tail.length REC_ALIGN ++ post))))))) := by
    rw [hbuf, hbytes, recordHead]; simp only [List.append_assoc]
  have hw : readWord 2 buf off = some key.length := by
    rw [hsplit]; exact readWord_append_mid hoff (by omega)
  have hheader : getRange buf off (off + 4) = some (leBytes 2 key.length ++ leBytes 2 n) := by
    rw [hsplit, ← List.append_assoc (leBytes 2 key.length)]
    exact getRange_append_mid hoff (by simp [hoff])
  have hnAt : leNat (slice (leBytes 2 key.length ++ leBytes 2 n) 2 4) = n := by
    have : leBytes 2 key.length ++ leBytes 2 n
        = leBytes 2 key.length ++ (leBytes 2 n ++ []) := by rw [List.append_nil]
    rw [this, slice_append_mid (by simp) (by simp)]
    exact leNat_leBytes (by omega)
  have hkey : getRange buf (off + 4) (off + 4 + key.length) = some key := by
    have : buf = (pre ++ leBytes 2 key.length ++ leBytes 2 n) ++ (key ++
        (padding (4 + key.length) REC_ALIGN ++ (mid ++ (tail ++
          (padding tail.length REC_ALIGN ++ post))))) := by
      rw [hsplit]; simp only [List.append_assoc]
    rw [this]
    exact getRange_append_mid (by simp [hoff]) (by simp [hoff])
  have hrest : getRange buf (off + at4) buf.length
      = some (mid ++ (tail ++ (padding tail.length REC_ALIGN ++ post))) := by
    have : buf = (pre ++ recordHead key n) ++ ((mid ++ (tail ++
        (padding tail.length REC_ALIGN ++ post))) ++ []) := by
      rw [hsplit, recordHead]; simp only [List.append_assoc, List.append_nil]
    rw [this]
    exact getRange_append_mid (by rw [List.length_append, hheadlen, hoff])
      (by rw [List.append_nil, List.length_append])
  have hal : 4 ∣ at4 := dvd_alignUp _ _
  have hspan : alignUp (off + at4 + (mid.length + tail.length) - off) REC_ALIGN
      = (recordBytes key exts tail compact).length := by
    have hpad := length_padding tail.length (by norm_num [REC_ALIGN] : 0 < REC_ALIGN)
    have h1 : off + at4 + (mid.length + tail.length) - off = (at4 + mid.length) + tail.length := by
      omega
    have hd : REC_ALIGN ∣ at4 + mid.length := dvd_add hal hmid
    rw [h1, alignUp_add (by norm_num [REC_ALIGN]) hd, hbytes]
    simp only [List.length_append, hheadlen]
    omega
  simp only [parseRecord, hw, hheader, hkey, Option.bind_eq_bind, Option.bind_some, ← hat, hrest,
    htailParse _ _ hnAt, hspan]

/-! ## Longer buffers -/

lemma parseRecordTail_append {addr : ℕ} {header rest x : Bytes} {r : List Ext × Bytes × ℕ}
    (h : parseRecordTail addr header rest = some r) :
    parseRecordTail addr header (rest ++ x) = some r := by
  simp only [parseRecordTail, Option.bind_eq_bind] at h ⊢
  by_cases hc : leNat (slice header 2 4) &&& COMPACT ≠ 0
  · rw [if_pos hc] at h ⊢
    by_cases hn : leNat (slice header 2 4) ≠ COMPACT
    · rw [if_pos hn] at h; exact absurd h (by simp)
    · rw [if_neg hn, Option.bind_eq_some_iff] at h
      obtain ⟨hd, hhd, h⟩ := h
      rw [Option.bind_eq_some_iff] at h
      obtain ⟨tail, htail, h⟩ := h
      rw [if_neg hn, getRange_append hhd, Option.bind_some, getRange_append htail,
        Option.bind_some]
      exact h
  · rw [if_neg hc, Option.bind_eq_some_iff] at h
    rw [if_neg hc]
    obtain ⟨bytes, hbytes, h⟩ := h
    rw [getRange_append hbytes, Option.bind_some]
    by_cases ha : addr % 4 ≠ 0
    · rw [if_pos ha] at h; exact absurd h (by simp)
    · rw [if_neg ha, Option.bind_eq_some_iff] at h
      rw [if_neg ha]
      obtain ⟨tail, htail, h⟩ := h
      rw [getRange_append htail, Option.bind_some]
      exact h

/-- **A record read from a buffer is read from any longer one**: a cut only ever takes a record
away, it never changes one. -/
lemma parseRecord_append {base off : ℕ} {buf x : Bytes} {r : ParsedRecord}
    (h : parseRecord base buf off = some r) : parseRecord base (buf ++ x) off = some r := by
  simp only [parseRecord, Option.bind_eq_bind, Option.bind_eq_some_iff] at h
  obtain ⟨klen, hklen, header, hheader, key, hkey, rest, hrest, ⟨exts, tail, used⟩, htail, hr⟩ := h
  obtain ⟨hle, -, hslice⟩ := getRange_eq_some.mp hrest
  have hrest' : getRange (buf ++ x) (off + alignUp (4 + klen) REC_ALIGN) (buf ++ x).length
      = some (rest ++ x) := by
    refine getRange_eq_some.mpr ⟨by rw [List.length_append]; omega, le_refl _, ?_⟩
    rw [slice, List.take_length] at hslice ⊢
    rw [List.drop_append_of_le_length hle, hslice]
  simp only [parseRecord, Option.bind_eq_bind, readWord_append hklen, getRange_append hheader,
    getRange_append hkey, hrest', Option.bind_some, parseRecordTail_append htail]
  exact hr

end Supdb
