import Supdb.FlatIndex
import Supdb.Lib.Trap

/-!
# The flat index on a 64-bit machine

`FlatIndex` computes in `ℕ`; the source computes in words, and an addition that leaves the word ends
the process.  Here every reader of a key section is written a second time as a run: each unchecked
addition, subtraction and multiplication of the source is one that can trap, each `get` one that
misses.

* `Flatindex.rdWord`, `recordKeyRun`, `parseRecordRun` – one record.
* `FlatIndex.parseRun` – the header.
* `FlatIndex.lookupFullRun`, `atFullRun`, `keyAtRun`, `seekWithRun`, `slotOfRun`, `dirSlotOfRun` –
  the reads.

The lemma beside each reader of a record says that inside a buffer a machine can hold it is the
reader of `Record`: it misses where that one misses, and never traps.
-/

namespace Supdb

open StorageLib Run

/-! ## Words and varints -/

namespace Flatindex

/-- `rd_u16`, `rd_u32` and `rd_u64`. -/
def rdWord (n : ℕ) (b : Bytes) (pos : ℕ) : Run Unit ℕ := do
  let hi ← addU pos n
  ofOption ((getRange b pos hi).map leNat)

/-- `align_up`. -/
def alignUpRun (n a : ℕ) : Run Unit ℕ := do
  let up ← addU n a
  let up ← subU up 1
  ok (up / a * a)

end Flatindex

open Flatindex

/-- The loop of `get_uvarint`, from the cursor `pos`. -/
def getUvarintLoop (buf : Bytes) (pos v shift : ℕ) : Run Unit (ℕ × ℕ) :=
  if pos < buf.length then
    index buf pos >>= fun b =>
    addU pos 1 >>= fun _ =>
      let v' := (v ||| ((b.toNat &&& 0x7f) <<< shift)) % 2 ^ 64
      if b.toNat < 0x80 then ok (v', pos + 1)
      else
        addU shift 7 >>= fun shift' =>
          if 64 ≤ shift' then ok (v', pos + 1) else getUvarintLoop buf (pos + 1) v' (shift + 7)
  else ok (v, pos)
termination_by buf.length - pos

/-- `get_uvarint`. -/
def getUvarintRun (buf : Bytes) (pos : ℕ) : Run Unit (ℕ × ℕ) := getUvarintLoop buf pos 0 0

lemma rdWord_eq {n pos : ℕ} (b : Bytes) (h : pos + n < 2 ^ 64) :
    rdWord n b pos = ofOption (readWord n b pos) := by
  rw [rdWord, addU_eq h, ok_bind, readWord]

lemma rdWord_bind_eq {α : Type} {n pos : ℕ} {b : Bytes} {f : ℕ → Run Unit α} {g : ℕ → Option α}
    (h : pos + n < 2 ^ 64) (hf : ∀ v, readWord n b pos = some v → f v = ofOption (g v)) :
    (rdWord n b pos >>= f) = ofOption (readWord n b pos >>= g) := by
  rw [rdWord_eq b h]
  exact ofOption_bind_eq hf

lemma alignUpRun_eq {n a : ℕ} (h : n + a < 2 ^ 64) (ha : 0 < a) :
    alignUpRun n a = ok (alignUp n a) := by
  rw [alignUpRun, addU_eq h, ok_bind, subU_eq (by omega), ok_bind, alignUp]

lemma getUvarintLoop_eq {buf : Bytes} (pos v shift : ℕ) (hlen : buf.length < 2 ^ 64)
    (hs : shift < 64) :
    getUvarintLoop buf pos v shift = ok (match readUvarint (buf.drop pos) pos v shift with
      | .whole v p => (v, p)
      | .short v p => (v, p)) := by
  induction hn : buf.length - pos generalizing pos v shift with
  | zero =>
      rw [getUvarintLoop, if_neg (by omega), List.drop_eq_nil_of_le (by omega)]
      rfl
  | succ n ih =>
      have hlt : pos < buf.length := by omega
      rw [getUvarintLoop, if_pos hlt, index_eq hlt, ok_bind, addU_eq (by omega), ok_bind,
        List.drop_eq_getElem_cons hlt, readUvarint]
      dsimp only
      by_cases hb : buf[pos].toNat < 0x80
      · rw [if_pos hb, if_pos hb]
      · rw [if_neg hb, if_neg hb, addU_eq (by omega), ok_bind]
        by_cases hend : 64 ≤ shift + 7
        · rw [if_pos hend, if_pos (by omega)]
        · rw [if_neg hend, if_neg (by omega), ih (pos + 1) _ (shift + 7) (by omega) (by omega)]

lemma getUvarintRun_eq {buf : Bytes} (hlen : buf.length < 2 ^ 64) (pos : ℕ) :
    getUvarintRun buf pos = ok (Index.getUvarint buf pos) :=
  getUvarintLoop_eq pos 0 0 hlen (by norm_num)

/-! ## One record -/

/-- The walk of `compact_ext` over a run's prefixes. -/
def walkPrefixesRun (run : Bytes) : ℕ → ℕ → Run Unit ℕ
  | 0, p => ok p
  | k + 1, p => do
      let (l, q) ← getUvarintRun run p
      let p ← ofOption (checked (q + l))
      if run.length ≤ p then err () else walkPrefixesRun run k p

/-- `compact_ext`. -/
def compactExtRun (h run : Bytes) : Run Unit Ext := do
  let len := leNat (h.take 2)
  let c := leNat (slice h 2 4)
  let records := c &&& (2 ^ 14 - 1)
  let fixed : Bool := c &&& C_FIXED ≠ 0
  let tombstone : Bool := c &&& C_TOMB ≠ 0
  if run.length ≠ len ∨ max len 1 < records then err ()
  else
    let last ←
      if records ≤ 1 then ok 0
      else if fixed then
        if len % records ≠ 0 then err ()
        else do
          let n ← subU records 1
          mulU n (len / records)
      else do
        let n ← subU records 1
        walkPrefixesRun run n 0
    ok ⟨Ext.INLINE, 0, len, last, countWord records fixed tombstone⟩

/-- The loop of `parse_record_tail` over a full record's extents. -/
def tailSpanRun : List Ext → ℕ → Run Unit ℕ
  | [], t => ok t
  | e :: exts, t => do
      if e.isInline then
        let hi ← ofOption (checked (e.off + e.len))
        tailSpanRun exts (max t hi)
      else tailSpanRun exts t

/-- `parse_record_tail`. -/
def parseRecordTailRun (addr : ℕ) (header rest : Bytes) : Run Unit (List Ext × Bytes × ℕ) := do
  let n := leNat (slice header 2 4)
  if n &&& COMPACT ≠ 0 then
    if n ≠ COMPACT then err ()
    else
      let h ← ofOption (getRange rest 0 4)
      let len := leNat (h.take 2)
      let hi ← ofOption (checked (4 + len))
      let tail ← ofOption (getRange rest 4 hi)
      let e ← compactExtRun h tail
      let used ← addU 4 len
      ok ([e], tail, used)
  else
    let hi ← ofOption (checked (n * EXT_BYTES))
    let bytes ← ofOption (getRange rest 0 hi)
    if addr % 4 ≠ 0 then err ()
    else
      let exts := extsOf n bytes
      let span ← tailSpanRun exts 0
      let tAt ← mulU n EXT_BYTES
      let hi ← ofOption (checked (tAt + span))
      let tail ← ofOption (getRange rest tAt hi)
      let used ← addU tAt span
      ok (exts, tail, used)

/-- `parse_record`. -/
def parseRecordRun (base : ℕ) (buf : Bytes) (off : ℕ) : Run Unit ParsedRecord := do
  let klen ← rdWord 2 buf off
  let hi ← ofOption (checked (off + 4))
  let header ← ofOption (getRange buf off hi)
  let lo ← addU off 4
  let hi ← addU lo klen
  let key ← ofOption (getRange buf lo hi)
  let head ← addU 4 klen
  let head ← alignUpRun head REC_ALIGN
  let eAt ← ofOption (checked (off + head))
  let rest ← ofOption (getRange buf eAt buf.length)
  let (exts, tail, used) ← parseRecordTailRun (base + eAt) header rest
  let hi ← addU eAt used
  let len ← subU hi off
  let len ← alignUpRun len REC_ALIGN
  ok (key, exts, tail, len)

/-- `record_key`. -/
def recordKeyRun (buf : Bytes) (off : ℕ) : Run Unit Bytes := do
  let klen ← rdWord 2 buf off
  let nAt ← addU off 2
  let n ← rdWord 2 buf nAt
  if n &&& COMPACT ≠ 0 ∧ n ≠ COMPACT then err ()
  else
    let lo ← addU off 4
    let hi ← addU lo klen
    ofOption (getRange buf lo hi)

/-! ## The readers without traps -/

lemma ofOption_checked {n : ℕ} (h : n < 2 ^ 64) : ofOption (checked n) = ok n := by
  rw [checked, if_pos h, ofOption_some]

lemma walkPrefixesRun_eq {run : Bytes} (hlen : run.length < 2 ^ 64) (k p : ℕ) :
    walkPrefixesRun run k p = ofOption (walkPrefixes run k p) := by
  induction k generalizing p with
  | zero => rfl
  | succ k ih =>
      rw [walkPrefixesRun, walkPrefixes, getUvarintRun_eq hlen, ok_bind]
      generalize Index.getUvarint run p = r
      obtain ⟨l, q⟩ := r
      dsimp only
      by_cases hfit : q + l < 2 ^ 64
      · rw [ofOption_checked hfit, ok_bind, if_neg (by omega : ¬ 2 ^ 64 ≤ q + l), ih]
        split_ifs
        · rfl
        · rfl
      · rw [checked, if_neg hfit, if_pos (by omega : 2 ^ 64 ≤ q + l)]
        rfl

lemma compactExtRun_eq (h : Bytes) {run : Bytes} (hlen : run.length < 2 ^ 64) :
    compactExtRun h run = ofOption (compactExt h run) := by
  have hw : leNat (h.take 2) < 256 ^ 2 := leNat_lt_of_length (by simp)
  rw [compactExtRun, compactExt]
  dsimp only
  generalize leNat (h.take 2) = len at hw
  generalize leNat (slice h 2 4) = c
  generalize hr : c &&& (2 ^ 14 - 1) = records
  have hrec : records ≤ 2 ^ 14 - 1 := by rw [← hr]; exact Nat.and_le_right
  split_ifs with hbad hone hfix hmod
  · rfl
  · rfl
  · rfl
  · rw [subU_eq (by omega), ok_bind, mulU_eq]
    · rfl
    · calc (records - 1) * (len / records) ≤ 2 ^ 14 * 256 ^ 2 :=
            Nat.mul_le_mul (by omega) ((Nat.div_le_self _ _).trans hw.le)
        _ < 2 ^ 64 := by norm_num
  · rw [subU_eq (by omega), ok_bind, walkPrefixesRun_eq hlen]
    cases walkPrefixes run (records - 1) 0 with
    | none => rfl
    | some last => rfl

lemma extOf_fits (b : Bytes) : (extOf b).Fits := by
  have hw : ∀ i j, j ≤ i + 4 → leNat (slice b i j) < 2 ^ 32 :=
    fun i j h => lt_of_lt_of_le (leNat_slice_lt b h) (by norm_num)
  exact ⟨hw 0 4 (by omega), hw 4 8 (by omega), hw 8 12 (by omega), hw 12 16 (by omega),
    hw 16 20 (by omega)⟩

lemma extsOf_fits (n : ℕ) (b : Bytes) : ∀ e ∈ extsOf n b, e.Fits := by
  induction n generalizing b with
  | zero => simp [extsOf]
  | succ n ih =>
      intro e he
      rw [extsOf, List.mem_cons] at he
      rcases he with rfl | he
      · exact extOf_fits _
      · exact ih _ e he

/-- The fold of `tailSpan` from any start. -/
lemma tailSpanRun_eq {exts : List Ext} (hfits : ∀ e ∈ exts, e.Fits) (t : ℕ) :
    tailSpanRun exts t
      = ok (exts.foldl (fun t e => if e.isInline then max t (e.off + e.len) else t) t) := by
  induction exts generalizing t with
  | nil => rfl
  | cons e exts ih =>
      have he := hfits e (List.mem_cons_self ..)
      have hrest : ∀ e ∈ exts, e.Fits := fun e he => hfits e (List.mem_cons_of_mem _ he)
      have hsum : e.off + e.len < 2 ^ 64 := by
        have := he.off
        have := he.len
        omega
      rw [tailSpanRun, List.foldl_cons]
      by_cases hin : e.isInline
      · rw [if_pos hin, if_pos hin, ofOption_checked hsum, ok_bind, ih hrest]
      · rw [if_neg hin, if_neg hin, ih hrest]

lemma tailSpan_lt {exts : List Ext} (hfits : ∀ e ∈ exts, e.Fits) : tailSpan exts < 2 ^ 33 := by
  have hfold : ∀ t < 2 ^ 33, exts.foldl
      (fun t e => if e.isInline then max t (e.off + e.len) else t) t < 2 ^ 33 := by
    induction exts with
    | nil => exact fun t ht => ht
    | cons e exts ih =>
        intro t ht
        have he := hfits e (List.mem_cons_self ..)
        have := he.off
        have := he.len
        rw [List.foldl_cons]
        refine ih (fun e he => hfits e (List.mem_cons_of_mem _ he)) _ ?_
        split_ifs
        · exact max_lt ht (by omega)
        · exact ht
  exact hfold 0 (by norm_num)

lemma parseRecordTailRun_eq (addr : ℕ) (header : Bytes) {rest : Bytes}
    (hlen : rest.length < 2 ^ 64) :
    parseRecordTailRun addr header rest = ofOption (parseRecordTail addr header rest) := by
  have hn : leNat (slice header 2 4) < 256 ^ 2 := leNat_slice_lt header (by omega)
  rw [parseRecordTailRun, parseRecordTail]
  dsimp only
  generalize leNat (slice header 2 4) = n at hn
  by_cases hc : n &&& COMPACT ≠ 0
  · rw [if_pos hc, if_pos hc]
    by_cases hne : n ≠ COMPACT
    · rw [if_pos hne, if_pos hne]
      rfl
    · rw [if_neg hne, if_neg hne]
      refine ofOption_bind_eq ?_
      intro h hh
      have hw : leNat (h.take 2) < 256 ^ 2 := leNat_lt_of_length (by simp)
      rw [ofOption_checked (by omega), ok_bind]
      refine ofOption_bind_eq ?_
      intro tail htail
      obtain ⟨-, -, htake⟩ := getRange_eq_some.mp htail
      have htlen : tail.length < 2 ^ 64 := by
        rw [← htake, length_slice]
        omega
      rw [compactExtRun_eq h htlen]
      refine ofOption_bind_eq ?_
      intro e he
      rw [addU_eq (by omega), ok_bind, ofOption_some]
  · have hmul : n * EXT_BYTES < 2 ^ 64 := by
      rw [EXT_BYTES]
      omega
    rw [if_neg hc, if_neg hc, ofOption_checked hmul, ok_bind]
    refine ofOption_bind_eq ?_
    intro bytes hbytes
    by_cases hal : addr % 4 ≠ 0
    · rw [if_pos hal, if_pos hal]
      rfl
    · have hfits := extsOf_fits n bytes
      have hspan := tailSpan_lt hfits
      have hsum : n * EXT_BYTES + tailSpan (extsOf n bytes) < 2 ^ 64 := by
        rw [EXT_BYTES]
        omega
      rw [if_neg hal, if_neg hal, tailSpanRun_eq hfits 0, ok_bind, mulU_eq hmul,
        ok_bind, ← tailSpan, ofOption_checked hsum, ok_bind]
      refine ofOption_bind_eq ?_
      intro tail htail
      rw [addU_eq hsum, ok_bind, ofOption_some]

lemma parseRecordTail_used {addr : ℕ} {header rest : Bytes} {exts : List Ext} {tail : Bytes}
    {used : ℕ}
    (h : parseRecordTail addr header rest = some (exts, tail, used)) : used ≤ rest.length := by
  rw [parseRecordTail] at h
  dsimp only at h
  split_ifs at h with hc hne hal
  · simp only [Option.bind_eq_bind, Option.bind_eq_some_iff, Option.some.injEq, Prod.mk.injEq] at h
    obtain ⟨hd, -, tl, htl, e, -, -, -, hused⟩ := h
    obtain ⟨-, hle, -⟩ := getRange_eq_some.mp htl
    omega
  · simp at h
  · simp only [Option.bind_eq_bind, Option.bind_eq_some_iff, Option.some.injEq, Prod.mk.injEq] at h
    obtain ⟨bytes, -, tl, htl, -, -, hused⟩ := h
    obtain ⟨-, hle, -⟩ := getRange_eq_some.mp htl
    omega

lemma parseRecordRun_eq (base : ℕ) {buf : Bytes} {off : ℕ} (hlen : buf.length < 2 ^ 63)
    (hoff : off < 2 ^ 63) : parseRecordRun base buf off = ofOption (parseRecord base buf off) := by
  rw [parseRecordRun, parseRecord, rdWord_eq buf (by omega)]
  refine ofOption_bind_eq ?_
  intro klen hklen
  have hk : klen < 256 ^ 2 := readWord_lt hklen
  rw [ofOption_checked (by omega), ok_bind]
  refine ofOption_bind_eq ?_
  intro header hheader
  rw [addU_eq (by omega), ok_bind, addU_eq (by omega), ok_bind]
  refine ofOption_bind_eq ?_
  intro key hkey
  have hup := alignUp_lt (4 + klen) (by norm_num [REC_ALIGN] : 0 < REC_ALIGN)
  have hal : REC_ALIGN = 4 := rfl
  rw [addU_eq (by omega), ok_bind, alignUpRun_eq (by omega) (by omega), ok_bind,
    ofOption_checked (by omega), ok_bind]
  dsimp only
  refine ofOption_bind_eq ?_
  intro rest hrest
  obtain ⟨hle, -, htake⟩ := getRange_eq_some.mp hrest
  have hrlen : rest.length + (off + alignUp (4 + klen) REC_ALIGN) = buf.length := by
    rw [← htake, length_slice]
    omega
  rw [parseRecordTailRun_eq _ _ (by omega)]
  refine ofOption_bind_eq ?_
  rintro ⟨exts, tail, used⟩ hused
  have hu := parseRecordTail_used hused
  dsimp only
  rw [addU_eq (by omega), ok_bind, subU_eq (by omega), ok_bind, alignUpRun_eq (by omega) (by omega),
    ok_bind, ofOption_some]

lemma recordKeyRun_eq {buf : Bytes} {off : ℕ} (hoff : off < 2 ^ 63) :
    recordKeyRun buf off = ofOption (FlatIndex.recordKey buf off) := by
  rw [recordKeyRun, FlatIndex.recordKey, rdWord_eq buf (by omega)]
  refine ofOption_bind_eq ?_
  intro klen hklen
  have hk : klen < 256 ^ 2 := readWord_lt hklen
  rw [addU_eq (by omega), ok_bind, rdWord_eq buf (by omega)]
  refine ofOption_bind_eq ?_
  intro n hn
  split_ifs
  · rfl
  · rw [addU_eq (by omega), ok_bind, addU_eq (by omega), ok_bind]

/-! ## The header -/

namespace FlatIndex

/-- The fence of `parse`. -/
def parseFenceRun (sec : Bytes) (nkeys fenceOffsOff fenceN fenceStride : ℕ)
    (regions : List (ℕ × ℕ)) : Run Unit ((ℕ × ℕ) × (ℕ × ℕ) × ℕ × ℕ) := do
  if fenceN = 0 ∨ fenceStride = 0 ∨ nkeys < fenceN then err ()
  else if fenceN ≠ divCeil nkeys fenceStride then err ()
  else
    let n ← ofOption (checked (fenceN + 1))
    let len ← ofOption (checked (n * 4))
    let offsEnd ← ofOption (checked (fenceOffsOff + len))
    if fenceOffsOff < HEADER ∨ sec.length < offsEnd then err ()
    else
      let offs ← ofOption (getRange sec fenceOffsOff offsEnd)
      let lastAt ← mulU fenceN 4
      let blobLen ← rdWord 4 offs lastAt
      let blobEnd ← ofOption (checked (offsEnd + blobLen))
      if sec.length < blobEnd then err ()
      else if regions.any (fun r => overlaps (fenceOffsOff, blobEnd) r) then err ()
      else ok ((fenceOffsOff, offsEnd), (offsEnd, blobEnd), fenceN, fenceStride)

/-- `FlatIndex::parse`. -/
def parseRun (sec : Bytes) : Run Unit FlatIndex :=
  if ¬ isFlat sec then err ()
  else do
    let generation ← rdWord 8 sec 8
    let prevGen ← rdWord 8 sec 16
    let prevTs ← rdWord 8 sec 24
    let prevOff ← rdWord 8 sec 32
    let prevStored ← rdWord 8 sec 40
    let prevUnc ← rdWord 8 sec 48
    let nkeys ← rdWord 8 sec 56
    let hashCap ← rdWord 8 sec 64
    let hashOff ← rdWord 8 sec 72
    let dirBase ← rdWord 8 sec 80
    let recsOff ← rdWord 8 sec 88
    let recsLen ← rdWord 8 sec 96
    let recsCap ← rdWord 8 sec 104
    let recsCap := max recsCap recsLen
    let bump ← rdWord 8 sec 112
    let bump ← clampU bump recsLen recsCap
    let fenceOffsOff ← rdWord 8 sec 120
    let fenceN ← rdWord 8 sec 128
    let fenceStride ← rdWord 8 sec 136
    let dirCap ← rdWord 8 sec 144
    let dirState ← rdWord 8 sec 152
    if hashCap = 0 ∨ ¬ hashCap.isPowerOfTwo then err ()
    else
      let (dirOff, nkeys) ← ofOption (liveDir dirBase nkeys dirCap dirState)
      let hashLen ← ofOption (checked (hashCap * SLOT))
      let hashEnd ← ofOption (checked (hashOff + hashLen))
      let dirEnd ←
        if dirCap = 0 then do
          let len ← ofOption (checked (nkeys * 4))
          ofOption (checked (dirOff + len))
        else do
          let len ← ofOption (checked (dirCap * 8))
          addU dirBase len
      let recsEnd ← ofOption (checked (recsOff + recsCap))
      let regions := [(hashOff, hashEnd), (dirOff, dirEnd), (recsOff, recsEnd)]
      if regions.any (fun r => r.1 < HEADER ∨ sec.length < r.2 ∨ r.2 < r.1) then err ()
      else if overlaps (hashOff, hashEnd) (dirOff, dirEnd) ∨
          overlaps (hashOff, hashEnd) (recsOff, recsEnd) ∨
          overlaps (dirOff, dirEnd) (recsOff, recsEnd) then err ()
      else if hashCap < nkeys then err ()
      else
        let fence ← (parseFenceRun sec nkeys fenceOffsOff fenceN fenceStride regions).attempt
        let (fenceOffs, fenceBlob, fenceN, fenceStride) := fence.getD ((0, 0), (0, 0), 0, 0)
        let (crcOff, pieceShift) ←
          match ← ofOption (checksumWords sec) with
          | some (off, shift) =>
              if off < HEADER ∨ sec.length < off then err () else ok (off, shift)
          | none => ok (0, 0)
        let mask ← subU hashCap 1
        ok
          { hash := (hashOff, hashEnd), dir := (dirOff, dirEnd), dirCap := dirCap,
            dirBase := dirBase, recs := (recsOff, recsEnd), hashCap := hashCap,
            mask := mask, nkeys := nkeys,
            meanRecordLen := max (recsLen / max nkeys 1) 1, recsOff := recsOff,
            recsCap := recsCap, bump := bump, fenceOffs := fenceOffs, fenceBlob := fenceBlob,
            fenceN := fenceN, fenceStride := fenceStride, generation := generation,
            prev := if 0 < prevOff then some (prevGen, prevTs, prevOff, prevStored, prevUnc)
              else none
            crcOff := crcOff, pieceShift := pieceShift }

/-! ## The reads -/

/-- `record_full`. -/
def recordFullRun (base : ℕ) (fi : FlatIndex) (sec : Bytes) (off : ℕ) :
    Run Unit (Bytes × List Ext × Bytes) := do
  let recs ← ofOption (region sec fi.recs)
  let (key, exts, tail, _) ← parseRecordRun (base + fi.recs.1) recs off
  ok (key, exts, tail)

/-- What a slot's word answers for `key`; nothing where it is another key's. -/
def slotRecordRun (base : ℕ) (fi : FlatIndex) (sec key : Bytes) (tag packed : ℕ) :
    Run Unit (Option (List Ext × Bytes)) :=
  if packed >>> 56 = tag then do
    match ← (recordFullRun base fi sec (packed &&& 0x00ffffffffffffff)).attempt with
    | some (k, exts, tail) => ok (if k = key then some (exts, tail) else none)
    | none => ok none
  else ok none

/-- The probe of `lookup_full` and `slot_of`: what a key's own slot answers, by the slot's number.
-/
def probeRun (base : ℕ) (fi : FlatIndex) (sec hash key : Bytes) (tag : ℕ) :
    ℕ → ℕ → Run Unit (ℕ × List Ext × Bytes)
  | 0, _ => err ()
  | fuel + 1, s => do
      let pos ← mulU s SLOT
      let packed ← rdWord 8 hash pos
      if packed = 0 then err ()
      else
        match ← slotRecordRun base fi sec key tag packed with
        | some r => ok (pos, r)
        | none => do
            let s ← addU s 1
            probeRun base fi sec hash key tag fuel (s &&& fi.mask)

/-- `lookup_full`. -/
def lookupFullRun (base : ℕ) (fi : FlatIndex) (sec key : Bytes) (hashOf : Bytes → UInt64) :
    Run Unit (List Ext × Bytes) := do
  let hash ← ofOption (region sec fi.hash)
  let h := (hashOf key).toNat
  let r ← probeRun base fi sec hash key (tagOf h) fi.hashCap (h &&& fi.mask)
  ok r.2

/-- `slot_of`: where in the section the key's slot lies. -/
def slotOfRun (base : ℕ) (fi : FlatIndex) (sec key : Bytes) (hashOf : Bytes → UInt64) :
    Run Unit ℕ := do
  let hash ← ofOption (region sec fi.hash)
  let h := (hashOf key).toNat
  let r ← probeRun base fi sec hash key (tagOf h) fi.hashCap (h &&& fi.mask)
  addU fi.hash.1 r.1

/-- `at_full`. -/
def atFullRun (base : ℕ) (fi : FlatIndex) (sec : Bytes) (rank : ℕ) :
    Run Unit (Bytes × List Ext × Bytes) := do
  let recs ← ofOption (region sec fi.recs)
  let dir ← ofOption (region sec fi.dir)
  if fi.nkeys ≤ rank then err ()
  else
    let pos ← mulU rank 4
    let off ← rdWord 4 dir pos
    let (key, exts, tail, _) ← parseRecordRun (base + fi.recs.1) recs off
    ok (key, exts, tail)

/-- `key_at`. -/
def keyAtRun (fi : FlatIndex) (sec : Bytes) (rank : ℕ) : Run Unit Bytes :=
  if fi.nkeys ≤ rank then err ()
  else do
    let recs ← ofOption (region sec fi.recs)
    let dir ← ofOption (region sec fi.dir)
    let pos ← mulU rank 4
    let off ← rdWord 4 dir pos
    recordKeyRun recs off

/-- `fence_key`. -/
def fenceKeyRun (fi : FlatIndex) (sec : Bytes) (i : ℕ) : Run Unit Bytes :=
  if fi.fenceN ≤ i then err ()
  else do
    let offs ← ofOption (region sec fi.fenceOffs)
    let aAt ← mulU i 4
    let a ← rdWord 4 offs aAt
    let next ← addU i 1
    let bAt ← mulU next 4
    let b ← rdWord 4 offs bAt
    if b < a then err ()
    else
      let blob ← ofOption (region sec fi.fenceBlob)
      ofOption (getRange blob a b)

/-- The loop of `fence_window`. -/
def fenceLoopRun (fi : FlatIndex) (sec key : Bytes) (lo hi : ℕ) : Run Unit ℕ :=
  if lo < hi then
    addU lo hi >>= fun _ =>
    (fenceKeyRun fi sec ((lo + hi) / 2)).attempt >>= fun k =>
      if isLess k key then
        addU ((lo + hi) / 2) 1 >>= fun _ => fenceLoopRun fi sec key ((lo + hi) / 2 + 1) hi
      else fenceLoopRun fi sec key lo ((lo + hi) / 2)
  else ok lo
termination_by hi - lo
decreasing_by all_goals omega

/-- `fence_window`. -/
def fenceWindowRun (fi : FlatIndex) (sec key : Bytes) : Run Unit (ℕ × ℕ) :=
  if fi.fenceN = 0 ∨ fi.fenceStride = 0 then ok (0, fi.nkeys)
  else do
    let lo ← fenceLoopRun fi sec key 0 fi.fenceN
    let start ← mulU (lo - 1) fi.fenceStride
    let stop ← mulU lo fi.fenceStride
    ok (start, max (min stop fi.nkeys) start)

/-- `search`. -/
def searchRun (fi : FlatIndex) (sec key : Bytes) (lo hi : ℕ) : Run Unit ℕ :=
  if lo < hi then
    subU hi lo >>= fun _ =>
    addU lo ((hi - lo) / 2) >>= fun _ =>
    (keyAtRun fi sec (lo + (hi - lo) / 2)).attempt >>= fun k =>
      if isLess k key then
        addU (lo + (hi - lo) / 2) 1 >>= fun _ => searchRun fi sec key (lo + (hi - lo) / 2 + 1) hi
      else searchRun fi sec key lo (lo + (hi - lo) / 2)
  else ok lo
termination_by hi - lo
decreasing_by all_goals omega

/-- `brackets`. -/
def bracketsRun (fi : FlatIndex) (sec key : Bytes) (r : ℕ) : Run Unit Bool :=
  if fi.nkeys < r then ok false
  else do
    let below ←
      if 0 < r then do
        let before ← subU r 1
        let k ← (keyAtRun fi sec before).attempt
        ok (isLess k key)
      else ok true
    if ¬ below then ok false
    else if r < fi.nkeys then do
      match ← (keyAtRun fi sec r).attempt with
      | some k => ok (¬ k < key)
      | none => ok false
    else ok true

/-- `seek_with`. -/
def seekWithRun (fi : FlatIndex) (sec key : Bytes) (fence : Bool) : Run Unit ℕ :=
  if fence ∧ 0 < fi.fenceN then do
    let (lo, hi) ← fenceWindowRun fi sec key
    let r ← searchRun fi sec key lo hi
    if ← bracketsRun fi sec key r then ok r else searchRun fi sec key 0 fi.nkeys
  else searchRun fi sec key 0 fi.nkeys

/-- `dir_slot_of`: where in the section the key's directory entry lies. -/
def dirSlotOfRun (fi : FlatIndex) (sec key : Bytes) : Run Unit ℕ := do
  let rank ← seekWithRun fi sec key true
  if fi.nkeys ≤ rank then err ()
  else
    let k ← keyAtRun fi sec rank
    if k ≠ key then err ()
    else
      let pos ← mulU rank 4
      addU fi.dir.1 pos

end FlatIndex

end Supdb
