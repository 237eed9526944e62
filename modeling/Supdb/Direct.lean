import Supdb.SegmentWriter
import Supdb.Wal

/-!
# Direct segments and their recovery

A direct segment is a log and a segment at once: its record stream is what a finished segment's key
section starts with, and a commit marker behind each batch makes the stream recoverable before the
segment is finished.  `recoverDirect` walks the stream from raw bytes, record by record, and keeps
what stands before the last marker whose checksum, length and count agree with the bytes before it.

* `recoverDirect` – the walk, over a buffer the allocator put at address `base`.
* `DirectLog` – a marking writer and what has been written through it.
* `recoverDirect_cut` – **recovery is prefix-exact**: over any prefix of the stream it returns the
  pairs of exactly the batches whose marker the prefix holds.
-/

namespace Supdb

open StorageLib SegmentWriter

/-! ## The recovery walk -/

/-- What the walk finds at a position: the end of what it can use, a marker that agrees, or a
record of one inline value and its length. -/
inductive RecoverStep where
  | stop
  | marked
  | record (key value : Bytes) (len : ℕ)

/-- The value of a record with one inline extent. -/
def recoverValue (e : Ext) (tail : Bytes) : Option Bytes := do
  let run ← getRange tail e.off (e.off + e.len)
  if e.count &&& Ext.FIXED ≠ 0 then some run
  else
    let (vlen, q) ← Db.getUvarint run 0
    getRange run q (q + vlen)

/-- One turn of the walk at `p`, the batch having begun at `batch` with `n` records recovered. -/
def recoverStep (base : ℕ) (buf : Bytes) (p batch n : ℕ) : RecoverStep :=
  if leNat (slice buf p (p + 2)) = 0 ∧ leNat (slice buf (p + 2) (p + 4)) = 0 then
    if buf.length < p + DIRECT_MARK_LEN ∨ slice buf (p + 4) (p + 8) ≠ DIRECT_MARK then .stop
    else if u32At buf (p + 12) ≠ p - batch ∨ u64At buf (p + 16) ≠ n ∨
        u32At buf (p + 8) ≠ (crc32 (slice buf batch p)).toNat then .stop
    else .marked
  else
    match parseRecord base buf p with
    | some (key, [e], tail, len) =>
        if ¬ e.isInline ∨ e.isTombstone then .stop
        else
          match recoverValue e tail with
          | some value => .record key value len
          | none => .stop
    | _ => .stop

lemma parseRecord_len_pos {base off : ℕ} {buf : Bytes} {r : ParsedRecord}
    (h : parseRecord base buf off = some r) : 0 < r.2.2.2 := by
  simp only [parseRecord, Option.bind_eq_bind, Option.bind_eq_some_iff] at h
  obtain ⟨klen, -, _, -, _, -, _, -, ⟨_, _, used⟩, -, hr⟩ := h
  have h1 := le_alignUp (4 + klen) (by norm_num [REC_ALIGN] : 0 < REC_ALIGN)
  have h2 := le_alignUp (off + alignUp (4 + klen) REC_ALIGN + used - off)
    (by norm_num [REC_ALIGN] : 0 < REC_ALIGN)
  rw [Option.some.injEq] at hr
  rw [← hr]
  exact lt_of_lt_of_le (by omega) h2

lemma recoverStep_record_pos {base p batch n len : ℕ} {buf key value : Bytes}
    (h : recoverStep base buf p batch n = .record key value len) : 0 < len := by
  unfold recoverStep at h
  split at h
  · split_ifs at h
  · split at h
    · rename_i hparse
      split_ifs at h
      split at h
      · injection h with _ _ hlen
        rw [← hlen]
        exact parseRecord_len_pos hparse
      · exact absurd h (by simp)
    · exact absurd h (by simp)

/-- The walk of `recover_direct`. -/
def recoverLoop (base : ℕ) (buf : Bytes) (p batch : ℕ) (out : List (Bytes × Bytes))
    (committed : ℕ) : List (Bytes × Bytes) :=
  if p + 4 ≤ buf.length then
    match _h : recoverStep base buf p batch out.length with
    | .stop => out.take committed
    | .marked => recoverLoop base buf (p + DIRECT_MARK_LEN) (p + DIRECT_MARK_LEN) out out.length
    | .record key value len =>
        recoverLoop base buf (p + len) batch (out ++ [(key, value)]) committed
  else out.take committed
termination_by buf.length - p
decreasing_by
  · simp only [DIRECT_MARK_LEN]; omega
  · have := recoverStep_record_pos _h
    omega

/-- `recover_direct` of a file holding `buf`, read to address `base`. -/
def recoverDirect (base : ℕ) (buf : Bytes) : List (Bytes × Bytes) :=
  recoverLoop base buf (SUPER + HEADER) (SUPER + HEADER) [] 0

/-! ## The bytes of the stream -/

/-- The record of a key with one inline value. -/
def recordOf (compact : Bool) (r : Bytes × Bytes) : Bytes :=
  recordBytes r.1 [inlineExt [r.2] false] (runOf [r.2]) compact

/-- The records of a batch. -/
def recordsBytes (compact : Bool) (rs : List (Bytes × Bytes)) : Bytes :=
  rs.flatMap (recordOf compact)

/-- The marker behind a batch, `n` records before it. -/
def markerOf (compact : Bool) (n : ℕ) (rs : List (Bytes × Bytes)) : Bytes :=
  markerBytes (crc32 (recordsBytes compact rs)) (recordsBytes compact rs).length (n + rs.length)

/-- The stream of closed batches, `n` records before them. -/
def directStream (compact : Bool) : ℕ → List (List (Bytes × Bytes)) → Bytes
  | _, [] => []
  | n, b :: bs =>
      recordsBytes compact b ++ (markerOf compact n b ++ directStream compact (n + b.length) bs)

/-- A pair the stream can carry: the key fits its length field, and the run its extent's. -/
def PairFits (r : Bytes × Bytes) : Prop := r.1.length ≤ 65535 ∧ (runOf [r.2]).length < 2 ^ 32

@[simp] lemma length_markerBytes (crc : BitVec 32) (len count : ℕ) :
    (markerBytes crc len count).length = DIRECT_MARK_LEN := by
  simp [markerBytes, DIRECT_MARK, DIRECT_MARK_LEN]

lemma recordsBytes_cons (compact : Bool) (r : Bytes × Bytes) (rs : List (Bytes × Bytes)) :
    recordsBytes compact (r :: rs) = recordOf compact r ++ recordsBytes compact rs :=
  List.flatMap_cons

lemma dvd_length_recordsBytes (compact : Bool) (rs : List (Bytes × Bytes)) :
    4 ∣ (recordsBytes compact rs).length := by
  induction rs with
  | nil => exact dvd_zero 4
  | cons r rs ih =>
      rw [recordsBytes_cons, List.length_append]
      exact dvd_add (dvd_length_recordBytes _ _ _ _) ih

lemma recordOk_of_pairFits {r : Bytes × Bytes} (h : PairFits r) :
    RecordOk r.1 [inlineExt [r.2] false] (runOf [r.2]) where
  klen := h.1
  count := by norm_num [COMPACT]
  fits := by
    intro e he
    rw [List.mem_singleton] at he
    subst he
    exact inlineExt_fits (by norm_num) h.2 (by rw [lastOf_singleton]; norm_num)
  span := by simp [tailSpan, inlineExt, Ext.isInline]
  run := fun _ => ⟨[r.2], false, rfl, rfl⟩

/-- The value of a record is found again, fixed run or prefixed. -/
lemma recoverValue_inlineExt (v : Bytes) :
    recoverValue (inlineExt [v] false) (runOf [v]) = some v := by
  have hcount : (inlineExt [v] false).count &&& Ext.FIXED ≠ 0 ↔ fixedOf [v] = true :=
    flagWord_fst (fixedOf [v]) false (by norm_num)
  have hrun : getRange (runOf [v]) (inlineExt [v] false).off
      ((inlineExt [v] false).off + (inlineExt [v] false).len) = some (runOf [v]) := by
    refine getRange_eq_some.mpr ⟨Nat.le_add_right _ _, ?_, ?_⟩
    · simp [inlineExt]
    · simp [inlineExt]
  simp only [recoverValue, hrun, Option.bind_eq_bind, Option.bind_some, hcount]
  by_cases hv : v = []
  · subst hv
    rw [runOf_singleton_nil]
    decide
  · have hpos : 0 < v.length := List.length_pos_iff.mpr hv
    rw [fixedOf_singleton, if_pos (by simpa using hpos), runOf_singleton_of_ne hv]

/-! ## One turn -/

section Turn

variable {base p batch n : ℕ} {buf pre rest : Bytes}

lemma recordHead_append (key : Bytes) (m : ℕ) (z : Bytes) :
    recordHead key m ++ z = leBytes 2 key.length ++ (leBytes 2 m ++
      (key ++ (padding (4 + key.length) REC_ALIGN ++ z))) := by
  simp only [recordHead, List.append_assoc]

/-- The two words a record starts with. -/
lemma recordOf_head (compact : Bool) (r : Bytes × Bytes) :
    ∃ (m : ℕ) (y : Bytes), m ≠ 0 ∧ m < 2 ^ 16 ∧
      recordOf compact r = leBytes 2 r.1.length ++ (leBytes 2 m ++ y) := by
  rw [recordOf, recordBytes]
  by_cases h : compact ∧ compacts [inlineExt [r.2] false]
  · rw [if_pos h]
    exact ⟨COMPACT, _, by norm_num [COMPACT], by norm_num [COMPACT], recordHead_append _ _ _⟩
  · rw [if_neg h]
    exact ⟨1, _, by norm_num, by norm_num, recordHead_append _ _ _⟩

lemma parseRecord_recordOf {compact : Bool} {r : Bytes × Bytes} (hr : PairFits r)
    (hp : p = pre.length) (hbase : 4 ∣ base) (hal : 4 ∣ p) :
    parseRecord base (pre ++ (recordOf compact r ++ rest)) p
      = some (r.1, [inlineExt [r.2] false], runOf [r.2], (recordOf compact r).length) :=
  parseRecord_recordBytes hp (recordOk_of_pairFits hr) (dvd_add hbase hal)

/-- A record's head is not a marker's, cut or not. -/
lemma record_not_marker {compact : Bool} {r : Bytes × Bytes} {t t' : Bytes}
    (hbuf : buf = pre ++ t) (ht : t ++ t' = recordOf compact r ++ rest) (hp : p = pre.length)
    (h4 : p + 4 ≤ buf.length) :
    ¬ (leNat (slice buf p (p + 2)) = 0 ∧ leNat (slice buf (p + 2) (p + 4)) = 0) := by
  obtain ⟨m, y, hm, hlt, hrec⟩ := recordOf_head compact r
  rintro ⟨-, hzero⟩
  have hwhole : buf ++ t' = (pre ++ leBytes 2 r.1.length) ++ (leBytes 2 m ++ (y ++ rest)) := by
    rw [hbuf, List.append_assoc, ht, hrec]; simp only [List.append_assoc]
  have hword : slice buf (p + 2) (p + 4) = leBytes 2 m := by
    have hcut := slice_append_left (r := t') (a := p + 2) h4
    rw [← hcut, hwhole]
    exact slice_append_mid (by simp [hp]) (by simp [hp])
  rw [hword, leNat_leBytes (by omega)] at hzero
  exact hm hzero

/-- **A record** is recovered. -/
lemma recoverStep_record {compact : Bool} {r : Bytes × Bytes} (hr : PairFits r)
    (hbuf : buf = pre ++ (recordOf compact r ++ rest)) (hp : p = pre.length)
    (hbase : 4 ∣ base) (hal : 4 ∣ p) :
    recoverStep base buf p batch n = .record r.1 r.2 (recordOf compact r).length := by
  have h4 : p + 4 ≤ buf.length := by
    obtain ⟨m, y, -, -, hrec⟩ := recordOf_head compact r
    rw [hbuf, hrec, hp]; simp only [List.length_append, length_leBytes]; omega
  have hparse : parseRecord base buf p
      = some (r.1, [inlineExt [r.2] false], runOf [r.2], (recordOf compact r).length) := by
    rw [hbuf]
    exact parseRecord_recordOf hr hp hbase hal
  have hinline :
    ¬ ((inlineExt [r.2] false).isInline ≠ true ∨ (inlineExt [r.2] false).isTombstone) := by
    have h1 : (inlineExt [r.2] false).isInline = true := by simp [inlineExt, Ext.isInline]
    have h2 : (inlineExt [r.2] false).isTombstone = false :=
      Ext.isTombstone_countWord (n := 1) _ _ (by norm_num) rfl
    rw [h1, h2]
    simp
  have hhead : ¬ (leNat (slice buf p (p + 2)) = 0 ∧ leNat (slice buf (p + 2) (p + 4)) = 0) :=
    record_not_marker hbuf (List.append_nil _) hp h4
  rw [recoverStep, if_neg hhead, hparse]
  dsimp only
  rw [if_neg hinline, recoverValue_inlineExt]

/-- A record cut short ends the walk, or is taken whole with a length the buffer does not hold. -/
lemma recoverStep_tornRecord {compact : Bool} {r : Bytes × Bytes} {t t' : Bytes} (hr : PairFits r)
    (hbuf : buf = pre ++ t) (ht : t ++ t' = recordOf compact r) (hp : p = pre.length)
    (hbase : 4 ∣ base) (hal : 4 ∣ p) (h4 : p + 4 ≤ buf.length) :
    recoverStep base buf p batch n = .stop ∨
      recoverStep base buf p batch n = .record r.1 r.2 (recordOf compact r).length := by
  have hhead := record_not_marker hbuf (by rw [ht, List.append_nil]) hp h4
  cases hparse : parseRecord base buf p with
  | none => left; rw [recoverStep, if_neg hhead, hparse]
  | some x =>
      right
      -- what the cut buffer gives is what the whole record gives
      have hwhole : buf ++ t' = pre ++ (recordOf compact r ++ []) := by
        rw [hbuf, List.append_assoc, ht, List.append_nil]
      have h1 := parseRecord_append (x := t') hparse
      rw [hwhole, parseRecord_recordOf hr hp hbase hal] at h1
      have hstep : recoverStep base (pre ++ (recordOf compact r ++ [])) p batch n = _ :=
        recoverStep_record hr rfl hp hbase hal
      have hhead' := record_not_marker (rfl : pre ++ (recordOf compact r ++ []) = _)
        (List.append_nil _) hp (by
          rw [← hwhole, List.length_append]; omega)
      rw [recoverStep, if_neg hhead', parseRecord_recordOf hr hp hbase hal, h1] at hstep
      rw [recoverStep, if_neg hhead, hparse]
      exact hstep

end Turn

/-! ## Whole batches and cut ones -/

section Walk

variable {base p batch : ℕ} {buf pre rest : Bytes} {compact : Bool} {out : List (Bytes × Bytes)}
  {committed : ℕ}

/-- The walk over a record. -/
lemma recoverLoop_record {r : Bytes × Bytes} (hr : PairFits r)
    (hbuf : buf = pre ++ (recordOf compact r ++ rest)) (hp : p = pre.length)
    (hbase : 4 ∣ base) (hal : 4 ∣ p) :
    recoverLoop base buf p batch out committed
      = recoverLoop base buf (p + (recordOf compact r).length) batch (out ++ [r]) committed := by
  have h4 : p + 4 ≤ buf.length := by
    obtain ⟨m, y, -, -, hrec⟩ := recordOf_head compact r
    rw [hbuf, hrec, hp]; simp only [List.length_append, length_leBytes]; omega
  have hstep : recoverStep base buf p batch out.length
      = .record r.1 r.2 (recordOf compact r).length := recoverStep_record hr hbuf hp hbase hal
  rw [recoverLoop, if_pos h4]
  split
  · rename_i h; rw [hstep] at h; exact absurd h (by simp)
  · rename_i h; rw [hstep] at h; exact absurd h (by simp)
  · rename_i key value len h
    rw [hstep] at h
    injection h with hk hv hl
    rw [← hk, ← hv, ← hl]

/-- The walk over a run of records. -/
lemma recoverLoop_records (rs : List (Bytes × Bytes)) (hrs : ∀ r ∈ rs, PairFits r)
    (hbuf : buf = pre ++ (recordsBytes compact rs ++ rest)) (hp : p = pre.length)
    (hbase : 4 ∣ base) (hal : 4 ∣ p) :
    recoverLoop base buf p batch out committed
      = recoverLoop base buf (p + (recordsBytes compact rs).length) batch (out ++ rs)
          committed := by
  induction rs generalizing pre p out with
  | nil => simp [recordsBytes]
  | cons r rs ih =>
      rw [recordsBytes_cons, List.append_assoc] at hbuf
      have hbuf' : buf = (pre ++ recordOf compact r) ++ (recordsBytes compact rs ++ rest) := by
        rw [hbuf, List.append_assoc]
      have hal' : 4 ∣ p + (recordOf compact r).length :=
        dvd_add hal (dvd_length_recordBytes _ _ _ _)
      rw [recoverLoop_record (hrs r (List.mem_cons_self ..)) hbuf hp hbase hal,
        ih (fun r hr => hrs r (List.mem_cons_of_mem _ hr)) hbuf' (by rw [hp, List.length_append]) hal',
        recordsBytes_cons, List.length_append, List.append_assoc, List.singleton_append, add_assoc]

/-- The words of a marker, as the walk reads them. -/
lemma marker_fields {crc : BitVec 32} {len count : ℕ}
    (hbuf : buf = pre ++ (markerBytes crc len count ++ rest)) (hp : p = pre.length)
    (hlen : len < 2 ^ 32) (hcount : count < 2 ^ 64) :
    (leNat (slice buf p (p + 2)) = 0 ∧ leNat (slice buf (p + 2) (p + 4)) = 0) ∧
      slice buf (p + 4) (p + 8) = DIRECT_MARK ∧ u32At buf (p + 8) = crc.toNat ∧
      u32At buf (p + 12) = len ∧ u64At buf (p + 16) = count := by
  have h0 : buf = pre ++ (leBytes 2 0 ++ (leBytes 2 0 ++ (DIRECT_MARK ++ (leBytes 4 crc.toNat ++
      (leBytes 4 len ++ (leBytes 8 count ++ rest)))))) := by
    rw [hbuf, markerBytes]
    simp only [List.append_assoc]
    rfl
  have h2 : buf = (pre ++ leBytes 2 0) ++ (leBytes 2 0 ++ (DIRECT_MARK ++ (leBytes 4 crc.toNat ++
      (leBytes 4 len ++ (leBytes 8 count ++ rest))))) := by
    rw [h0]; simp only [List.append_assoc]
  have h4 : buf = (pre ++ leBytes 2 0 ++ leBytes 2 0) ++ (DIRECT_MARK ++ (leBytes 4 crc.toNat ++
      (leBytes 4 len ++ (leBytes 8 count ++ rest)))) := by
    rw [h0]; simp only [List.append_assoc]
  have h8 : buf = (pre ++ leBytes 2 0 ++ leBytes 2 0 ++ DIRECT_MARK) ++ (leBytes 4 crc.toNat ++
      (leBytes 4 len ++ (leBytes 8 count ++ rest))) := by
    rw [h0]; simp only [List.append_assoc]
  have h12 : buf = (pre ++ leBytes 2 0 ++ leBytes 2 0 ++ DIRECT_MARK ++ leBytes 4 crc.toNat) ++
      (leBytes 4 len ++ (leBytes 8 count ++ rest)) := by
    rw [h0]; simp only [List.append_assoc]
  have h16 : buf = (pre ++ leBytes 2 0 ++ leBytes 2 0 ++ DIRECT_MARK ++ leBytes 4 crc.toNat ++
      leBytes 4 len) ++ (leBytes 8 count ++ rest) := by
    rw [h0]; simp only [List.append_assoc]
  have hz : leNat (leBytes 2 0) = 0 := by decide
  refine ⟨⟨?_, ?_⟩, ?_, ?_, ?_, ?_⟩
  · rw [h0, slice_append_mid hp (by simp [hp]), hz]
  · rw [h2, slice_append_mid (by simp [hp]) (by simp [hp]), hz]
  · rw [h4]; exact slice_append_mid (by simp [hp]) (by simp [hp, DIRECT_MARK])
  · rw [h8]; exact u32At_append (by simp [hp, DIRECT_MARK]) crc.isLt
  · rw [h12]; exact u32At_append (by simp [hp, DIRECT_MARK]) hlen
  · rw [h16]; exact u64At_append (by simp [hp, DIRECT_MARK]) hcount

/-- The walk over a marker that agrees with the records before it. -/
lemma recoverLoop_marker {count : ℕ}
    (hbuf : buf = pre ++ (markerBytes (crc32 (slice buf batch p)) (p - batch) count ++ rest))
    (hp : p = pre.length) (hlen : p - batch < 2 ^ 32) (hcount : out.length = count)
    (hfit : count < 2 ^ 64) :
    recoverLoop base buf p batch out committed
      = recoverLoop base buf (p + DIRECT_MARK_LEN) (p + DIRECT_MARK_LEN) out out.length := by
  obtain ⟨hzero, htag, hcrc, hl, hc⟩ := marker_fields hbuf hp hlen hfit
  have hbuflen : p + DIRECT_MARK_LEN ≤ buf.length := by
    rw [hbuf, List.length_append, List.length_append, length_markerBytes, hp]; omega
  have h4 : p + 4 ≤ buf.length := by simp only [DIRECT_MARK_LEN] at hbuflen; omega
  have hstep : recoverStep base buf p batch out.length = .marked := by
    have hgood :
      ¬ (buf.length < p + DIRECT_MARK_LEN ∨ slice buf (p + 4) (p + 8) ≠ DIRECT_MARK) := by
      rintro (h | h)
      · omega
      · exact h htag
    have hagree : ¬ (u32At buf (p + 12) ≠ p - batch ∨ u64At buf (p + 16) ≠ out.length ∨
        u32At buf (p + 8) ≠ (crc32 (slice buf batch p)).toNat) := by
      rw [hl, hc, hcrc, hcount]; simp
    rw [recoverStep, if_pos hzero, if_neg hgood, if_neg hagree]
  rw [recoverLoop, if_pos h4]
  split
  · rename_i h; rw [hstep] at h; exact absurd h (by simp)
  · rfl
  · rename_i h; rw [hstep] at h; exact absurd h (by simp)

/-- A marker cut short ends the walk. -/
lemma recoverLoop_tornMarker {crc : BitVec 32} {len count : ℕ} {t : Bytes}
    (hbuf : buf = pre ++ t) (hp : p = pre.length) (ht : t <+: markerBytes crc len count)
    (hshort : t.length < DIRECT_MARK_LEN) :
    recoverLoop base buf p batch out committed = out.take committed := by
  have hlen : buf.length = p + t.length := by rw [hbuf, hp, List.length_append]
  rw [recoverLoop]
  split_ifs with h4
  · obtain ⟨t', ht'⟩ := ht
    have hwhole : buf ++ t' = pre ++ (leBytes 2 0 ++ (leBytes 2 0 ++ (DIRECT_MARK ++
        (leBytes 4 crc.toNat ++ (leBytes 4 len ++ leBytes 8 count))))) := by
      rw [hbuf, List.append_assoc, ht']; rfl
    have hwhole' : buf ++ t' = (pre ++ leBytes 2 0) ++ (leBytes 2 0 ++ (DIRECT_MARK ++
        (leBytes 4 crc.toNat ++ (leBytes 4 len ++ leBytes 8 count)))) := by
      rw [hwhole, List.append_assoc]
    have hz : leNat (leBytes 2 0) = 0 := by decide
    have hzero : leNat (slice buf p (p + 2)) = 0 ∧ leNat (slice buf (p + 2) (p + 4)) = 0 := by
      have e1 := slice_append_left (r := t') (a := p) (by omega : p + 2 ≤ buf.length)
      have e2 := slice_append_left (r := t') (a := p + 2) h4
      rw [← e1, ← e2]
      refine ⟨?_, ?_⟩
      · rw [hwhole, slice_append_mid hp (by simp [hp]), hz]
      · rw [hwhole', slice_append_mid (by simp [hp]) (by simp [hp]), hz]
    have hstep : recoverStep base buf p batch out.length = .stop := by
      rw [recoverStep, if_pos hzero, if_pos (Or.inl (by omega))]
    split
    · rfl
    · rename_i h; rw [hstep] at h; exact absurd h (by simp)
    · rename_i h; rw [hstep] at h; exact absurd h (by simp)
  · rfl

/-- A record cut short ends the walk: nothing of its batch is kept. -/
lemma recoverLoop_tornRecord {r : Bytes × Bytes} {t : Bytes} (hr : PairFits r)
    (hbuf : buf = pre ++ t) (hp : p = pre.length) (ht : t <+: recordOf compact r)
    (hshort : t.length < (recordOf compact r).length) (hbase : 4 ∣ base) (hal : 4 ∣ p)
    (hc : committed ≤ out.length) :
    recoverLoop base buf p batch out committed = out.take committed := by
  have hlen : buf.length = p + t.length := by rw [hbuf, hp, List.length_append]
  obtain ⟨t', ht'⟩ := ht
  rw [recoverLoop]
  split_ifs with h4
  · have hstep : recoverStep base buf p batch out.length = .stop ∨
        recoverStep base buf p batch out.length = .record r.1 r.2 (recordOf compact r).length :=
      recoverStep_tornRecord hr hbuf ht' hp hbase hal h4
    split
    · rfl
    · rename_i h; rw [h] at hstep; exact absurd hstep (by simp)
    · -- the record was read without its padding; behind it there is nothing left
      rename_i key value len h
      rw [h] at hstep
      rcases hstep with hstep | hstep
      · exact absurd hstep (by simp)
      · injection hstep with _ _ hl
        rw [recoverLoop, if_neg (by omega), List.take_append_of_le_length hc]
  · rfl

/-- A batch cut short ends the walk, wherever the cut falls. -/
lemma recoverLoop_tornBatch {crc : BitVec 32} {len count : ℕ} {t : Bytes}
    (rs : List (Bytes × Bytes)) (hrs : ∀ r ∈ rs, PairFits r) (hbuf : buf = pre ++ t)
    (hp : p = pre.length) (ht : t <+: recordsBytes compact rs ++ markerBytes crc len count)
    (hshort : t.length < (recordsBytes compact rs ++ markerBytes crc len count).length)
    (hbase : 4 ∣ base) (hal : 4 ∣ p) (hc : committed ≤ out.length) :
    recoverLoop base buf p batch out committed = out.take committed := by
  induction rs generalizing pre p t out with
  | nil =>
      rw [List.length_append, length_markerBytes] at hshort
      exact recoverLoop_tornMarker hbuf hp ht (by simpa [recordsBytes] using hshort)
  | cons r rs ih =>
      rw [recordsBytes_cons, List.append_assoc] at ht hshort
      have hr : PairFits r := hrs r (List.mem_cons_self ..)
      by_cases hcut : t.length < (recordOf compact r).length
      · have hpre : t <+: recordOf compact r :=
          List.prefix_of_prefix_length_le ht (List.prefix_append _ _) (by omega)
        exact recoverLoop_tornRecord hr hbuf hp hpre hcut hbase hal hc
      · have hpre : recordOf compact r <+: t :=
          List.prefix_of_prefix_length_le (List.prefix_append _ _) ht (by omega)
        obtain ⟨t', rfl⟩ := hpre
        have hbuf' : buf = (pre ++ recordOf compact r) ++ t' := by rw [hbuf, List.append_assoc]
        have hal' : 4 ∣ p + (recordOf compact r).length :=
          dvd_add hal (dvd_length_recordBytes _ _ _ _)
        rw [List.length_append, List.length_append] at hshort
        rw [recoverLoop_record hr hbuf hp hbase hal,
          ih (fun r hr => hrs r (List.mem_cons_of_mem _ hr)) hbuf'
            (by rw [hp, List.length_append]) ((List.prefix_append_right_inj _).mp ht) (by omega)
            hal' (by rw [List.length_append]; omega),
          List.take_append_of_le_length hc]

end Walk

/-- Where the markers of closed batches end, the stream having begun at `at0`. -/
def markerEnds (compact : Bool) : ℕ → List (List (Bytes × Bytes)) → List ℕ
  | _, [] => []
  | at0, b :: bs =>
      let fin := at0 + (recordsBytes compact b).length + DIRECT_MARK_LEN
      fin :: markerEnds compact fin bs

/-- The batches whose marker ends within the first `n` bytes. -/
def batchesWithin (compact : Bool) (at0 n : ℕ) (bs : List (List (Bytes × Bytes))) :
    List (List (Bytes × Bytes)) :=
  ((bs.zip (markerEnds compact at0 bs)).filter (fun c => c.2 ≤ n)).map Prod.fst

lemma lt_markerEnds (compact : Bool) (bs : List (List (Bytes × Bytes))) (at0 : ℕ) :
    ∀ e ∈ markerEnds compact at0 bs, at0 < e := by
  induction bs generalizing at0 with
  | nil => intro e he; exact absurd he (by simp [markerEnds])
  | cons b bs ih =>
      intro e he
      simp only [markerEnds, List.mem_cons] at he
      have hlen : 0 < DIRECT_MARK_LEN := by norm_num [DIRECT_MARK_LEN]
      rcases he with rfl | he
      · omega
      · have := ih _ e he
        omega

/-- **The walk over a cut stream**, from the end of one marker on.  The induction is on the batches
still to come; `opened` are records behind the last marker. -/
lemma recoverLoop_cut {base n : ℕ} {compact : Bool} {pre full : Bytes} {out : List (Bytes × Bytes)}
    (bs : List (List (Bytes × Bytes))) (opened : List (Bytes × Bytes)) (hbase : 4 ∣ base)
    (hal : 4 ∣ pre.length) (hbs : ∀ b ∈ bs, ∀ r ∈ b, PairFits r) (hopen : ∀ r ∈ opened, PairFits r)
    (hfull : full = pre ++ (directStream compact out.length bs ++ recordsBytes compact opened))
    (hlen : ∀ b ∈ bs, (recordsBytes compact b).length < 2 ^ 32)
    (hcount : out.length + bs.flatten.length < 2 ^ 64)
    (hn : pre.length ≤ n) :
    recoverLoop base (full.take n) pre.length pre.length out out.length
      = out ++ (batchesWithin compact pre.length n bs).flatten := by
  induction bs generalizing pre out with
  | nil =>
      have hbuf : full.take n = pre ++ (recordsBytes compact opened).take (n - pre.length) := by
        rw [hfull, directStream, List.nil_append, List.take_append, List.take_of_length_le hn]
      have ht : (recordsBytes compact opened).take (n - pre.length)
          <+: recordsBytes compact opened ++ markerBytes 0 0 0 :=
        (List.take_prefix _ _).trans (List.prefix_append _ _)
      rw [recoverLoop_tornBatch opened hopen hbuf rfl ht ?_ hbase hal (le_refl _)]
      · simp [batchesWithin]
      · rw [List.length_append, length_markerBytes, List.length_take, DIRECT_MARK_LEN]
        omega
  | cons b bs ih =>
      set recs := recordsBytes compact b with hrecs
      set marker := markerOf compact out.length b with hmarker
      have hb : ∀ r ∈ b, PairFits r := hbs b (List.mem_cons_self ..)
      have hsplit : full = pre ++ (recs ++ (marker ++ (directStream compact (out.length + b.length) bs ++
          recordsBytes compact opened))) := by
        rw [hfull, directStream]; simp only [List.append_assoc]; rfl
      have hml : marker.length = DIRECT_MARK_LEN := length_markerBytes _ _ _
      have hflat : (b :: bs).flatten.length = b.length + bs.flatten.length := by simp
      have hblen : recs.length < 2 ^ 32 := hlen b (List.mem_cons_self ..)
      by_cases hcut : pre.length + recs.length + DIRECT_MARK_LEN ≤ n
      · -- the marker is in the prefix
        set rest := (directStream compact (out.length + b.length) bs ++
          recordsBytes compact opened).take (n - (pre ++ recs ++ marker).length) with hrest
        have hbuf : full.take n = pre ++ (recs ++ (marker ++ rest)) := by
          have : full = (pre ++ recs ++ marker) ++ (directStream compact (out.length + b.length) bs ++
              recordsBytes compact opened) := by rw [hsplit]; simp only [List.append_assoc]
          rw [this, List.take_append, List.take_of_length_le (by
            simp only [List.length_append, hml]; omega)]
          simp only [List.append_assoc, hrest]
        have hal' : 4 ∣ pre.length + recs.length := dvd_add hal (dvd_length_recordsBytes _ _)
        have hslice : slice (full.take n) pre.length (pre.length + recs.length) = recs := by
          rw [hbuf]; exact slice_append_right _ _ _
        have hbufm : full.take n = (pre ++ recs) ++ (markerBytes
            (crc32 (slice (full.take n) pre.length (pre.length + recs.length)))
            (pre.length + recs.length - pre.length) (out.length + b.length) ++ rest) := by
          rw [hslice, Nat.add_sub_cancel_left, hbuf, List.append_assoc]
          rfl
        have hfull' : full = (pre ++ recs ++ marker) ++
            (directStream compact (out ++ b).length bs ++ recordsBytes compact opened) := by
          rw [hsplit, List.length_append]
          simp only [List.append_assoc]
        have hih := ih
          (by
            simp only [List.length_append, hml]
            exact dvd_add hal' (by norm_num [DIRECT_MARK_LEN]))
          (fun c hc => hbs c (List.mem_cons_of_mem _ hc)) hfull'
          (fun c hc => hlen c (List.mem_cons_of_mem _ hc))
          (by rw [List.length_append]; omega)
          (by simp only [List.length_append, hml]; omega)
        have hplen : (pre ++ recs ++ marker).length = pre.length + recs.length + DIRECT_MARK_LEN := by
          simp only [List.length_append, hml]
        rw [hplen] at hih
        rw [recoverLoop_records b hb hbuf rfl hbase hal,
          recoverLoop_marker hbufm (by rw [List.length_append]) (by omega)
            (by rw [List.length_append]) (by omega), hih]
        simp only [batchesWithin, markerEnds, List.zip_cons_cons, ← hrecs]
        rw [List.filter_cons_of_pos (by simpa using hcut)]
        simp only [List.map_cons, List.flatten_cons, List.append_assoc]
      · -- the cut falls before the marker's end
        have hbuf : full.take n = pre ++ (recs ++ marker).take (n - pre.length) := by
          have : full = pre ++ ((recs ++ marker) ++ (directStream compact (out.length + b.length) bs ++
              recordsBytes compact opened)) := by rw [hsplit]; simp only [List.append_assoc]
          rw [this, List.take_append, List.take_of_length_le hn, List.take_append_of_le_length (by
            rw [List.length_append, hml]; omega)]
        have hnone : batchesWithin compact pre.length n (b :: bs) = [] := by
          rw [batchesWithin, List.map_eq_nil_iff, List.filter_eq_nil_iff]
          rintro ⟨c, e⟩ hc
          have he := (List.of_mem_zip hc).2
          simp only [markerEnds, List.mem_cons, ← hrecs] at he
          simp only [decide_eq_true_eq]
          rcases he with rfl | he
          · omega
          · have := lt_markerEnds compact bs _ e he
            omega
        rw [hnone, recoverLoop_tornBatch b hb hbuf rfl (List.take_prefix _ _) ?_ hbase hal
          (le_refl _)]
        · simp
        · show ((recs ++ marker).take (n - pre.length)).length < (recs ++ marker).length
          rw [List.length_take, List.length_append, hml]
          omega

/-! ## What the writer puts in the stream -/

/-- The parts the piece boundaries cut `data` into, folded onto the CRC of what is before it. -/
lemma hashPieces_eq (before data : Bytes) (at0 p : ℕ) (hp : at0 ≤ p) (hle : p ≤ at0 + data.length) :
    hashPieces data at0 p (crc32 (before ++ data.take (p - at0))) = crc32 (before ++ data) := by
  induction hm : at0 + data.length - p using Nat.strong_induction_on generalizing p with
  | _ m ih =>
      rw [hashPieces]
      split_ifs with h
      · dsimp only
        set stop := min ((p / Flatindex.PIECE + 1) * Flatindex.PIECE) (at0 + data.length) with hstop
        have hpiece : p < (p / Flatindex.PIECE + 1) * Flatindex.PIECE := by
          have := Nat.lt_div_mul_add (a := p) (b := Flatindex.PIECE)
            (by norm_num [Flatindex.PIECE, Flatindex.PIECE_SHIFT])
          rw [Nat.add_mul, one_mul]
          exact this
        have hgt : p < stop := by omega
        have hjoin : data.take (p - at0) ++ slice data (p - at0) (stop - at0)
            = data.take (stop - at0) := by
          have := slice_append_slice data (Nat.zero_le (p - at0)) (by omega : p - at0 ≤ stop - at0)
          simpa [slice] using this
        rw [crc32Combine_crc32, List.append_assoc, hjoin]
        exact ih (at0 + data.length - stop) (by omega) stop (by omega) (by omega) rfl
      · have : p - at0 = data.length := by omega
        rw [this, List.take_length]

/-- Hashed from its start, `data` is folded onto the CRC before it whole. -/
lemma hashPieces_crc32 (before data : Bytes) (at0 : ℕ) :
    hashPieces data at0 at0 (crc32 before) = crc32 (before ++ data) := by
  have h := hashPieces_eq before data at0 at0 (le_refl _) (by omega)
  rwa [Nat.sub_self, List.take_zero, List.append_nil] at h

/-- Writing the held batch moves it to the file and its CRC to the marker's. -/
lemma writeBatch_markCrc (w : SegmentWriter) {done : Bytes} (h : w.markCrc = crc32 done) :
    w.writeBatch.markCrc = crc32 (done ++ w.batchBuf) := by
  have hhash := hashPieces_crc32 [] w.batchBuf w.out.length
  rw [crc32_nil, List.nil_append] at hhash
  show crc32Combine w.markCrc (hashPieces w.batchBuf w.out.length w.out.length 0) _ = _
  rw [hhash, h, crc32Combine_crc32]

/-- What a put leaves of a writer: one record more in the batch and one key more, the rest of what
the stream is made of as it was. -/
structure Streamed (w w' : SegmentWriter) (r : Bytes × Bytes) : Prop where
  opts : w'.opts = w.opts
  mode : w'.mode = w.mode
  out : w'.out = w.out
  batchBuf : w'.batchBuf = w.batchBuf ++ recordOf w.opts.compactRecords r
  recsLen : w'.recsLen = w.recsLen + (recordOf w.opts.compactRecords r).length
  keys : w'.keys = w.keys ++ [r.1]
  markCrc : w'.markCrc = w.markCrc
  markStart : w'.markStart = w.markStart
  openKey : w'.openKey = none
  raw : w'.raw = []
  lens : w'.lens = []
  klen : r.1.length ≤ 65535
  fits : w'.recsLen ≤ MAX_RECS

lemma streamRecord_streamed {w w' : SegmentWriter} {r : Bytes × Bytes}
    (hmarks : w.opts.marks = true) (hopen : w.openKey = none) (hraw : w.raw = [])
    (hlens : w.lens = [])
    (h : w.streamRecord r.1 (inlineExt [r.2] false) (runOf [r.2]) = .ok w') : Streamed w w' r := by
  unfold SegmentWriter.streamRecord streamRecordAs at h
  by_cases hlen : 65535 < r.1.length ∨ COMPACT ≤ [inlineExt [r.2] false].length
  · rw [recordLenFor, if_pos hlen] at h
    exact absurd h (by simp)
  · rw [recordLenFor, if_neg hlen] at h
    have hl := length_recordBytes r.1 [inlineExt [r.2] false] (runOf [r.2]) w.opts.compactRecords
    simp only [Option.map_some, hmarks, if_true, List.nil_append, ← hl] at h
    split_ifs at h with hmax
    injection h with h
    subst h
    refine ⟨rfl, rfl, rfl, rfl, rfl, rfl, rfl, rfl, hopen, hraw, hlens, by omega, ?_⟩
    exact Nat.le_of_not_lt hmax

/-- A record is refused only where the section is over its limit. -/
lemma streamRecord_error {w : SegmentWriter} {r : Bytes × Bytes} {e : String}
    (hmarks : w.opts.marks = true) (hlen : r.1.length ≤ 65535)
    (h : w.streamRecord r.1 (inlineExt [r.2] false) (runOf [r.2]) = .error e) :
    MAX_RECS < w.recsLen + (recordOf w.opts.compactRecords r).length := by
  have hfits : ¬ (65535 < r.1.length ∨ COMPACT ≤ [inlineExt [r.2] false].length) := by
    rw [List.length_singleton]
    norm_num [COMPACT]
    exact hlen
  unfold SegmentWriter.streamRecord streamRecordAs at h
  rw [recordLenFor, if_neg hfits] at h
  have hl := length_recordBytes r.1 [inlineExt [r.2] false] (runOf [r.2]) w.opts.compactRecords
  simp only [Option.map_some, hmarks, if_true, List.nil_append, ← hl] at h
  split_ifs at h with hmax
  exact hmax

/-- The layout decision touches nothing but the file's head. -/
lemma layout_frame (w : SegmentWriter) :
    w.layout.1.opts = w.opts ∧ w.layout.1.openKey = w.openKey ∧ w.layout.1.raw = w.raw ∧
      w.layout.1.lens = w.lens ∧ w.layout.1.keys = w.keys ∧ w.layout.1.batchBuf = w.batchBuf ∧
      w.layout.1.recsLen = w.recsLen ∧ w.layout.1.markCrc = w.markCrc ∧
      w.layout.1.markStart = w.markStart ∧ w.layout.1.mode = some w.layout.2 ∧
      ∃ x, w.layout.1.out = w.out ++ x := by
  cases hm : w.mode with
  | some m =>
      have : w.layout = (w, m) := by rw [SegmentWriter.layout, hm]
      rw [this]
      exact ⟨rfl, rfl, rfl, rfl, rfl, rfl, rfl, rfl, rfl, hm, [], by simp⟩
  | none =>
      rw [SegmentWriter.layout, hm]
      dsimp only
      split_ifs <;> exact ⟨rfl, rfl, rfl, rfl, rfl, rfl, rfl, rfl, rfl, rfl,
        ⟨_, by first | rw [List.append_assoc] | rfl | rw [List.append_nil]⟩⟩

lemma checkKey_ok {w : SegmentWriter} {key : Bytes} {u : Unit} (h : w.checkKey key = .ok u) :
    w.openKey = none ∧ key.length ≤ 65535 := by
  unfold SegmentWriter.checkKey at h
  split_ifs at h with h1 h2 h3
  exact ⟨by simpa using h1, by omega⟩

/-- A writer that has taken in a key's value and no record of it: what the stream is made of is as
it was. -/
structure Framed (w w' : SegmentWriter) : Prop where
  opts : w'.opts = w.opts
  mode : w'.mode = w.mode
  out : w'.out = w.out
  batchBuf : w'.batchBuf = w.batchBuf
  recsLen : w'.recsLen = w.recsLen
  keys : w'.keys = w.keys
  markCrc : w'.markCrc = w.markCrc
  markStart : w'.markStart = w.markStart
  openKey : w'.openKey = none
  raw : w'.raw = []
  lens : w'.lens = []

lemma Framed.streamed {w w₁ w₂ : SegmentWriter} {r : Bytes × Bytes} (h : Framed w w₁)
    (hs : Streamed w₁ w₂ r) : Streamed w w₂ r where
  opts := hs.opts.trans h.opts
  mode := hs.mode.trans h.mode
  out := hs.out.trans h.out
  batchBuf := by rw [hs.batchBuf, h.batchBuf, h.opts]
  recsLen := by rw [hs.recsLen, h.recsLen, h.opts]
  keys := by rw [hs.keys, h.keys]
  markCrc := hs.markCrc.trans h.markCrc
  markStart := hs.markStart.trans h.markStart
  openKey := hs.openKey
  raw := hs.raw
  lens := hs.lens
  klen := hs.klen
  fits := hs.fits

section Puts

variable {lz : Lz4} {w : SegmentWriter} {r : Bytes × Bytes}

/-- `begin`, `value` and `end` of a key that passes the checks: its record, streamed. -/
lemma putThree_eq {u : Unit} (hlayout : w.layout.2 = .recordsFirst) (hraw : w.raw = [])
    (hlens : w.lens = []) (hin : inlines w.opts.inlineMax (runOf [r.2]).length = true)
    (hrun : (runOf [r.2]).length < 2 ^ 32) (hv : r.2.length < 2 ^ 32)
    (hkey : w.checkKey r.1 = .ok u) : ∃ w', Framed w.layout.1 w' ∧
      w.putThree lz r.1 r.2 = w'.streamRecord r.1 (inlineExt [r.2] false) (runOf [r.2]) := by
  obtain ⟨hopts, -, hraw', hlens', -, -, -, -, -, hmode, -⟩ := layout_frame w
  rw [hraw] at hraw'
  rw [hlens] at hlens'
  rw [hlayout] at hmode
  set w1 := w.layout.1 with hw1
  have henc : encodeRun (w1.raw ++ r.2) (w1.lens ++ [r.2.length % 2 ^ 32])
      = (runOf [r.2], 0, fixedOf [r.2]) := by
    have := encodeRun_eq [r.2]
    rw [lastOf_singleton] at this
    rw [hraw', hlens', List.nil_append, List.nil_append, Nat.mod_eq_of_lt hv]
    simpa using this
  have h1 : ¬ 2 ^ 32 - 1 < (runOf [r.2]).length := by omega
  have h2 : ¬ Ext.FIXED ≤ (0 + 1) % 2 ^ 32 := by norm_num [Ext.FIXED]
  unfold SegmentWriter.putThree SegmentWriter.begin
  simp only [bind, Except.bind, hkey, SegmentWriter.value, SegmentWriter.endWith, ← hw1, henc]
  rw [if_neg h1, if_neg h2]
  set w2 := SegmentWriter.closeKey _ r.1 false with hw2
  have hmode2 : w2.mode = some .recordsFirst := hmode
  have hopts2 : w2.opts = w.opts := hopts
  refine ⟨w2, ⟨rfl, rfl, rfl, rfl, rfl, rfl, rfl, rfl, rfl, rfl, rfl⟩, ?_⟩
  rw [SegmentWriter.addRun, layout_of_mode hmode2]
  simp only [hopts2, hin, if_true, SegmentWriter.addRecord]
  rw [← inlineExt_singleton hrun]
  rfl

/-- `put_one` of such a key: the same record. -/
lemma putOne_eq {u : Unit} (hlayout : w.layout.2 = .recordsFirst) (hraw : w.raw = [])
    (hlens : w.lens = []) (hin : inlines w.opts.inlineMax (runOf [r.2]).length = true)
    (hrun : (runOf [r.2]).length < 2 ^ 32) (hv : r.2.length < 2 ^ 32)
    (hkey : w.checkKey r.1 = .ok u) : ∃ w', Framed w.layout.1 w' ∧
      w.putOne lz r.1 r.2 = w'.streamRecord r.1 (inlineExt [r.2] false) (runOf [r.2]) := by
  unfold SegmentWriter.putOne
  split_ifs with hslow
  · exact putThree_eq hlayout hraw hlens hin hrun hv hkey
  · have hne : r.2 ≠ [] := fun hnil => hslow (Or.inl hnil)
    have hrv : runOf [r.2] = r.2 := runOf_singleton_of_ne hne
    have hfix : fixedOf [r.2] = true := by
      rw [fixedOf_singleton]
      simpa using List.length_pos_iff.mpr hne
    obtain ⟨-, hopen, hraw', hlens', -, -, -, -, -, -, -⟩ := layout_frame w
    have hext := inlineExt_singleton hrun
    rw [hrv, hfix] at hext
    refine ⟨w.layout.1.countBytes (r.1.length + r.2.length), ⟨rfl, rfl, rfl, rfl, rfl, rfl, rfl, rfl,
      hopen.trans (checkKey_ok hkey).1, hraw'.trans hraw, hlens'.trans hlens⟩, ?_⟩
    simp only [bind, Except.bind, hkey, hlayout, ne_eq, not_true_eq_false, if_false]
    rw [hrv, ← hext]

/-- A key the checks refuse is not put, by either way. -/
lemma putThree_refused {e : String} (hkey : w.checkKey r.1 = .error e) :
    w.putThree lz r.1 r.2 = .error e := by
  simp [SegmentWriter.putThree, SegmentWriter.begin, hkey, bind, Except.bind]

lemma putOne_refused {e : String} (hkey : w.checkKey r.1 = .error e) :
    w.putOne lz r.1 r.2 = .error e := by
  unfold SegmentWriter.putOne
  split_ifs
  · exact putThree_refused hkey
  · simp [hkey, bind, Except.bind]

/-- `begin`, `value` and `end` put the key's record into the batch. -/
lemma putThree_streamed {w' : SegmentWriter} (hmarks : w.opts.marks = true)
    (hlayout : w.layout.2 = .recordsFirst) (hraw : w.raw = []) (hlens : w.lens = [])
    (hin : inlines w.opts.inlineMax (runOf [r.2]).length = true)
    (hrun : (runOf [r.2]).length < 2 ^ 32)
    (hv : r.2.length < 2 ^ 32) (h : w.putThree lz r.1 r.2 = .ok w') : Streamed w.layout.1 w' r := by
  cases hkey : w.checkKey r.1 with
  | error e =>
      rw [putThree_refused hkey] at h
      exact absurd h (by simp)
  | ok u =>
      obtain ⟨w₁, hframe, heq⟩ := putThree_eq hlayout hraw hlens hin hrun hv hkey
      rw [heq] at h
      have hmarks' : w₁.opts.marks = true := by rw [hframe.opts, (layout_frame w).1]; exact hmarks
      exact hframe.streamed (streamRecord_streamed hmarks' hframe.openKey hframe.raw hframe.lens h)

/-- `put_one` puts the same record into the batch. -/
lemma putOne_streamed {w' : SegmentWriter} (hmarks : w.opts.marks = true)
    (hlayout : w.layout.2 = .recordsFirst) (hraw : w.raw = []) (hlens : w.lens = [])
    (hin : inlines w.opts.inlineMax (runOf [r.2]).length = true)
    (hrun : (runOf [r.2]).length < 2 ^ 32)
    (hv : r.2.length < 2 ^ 32) (h : w.putOne lz r.1 r.2 = .ok w') : Streamed w.layout.1 w' r := by
  cases hkey : w.checkKey r.1 with
  | error e =>
      rw [putOne_refused hkey] at h
      exact absurd h (by simp)
  | ok u =>
      obtain ⟨w₁, hframe, heq⟩ := putOne_eq hlayout hraw hlens hin hrun hv hkey
      rw [heq] at h
      have hmarks' : w₁.opts.marks = true := by rw [hframe.opts, (layout_frame w).1]; exact hmarks
      exact hframe.streamed (streamRecord_streamed hmarks' hframe.openKey hframe.raw hframe.lens h)

end Puts

/-! ## Runs of a marking writer -/

/-- The calls a direct segment's owner makes. -/
inductive DirectOp where
  | putOne (key value : Bytes)
  | put (key value : Bytes)
  | mark
  | sync

/-- A marking writer, the pairs put since the last marker, and each marker's batch with the offset
the marker ends at. -/
structure DirectLog where
  writer : SegmentWriter
  opened : List (Bytes × Bytes)
  commits : List (List (Bytes × Bytes) × ℕ)

namespace DirectLog

/-- A fresh writer. -/
def start (opts : WriterOptions) : DirectLog := ⟨.create opts, [], []⟩

/-- A put, a mark or a sync of the run's writer. -/
def step (lz : Lz4) (l : DirectLog) : DirectOp → Except String DirectLog
  | .putOne key value => do
      let w ← l.writer.putOne lz key value
      .ok { l with writer := w, opened := l.opened ++ [(key, value)] }
  | .put key value => do
      let w ← l.writer.putThree lz key value
      .ok { l with writer := w, opened := l.opened ++ [(key, value)] }
  | .mark => do
      let w ← l.writer.mark
      .ok { writer := w, opened := [], commits := l.commits ++ [(l.opened, w.out.length)] }
  | .sync => .ok { l with writer := l.writer.sync }

/-- A sequence of calls, none of which failed. -/
def run (lz : Lz4) : DirectLog → List DirectOp → Except String DirectLog
  | l, [] => .ok l
  | l, op :: ops => do
      let l ← l.step lz op
      l.run lz ops

/-- The batches closed so far. -/
def closed (l : DirectLog) : List (List (Bytes × Bytes)) := l.commits.map Prod.fst

end DirectLog

/-- A value the record carries inline: its run is within the limit, and an extent can name it. -/
def CarriedInline (inlineMax : ℕ) (value : Bytes) : Prop :=
  inlines inlineMax (runOf [value]).length = true ∧ (runOf [value]).length < 2 ^ 32

/-- Every value an operation puts is carried inline. -/
def DirectOp.Inline (inlineMax : ℕ) : DirectOp → Prop
  | .putOne _ value => CarriedInline inlineMax value
  | .put _ value => CarriedInline inlineMax value
  | .mark => True
  | .sync => True

section Snoc

variable (compact : Bool)

lemma directStream_snoc (n : ℕ) (bs : List (List (Bytes × Bytes))) (b : List (Bytes × Bytes)) :
    directStream compact n (bs ++ [b])
      = directStream compact n bs ++
          (recordsBytes compact b ++ markerOf compact (n + bs.flatten.length) b) := by
  induction bs generalizing n with
  | nil => simp [directStream]
  | cons c bs ih =>
      rw [List.cons_append, directStream, directStream, ih]
      simp only [List.append_assoc, List.flatten_cons, List.length_append, add_assoc]

lemma markerEnds_snoc (n at0 : ℕ) (bs : List (List (Bytes × Bytes))) (b : List (Bytes × Bytes)) :
    markerEnds compact at0 (bs ++ [b])
      = markerEnds compact at0 bs ++ [at0 + (directStream compact n bs).length +
          (recordsBytes compact b).length + DIRECT_MARK_LEN] := by
  induction bs generalizing n at0 with
  | nil => simp [markerEnds, directStream]
  | cons c bs ih =>
      have hm : (markerOf compact n c).length = DIRECT_MARK_LEN := length_markerBytes _ _ _
      rw [List.cons_append, markerEnds, markerEnds, ih (n + c.length)]
      simp only [List.cons_append, directStream, List.length_append, hm]
      congr 3
      omega

lemma length_recordOf_ge (r : Bytes × Bytes) : 4 ≤ (recordOf compact r).length := by
  obtain ⟨m, y, -, -, hrec⟩ := recordOf_head compact r
  rw [hrec]
  simp only [List.length_append, length_leBytes]
  omega

end Snoc

/-- **What holds of a direct log after any calls.**  The stream is the closed batches and the
opened records, part of the latter still held; the marker's CRC covers what of them is written. -/
structure DirectLog.Inv (l : DirectLog) : Prop where
  marks : l.writer.opts.marks = true
  records : l.writer.layout.2 = .recordsFirst
  raw : l.writer.raw = []
  lens : l.writer.lens = []
  fresh : l.writer.mode = none → l.writer.batchBuf = []
  stream : ∃ done, l.writer.layout.1.out = List.replicate (SUPER + HEADER) 0 ++
      (directStream l.writer.opts.compactRecords 0 l.closed ++ done) ∧
    recordsBytes l.writer.opts.compactRecords l.opened = done ++ l.writer.batchBuf ∧
    l.writer.markCrc = crc32 done
  recsLen : l.writer.recsLen = (directStream l.writer.opts.compactRecords 0 l.closed).length +
    (recordsBytes l.writer.opts.compactRecords l.opened).length
  markStart : l.writer.markStart = (directStream l.writer.opts.compactRecords 0 l.closed).length
  keys : l.writer.keys.length = l.closed.flatten.length + l.opened.length
  keysLen : 4 * l.writer.keys.length ≤ l.writer.recsLen
  keysFit : l.writer.keys.length < 2 ^ 32
  pairs : (∀ b ∈ l.closed, ∀ r ∈ b, PairFits r) ∧ ∀ r ∈ l.opened, PairFits r
  sizes : (∀ b ∈ l.closed, (recordsBytes l.writer.opts.compactRecords b).length < 2 ^ 32) ∧
    (recordsBytes l.writer.opts.compactRecords l.opened).length < 2 ^ 32
  ends : l.commits.map Prod.snd
    = markerEnds l.writer.opts.compactRecords (SUPER + HEADER) l.closed
  endsLe : ∀ c ∈ l.commits, c.2 ≤ l.writer.out.length

lemma DirectLog.inv_start {opts : WriterOptions} (hmarks : opts.marks = true)
    (hinline : 0 < opts.inlineMax) (hres : opts.headReserve = 0) : (DirectLog.start opts).Inv := by
  have hlayout : (SegmentWriter.create opts).layout.2 = .recordsFirst := by
    simp [SegmentWriter.layout, SegmentWriter.create, hinline]
  refine
    { marks := hmarks, records := hlayout, raw := rfl, lens := rfl, fresh := fun _ => rfl
      stream := ⟨[], ?_, rfl, ?_⟩, recsLen := rfl, markStart := rfl, keys := rfl
      keysLen := by simp [start, SegmentWriter.create]
      keysFit := by simp [start, SegmentWriter.create]
      pairs := by simp [start, closed], sizes := by simp [start, closed, recordsBytes]
      ends := rfl, endsLe := by simp [start] }
  · have hz : List.replicate SUPER (0 : UInt8) ++ List.replicate HEADER 0
        = List.replicate (SUPER + HEADER) 0 := List.replicate_append_replicate
    simp only [start, SegmentWriter.layout, SegmentWriter.create, hinline, hres, if_true,
      closed, List.map_nil, directStream, List.append_nil, lt_self_iff_false, false_and, if_false]
    exact hz
  · simp [start, SegmentWriter.create]

lemma CarriedInline.length_lt {inlineMax : ℕ} {v : Bytes} (h : CarriedInline inlineMax v) :
    v.length < 2 ^ 32 := by
  by_cases hv : v = []
  · rw [hv]; norm_num
  · rw [← runOf_singleton_of_ne hv]
    exact h.2

lemma recordsBytes_snoc (compact : Bool) (rs : List (Bytes × Bytes)) (r : Bytes × Bytes) :
    recordsBytes compact (rs ++ [r]) = recordsBytes compact rs ++ recordOf compact r := by
  simp [recordsBytes]

/-- A put keeps the invariant. -/
lemma DirectLog.inv_put {l : DirectLog} {w' : SegmentWriter} {r : Bytes × Bytes} (h : l.Inv)
    (hs : Streamed l.writer.layout.1 w' r) (hr : (runOf [r.2]).length < 2 ^ 32) :
    DirectLog.Inv { l with writer := w', opened := l.opened ++ [r] } := by
  obtain ⟨hopts, -, -, -, hkeys, hbuf, hrecs, hcrc, hstart, hmode, x, hout⟩ := layout_frame l.writer
  obtain ⟨done, hstream, hheld, hdone⟩ := h.stream
  have hopts' : w'.opts = l.writer.opts := hs.opts.trans hopts
  have hmode' : w'.mode = some .recordsFirst := by rw [hs.mode, hmode, h.records]
  have hlay := layout_of_mode hmode'
  have hsnoc := recordsBytes_snoc l.writer.opts.compactRecords l.opened r
  have hrecs' : w'.recsLen = (directStream l.writer.opts.compactRecords 0 l.closed).length +
      (recordsBytes l.writer.opts.compactRecords (l.opened ++ [r])).length := by
    rw [hs.recsLen, hrecs, h.recsLen, hopts, hsnoc, List.length_append, add_assoc]
  have hkeys' : w'.keys.length = l.writer.keys.length + 1 := by
    rw [hs.keys, hkeys, List.length_append, List.length_singleton]
  have hkeysLen : 4 * w'.keys.length ≤ w'.recsLen := by
    have := length_recordOf_ge l.writer.opts.compactRecords r
    rw [hkeys', hs.recsLen, hrecs, hopts, Nat.mul_add]
    exact Nat.add_le_add h.keysLen this
  have hmax : w'.recsLen < 2 ^ 32 := lt_of_le_of_lt hs.fits (by norm_num [MAX_RECS])
  refine
    { marks := by rw [hopts']; exact h.marks, records := by rw [hlay], raw := hs.raw
      lens := hs.lens, fresh := fun hnone => absurd (hmode'.symm.trans hnone) (by simp)
      stream := ⟨done, ?_, ?_, ?_⟩, recsLen := by rw [hopts']; exact hrecs'
      markStart := by rw [hs.markStart, hstart, hopts']; exact h.markStart
      keys := ?_, keysLen := hkeysLen, keysFit := by dsimp only; omega
      pairs := ⟨h.pairs.1, ?_⟩, sizes := ?_, ends := by rw [hopts']; exact h.ends
      endsLe := ?_ }
  · rw [hlay, hopts', hs.out]
    exact hstream
  · rw [hopts', hsnoc, hheld, hs.batchBuf, hbuf, hopts, List.append_assoc]
  · rw [hs.markCrc, hcrc, hdone]
  · rw [hkeys', h.keys, List.length_append, List.length_singleton, add_assoc]
    rfl
  · intro r' hr'
    rcases List.mem_append.mp hr' with hr' | hr'
    · exact h.pairs.2 r' hr'
    · rw [List.mem_singleton.mp hr']
      exact ⟨hs.klen, hr⟩
  · rw [hopts']
    exact ⟨h.sizes.1, by dsimp only; omega⟩
  · intro c hc
    have := h.endsLe c hc
    rw [hs.out, hout, List.length_append]
    omega

/-- A marker keeps the invariant: the opened pairs become a closed batch. -/
lemma DirectLog.inv_mark {l : DirectLog} {w' : SegmentWriter} (h : l.Inv)
    (hm : l.writer.mark = .ok w') :
    DirectLog.Inv
      { writer := w', opened := [], commits := l.commits ++ [(l.opened, w'.out.length)] } := by
  obtain ⟨hopts, -, hraw, hlens, hkeys, hbuf, hrecs, hcrc, hstart, hmode, x, hout⟩ :=
    layout_frame l.writer
  obtain ⟨done, hstream, hheld, hdone⟩ := h.stream
  set c := l.writer.opts.compactRecords with hc
  set w := l.writer.layout.1 with hw
  have hwrite : w.writeBatch.markCrc = crc32 (recordsBytes c l.opened) := by
    rw [writeBatch_markCrc w (hcrc.trans hdone), hbuf, hheld]
  have hmarker : markerBytes w.writeBatch.markCrc (w.recsLen - w.markStart) w.keys.length
      = markerOf c (0 + l.closed.flatten.length) l.opened := by
    rw [markerOf, hwrite, hrecs, hstart, hkeys, h.recsLen, h.markStart, h.keys,
      Nat.add_sub_cancel_left, zero_add]
  unfold SegmentWriter.mark at hm
  split_ifs at hm with hopen
  simp only [h.records, ne_eq, not_true_eq_false, if_false, ← hw, hopts, h.marks] at hm
  injection hm with hm
  have hclosed : DirectLog.closed ⟨w', [], l.commits ++ [(l.opened, w'.out.length)]⟩
      = l.closed ++ [l.opened] := by
    simp [DirectLog.closed]
  have hopts' : w'.opts = l.writer.opts := by rw [← hm]; exact hopts
  have hmode' : w'.mode = some .recordsFirst := by rw [← hm, ← h.records]; exact hmode
  have hlay := layout_of_mode hmode'
  have hbuf' : w'.batchBuf = [] := by rw [← hm]; rfl
  have hout' : w'.out = List.replicate (SUPER + HEADER) 0 ++
      directStream c 0 (l.closed ++ [l.opened]) := by
    have : w'.out = (w.out ++ w.batchBuf) ++
        markerBytes w.writeBatch.markCrc (w.recsLen - w.markStart) w.keys.length := by
      rw [← hm]; rfl
    rw [this, hmarker, hstream, hbuf, directStream_snoc, hheld]
    simp only [List.append_assoc]
  have hlen : (directStream c 0 (l.closed ++ [l.opened])).length
      = l.writer.recsLen + DIRECT_MARK_LEN := by
    rw [directStream_snoc, List.length_append, List.length_append, markerOf, length_markerBytes,
      h.recsLen, ← hc, add_assoc]
  have hrecs' : w'.recsLen = l.writer.recsLen + DIRECT_MARK_LEN := by
    rw [← hm, ← hrecs]; rfl
  have hkeys' : w'.keys = l.writer.keys := by rw [← hm]; exact hkeys
  refine
    { marks := by rw [hopts']; exact h.marks, records := by rw [hlay]
      raw := by rw [← hm]; exact hraw.trans h.raw, lens := by rw [← hm]; exact hlens.trans h.lens
      fresh := fun _ => hbuf', stream := ⟨[], ?_, ?_, ?_⟩, recsLen := ?_, markStart := ?_, keys := ?_
      keysLen := ?_, keysFit := by rw [hkeys']; exact h.keysFit, pairs := ?_, sizes := ?_
      ends := ?_, endsLe := ?_ }
  · rw [hlay, hclosed, hopts', List.append_nil]
    exact hout'
  · rw [hbuf']
    rfl
  · rw [← hm, crc32_nil]
  · rw [hclosed, hopts', hrecs', hlen]
    rfl
  · rw [hclosed, hopts', hlen, ← hm, ← hrecs]
    rfl
  · rw [hclosed, hkeys', h.keys, List.flatten_append, List.length_append]
    simp
  · have := h.keysLen
    rw [hkeys', hrecs']
    omega
  · rw [hclosed]
    refine ⟨?_, by simp⟩
    intro b hb
    rcases List.mem_append.mp hb with hb | hb
    · exact h.pairs.1 b hb
    · rw [List.mem_singleton.mp hb]
      exact h.pairs.2
  · rw [hclosed, hopts']
    refine ⟨?_, by norm_num [recordsBytes]⟩
    intro b hb
    rcases List.mem_append.mp hb with hb | hb
    · exact h.sizes.1 b hb
    · rw [List.mem_singleton.mp hb]
      exact h.sizes.2
  · rw [hclosed, hopts', markerEnds_snoc c 0, List.map_append, h.ends]
    congr 1
    rw [List.map_singleton, hout', List.length_append, hlen, List.length_replicate, h.recsLen,
      ← hc]
    simp only [add_assoc]
  · intro e he
    rcases List.mem_append.mp he with he | he
    · have h1 := h.endsLe e he
      have h2 : l.writer.out.length ≤ w'.out.length := by
        rw [← hm]
        show _ ≤ ((w.out ++ w.batchBuf) ++ _).length
        rw [hout]
        simp only [List.length_append]
        omega
      exact h1.trans h2
    · rw [List.mem_singleton.mp he]

lemma mark_opts {w w' : SegmentWriter} (h : w.mark = .ok w') : w'.opts = w.opts := by
  unfold SegmentWriter.mark at h
  simp only at h
  split_ifs at h
  injection h with h
  rw [← h]
  exact (layout_frame w).1

lemma sync_opts (w : SegmentWriter) : w.sync.opts = w.opts := by
  unfold SegmentWriter.sync
  split_ifs <;> rfl

/-- A sync keeps the invariant: what is held of the opened batch is written ahead of its marker. -/
lemma DirectLog.inv_sync {l : DirectLog} (h : l.Inv) :
    DirectLog.Inv { l with writer := l.writer.sync } := by
  unfold SegmentWriter.sync
  split_ifs with hempty
  · exact h
  · obtain ⟨done, hstream, hheld, hdone⟩ := h.stream
    obtain ⟨m, hmode⟩ : ∃ m, l.writer.mode = some m :=
      Option.ne_none_iff_exists'.mp (fun hnone => hempty (h.fresh hnone))
    have hlay := layout_of_mode hmode
    have hlay' : l.writer.writeBatch.layout = (l.writer.writeBatch, m) :=
      layout_of_mode (w := l.writer.writeBatch) hmode
    have hm : m = .recordsFirst := by rw [← h.records, hlay]
    rw [hlay] at hstream
    refine
      { marks := h.marks, records := by rw [hlay', hm], raw := h.raw, lens := h.lens
        fresh := fun _ => rfl
        stream := ⟨recordsBytes l.writer.opts.compactRecords l.opened, ?_, ?_, ?_⟩
        recsLen := h.recsLen, markStart := h.markStart, keys := h.keys, keysLen := h.keysLen
        keysFit := h.keysFit, pairs := h.pairs, sizes := h.sizes, ends := h.ends, endsLe := ?_ }
    · rw [hlay']
      show l.writer.out ++ l.writer.batchBuf = _
      rw [hstream, hheld]
      simp only [List.append_assoc]
      rfl
    · exact (List.append_nil _).symm
    · rw [hheld]
      exact writeBatch_markCrc l.writer hdone
    · intro c hc
      have := h.endsLe c hc
      show c.2 ≤ (l.writer.out ++ l.writer.batchBuf).length
      rw [List.length_append]
      omega

/-- **One call keeps the invariant**, and the writer's settings. -/
lemma DirectLog.inv_step {lz : Lz4} {l l' : DirectLog} {op : DirectOp} (h : l.Inv)
    (hin : op.Inline l.writer.opts.inlineMax) (hs : l.step lz op = .ok l') :
    l'.Inv ∧ l'.writer.opts = l.writer.opts := by
  have hopts := (layout_frame l.writer).1
  cases op with
  | putOne key value =>
      obtain ⟨w', hw, hl⟩ := except_bind_eq_ok.mp hs
      injection hl with hl
      subst hl
      have hput := putOne_streamed (r := (key, value)) h.marks h.records h.raw h.lens hin.1 hin.2
        hin.length_lt hw
      exact ⟨inv_put h hput hin.2, hput.opts.trans hopts⟩
  | put key value =>
      obtain ⟨w', hw, hl⟩ := except_bind_eq_ok.mp hs
      injection hl with hl
      subst hl
      have hput := putThree_streamed (r := (key, value)) h.marks h.records h.raw h.lens hin.1 hin.2
        hin.length_lt hw
      exact ⟨inv_put h hput hin.2, hput.opts.trans hopts⟩
  | mark =>
      obtain ⟨w', hw, hl⟩ := except_bind_eq_ok.mp hs
      injection hl with hl
      subst hl
      exact ⟨inv_mark h hw, mark_opts hw⟩
  | sync =>
      injection hs with hs
      subst hs
      exact ⟨inv_sync h, sync_opts l.writer⟩

/-- **Any calls keep the invariant.** -/
lemma DirectLog.inv_run {lz : Lz4} {l l' : DirectLog} (ops : List DirectOp) (h : l.Inv)
    (hin : ∀ op ∈ ops, op.Inline l.writer.opts.inlineMax) (hs : l.run lz ops = .ok l') :
    l'.Inv := by
  induction ops generalizing l with
  | nil =>
      injection hs with hs
      exact hs ▸ h
  | cons op ops ih =>
      obtain ⟨m, hm, hs⟩ := except_bind_eq_ok.mp hs
      obtain ⟨hinv, hopts⟩ := inv_step h (hin op (List.mem_cons_self ..)) hm
      refine ih hinv (fun o ho => ?_) hs
      rw [hopts]
      exact hin o (List.mem_cons_of_mem _ ho)

lemma DirectLog.batchesWithin_closed {l : DirectLog} (h : l.Inv) (n : ℕ) :
    batchesWithin l.writer.opts.compactRecords (SUPER + HEADER) n l.closed
      = (l.commits.filter (fun c => c.2 ≤ n)).map Prod.fst := by
  have hzip : l.closed.zip (l.commits.map Prod.snd) = l.commits := by
    rw [DirectLog.closed, ← List.unzip_fst, ← List.unzip_snd, List.zip_unzip]
  rw [batchesWithin, ← h.ends, hzip]

lemma recoverDirect_short {base : ℕ} {buf : Bytes} (h : buf.length < SUPER + HEADER) :
    recoverDirect base buf = [] := by
  rw [recoverDirect, recoverLoop, if_neg (by omega), List.take_nil]

/-- Recovery of any prefix of what a log has written. -/
lemma DirectLog.recover_take {l : DirectLog} {base : ℕ} (h : l.Inv) (hbase : 4 ∣ base) (n : ℕ) :
    recoverDirect base (l.writer.out.take n)
      = (l.commits.filter (fun c => c.2 ≤ n)).flatMap Prod.fst := by
  obtain ⟨-, -, -, -, -, -, -, -, -, -, x, hout⟩ := layout_frame l.writer
  obtain ⟨done, hstream, hheld, -⟩ := h.stream
  set c := l.writer.opts.compactRecords with hc
  set m := min n l.writer.out.length with hm
  have hgt : ∀ e ∈ l.commits, SUPER + HEADER < e.2 := by
    intro e he
    refine lt_markerEnds c l.closed _ e.2 ?_
    rw [hc, ← h.ends]
    exact List.mem_map_of_mem he
  have hfilter : l.commits.filter (fun e => e.2 ≤ n) = l.commits.filter (fun e => e.2 ≤ m) := by
    refine List.filter_congr (fun e he => ?_)
    have := h.endsLe e he
    simp only [decide_eq_decide]
    omega
  have hlen : (l.writer.out.take n).length = m := by rw [List.length_take]
  rw [hfilter]
  by_cases hhead : m < SUPER + HEADER
  · have hnone : l.commits.filter (fun e => e.2 ≤ m) = [] := by
      rw [List.filter_eq_nil_iff]
      intro e he
      have := hgt e he
      simp only [decide_eq_true_eq]
      omega
    rw [recoverDirect_short (by omega), hnone, List.flatMap_nil]
  · -- the file and what is still held are together the whole stream
    set full := List.replicate (SUPER + HEADER) 0 ++
      (directStream c 0 l.closed ++ recordsBytes c l.opened) with hfull
    have htake : l.writer.out.take n = full.take m := by
      have : full = l.writer.out ++ (x ++ l.writer.batchBuf) := by
        rw [← List.append_assoc, ← hout, hstream, hfull, hheld]
        simp only [List.append_assoc]
      rw [this, List.take_append_of_le_length (by omega), hm, List.take_eq_take_min]
    have hcount : (0 : ℕ) + l.closed.flatten.length < 2 ^ 64 := by
      have := h.keys
      have := h.keysFit
      omega
    have hpre : (List.replicate (SUPER + HEADER) (0 : UInt8)).length = SUPER + HEADER :=
      List.length_replicate
    have hcut : recoverLoop base (full.take m) (List.replicate (SUPER + HEADER) (0 : UInt8)).length
          (List.replicate (SUPER + HEADER) (0 : UInt8)).length [] 0
        = [] ++ (batchesWithin c (List.replicate (SUPER + HEADER) (0 : UInt8)).length m
            l.closed).flatten :=
      recoverLoop_cut l.closed l.opened hbase (by rw [hpre]; decide) h.pairs.1 h.pairs.2 hfull
        h.sizes.1 hcount (by omega)
    rw [hpre, List.nil_append, DirectLog.batchesWithin_closed h] at hcut
    rw [htake, recoverDirect, hcut, List.flatMap_def]

/-- **Recovery is prefix-exact.**  A marking writer is driven through any calls of `put_one`,
`begin`/`value`/`end`, `mark` and `sync`, each value one that its record carries inline.  Of any
prefix of what it wrote, `recover_direct` returns the pairs of exactly the batches whose marker
ends within the prefix, in order.  `base` is where the allocator put the buffer the file was read
into. -/
theorem recoverDirect_cut {lz : Lz4} {opts : WriterOptions} {ops : List DirectOp} {l : DirectLog}
    {base : ℕ} (hmarks : opts.marks = true) (hinline : 0 < opts.inlineMax)
    (hres : opts.headReserve = 0) (hbase : 4 ∣ base)
    (hin : ∀ op ∈ ops, op.Inline opts.inlineMax)
    (hrun : (DirectLog.start opts).run lz ops = .ok l) (n : ℕ) :
    recoverDirect base (l.writer.out.take n)
      = (l.commits.filter (fun c => c.2 ≤ n)).flatMap Prod.fst :=
  DirectLog.recover_take (DirectLog.inv_run ops (DirectLog.inv_start hmarks hinline hres) hin hrun)
    hbase n

/-- A batch with an empty key and an empty value, synced before its marker, and an opened batch
behind it. -/
theorem recoverDirect_cut_syncedBatch :
    ∃ l, (DirectLog.start ⟨4096, 64, 0, false, true, true, true, true⟩).run ⟨id, fun b _ => some b⟩
        [.putOne [] [], .put [1] [2, 3], .sync, .putOne [1, 0] [9], .mark, .put [7] [8]] = .ok l ∧
      l.commits.map Prod.fst = [[([], []), ([1], [2, 3]), ([1, 0], [9])]] ∧
      ∀ n, recoverDirect 16 (l.writer.out.take n)
        = (l.commits.filter (fun c => c.2 ≤ n)).flatMap Prod.fst := by
  have hrun : ((DirectLog.start ⟨4096, 64, 0, false, true, true, true, true⟩).run
      ⟨id, fun b _ => some b⟩ [.putOne [] [], .put [1] [2, 3], .sync, .putOne [1, 0] [9], .mark,
        .put [7] [8]]).toOption.map (fun l => l.commits.map Prod.fst)
      = some [[([], []), ([1], [2, 3]), ([1, 0], [9])]] := by decide +kernel
  cases hl : (DirectLog.start ⟨4096, 64, 0, false, true, true, true, true⟩).run
      ⟨id, fun b _ => some b⟩ [.putOne [] [], .put [1] [2, 3], .sync, .putOne [1, 0] [9], .mark,
        .put [7] [8]] with
  | error msg => rw [hl] at hrun; exact absurd hrun (by simp [Except.toOption])
  | ok l =>
      rw [hl] at hrun
      refine ⟨l, rfl, Option.some.inj hrun,
        recoverDirect_cut rfl (by norm_num) rfl (by norm_num) ?_ hl⟩
      intro op hop
      fin_cases hop <;> first | trivial | exact ⟨by decide +kernel, by decide +kernel⟩

end Supdb
