import Supdb.ReserveFit

/-!
# The planner's reserve is enough

A segment's writer, given the planner's reserve, takes the entries and finishes.  Its blocks and
records are the planner's; its section is the planner's in the blocks-first layout, and in the
records-first layout the same regions in another order, where the table's alignment may make the
section four bytes longer.  The row is planned at its worst alignment and a section starts at a
multiple of four, so those four bytes never cost a piece (`row_le`).

* `Laid` – a section laid out: the planner's but for those four bytes.
* `finish_recordsFirst`, `finish_blocksFirst` – a finish in either layout succeeds, and its head
  names a copy of every piece.
* `reserve_exact_iff` – the planner's counts are the writer's own except where the block size is
  zero and an empty run reaches a block.
* `planned_taken` – the writer takes every sorted input the planner answers for, unless a key has
  more values than an extent counts.
-/

namespace Supdb.Reserve

open StorageLib Flatindex SegmentWriter

/-! ## Sizes -/

section Sizes

variable {target : ℕ+} {inlineMax : ℕ} {compact : Bool} {keys : List (ℕ × ℕ)}

lemma segmentRecordLen_spec (klen run : ℕ) (inline compact : Bool) :
    4 ∣ segmentRecordLen klen run inline compact ∧
    8 ≤ segmentRecordLen klen run inline compact := by
  have h1 : 4 ∣ alignUp (4 + klen) REC_ALIGN := dvd_alignUp _ _
  have h2 : 4 + klen ≤ alignUp (4 + klen) REC_ALIGN := le_alignUp _ (by decide)
  rw [segmentRecordLen]
  by_cases hc : compact = true ∧ inline = true ∧ run < COMPACT_RUN
  · have h3 : 4 ∣ alignUp run REC_ALIGN := dvd_alignUp _ _
    rw [if_pos hc, Flatindex.recordLenCompact]
    omega
  · rw [if_neg hc]
    have h3 : 4 ∣ alignUp (if inline then run else 0) REC_ALIGN := dvd_alignUp _ _
    rw [recordLenTail, recordLen, EXT_BYTES]
    omega

/-- Records are whole words, and eight bytes at least. -/
lemma recordBytesOf_spec (inlineMax : ℕ) (compact : Bool) (keys : List (ℕ × ℕ)) :
    4 ∣ recordBytesOf inlineMax compact keys ∧
      keys.length * 8 ≤ recordBytesOf inlineMax compact keys := by
  induction keys with
  | nil => exact ⟨dvd_zero 4, le_refl 0⟩
  | cons k ks ih =>
      have hk := segmentRecordLen_spec k.1 k.2 (goesInline inlineMax k.2) compact
      simp only [recordBytesOf, List.map_cons, List.sum_cons, List.length_cons] at ih ⊢
      omega

/-- The fence's samples. -/
lemma length_fenceBlob {names : List Bytes} (h : names.map List.length = keys.map Prod.fst)
    (stride m : ℕ) :
    (fenceBlob (fun i => names.getD i []) stride m).length =
      ((List.range m).map (fun i => ((keys[i * stride]?).map Prod.fst).getD 0)).sum := by
  have hat : ∀ i, (names.getD i []).length = ((keys[i]?).map Prod.fst).getD 0 := by
    intro i
    rw [← List.getElem?_map, ← h, List.getElem?_map, List.getD_eq_getElem?_getD]
    cases names[i]? <;> rfl
  induction m with
  | zero => rfl
  | succ m ih =>
      rw [fenceBlob_succ, List.length_append, ih, hat, List.range_succ, List.map_append,
        List.sum_append, List.map_singleton, List.sum_singleton]

lemma fenceBlobOf_lt (hsized : ∀ k ∈ keys, k.1 ≤ 65535) (hn : keys.length < 2 ^ 31) :
    fenceBlobOf target keys < 2 ^ 48 := by
  have hle : fenceBlobOf target keys ≤ divCeil keys.length (fenceStride target keys.length) •
    65535 := by
    simp only [fenceBlobOf]
    refine (List.sum_le_card_nsmul _ 65535 fun l hl => ?_).trans (by simp)
    obtain ⟨i, -, rfl⟩ := List.mem_map.mp hl
    cases hk : keys[i * fenceStride target keys.length]? with
    | none => simp
    | some k => exact hsized k (List.mem_of_getElem? hk)
  have hcount := divCeil_le keys.length (fenceStride_pos target keys.length)
  rw [smul_eq_mul] at hle
  omega

/-- The fence's length. -/
def fenceLen (target : ℕ+) (keys : List (ℕ × ℕ)) : ℕ :=
  let fenceN := divCeil keys.length (fenceStride target keys.length)
  (if fenceN = 0 then 0 else (fenceN + 1) * 4) + fenceBlobOf target keys

/-- The fence a writer lays is as long as the planner's. -/
lemma length_fence {names : List Bytes} (h : names.map List.length = keys.map Prod.fst) :
    (fenceRegion (fun i => names.getD i []) (fenceStride target keys.length)
      (divCeil keys.length (fenceStride target keys.length))).length = fenceLen target keys := by
  rw [length_fenceRegion, length_fenceBlob h, fenceLen, fenceBlobOf]
  by_cases h0 : divCeil keys.length (fenceStride target keys.length) = 0
  · simp [h0]
  · simp only [if_neg h0, if_pos (Nat.pos_of_ne_zero h0)]

/-- Where the planner's section has its records. -/
lemma recordsAt_eq {k : ℕ} (hcap : hashCapFor keys.length = some (2 ^ k)) :
    recordsAt target keys.length (fenceBlobOf target keys) =
      HEADER + 2 ^ k * SLOT + keys.length * 4 + alignUp (fenceLen target keys) REC_ALIGN := by
  have hdvd : REC_ALIGN ∣ fenceAt keys.length := by
    simp only [fenceAt, REC_ALIGN, HEADER, SLOT]
    omega
  rw [recordsAt, fenceLen, Nat.add_assoc, alignUp_add (by decide) hdvd, fenceAt, hcap]
  rfl

/-- A section that starts at a multiple of four and is at most four bytes longer than the planned
one has no more pieces than were planned at the worst alignment. -/
lemma row_le {total planned keyOff : ℕ} (hoff : 4 ∣ keyOff) (hplanned : 4 ∣ planned)
    (hle : total ≤ planned + 4) :
    checksumRowLen total PIECE_SHIFT keyOff ≤ pages planned * 4 := by
  simp only [checksumRowLen, pages, pieceCount, divCeil, PIECE_SHIFT]
  omega

end Sizes

/-! ## A section laid out -/

/-- The fence ends where the next region starts. -/
lemma fenceSpan_eq {h : Flatindex.Header} {secLen : ℕ} (stop : ℕ) (hn : h.fenceN ≠ 0)
    (hlo : HEADER ≤ h.fenceOffsOff) (hstop : h.fenceOffsOff < stop) (hle : stop ≤ secLen)
    (hmem : stop ∈ [h.hashOff, h.dirBase, h.recsOff])
    (hall : ∀ x ∈ [h.hashOff, h.dirBase, h.recsOff], x ≤ h.fenceOffsOff ∨ stop ≤ x)
    (hcrc : stop ≤ h.crcOff) : fenceSpan h secLen = (h.fenceOffsOff, stop - h.fenceOffsOff) := by
  have hmin : ([h.hashOff, h.dirBase, h.recsOff, h.crcOff, secLen].filter
      (h.fenceOffsOff < ·)).min? = some stop := by
    rw [List.min?_eq_some_iff]
    constructor
    · refine List.mem_filter.mpr ⟨?_, by simpa using hstop⟩
      simp only [List.mem_cons, List.not_mem_nil, or_false] at hmem ⊢
      omega
    · intro x hx
      obtain ⟨hx, hlt⟩ := List.mem_filter.mp hx
      have hlt := of_decide_eq_true hlt
      simp only [List.mem_cons, List.not_mem_nil, or_false] at hx
      rcases hx with rfl | rfl | rfl | rfl | rfl
      · exact (hall _ (by simp)).resolve_left (by omega)
      · exact (hall _ (by simp)).resolve_left (by omega)
      · exact (hall _ (by simp)).resolve_left (by omega)
      · exact hcrc
      · exact hle
  rw [fenceSpan, if_neg hn, if_neg (by omega)]
  simp only [hmin, Option.getD_some, min_eq_left hle]

/-- A section of the keys of `keys` as a finish lays it out: at most four bytes longer than the
planned one, the fence padded to the region behind it. -/
structure Laid (target : ℕ+) (keys : List (ℕ × ℕ)) (planned : ℕ) (t : Trailer)
    (recsOff recsLen : ℕ) : Prop where
  cap : ∃ k ≤ 33, t.cap = 2 ^ k ∧ keys.length < 2 ^ k
  stride : t.stride = fenceStride target keys.length
  fenceN : t.fenceN = divCeil keys.length t.stride
  recsLen : recsLen ≤ MAX_RECS
  header : HEADER ≤ t.fenceOffsOff
  stop : t.fenceOffsOff + alignUp (fenceLen target keys) REC_ALIGN ∈ [t.hashOff, t.dirOff, recsOff]
  regions : ∀ x ∈ [t.hashOff, t.dirOff, recsOff], x ≤ t.total ∧
    (x ≤ t.fenceOffsOff ∨ t.fenceOffsOff + alignUp (fenceLen target keys) REC_ALIGN ≤ x)
  dir : t.dirOff + keys.length * 4 ≤ t.total
  total : t.total ≤ planned + 4
  small : t.total < 2 ^ 62

section Laid

variable {target : ℕ+} {inlineMax blocks written generation recsOff recsLen keyOff keyLen : ℕ}
  {compact : Bool} {keys : List (ℕ × ℕ)} {t : Trailer} {w : SegmentWriter} {file table : Bytes}

/-- The words of its header. -/
lemma Laid.words {planned : ℕ} (h : Laid target keys planned t recsOff recsLen)
    (hgen : generation < 2 ^ 64) (hn : keys.length < 2 ^ 31) :
    ∀ x ∈ sectionWords generation keys.length recsOff recsLen t t.total PIECE_SHIFT,
    x < 2 ^ 64 := by
  obtain ⟨k, hk, hcap, -⟩ := h.cap
  have hpow : 2 ^ k ≤ 2 ^ 33 := Nat.pow_le_pow_right (by norm_num) hk
  have hstride : t.stride < 2 ^ 64 := by rw [h.stride]; exact fenceStride_lt target (by omega)
  have hfn : t.fenceN ≤ keys.length := by
    rw [h.fenceN, h.stride]
    exact divCeil_le _ (fenceStride_pos target _)
  have hhash := (h.regions t.hashOff (by simp)).1
  have hdir := h.dir
  have hrecs := (h.regions recsOff (by simp)).1
  have hstop := (h.regions _ h.stop).1
  have hsmall := h.small
  have hlen := h.recsLen
  simp only [MAX_RECS] at hlen
  intro x hx
  simp only [sectionWords, headerWords, List.cons_append, List.nil_append, List.mem_cons,
    List.not_mem_nil, or_false, PIECE_SHIFT] at hx
  omega

/-- A head over such a section names a copy of every piece. -/
lemma Laid.placed (host : Host) {r : Pieces}
    (hr : r = piecesOf target inlineMax compact keys blocks)
    (h : Laid target keys (sectionLen target inlineMax compact keys) t recsOff recsLen)
    (hrecs : recordBytesOf inlineMax compact keys ≤ MAX_RECS) (hgen : generation < 2 ^ 64)
    (hreserveOff : w.reserveOff = SUPER) (hreserve : w.opts.headReserve = r.bytes)
    (hoff : 4 ∣ keyOff) (htable : table.length ≤ r.table)
    (htableLen : table.length = blockTableLen written) (hsmall : SUPER + r.bytes < 2 ^ 64)
    (hbehind : SUPER + r.bytes ≤ keyOff) (hkeyLen : t.total ≤ keyLen)
    (hfile : keyOff + t.total + checksumRowLen t.total PIECE_SHIFT keyOff ≤ file.length) :
    ∃ file' ext, w.writeHead host file table
        (headerBytes (sectionWords generation keys.length recsOff recsLen t t.total PIECE_SHIFT))
        keyOff keyLen SUPER generation = .ok file' ∧
      decodeSuperExt file' generation = some ext ∧
      Placed file' keys.length written r.bytes ext := by
  obtain ⟨h4, h8⟩ := recordBytesOf_spec inlineMax compact keys
  have hn : keys.length < 2 ^ 31 := by simp only [MAX_RECS] at hrecs; omega
  obtain ⟨k, hk, hcap, hroomy⟩ := h.cap
  have hstop := h.regions _ h.stop
  have hheader := h.header
  have hH : HEADER = 192 := rfl
  have hdir := h.dir
  obtain ⟨hdr, hparse, hnk, hho, hdo, hdb, hro, hfo, hfn, hco, hps⟩ :=
    Header.parse_eq (h.words hgen hn) ⟨k, hcap⟩ (by rw [hcap]; exact hroomy.le)
      (by omega : t.total ≠ 0)
  obtain ⟨m, hcapm, -, -⟩ := hashCapFor_spec (by omega : keys.length < 2 ^ 32)
  have hrecordsAt := @recordsAt_eq target keys m hcapm
  have hfenceAt : fenceAt keys.length = HEADER + 2 ^ m * SLOT + keys.length * 4 := by
    rw [fenceAt, hcapm]
    rfl
  have hdvd : 4 ∣ alignUp (fenceLen target keys) REC_ALIGN := dvd_alignUp _ _
  have hplanned : 4 ∣ sectionLen target inlineMax compact keys := by
    rw [sectionLen, hrecordsAt]
    simp only [HEADER, SLOT]
    omega
  have hstride := fenceStride_pos target keys.length
  -- the span of the fence: nothing without keys, else up to the next region
  have hspan : (keys.length = 0 ∧ fenceSpan hdr keyLen = (0, 0)) ∨ (0 < keys.length ∧
      fenceSpan hdr keyLen = (t.fenceOffsOff, alignUp (fenceLen target keys) REC_ALIGN) ∧
      0 < alignUp (fenceLen target keys) REC_ALIGN ∧
      r.fence = alignUp (fenceLen target keys) REC_ALIGN) := by
    by_cases h0 : keys.length = 0
    · refine Or.inl ⟨h0, ?_⟩
      have hzero : hdr.fenceN = 0 := by
        rw [hfn, h.fenceN, h.stride, h0]
        exact Nat.div_eq_of_lt (by rw [h0] at hstride; omega)
      rw [fenceSpan, if_pos hzero]
    · have hfpos : 0 < divCeil keys.length (fenceStride target keys.length) :=
        divCeil_pos (by omega) hstride
      have hlen : 0 < alignUp (fenceLen target keys) REC_ALIGN := by
        have hle : fenceLen target keys ≤ alignUp (fenceLen target keys) REC_ALIGN :=
          le_alignUp _ (by decide)
        have : 0 < fenceLen target keys := by
          rw [fenceLen]
          simp only [if_neg hfpos.ne']
          omega
        omega
      refine Or.inr ⟨by omega, ?_, hlen, ?_⟩
      · rw [fenceSpan_eq (t.fenceOffsOff + alignUp (fenceLen target keys) REC_ALIGN)
          (by rw [hfn, h.fenceN, h.stride]; omega) (by rw [hfo]; exact hheader)
          (by rw [hfo]; omega) (by omega) (by rw [hho, hdb, hro]; exact h.stop)
          (by rw [hho, hdb, hro, hfo]; exact fun x hx => (h.regions x hx).2)
          (by rw [hco]; exact hstop.1), hfo, Nat.add_sub_cancel_left]
      · rw [hr, piecesOf]
        simp only [if_neg hfpos.ne']
        rw [hrecordsAt, hfenceAt, Nat.add_sub_cancel_left]
  have hrow : checksumRowLen hdr.crcOff hdr.pieceShift keyOff ≤ r.row := by
    rw [hco, hps, hr]
    exact row_le hoff hplanned h.total
  have hroom : SUPER + r.bytes ≤ file.length := by omega
  obtain ⟨file', ext, hok, hext, hplaced⟩ := writeHead_placed host hparse
    (length_headerBytes (by show 21 ≤ 23; decide)) hgen (by rw [hco]; omega) hsmall
    (by
      rw [hco, hps, checksumRowLen, pieceCount]
      exact Nat.mul_pos (divCeil_pos (by omega) (by decide)) (by norm_num))
    (fun hpos => by
      rcases hspan with ⟨h0, -⟩ | ⟨-, hs, hlen, -⟩
      · omega
      · rw [hs]
        exact hlen)
    htableLen
    { reserveOff := hreserveOff, reserve := hreserve, behind := hbehind, room := hroom
      tableLe := htable
      rowLe := hrow
      fenceLe := by
        rcases hspan with ⟨-, hs⟩ | ⟨-, hs, -, hf⟩
        · rw [hs]
          exact Nat.zero_le _
        · rw [hs, hf]
      dirLe := by rw [hnk, hr]; exact le_refl _
      rowIn := by rw [hco, hps]; exact hfile
      fenceIn := by
        rcases hspan with ⟨-, hs⟩ | ⟨-, hs, -, -⟩
        · rw [hs]
          omega
        · rw [hs]
          omega
      dirIn := by rw [hnk, hdo]; omega }
  exact ⟨file', ext, hok, hext, by rw [← hnk]; exact hplaced⟩

end Laid

/-! ## The records-first layout -/

section Finish

variable {target : ℕ+} {inlineMax : ℕ} {compact : Bool} {keys : List (ℕ × ℕ)}

/-- The streamed section's regions, behind records that are whole words. -/
lemma laid_stream {names : List Bytes} (hnames : names.map List.length = keys.map Prod.fst)
    (hrecs : recordBytesOf inlineMax compact keys ≤ MAX_RECS) (hsized : ∀ k ∈ keys, k.1 ≤ 65535)
    {each : ℕ → ℕ × ℕ} (heach : ∀ i, (each i).1 < 2 ^ 56) (generation : ℕ) (lookahead : Bool) :
    ∃ t trailer, streamTrailer target keys.length (recordBytesOf inlineMax compact keys)
        (fun i => names.getD i []) each generation lookahead =
          some (headerBytes (headerWords generation keys.length HEADER
            (recordBytesOf inlineMax compact keys) t), trailer, t.total) ∧
      Laid target keys (sectionLen target inlineMax compact keys) t HEADER
        (recordBytesOf inlineMax compact keys) ∧
      HEADER + recordBytesOf inlineMax compact keys + trailer.length = t.total := by
  obtain ⟨h4, h8⟩ := recordBytesOf_spec inlineMax compact keys
  have hn : keys.length < 2 ^ 31 := by simp only [MAX_RECS] at hrecs; omega
  obtain ⟨k, hcap, hk33, hnk⟩ := hashCapFor_spec (by omega : keys.length < 2 ^ 32)
  obtain ⟨slots, hfill, hslots, -, -⟩ := @fillHash_spec _ (fun i => ((each i).2, (each i).1)) _
    hnk (fun i _ => heach i) lookahead
  have hblob := @fenceBlobOf_lt target _ hsized hn
  have hfence := @length_fence target _ _ hnames
  have hfn := divCeil_le keys.length (fenceStride_pos target keys.length)
  have hdvd : 4 ∣ alignUp (fenceLen target keys) REC_ALIGN := dvd_alignUp _ _
  have hup : alignUp (fenceLen target keys) REC_ALIGN < fenceLen target keys + 4 :=
    alignUp_lt _ (by decide)
  have hlen : fenceLen target keys < 2 ^ 49 := by
    rw [fenceLen]
    split_ifs <;> omega
  have hrecordsAt := @recordsAt_eq target keys k hcap
  have hdir : ((List.range keys.length).flatMap (fun i => leBytes 4 (each i).1)).length =
      keys.length * 4 := by
    rw [length_flatMap_of _ 4 _ (fun i _ => length_leBytes 4 _), List.length_range]
  have htable : (slots.flatMap (leBytes SLOT)).length = 2 ^ k * SLOT := by
    rw [length_flatMap_leBytes, hslots]
  set fence := fenceRegion (fun i => names.getD i []) (fenceStride target keys.length)
    (divCeil keys.length (fenceStride target keys.length)) with hfenceDef
  set dir := (List.range keys.length).flatMap (fun i => leBytes 4 (each i).1) with hdirDef
  set recs := recordBytesOf inlineMax compact keys with hrecsDef
  set lay := layTrailer recs keys.length (2 ^ k) (fenceStride target keys.length)
    (divCeil keys.length (fenceStride target keys.length)) fence dir (slots.flatMap (leBytes SLOT))
    with hlay
  -- the four offsets, in whole words: only the table's is rounded
  have ho0 : lay.1.fenceOffsOff = HEADER + recs :=
    alignUp_of_dvd (by norm_num) (by simp only [HEADER]; omega)
  have ho1 : lay.1.dirOff = HEADER + recs + alignUp (fenceLen target keys) REC_ALIGN := by
    show alignUp (lay.1.fenceOffsOff + fence.length) 4 = _
    rw [ho0, hfence]
    exact alignUp_add (by norm_num) (by simp only [HEADER]; omega)
  have ho2 : lay.1.hashOff = alignUp (lay.1.dirOff + keys.length * 4) 8 := rfl
  have ho3 : lay.1.total = lay.1.hashOff + 2 ^ k * SLOT := rfl
  have hlo := le_alignUp (lay.1.dirOff + keys.length * 4) (by norm_num : 0 < 8)
  have hhi := alignUp_lt (lay.1.dirOff + keys.length * 4) (by norm_num : 0 < 8)
  have hround : 8 ∣ lay.1.hashOff := dvd_alignUp _ _
  have hpow : 2 ^ k ≤ 2 ^ 33 := Nat.pow_le_pow_right (by norm_num) hk33
  have hH : HEADER = 192 := rfl
  simp only [MAX_RECS] at hrecs
  refine ⟨lay.1, lay.2, ?_, ?_, ?_⟩
  · rw [streamTrailer, if_neg (by simp only [MAX_RECS]; omega), hcap]
    simp only [Option.bind_eq_bind, Option.bind_some, hfill]
    rfl
  · refine
      { cap := ⟨k, hk33, rfl, hnk⟩, stride := rfl, fenceN := rfl
        recsLen := by simp only [MAX_RECS]; exact hrecs
        header := by rw [ho0]; exact Nat.le_add_right _ _
        stop := by rw [ho0, ← ho1]; simp
        regions := ?_, dir := ?_, total := ?_, small := ?_ }
    · intro x hx
      simp only [List.mem_cons, List.not_mem_nil, or_false] at hx
      simp only [SLOT] at ho3
      rcases hx with rfl | rfl | rfl <;> omega
    · simp only [SLOT] at ho3
      omega
    · rw [sectionLen, hrecordsAt]
      simp only [SLOT] at ho3 ⊢
      omega
    · simp only [SLOT] at ho3
      omega
  · have hspec :=
      (@layTrailer_spec _ (List.replicate recs 0) fence _ _ [] _ _ _
      (fenceStride target keys.length) (divCeil keys.length (fenceStride target keys.length))
      (List.length_replicate : (List.replicate HEADER (0 : UInt8)).length = HEADER) hdir htable rfl).1
    rw [List.length_replicate] at hspec
    exact hspec

/-- The planner's reserve is whole words. -/
lemma dvd_bytes {blocks : ℕ} {r : Pieces} (hr : r = piecesOf target inlineMax compact keys blocks) :
    4 ∣ r.bytes := by
  have hdir : r.directory = keys.length * 4 := by rw [hr]; rfl
  have htable : r.table = blockTableLen blocks := by rw [hr]; rfl
  have hup : 8 ∣ alignUp (alignUp (alignUp r.table 8 + r.row) 8 + r.fence) 8 := dvd_alignUp _ _
  simp only [Pieces.bytes, fits, hdir]
  rcases max_choice (alignUp (alignUp (alignUp r.table 8 + r.row) 8 + r.fence) 8 + keys.length * 4)
    (r.table + 8) with h | h
  · rw [h]
    omega
  · rw [h, htable, blockTableLen, BLK_HEADER, BLK_ENTRY, CRC_ROW, MAX_CHUNK_CRCS]
    omega

lemma length_placeHeld (held : List Bytes) (locs : List BlockLoc) (pos : ℕ) :
    (placeHeld held locs pos).length = locs.length := by
  induction held generalizing locs pos with
  | nil => cases locs <;> rfl
  | cons b held ih =>
      cases locs with
      | nil => rfl
      | cons loc locs => rw [placeHeld, List.length_cons, List.length_cons, ih]

lemma length_rowFor {out header : Bytes} {keyOff total : ℕ} (h : 0 < total) :
    (rowFor out header keyOff total).length = checksumRowLen total PIECE_SHIFT keyOff := by
  rw [rowFor, length_flatMap_of _ 4 _ (fun r _ => length_leBytes 4 _), length_pieces h,
    checksumRowLen]

variable {opts : WriterOptions} {w : SegmentWriter} {lz : Lz4}

/-- The layout a writer decides on is the one it keeps. -/
lemma layout_eq (h : Streamed opts keys w.layout.1) :
    w.layout = (w.layout.1, layoutOf opts) ∧ w.openKey = none := by
  obtain ⟨heq, hmode, hopen, -⟩ := layout_spec w
  have hsnd : w.layout.2 = layoutOf opts := Option.some.inj (hmode.symm.trans h.kept.mode)
  exact ⟨by rw [heq, hsnd], hopen.symm.trans h.kept.openKey⟩

/-- A writer about to lay its section down: nothing is staged, nothing is held for a marker. -/
lemma flushed (lz : Lz4) (h : Streamed opts keys w) :
    Kept opts keys (flushBlock lz w).sync ∧ RowsOk (flushBlock lz w).sync ∧
      (flushBlock lz w).sync.blocks.length =
        blocksFor (blockRuns opts.inlineMax keys) (max opts.blockSize 1) ∧
      (flushBlock lz w).sync.out.length = (flushBlock lz w).sync.pos := by
  obtain ⟨hf, hrows, -, hblocks⟩ := flushBlock_spec lz w h.cuts.rows
  have hkept := h.kept.framed hf
  have hcount : (flushBlock lz w).blocks.length =
      blocksFor (blockRuns opts.inlineMax keys) (max opts.blockSize 1) := by
    rw [hblocks, blocksFor, ← h.cuts.sizes, lastBlock]
    have hne : w.builder ≠ [] ↔ w.builder.length ≠ 0 := not_congr List.length_eq_zero_iff.symm
    simp only [hne]
  set w₁ := flushBlock lz w
  rw [sync]
  by_cases hb : w₁.batchBuf = []
  · rw [if_pos hb]
    refine ⟨hkept, hrows, hcount, ?_⟩
    by_cases hin : 0 < opts.inlineMax
    · have hwritten := (hkept.first hin).written
      rw [hb, List.length_nil, Nat.add_zero] at hwritten
      exact hwritten
    · exact (hkept.last (by omega)).written
  · rw [if_neg hb]
    have hin : 0 < opts.inlineMax := by
      by_contra h0
      exact hb (hkept.last (by omega)).batch
    have hr := hkept.first hin
    have hout : (w₁.out ++ w₁.batchBuf).length = w₁.pos := by
      rw [List.length_append]
      exact hr.written
    refine ⟨⟨hkept.settings, hkept.mode, hkept.reserveOff, hkept.openKey, hkept.raw, hkept.lens,
      hkept.lengths, fun _ => ?_, fun h0 => by omega⟩, hrows, hcount, hout⟩
    exact ⟨hr.recsLen, hr.pos, by simp only [writeBatch, List.length_nil, Nat.add_zero]; exact hout,
      hr.offs⟩

/-- The table goes into the reserve. -/
lemma placeTable_eq {r : Pieces} (hopts : w.opts.headReserve = r.bytes)
    (hoff : w.reserveOff = SUPER) (hrows : RowsOk w)
    (hle : blockTableLen w.blocks.length ≤ r.table) :
    w.placeTable = (w, encodeBlocks w.blocks w.chunkRows, SUPER) ∧
      (encodeBlocks w.blocks w.chunkRows).length = blockTableLen w.blocks.length := by
  have hlen := length_encodeBlocks hrows.2 hrows.1
  have hspare : r.table + 8 ≤ r.bytes := le_max_right _ _
  have hin : w.tableInReserve (encodeBlocks w.blocks w.chunkRows) = true := by
    rw [tableInReserve, hlen, hoff, hopts]
    exact decide_eq_true ⟨by decide, by omega⟩
  rw [placeTable]
  simp only [if_pos hin, hoff]
  exact ⟨trivial, hlen⟩

/-! ## The blocks-first layout -/

/-- The entries a blocks-first writer has kept: their names, and their records. -/
lemma kept_spec (names : List Bytes) (exts : List Ext) (tails : List Bytes)
    (hnames : names.map List.length = keys.map Prod.fst) (hexts : exts.length = keys.length)
    (htails : tails.length = keys.length) (hblock : ∀ e ∈ exts, e.isInline = false)
    (hnone : ∀ x ∈ tails, x = []) (compact : Bool) :
    ((names.zip (exts.zip tails)).map
        (fun e => (⟨e.1, [e.2.1], e.2.2⟩ : FlatEntry))).map FlatEntry.key = names ∧
      (recordsOf true ((names.zip (exts.zip tails)).map
        (fun e => (⟨e.1, [e.2.1], e.2.2⟩ : FlatEntry)))).length = recordBytesOf 0 compact keys := by
  induction keys generalizing names exts tails with
  | nil =>
      obtain rfl : names = [] := by simpa using hnames
      exact ⟨rfl, rfl⟩
  | cons k ks ih =>
      match names, exts, tails, hnames, hexts, htails with
      | name :: names, ext :: exts, tail :: tails, hnames, hexts, htails =>
          obtain ⟨hlen, hnames⟩ := List.cons.inj hnames
          obtain ⟨hmap, hbytes⟩ := ih names exts tails hnames (Nat.succ.inj hexts)
            (Nat.succ.inj htails) (fun e he => hblock e (List.mem_cons_of_mem _ he))
            (fun x hx => hnone x (List.mem_cons_of_mem _ hx))
          have hrec := @recordLenOf_block name _ true k.2
            (hblock ext (List.mem_cons_self ..))
          rw [recordLenOf, hlen] at hrec
          obtain rfl := hnone tail (List.mem_cons_self ..)
          refine ⟨by simp only [List.zip_cons_cons, List.map_cons, hmap], ?_⟩
          simp only [List.zip_cons_cons, List.map_cons]
          rw [recordsOf_cons, List.length_append, length_recordBytes, hlen, hrec, hbytes]
          simp [recordBytesOf, goesInline_zero, segmentRecordLen]

/-- The section built at the end, in the planner's own order. -/
lemma laid_inline (order : ℕ → ℕ) (es : List FlatEntry) (hashOf : Bytes → ℕ) (generation : ℕ)
    (hnames : (es.map FlatEntry.key).map List.length = keys.map Prod.fst)
    (hbytes : (recordsOf true es).length = recordBytesOf inlineMax compact keys)
    (hexts : ∀ e ∈ es, e.exts.length = 1)
    (hrecs : recordBytesOf inlineMax compact keys ≤ MAX_RECS) (hsized : ∀ k ∈ keys, k.1 ≤ 65535) :
    ∃ t recsOff rest, encodeInline target order es generation hashOf =
        some (headerBytes (headerWords generation keys.length recsOff
          (recordBytesOf inlineMax compact keys) t) ++ rest, t.total) ∧
      Laid target keys (sectionLen target inlineMax compact keys) t recsOff
        (recordBytesOf inlineMax compact keys) ∧ HEADER + rest.length = t.total := by
  obtain ⟨h4, h8⟩ := recordBytesOf_spec inlineMax compact keys
  have hcount : es.length = keys.length := by
    rw [← List.length_map FlatEntry.key, ← List.length_map List.length,
      hnames, List.length_map]
  have hok : ∀ e ∈ es, e.key.length ≤ 65535 ∧ e.exts.length < COMPACT := by
    intro e he
    have hmem : e.key.length ∈ keys.map Prod.fst := by
      rw [← hnames]
      exact List.mem_map_of_mem (List.mem_map_of_mem he)
    obtain ⟨k, hk, hlen⟩ := List.mem_map.mp hmem
    exact ⟨by rw [← hlen]; exact hsized k hk, by rw [hexts e he]; decide⟩
  have hn : keys.length < 2 ^ 31 := by simp only [MAX_RECS] at hrecs; omega
  obtain ⟨k, slots, hk33, hcap, hnk, hslots, -, -, henc⟩ := encodeInline_eq target order generation
    hashOf hok (by rw [hbytes]; exact hrecs)
  have hspec := (@inlineBody_spec es target k slots _ [] (List.length_replicate
    : (List.replicate HEADER (0 : UInt8)).length = HEADER) hslots).1
  have hkeyOf : keyOf es = fun i => (es.map FlatEntry.key).getD i [] := by
    funext i
    rw [keyOf, List.getD_eq_getElem?_getD, List.getElem?_map]
  have hfence := @length_fence target _ _ hnames
  rw [← hkeyOf] at hfence
  have hblob := @fenceBlobOf_lt target _ hsized hn
  have hfn := divCeil_le keys.length (fenceStride_pos target keys.length)
  have hup : alignUp (fenceLen target keys) REC_ALIGN < fenceLen target keys + 4 :=
    alignUp_lt _ (by decide)
  have hlen : fenceLen target keys < 2 ^ 49 := by
    rw [fenceLen]
    split_ifs <;> omega
  have hpow : 2 ^ k ≤ 2 ^ 33 := Nat.pow_le_pow_right (by norm_num) hk33
  have hH : HEADER = 192 := rfl
  rw [hcount] at hcap hnk
  have hrecordsAt := @recordsAt_eq target keys k hcap
  set t := (inlineTrailer target k es).1 with ht
  set recsOff := (inlineTrailer target k es).2 with hro
  have hts : t.stride = fenceStride target keys.length := by rw [← hcount]; rfl
  have htn : t.fenceN = divCeil keys.length t.stride := by rw [← hcount]; rfl
  have hho : t.hashOff = HEADER := rfl
  have hdo : t.dirOff = HEADER + 2 ^ k * SLOT := rfl
  have hfo : t.fenceOffsOff = HEADER + 2 ^ k * SLOT + keys.length * 4 := by rw [← hcount]; rfl
  have htotal : t.total = recsOff + recordBytesOf inlineMax compact keys := by rw [← hbytes]; rfl
  have hat : recsOff = t.fenceOffsOff + alignUp (fenceLen target keys) REC_ALIGN := by
    have hdef : recsOff = alignUp (t.fenceOffsOff +
        (fenceRegion (keyOf es) t.stride t.fenceN).length) REC_ALIGN := rfl
    rw [hdef, htn, hts, hfence, hfo]
    exact alignUp_add (by decide) (by simp only [REC_ALIGN, HEADER, SLOT]; omega)
  rw [hbytes, hcount] at henc
  simp only [SLOT] at hdo hfo hrecordsAt
  refine ⟨t, recsOff, inlineBody target k es slots, henc, ?_, hspec⟩
  refine
    { cap := ⟨k, hk33, rfl, hnk⟩, stride := hts, fenceN := htn, recsLen := hrecs
      header := by omega
      stop := by rw [hat]; simp
      regions := ?_, dir := by omega, total := ?_, small := ?_ }
  · intro x hx
    simp only [List.mem_cons, List.not_mem_nil, or_false] at hx
    rcases hx with rfl | rfl | rfl <;> omega
  · rw [sectionLen]
    omega
  · simp only [MAX_RECS] at hrecs
    omega

/-! ## The finish -/

section Planned

variable (host : Host) {generation blocks : ℕ} {r : Pieces} (h : Streamed opts keys w.layout.1)
  (hr : r = piecesOf host.target opts.inlineMax opts.compactRecords keys blocks)
  (hblocks : blocksFor (blockRuns opts.inlineMax keys) (max opts.blockSize 1) ≤ blocks)
  (hrecs : recordBytesOf opts.inlineMax opts.compactRecords keys ≤ MAX_RECS)
  (hsized : ∀ k ∈ keys, k.1 ≤ 65535) (hgen : generation < 2 ^ 64)
  (hreserve : opts.headReserve = r.bytes) (hsmall : SUPER + r.bytes < 2 ^ 64)

include h hr hblocks hrecs hsized hgen hreserve hsmall

/-- A records-first finish names a copy of every piece. -/
lemma finish_recordsFirst (hin : 0 < opts.inlineMax) :
    ∃ file ext, w.finish host lz generation = .ok file ∧
      decodeSuperExt file generation = some ext ∧
      Placed file keys.length (blocksFor (blockRuns opts.inlineMax keys) (max opts.blockSize 1))
        r.bytes ext := by
  obtain ⟨hlay, hopen⟩ := layout_eq h
  obtain ⟨hkept, hrows, hcount, hout⟩ := flushed lz h
  have hfirst := hkept.first hin
  rw [layoutOf, if_pos hin] at hlay
  have hopen' : ¬ w.openKey.isSome = true := by rw [hopen]; exact Bool.false_ne_true
  rw [finish, if_neg hopen', hlay]
  dsimp only
  set w₁ := (flushBlock lz w.layout.1).sync with hw₁
  have hkeys : w₁.keys.length = keys.length := by
    rw [← List.length_map List.length, hkept.lengths, List.length_map]
  have hoffs : ∀ i, (w₁.recOffs.getD i 0) < 2 ^ 56 := by
    intro i
    rw [List.getD_eq_getElem?_getD]
    cases hi : w₁.recOffs[i]? with
    | none => simp
    | some x => exact lt_trans (hfirst.offs x (List.mem_of_getElem? hi)) (by norm_num)
  obtain ⟨t, trailer, hstream, hlaid, htotal⟩ := @laid_stream host.target _ _ _ _ hkept.lengths
    hrecs hsized (fun i => (w₁.recOffs.getD i 0, fnv64 (w₁.keys.getD i []))) hoffs generation
    w₁.opts.lookahead
  have hhead : SUPER + opts.headReserve = w₁.keyStart := by
    rw [keyStart, hkept.reserveOff, hkept.settings]
    rfl
  set header := headerBytes (sectionWords generation keys.length HEADER
    (recordBytesOf opts.inlineMax opts.compactRecords keys) t t.total PIECE_SHIFT) with hheader
  have hnamed : setChecksumWords (headerBytes (headerWords generation keys.length HEADER
      (recordBytesOf opts.inlineMax opts.compactRecords keys) t)) t.total = header := by
    have heq := setChecksumWords_header generation keys.length HEADER
      (recordBytesOf opts.inlineMax opts.compactRecords keys) t t.total []
    rwa [List.append_nil, List.append_nil] at heq
  have hlenHeader : header.length = HEADER := length_headerBytes (by show 21 ≤ 23; decide)
  have hpos : 0 < t.total := by
    have hH : HEADER = 192 := rfl
    omega
  set row := rowFor (w₁.out ++ trailer) header w₁.keyStart t.total with hrow
  have hlenRow : row.length = checksumRowLen t.total PIECE_SHIFT w₁.keyStart := length_rowFor hpos
  set pos := w₁.pos + trailer.length + row.length
  set w₂ : SegmentWriter := { w₁ with
    out := w₁.out ++ trailer ++ (row ++ w₁.pendingBlocks.flatten)
    pos := pos + w₁.pendingBlocks.flatten.length
    blocks := placeHeld w₁.pendingBlocks w₁.blocks pos, pendingBlocks := [] } with hw₂
  have hclose : w₁.closeSection host generation =
      .ok (w₂, w₁.keyStart, t.total + row.length, header) := by
    have hstream' : streamTrailer host.target w₁.keys.length w₁.recsLen (fun i => w₁.keys.getD i [])
        (fun i => (w₁.recOffs.getD i 0, fnv64 (w₁.keys.getD i []))) generation w₁.opts.lookahead =
          some (headerBytes (headerWords generation keys.length HEADER
            (recordBytesOf opts.inlineMax opts.compactRecords keys) t), trailer, t.total) := by
      rw [hkeys, hfirst.recsLen]
      exact hstream
    simp only [closeSection, hstream', hnamed]
    rfl
  have hrows₂ : RowsOk w₂ := ⟨hrows.1.trans (length_placeHeld _ _ _).symm, hrows.2⟩
  have hcount₂ : w₂.blocks.length =
      blocksFor (blockRuns opts.inlineMax keys) (max opts.blockSize 1) :=
    (length_placeHeld _ _ _).trans hcount
  have hopts₂ : w₂.opts.headReserve = r.bytes := by
    rw [show w₂.opts = w₁.opts from rfl, hkept.settings, ← hreserve]
    rfl
  have htable : blockTableLen w₂.blocks.length ≤ r.table := by
    rw [hcount₂, hr]
    exact blockTableLen_mono hblocks
  obtain ⟨hplace, hlenTable⟩ := placeTable_eq hopts₂ hkept.reserveOff hrows₂ htable
  have hlenOut : w₂.out.length = w₁.keyStart + t.total + row.length +
      w₁.pendingBlocks.flatten.length := by
    have hp := hfirst.pos
    rw [hfirst.recsLen, hhead] at hp
    simp only [hw₂, List.length_append, hout]
    omega
  have hlenFile : (writeAt w₂.out w₁.keyStart header).length = w₂.out.length := by
    refine length_writeAt_of_le ?_
    rw [hlenHeader]
    have hH : HEADER = 192 := rfl
    omega
  obtain ⟨file, ext, hok, hext, hplaced⟩ := @Laid.placed _ _ _ _ _ _ _
    w₁.keyStart (t.total + row.length) _ _ _ w₂ (writeAt w₂.out w₁.keyStart header)
    (encodeBlocks w₂.blocks w₂.chunkRows) host _ hr hlaid hrecs hgen
    hkept.reserveOff hopts₂ (by
      rw [← hhead, hreserve]
      have := dvd_bytes hr
      simp only [SUPER]
      omega)
    (by rw [hlenTable]; exact htable) (by rw [hlenTable, hcount₂]) hsmall
    (by rw [← hhead, hreserve]) (Nat.le_add_right _ _)
    (by rw [hlenFile, hlenOut, ← hlenRow]; omega)
  refine ⟨file, ext, ?_, hext, hplaced⟩
  rw [hclose]
  simp only [bind, Except.bind, hplace]
  exact hok

/-- A blocks-first finish names a copy of every piece. -/
lemma finish_blocksFirst (hin : opts.inlineMax = 0) :
    ∃ file ext, w.finish host lz generation = .ok file ∧
      decodeSuperExt file generation = some ext ∧
      Placed file keys.length (blocksFor (blockRuns opts.inlineMax keys) (max opts.blockSize 1))
        r.bytes ext := by
  obtain ⟨hlay, hopen⟩ := layout_eq h
  obtain ⟨hkept, hrows, hcount, hout⟩ := flushed lz h
  have hlast := hkept.last hin
  rw [layoutOf, if_neg (by omega)] at hlay
  have hopen' : ¬ w.openKey.isSome = true := by rw [hopen]; exact Bool.false_ne_true
  rw [finish, if_neg hopen', hlay]
  dsimp only
  set w₁ := (flushBlock lz w.layout.1).sync with hw₁
  have hopts₁ : w₁.opts.headReserve = r.bytes := by
    rw [hkept.settings, ← hreserve]
    rfl
  have htable : blockTableLen w₁.blocks.length ≤ r.table := by
    rw [hcount, hr]
    exact blockTableLen_mono hblocks
  obtain ⟨hplace, hlenTable⟩ := placeTable_eq hopts₁ hkept.reserveOff hrows htable
  obtain ⟨hnames, hbytes⟩ := kept_spec w₁.keys w₁.exts w₁.tails hkept.lengths hlast.exts hlast.tails
    hlast.inBlocks hlast.noTail opts.compactRecords
  rw [← hin] at hbytes
  obtain ⟨t, recsOff, rest, hinline, hlaid, hlen⟩ := @laid_inline host.target _ _ _
    (host.claims w₁.keys.length) w₁.kept fnv64 generation
    (by rw [kept, hnames]; exact hkept.lengths) hbytes (fun e he => by
      obtain ⟨x, -, rfl⟩ := List.mem_map.mp he
      rfl) hrecs hsized
  have hkeys : w₁.keys.length = keys.length := by
    rw [← @List.length_map _ _ w₁.keys List.length, hkept.lengths, List.length_map]
  have hpos : 0 < t.total := by
    have hH : HEADER = 192 := rfl
    omega
  set keyOff := alignUp w₁.pos 8 with hkeyOff
  set header := headerBytes (sectionWords generation keys.length recsOff
    (recordBytesOf opts.inlineMax opts.compactRecords keys) t t.total PIECE_SHIFT) with hheader
  set sec := headerBytes (headerWords generation keys.length recsOff
    (recordBytesOf opts.inlineMax opts.compactRecords keys) t) ++ rest with hsec
  have hlenSec : sec.length = t.total := by
    rw [hsec, List.length_append, length_headerBytes (by show 19 ≤ 23; decide), hlen]
  have hlenHeader : header.length = HEADER := length_headerBytes (by show 21 ≤ 23; decide)
  have hnamed : setChecksumWords sec t.total = header ++ rest := setChecksumWords_header ..
  have hlenNamed : (header ++ rest).length = t.total := by
    rw [List.length_append, hlenHeader, hlen]
  set row := checksumRow (header ++ rest) PIECE_SHIFT keyOff with hrow
  have hlenRow : row.length = checksumRowLen t.total PIECE_SHIFT keyOff := by
    rw [hrow, checksumRow, length_flatMap_of _ 4 _ (fun _ _ => length_leBytes 4 _), hlenNamed,
      length_pieces hpos, checksumRowLen]
  have hwith : withChecksums sec keyOff = header ++ rest ++ row := by
    rw [withChecksums]
    simp only [hlenSec, hnamed]
    rfl
  have hlenWith : (header ++ rest ++ row).length = t.total + row.length := by
    rw [List.length_append, hlenNamed]
  have hmax : max t.total (t.total + row.length) = t.total + row.length :=
    max_eq_right (Nat.le_add_right _ _)
  set w₂ : SegmentWriter := { w₁ with
    out := w₁.out ++ padding w₁.pos 8 ++ (header ++ rest ++ row)
    pos := keyOff + (t.total + row.length) } with hw₂
  have happend : w₁.appendSection host generation =
      .ok (w₂, keyOff, t.total + row.length, header) := by
    have hreached : t.total ≤ sec.length := hlenSec.ge
    have htake : (header ++ rest ++ row).take HEADER = header := by
      rw [List.append_assoc, ← hlenHeader, List.take_left]
    have hshort : t.total + row.length - (t.total + row.length) = 0 := Nat.sub_self _
    simp only [appendSection, hinline, padTo]
    rw [← hkeyOff, if_pos hreached, hwith, hlenWith, hmax, hshort, htake,
      List.replicate_zero, List.append_nil]
  have hlenOut : w₂.out.length = keyOff + (t.total + row.length) := by
    have hpad := length_padding w₁.pos (by norm_num : 0 < 8)
    simp only [hw₂, List.length_append, hout] at hlenWith ⊢
    omega
  have hroom := hlast.room
  have hup := le_alignUp w₁.pos (by norm_num : 0 < 8)
  obtain ⟨file, ext, hok, hext, hplaced⟩ := hlaid.placed host hr hrecs hgen (w := w₂)
    hkept.reserveOff hopts₁
    ((by norm_num : 4 ∣ 8).trans (dvd_alignUp w₁.pos 8)) (by rw [hlenTable]; exact htable)
    (by rw [hlenTable, hcount]) hsmall (by rw [← hreserve]; omega) (Nat.le_add_right _ _)
    (by rw [hlenOut, ← hlenRow]; omega)
  refine ⟨file, ext, ?_, hext, hplaced⟩
  rw [hplace]
  simp only [bind, Except.bind, happend]
  exact hok

end Planned

end Finish

/-! ## The planner and the writer -/

/-- The planner over the lengths of some entries. -/
def plannerOf (target : ℕ+) (opts : WriterOptions) (entries : List Entry) : Planner :=
  (entries.map lengthsOf).foldl (fun p k => p.push k.1 k.2)
    ((Planner.new target opts.blockSize opts.inlineMax).compactRecords opts.compactRecords)

/-- The blocks a planner counts. -/
def Planner.blockCount (p : Planner) : ℕ := p.blocks + if p.staged ≠ 0 then 1 else 0

/-- The bytes of the records a writer has taken, streamed or kept for the section built at the
end. -/
def recordBytesIn (w : SegmentWriter) : Option ℕ :=
  match w.layout.2 with
  | .recordsFirst => some w.layout.1.recsLen
  | .blocksFirst => (planRecs w.layout.1.kept 0).map Prod.snd

/-- The blocks a writer has at its finish. -/
def blocksIn (lz : Lz4) (w : SegmentWriter) : ℕ := (flushBlock lz w.layout.1).blocks.length

section Exact

variable {host : Host} {lz : Lz4} {opts : WriterOptions} {entries : List Entry} {w : SegmentWriter}
  {r : Pieces} {generation : ℕ}

/-- A writer that has taken the entries the planner was given. -/
lemma streamed_of_plan (hsize : opts.blockSize < 2 ^ 64)
    (hplan : forLengthsAs host.target (entries.map lengthsOf) opts.blockSize opts.inlineMax
      opts.compactRecords = some r) (hreserve : opts.headReserve = r.bytes)
    (hw : entries.foldlM (SegmentWriter.addEntry lz) (create opts) = .ok w) :
    Streamed opts (entries.map lengthsOf) w.layout.1 := by
  obtain ⟨-, hrecs, hsized⟩ := forLengthsAs_eq hplan
  obtain ⟨-, h8⟩ := recordBytesOf_spec opts.inlineMax opts.compactRecords (entries.map lengthsOf)
  have hspare : r.table + 8 ≤ r.bytes := le_max_right _ _
  have hrun := streamed_foldlM entries (streamed_create (by omega : 0 < opts.headReserve)) hsize
    (fun k hk => (hsized k hk).2) (by
      simp only [MAX_RECS] at hrecs
      rw [List.nil_append]
      omega) hw
  exact hrun

/-- The writer's blocks, by the lengths of its runs. -/
lemma blocksIn_eq (h : Streamed opts (entries.map lengthsOf) w.layout.1) :
    blocksIn lz w = blocksFor (blockRuns opts.inlineMax (entries.map lengthsOf))
      (max opts.blockSize 1) := by
  obtain ⟨-, -, -, hblocks⟩ := flushBlock_spec lz w.layout.1 h.cuts.rows
  have hne : w.layout.1.builder ≠ [] ↔ w.layout.1.builder.length ≠ 0 :=
    not_congr List.length_eq_zero_iff.symm
  rw [blocksIn, hblocks, blocksFor, ← h.cuts.sizes, lastBlock]
  simp only [hne]

/-- The planner's reserve lies well within a word. -/
lemma bytes_lt {keys : List (ℕ × ℕ)} (hsize : opts.blockSize < 2 ^ 64)
    (hplan : forLengthsAs host.target keys opts.blockSize opts.inlineMax opts.compactRecords
    = some r) : SUPER + r.bytes < 2 ^ 64 := by
  obtain ⟨hr, hrecs, hsized⟩ := forLengthsAs_eq hplan
  obtain ⟨-, h8⟩ := recordBytesOf_spec opts.inlineMax opts.compactRecords keys
  simp only [MAX_RECS] at hrecs
  have hn : keys.length < 2 ^ 31 := by omega
  have hblocks : blocksFor (blockRuns opts.inlineMax keys) opts.blockSize ≤ keys.length := by
    have hcut := cutOk_start.run (blockRuns opts.inlineMax keys) (fun x hx => by
      obtain ⟨k, hk, rfl⟩ := List.mem_map.mp hx
      exact (hsized k (List.mem_filter.mp hk).1).2) hsize (by decide : MAX_RUN < 2 ^ 64)
    have hle := hcut.byCount
    rw [Nat.zero_add] at hle
    exact hle.trans (length_blockRuns_le opts.inlineMax keys)
  obtain ⟨k, hcap, hk33, -⟩ := hashCapFor_spec (by omega : keys.length < 2 ^ 32)
  have hpow : 2 ^ k ≤ 2 ^ 33 := Nat.pow_le_pow_right (by norm_num) hk33
  have hblob := @fenceBlobOf_lt host.target _ (fun k hk => (hsized k hk).1) hn
  have hfn := divCeil_le keys.length (fenceStride_pos host.target keys.length)
  have hlen : fenceLen host.target keys < 2 ^ 49 := by
    rw [fenceLen]
    split_ifs <;> omega
  have hup : alignUp (fenceLen host.target keys) REC_ALIGN < fenceLen host.target keys + 4 :=
    alignUp_lt _ (by decide)
  have hrecordsAt := @recordsAt_eq host.target keys k hcap
  have hsec : sectionLen host.target opts.inlineMax opts.compactRecords keys < 2 ^ 50 := by
    rw [sectionLen, hrecordsAt]
    simp only [HEADER, SLOT]
    omega
  have htable : r.table < 2 ^ 50 := by
    rw [hr]
    simp only [piecesOf, blockTableLen, BLK_HEADER, BLK_ENTRY, CRC_ROW, MAX_CHUNK_CRCS]
    omega
  have hrow : r.row < 2 ^ 50 := by
    rw [hr]
    simp only [piecesOf, pages, pieceCount, divCeil, PIECE_SHIFT]
    omega
  have hfence : r.fence < 2 ^ 51 := by
    rw [hr]
    simp only [piecesOf]
    rw [hrecordsAt]
    simp only [HEADER, SLOT]
    split_ifs <;> omega
  have hdir : r.directory < 2 ^ 50 := by
    rw [hr]
    simp only [piecesOf]
    omega
  have h₁ := alignUp_lt r.table (by norm_num : 0 < 8)
  have h₂ := alignUp_lt (alignUp r.table 8 + r.row) (by norm_num : 0 < 8)
  have h₃ := alignUp_lt (alignUp (alignUp r.table 8 + r.row) 8 + r.fence) (by norm_num : 0 < 8)
  simp only [Pieces.bytes, fits, SUPER]
  omega

/-- **The reserve is enough**: with the planner's bytes as its reserve, the writer's finish
succeeds, and its page names a copy of the table, the row, the fence and the directory in the
reserve. -/
theorem reserve_placed (hsize : opts.blockSize < 2 ^ 64) (hgen : generation < 2 ^ 64)
    (hplan : forLengthsAs host.target (entries.map lengthsOf) opts.blockSize opts.inlineMax
      opts.compactRecords = some r) (hreserve : opts.headReserve = r.bytes)
    (hw : entries.foldlM (SegmentWriter.addEntry lz) (create opts) = .ok w) :
    ∃ file ext, w.finish host lz generation = .ok file ∧
      decodeSuperExt file generation = some ext ∧
      Placed file entries.length (blocksIn lz w) r.bytes ext := by
  have h := streamed_of_plan hsize hplan hreserve hw
  obtain ⟨hr, hrecs, hsized⟩ := forLengthsAs_eq hplan
  obtain ⟨hle, -⟩ := blocksFor_clamped opts.blockSize opts.inlineMax (entries.map lengthsOf)
  have hkeys : ∀ k ∈ entries.map lengthsOf, k.1 ≤ 65535 := fun k hk => (hsized k hk).1
  have hn : (entries.map lengthsOf).length = entries.length := List.length_map _
  rw [blocksIn_eq h, ← hn]
  by_cases hin : 0 < opts.inlineMax
  · exact finish_recordsFirst host h hr hle hrecs hkeys hgen hreserve (bytes_lt hsize hplan) hin
  · exact finish_blocksFirst host h hr hle hrecs hkeys hgen hreserve (bytes_lt hsize hplan)
      (by omega)

/-- The planner's records are the writer's own. -/
lemma recordBytes_eq (hsize : opts.blockSize < 2 ^ 64)
    (hplan : forLengthsAs host.target (entries.map lengthsOf) opts.blockSize opts.inlineMax
      opts.compactRecords = some r) (hreserve : opts.headReserve = r.bytes)
    (hw : entries.foldlM (SegmentWriter.addEntry lz) (create opts) = .ok w) :
    recordBytesIn w = some (plannerOf host.target opts entries).recBytes := by
  have h := streamed_of_plan hsize hplan hreserve hw
  have hp : Planned _ _ _ _ (plannerOf host.target opts entries) := planned_of_forLengthsAs hplan
  obtain ⟨-, hrecs, hsized⟩ := forLengthsAs_eq hplan
  obtain ⟨hlay, -⟩ := layout_eq h
  rw [recordBytesIn, hp.bytes, hlay]
  by_cases hin : 0 < opts.inlineMax
  · rw [layoutOf, if_pos hin]
    exact congrArg some (h.kept.first hin).recsLen
  · have hlast := h.kept.last (by omega)
    obtain ⟨hnames, hbytes⟩ := kept_spec w.layout.1.keys w.layout.1.exts w.layout.1.tails
      h.kept.lengths hlast.exts hlast.tails hlast.inBlocks hlast.noTail opts.compactRecords
    rw [← (by omega : opts.inlineMax = 0)] at hbytes
    have hplanRecs := @planRecs_eq w.layout.1.kept 0 (fun e he => by
      obtain ⟨x, hx, rfl⟩ := List.mem_map.mp he
      have hmem : x.1.length ∈ (entries.map lengthsOf).map Prod.fst := by
        rw [← h.kept.lengths]
        exact List.mem_map_of_mem (List.of_mem_zip hx).1
      obtain ⟨k, hk, hlen⟩ := List.mem_map.mp hmem
      exact ⟨by simpa [← hlen] using (hsized k hk).1, by show 1 < COMPACT; decide⟩)
      (by rw [Nat.zero_add]; exact hbytes.le.trans hrecs)
    rw [layoutOf, if_neg hin]
    simp only [hplanRecs, Option.map_some, Nat.zero_add]
    exact congrArg some hbytes

/-- **The planner replays the writer**: its reserve is enough and its counts are the writer's own,
except that a planner of block size zero counts a block for an empty run. -/
theorem reserve_exact_iff (hsize : opts.blockSize < 2 ^ 64) (hgen : generation < 2 ^ 64)
    (hplan : forLengthsAs host.target (entries.map lengthsOf) opts.blockSize opts.inlineMax
      opts.compactRecords = some r) (hreserve : opts.headReserve = r.bytes)
    (hw : entries.foldlM (SegmentWriter.addEntry lz) (create opts) = .ok w) :
    ((∃ file ext, w.finish host lz generation = .ok file ∧
        decodeSuperExt file generation = some ext ∧
        Placed file entries.length (blocksIn lz w) r.bytes ext) ∧
      recordBytesIn w = some (plannerOf host.target opts entries).recBytes ∧
      blocksIn lz w = (plannerOf host.target opts entries).blockCount) ↔
    (0 < opts.blockSize ∨ 0 < opts.inlineMax ∨ ∀ e ∈ entries,
      runLen (e.values.map List.length) ≠ 0) := by
  have h := streamed_of_plan hsize hplan hreserve hw
  have hp : Planned _ _ _ _ (plannerOf host.target opts entries) := planned_of_forLengthsAs hplan
  obtain ⟨-, hiff⟩ := blocksFor_clamped opts.blockSize opts.inlineMax (entries.map lengthsOf)
  have hplanned : (plannerOf host.target opts entries).blockCount =
      blocksFor (blockRuns opts.inlineMax (entries.map lengthsOf)) opts.blockSize := by
    rw [blocksFor, ← hp.cuts]
    rfl
  have hruns : (∀ k ∈ entries.map lengthsOf, k.2 ≠ 0) ↔
      ∀ e ∈ entries, runLen (e.values.map List.length) ≠ 0 := by
    simp only [List.forall_mem_map, lengthsOf]
  rw [hplanned, ← hruns, ← hiff]
  constructor
  · rintro ⟨-, -, heq⟩
    rw [← heq]
    exact blocksIn_eq h
  · intro heq
    exact ⟨reserve_placed hsize hgen hplan hreserve hw, recordBytes_eq hsize hplan hreserve hw,
      (blocksIn_eq h).trans heq.symm⟩

end Exact

/-! ## The input a writer takes -/

section Takes

variable {opts : WriterOptions} {keys : List (ℕ × ℕ)} {w : SegmentWriter} {lz : Lz4}

/-- A record within the index's limits is streamed. -/
lemma streamRecord_takes {key tail : Bytes} {ext : Ext} (hkey : key.length ≤ 65535)
    (hroom : w.recsLen + recordLenOf key ext tail w.opts.compactRecords ≤ MAX_RECS) :
    ∃ w', streamRecord w key ext tail = .ok w' := by
  have hlen : recordLenFor key.length [ext] tail.length w.opts.compactRecords =
      some (recordLenOf key ext tail w.opts.compactRecords) :=
    if_neg (by
      rintro (h | h)
      · omega
      · exact absurd h (by show ¬ COMPACT ≤ 1; decide))
  have hfull := not_lt.mpr hroom
  rw [streamRecord, streamRecordAs, hlen]
  simp only [Option.map_some]
  cases hm : w.opts.marks <;> simp only [Bool.false_eq_true, if_false, if_true, if_neg hfull] <;>
    exact ⟨_, rfl⟩

/-- A record of the planner's size is taken in. -/
lemma addRecord_takes (h : Kept opts keys w) {key tail : Bytes} {ext : Ext} {len : ℕ}
    (hkey : key.length ≤ 65535)
    (hlen : 0 < opts.inlineMax → recordLenOf key ext tail opts.compactRecords = len)
    (hroom : recordBytesOf opts.inlineMax opts.compactRecords keys + len ≤ MAX_RECS) :
    ∃ w', w.addRecord (layoutOf opts) key ext tail = .ok w' := by
  by_cases hin : 0 < opts.inlineMax
  · rw [layoutOf, if_pos hin]
    have hcompact : w.opts.compactRecords = opts.compactRecords := by rw [h.settings]; rfl
    refine streamRecord_takes hkey ?_
    rw [hcompact, hlen hin, (h.first hin).recsLen]
    exact hroom
  · rw [layoutOf, if_neg hin]
    exact ⟨_, rfl⟩

/-- An entry behind the last one, of fewer values than an extent counts, is taken in. -/
lemma addEntry_takes {e : Entry} (h : Streamed opts keys w.layout.1)
    (hsize : opts.blockSize < 2 ^ 64) (hruns : ∀ k ∈ keys, k.2 ≤ MAX_RUN)
    (hrun : (lengthsOf e).2 ≤ MAX_RUN) (hkey : e.key.length ≤ 65535) (hkeys : keys.length < 2 ^ 31)
    (hroom : recordBytesOf opts.inlineMax opts.compactRecords (keys ++ [lengthsOf e]) ≤ MAX_RECS)
    (hlast : ∀ l ∈ w.keys.getLast?, l < e.key) (hmany : e.values.length < Ext.FIXED) :
    ∃ w', SegmentWriter.addEntry lz w e = .ok w' := by
  have hmax : MAX_RUN < 2 ^ 32 - 1 := by decide
  have hlen : (lengthsOf e).2 = (runOf e.values).length := runLen_eq e.values
  obtain ⟨hlay, hopen⟩ := layout_eq h
  have hcheck : w.checkKey e.key = .ok () := by
    have hany : ¬ w.keys.getLast?.any (fun l => decide (e.key ≤ l)) = true := by
      cases hl : w.keys.getLast? with
      | none => simp
      | some l => simpa using hlast l (by rw [hl]; rfl)
    rw [checkKey, hopen,
      if_neg (show ¬ (none : Option Bytes).isSome = true from Bool.false_ne_true),
      if_neg (by omega), if_neg hany]
  rw [SegmentWriter.addEntry, SegmentWriter.begin, hcheck]
  simp only [bind, Except.bind]
  rw [foldl_value_of_run _ (by omega), endWith]
  simp only [h.kept.raw, h.kept.lens, List.nil_append, encodeRun_eq]
  rw [if_neg (by omega), if_neg (by omega)]
  -- the run goes where the planner sends it, and its record is the planner's
  set w₁ : SegmentWriter := { w.layout.1 with
    openKey := none, raw := [], lens := [], records := e.values.length
    payload := w.layout.1.payload + (e.key.length * e.values.length + e.values.flatten.length +
      if e.tomb then e.key.length + 16 else 0) } with hw₁
  have hclosed : Streamed opts keys w₁ := h.closed e.values.length _
  have hinmax : w₁.opts.inlineMax = opts.inlineMax := by rw [hclosed.kept.settings]; rfl
  have hrec : recordBytesOf opts.inlineMax opts.compactRecords keys +
      segmentRecordLen e.key.length (runOf e.values).length
        (goesInline opts.inlineMax (runOf e.values).length) opts.compactRecords ≤ MAX_RECS := by
    rw [← hlen]
    simpa [recordBytesOf, lengthsOf] using hroom
  show ∃ w', w₁.addRun lz e.key (runOf e.values) _ _ = .ok w'
  rw [SegmentWriter.addRun, layout_of_mode hclosed.kept.mode]
  dsimp only
  rw [hinmax]
  by_cases hin : goesInline opts.inlineMax (runOf e.values).length = true
  · rw [if_pos (show inlines opts.inlineMax (runOf e.values).length = true from hin)]
    exact addRecord_takes hclosed.kept hkey
      (fun _ => by rw [hin]; exact recordLenOf_inline _ _ (by omega)) hrec
  · rw [if_neg (show ¬ inlines opts.inlineMax (runOf e.values).length = true from hin)]
    have hcut := hclosed.cuts.ok hsize hruns
    obtain ⟨hf, -, -, hblock⟩ := @placeRun_spec _ _ lz (runOf e.values)
      (lastOf e.values % 2 ^ 32) (countWord e.values.length (fixedOf e.values) e.tomb)
      hclosed.kept.settings hclosed.cuts.rows hcut.below (by omega) (by omega)
    have hext : (placeRun lz w₁ (runOf e.values) (lastOf e.values % 2 ^ 32)
        (countWord e.values.length (fixedOf e.values) e.tomb)).2.isInline = false := by
      have hlast := hcut.byCount
      have hle := length_blockRuns_le opts.inlineMax keys
      simp only [lastBlock] at hlast
      rw [Ext.isInline, decide_eq_false_iff_not, Ext.INLINE]
      omega
    have hno : goesInline opts.inlineMax (runOf e.values).length = false := by simpa using hin
    exact addRecord_takes (hclosed.kept.framed hf) hkey
      (fun _ => by rw [hno]; exact recordLenOf_block _ hext) hrec

/-- Entries in order, each of fewer values than an extent counts, are taken. -/
lemma takes_sorted (entries : List Entry) (h : Streamed opts keys w.layout.1)
    (hsize : opts.blockSize < 2 ^ 64)
    (hsized : ∀ k ∈ keys ++ entries.map lengthsOf, k.1 ≤ 65535 ∧ k.2 ≤ MAX_RUN)
    (hrecs : recordBytesOf opts.inlineMax opts.compactRecords (keys ++ entries.map lengthsOf) ≤
      MAX_RECS)
    (hsorted : (w.keys ++ entries.map Entry.key).Pairwise (· < ·))
    (hmany : ∀ e ∈ entries, e.values.length < Ext.FIXED) :
    ∃ w', entries.foldlM (SegmentWriter.addEntry lz) w = .ok w' := by
  induction entries generalizing keys w with
  | nil => exact ⟨w, rfl⟩
  | cons e es ih =>
      have hassoc : keys ++ (e :: es).map lengthsOf = (keys ++ [lengthsOf e]) ++ es.map lengthsOf := by
        simp
      have hnames : w.keys ++ (e :: es).map Entry.key = (w.keys ++ [e.key]) ++ es.map Entry.key := by
        simp
      obtain ⟨-, h8⟩ := recordBytesOf_spec opts.inlineMax opts.compactRecords
        (keys ++ (e :: es).map lengthsOf)
      have hprefix : recordBytesOf opts.inlineMax opts.compactRecords (keys ++ [lengthsOf e]) ≤
          MAX_RECS := by
        rw [hassoc] at hrecs
        refine le_trans ?_ hrecs
        simp only [recordBytesOf, List.map_append, List.sum_append]
        omega
      have hn : keys.length < 2 ^ 31 := by
        simp only [MAX_RECS, List.length_append] at hrecs h8
        omega
      have hhead := hsized (lengthsOf e) (by simp)
      obtain ⟨w₁, hok⟩ := addEntry_takes h hsize
        (fun k hk => (hsized k (List.mem_append_left _ hk)).2) hhead.2 hhead.1 hn hprefix
        (fun l hl => (List.pairwise_append.mp hsorted).2.2 l (List.mem_of_getLast? hl) e.key
          (by simp)) (hmany e (List.mem_cons_self ..))
      obtain ⟨hstep, hkeys⟩ := h.addEntry hsize
        (fun k hk => (hsized k (List.mem_append_left _ hk)).2) hhead.2 hn hok
      rw [(layout_spec w).2.2.2.2] at hkeys
      obtain ⟨w', hrest⟩ := ih hstep (by rw [← hassoc]; exact hsized) (by rw [← hassoc]; exact hrecs)
        (by rw [hkeys, ← hnames]; exact hsorted) (fun x hx => hmany x (List.mem_cons_of_mem _ hx))
      refine ⟨w', ?_⟩
      rw [List.foldlM_cons, hok]
      exact hrest

/-- **Every sorted input is taken** that the planner answers for and whose keys have fewer values
than an extent counts. -/
theorem planned_taken {target : ℕ+} {entries : List Entry} {r : Pieces}
    (hsize : opts.blockSize < 2 ^ 64)
    (hplan : forLengthsAs target (entries.map lengthsOf) opts.blockSize opts.inlineMax
      opts.compactRecords = some r) (hreserve : opts.headReserve = r.bytes)
    (hsorted : (entries.map Entry.key).Pairwise (· < ·))
    (hmany : ∀ e ∈ entries, e.values.length < Ext.FIXED) :
    ∃ w, entries.foldlM (SegmentWriter.addEntry lz) (create opts) = .ok w := by
  obtain ⟨-, hrecs, hsized⟩ := forLengthsAs_eq hplan
  have hspare : r.table + 8 ≤ r.bytes := le_max_right _ _
  exact takes_sorted entries (streamed_create (by omega : 0 < opts.headReserve)) hsize hsized hrecs
    hsorted hmany

end Takes

/-- A process with the default fence, filling its table in key order. -/
def plainHost : Host := ⟨16384, fun _ i => i, 0⟩

/-- A codec that stores. -/
def storing : Lz4 := ⟨id, fun b _ => some b⟩

/-- Settings without compression, markers or checksums. -/
def plainOptions (blockSize inlineMax headReserve : ℕ) : WriterOptions :=
  ⟨blockSize, inlineMax, headReserve, false, true, false, false, false⟩

/-- A writer that took its entries, by what is computed of it. -/
lemma exists_writer (opts : WriterOptions) (entries : List Entry) (n : ℕ)
    (h : (entries.foldlM (SegmentWriter.addEntry storing) (create opts)).toOption.map
      (blocksIn storing) = some n) :
    ∃ w, entries.foldlM (SegmentWriter.addEntry storing) (create opts) = .ok w ∧
      blocksIn storing w = n := by
  cases hw : entries.foldlM (SegmentWriter.addEntry storing) (create opts) with
  | error e =>
      rw [hw] at h
      exact absurd h (by simp [Except.toOption])
  | ok w =>
      rw [hw] at h
      exact ⟨w, rfl, Option.some.inj h⟩

/-- A key without values, at a block size of zero: the planner counts a block, the writer has
none. -/
theorem reserve_not_exact :
    ¬ ∀ (host : Host) (lz : Lz4) (opts : WriterOptions) (generation : ℕ) (entries : List Entry)
      (w : SegmentWriter) (r : Pieces), opts.blockSize < 2 ^ 64 → generation < 2 ^ 64 →
      forLengthsAs host.target (entries.map lengthsOf) opts.blockSize opts.inlineMax
        opts.compactRecords = some r → opts.headReserve = r.bytes →
      entries.foldlM (SegmentWriter.addEntry lz) (create opts) = .ok w →
      (∃ file ext, w.finish host lz generation = .ok file ∧
        decodeSuperExt file generation = some ext ∧
        Placed file entries.length (blocksIn lz w) r.bytes ext) ∧
      recordBytesIn w = some (plannerOf host.target opts entries).recBytes ∧
      blocksIn lz w = (plannerOf host.target opts entries).blockCount := by
  intro hall
  have hplan : forLengthsAs 16384 ([⟨[1], [], false⟩].map lengthsOf) 0 0 true =
      some ⟨112, 8, 12, 4⟩ := by decide +kernel
  obtain ⟨w, hw, hzero⟩ := exists_writer (plainOptions 0 0 140)
    [⟨[1], [], false⟩] 0 (by decide +kernel)
  have hone : (plannerOf 16384 (plainOptions 0 0 140) [⟨[1], [], false⟩]).blockCount = 1 := by
    decide +kernel
  obtain ⟨-, -, heq⟩ := hall plainHost storing (plainOptions 0 0 140) 1 [⟨[1], [], false⟩] w
    ⟨112, 8, 12, 4⟩ (by decide) (by decide) hplan rfl hw
  rw [hzero] at heq
  exact absurd (heq.trans hone) (by decide)

/-- Two keys, the values of one inline and those of the other in a block of their own. -/
theorem reserve_exact_two :
    ∃ w file ext, [(⟨[1], [[7]], false⟩ : Entry), ⟨[2], [[8], [9, 9]], false⟩].foldlM
        (SegmentWriter.addEntry storing) (create (plainOptions 1 2 144)) = .ok w ∧
      w.finish plainHost storing 1 = .ok file ∧ decodeSuperExt file 1 = some ext ∧
      Placed file 2 1 144 ext := by
  have hplan : forLengthsAs 16384 ([(⟨[1], [[7]], false⟩ : Entry),
      ⟨[2], [[8], [9, 9]], false⟩].map lengthsOf) 1 2 true = some ⟨112, 8, 12, 8⟩ := by
    decide +kernel
  obtain ⟨w, hw, hone⟩ := exists_writer (plainOptions 1 2 144)
    [⟨[1], [[7]], false⟩, ⟨[2], [[8], [9, 9]], false⟩] 1 (by decide +kernel)
  obtain ⟨⟨file, ext, hok, hext, hplaced⟩, -, -⟩ := (@reserve_exact_iff plainHost storing
    (plainOptions 1 2 144) _ w _ 1 (by decide) (by decide) hplan rfl hw).mpr (Or.inl (by decide))
  rw [hone] at hplaced
  exact ⟨w, file, ext, hw, hok, hext, hplaced⟩

end Supdb.Reserve
