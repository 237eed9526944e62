import Supdb.ReservePlan
import Supdb.SegmentFinish

/-!
# The writer replayed from lengths

A segment writer takes keys with their values; the planner takes their lengths.  After any entries
the writer's blocks and records are those the planner counts, whatever the values are and however
the blocks are compressed.

* `runLen_eq` – `runLen` is the length of the run the writer stores.
* `Framed` – what flushing a block leaves alone.
* `Streamed` – what a writer that has taken some entries holds: its block sizes are the planner's
  cut, its record bytes the planner's sum.  Each entry keeps it (`Streamed.addEntry`), so a run of
  entries does (`streamed_foldlM`).
* `blocksFor_clamped` – the writer's block size is at least one; only an empty run tells a planner
  of block size zero from it.
-/

namespace Supdb.Reserve

open StorageLib Flatindex SegmentWriter

/-! ## The length of a run -/

lemma uvarintLen_eq (v : ℕ) : uvarintLen v = (uvarint v).length := by
  induction v using Nat.strong_induction_on with
  | _ v ih =>
      rw [uvarintLen]
      by_cases h : 0x80 ≤ v
      · rw [dif_pos h, Nat.shiftRight_eq_div_pow, ih (v / 2 ^ 7) (by omega), uvarint_of_ge h,
          List.length_cons, Nat.add_comm]
      · rw [dif_neg h, uvarint_of_lt (by omega)]
        rfl

lemma length_prefixedRun (vals : List Bytes) :
    (prefixedRun vals).length = ((vals.map List.length).map (fun l => uvarintLen l + l)).sum := by
  induction vals with
  | nil => rfl
  | cons v vals ih =>
      rw [prefixedRun_cons, List.length_append, List.length_append, ih, List.map_cons,
        List.map_cons, List.sum_cons, uvarintLen_eq, Index.putUvarint_eq, Nat.add_assoc]

/-- `runLen` is the length of the run the writer stores. -/
lemma runLen_eq (vals : List Bytes) : runLen (vals.map List.length) = (runOf vals).length := by
  have hiff : (0 < (vals.map List.length).length ∧ 0 < (vals.map List.length).headD 0 ∧
      (vals.map List.length).all (· = (vals.map List.length).headD 0)) ↔ fixedOf vals = true := by
    rw [fixedOf]
    cases vals with
    | nil => simp [isFixedRun]
    | cons v vals => simp [isFixedRun]
  rw [runOf_eq, runLen]
  by_cases h : fixedOf vals = true
  · rw [if_pos (hiff.mpr h), if_pos h]
    obtain ⟨w, -, -, hhead, hall⟩ := isFixedRun_map_length h
    rw [hhead, length_flatten_of_width vals hall, List.length_map]
  · rw [if_neg (fun hf => h (hiff.mp hf)), if_neg h, length_prefixedRun]

/-- A value is no longer than its run. -/
lemma length_le_runLen {vals : List Bytes} {v : Bytes} (hv : v ∈ vals) :
    v.length ≤ runLen (vals.map List.length) := by
  rw [runLen]
  split_ifs with h
  · obtain ⟨hlen, -, hall⟩ := h
    have heq := List.all_eq_true.mp hall v.length (List.mem_map_of_mem hv)
    rw [← of_decide_eq_true heq]
    exact Nat.le_mul_of_pos_left _ hlen
  · have hmem : uvarintLen v.length + v.length ∈
        (vals.map List.length).map (fun l => uvarintLen l + l) :=
      List.mem_map.mpr ⟨v.length, List.mem_map_of_mem hv, rfl⟩
    exact (Nat.le_add_left _ _).trans (List.single_le_sum (fun _ _ => Nat.zero_le _) _ hmem)

/-! ## Flushing -/

/-- What flushing a block leaves alone. -/
structure Framed (w w' : SegmentWriter) : Prop where
  opts : w'.opts = w.opts
  mode : w'.mode = w.mode
  reserveOff : w'.reserveOff = w.reserveOff
  openKey : w'.openKey = w.openKey
  raw : w'.raw = w.raw
  lens : w'.lens = w.lens
  keys : w'.keys = w.keys
  exts : w'.exts = w.exts
  tails : w'.tails = w.tails
  recsLen : w'.recsLen = w.recsLen
  recOffs : w'.recOffs = w.recOffs
  batchBuf : w'.batchBuf = w.batchBuf
  written : w'.out.length + w.pos = w.out.length + w'.pos
  held : w.mode = some .recordsFirst → w'.pos = w.pos ∧ w'.out = w.out
  grows : w.pos ≤ w'.pos

lemma Framed.refl (w : SegmentWriter) : Framed w w := by
  constructor <;> first | rfl | exact fun _ => ⟨rfl, rfl⟩

lemma Framed.trans {w₁ w₂ w₃ : SegmentWriter} (h : Framed w₁ w₂) (h' : Framed w₂ w₃) :
    Framed w₁ w₃ :=
  { opts := h'.opts.trans h.opts, mode := h'.mode.trans h.mode
    reserveOff := h'.reserveOff.trans h.reserveOff, openKey := h'.openKey.trans h.openKey
    raw := h'.raw.trans h.raw, lens := h'.lens.trans h.lens, keys := h'.keys.trans h.keys
    exts := h'.exts.trans h.exts, tails := h'.tails.trans h.tails
    recsLen := h'.recsLen.trans h.recsLen, recOffs := h'.recOffs.trans h.recOffs
    batchBuf := h'.batchBuf.trans h.batchBuf
    written := by
      have h1 := h.written
      have h2 := h'.written
      omega
    held := fun hm =>
      ⟨(h'.held (h.mode.trans hm)).1.trans (h.held hm).1,
        (h'.held (h.mode.trans hm)).2.trans (h.held hm).2⟩
    grows := h.grows.trans h'.grows }

/-- The rows of chunk checksums, one a block. -/
def RowsOk (w : SegmentWriter) : Prop :=
  w.chunkRows.length = w.blocks.length ∧ ∀ r ∈ w.chunkRows, r.length = MAX_CHUNK_CRCS

lemma length_chunkCrcs {bytes : Bytes} {row : List (BitVec 32)} (h : chunkCrcs bytes = some row) :
    row.length = MAX_CHUNK_CRCS := by
  rw [chunkCrcs] at h
  split_ifs at h with hn
  rw [← Option.some.inj h, List.length_append, List.length_map, List.length_range,
    List.length_replicate]
  omega

/-- A block flushed: the builder emptied into one block more. -/
lemma flushBlock_spec (lz : Lz4) (w : SegmentWriter) (hrows : RowsOk w) :
    Framed w (flushBlock lz w) ∧ RowsOk (flushBlock lz w) ∧ (flushBlock lz w).builder = [] ∧
      (flushBlock lz w).blocks.length = w.blocks.length + if w.builder ≠ [] then 1 else 0 := by
  rw [flushBlock]
  by_cases hb : w.builder = []
  · rw [if_pos hb]
    exact ⟨Framed.refl w, hrows, hb, by simp [hb]⟩
  · rw [if_neg hb]
    have hrow : ∀ (c : Prop) [Decidable c] (bytes : Bytes),
        ((if c then chunkCrcs bytes else none).getD emptyRow).length = MAX_CHUNK_CRCS := by
      intro c _ bytes
      split_ifs
      · cases hc : chunkCrcs bytes with
        | none => rfl
        | some row => exact length_chunkCrcs hc
      · rfl
    have happ : ∀ row : List (BitVec 32), row.length = MAX_CHUNK_CRCS →
        ∀ r ∈ w.chunkRows ++ [row], r.length = MAX_CHUNK_CRCS := by
      intro row hlen r hr
      rcases List.mem_append.mp hr with hr | hr
      · exact hrows.2 r hr
      · rw [List.mem_singleton.mp hr]
        exact hlen
    by_cases hm : w.mode = some .recordsFirst
    · simp only [hm, if_true]
      refine ⟨?_, ⟨?_, happ _ (hrow _ _)⟩, trivial, by simp [hb]⟩
      · constructor <;> first | rfl | exact hm.symm | exact fun _ => ⟨rfl, rfl⟩
      · simp [hrows.1]
    · simp only [hm, if_false]
      refine ⟨?_, ⟨?_, happ _ (hrow _ _)⟩, trivial, by simp [hb]⟩
      · constructor <;> first | rfl | skip
        · simp only [List.length_append]
          omega
        · exact fun h => absurd h hm
        · exact Nat.le_add_right _ _
      · simp [hrows.1]

/-! ## What a writer holds -/

/-- The lengths the planner takes of an entry. -/
def lengthsOf (e : Entry) : ℕ × ℕ := (e.key.length, runLen (e.values.map List.length))

/-- The layout of a writer. -/
def layoutOf (opts : WriterOptions) : Layout :=
  if 0 < opts.inlineMax then .recordsFirst else .blocksFirst

/-- A writer's settings, as it keeps them. -/
def clamped (opts : WriterOptions) : WriterOptions :=
  { opts with blockSize := max opts.blockSize 1 }

/-- The records of the records-first layout: streamed, or in the batch held for a marker. -/
structure RecordsFirst (opts : WriterOptions) (keys : List (ℕ × ℕ)) (w : SegmentWriter) : Prop where
  recsLen : w.recsLen = recordBytesOf opts.inlineMax opts.compactRecords keys
  pos : w.pos = SUPER + opts.headReserve + HEADER + w.recsLen
  written : w.out.length + w.batchBuf.length = w.pos
  offs : ∀ x ∈ w.recOffs, x < 2 ^ 32

/-- What is kept for the section of the blocks-first layout. -/
structure BlocksFirst (opts : WriterOptions) (keys : List (ℕ × ℕ)) (w : SegmentWriter) : Prop where
  exts : w.exts.length = keys.length
  tails : w.tails.length = keys.length
  inBlocks : ∀ e ∈ w.exts, e.isInline = false
  noTail : ∀ t ∈ w.tails, t = []
  written : w.out.length = w.pos
  batch : w.batchBuf = []
  room : SUPER + opts.headReserve ≤ w.pos

/-- What a writer that has taken some entries holds beside its blocks. -/
structure Kept (opts : WriterOptions) (keys : List (ℕ × ℕ)) (w : SegmentWriter) : Prop where
  settings : w.opts = clamped opts
  mode : w.mode = some (layoutOf opts)
  reserveOff : w.reserveOff = SUPER
  openKey : w.openKey = none
  raw : w.raw = []
  lens : w.lens = []
  lengths : w.keys.map List.length = keys.map Prod.fst
  first : 0 < opts.inlineMax → RecordsFirst opts keys w
  last : opts.inlineMax = 0 → BlocksFirst opts keys w

/-- Its blocks: those of the planner's cut. -/
structure Cuts (opts : WriterOptions) (keys : List (ℕ × ℕ)) (w : SegmentWriter) : Prop where
  sizes : (w.builder.length, w.blocks.length) =
    cutAll (max opts.blockSize 1) (0, 0) (blockRuns opts.inlineMax keys)
  rows : RowsOk w

/-- What a writer that has taken some entries holds. -/
structure Streamed (opts : WriterOptions) (keys : List (ℕ × ℕ)) (w : SegmentWriter) : Prop where
  kept : Kept opts keys w
  cuts : Cuts opts keys w

section Writer

variable {opts : WriterOptions} {keys : List (ℕ × ℕ)} {w w' : SegmentWriter} {lz : Lz4}

/-- The layout decided on is kept, and nothing but room for what stands first is laid down. -/
lemma layout_spec (w : SegmentWriter) :
    w.layout = (w.layout.1, w.layout.2) ∧ w.layout.1.mode = some w.layout.2 ∧
      w.layout.1.openKey = w.openKey ∧ w.layout.1.opts = w.opts ∧ w.layout.1.keys = w.keys := by
  rw [layout]
  cases hm : w.mode with
  | some m => exact ⟨rfl, hm, rfl, rfl, rfl⟩
  | none =>
      dsimp only
      refine ⟨rfl, rfl, ?_, ?_, ?_⟩
      · split_ifs <;> rfl
      · split_ifs <;> rfl
      · split_ifs <;> rfl

/-- A writer before its first key, laid out. -/
lemma streamed_create (hres : 0 < opts.headReserve) : Streamed opts [] (create opts).layout.1 := by
  have hmode : (create opts).mode = none := rfl
  have hop : (create opts).opts = clamped opts := rfl
  have hcond : 0 < (create opts).opts.headReserve ∧ (create opts).reserveOff = 0 := ⟨hres, rfl⟩
  have hout : (create opts).out.length = SUPER := List.length_replicate
  by_cases hin : 0 < opts.inlineMax
  · have hlay : (create opts).layout.1 =
        { create opts with
          reserveOff := SUPER
          out := (create opts).out ++ List.replicate opts.headReserve 0 ++ List.replicate HEADER 0
          pos := SUPER + opts.headReserve + HEADER, mode := some .recordsFirst } := by
      have hin' : 0 < (create opts).opts.inlineMax := hin
      simp only [layout, hmode, if_pos hin', if_pos hcond, if_true]
      rfl
    rw [hlay]
    refine ⟨⟨rfl, by simp [layoutOf, hin], rfl, rfl, rfl, rfl, rfl, fun _ => ?_, fun h0 => ?_⟩, ?_⟩
    · refine ⟨rfl, rfl, ?_, fun x hx => absurd hx List.not_mem_nil⟩
      simp only [List.length_append, List.length_replicate, hout]
      rfl
    · omega
    · exact ⟨rfl, rfl, fun r hr => absurd hr List.not_mem_nil⟩
  · have hlay : (create opts).layout.1 =
        { create opts with
          reserveOff := SUPER, out := (create opts).out ++ List.replicate opts.headReserve 0
          pos := SUPER + opts.headReserve, mode := some .blocksFirst } := by
      have hin' : ¬ 0 < (create opts).opts.inlineMax := hin
      simp only [layout, hmode, if_neg hin', if_pos hcond]
      rfl
    rw [hlay]
    refine ⟨⟨rfl, by simp [layoutOf, hin], rfl, rfl, rfl, rfl, rfl, fun h => absurd h hin,
      fun _ => ?_⟩, ?_⟩
    · refine ⟨rfl, rfl, fun e he => absurd he List.not_mem_nil,
        fun t ht => absurd ht List.not_mem_nil, ?_, rfl, le_refl _⟩
      simp only [List.length_append, List.length_replicate, hout]
    · exact ⟨rfl, rfl, fun r hr => absurd hr List.not_mem_nil⟩

/-- A flush keeps what is held beside the blocks. -/
lemma Kept.framed (h : Kept opts keys w) (hf : Framed w w') : Kept opts keys w' :=
  { settings := hf.opts.trans h.settings, mode := hf.mode.trans h.mode
    reserveOff := hf.reserveOff.trans h.reserveOff, openKey := hf.openKey.trans h.openKey
    raw := hf.raw.trans h.raw, lens := hf.lens.trans h.lens
    lengths := by rw [hf.keys, h.lengths]
    first := fun hin => by
      have hr := h.first hin
      have hpos := (hf.held (h.mode.trans (by simp [layoutOf, hin]))).1
      have hout := hf.written
      have hwritten := hr.written
      exact ⟨hf.recsLen.trans hr.recsLen, by rw [hpos, hf.recsLen]; exact hr.pos,
        by rw [hf.batchBuf]; omega, by rw [hf.recOffs]; exact hr.offs⟩
    last := fun h0 => by
      have hb := h.last h0
      have hout := hf.written
      have hwritten := hb.written
      exact ⟨by rw [hf.exts]; exact hb.exts, by rw [hf.tails]; exact hb.tails,
        by rw [hf.exts]; exact hb.inBlocks, by rw [hf.tails]; exact hb.noTail, by omega,
        hf.batchBuf.trans hb.batch, hb.room.trans hf.grows⟩ }

/-- A block flushed where a condition asks for it. -/
lemma flushWhen_spec (lz : Lz4) {c : Prop} [Decidable c] (hc : c → w.builder ≠ [])
    (hrows : RowsOk w) :
    Framed w (if c then flushBlock lz w else w) ∧ RowsOk (if c then flushBlock lz w else w) ∧
      (if c then flushBlock lz w else w).builder.length = (if c then 0 else w.builder.length) ∧
      (if c then flushBlock lz w else w).blocks.length = w.blocks.length + if c then 1 else 0 := by
  by_cases h : c
  · simp only [if_pos h]
    obtain ⟨hf, hr, hnil, hblocks⟩ := flushBlock_spec lz w hrows
    rw [if_pos (hc h)] at hblocks
    exact ⟨hf, hr, by rw [hnil]; rfl, hblocks⟩
  · simp only [if_neg h]
    exact ⟨Framed.refl w, hrows, trivial, rfl⟩

/-- A run placed in a block: the writer's cut is the planner's. -/
lemma placeRun_spec {run : Bytes} (last count : ℕ) (hopts : w.opts = clamped opts)
    (hrows : RowsOk w) (hbelow : w.builder.length ≠ 0 → w.builder.length < max opts.blockSize 1)
    (hsize : max opts.blockSize 1 < 2 ^ 64) (hrun : run.length < 2 ^ 64) :
    Framed w (placeRun lz w run last count).1 ∧ RowsOk (placeRun lz w run last count).1 ∧
      ((placeRun lz w run last count).1.builder.length,
        (placeRun lz w run last count).1.blocks.length) =
          ((cut w.builder.length run.length (max opts.blockSize 1)).1,
            w.blocks.length + (cut w.builder.length run.length (max opts.blockSize 1)).2) ∧
      (placeRun lz w run last count).2.block ≤ w.blocks.length + 1 := by
  have hbs : w.opts.blockSize = max opts.blockSize 1 := by rw [hopts]; rfl
  obtain ⟨hf₁, hr₁, hb₁, hn₁⟩ := flushWhen_spec lz
    (c := w.builder ≠ [] ∧ w.opts.blockSize < w.builder.length + run.length) And.left hrows
  set w₁ := if w.builder ≠ [] ∧ w.opts.blockSize < w.builder.length + run.length then
    flushBlock lz w else w with hw₁
  set w₂ : SegmentWriter := { w₁ with builder := w₁.builder ++ run } with hw₂
  have hf₂ : Framed w₁ w₂ := by
    constructor <;> first | rfl | exact fun _ => ⟨rfl, rfl⟩
  have hbs₂ : w₂.opts.blockSize = max opts.blockSize 1 := (congrArg _ hf₁.opts).trans hbs
  have hfull : w₂.opts.blockSize ≤ w₂.builder.length → w₂.builder ≠ [] := by
    intro hle hnil
    rw [hnil, hbs₂, List.length_nil] at hle
    have := le_max_right opts.blockSize 1
    omega
  obtain ⟨hf₃, hr₃, hb₃, hn₃⟩ := flushWhen_spec lz hfull (hr₁ : RowsOk w₂)
  have hplace : placeRun lz w run last count =
      (if w₂.opts.blockSize ≤ w₂.builder.length then flushBlock lz w₂ else w₂,
        { block := w₁.blocks.length % 2 ^ 32, off := w₁.builder.length % 2 ^ 32,
          len := run.length % 2 ^ 32, last := last, count := count }) := rfl
  have hlen₂ : w₂.builder.length = w₁.builder.length + run.length := List.length_append
  rw [hplace]
  refine ⟨(hf₁.trans hf₂).trans hf₃, hr₃, ?_, ?_⟩
  · dsimp only
    rw [hb₃, hn₃, hbs₂, hlen₂, show w₂.blocks = w₁.blocks from rfl, hn₁, hb₁, hbs]
    rcases cut_cases hbelow hsize hrun with ⟨hne, hover, hcut⟩ | ⟨hfits, hcut⟩
    · have hcond : w.builder ≠ [] ∧ max opts.blockSize 1 < w.builder.length + run.length :=
        ⟨fun h => hne (by rw [h]; rfl), by have := hbelow hne; omega⟩
      rw [hcut, if_pos hcond, if_pos hcond, Nat.zero_add]
      split_ifs <;> simp
    · have hcond : ¬ (w.builder ≠ [] ∧ max opts.blockSize 1 < w.builder.length + run.length) := by
        rintro ⟨hne, hover⟩
        have hne' : w.builder.length ≠ 0 := fun h => hne (List.length_eq_zero_iff.mp h)
        have := hbelow hne'
        omega
      rw [hcut, if_neg hcond, if_neg hcond]
      split_ifs <;> simp
  · refine (Nat.mod_le _ _).trans ?_
    rw [hn₁]
    split_ifs <;> omega

/-! ## Records -/

/-- The bytes of a record with one extent. -/
def recordLenOf (key : Bytes) (ext : Ext) (tail : Bytes) (compact : Bool) : ℕ :=
  recordTailAt key.length [ext] compact + alignUp tail.length REC_ALIGN

/-- The record of a run in a block. -/
lemma recordLenOf_block {key : Bytes} {ext : Ext} {compact : Bool} (run : ℕ)
    (h : ext.isInline = false) :
    recordLenOf key ext [] compact = segmentRecordLen key.length run false compact := by
  simp [recordLenOf, recordTailAt, segmentRecordLen, recordLenTail, recordLen, compacts, h]

/-- The record of an inline run. -/
lemma recordLenOf_inline {key run : Bytes} (last count : ℕ) {compact : Bool}
    (hrun : run.length < 2 ^ 32) :
    recordLenOf key ⟨Ext.INLINE, 0, run.length % 2 ^ 32, last, count⟩ run compact =
      segmentRecordLen key.length run.length true compact := by
  have hin : compacts [⟨Ext.INLINE, 0, run.length % 2 ^ 32, last, count⟩] = true ↔
      run.length < COMPACT_RUN := by
    rw [Nat.mod_eq_of_lt hrun]
    simp [compacts, Ext.isInline]
  by_cases hc : compact = true ∧ run.length < COMPACT_RUN
  · simp only [recordLenOf, recordTailAt, segmentRecordLen]
    rw [if_pos ⟨hc.1, hin.mpr hc.2⟩, if_pos ⟨hc.1, trivial, hc.2⟩]
    rfl
  · simp only [recordLenOf, recordTailAt, segmentRecordLen]
    rw [if_neg (fun h => hc ⟨h.1, hin.mp h.2⟩), if_neg (fun h => hc ⟨h.1, h.2.2⟩)]
    rfl

/-- A record streamed. -/
lemma streamRecord_ok {key tail : Bytes} {ext : Ext} (h : streamRecord w key ext tail = .ok w') :
    ∃ out batch, w' = { w with
      out := out, batchBuf := batch, pos := w.pos + recordLenOf key ext tail w.opts.compactRecords
      recOffs := w.recOffs ++ [w.recsLen % 2 ^ 32]
      recsLen := w.recsLen + recordLenOf key ext tail w.opts.compactRecords
      keys := w.keys ++ [key] } ∧
      out.length + batch.length = w.out.length + w.batchBuf.length +
        recordLenOf key ext tail w.opts.compactRecords := by
  rw [streamRecord, streamRecordAs, recordLenFor] at h
  by_cases hbad : 65535 < key.length ∨ COMPACT ≤ [ext].length
  · rw [if_pos hbad] at h
    exact absurd h (by simp)
  · rw [if_neg hbad] at h
    simp only [Option.map_some, List.nil_append] at h
    have hlen := length_recordBytes key [ext] tail w.opts.compactRecords
    by_cases hfull : MAX_RECS < w.recsLen + recordLenOf key ext tail w.opts.compactRecords
    · cases hm : w.opts.marks <;> simp only [hm, Bool.false_eq_true, if_false, if_true] at h <;>
        rw [recordLenOf] at hfull <;> rw [if_pos hfull] at h <;> exact absurd h (by simp)
    · cases hm : w.opts.marks <;> simp only [hm, Bool.false_eq_true, if_false, if_true] at h <;>
        rw [recordLenOf] at hfull <;> rw [if_neg hfull] at h
      · refine ⟨_, _, (Except.ok.inj h).symm, ?_⟩
        simp only [List.length_append, hlen, recordLenOf]
        omega
      · refine ⟨_, _, (Except.ok.inj h).symm, ?_⟩
        simp only [List.length_append, hlen, recordLenOf]
        omega

/-- A record taken in, in either layout. -/
lemma Kept.addRecord (h : Kept opts keys w) {key tail : Bytes} {ext : Ext} (run : ℕ)
    (hlen : 0 < opts.inlineMax → recordLenOf key ext tail opts.compactRecords =
      segmentRecordLen key.length run (goesInline opts.inlineMax run) opts.compactRecords)
    (hblock : opts.inlineMax = 0 → ext.isInline = false ∧ tail = [])
    (hok : w.addRecord (layoutOf opts) key ext tail = .ok w') :
    Kept opts (keys ++ [(key.length, run)]) w' ∧ w'.builder = w.builder ∧ w'.blocks = w.blocks ∧
      w'.chunkRows = w.chunkRows ∧ w'.keys = w.keys ++ [key] := by
  by_cases hin : 0 < opts.inlineMax
  · rw [layoutOf, if_pos hin] at hok
    obtain ⟨out, batch, rfl, hwritten⟩ := streamRecord_ok hok
    have hcompact : w.opts.compactRecords = opts.compactRecords := by rw [h.settings]; rfl
    rw [hcompact] at hwritten ⊢
    have hr := h.first hin
    refine ⟨⟨h.settings, h.mode, h.reserveOff, h.openKey, h.raw, h.lens, ?_, fun _ => ?_,
      fun h0 => by omega⟩, rfl, rfl, rfl, rfl⟩
    · simp only [List.map_append, h.lengths, List.map_cons, List.map_nil]
    · refine ⟨?_, ?_, ?_, ?_⟩
      · simp only [hr.recsLen, hlen hin, recordBytesOf, List.map_append, List.sum_append,
          List.map_cons, List.map_nil, List.sum_singleton]
      · simp only [hr.pos, Nat.add_assoc]
      · simp only [hwritten, hr.written]
      · intro x hx
        rcases List.mem_append.mp hx with hx | hx
        · exact hr.offs x hx
        · rw [List.mem_singleton.mp hx]
          exact Nat.mod_lt _ (by norm_num)
  · have h0 : opts.inlineMax = 0 := by omega
    rw [layoutOf, if_neg hin] at hok
    obtain rfl := (Except.ok.inj hok).symm
    obtain ⟨hext, htail⟩ := hblock h0
    have hb := h.last h0
    refine ⟨⟨h.settings, h.mode, h.reserveOff, h.openKey, h.raw, h.lens, ?_, fun h1 => by omega,
      fun _ => ?_⟩, rfl, rfl, rfl, rfl⟩
    · simp only [List.map_append, h.lengths, List.map_cons, List.map_nil]
    · refine ⟨by simp [hb.exts], by simp [hb.tails], ?_, ?_, hb.written, hb.batch, hb.room⟩
      · intro e he
        rcases List.mem_append.mp he with he | he
        · exact hb.inBlocks e he
        · rw [List.mem_singleton.mp he]
          exact hext
      · intro t ht
        rcases List.mem_append.mp ht with ht | ht
        · exact hb.noTail t ht
        · rw [List.mem_singleton.mp ht]
          exact htail

/-! ## Entries -/

lemma goesInline_zero (run : ℕ) : goesInline 0 run = false := by simp [goesInline]

lemma length_blockRuns_le (inlineMax : ℕ) (keys : List (ℕ × ℕ)) :
    (blockRuns inlineMax keys).length ≤ keys.length := by
  rw [blockRuns, List.length_map]
  exact List.length_filter_le _ _

/-- The cut of the runs so far keeps its counts. -/
lemma Cuts.ok (h : Cuts opts keys w) (hsize : opts.blockSize < 2 ^ 64)
    (hruns : ∀ k ∈ keys, k.2 ≤ MAX_RUN) :
    CutOk (max opts.blockSize 1) MAX_RUN (blockRuns opts.inlineMax keys).length
      (blockRuns opts.inlineMax keys).sum (w.builder.length, w.blocks.length) := by
  have hle : ∀ r ∈ blockRuns opts.inlineMax keys, r ≤ MAX_RUN := by
    intro r hr
    obtain ⟨k, hk, rfl⟩ := List.mem_map.mp hr
    exact hruns k (List.mem_of_mem_filter hk)
  have hrun := (@cutOk_start (max opts.blockSize 1)).run _ hle (by omega)
    (by decide : MAX_RUN < 2 ^ 64)
  rw [Nat.zero_add, Nat.zero_add, ← h.sizes] at hrun
  exact hrun

/-- A closed key's run and record taken in. -/
lemma Streamed.addRun (h : Streamed opts keys w) {key run : Bytes} {last count : ℕ}
    (hsize : opts.blockSize < 2 ^ 64) (hruns : ∀ k ∈ keys, k.2 ≤ MAX_RUN)
    (hrun : run.length ≤ MAX_RUN) (hkeys : keys.length < 2 ^ 31)
    (hok : w.addRun lz key run last count = .ok w') :
    Streamed opts (keys ++ [(key.length, run.length)]) w' ∧ w'.keys = w.keys ++ [key] := by
  have hmax : MAX_RUN < 2 ^ 32 := by decide
  have hinmax : w.opts.inlineMax = opts.inlineMax := by rw [h.kept.settings]; rfl
  rw [SegmentWriter.addRun, layout_of_mode h.kept.mode] at hok
  dsimp only at hok
  rw [hinmax] at hok
  by_cases hin : goesInline opts.inlineMax run.length = true
  · have hin' : inlines opts.inlineMax run.length = true := hin
    have hpos : 0 < opts.inlineMax := by
      by_contra h0
      rw [show opts.inlineMax = 0 by omega, goesInline_zero] at hin
      exact absurd hin Bool.false_ne_true
    rw [if_pos hin'] at hok
    obtain ⟨hkept, hb, hbl, hrows, hkeys'⟩ := h.kept.addRecord run.length
      (fun _ => by rw [hin]; exact recordLenOf_inline last count (by omega))
      (fun h0 => by omega) hok
    refine ⟨⟨hkept, ⟨?_, ?_⟩⟩, hkeys'⟩
    · rw [hb, hbl, h.cuts.sizes, blockRuns, blockRuns, List.filter_append]
      simp [hin]
    · rw [RowsOk, hbl, hrows]
      exact h.cuts.rows
  · have hin' : ¬ inlines opts.inlineMax run.length = true := hin
    rw [if_neg hin'] at hok
    have hcut := h.cuts.ok hsize hruns
    obtain ⟨hf, hr, hsizes, hblock⟩ := @placeRun_spec _ _ lz run last count h.kept.settings h.cuts.rows hcut.below
        (by omega) (by omega)
    have hcount : w.blocks.length ≤ keys.length := by
      have hlast := hcut.byCount
      have hlen := length_blockRuns_le opts.inlineMax keys
      simp only [lastBlock] at hlast
      omega
    have hext : (placeRun lz w run last count).2.isInline = false := by
      rw [Ext.isInline, decide_eq_false_iff_not, Ext.INLINE]
      omega
    have hno : goesInline opts.inlineMax run.length = false := by simpa using hin
    obtain ⟨hkept, hb, hbl, hrows, hkeys'⟩ := (h.kept.framed hf).addRecord run.length
      (fun _ => by rw [hno]; exact recordLenOf_block _ hext) (fun _ => ⟨hext, rfl⟩) hok
    refine ⟨⟨hkept, ⟨?_, ?_⟩⟩, by rw [hkeys', hf.keys]⟩
    · rw [hb, hbl, hsizes]
      have hcuts := h.cuts.sizes
      rw [blockRuns, List.filter_append, List.map_append, cutAll, List.foldl_append]
      rw [cutAll, blockRuns] at hcuts
      rw [← hcuts]
      simp [hno]
    · rw [RowsOk, hbl, hrows]
      exact hr

/-- The values of an entry taken in. -/
lemma foldl_value (vals : List Bytes) (w : SegmentWriter) (hsmall : ∀ v ∈ vals, v.length < 2 ^ 32)
    (hfew : w.records + vals.length < 2 ^ 32) :
    vals.foldl SegmentWriter.value w = { w with
      records := w.records + vals.length, lens := w.lens ++ vals.map List.length
      raw := w.raw ++ vals.flatten } := by
  induction vals generalizing w with
  | nil => simp
  | cons v vals ih =>
      rw [List.length_cons] at hfew
      have hrecords : (w.value v).records = w.records + 1 := Nat.mod_eq_of_lt (by omega)
      rw [List.foldl_cons, ih (w.value v) (fun x hx => hsmall x (List.mem_cons_of_mem _ hx))
        (by rw [hrecords]; omega), hrecords]
      simp only [SegmentWriter.value, List.map_cons, List.flatten_cons, List.append_assoc,
        Nat.mod_eq_of_lt (hsmall v (List.mem_cons_self ..)), List.cons_append, List.nil_append,
        List.length_cons, Nat.add_assoc, Nat.add_comm 1]

/-- The values of an entry whose run a planner takes. -/
lemma foldl_value_of_run {e : Entry} (w : SegmentWriter) (hrun : (lengthsOf e).2 < 2 ^ 32) :
    e.values.foldl SegmentWriter.value { w with openKey := some e.key, records := 0 } = { w with
      openKey := some e.key, records := e.values.length
      lens := w.lens ++ e.values.map List.length, raw := w.raw ++ e.values.flatten } := by
  have hcount := length_le_runOf e.values
  rw [lengthsOf, runLen_eq] at hrun
  rw [foldl_value e.values _ (fun v hv => ?_) (by dsimp only at hrun ⊢; omega)]
  · simp only [Nat.zero_add]
  · have := length_le_runLen hv
    rw [runLen_eq] at this
    dsimp only at hrun
    omega

/-- A key closed leaves what it had staged behind. -/
lemma Streamed.closed (h : Streamed opts keys w) (records payload : ℕ) :
    Streamed opts keys { w with
      openKey := none, raw := [], lens := [], records := records, payload := payload } := by
  refine ⟨⟨h.kept.settings, h.kept.mode, h.kept.reserveOff, rfl, rfl, rfl, h.kept.lengths,
    fun hin => ?_, fun h0 => ?_⟩, ⟨h.cuts.sizes, h.cuts.rows⟩⟩
  · have hr := h.kept.first hin
    exact ⟨hr.recsLen, hr.pos, hr.written, hr.offs⟩
  · have hb := h.kept.last h0
    exact ⟨hb.exts, hb.tails, hb.inBlocks, hb.noTail, hb.written, hb.batch, hb.room⟩

/-- One entry more. -/
lemma Streamed.addEntry {e : Entry} (h : Streamed opts keys w.layout.1)
    (hsize : opts.blockSize < 2 ^ 64) (hruns : ∀ k ∈ keys, k.2 ≤ MAX_RUN)
    (hrun : (lengthsOf e).2 ≤ MAX_RUN) (hkeys : keys.length < 2 ^ 31)
    (hok : SegmentWriter.addEntry lz w e = .ok w') :
    Streamed opts (keys ++ [lengthsOf e]) w'.layout.1 ∧ w'.keys = w.layout.1.keys ++ [e.key] := by
  have hmax : MAX_RUN < 2 ^ 32 := by decide
  have hlen : (lengthsOf e).2 = (runOf e.values).length := runLen_eq e.values
  rw [SegmentWriter.addEntry] at hok
  obtain ⟨w₁, hbegin, hok⟩ := except_bind_eq_ok.mp hok
  rw [SegmentWriter.begin] at hbegin
  obtain ⟨-, -, hbegin⟩ := except_bind_eq_ok.mp hbegin
  obtain rfl := (Except.ok.inj hbegin).symm
  rw [foldl_value_of_run _ (by omega), endWith] at hok
  simp only [h.kept.raw, h.kept.lens, List.nil_append, encodeRun_eq] at hok
  by_cases hbig : 2 ^ 32 - 1 < (runOf e.values).length
  · rw [if_pos hbig] at hok
    exact absurd hok (by simp)
  · rw [if_neg hbig] at hok
    by_cases hmany : Ext.FIXED ≤ e.values.length
    · rw [if_pos hmany] at hok
      exact absurd hok (by simp)
    · rw [if_neg hmany] at hok
      obtain ⟨hstep, hkeys'⟩ := (h.closed e.values.length _).addRun hsize hruns (by omega) hkeys hok
      rw [← hlen] at hstep
      rw [layout_of_mode hstep.kept.mode]
      exact ⟨hstep, hkeys'⟩

/-- A run of entries. -/
lemma streamed_foldlM (entries : List Entry) (h : Streamed opts keys w.layout.1)
    (hsize : opts.blockSize < 2 ^ 64)
    (hruns : ∀ k ∈ keys ++ entries.map lengthsOf, k.2 ≤ MAX_RUN)
    (hkeys : (keys ++ entries.map lengthsOf).length ≤ 2 ^ 31)
    (hok : entries.foldlM (SegmentWriter.addEntry lz) w = .ok w') :
    Streamed opts (keys ++ entries.map lengthsOf) w'.layout.1 := by
  induction entries generalizing keys w with
  | nil =>
      obtain rfl := Except.ok.inj hok
      simpa using h
  | cons e es ih =>
      rw [List.foldlM_cons] at hok
      obtain ⟨w₁, hstep, hrest⟩ := except_bind_eq_ok.mp hok
      have hassoc : keys ++ (e :: es).map lengthsOf = (keys ++ [lengthsOf e]) ++ es.map lengthsOf := by
        simp
      rw [hassoc] at hruns hkeys ⊢
      obtain ⟨hhead, -⟩ := h.addEntry hsize
        (fun k hk => hruns k (List.mem_append_left _ (List.mem_append_left _ hk)))
        (hruns _ (List.mem_append_left _ (List.mem_append_right _ (List.mem_singleton_self _))))
        (by simp only [List.length_append, List.length_singleton] at hkeys; omega) hstep
      exact ih hhead hruns hkeys hrest

end Writer

/-! ## A block size of zero -/

/-- A planner of block size zero closes a block for every run. -/
lemma cutAll_zero (runs : List ℕ) (c : ℕ) : cutAll 0 (0, c) runs = (0, c + runs.length) := by
  induction runs generalizing c with
  | nil => rfl
  | cons r rs ih =>
      have hstep : cutAll 0 (0, c) (r :: rs) = cutAll 0 (0, c + 1) rs := by simp [cutAll, cut]
      rw [hstep, ih, List.length_cons]
      congr 1
      omega

/-- A writer, its block size one, closes none for an empty run. -/
lemma cutAll_one (runs : List ℕ) (c : ℕ) :
    cutAll 1 (0, c) runs = (0, c + runs.countP (fun r => 0 < r)) := by
  induction runs generalizing c with
  | nil => rfl
  | cons r rs ih =>
      by_cases hr : 0 < r
      · have hcut : cut 0 r 1 = (0, 1) := by
          simp only [cut, ne_eq, not_true_eq_false, false_and, if_false]
          rw [if_pos (by omega)]
        have hstep : cutAll 1 (0, c) (r :: rs) = cutAll 1 (0, c + 1) rs := by
          simp only [cutAll, List.foldl_cons, hcut]
        rw [hstep, ih, List.countP_cons_of_pos (by simpa using hr)]
        congr 1
        omega
      · obtain rfl : r = 0 := by omega
        have hstep : cutAll 1 (0, c) (0 :: rs) = cutAll 1 (0, c) rs := by simp [cutAll, cut]
        rw [hstep, ih, List.countP_cons_of_neg (by simp)]

lemma mem_blockRuns_zero {inlineMax : ℕ} {keys : List (ℕ × ℕ)} :
    0 ∈ blockRuns inlineMax keys ↔ inlineMax = 0 ∧ ∃ k ∈ keys, k.2 = 0 := by
  rw [blockRuns, List.mem_map]
  constructor
  · rintro ⟨k, hk, h0⟩
    obtain ⟨hmem, hin⟩ := List.mem_filter.mp hk
    refine ⟨?_, k, hmem, h0⟩
    simp [goesInline, h0] at hin
    exact hin
  · rintro ⟨rfl, k, hk, h0⟩
    exact ⟨k, List.mem_filter.mpr ⟨hk, by simp [goesInline]⟩, h0⟩

/-- The writer's block size is at least one; the planner's count differs from the writer's exactly
where its block size is zero and an empty run reaches a block, and then it is more. -/
lemma blocksFor_clamped (blockSize inlineMax : ℕ) (keys : List (ℕ × ℕ)) :
    blocksFor (blockRuns inlineMax keys) (max blockSize 1) ≤
        blocksFor (blockRuns inlineMax keys) blockSize ∧
      (blocksFor (blockRuns inlineMax keys) blockSize =
          blocksFor (blockRuns inlineMax keys) (max blockSize 1) ↔
        0 < blockSize ∨ 0 < inlineMax ∨ ∀ k ∈ keys, k.2 ≠ 0) := by
  by_cases hbs : 0 < blockSize
  · rw [max_eq_left (by omega)]
    exact ⟨le_refl _, fun _ => Or.inl hbs, fun _ => rfl⟩
  · obtain rfl : blockSize = 0 := by omega
    have hz : blocksFor (blockRuns inlineMax keys) 0 = (blockRuns inlineMax keys).length := by
      rw [blocksFor, cutAll_zero]
      simp [lastBlock]
    have ho : blocksFor (blockRuns inlineMax keys) (max 0 1) =
        (blockRuns inlineMax keys).countP (fun r => 0 < r) := by
      rw [show max 0 1 = 1 from rfl, blocksFor, cutAll_one]
      simp [lastBlock]
    rw [hz, ho]
    refine ⟨List.countP_le_length, ?_⟩
    rw [eq_comm, List.countP_eq_length]
    constructor
    · intro hall
      refine Or.inr ?_
      by_contra hno
      push Not at hno
      obtain ⟨h0, k, hk, hzero⟩ := hno
      have := hall 0 (mem_blockRuns_zero.mpr ⟨by omega, k, hk, hzero⟩)
      simp at this
    · intro h r hr
      rw [decide_eq_true_iff]
      by_contra hr0
      obtain rfl : r = 0 := by omega
      obtain ⟨h0, k, hk, hzero⟩ := mem_blockRuns_zero.mp hr
      rcases h with h | h | h
      · omega
      · omega
      · exact h k hk hzero

end Supdb.Reserve
