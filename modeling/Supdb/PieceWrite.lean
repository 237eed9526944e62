import Supdb.ReserveExact
import Supdb.RunExtents

/-!
# What a piece's writer holds

A piece is written by a `SegmentWriter` without a head reserve, without compression and without
markers.  Everything it has written or staged can then be said of its blocks and its records alone:

* `Blocked` – the blocks it has closed lie, or are held, as they are, and the block table's entries
  and rows are theirs.
* `Recorded` – the records it has written or kept are the key section's.
* `RecOf` – a record of an entry: the run lies in the record, or in the block its extent names.

`SegmentTaken` is the three together.  An entry within the format's limits is taken and keeps it
(`SegmentTaken.addEntry`, and `SegmentTaken.putOne` for a value the record carries).
-/

namespace Supdb

open StorageLib Flatindex SegmentWriter Reserve

/-! ## Settings and limits -/

/-- The settings a piece is written under. -/
structure WriterOptions.Plain (opts : WriterOptions) : Prop where
  headReserve : opts.headReserve = 0
  compress : opts.compress = false
  marks : opts.marks = false
  blockSize : opts.blockSize < 2 ^ 32

/-- The limits an entry has to keep to, for a record and an extent to hold it. -/
structure Entry.Fits (e : Entry) : Prop where
  key : e.key.length ≤ 65535
  run : (runOf e.values).length < 2 ^ 32
  count : e.values.length < 2 ^ 30

/-- The entries a segment can hold: in key order, each within its limits, and their records within
the section's. -/
structure Writable (opts : WriterOptions) (entries : List Entry) : Prop where
  sorted : (entries.map Entry.key).Pairwise (· < ·)
  fits : ∀ e ∈ entries, e.Fits
  room : recordBytesOf opts.inlineMax opts.compactRecords (entries.map lengthsOf) ≤ MAX_RECS

/-! ## Blocks stored as they are -/

/-- The chunk checksums of a block, where it has any. -/
def rowOf (checksums : Bool) (block : Bytes) : Option (List (BitVec 32)) :=
  if checksums then chunkCrcs block else none

/-- The table's entry of a block stored as it is. -/
def plainLoc (checksums : Bool) (off : ℕ) (block : Bytes) : BlockLoc :=
  { off := off, stored := block.length, uncompressed := block.length, cap := block.length
    chunked := false, solo := false, chunkCrc := (rowOf checksums block).isSome
    crc := if checksums then crc32 block else 0 }

/-- The table's row of a block. -/
def plainRow (checksums : Bool) (block : Bytes) : List (BitVec 32) :=
  (rowOf checksums block).getD emptyRow

/-- The entries of blocks laid one behind the other. -/
def locsFrom (checksums : Bool) : ℕ → List Bytes → List BlockLoc
  | _, [] => []
  | pos, b :: bs => plainLoc checksums pos b :: locsFrom checksums (pos + b.length) bs

/-- Every block goes on as the one it was. -/
def Extends (blocks blocks' : List Bytes) : Prop :=
  ∀ (i : ℕ) (block : Bytes), blocks[i]? = some block →
    ∃ more : Bytes, blocks'[i]? = some (block ++ more)

section Blocks

variable {checksums : Bool} {blocks blocks' : List Bytes}

lemma Extends.refl (blocks : List Bytes) : Extends blocks blocks := by
  intro i block h
  exact ⟨[], by rw [List.append_nil]; exact h⟩

lemma Extends.trans {blocks'' : List Bytes} (h : Extends blocks blocks')
    (h' : Extends blocks' blocks'') : Extends blocks blocks'' := by
  intro i block hi
  obtain ⟨more, hmore⟩ := h i block hi
  obtain ⟨rest, hrest⟩ := h' i _ hmore
  exact ⟨more ++ rest, by rw [← List.append_assoc]; exact hrest⟩

/-- A block closed, an empty one started behind it. -/
lemma extends_close (closed : List Bytes) (block : Bytes) :
    Extends (closed ++ [block]) (closed ++ [block] ++ [[]]) := by
  intro i b hi
  refine ⟨[], ?_⟩
  rw [List.append_nil, List.getElem?_append_left (List.getElem?_eq_some_iff.mp hi).1, hi]

/-- The last block grown. -/
lemma extends_append (closed : List Bytes) (block run : Bytes) :
    Extends (closed ++ [block]) (closed ++ [block ++ run]) := by
  intro i b hi
  rcases Nat.lt_trichotomy i closed.length with hlt | rfl | hgt
  · rw [List.getElem?_append_left hlt] at hi ⊢
    exact ⟨[], by rw [List.append_nil]; exact hi⟩
  · rw [List.getElem?_concat_length] at hi ⊢
    exact ⟨run, by rw [Option.some.inj hi]⟩
  · rw [List.getElem?_eq_none (by simp; omega)] at hi
    exact absurd hi (Option.some_ne_none b).symm

lemma length_locsFrom (pos : ℕ) (blocks : List Bytes) :
    (locsFrom checksums pos blocks).length = blocks.length := by
  induction blocks generalizing pos with
  | nil => rfl
  | cons b bs ih => rw [locsFrom, List.length_cons, List.length_cons, ih]

lemma locsFrom_snoc (pos : ℕ) (blocks : List Bytes) (b : Bytes) :
    locsFrom checksums pos (blocks ++ [b]) =
      locsFrom checksums pos blocks ++ [plainLoc checksums (pos + blocks.flatten.length) b] := by
  induction blocks generalizing pos with
  | nil => rfl
  | cons c bs ih =>
      rw [List.cons_append, locsFrom, locsFrom, ih, List.flatten_cons, List.length_append,
        Nat.add_assoc, List.cons_append]

/-- Held blocks, once they are laid. -/
lemma placeHeld_eq {locs : List BlockLoc}
    (h : List.Forall₂ (fun b l => l = plainLoc checksums l.off b) blocks locs) (pos : ℕ) :
    placeHeld blocks locs pos = locsFrom checksums pos blocks := by
  induction h generalizing pos with
  | nil => rfl
  | cons hb _ ih =>
      rw [placeHeld, locsFrom, ih]
      congr 1
      rw [hb]
      rfl

lemma length_plainRow (block : Bytes) : (plainRow checksums block).length = MAX_CHUNK_CRCS := by
  rw [plainRow, rowOf]
  split_ifs
  · cases h : chunkCrcs block with
    | none => rfl
    | some row => exact length_chunkCrcs h
  · rfl

end Blocks

/-! ## The writer's blocks -/

/-- The blocks of a writer that has placed `n` runs: `closed`, and the one being filled. -/
structure Blocked (opts : WriterOptions) (n : ℕ) (closed : List Bytes) (w : SegmentWriter) :
    Prop where
  settings : w.opts = clamped opts
  mode : w.mode = some (layoutOf opts)
  builder : w.builder.length < 2 ^ 32
  whole : ∀ block ∈ closed, block ≠ [] ∧ block.length < 2 ^ 32
  few : closed.length + (if w.builder = [] then 0 else 1) ≤ n
  rows : w.chunkRows = closed.map (plainRow opts.checksums)
  written : w.pos = w.out.length
  held : 0 < opts.inlineMax → w.pendingBlocks = closed ∧
    List.Forall₂ (fun b l => l = plainLoc opts.checksums l.off b) closed w.blocks
  laid : opts.inlineMax = 0 → w.out = List.replicate SUPER 0 ++ closed.flatten ∧
    w.blocks = locsFrom opts.checksums SUPER closed

section Blocked

variable {opts : WriterOptions} {n : ℕ} {closed : List Bytes} {w w' : SegmentWriter} {lz : Lz4}
  {run : Bytes}

lemma Blocked.length_blocks (h : Blocked opts n closed w) : w.blocks.length = closed.length := by
  rcases Nat.eq_zero_or_pos opts.inlineMax with h0 | hpos
  · rw [(h.laid h0).2, length_locsFrom]
  · exact (h.held hpos).2.length_eq.symm

lemma Blocked.rowsOk (h : Blocked opts n closed w) : RowsOk w := by
  refine ⟨by rw [h.rows, List.length_map, h.length_blocks], fun r hr => ?_⟩
  rw [h.rows] at hr
  obtain ⟨b, -, rfl⟩ := List.mem_map.mp hr
  exact length_plainRow b

/-- A block flushed as it is. -/
lemma flushBlock_plain (lz : Lz4) (hplain : w.opts.compress = false) (hne : w.builder ≠ [])
    (hlen : w.builder.length < 2 ^ 32) :
    flushBlock lz w =
      let w' := { w with
        builder := [], blocks := w.blocks ++ [plainLoc w.opts.checksums w.pos w.builder]
        chunkRows := w.chunkRows ++ [plainRow w.opts.checksums w.builder] }
      if w.mode = some .recordsFirst then
        { w' with pendingBlocks := w.pendingBlocks ++ [w.builder] }
      else { w' with out := w.out ++ w.builder, pos := w.pos + w.builder.length } := by
  have hstored : storedBlock lz w.opts w.builder = (w.builder, false) := by
    rw [storedBlock, hplain, if_neg (fun h => Bool.false_ne_true h.1), if_neg Bool.false_ne_true]
  rw [flushBlock, if_neg hne, hstored]
  simp only [Nat.mod_eq_of_lt hlen, and_true, plainLoc, plainRow, rowOf]

/-- **A block flushed** is one block more, and what was in it stays where it was. -/
lemma Blocked.flush (lz : Lz4) (hplain : opts.Plain) (h : Blocked opts n closed w) :
    ∃ closed', Blocked opts n closed' (flushBlock lz w) ∧ (flushBlock lz w).builder = [] ∧
      Extends (closed ++ [w.builder]) (closed' ++ [[]]) ∧ Reserve.Framed w (flushBlock lz w) := by
  obtain ⟨hframed, -, hnil, -⟩ := flushBlock_spec lz w h.rowsOk
  have hcompress : w.opts.compress = false := by rw [h.settings]; exact hplain.compress
  have hsums : w.opts.checksums = opts.checksums := by rw [h.settings]; rfl
  by_cases hne : w.builder = []
  · have heq : flushBlock lz w = w := if_pos hne
    rw [heq] at hframed ⊢
    exact ⟨closed, h, hne, by rw [hne]; exact Extends.refl _, hframed⟩
  · refine ⟨closed ++ [w.builder], ?_, hnil, extends_close closed w.builder, hframed⟩
    have hfew := h.few
    rw [if_neg hne] at hfew
    have hclosed : ∀ block ∈ closed ++ [w.builder], block ≠ [] ∧ block.length < 2 ^ 32 := by
      intro block hb
      rcases List.mem_append.mp hb with hb | hb
      · exact h.whole block hb
      · rw [List.mem_singleton.mp hb]
        exact ⟨hne, h.builder⟩
    have hmode := h.mode
    rw [flushBlock_plain lz hcompress hne h.builder, hsums]
    rcases Nat.eq_zero_or_pos opts.inlineMax with h0 | hpos
    · have hlast : ¬ w.mode = some .recordsFirst := by simp [hmode, layoutOf, h0]
      obtain ⟨hout, hblocks⟩ := h.laid h0
      have hat : SUPER + closed.flatten.length = w.pos := by
        rw [h.written, hout, List.length_append, List.length_replicate]
      simp only [if_neg hlast]
      exact
        { settings := h.settings, mode := h.mode, builder := by simp, whole := hclosed
          few := by simpa using hfew
          rows := by simp [h.rows]
          written := by simp [h.written]
          held := fun hpos => by omega
          laid := fun _ => ⟨by simp [hout], by simp only; rw [locsFrom_snoc, hat, hblocks]⟩ }
    · have hfirst : w.mode = some .recordsFirst := by simp [hmode, layoutOf, hpos]
      obtain ⟨hpending, hlocs⟩ := h.held hpos
      simp only [if_pos hfirst]
      exact
        { settings := h.settings, mode := h.mode, builder := by simp, whole := hclosed
          few := by simpa using hfew
          rows := by simp [h.rows]
          written := h.written
          held := fun _ => ⟨by simp [hpending],
            List.rel_append hlocs (.cons (by rfl) .nil)⟩
          laid := fun h0 => by omega }

/-- A block flushed where a condition asks for it. -/
lemma Blocked.flushWhen (lz : Lz4) (hplain : opts.Plain) (h : Blocked opts n closed w) {c : Prop}
    [Decidable c] :
    ∃ closed', Blocked opts n closed' (if c then flushBlock lz w else w) ∧
      (if c then flushBlock lz w else w).builder = (if c then [] else w.builder) ∧
      Extends (closed ++ [w.builder]) (closed' ++ [(if c then flushBlock lz w else w).builder]) ∧
      Reserve.Framed w (if c then flushBlock lz w else w) := by
  split_ifs with hc
  · obtain ⟨closed', hb, hnil, hext, hframed⟩ := h.flush lz hplain
    exact ⟨closed', hb, hnil, by rw [hnil]; exact hext, hframed⟩
  · exact ⟨closed, h, rfl, Extends.refl _, Reserve.Framed.refl w⟩

/-- A run behind what the block being filled holds. -/
lemma Blocked.append (h : Blocked opts n closed w) (hfit : (w.builder ++ run).length < 2 ^ 32) :
    Blocked opts (n + 1) closed { w with builder := w.builder ++ run } := by
  have hfew := h.few
  refine
    { settings := h.settings, mode := h.mode, builder := hfit, whole := h.whole, few := ?_
      rows := h.rows, written := h.written, held := h.held, laid := h.laid }
  dsimp only
  split_ifs at hfew ⊢ <;> omega

/-- **A run placed in a block** lies where its extent says. -/
lemma Blocked.placeRun (lz : Lz4) (hplain : opts.Plain) (h : Blocked opts n closed w)
    (hrun : run.length < 2 ^ 32) (hn : n < Ext.INLINE) (last count : ℕ) :
    ∃ closed' b o, Blocked opts (n + 1) closed' (placeRun lz w run last count).1 ∧
      (placeRun lz w run last count).2 = ⟨b, o, run.length, last, count⟩ ∧
      b < Ext.INLINE ∧ o < 2 ^ 32 ∧
      (placeRun lz w run last count).1.builder.length < max opts.blockSize 1 ∧
      Extends (closed ++ [w.builder]) (closed' ++ [(placeRun lz w run last count).1.builder]) ∧
      Reserve.Framed w (placeRun lz w run last count).1 ∧
      (run ≠ [] → ∃ block, (closed' ++ [(placeRun lz w run last count).1.builder])[b]?
        = some block ∧ HasAt block o run) := by
  have hsize : w.opts.blockSize = max opts.blockSize 1 := by rw [h.settings]; rfl
  have hI : Ext.INLINE = 2 ^ 32 - 1 := rfl
  have hsmall := hplain.blockSize
  obtain ⟨closed₁, h₁, hb₁, hext₁, hf₁⟩ := h.flushWhen lz hplain
    (c := w.builder ≠ [] ∧ w.opts.blockSize < w.builder.length + run.length)
  set w₁ := if w.builder ≠ [] ∧ w.opts.blockSize < w.builder.length + run.length then
    flushBlock lz w else w with hw₁
  -- the block has room for the run: it is empty, or was found not to overflow
  have hroom : (w₁.builder ++ run).length < 2 ^ 32 := by
    rw [List.length_append, hb₁]
    split_ifs with hc
    · simpa using hrun
    · rw [hsize] at hc
      by_cases hnil : w.builder = []
      · simpa [hnil] using hrun
      · have := not_and.mp hc hnil
        omega
  set w₂ : SegmentWriter := { w₁ with builder := w₁.builder ++ run } with hw₂
  have h₂ : Blocked opts (n + 1) closed₁ w₂ := h₁.append hroom
  have hf₂ : Reserve.Framed w₁ w₂ := by
    constructor <;> first | rfl | exact fun _ => ⟨rfl, rfl⟩
  obtain ⟨closed₃, h₃, hb₃, hext₃, hf₃⟩ := h₂.flushWhen lz hplain
    (c := w₂.opts.blockSize ≤ w₂.builder.length)
  have hplace : SegmentWriter.placeRun lz w run last count =
      (if w₂.opts.blockSize ≤ w₂.builder.length then flushBlock lz w₂ else w₂,
        ⟨w₁.blocks.length % 2 ^ 32, w₁.builder.length % 2 ^ 32, run.length % 2 ^ 32, last, count⟩) :=
    rfl
  have hcount : w₁.blocks.length < Ext.INLINE := by
    have := h₁.few
    rw [h₁.length_blocks]
    omega
  have hoff : w₁.builder.length < 2 ^ 32 := h₁.builder
  rw [Nat.mod_eq_of_lt hrun, Nat.mod_eq_of_lt (by omega), Nat.mod_eq_of_lt hoff] at hplace
  rw [hplace]
  refine ⟨closed₃, w₁.blocks.length, w₁.builder.length, h₃, rfl, hcount, hoff, ?_,
    (hext₁.trans (extends_append closed₁ w₁.builder run)).trans hext₃, (hf₁.trans hf₂).trans hf₃,
    fun hne => ?_⟩
  · have hsize₂ : w₂.opts.blockSize = max opts.blockSize 1 := (congrArg _ hf₁.opts).trans hsize
    dsimp only
    rw [hb₃, hsize₂]
    split_ifs with hc
    · exact lt_of_lt_of_le Nat.one_pos (le_max_right _ _)
    · exact not_le.mp hc
  · have hat : HasAt (w₁.builder ++ run) w₁.builder.length run := by
      have h := slice_append_right w₁.builder run []
      rwa [List.append_nil] at h
    obtain ⟨more, hmore⟩ := hext₃ w₁.blocks.length (w₁.builder ++ run) (by
      rw [h₁.length_blocks]
      exact List.getElem?_concat_length)
    refine ⟨_, hmore, ?_⟩
    rw [HasAt, slice_append_left (hat.le hne)]
    exact hat

end Blocked

/-! ## The writer's records -/

/-- What a record says of its entry, the blocks being `blocks`: the run lies in the record, or in
the block its extent names. -/
inductive RecOf (inlineMax : ℕ) (blocks : List Bytes) (e : Entry) : FlatEntry → Prop where
  | inRecord (h : inlines inlineMax (runOf e.values).length) :
      RecOf inlineMax blocks e ⟨e.key, [inlineExt e.values e.tomb], runOf e.values⟩
  | inBlock (b o : ℕ) (h : ¬ inlines inlineMax (runOf e.values).length) (hb : b < Ext.INLINE)
      (ho : o < 2 ^ 32)
      (hat : runOf e.values ≠ [] → ∃ block, blocks[b]? = some block ∧
        HasAt block o (runOf e.values)) :
      RecOf inlineMax blocks e
        ⟨e.key, [{ inlineExt e.values e.tomb with block := b, off := o }], []⟩

/-- What a writer holds beside its blocks, `recs` being the records it has taken in. -/
structure Recorded (opts : WriterOptions) (recs : List FlatEntry) (w : SegmentWriter) : Prop where
  reserveOff : w.reserveOff = 0
  openKey : w.openKey = none
  raw : w.raw = []
  lens : w.lens = []
  batch : w.batchBuf = []
  keys : w.keys = recs.map FlatEntry.key
  first : 0 < opts.inlineMax → w.recsLen = (recordsOf opts.compactRecords recs).length ∧
    w.recOffs = recOffsOf opts.compactRecords recs ∧
    w.out = List.replicate (SUPER + HEADER) 0 ++ recordsOf opts.compactRecords recs
  last : opts.inlineMax = 0 → recs.map FlatEntry.exts = w.exts.map ([·]) ∧
    w.tails = recs.map FlatEntry.tail

section Records

variable {opts : WriterOptions} {n : ℕ} {closed blocks blocks' : List Bytes}
  {recs : List FlatEntry} {entries : List Entry} {w w' : SegmentWriter} {lz : Lz4} {e : Entry}
  {f : FlatEntry} {inlineMax : ℕ}

lemma RecOf.key (h : RecOf inlineMax blocks e f) : f.key = e.key := by
  cases h <;> rfl

lemma map_key_recOf (h : List.Forall₂ (RecOf inlineMax blocks) entries recs) :
    recs.map FlatEntry.key = entries.map Entry.key := by
  induction h with
  | nil => rfl
  | cons hf _ ih => rw [List.map_cons, List.map_cons, hf.key, ih]

/-- A record's run stays where it is. -/
lemma RecOf.mono (h : RecOf inlineMax blocks e f) (hext : Extends blocks blocks') :
    RecOf inlineMax blocks' e f := by
  cases h with
  | inRecord h => exact .inRecord h
  | inBlock b o h hb ho hat =>
      refine .inBlock b o h hb ho (fun hne => ?_)
      obtain ⟨block, hblock, hat⟩ := hat hne
      obtain ⟨more, hmore⟩ := hext _ _ hblock
      refine ⟨_, hmore, ?_⟩
      rw [HasAt, slice_append_left (hat.le hne)]
      exact hat

lemma Entry.Fits.lastOf_lt (h : e.Fits) : lastOf e.values < 2 ^ 32 :=
  lt_of_le_of_lt (lastOf_le e.values) h.run

/-- A record of an entry within its limits is one that reads back. -/
lemma RecOf.recordOk (h : RecOf inlineMax blocks e f) (hfits : e.Fits) :
    RecordOk f.key f.exts f.tail := by
  have hwords := @inlineExt_fits e.values e.tomb hfits.count hfits.run hfits.lastOf_lt
  cases h with
  | inRecord h =>
      refine ⟨hfits.key, by simp [COMPACT], fun x hx => ?_, ?_, fun _ => ⟨_, _, rfl, rfl⟩⟩
      · rw [List.mem_singleton.mp hx]
        exact hwords
      · simp [tailSpan, inlineExt, Ext.isInline]
  | inBlock b o h hb ho hat =>
      have hout : Ext.isInline { inlineExt e.values e.tomb with block := b, off := o } = false := by
        rw [Ext.isInline, decide_eq_false_iff_not]
        exact hb.ne
      refine ⟨hfits.key, by simp [COMPACT], fun x hx => ?_, ?_, fun hc => ?_⟩
      · rw [List.mem_singleton.mp hx]
        exact ⟨hb.trans (by norm_num [Ext.INLINE]), ho, hwords.len, hwords.last, hwords.count⟩
      · simp [tailSpan, hout]
      · simp [compacts, hout] at hc

/-- A record is as long as the planner counts it. -/
lemma RecOf.length (h : RecOf inlineMax blocks e f) (hfits : e.Fits) (compact : Bool) :
    (recordBytes f.key f.exts f.tail compact).length =
      segmentRecordLen e.key.length (lengthsOf e).2 (goesInline inlineMax (lengthsOf e).2)
        compact := by
  have hrun : (lengthsOf e).2 = (runOf e.values).length := runLen_eq e.values
  rw [length_recordBytes, hrun]
  cases h with
  | inRecord h =>
      have hlen := @recordLenOf_inline e.key (runOf e.values) (lastOf e.values)
        (countWord e.values.length (fixedOf e.values) e.tomb) compact hfits.run
      rw [Nat.mod_eq_of_lt hfits.run] at hlen
      rw [show goesInline inlineMax (runOf e.values).length = true from h]
      exact hlen
  | inBlock b o h hb ho hat =>
      have hno : goesInline inlineMax (runOf e.values).length = false := by
        simpa [inlines, goesInline] using h
      rw [hno]
      exact recordLenOf_block _ (decide_eq_false hb.ne)

/-- Records of entries within their limits take the bytes the planner counts. -/
lemma length_recordsOf (h : List.Forall₂ (RecOf inlineMax blocks) entries recs)
    (hfits : ∀ e ∈ entries, e.Fits) (compact : Bool) :
    (recordsOf compact recs).length = recordBytesOf inlineMax compact (entries.map lengthsOf) := by
  induction h with
  | nil => rfl
  | cons hf _ ih =>
      rw [recordsOf_cons, List.length_append, hf.length (hfits _ (List.mem_cons_self ..)),
        ih (fun e he => hfits e (List.mem_cons_of_mem _ he))]
      rfl

lemma recordsOf_snoc (compact : Bool) (recs : List FlatEntry) (f : FlatEntry) :
    recordsOf compact (recs ++ [f]) =
      recordsOf compact recs ++ recordBytes f.key f.exts f.tail compact := by
  rw [recordsOf_append, recordsOf_cons]
  exact congrArg _ (List.append_nil _)

lemma recOffsOf_snoc (compact : Bool) (recs : List FlatEntry) (f : FlatEntry) :
    recOffsOf compact (recs ++ [f]) = recOffsOf compact recs ++
    [(recordsOf compact recs).length] := by
  rw [recOffsOf, List.length_append, List.length_singleton, List.range_succ, List.map_append,
    List.map_singleton, List.take_left, recOffsOf]
  congr 1
  refine List.map_congr_left (fun i hi => ?_)
  rw [List.take_append_of_le_length (List.mem_range.mp hi).le]

/-- A flush leaves the records alone. -/
lemma Recorded.framed (h : Recorded opts recs w) (hmode : w.mode = some (layoutOf opts))
    (hf : Reserve.Framed w w') : Recorded opts recs w' :=
  { reserveOff := hf.reserveOff.trans h.reserveOff, openKey := hf.openKey.trans h.openKey
    raw := hf.raw.trans h.raw, lens := hf.lens.trans h.lens, batch := hf.batchBuf.trans h.batch
    keys := hf.keys.trans h.keys
    first := fun hpos => by
      obtain ⟨hlen, hoffs, hout⟩ := h.first hpos
      have hheld := hf.held (hmode.trans (by simp [layoutOf, hpos]))
      exact ⟨hf.recsLen.trans hlen, hf.recOffs.trans hoffs, hheld.2.trans hout⟩
    last := fun h0 => by
      rw [hf.exts, hf.tails]
      exact h.last h0 }

/-- What taking a record in leaves alone. -/
structure SameBlocks (opts : WriterOptions) (w w' : SegmentWriter) : Prop where
  settings : w'.opts = w.opts
  mode : w'.mode = w.mode
  builder : w'.builder = w.builder
  blocks : w'.blocks = w.blocks
  chunkRows : w'.chunkRows = w.chunkRows
  pending : w'.pendingBlocks = w.pendingBlocks
  written : w.pos = w.out.length → w'.pos = w'.out.length
  laid : opts.inlineMax = 0 → w'.out = w.out

lemma Blocked.same (h : Blocked opts n closed w) (hs : SameBlocks opts w w') :
    Blocked opts n closed w' :=
  { settings := hs.settings.trans h.settings, mode := hs.mode.trans h.mode
    builder := by rw [hs.builder]; exact h.builder
    whole := h.whole, few := by rw [hs.builder]; exact h.few
    rows := hs.chunkRows.trans h.rows, written := hs.written h.written
    held := by rw [hs.pending, hs.blocks]; exact h.held
    laid := fun h0 => by rw [hs.laid h0, hs.blocks]; exact h.laid h0 }

/-- A record streamed behind the others. -/
lemma Recorded.streamRecord (h : Recorded opts recs w) (hplain : opts.Plain)
    (hsettings : w.opts = clamped opts) (hpos : 0 < opts.inlineMax) {key tail : Bytes} {ext : Ext}
    (hkey : key.length ≤ 65535)
    (hroom : (recordsOf opts.compactRecords (recs ++ [⟨key, [ext], tail⟩])).length ≤ MAX_RECS) :
    ∃ w', w.streamRecord key ext tail = .ok w' ∧
      Recorded opts (recs ++ [⟨key, [ext], tail⟩]) w' ∧ SameBlocks opts w w' := by
  obtain ⟨hlen, hoffs, hout⟩ := h.first hpos
  have hcompact : w.opts.compactRecords = opts.compactRecords := by rw [hsettings]; rfl
  have hmarks : w.opts.marks = false := by rw [hsettings]; exact hplain.marks
  have hbytes := length_recordBytes key [ext] tail opts.compactRecords
  have hfor : recordLenFor key.length [ext] tail.length opts.compactRecords =
      some (recordBytes key [ext] tail opts.compactRecords).length := by
    rw [hbytes]
    exact if_neg (by
      rintro (h | h)
      · omega
      · exact absurd h (by show ¬ COMPACT ≤ 1; decide))
  rw [recordsOf_snoc, List.length_append, ← hlen] at hroom
  dsimp only at hroom
  have hfull :
    ¬ MAX_RECS < w.recsLen + (recordBytes key [ext] tail opts.compactRecords).length := by
    omega
  have hoff : w.recsLen % 2 ^ 32 = w.recsLen := by
    refine Nat.mod_eq_of_lt ?_
    have : MAX_RECS < 2 ^ 32 := by decide
    omega
  rw [SegmentWriter.streamRecord, streamRecordAs, hcompact, hfor]
  simp only [Option.map_some, List.nil_append, hmarks, Bool.false_eq_true, if_false, if_neg hfull,
    hoff]
  refine ⟨_, rfl, ?_, ?_⟩
  · exact
      { reserveOff := h.reserveOff, openKey := h.openKey, raw := h.raw, lens := h.lens
        batch := h.batch
        keys := by simp [h.keys]
        first := fun _ => ⟨by simp only [recordsOf_snoc, hlen, List.length_append],
          by simp only [recOffsOf_snoc, hoffs, hlen],
          by simp only [recordsOf_snoc, hout, List.append_assoc]⟩
        last := fun h0 => by omega }
  · exact
      { settings := rfl, mode := rfl, builder := rfl, blocks := rfl, chunkRows := rfl, pending := rfl
        written := fun hw => by simp [hw]
        laid := fun h0 => by omega }

/-- A record taken in, in either layout. -/
lemma Recorded.addRecord (h : Recorded opts recs w) (hplain : opts.Plain)
    (hsettings : w.opts = clamped opts) {key tail : Bytes} {ext : Ext} (hkey : key.length ≤ 65535)
    (hroom : (recordsOf opts.compactRecords (recs ++ [⟨key, [ext], tail⟩])).length ≤ MAX_RECS) :
    ∃ w', w.addRecord (layoutOf opts) key ext tail = .ok w' ∧
      Recorded opts (recs ++ [⟨key, [ext], tail⟩]) w' ∧ SameBlocks opts w w' := by
  rcases Nat.eq_zero_or_pos opts.inlineMax with h0 | hpos
  · obtain ⟨hexts, htails⟩ := h.last h0
    rw [layoutOf, if_neg (by omega)]
    refine ⟨_, rfl, ?_, ?_⟩
    · exact
        { reserveOff := h.reserveOff, openKey := h.openKey, raw := h.raw, lens := h.lens
          batch := h.batch
          keys := by simp [h.keys]
          first := fun hpos => by omega
          last := fun _ => ⟨by simp [hexts], by simp [htails]⟩ }
    · exact
        { settings := rfl, mode := rfl, builder := rfl, blocks := rfl, chunkRows := rfl, pending := rfl
          written := id, laid := fun _ => rfl }
  · rw [layoutOf, if_pos hpos]
    exact h.streamRecord hplain hsettings hpos hkey hroom

end Records

/-! ## Entries taken -/

/-- A writer that has taken `entries`: `closed` are the blocks it has closed, `recs` its records. -/
structure SegmentTaken (opts : WriterOptions) (entries : List Entry) (closed : List Bytes)
    (recs : List FlatEntry) (w : SegmentWriter) : Prop where
  blocked : Blocked opts entries.length closed w
  recorded : Recorded opts recs w
  below : w.builder.length < max opts.blockSize 1
  fits : ∀ e ∈ entries, e.Fits
  recOf : List.Forall₂ (RecOf opts.inlineMax (closed ++ [w.builder])) entries recs

section SegmentTaken

variable {opts : WriterOptions} {closed : List Bytes} {recs : List FlatEntry}
  {entries : List Entry} {w w' : SegmentWriter} {lz : Lz4} {e : Entry}

lemma SegmentTaken.keys (h : SegmentTaken opts entries closed recs w) :
    w.keys = entries.map Entry.key := by
  rw [h.recorded.keys, map_key_recOf h.recOf]

/-- A writer before its first key, laid out. -/
lemma taken_create (hplain : opts.Plain) : SegmentTaken opts [] [] [] (create opts).layout.1 := by
  have hcond : ¬ (0 < (create opts).opts.headReserve ∧ (create opts).reserveOff = 0) := by
    rintro ⟨hpos, -⟩
    exact hpos.ne' hplain.headReserve
  have hmode : (create opts).mode = none := rfl
  have hpos : 0 < max opts.blockSize 1 := lt_of_lt_of_le Nat.one_pos (le_max_right _ _)
  rcases Nat.eq_zero_or_pos opts.inlineMax with h0 | hin
  · have hno : ¬ 0 < (create opts).opts.inlineMax := fun h => h.ne' h0
    have hlay : (create opts).layout.1 = { create opts with mode := some .blocksFirst } := by
      simp only [layout, hmode, if_neg hno, if_neg hcond]
      rfl
    rw [hlay]
    refine ⟨⟨rfl, by simp [layoutOf, h0], by simp [create], by simp, by simp [create], rfl,
      by simp [create], fun h => by omega, fun _ => ⟨by simp [create], rfl⟩⟩,
      ⟨rfl, rfl, rfl, rfl, rfl, rfl, fun h => by omega, fun _ => ⟨rfl, rfl⟩⟩, hpos, by simp, .nil⟩
  · have hyes : 0 < (create opts).opts.inlineMax := hin
    have hlay : (create opts).layout.1 = { create opts with
        mode := some .recordsFirst, out := (create opts).out ++ List.replicate HEADER 0
        pos := SUPER + HEADER } := by
      simp only [layout, hmode, if_pos hyes, if_neg hcond, if_true]
      rfl
    rw [hlay]
    refine ⟨⟨rfl, by simp [layoutOf, hin], by simp [create], by simp, by simp [create], rfl,
      by simp [create], fun _ => ⟨rfl, .nil⟩, fun h => by omega⟩,
      ⟨rfl, rfl, rfl, rfl, rfl, rfl, fun _ => ⟨rfl, rfl, ?_⟩, fun h => by omega⟩, hpos, by simp,
      .nil⟩
    simp [create, recordsOf]

/-- The records so far take no more than all of them. -/
lemma recordBytesOf_le_append (inlineMax : ℕ) (compact : Bool) (keys keys' : List (ℕ × ℕ)) :
    recordBytesOf inlineMax compact keys ≤ recordBytesOf inlineMax compact (keys ++ keys') := by
  simp only [recordBytesOf, List.map_append, List.sum_append]
  exact Nat.le_add_right _ _

/-- There are fewer entries than a table counts blocks. -/
lemma length_lt_of_room (entries : List Entry)
    (hroom : recordBytesOf opts.inlineMax opts.compactRecords (entries.map lengthsOf) ≤ MAX_RECS) :
    entries.length < Ext.INLINE := by
  obtain ⟨-, h8⟩ := recordBytesOf_spec opts.inlineMax opts.compactRecords (entries.map lengthsOf)
  rw [List.length_map] at h8
  have hI : Ext.INLINE = 2 ^ 32 - 1 := rfl
  simp only [MAX_RECS] at hroom
  omega

/-- A key behind the last one passes the writer's checks. -/
lemma SegmentTaken.checkKey (h : SegmentTaken opts entries closed recs w)
    (hkey : e.key.length ≤ 65535)
    (hsorted : ((entries ++ [e]).map Entry.key).Pairwise (· < ·)) : w.checkKey e.key = .ok () := by
  have hany : ¬ w.keys.getLast?.any (fun l => decide (e.key ≤ l)) = true := by
    rw [h.keys]
    cases hl : (entries.map Entry.key).getLast? with
    | none => exact Bool.false_ne_true
    | some l =>
        rw [List.map_append, List.pairwise_append] at hsorted
        have hlt := hsorted.2.2 l (List.mem_of_getLast? hl) e.key (by simp)
        simpa using hlt
  rw [SegmentWriter.checkKey, h.recorded.openKey, if_neg (by simp), if_neg (by omega), if_neg hany]

/-- The records with one more are within the section's. -/
lemma SegmentTaken.room (h : SegmentTaken opts entries closed recs w) {blocks : List Bytes}
    {f : FlatEntry} (hrecs : List.Forall₂ (RecOf opts.inlineMax blocks) entries recs)
    (hfits : e.Fits) (hf : RecOf opts.inlineMax blocks e f)
    (hroom : recordBytesOf opts.inlineMax opts.compactRecords ((entries ++ [e]).map lengthsOf) ≤
      MAX_RECS) :
    (recordsOf opts.compactRecords (recs ++ [f])).length ≤ MAX_RECS := by
  rw [length_recordsOf (List.rel_append hrecs (.cons hf .nil)) (fun x hx => ?_)]
  · exact hroom
  · rcases List.mem_append.mp hx with hx | hx
    · exact h.fits x hx
    · rw [List.mem_singleton.mp hx]
      exact hfits

/-- A record taken in for an entry. -/
lemma SegmentTaken.snoc (h : SegmentTaken opts entries closed recs w) {closed' : List Bytes}
    {w₁ : SegmentWriter} {f : FlatEntry} (hfits : e.Fits)
    (hb : Blocked opts (entries.length + 1) closed' w₁)
    (hbelow : w₁.builder.length < max opts.blockSize 1)
    (hext : Extends (closed ++ [w.builder]) (closed' ++ [w₁.builder]))
    (hf : RecOf opts.inlineMax (closed' ++ [w₁.builder]) e f) (hr : Recorded opts (recs ++ [f]) w')
    (hs : SameBlocks opts w₁ w') : SegmentTaken opts (entries ++ [e]) closed' (recs ++ [f]) w' := by
  refine ⟨?_, hr, by rw [hs.builder]; exact hbelow, fun x hx => ?_, ?_⟩
  · rw [List.length_append, List.length_singleton]
    exact hb.same hs
  · rcases List.mem_append.mp hx with hx | hx
    · exact h.fits x hx
    · rw [List.mem_singleton.mp hx]
      exact hfits
  · rw [hs.builder]
    exact List.rel_append (h.recOf.imp (fun _ _ hr => hr.mono hext)) (.cons hf .nil)

lemma Blocked.more {n : ℕ} (h : Blocked opts n closed w) : Blocked opts (n + 1) closed w :=
  { h with few := h.few.trans (Nat.le_succ n) }

/-- **A key's run and record are taken in.** -/
lemma SegmentTaken.addRun (lz : Lz4) (hplain : opts.Plain)
    (h : SegmentTaken opts entries closed recs w) (hfits : e.Fits)
    (hroom : recordBytesOf opts.inlineMax opts.compactRecords ((entries ++ [e]).map lengthsOf) ≤
      MAX_RECS) :
    ∃ w' closed' recs', w.addRun lz e.key (runOf e.values) (lastOf e.values)
        (countWord e.values.length (fixedOf e.values) e.tomb) = .ok w' ∧
      SegmentTaken opts (entries ++ [e]) closed' recs' w' := by
  have hmax : w.opts.inlineMax = opts.inlineMax := by rw [h.blocked.settings]; rfl
  rw [SegmentWriter.addRun, layout_of_mode h.blocked.mode]
  dsimp only
  rw [hmax]
  split_ifs with hin
  · have hf : RecOf opts.inlineMax (closed ++ [w.builder]) e _ := .inRecord hin
    obtain ⟨w', hok, hr, hs⟩ := h.recorded.addRecord hplain h.blocked.settings hfits.key
      (h.room h.recOf hfits hf hroom)
    refine ⟨w', closed, _, ?_,
      h.snoc hfits h.blocked.more h.below (Extends.refl _) hf hr hs⟩
    rw [Nat.mod_eq_of_lt hfits.run]
    exact hok
  · have hn : entries.length < Ext.INLINE := by
      have := length_lt_of_room (entries ++ [e]) hroom
      rw [List.length_append] at this
      omega
    obtain ⟨closed', b, o, hb, hplace, hbI, ho, hbelow, hext, hframed, hat⟩ :=
      h.blocked.placeRun lz hplain hfits.run hn (lastOf e.values)
        (countWord e.values.length (fixedOf e.values) e.tomb)
    have hf : RecOf opts.inlineMax (closed' ++ [_]) e _ := .inBlock b o hin hbI ho hat
    obtain ⟨w', hok, hr, hs⟩ := (h.recorded.framed h.blocked.mode hframed).addRecord hplain
      hb.settings hfits.key (h.room (h.recOf.imp (fun _ _ hr => hr.mono hext)) hfits hf hroom)
    rw [hplace]
    exact ⟨w', closed', _, hok, h.snoc hfits hb hbelow hext hf hr hs⟩

/-- What a key's staging holds is no concern of what has been taken. -/
lemma SegmentTaken.staged (h : SegmentTaken opts entries closed recs w) (records payload : ℕ) :
    SegmentTaken opts entries closed recs { w with
      openKey := none, raw := [], lens := [], records := records, payload := payload } :=
  { blocked := { h.blocked with }
    recorded := { h.recorded with openKey := rfl, raw := rfl, lens := rfl }
    below := h.below, fits := h.fits, recOf := h.recOf }

/-- The checks a key has to pass do not look at the layout. -/
lemma checkKey_layout (w : SegmentWriter) (key : Bytes) :
    w.layout.1.checkKey key = w.checkKey key := by
  obtain ⟨-, -, hopen, -, hkeys⟩ := layout_spec w
  rw [SegmentWriter.checkKey, SegmentWriter.checkKey, hopen, hkeys]

/-- **An entry is taken** behind the others, within its limits and the section's. -/
lemma SegmentTaken.addEntry (lz : Lz4) (hplain : opts.Plain)
    (h : SegmentTaken opts entries closed recs w.layout.1) (hfits : e.Fits)
    (hsorted : ((entries ++ [e]).map Entry.key).Pairwise (· < ·))
    (hroom : recordBytesOf opts.inlineMax opts.compactRecords ((entries ++ [e]).map lengthsOf) ≤
      MAX_RECS) :
    ∃ w' closed' recs', addEntry lz w e = .ok w' ∧
      SegmentTaken opts (entries ++ [e]) closed' recs' w'.layout.1 := by
  have hcheck := h.checkKey hfits.key hsorted
  rw [checkKey_layout] at hcheck
  have hrun : (lengthsOf e).2 < 2 ^ 32 := by
    rw [lengthsOf, runLen_eq]
    exact hfits.run
  have hcount : e.values.length % 2 ^ 32 = e.values.length :=
    Nat.mod_eq_of_lt (hfits.count.trans (by norm_num))
  have hclose := closeRun_eq e.values e.tomb
  rw [hcount, if_pos hfits.run, if_pos hfits.count] at hclose
  obtain ⟨w', closed', recs', hok, htaken⟩ := (h.staged e.values.length (w.layout.1.payload +
    (e.key.length * e.values.length + e.values.flatten.length +
      if e.tomb then e.key.length + 16 else 0))).addRun lz hplain hfits hroom
  refine ⟨w', closed', recs', ?_, by rw [layout_of_mode htaken.blocked.mode]; exact htaken⟩
  rw [SegmentWriter.addEntry, SegmentWriter.begin, hcheck]
  simp only [bind, Except.bind]
  rw [foldl_value_of_run _ hrun, endWith_eq]
  simp only [h.recorded.raw, h.recorded.lens, List.nil_append, hclose, bind, Except.bind]
  exact hok

/-- **`put_one` takes an entry of one value.** -/
lemma SegmentTaken.putOne (lz : Lz4) (hplain : opts.Plain)
    (h : SegmentTaken opts entries closed recs w.layout.1) {key value : Bytes}
    (hfits : Entry.Fits ⟨key, [value], false⟩)
    (hsorted : ((entries ++ [(⟨key, [value], false⟩ : Entry)]).map Entry.key).Pairwise (· < ·))
    (hroom : recordBytesOf opts.inlineMax opts.compactRecords
      ((entries ++ [(⟨key, [value], false⟩ : Entry)]).map lengthsOf) ≤ MAX_RECS) :
    ∃ w' closed' recs', w.putOne lz key value = .ok w' ∧
      SegmentTaken opts (entries ++ [⟨key, [value], false⟩]) closed' recs' w'.layout.1 := by
  rw [SegmentWriter.putOne]
  split_ifs with hslow
  · -- the value is empty, or goes into a block: the three calls
    exact h.addEntry lz hplain hfits hsorted hroom
  · obtain ⟨hne, hin⟩ := not_or.mp hslow
    have hmax : w.opts.inlineMax = opts.inlineMax := by
      rw [← (layout_spec w).2.2.2.1, h.blocked.settings]
      rfl
    rw [hmax, not_not] at hin
    have hrun : runOf [value] = value := runOf_singleton_of_ne hne
    have hpos : 0 < opts.inlineMax := by
      rw [inlines, decide_eq_true_iff] at hin
      exact hin.1
    have hcheck := h.checkKey hfits.key hsorted
    rw [checkKey_layout] at hcheck
    have hlayout : w.layout.2 = .recordsFirst := by
      have hmode := (layout_spec w).2.1.symm.trans h.blocked.mode
      rw [layoutOf, if_pos hpos] at hmode
      exact Option.some.inj hmode
    have hfixed : fixedOf [value] = true := by
      rw [fixedOf_singleton]
      simpa using List.length_pos_iff.mpr hne
    have hext := inlineExt_singleton hfits.run
    rw [hrun, hfixed] at hext
    have hf : RecOf opts.inlineMax (closed ++ [w.layout.1.builder]) ⟨key, [value], false⟩
        ⟨key, [inlineExt [value] false], runOf [value]⟩ := .inRecord (by rw [hrun]; exact hin)
    set w₁ := w.layout.1.countBytes (key.length + value.length) with hw₁
    have h₁ : SegmentTaken opts entries closed recs w₁ :=
      { blocked := { h.blocked with }, recorded := { h.recorded with }, below := h.below
        fits := h.fits, recOf := h.recOf }
    obtain ⟨w', hok, hr, hs⟩ := h₁.recorded.streamRecord hplain h₁.blocked.settings hpos hfits.key
      (h₁.room h₁.recOf hfits hf hroom)
    have htaken := h₁.snoc hfits h₁.blocked.more h₁.below (Extends.refl _) hf hr hs
    refine ⟨w', closed, _, ?_, by rw [layout_of_mode htaken.blocked.mode]; exact htaken⟩
    simp only [bind, Except.bind, hcheck, hlayout, ne_eq, not_true_eq_false, if_false]
    rw [hext, ← hw₁]
    rw [hrun] at hok
    exact hok

end SegmentTaken

end Supdb
