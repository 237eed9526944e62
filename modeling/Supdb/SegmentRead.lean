import Supdb.Blob
import Supdb.PieceWrite

/-!
# A segment read back

A `SegmentFile` is a file that holds a segment: its superblock names a key section of some records
and a table of some blocks, and both lie where it says.  Which of the two layouts the file has makes
no difference to a reader, so neither does it here.

* `SegmentFile.openWith` – **the open succeeds**, whatever the reader checks and wherever the file
  is mapped.
* `SegmentFile.withExtent` – the bytes of a run that lies in a block, checked against the block's
  chunk checksums where it has them.
* `SegmentFile.readExts` – **the values of an entry**, off its record.

A reader that checks blocks reads a segment written without checksums only where no run lies in one,
so its switch is taken to be on only where the writer's was.
-/

namespace Supdb

open StorageLib Flatindex Run

/-! ## Blocks laid one behind the other -/

section Laid

variable {checksums : Bool} {blocks : List Bytes} {block : Bytes} {row : List (BitVec 32)}

lemma getElem?_locsFrom (pos : ℕ) (blocks : List Bytes) (i : ℕ) :
    (locsFrom checksums pos blocks)[i]? =
      blocks[i]?.map (plainLoc checksums (pos + (blocks.take i).flatten.length)) := by
  induction blocks generalizing pos i with
  | nil => rfl
  | cons b bs ih =>
      cases i with
      | zero => rfl
      | succ i =>
          rw [locsFrom, List.getElem?_cons_succ, List.getElem?_cons_succ, ih, List.take_succ_cons,
            List.flatten_cons, List.length_append, Nat.add_assoc]

/-- The words of the table's entries. -/
lemma fits_locsFrom {pos : ℕ} (hwhole : ∀ b ∈ blocks, b ≠ [] ∧ b.length < 2 ^ 32)
    (hsmall : pos + blocks.flatten.length < 2 ^ 64) :
    ∀ loc ∈ locsFrom checksums pos blocks, loc.Fits := by
  induction blocks generalizing pos with
  | nil => simp [locsFrom]
  | cons b bs ih =>
      intro loc hloc
      rw [List.flatten_cons, List.length_append] at hsmall
      rcases List.mem_cons.mp hloc with rfl | hloc
      · have hb := (hwhole b (List.mem_cons_self ..)).2
        exact ⟨by show pos < _; omega, hb, hb, hb⟩
      · exact ih (fun x hx => hwhole x (List.mem_cons_of_mem _ hx)) (by omega) loc hloc

/-- A chunk's checksum in its block's row. -/
lemma chunkCrcs_getElem? (h : chunkCrcs block = some row) {j : ℕ} (hj : j * CHUNK < block.length) :
    row[j]? = some (crc32 (chunkAt CHUNK block j)) ∧ j < MAX_CHUNK_CRCS := by
  have hin : j < divCeil block.length CHUNK := by
    simp only [divCeil, CHUNK] at hj ⊢
    omega
  rw [chunkCrcs] at h
  split_ifs at h with hn
  rw [not_or, not_lt] at hn
  rw [← Option.some.inj h, List.getElem?_append_left (by simpa using hin), List.getElem?_map,
    List.getElem?_range hin]
  exact ⟨rfl, lt_of_lt_of_le hin hn.2⟩

/-- What a read of an extent fetches of its block: all of it without a row of chunk checksums, else
the chunks the extent touches. -/
lemma chunkSpan_plainLoc (off : ℕ) {e : Ext} (hlen : 0 < e.len)
    (hin : e.off + e.len ≤ block.length) :
    ∃ c0 c1, Blob.chunkSpan (plainLoc checksums off block) e = (c0, c1) ∧ c0 ≤ e.off ∧
      e.off + e.len ≤ c1 ∧ c1 ≤ block.length ∧
      (rowOf checksums block = none ∧ c0 = 0 ∧ c1 = block.length ∨
        ∃ row, rowOf checksums block = some row ∧ c0 = e.off / CHUNK * CHUNK ∧
          (c1 = block.length ∨ CHUNK ∣ c1)) := by
  have hplain : (plainLoc checksums off block).isPlain = true := decide_eq_true rfl
  cases hrow : rowOf checksums block with
  | none =>
      refine ⟨0, block.length, ?_, Nat.zero_le _, hin, le_refl _, Or.inl ⟨rfl, rfl, rfl⟩⟩
      rw [Blob.chunkSpan, if_pos (Or.inr (by simp [plainLoc, hrow]))]
      rfl
  | some row =>
      have hsums : (plainLoc checksums off block).chunkCrc = true := by simp [plainLoc, hrow]
      have hlo : e.off / CHUNK * CHUNK ≤ e.off := Nat.div_mul_le_self _ _
      have hhi : e.off + e.len ≤ divCeil (e.off + e.len) CHUNK * CHUNK := by
        simp only [divCeil, CHUNK]
        omega
      have hstored : (plainLoc checksums off block).stored = block.length := rfl
      refine ⟨e.off / CHUNK * CHUNK, min (divCeil (e.off + e.len) CHUNK * CHUNK) block.length, ?_,
        hlo, le_min hhi hin, min_le_right _ _, Or.inr ⟨row, rfl, rfl, ?_⟩⟩
      · have hmin : min (e.off / CHUNK * CHUNK) block.length = e.off / CHUNK * CHUNK :=
          min_eq_left (by omega)
        have hmax : max (min (divCeil (e.off + e.len) CHUNK * CHUNK) block.length)
            (e.off / CHUNK * CHUNK) = min (divCeil (e.off + e.len) CHUNK * CHUNK) block.length :=
          max_eq_left (le_min (by omega) (by omega))
        rw [Blob.chunkSpan, if_neg (by simp [hplain, hsums])]
        simp only [hstored, hmin, hmax]
      · rcases min_choice (divCeil (e.off + e.len) CHUNK * CHUNK) block.length with h | h
        · rw [h]
          exact Or.inr (Dvd.intro_left _ rfl)
        · exact Or.inl h

end Laid

/-- What a record's extents say of its entry. -/
lemma RecOf.counts {inlineMax : ℕ} {blocks : List Bytes} {e : Entry} {x : FlatEntry}
    (hx : RecOf inlineMax blocks e x) (hfits : e.Fits) :
    (x.exts.map Ext.records).sum = e.values.length ∧ x.exts.any Ext.isTombstone = e.tomb := by
  cases hx with
  | inRecord _ =>
      simp [Ext.records_countWord (e := inlineExt e.values e.tomb) _ _ hfits.count rfl,
        Ext.isTombstone_countWord (e := inlineExt e.values e.tomb) _ _ hfits.count rfl]
  | inBlock b o _ _ _ _ =>
      simp [Ext.records_countWord (e := { inlineExt e.values e.tomb with block := b, off := o })
          _ _ hfits.count rfl,
        Ext.isTombstone_countWord (e := { inlineExt e.values e.tomb with block := b, off := o })
          _ _ hfits.count rfl]

/-! ## A segment's file -/

/-- What a key section of `recs`, `keyOff` bytes into its file, gives a reader: its index, a row
that matches, and through the index its entries. -/
structure SectionReads (key : Bytes) (keyOff : ℕ) (recs : List FlatEntry) (idx : FlatIndex) :
    Prop where
  parses : FlatIndex.parse key = some idx
  verifies : verifyPieces key idx.crcOff idx.pieceShift keyOff = .ok ()
  view : ∀ {base : ℕ}, 4 ∣ base → Nonempty (FlatView base idx key recs fnv64)

/-- A file that holds a segment of `recs` and `blocks`, and what an open finds in it. -/
structure SegmentFile (checksums : Bool) (blocks : List Bytes) (recs : List FlatEntry)
    (file : Bytes) where
  sb : Super
  key : Bytes
  idx : FlatIndex
  /-- Where the first block lies. -/
  blocksOff : ℕ
  head : openHead file = ok sb
  keyAt : getRange file sb.keyOff (sb.keyOff + sb.keyStored) = some key
  reads : SectionReads key sb.keyOff recs idx
  keyAligned : 4 ∣ sb.keyOff
  tableAt : getRange file sb.blkOff (sb.blkOff + sb.blkStored) =
    some (encodeBlocks (locsFrom checksums blocksOff blocks) (blocks.map (plainRow checksums)))
  tableAligned : 8 ∣ sb.blkOff
  blocksAt : HasAt file blocksOff blocks.flatten
  whole : ∀ b ∈ blocks, b ≠ [] ∧ b.length < 2 ^ 32
  few : blocks.length < 2 ^ 32
  small : blocksOff + blocks.flatten.length < 2 ^ 64

namespace SegmentFile

variable {checksums : Bool} {blocks : List Bytes} {recs : List FlatEntry} {file : Bytes}

/-- The file opened. -/
def blob (f : SegmentFile checksums blocks recs file) (checksumsOn : Bool) (opts : BlobOptions)
    (addr : ℕ) : Blob :=
  { file := file, addr := addr, keyOff := f.sb.keyOff, key := f.key, idx := f.idx
    blkOff := f.sb.blkOff
    blk := encodeBlocks (locsFrom checksums f.blocksOff blocks) (blocks.map (plainRow checksums))
    blocks := ⟨blocks.length⟩, checksumsOn := checksumsOn, opts := opts }

/-- **The open succeeds.** -/
lemma openWith (f : SegmentFile checksums blocks recs file) (checksumsOn : Bool)
    (opts : BlobOptions) {addr : ℕ} (haddr : 8 ∣ addr) :
    Blob.openWith checksumsOn opts addr file = ok (f.blob checksumsOn opts addr) := by
  have hparse := @parse_encodeBlocks _ (blocks.map (plainRow checksums)) _
    (dvd_add haddr f.tableAligned) (by
      rw [length_locsFrom]
      exact f.few : (locsFrom checksums f.blocksOff blocks).length < 2 ^ 32)
  rw [length_locsFrom] at hparse
  have hcheck : (if f.idx.crcOff ≠ 0 ∧ opts.verifyIndex then
      verifyPieces f.key f.idx.crcOff f.idx.pieceShift f.sb.keyOff else .ok ()) = .ok () := by
    rw [f.reads.verifies, ite_self]
  rw [Blob.openWith, f.head, ok_bind, takeBytes, f.keyAt]
  dsimp only
  rw [ok_bind, takeBytes, f.tableAt]
  dsimp only
  rw [ok_bind, f.reads.parses]
  dsimp only
  rw [hcheck, hparse]
  rfl

/-! ## Blocks -/

/-- Where a block lies. -/
def offOf (f : SegmentFile checksums blocks recs file) (i : ℕ) : ℕ :=
  f.blocksOff + (blocks.take i).flatten.length

section Block

variable {i : ℕ} {block : Bytes} {checksumsOn : Bool} {opts : BlobOptions} {addr : ℕ}

/-- A block's bytes. -/
lemma blockAt (f : SegmentFile checksums blocks recs file) (hi : blocks[i]? = some block) :
    getRange file (f.offOf i) (f.offOf i + block.length) = some block := by
  obtain ⟨hlt, hget⟩ := List.getElem?_eq_some_iff.mp hi
  have hne := (f.whole block (List.mem_of_getElem? hi)).1
  have hsplit : blocks.flatten = (blocks.take i).flatten ++ (block ++
      (blocks.drop (i + 1)).flatten) := by
    conv_lhs => rw [← List.take_append_drop i blocks, List.drop_eq_getElem_cons hlt, hget]
    rw [List.flatten_append, List.flatten_cons]
  have hat := f.blocksAt
  rw [hsplit, hasAt_append, hasAt_append] at hat
  exact getRange_eq_some.mpr ⟨Nat.le_add_right _ _, hat.2.1.le hne, hat.2.1⟩

/-- The table's entry of a block. -/
lemma locOf (f : SegmentFile checksums blocks recs file) (haddr : 8 ∣ addr)
    (hi : blocks[i]? = some block) :
    (f.blob checksumsOn opts addr).locOf i = ok (plainLoc checksums (f.offOf i) block) := by
  have hlen := @length_locsFrom checksums f.blocksOff blocks
  obtain ⟨hlt, -⟩ := List.getElem?_eq_some_iff.mp hi
  have hget := @get_encodeBlocks _ (blocks.map (plainRow checksums)) _ i
    (dvd_add haddr f.tableAligned) (fits_locsFrom f.whole f.small)
    (by rw [hlen]; exact hlt)
  have hloc := @getElem?_locsFrom checksums f.blocksOff blocks i
  rw [hi, Option.map_some, List.getElem?_eq_getElem (by rw [hlen]; exact hlt)] at hloc
  rw [Option.some.inj hloc, hlen] at hget
  rw [Blob.locOf]
  simp only [blob, hget]
  rfl

/-- The checksum of a block's chunk. -/
lemma chunkCrc (f : SegmentFile checksums blocks recs file) (hi : blocks[i]? = some block)
    {row : List (BitVec 32)} (hrow : rowOf checksums block = some row) {j : ℕ}
    (hj : j * CHUNK < block.length) :
    (⟨blocks.length⟩ : MappedBlocks).chunkCrc
        (encodeBlocks (locsFrom checksums f.blocksOff blocks) (blocks.map (plainRow checksums))) i j =
      some (crc32 (chunkAt CHUNK block j)).toNat := by
  have hlen := @length_locsFrom checksums f.blocksOff blocks
  obtain ⟨hlt, hget⟩ := List.getElem?_eq_some_iff.mp hi
  have hcrcs : chunkCrcs block = some row := by
    rw [rowOf] at hrow
    split_ifs at hrow
    exact hrow
  obtain ⟨hword, hfew⟩ := chunkCrcs_getElem? hcrcs hj
  have hread := @chunkCrc_encodeBlocks (locsFrom checksums f.blocksOff blocks)
    (blocks.map (plainRow checksums)) i j (fun r hr => by
      obtain ⟨b, -, rfl⟩ := List.mem_map.mp hr
      exact length_plainRow b) (by rw [List.length_map, hlen]) (by rw [List.length_map]; exact hlt)
    hfew
  rw [hlen] at hread
  rw [hread, List.getElem_map, hget, plainRow, hrow, Option.getD_some, hword, Option.map_some]

/-- Chunks of a block verified, a part of it from a chunk's start on being at hand. -/
lemma verifyChunks (f : SegmentFile checksums blocks recs file) (hi : blocks[i]? = some block)
    {row : List (BitVec 32)} (hrow : rowOf checksums block = some row) {loc : BlockLoc}
    {base stop : ℕ} (hle : stop ≤ block.length) (hbase : base ≤ stop)
    (hend : stop = block.length ∨ CHUNK ∣ stop) (n j : ℕ) (hj : base ≤ j * CHUNK)
    (hn : n = 0 ∨ (j + n - 1) * CHUNK < stop) :
    (f.blob checksumsOn opts addr).verifyChunks i loc (slice block base stop) base n j = ok () := by
  induction n generalizing j with
  | zero => rfl
  | succ n ih =>
      have hlast := hn.resolve_left (Nat.succ_ne_zero n)
      have hjn : j * CHUNK ≤ (j + (n + 1) - 1) * CHUNK := Nat.mul_le_mul_right _ (by omega)
      have hsucc : (j + 1) * CHUNK = j * CHUNK + CHUNK := Nat.succ_mul j CHUNK
      have hlen : (slice block base stop).length = stop - base := length_slice_of_le hle
      have hC : 0 < CHUNK := by decide
      -- the chunk ends where the part at hand lets it, which is where it ends in the block
      have hstop : min ((j + 1) * CHUNK) stop = min ((j + 1) * CHUNK) block.length := by
        rcases hend with rfl | ⟨m, rfl⟩
        · rfl
        · have hjm : j < m := by
            rw [mul_comm CHUNK m] at hlast
            exact lt_of_mul_lt_mul_right (lt_of_le_of_lt hjn hlast) (Nat.zero_le _)
          have hjm' : (j + 1) * CHUNK ≤ CHUNK * m := by
            rw [mul_comm CHUNK m]
            exact Nat.mul_le_mul_right _ hjm
          rw [min_eq_left hjm', min_eq_left (hjm'.trans hle)]
      have hcrc := f.chunkCrc hi hrow (j := j) (by omega)
      rw [Blob.verifyChunks]
      dsimp only [blob]
      rw [hcrc, hlen, Nat.add_sub_cancel' hbase]
      dsimp only
      rw [if_neg (by omega), slice_slice _ _ _ _ _ (by omega), Nat.add_sub_cancel' hj,
        Nat.add_sub_cancel' (by omega), hstop]
      rw [if_neg (by rw [chunkAt]; simp)]
      exact ih (j + 1) (by omega) (by
        rw [Nat.add_right_comm, Nat.add_assoc]
        exact Or.inr hlast)

/-- **The bytes of a run that lies in a block.** -/
lemma withExtent (lz : Lz4) (f : SegmentFile checksums blocks recs file) (haddr : 8 ∣ addr)
    (hon : checksumsOn = true → checksums = true) {e : Ext} {run : Bytes}
    (hi : blocks[e.block]? = some block) (hb : e.block < Ext.INLINE) (hlen : e.len = run.length)
    (hne : run ≠ []) (hat : HasAt block e.off run) :
    (f.blob checksumsOn opts addr).withExtent lz e = ok run := by
  have hlt : 0 < e.len := by rw [hlen]; exact List.length_pos_iff.mpr hne
  have hin : e.off + e.len ≤ block.length := by rw [hlen]; exact hat.le hne
  obtain ⟨c0, c1, hspan, hlo, hhi, hstop, hrow⟩ := @chunkSpan_plainLoc checksums _
    (f.offOf e.block) _ hlt hin
  have hraw : takeBytes file (f.offOf e.block + c0) (c1 - c0) = ok (slice block c0 c1) := by
    have hpart : getRange block c0 c1 = some (slice block c0 c1) :=
      getRange_eq_some.mpr ⟨by omega, hstop, rfl⟩
    have h := getRange_getRange (f.blockAt hi) hpart
    rw [takeBytes, Nat.add_assoc, Nat.add_sub_cancel' (by omega), h]
  have hrawLen : (slice block c0 c1).length = c1 - c0 := length_slice_of_le hstop
  have hout : e.isInline = false := decide_eq_false hb.ne
  have hplain : (plainLoc checksums (f.offOf e.block) block).isPlain = true := decide_eq_true rfl
  have hverify : (f.blob checksumsOn opts addr).verify e.block
      (plainLoc checksums (f.offOf e.block) block) (slice block c0 c1) c0 e.off (e.off + e.len) =
        ok () := by
    rw [Blob.verify]
    split_ifs with hoff hwhole
    · rfl
    · -- no row, so the block's own checksum is asked for
      have hon' : checksums = true := hon (by
        rw [not_or, not_not, not_not] at hoff
        exact hoff.2)
      rcases hrow with ⟨-, rfl, rfl⟩ | ⟨row, hrow, -, -⟩
      · rw [slice_zero_length, Blob.verifyWhole, if_neg (by simp [plainLoc]),
          if_neg (by simp [plainLoc, hon'])]
      · have hsums : (plainLoc checksums (f.offOf e.block) block).chunkCrc = true := by
          simp [plainLoc, hrow]
        rw [hrawLen] at hwhole
        simp only [hsums, not_true_eq_false, false_or] at hwhole
        omega
    · rcases hrow with ⟨hnone, -, -⟩ | ⟨row, hrow, hc0, hend⟩
      · exact absurd (Or.inl (by simp [plainLoc, hnone])) hwhole
      · refine f.verifyChunks hi hrow hstop (by omega) hend _ _ hc0.le ?_
        have hle : (e.off + e.len - 1) / CHUNK * CHUNK ≤ e.off + e.len - 1 :=
          Nat.div_mul_le_self _ _
        have hmono : e.off / CHUNK ≤ (e.off + e.len - 1) / CHUNK := Nat.div_le_div_right (by omega)
        refine Or.inr (lt_of_le_of_lt ?_ (by omega : e.off + e.len - 1 < c1))
        rw [Nat.add_sub_cancel' (hmono.trans (Nat.le_succ _)), Nat.succ_sub_one]
        exact hle
  rw [Blob.withExtent, if_neg (by simp [hout]), f.locOf haddr hi]
  simp only [ok_bind, hspan]
  rw [show (f.blob checksumsOn opts addr).file = file from rfl,
    show (plainLoc checksums (f.offOf e.block) block).off = f.offOf e.block from rfl, hraw]
  simp only [ok_bind]
  rw [if_pos hplain, if_neg (by rw [hrawLen]; omega), hverify]
  simp only [ok_bind]
  rw [slice_slice _ _ _ _ _ (by omega), Nat.add_sub_cancel' hlo, Nat.add_sub_cancel' (by omega),
    hlen]
  exact congrArg ok hat

end Block

/-! ## Entries -/

section Entries

variable {inlineMax : ℕ} {e : Entry} {x : FlatEntry} {checksumsOn : Bool} {opts : BlobOptions}
  {addr : ℕ}

/-- **The values of an entry**, off its record: the run lies in the record, or in a block and is not
empty. -/
lemma readExts (lz : Lz4) (f : SegmentFile checksums blocks recs file) (haddr : 8 ∣ addr)
    (hon : checksumsOn = true → checksums = true) (hx : RecOf inlineMax blocks e x)
    (hfits : e.Fits) (hrun : 0 < inlineMax ∨ runOf e.values ≠ []) :
    (f.blob checksumsOn opts addr).readExts lz x.tail x.exts = ok e.values := by
  have hvals : ∀ ext : Ext, ext.len = (runOf e.values).length →
      ext.count = countWord e.values.length (fixedOf e.values) e.tomb →
      eachValue (runOf e.values) ext = (e.values, .ok e.values.length) :=
    fun ext hlen hcount => eachValue_runOf hfits.count hfits.run hlen hcount
  cases hx with
  | inRecord hin =>
      have hinline : (inlineExt e.values e.tomb).isInline = true := decide_eq_true rfl
      have hget : getRange (runOf e.values) (inlineExt e.values e.tomb).off
          ((inlineExt e.values e.tomb).off + (inlineExt e.values e.tomb).len) =
            some (runOf e.values) := by
        refine getRange_eq_some.mpr ⟨Nat.zero_le _, ?_, ?_⟩
        · exact (Nat.zero_add _).le
        · simp [inlineExt]
      simp only [Blob.readExts, Blob.readExt, Blob.withRun, hinline, if_true, hget, ok_bind,
        hvals (inlineExt e.values e.tomb) rfl rfl,
        List.append_nil]
  | inBlock b o hin hb ho hat =>
      have hne : runOf e.values ≠ [] := by
        rcases hrun with hpos | hne
        · intro hnil
          rw [hnil] at hin
          exact hin (decide_eq_true ⟨hpos, Nat.zero_le _⟩)
        · exact hne
      obtain ⟨block, hblock, hat⟩ := hat hne
      have hout : Ext.isInline { inlineExt e.values e.tomb with block := b, off := o } = false :=
        decide_eq_false hb.ne
      have hread := @withExtent _ _ _ _ _ checksumsOn opts _ lz f haddr hon
        { inlineExt e.values e.tomb with block := b, off := o } _ hblock hb rfl hne hat
      simp only [Blob.readExts, Blob.readExt, Blob.withRun, hout, Bool.false_eq_true,
        if_false, hread, ok_bind,
        hvals { inlineExt e.values e.tomb with block := b, off := o } rfl rfl, List.append_nil]

end Entries

end SegmentFile

end Supdb
