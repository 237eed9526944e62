import Supdb.SegmentRead

/-!
# A piece finished

The finish of a piece's writer lays what is left of the segment down and then its head, and the file
it leaves is one that a reader opens: the key section with its row where the superblock says, the
blocks and their table where the section and the superblock say.

* `writeHead_plain` – the head of a file without a reserve, and what an open reads of it.
* `rowFor_eq` – the row of a streamed section is the row of its bytes.
* `SegmentTaken.finish` – **the finished file holds what the writer has taken**, in either layout.

The blocks-first layout fills its table in the order its threads claim the slots, so there the order
is asked to take every key once (`Host.Claims`).
-/

namespace Supdb

open StorageLib Flatindex SegmentWriter Reserve

/-- The threads that fill a table take every key once. -/
def Host.Claims (host : Host) : Prop :=
  ∀ n, ((List.range n).map (host.claims n)).Perm (List.range n)

/-! ## The head -/

section Head

variable {w : SegmentWriter} {rest table header : Bytes} {hdr : Flatindex.Header}
  {keyOff keyLen blkOff generation : ℕ}

/-- **The head of a file without a reserve.**  What stands behind the page stays, and the open finds
the sections where they were said to lie. -/
lemma writeHead_plain (host : Host) (hoff : w.reserveOff = 0)
    (hparse : Flatindex.Header.parse header = some hdr)
    (hheader : header.length = Format.HEADER_BYTES) (hpos : w.pos = SUPER + rest.length)
    (hsmall : SUPER + rest.length < 2 ^ 64) (hkey : keyOff + keyLen ≤ SUPER + rest.length)
    (hblk : blkOff + table.length ≤ SUPER + rest.length) :
    ∃ page sb, page.length = SUPER ∧
      w.writeHead host (List.replicate SUPER 0 ++ rest) table header keyOff keyLen blkOff
        generation = .ok (page ++ rest) ∧
      openHead (page ++ rest) = .ok sb ∧ sb.keyOff = keyOff ∧ sb.keyStored = keyLen ∧
      sb.blkOff = blkOff ∧ sb.blkStored = table.length := by
  have hno : w.tableInReserve table = false := by
    rw [tableInReserve, hoff]
    simp
  set fields := [generation, generation, host.now, keyOff, keyLen, keyLen, blkOff, table.length,
    table.length, 0, 0, 0, w.pos, 0, 0, generation] with hfields
  set ext : SuperExt :=
    { fence := (keyOff + (fenceSpan hdr keyLen).1, (fenceSpan hdr keyLen).2)
      dir := (keyOff + hdr.dirOff, hdr.nkeys * 4), hash := (keyOff + hdr.hashOff, hdr.hashCap * 8)
      row := (keyOff + hdr.crcOff,
        if hdr.crcOff ≠ 0 then checksumRowLen hdr.crcOff hdr.pieceShift keyOff else 0)
      tableCopy := none, fenceCopy := none, rowCopy := none, dirCopy := none
      payload := if 0 < w.payload then some w.payload else none, header := header } with hext
  have hok : w.writeHead host (List.replicate SUPER 0 ++ rest) table header keyOff keyLen blkOff
      generation = .ok (writeAt (List.replicate SUPER 0 ++ rest) 0
        (superPage fields ext generation)) := by
    rw [SegmentWriter.writeHead, hparse]
    simp only [hno, Bool.false_eq_true, if_false]
    rfl
  obtain ⟨hpage, hfirst, hsecond, -⟩ := @superPage_spec fields ext generation rfl hheader
  set page := superPage fields ext generation with hpageDef
  have hfile : writeAt (List.replicate SUPER 0 ++ rest) 0 page = page ++ rest := by
    have h := @writeAt_append_mid [] (List.replicate SUPER 0) page rest 0 rfl
      (by rw [hpage, List.length_replicate])
    rwa [List.nil_append, List.nil_append] at h
  have htake : (page ++ rest).take SUPER = page := by rw [← hpage, List.take_left]
  have hlen : (page ++ rest).length = SUPER + rest.length := by rw [List.length_append, hpage]
  have hsb := @pickSuper_eq _ _ (page ++ rest).length rfl hfirst hsecond
    (by rw [hlen]; exact Nat.le_add_right _ _)
    (by show w.pos % 2 ^ 64 ≤ _; rw [hlen, ← hpos]; exact Nat.mod_le _ _) rfl rfl
  refine ⟨page, .ofWords (fun i => fields.getD i 0 % 2 ^ 64), hpage, hok.trans (congrArg _ hfile),
    ?_, ?_⟩
  · rw [openHead, htake, hsb]
    rfl
  · have hword : keyOff < 2 ^ 64 ∧ keyLen < 2 ^ 64 ∧ blkOff < 2 ^ 64 ∧ table.length < 2 ^ 64 := by
      omega
    exact ⟨Nat.mod_eq_of_lt hword.1, Nat.mod_eq_of_lt hword.2.1, Nat.mod_eq_of_lt hword.2.2.1,
      Nat.mod_eq_of_lt hword.2.2.2⟩

end Head

/-! ## The row of a streamed section -/

/-- The bytes of a piece, the header's and the file's, are the section's. -/
lemma pieceBytes_eq {pre header body : Bytes} {keyOff a b : ℕ}
    (hpre : pre.length = keyOff + header.length) (hab : a ≤ b) :
    pieceBytes (pre ++ body) header keyOff a b = slice (header ++ body) a b := by
  rw [pieceBytes]
  set m := a + min (header.length - a) (b - a) with hm
  have ham : a ≤ m := Nat.le_add_right _ _
  have hmb : m ≤ b := by omega
  rw [← slice_append_slice (header ++ body) ham hmb]
  congr 1
  · rcases le_or_gt a header.length with hin | hout
    · rw [slice_append_left (by omega)]
    · have hma : m = a := by omega
      rw [hma, slice_self, slice_self]
  · rcases Nat.eq_or_lt_of_le hmb with hend | hmore
    · rw [hend, slice_self, slice_self]
    · have hbehind : header.length ≤ m := by omega
      rw [slice_append_of_le (by omega) (by omega), slice_append_of_le hbehind (by omega), hpre,
        Nat.add_sub_add_left, Nat.add_sub_add_left]

/-- **The row of a streamed section** is the row of its bytes, once its header stands first. -/
lemma rowFor_eq {pre header body : Bytes} {keyOff : ℕ}
    (hpre : pre.length = keyOff + header.length) :
    rowFor (pre ++ body) header keyOff (header ++ body).length =
      checksumRow (header ++ body) PIECE_SHIFT keyOff := by
  rw [rowFor, checksumRow]
  refine List.flatMap_congr (fun r hr => ?_)
  obtain ⟨hlt, hstop⟩ := mem_piecesFrom _ rfl hr
  have hle : r.1 ≤ r.2 := by
    rw [hstop]
    exact (lt_pieceStop hlt).le
  rw [pieceBytes_eq hpre hle]

/-! ## The writer before its last steps -/

section Finish

variable {opts : WriterOptions} {closed blocks : List Bytes} {recs : List FlatEntry}
  {entries : List Entry} {w : SegmentWriter} {lz : Lz4} {generation : ℕ}

/-- No record lies in an empty block. -/
lemma RecOf.of_closed {inlineMax : ℕ} {e : Entry} {f : FlatEntry}
    (h : RecOf inlineMax (closed ++ [[]]) e f) : RecOf inlineMax closed e f := by
  cases h with
  | inRecord h => exact .inRecord h
  | inBlock b o h hb ho hat =>
      refine .inBlock b o h hb ho (fun hne => ?_)
      obtain ⟨block, hblock, hat⟩ := hat hne
      refine ⟨block, ?_, hat⟩
      rcases lt_or_ge b closed.length with hlt | hge
      · rw [List.getElem?_append_left hlt] at hblock
        exact hblock
      · rw [List.getElem?_append_right hge] at hblock
        have hnil : block = [] := by
          have hmem := List.mem_of_getElem? hblock
          exact List.mem_singleton.mp hmem
        have hle := hat.le hne
        rw [hnil, List.length_nil] at hle
        have := List.length_pos_iff.mpr hne
        omega

/-- A writer whose last block is closed and whose records are those of its entries. -/
structure Flushed (opts : WriterOptions) (entries : List Entry) (blocks : List Bytes)
    (recs : List FlatEntry) (w : SegmentWriter) : Prop where
  blocked : Blocked opts entries.length blocks w
  recorded : Recorded opts recs w
  fits : ∀ e ∈ entries, e.Fits
  recOf : List.Forall₂ (RecOf opts.inlineMax blocks) entries recs

/-- **The last block closed.** -/
lemma SegmentTaken.flushed (lz : Lz4) (hplain : opts.Plain)
    (h : SegmentTaken opts entries closed recs w) :
    ∃ blocks, Flushed opts entries blocks recs (flushBlock lz w).sync := by
  obtain ⟨blocks, hb, -, hext, hframed⟩ := h.blocked.flush lz hplain
  have hr := h.recorded.framed h.blocked.mode hframed
  have hsync : (flushBlock lz w).sync = flushBlock lz w := if_pos hr.batch
  rw [hsync]
  exact ⟨blocks, hb, hr, h.fits, h.recOf.imp (fun _ _ hf => (hf.mono hext).of_closed)⟩

/-- Blocks of words' lengths, no more of them than a section has records. -/
lemma Flushed.sizes (h : Flushed opts entries blocks recs w)
    (hroom : recordBytesOf opts.inlineMax opts.compactRecords (entries.map lengthsOf) ≤ MAX_RECS) :
    blocks.length < 2 ^ 29 ∧ blocks.flatten.length < 2 ^ 61 := by
  obtain ⟨-, h8⟩ := recordBytesOf_spec opts.inlineMax opts.compactRecords (entries.map lengthsOf)
  have hfew := h.blocked.few
  rw [List.length_map] at h8
  simp only [MAX_RECS] at hroom
  have hn : blocks.length < 2 ^ 29 := by omega
  refine ⟨hn, ?_⟩
  have hle : blocks.flatten.length ≤ blocks.length • (2 ^ 32) := by
    rw [List.length_flatten]
    refine (List.sum_le_card_nsmul _ (2 ^ 32) fun l hl => ?_).trans (by simp)
    obtain ⟨b, hb, rfl⟩ := List.mem_map.mp hl
    exact (h.blocked.whole b hb).2.le
  rw [smul_eq_mul] at hle
  omega

/-- The records fit the section, and each reads back. -/
lemma Flushed.records (h : Flushed opts entries blocks recs w)
    (hroom : recordBytesOf opts.inlineMax opts.compactRecords (entries.map lengthsOf) ≤ MAX_RECS) :
    (∀ f ∈ recs, RecordOk f.key f.exts f.tail) ∧
      (recordsOf opts.compactRecords recs).length ≤ MAX_RECS := by
  refine ⟨fun f hf => ?_, by rw [length_recordsOf h.recOf h.fits]; exact hroom⟩
  obtain ⟨i, hi, rfl⟩ := List.mem_iff_getElem.mp hf
  have hlen := h.recOf.length_eq
  exact (h.recOf.get (by omega) hi).recordOk (h.fits _ (List.getElem_mem (by omega)))

/-! ## The key section -/

/-- A section with its row reads back. -/
lemma sectionReads_row {content sec : Bytes} {keyOff : ℕ} {idx : FlatIndex}
    (hpos : 0 < content.length) (hsec : sec = content ++ checksumRow content PIECE_SHIFT keyOff)
    (hcrc : idx.crcOff = content.length ∧ idx.pieceShift = PIECE_SHIFT)
    (hread : ∀ {base : ℕ}, 4 ∣ base → FlatIndex.parse sec = some idx ∧
      Nonempty (FlatView base idx sec recs fnv64)) : SectionReads sec keyOff recs idx := by
  refine ⟨(hread (dvd_zero 4)).1, ?_, fun hbase => (hread hbase).2⟩
  rw [hcrc.1, hcrc.2, hsec]
  exact verifyPieces_ok PIECE_SHIFT keyOff hpos

/-- What a finish has once its key section is closed: the section, at `keyOff`, of a header that
parses and what stands behind it. -/
structure SectionClosed (recs : List FlatEntry) (keyOff : ℕ) (header tail : Bytes) : Prop where
  long : header.length = HEADER
  parses : ∃ hdr, Flatindex.Header.parse header = some hdr
  reads : ∃ idx, SectionReads (header ++ tail) keyOff recs idx
  small : (header ++ tail).length < 2 ^ 63

/-- The header of a section with its row reads back on its own. -/
lemma header_parses {sec : Bytes} {n recsOff recsLen blobLen crcOff : ℕ} {t : Trailer}
    (hgen : generation < 2 ^ 64)
    (hok : SectionOk sec n recsOff recsLen t blobLen crcOff PIECE_SHIFT)
    (hcrc : crcOff ≠ 0) : ∃ hdr, Flatindex.Header.parse
      (headerBytes (sectionWords generation n recsOff recsLen t crcOff PIECE_SHIFT))
      = some hdr := by
  obtain ⟨hdr, hparse, -⟩ := Header.parse_eq (hok.words hgen) hok.cap hok.keys hcrc
  exact ⟨hdr, hparse⟩

/-- The bytes of a row. -/
lemma checksumRowLen_lt {len base : ℕ} (hlen : len < 2 ^ 62) :
    checksumRowLen len PIECE_SHIFT base < 2 ^ 51 := by
  simp only [checksumRowLen, pieceCount, divCeil, PIECE_SHIFT]
  omega

/-- The writer's answers to its trailer are the records'. -/
lemma Recorded.answers (h : Recorded opts recs w) (hin : 0 < opts.inlineMax) :
    w.keys.length = recs.length ∧ (fun i => w.keys.getD i []) = keyOf recs ∧
      (fun i => (w.recOffs.getD i 0, fnv64 (w.keys.getD i []))) =
        eachOf opts.compactRecords fnv64 recs := by
  have hkeys : ∀ i, w.keys.getD i [] = keyOf recs i := by
    intro i
    rw [h.keys, keyOf, List.getD_eq_getElem?_getD, List.getElem?_map]
  refine ⟨by rw [h.keys, List.length_map], funext hkeys, funext fun i => ?_⟩
  rw [hkeys, (h.first hin).2.1]
  rfl

/-- **The section of the records-first layout closed**, its blocks behind it. -/
lemma Flushed.closeSection (host : Host) (h : Flushed opts entries blocks recs w)
    (hin : 0 < opts.inlineMax) (hgen : generation < 2 ^ 64)
    (hroom : recordBytesOf opts.inlineMax opts.compactRecords (entries.map lengthsOf) ≤ MAX_RECS) :
    ∃ w' header tail, w.closeSection host generation =
        .ok (w', SUPER, (header ++ tail).length, header) ∧
      SectionClosed recs SUPER header tail ∧
      w'.out = List.replicate (SUPER + HEADER) 0 ++ (tail ++ blocks.flatten) ∧
      w'.pos = w'.out.length ∧
      w'.blocks = locsFrom opts.checksums (SUPER + (header ++ tail).length) blocks ∧
      w'.chunkRows = blocks.map (plainRow opts.checksums) ∧ w'.reserveOff = 0 := by
  obtain ⟨hok, hfit⟩ := h.records hroom
  obtain ⟨hlen, hkeys, heach⟩ := h.recorded.answers hin
  obtain ⟨hrecsLen, -, hout⟩ := h.recorded.first hin
  obtain ⟨hpending, hlocs⟩ := h.blocked.held hin
  have hstart : w.keyStart = SUPER := by
    rw [keyStart, h.recorded.reserveOff]
    rfl
  obtain ⟨t, trailer, blobLen, hstream, htotal, hsmall, hview⟩ :=
    @streamTrailer_spec _ opts.compactRecords host.target fnv64 hok hfit _ hgen w.opts.lookahead
  set recsBytes := recordsOf opts.compactRecords recs with hrecsBytes
  set header := headerBytes (sectionWords generation recs.length HEADER recsBytes.length t t.total
    PIECE_SHIFT) with hheader
  have hheaderLen : header.length = HEADER := length_headerBytes (by show 21 ≤ 23; decide)
  have hnamed : setChecksumWords (headerBytes (headerWords generation recs.length HEADER
      recsBytes.length t)) t.total = header := by
    have heq := setChecksumWords_header generation recs.length HEADER recsBytes.length t t.total []
    rwa [List.append_nil, List.append_nil] at heq
  have hcontent : (header ++ (recsBytes ++ trailer)).length = t.total := by
    rw [List.length_append, List.length_append, hheaderLen]
    omega
  set row := checksumRow (header ++ (recsBytes ++ trailer)) PIECE_SHIFT SUPER with hrow
  have hpos : 0 < (header ++ (recsBytes ++ trailer)).length := by
    rw [List.length_append, hheaderLen]
    exact Nat.lt_of_lt_of_le (by decide : 0 < HEADER) (Nat.le_add_right _ _)
  have hrowLen : row.length < 2 ^ 51 := by
    rw [hrow, length_checksumRow hpos]
    exact checksumRowLen_lt (by rw [hcontent]; exact hsmall)
  have hrowFor : rowFor (w.out ++ trailer) header SUPER t.total = row := by
    have hpre : (List.replicate (SUPER + HEADER) (0 : UInt8)).length = SUPER + header.length := by
      rw [List.length_replicate, hheaderLen]
    rw [hout, List.append_assoc, ← hcontent, rowFor_eq hpre]
  have hsec : header ++ (recsBytes ++ (trailer ++ row)) =
      header ++ (recsBytes ++ trailer) ++ row := by simp only [List.append_assoc]
  have hsecLen : (header ++ (recsBytes ++ (trailer ++ row))).length = t.total + row.length := by
    rw [hsec, List.length_append, hcontent]
  have hcrcOk : CrcOk (header ++ (recsBytes ++ (trailer ++ row))) t.total PIECE_SHIFT :=
    Or.inr ⟨by omega, by rw [hsecLen]; exact Nat.le_add_right _ _, rfl⟩
  have hread := fun {base : ℕ} (hbase : 4 ∣ base) =>
    hview hbase (hrowLen.trans (by norm_num)) rfl hcrcOk
  set w' : SegmentWriter := { w with
    out := w.out ++ trailer ++ (row ++ w.pendingBlocks.flatten)
    pos := w.pos + trailer.length + row.length + w.pendingBlocks.flatten.length
    blocks := placeHeld w.pendingBlocks w.blocks (w.pos + trailer.length + row.length)
    pendingBlocks := [] } with hw'
  refine ⟨w', header, recsBytes ++ (trailer ++ row), ?_,
    ⟨hheaderLen, header_parses hgen (hread (dvd_zero 4)).1 (by omega),
      ⟨_, sectionReads_row hpos hsec
      ⟨hcontent.symm, rfl⟩ (fun hbase => (hread hbase).2)⟩, by rw [hsecLen]; omega⟩,
    ?_, ?_, ?_, ?_, ?_⟩
  · have hstream' : streamTrailer host.target w.keys.length w.recsLen (fun i => w.keys.getD i [])
        (fun i => (w.recOffs.getD i 0, fnv64 (w.keys.getD i []))) generation w.opts.lookahead =
          some (headerBytes (headerWords generation recs.length HEADER recsBytes.length t), trailer,
            t.total) := by
      rw [hlen, hkeys, heach, hrecsLen]
      exact hstream
    rw [SegmentWriter.closeSection, hstart, hstream']
    dsimp only
    rw [hnamed, hrowFor, hsecLen]
  · rw [hw', hout, hpending]
    simp only [List.append_assoc]
  · simp only [hw', List.length_append, h.blocked.written]
    omega
  · rw [hw']
    dsimp only
    rw [hpending, placeHeld_eq hlocs, hsecLen, h.blocked.written, hout, List.length_append,
      List.length_replicate]
    exact congrArg (fun pos => locsFrom opts.checksums pos blocks) (by omega)
  · exact h.blocked.rows
  · exact h.recorded.reserveOff

/-- The records a blocks-first writer has kept. -/
lemma zip_kept (recs : List FlatEntry) (exts : List Ext)
    (h : recs.map FlatEntry.exts = exts.map ([·])) :
    ((recs.map FlatEntry.key).zip (exts.zip (recs.map FlatEntry.tail))).map
      (fun e => (⟨e.1, [e.2.1], e.2.2⟩ : FlatEntry)) = recs := by
  induction recs generalizing exts with
  | nil => rfl
  | cons f recs ih =>
      cases exts with
      | nil => exact absurd h (by simp)
      | cons ext exts =>
          obtain ⟨hext, hexts⟩ := List.cons.inj h
          simp only [List.map_cons, List.zip_cons_cons, ih exts hexts, ← hext]

/-- **The section of the blocks-first layout appended.** -/
lemma Recorded.appendSection (host : Host) (hclaims : host.Claims) (h : Recorded opts recs w)
    (h0 : opts.inlineMax = 0) (hok : ∀ f ∈ recs, RecordOk f.key f.exts f.tail)
    (hfit : (recordsOf true recs).length ≤ MAX_RECS) (hgen : generation < 2 ^ 64)
    (hwritten : w.pos = w.out.length) :
    ∃ w' header tail, w.appendSection host generation =
        .ok (w', alignUp w.pos 8, (header ++ tail).length, header) ∧
      SectionClosed recs (alignUp w.pos 8) header tail ∧
      w'.out = w.out ++ padding w.pos 8 ++ (header ++ tail) ∧ w'.pos = w'.out.length ∧
      w'.reserveOff = 0 := by
  have hkept : w.kept = recs := by
    rw [kept, h.keys, (h.last h0).2]
    exact zip_kept recs w.exts (h.last h0).1
  obtain ⟨t, recsOff, body, blobLen, hinline, htotal, hsmall, hview⟩ :=
    encodeInline_view host.target fnv64 hok hfit hgen (hclaims recs.length)
  set keyOff := alignUp w.pos 8 with hkeyOff
  set recsBytes := recordsOf true recs with hrecsBytes
  set header := headerBytes (sectionWords generation recs.length recsOff recsBytes.length t t.total
    PIECE_SHIFT) with hheader
  set sec := headerBytes (headerWords generation recs.length recsOff recsBytes.length t) ++ body
    with hsec
  have hheaderLen : header.length = HEADER := length_headerBytes (by show 21 ≤ 23; decide)
  have hsecLen : sec.length = t.total := by
    rw [hsec, List.length_append, length_headerBytes (by show 19 ≤ 23; decide), htotal]
  have hnamed : setChecksumWords sec sec.length = header ++ body := by
    rw [hsecLen]
    exact setChecksumWords_header ..
  have hcontent : (header ++ body).length = t.total := by
    rw [List.length_append, hheaderLen, htotal]
  have hpos : 0 < (header ++ body).length := by
    rw [List.length_append, hheaderLen]
    exact Nat.lt_of_lt_of_le (by decide : 0 < HEADER) (Nat.le_add_right _ _)
  set row := checksumRow (header ++ body) PIECE_SHIFT keyOff with hrow
  have hrowLen : row.length < 2 ^ 51 := by
    rw [hrow, length_checksumRow hpos]
    exact checksumRowLen_lt (by rw [hcontent]; exact hsmall)
  have hwith : withChecksums sec keyOff = header ++ (body ++ row) := by
    rw [withChecksums, hnamed, ← List.append_assoc]
  have hlen : (header ++ (body ++ row)).length = t.total + row.length := by
    rw [← List.append_assoc, List.length_append, hcontent]
  have hcrcOk : CrcOk (header ++ (body ++ row)) t.total PIECE_SHIFT :=
    Or.inr ⟨by omega, by rw [hlen]; exact Nat.le_add_right _ _, rfl⟩
  have hread := fun {base : ℕ} (hbase : 4 ∣ base) =>
    hview hbase (hrowLen.trans (by norm_num)) rfl hcrcOk
  set w' : SegmentWriter := { w with
    out := w.out ++ padding w.pos 8 ++ (header ++ (body ++ row))
    pos := keyOff + (header ++ (body ++ row)).length } with hw'
  refine ⟨w', header, body ++ row, ?_, ⟨hheaderLen,
    header_parses hgen (hread (dvd_zero 4)).1 (by omega), ⟨_, sectionReads_row hpos
      (List.append_assoc ..).symm ⟨hcontent.symm, rfl⟩ (fun hbase => (hread hbase).2)⟩,
    by rw [hlen]; omega⟩, rfl, ?_, h.reserveOff⟩
  · have hkeys : w.keys.length = recs.length := by rw [h.keys, List.length_map]
    have hreached : t.total ≤ sec.length := hsecLen.ge
    have hmax : max t.total (header ++ (body ++ row)).length = (header ++ (body ++ row)).length :=
      max_eq_right (by rw [hlen]; exact Nat.le_add_right _ _)
    rw [SegmentWriter.appendSection, hkeys, hkept, hinline]
    simp only [padTo]
    rw [← hkeyOff, if_pos hreached, hwith, hmax, Nat.sub_self, List.replicate_zero, List.append_nil,
      ← hheaderLen, List.take_left]
  · have hpad := length_padding w.pos (by norm_num : 0 < 8)
    simp only [hw', List.length_append, ← hwritten]
    omega

/-! ## The file -/

/-- Without inline runs the two forms of a record do not matter. -/
lemma recordBytesOf_zero (compact compact' : Bool) (keys : List (ℕ × ℕ)) :
    recordBytesOf 0 compact keys = recordBytesOf 0 compact' keys := by
  simp [recordBytesOf, goesInline_zero, segmentRecordLen]

/-- The block table put behind what is written. -/
lemma placeTable_plain (hoff : w.reserveOff = 0) : w.placeTable =
    ({ w with
        out := w.out ++ padding w.pos 8 ++ encodeBlocks w.blocks w.chunkRows
        pos := alignUp w.pos 8 + (encodeBlocks w.blocks w.chunkRows).length },
      encodeBlocks w.blocks w.chunkRows, alignUp w.pos 8) := by
  have hno : w.tableInReserve (encodeBlocks w.blocks w.chunkRows) = false := by
    rw [tableInReserve, hoff]
    simp
  rw [placeTable]
  simp only [hno, Bool.false_eq_true, if_false]
  rfl

/-- The bytes of a table of plain blocks. -/
lemma length_table_lt {checksums : Bool} {off : ℕ} (hfew : blocks.length < 2 ^ 29) :
    (encodeBlocks (locsFrom checksums off blocks) (blocks.map (plainRow checksums))).length
      < 2 ^ 40 := by
  have hlen := @length_encodeBlocks (locsFrom checksums off blocks)
    (blocks.map (plainRow checksums)) (fun r hr => by
      obtain ⟨b, -, rfl⟩ := List.mem_map.mp hr
      exact length_plainRow b) (by rw [List.length_map, length_locsFrom])
  rw [hlen, length_locsFrom, blockTableLen, BLK_HEADER, BLK_ENTRY, CRC_ROW, MAX_CHUNK_CRCS]
  omega

/-- **The head written over a laid file.**  What stands behind the page holds the section behind
`pre`, the blocks behind `mid` and their table behind `low`, in the order of either layout. -/
lemma Flushed.writeHead (host : Host) {w' : SegmentWriter} {keyOff blkOff : ℕ}
    {rest table header tail pre post mid more low high : Bytes}
    (h : Flushed opts entries blocks recs w) (hoff : w'.reserveOff = 0)
    (hsec : SectionClosed recs keyOff header tail)
    (htable : encodeBlocks (locsFrom opts.checksums (SUPER + mid.length) blocks)
      (blocks.map (plainRow opts.checksums)) = table)
    (hkey : rest = pre ++ ((header ++ tail) ++ post)) (hblk : rest = mid ++ (blocks.flatten ++ more))
    (htab : rest = low ++ (table ++ high)) (hkeyOff : keyOff = SUPER + pre.length)
    (hblkOff : blkOff = SUPER + low.length) (hkeyAligned : 4 ∣ keyOff) (hblkAligned : 8 ∣ blkOff)
    (hpos : w'.pos = SUPER + rest.length) (hfew : blocks.length < 2 ^ 29)
    (hsmall : SUPER + rest.length < 2 ^ 64) :
    ∃ file, w'.writeHead host (List.replicate SUPER 0 ++ rest) table header keyOff
        (header ++ tail).length blkOff generation = .ok file ∧
      Nonempty (SegmentFile opts.checksums blocks recs file) := by
  obtain ⟨hdr, hparse⟩ := hsec.parses
  obtain ⟨idx, hreads⟩ := hsec.reads
  have hend : ∀ {a x b : Bytes}, rest = a ++ (x ++ b) → a.length + x.length ≤ rest.length := by
    intro a x b hrest
    rw [hrest, List.length_append, List.length_append]
    omega
  have hkeyEnd := hend hkey
  have hblkEnd := hend hblk
  have htabEnd := hend htab
  obtain ⟨page, sb, hpage, hok, hhead, hko, hks, hbo, hbs⟩ :=
    @writeHead_plain w' rest table _ _ keyOff (header ++ tail).length blkOff generation host hoff
      hparse hsec.long hpos hsmall (by omega) (by omega)
  have hat : ∀ {a x b : Bytes}, rest = a ++ (x ++ b) →
      getRange (page ++ rest) (SUPER + a.length) (SUPER + a.length + x.length) = some x := by
    intro a x b hrest
    rw [hrest, ← List.append_assoc page]
    exact getRange_append_mid (by rw [List.length_append, hpage])
      (by rw [List.length_append, hpage])
  exact ⟨page ++ rest, hok, ⟨
    { sb := sb, key := header ++ tail, idx := idx, blocksOff := SUPER + mid.length, head := hhead
      keyAt := by
        rw [hko, hks, hkeyOff]
        exact hat hkey
      reads := by
        rw [hko]
        exact hreads
      keyAligned := hko ▸ hkeyAligned
      tableAt := by
        rw [hbo, hbs, hblkOff, htable]
        exact hat htab
      tableAligned := hbo ▸ hblkAligned
      blocksAt := (getRange_eq_some.mp (hat hblk)).2.2
      whole := h.blocked.whole, few := by omega, small := by omega }⟩⟩

/-- **A records-first finish** leaves the section, the blocks and the table. -/
lemma Flushed.finish_first (host : Host) (h : Flushed opts entries blocks recs w)
    (hin : 0 < opts.inlineMax) (hgen : generation < 2 ^ 64)
    (hroom : recordBytesOf opts.inlineMax opts.compactRecords (entries.map lengthsOf) ≤ MAX_RECS) :
    ∃ file, (do
        let (w, keyOff, keyLen, header) ← w.closeSection host generation
        let (w, table, blkOff) := w.placeTable
        w.writeHead host (writeAt w.out keyOff header) table header keyOff keyLen blkOff
          generation) = Except.ok file ∧
      Nonempty (SegmentFile opts.checksums blocks recs file) := by
  obtain ⟨hfew, hblocks⟩ := h.sizes hroom
  obtain ⟨w₂, header, tail, hclose, hsec, hout, hwritten, hlocs, hrows, hoff⟩ :=
    h.closeSection host hin hgen hroom
  set table := encodeBlocks w₂.blocks w₂.chunkRows with htable
  rw [hlocs, hrows] at htable
  set pad := padding w₂.pos 8 with hpad
  set rest := (header ++ tail) ++ (blocks.flatten ++ (pad ++ table)) with hrest
  have hpadLen : w₂.pos + pad.length = alignUp w₂.pos 8 := length_padding _ (by norm_num)
  have hposLen : w₂.pos = SUPER + (header ++ tail).length + blocks.flatten.length := by
    rw [hwritten, hout, List.length_append, List.length_append, List.length_append,
      List.length_replicate, hsec.long]
    omega
  have hrestLen : alignUp w₂.pos 8 + table.length = SUPER + rest.length := by
    rw [← hpadLen, hposLen]
    simp only [hrest, List.length_append]
    omega
  have hfile : writeAt (w₂.out ++ pad ++ table) SUPER header = List.replicate SUPER 0 ++ rest := by
    have hsplit : w₂.out ++ pad ++ table = List.replicate SUPER 0 ++ (List.replicate HEADER 0 ++
        (tail ++ (blocks.flatten ++ (pad ++ table)))) := by
      rw [hout, ← List.replicate_append_replicate]
      simp only [List.append_assoc]
    rw [hsplit, hrest, List.append_assoc header]
    exact writeAt_append_mid List.length_replicate.symm (by rw [hsec.long, List.length_replicate])
  have hsmall := hsec.small
  have hup := alignUp_lt w₂.pos (by norm_num : 0 < 8)
  have htableSmall : table.length < 2 ^ 40 := htable ▸ length_table_lt hfew
  have hS : SUPER = 4096 := rfl
  obtain ⟨file, hok, hholds⟩ := @Flushed.writeHead _ _ _ _ _ generation host
    { w₂ with out := w₂.out ++ pad ++ table, pos := alignUp w₂.pos 8 + table.length }
    SUPER (alignUp w₂.pos 8) rest table header tail [] _ (header ++ tail) _
    ((header ++ tail) ++ (blocks.flatten ++ pad)) [] h hoff hsec htable.symm rfl rfl
    (by simp only [hrest, List.append_assoc, List.append_nil]) rfl
    (by
      rw [← hpadLen, hposLen]
      simp only [List.length_append]
      omega)
    (by decide) (dvd_alignUp _ _) hrestLen hfew (by omega)
  refine ⟨file, ?_, hholds⟩
  rw [hclose]
  simp only [bind, Except.bind, placeTable_plain hoff]
  rw [← hfile] at hok
  exact hok

/-- **A blocks-first finish** leaves the blocks, the table and the section. -/
lemma Flushed.finish_last (host : Host) (hclaims : host.Claims)
    (h : Flushed opts entries blocks recs w) (h0 : opts.inlineMax = 0) (hgen : generation < 2 ^ 64)
    (hroom : recordBytesOf opts.inlineMax opts.compactRecords (entries.map lengthsOf) ≤ MAX_RECS) :
    ∃ file, (do
        let (w, table, blkOff) := w.placeTable
        let (w, keyOff, keyLen, header) ← w.appendSection host generation
        w.writeHead host w.out table header keyOff keyLen blkOff generation) = Except.ok file ∧
      Nonempty (SegmentFile opts.checksums blocks recs file) := by
  obtain ⟨hfew, hblocks⟩ := h.sizes hroom
  obtain ⟨hok, -⟩ := h.records hroom
  obtain ⟨hout, hlocs⟩ := h.blocked.laid h0
  have hfit : (recordsOf true recs).length ≤ MAX_RECS := by
    rw [length_recordsOf h.recOf h.fits, h0, recordBytesOf_zero true opts.compactRecords, ← h0]
    exact hroom
  set table := encodeBlocks w.blocks w.chunkRows with htable
  rw [hlocs, h.blocked.rows] at htable
  set pad := padding w.pos 8 with hpad
  have hpadLen : w.pos + pad.length = alignUp w.pos 8 := length_padding _ (by norm_num)
  have hposLen : w.pos = SUPER + blocks.flatten.length := by
    rw [h.blocked.written, hout, List.length_append, List.length_replicate]
  set w₁ : SegmentWriter := { w with
    out := w.out ++ pad ++ table, pos := alignUp w.pos 8 + table.length } with hw₁
  have hplace : w.placeTable = (w₁, table, alignUp w.pos 8) := placeTable_plain h.recorded.reserveOff
  have hrecorded : Recorded opts recs w₁ := { h.recorded with first := fun hpos => by omega }
  have hwritten : w₁.pos = w₁.out.length := by
    simp only [hw₁, List.length_append, ← h.blocked.written]
    omega
  obtain ⟨w₂, header, tail, happend, hsec, hout₂, hwritten₂, hoff₂⟩ :=
    hrecorded.appendSection host hclaims h0 hok hfit hgen hwritten
  set pad' := padding w₁.pos 8 with hpad'
  have hpadLen' : w₁.pos + pad'.length = alignUp w₁.pos 8 := length_padding _ (by norm_num)
  set rest := blocks.flatten ++ (pad ++ (table ++ (pad' ++ (header ++ tail)))) with hrest
  have hfile : w₂.out = List.replicate SUPER 0 ++ rest := by
    rw [hout₂, hw₁, hout]
    simp only [List.append_assoc, hrest]
  have hrestLen : w₂.pos = SUPER + rest.length := by
    rw [hwritten₂, hfile, List.length_append, List.length_replicate]
  have hw₁pos : w₁.pos = alignUp w.pos 8 + table.length := rfl
  have hrestAt : SUPER + rest.length = alignUp w₁.pos 8 + (header ++ tail).length := by
    simp only [hrest, List.length_append] at hposLen ⊢
    omega
  have hsmall := hsec.small
  have hup := alignUp_lt w.pos (by norm_num : 0 < 8)
  have hup' := alignUp_lt w₁.pos (by norm_num : 0 < 8)
  have htableSmall : table.length < 2 ^ 40 := htable ▸ length_table_lt hfew
  have hS : SUPER = 4096 := rfl
  obtain ⟨file, hok, hholds⟩ := @Flushed.writeHead _ _ _ _ _ generation host w₂
    (alignUp w₁.pos 8) (alignUp w.pos 8) rest table header tail
    (blocks.flatten ++ (pad ++ (table ++ pad'))) [] [] _ (blocks.flatten ++ pad) _ h hoff₂ hsec
    htable.symm (by simp only [hrest, List.append_assoc, List.append_nil]) rfl
    (by simp only [hrest, List.append_assoc]; rfl)
    (by
      simp only [List.length_append]
      omega)
    (by
      rw [List.length_append]
      omega)
    ((by norm_num : 4 ∣ 8).trans (dvd_alignUp _ _)) (dvd_alignUp _ _) hrestLen hfew (by omega)
  refine ⟨file, ?_, hholds⟩
  rw [hplace]
  simp only [bind, Except.bind, happend]
  rw [hfile]
  exact hok

/-- **The finished file holds what the writer has taken.** -/
lemma SegmentTaken.finish (host : Host) (hclaims : host.Claims) (lz : Lz4) (hplain : opts.Plain)
    (h : SegmentTaken opts entries closed recs w.layout.1) (hgen : generation < 2 ^ 64)
    (hroom : recordBytesOf opts.inlineMax opts.compactRecords (entries.map lengthsOf) ≤ MAX_RECS) :
    ∃ file blocks, w.finish host lz generation = .ok file ∧
      List.Forall₂ (RecOf opts.inlineMax blocks) entries recs ∧
      blocks.length = (flushBlock lz w.layout.1).blocks.length ∧
      Nonempty (SegmentFile opts.checksums blocks recs file) := by
  obtain ⟨hlay, hmode, hopen, -, -⟩ := layout_spec w
  have hsnd : w.layout.2 = layoutOf opts := Option.some.inj (hmode.symm.trans h.blocked.mode)
  have hclosed : ¬ w.openKey.isSome = true := by
    rw [← hopen, h.recorded.openKey]
    exact Bool.false_ne_true
  obtain ⟨blocks, hflushed⟩ := h.flushed lz hplain
  have hcount : blocks.length = (flushBlock lz w.layout.1).blocks.length := by
    have hsync : (flushBlock lz w.layout.1).sync.blocks = (flushBlock lz w.layout.1).blocks := by
      rw [SegmentWriter.sync]
      split_ifs <;> rfl
    rw [← hsync, hflushed.blocked.length_blocks]
  rw [SegmentWriter.finish, if_neg hclosed, hlay, hsnd, layoutOf]
  rcases Nat.eq_zero_or_pos opts.inlineMax with h0 | hin
  · obtain ⟨file, hok, hfile⟩ := hflushed.finish_last host hclaims h0 hgen hroom
    rw [if_neg (by omega)]
    exact ⟨file, blocks, hok, hflushed.recOf, hcount, hfile⟩
  · obtain ⟨file, hok, hfile⟩ := hflushed.finish_first host hin hgen hroom
    rw [if_pos hin]
    exact ⟨file, blocks, hok, hflushed.recOf, hcount, hfile⟩

end Finish

end Supdb
