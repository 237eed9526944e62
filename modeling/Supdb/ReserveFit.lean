import Supdb.SectionWrite
import Supdb.ReserveWriter

/-!
# The copies in a reserve

A finish lays the block table, the checksum row, the fence and the directory into the head reserve,
each only where what is left holds it.  They all fit when none is longer than the planner's.

* `setChecksumWords_header`, `Header.parse_eq` – the header a finish writes, and what it reads back
  of it.
* `fits_le` – pieces no longer than the planner's end within the planner's reserve.
* `writeHead_placed` – so the head names a copy of each.
-/

namespace Supdb

open StorageLib Flatindex

/-! ## The header -/

/-- A header with its row named. -/
lemma setChecksumWords_header (generation n recsOff recsLen : ℕ) (t : Trailer) (len : ℕ)
    (rest : Bytes) :
    setChecksumWords (headerBytes (headerWords generation n recsOff recsLen t) ++ rest) len =
      headerBytes (sectionWords generation n recsOff recsLen t len PIECE_SHIFT) ++ rest := by
  have hsplit : ∀ a b : ℕ, headerBytes (sectionWords generation n recsOff recsLen t a b) ++ rest =
      (leBytes 4 MAGIC ++ (leBytes 4 VERSION ++
        (headerWords generation n recsOff recsLen t).flatMap (leBytes 8))) ++
      (leBytes 8 a ++ (leBytes 8 b ++ (List.replicate (HEADER - (8 + 21 * 8)) 0 ++ rest))) := by
    intro a b
    have hlen : (sectionWords generation n recsOff recsLen t a b).length = 21 := rfl
    rw [headerBytes, hlen]
    simp only [sectionWords, List.flatMap_append, List.flatMap_cons,
      List.flatMap_nil, List.append_nil, List.append_assoc]
  have hpre : (leBytes 4 MAGIC ++ (leBytes 4 VERSION ++
      (headerWords generation n recsOff recsLen t).flatMap (leBytes 8))).length = 160 := by
    simp only [List.length_append, length_leBytes, length_flatMap_leBytes]
    rfl
  rw [headerBytes_headerWords, hsplit, hsplit, setChecksumWords,
    writeAt_append_mid (by rw [hpre]; rfl) (by simp), ← List.append_assoc _ (leBytes 8 len),
    writeAt_append_mid (by rw [List.length_append, hpre, length_leBytes]; rfl) (by simp),
    List.append_assoc]

/-- The header of a section of some entries, read back. -/
lemma Header.parse_eq {generation n recsOff recsLen crcOff : ℕ} {t : Trailer}
    (hws : ∀ w ∈ sectionWords generation n recsOff recsLen t crcOff PIECE_SHIFT, w < 2 ^ 64)
    (hcap : ∃ k, t.cap = 2 ^ k) (hkeys : n ≤ t.cap) (hcrc : crcOff ≠ 0) :
    ∃ hdr, Flatindex.Header.parse
        (headerBytes (sectionWords generation n recsOff recsLen t crcOff PIECE_SHIFT)) = some hdr ∧
      hdr.nkeys = n ∧ hdr.hashOff = t.hashOff ∧ hdr.dirOff = t.dirOff ∧ hdr.dirBase = t.dirOff ∧
      hdr.recsOff = recsOff ∧ hdr.fenceOffsOff = t.fenceOffsOff ∧ hdr.fenceN = t.fenceN ∧
      hdr.crcOff = crcOff ∧ hdr.pieceShift = PIECE_SHIFT := by
  obtain ⟨k, hk⟩ := hcap
  have hl : (sectionWords generation n recsOff recsLen t crcOff PIECE_SHIFT).length = 21 := rfl
  set header := headerBytes (sectionWords generation n recsOff recsLen t crcOff PIECE_SHIFT)
  have hread : ∀ i (hi : i < 21), readWord 8 header (8 + i * 8) =
      some (sectionWords generation n recsOff recsLen t crcOff PIECE_SHIFT)[i] := by
    intro i hi
    have h := @readWord_headerBytes _ [] hws i hi
    rwa [List.append_nil] at h
  have hflat : isFlat header = true := by
    have h := isFlat_headerBytes
      (sectionWords generation n recsOff recsLen t crcOff PIECE_SHIFT) []
    rwa [List.append_nil] at h
  have r0 : readWord 8 header 8 = some generation := hread 0 (by omega)
  have r6 : readWord 8 header 56 = some n := hread 6 (by omega)
  have r7 : readWord 8 header 64 = some t.cap := hread 7 (by omega)
  have r8 : readWord 8 header 72 = some t.hashOff := hread 8 (by omega)
  have r9 : readWord 8 header 80 = some t.dirOff := hread 9 (by omega)
  have r10 : readWord 8 header 88 = some recsOff := hread 10 (by omega)
  have r11 : readWord 8 header 96 = some recsLen := hread 11 (by omega)
  have r12 : readWord 8 header 104 = some recsLen := hread 12 (by omega)
  have r13 : readWord 8 header 112 = some recsLen := hread 13 (by omega)
  have r14 : readWord 8 header 120 = some t.fenceOffsOff := hread 14 (by omega)
  have r15 : readWord 8 header 128 = some t.fenceN := hread 15 (by omega)
  have r16 : readWord 8 header 136 = some t.stride := hread 16 (by omega)
  have r17 : readWord 8 header 144 = some 0 := hread 17 (by omega)
  have r18 : readWord 8 header 152 = some 0 := hread 18 (by omega)
  have r19 : readWord 8 header W_CRC_OFF = some crcOff := hread 19 (by omega)
  have r20 : readWord 8 header W_PIECE_SHIFT = some PIECE_SHIFT := hread 20 (by omega)
  have hcapPos : 0 < t.cap := by rw [hk]; exact Nat.two_pow_pos k
  have hpow : ¬ (t.cap = 0 ∨ ¬ t.cap.isPowerOfTwo) := by
    rintro (h0 | h0)
    · omega
    · exact h0 ⟨k, hk⟩
  have hlive : FlatIndex.liveDir t.dirOff n 0 0 = some (t.dirOff, n) := if_pos rfl
  have hsums : checksumWords header = some (some (crcOff, PIECE_SHIFT)) := by
    rw [checksumWords, r19, r20]
    simp only [Option.bind_eq_bind, Option.bind_some]
    rw [if_neg hcrc, if_neg (by norm_num [PIECE_SHIFT])]
  rw [Flatindex.Header.parse, if_neg (by simp [hflat])]
  simp only [r0, r6, r7, r8, r9, r10, r11, r12, r13, r14, r15, r16, r17, r18,
    Option.bind_eq_bind, Option.bind_some, if_neg hpow, hlive, if_neg (Nat.not_lt.mpr hkeys), hsums]
  exact ⟨_, rfl, rfl, rfl, rfl, rfl, rfl, rfl, rfl, rfl, rfl⟩

/-! ## The copies -/

namespace Reserve

open SegmentWriter

/-- Pieces no longer than the planner's, laid one behind the other from the reserve's start, end
within the planner's reserve. -/
lemma fits_le {table row fence dir : ℕ} {r : Pieces} (ht : table ≤ r.table) (hr : row ≤ r.row)
    (hf : fence ≤ r.fence) (hd : dir ≤ r.directory) :
    table + 8 ≤ r.bytes ∧ alignUp (SUPER + table) 8 + row ≤ SUPER + r.bytes ∧
      alignUp (alignUp (SUPER + table) 8 + row) 8 + fence ≤ SUPER + r.bytes ∧
      alignUp (alignUp (alignUp (SUPER + table) 8 + row) 8 + fence) 8 + dir ≤ SUPER + r.bytes := by
  have hshift : ∀ n, alignUp (SUPER + n) 8 = SUPER + alignUp n 8 :=
    fun n => alignUp_add (by norm_num) (by decide)
  have h0 : alignUp table 8 ≤ alignUp r.table 8 := alignUp_mono ht 8
  have h1 : alignUp (alignUp table 8 + row) 8 ≤ alignUp (alignUp r.table 8 + r.row) 8 :=
    alignUp_mono (Nat.add_le_add h0 hr) 8
  have h2 := alignUp_mono (Nat.add_le_add h1 hf) 8
  have hup1 := le_alignUp (alignUp r.table 8 + r.row) (by norm_num : 0 < 8)
  have hup2 := le_alignUp (alignUp (alignUp r.table 8 + r.row) 8 + r.fence) (by norm_num : 0 < 8)
  have hall : alignUp (alignUp (alignUp r.table 8 + r.row) 8 + r.fence) 8 + r.directory ≤ r.bytes :=
    le_max_left _ _
  have hspare : r.table + 8 ≤ r.bytes := le_max_right _ _
  rw [hshift, Nat.add_assoc, hshift, Nat.add_assoc, hshift]
  omega

/-- A copy that fits is laid down, and the next one may go behind it.  What ends in front of it or
starts behind the reserve stays. -/
lemma copyInto_ok (file : Bytes) (off : ℕ) {stop at0 len : ℕ} (hat : 8 ∣ at0)
    (hfit : at0 + len ≤ stop) (hstop : stop ≤ file.length) (hoff : off + len ≤ file.length) :
    ∃ file' c, copyInto file stop at0 off len = .ok (file', c, alignUp (at0 + len) 8) ∧
      file'.length = file.length ∧
      (0 < len → ∃ x, c = some (at0, x) ∧ x.length = len ∧ HasAt file off x ∧ HasAt file' at0 x) ∧
      ∀ pos x, HasAt file pos x → pos + x.length ≤ at0 ∨ stop ≤ pos → HasAt file' pos x := by
  rw [copyInto]
  by_cases hlen : 0 < len
  · have hget : getRange file off (off + len) = some (slice file off (off + len)) :=
      if_pos ⟨Nat.le_add_right _ _, hoff⟩
    have hslice : (slice file off (off + len)).length = len := by
      rw [length_slice_of_le hoff, Nat.add_sub_cancel_left]
    have hroom : at0 + (slice file off (off + len)).length ≤ file.length := by omega
    rw [if_pos ⟨hlen, hfit⟩, hget]
    refine ⟨_, _, rfl, length_writeAt_of_le hroom, fun _ => ⟨_, rfl, hslice, ?_, ?_⟩, ?_⟩
    · exact hasAt_slice (Nat.le_add_right _ _) hoff
    · exact hasAt_writeAt hroom
    · intro pos x hx hclear
      exact hx.writeAt hroom (by omega)
  · rw [if_neg (fun h => hlen h.1)]
    obtain rfl : len = 0 := by omega
    rw [Nat.add_zero, alignUp_of_dvd (by norm_num) hat]
    exact ⟨file, none, rfl, rfl, fun h => absurd h hlen, fun _ _ hx _ => hx⟩

/-- Where the pieces a finish copies lie in the file, behind the reserve, and that none is longer
than the planner's. -/
structure CopiesFit (w : SegmentWriter) (file table : Bytes) (keyOff : ℕ) (hdr : Flatindex.Header)
    (fence : ℕ × ℕ) (rowLen : ℕ) (r : Pieces) : Prop where
  reserveOff : w.reserveOff = SUPER
  reserve : w.opts.headReserve = r.bytes
  behind : SUPER + r.bytes ≤ keyOff
  room : SUPER + r.bytes ≤ file.length
  tableLe : table.length ≤ r.table
  rowLe : rowLen ≤ r.row
  fenceLe : fence.2 ≤ r.fence
  dirLe : hdr.nkeys * 4 ≤ r.directory
  rowIn : keyOff + hdr.crcOff + rowLen ≤ file.length
  fenceIn : keyOff + fence.1 + fence.2 ≤ file.length
  dirIn : keyOff + hdr.dirOff + hdr.nkeys * 4 ≤ file.length

/-- The `len` bytes at `src` of the file lie a second time in its reserve of `reserve` bytes, where
`c` says. -/
def CopyLaid (file : Bytes) (reserve src len : ℕ) (c : Option (ℕ × Bytes)) : Prop :=
  ∃ at0 x, c = some (at0, x) ∧ x.length = len ∧ SUPER ≤ at0 ∧ at0 + len ≤ SUPER + reserve ∧
    HasAt file at0 x ∧ HasAt file src x

variable {w : SegmentWriter} {file table header : Bytes} {keyOff : ℕ} {hdr : Flatindex.Header}
  {fence : ℕ × ℕ} {rowLen : ℕ} {r : Pieces}

/-- So the reserve is filled, and no copy is left out. -/
lemma CopiesFit.fillReserve (h : CopiesFit w file table keyOff hdr fence rowLen r) :
    ∃ file' copies, w.fillReserve file table keyOff hdr fence rowLen = .ok (file', copies) ∧
      file'.length = file.length ∧
      (0 < rowLen → CopyLaid file' r.bytes (keyOff + hdr.crcOff) rowLen copies.row) ∧
      (0 < fence.2 → CopyLaid file' r.bytes (keyOff + fence.1) fence.2 copies.fence) ∧
      (0 < hdr.nkeys →
        CopyLaid file' r.bytes (keyOff + hdr.dirOff) (hdr.nkeys * 4) copies.dir) := by
  obtain ⟨htable, hrow, hfence, hdir⟩ := fits_le h.tableLe h.rowLe h.fenceLe h.dirLe
  have hroom := h.room
  have hbehind := h.behind
  have hlen : (writeAt file w.reserveOff table).length = file.length := by
    rw [h.reserveOff]
    exact length_writeAt_of_le (by omega)
  rw [SegmentWriter.fillReserve, h.reserve]
  dsimp only
  rw [h.reserveOff] at hlen ⊢
  have hlo₁ := le_alignUp (SUPER + table.length) (by norm_num : 0 < 8)
  have hlo₂ := le_alignUp (alignUp (SUPER + table.length) 8 + rowLen) (by norm_num : 0 < 8)
  have hlo₃ := le_alignUp (alignUp (alignUp (SUPER + table.length) 8 + rowLen) 8 + fence.2)
    (by norm_num : 0 < 8)
  obtain ⟨file₁, row, hc₁, hl₁, hs₁, hk₁⟩ := copyInto_ok (writeAt file SUPER table)
    (keyOff + hdr.crcOff) (dvd_alignUp (SUPER + table.length) 8) hrow (by omega)
    (by rw [hlen]; exact h.rowIn)
  obtain ⟨file₂, fen, hc₂, hl₂, hs₂, hk₂⟩ := copyInto_ok file₁ (keyOff + fence.1)
    (dvd_alignUp (alignUp (SUPER + table.length) 8 + rowLen) 8) hfence (by omega)
    (by rw [hl₁, hlen]; exact h.fenceIn)
  obtain ⟨file₃, dir, hc₃, hl₃, hs₃, hk₃⟩ := copyInto_ok file₂ (keyOff + hdr.dirOff)
    (dvd_alignUp (alignUp (alignUp (SUPER + table.length) 8 + rowLen) 8 + fence.2) 8) hdir
    (by omega) (by rw [hl₂, hl₁, hlen]; exact h.dirIn)
  -- a copy laid stays: the later ones go behind it, and its source lies behind the reserve
  refine ⟨file₃, ⟨row, fen, dir⟩, ?_, by rw [hl₃, hl₂, hl₁, hlen], fun hpos => ?_, fun hpos => ?_,
    fun hpos => ?_⟩
  · rw [hc₁]
    simp only [bind, Except.bind]
    rw [hc₂]
    simp only
    rw [hc₃]
  · obtain ⟨x, hc, hx, hsrc, hat⟩ := hs₁ hpos
    refine ⟨_, x, hc, hx, by omega, by omega, ?_, ?_⟩
    · exact hk₃ _ _ (hk₂ _ _ hat (Or.inl (by omega))) (Or.inl (by omega))
    · exact hk₃ _ _ (hk₂ _ _ (hk₁ _ _ hsrc (Or.inr (by omega))) (Or.inr (by omega)))
        (Or.inr (by omega))
  · obtain ⟨x, hc, hx, hsrc, hat⟩ := hs₂ hpos
    refine ⟨_, x, hc, hx, by omega, by omega, ?_, ?_⟩
    · exact hk₃ _ _ hat (Or.inl (by omega))
    · exact hk₃ _ _ (hk₂ _ _ hsrc (Or.inr (by omega))) (Or.inr (by omega))
  · obtain ⟨x, hc, hx, hsrc, hat⟩ := hs₃ (by omega)
    exact ⟨_, x, hc, hx, by omega, by omega, hat, hk₃ _ _ hsrc (Or.inr (by omega))⟩

/-! ## The head that names them -/

/-- The `len` bytes at `at0` lie in the reserve of `reserve` bytes and are those at `src`. -/
structure CopyAt (file : Bytes) (reserve src at0 len : ℕ) : Prop where
  start : SUPER ≤ at0
  stop : at0 + len ≤ SUPER + reserve
  same : file.length < 2 ^ 64 → slice file at0 (at0 + len) = slice file src (src + len)

/-- What a head reads back of a segment of `n` keys and `blocks` blocks: its reserve of `reserve`
bytes holds the table and a copy of the row, of the fence and of the directory, the last two with
their checksums. -/
structure Placed (file : Bytes) (n blocks reserve : ℕ) (ext : SuperExt) : Prop where
  table : ext.tableCopy = some (SUPER, blockTableLen blocks) ∧ blockTableLen blocks ≤ reserve
  row : 0 < ext.row.2 ∧
    ∃ at0, ext.rowCopy = some at0 ∧ CopyAt file reserve ext.row.1 at0 ext.row.2
  fence : 0 < n → 0 < ext.fence.2 ∧
    ∃ at0, ext.fenceCopy = some (at0, ext.fence.2, crc32 (slice file at0 (at0 + ext.fence.2))) ∧
      CopyAt file reserve ext.fence.1 at0 ext.fence.2
  directory : 0 < n → ext.dir.2 = n * 4 ∧
    ∃ at0, ext.dirCopy = some (at0, crc32 (slice file at0 (at0 + n * 4))) ∧
      CopyAt file reserve ext.dir.1 at0 (n * 4)

/-- The page is as long as a reserve's start says, and holds the superblock twice and the
extension. -/
lemma superPage_spec {fields : List ℕ} {ext : SuperExt} (generation : ℕ)
    (hfields : fields.length = Format.SB_FIELDS)
    (hheader : ext.header.length = Format.HEADER_BYTES) :
    (superPage fields ext generation).length = SUPER ∧
      HasAt (superPage fields ext generation) 0 (superblock fields) ∧
      HasAt (superPage fields ext generation) Format.SLOT (superblock fields) ∧
      HasAt (superPage fields ext generation) Format.SX_OFF (encodeSuperExt ext generation) := by
  have hsb : (superblock fields).length = Format.SUPER_BYTES := by
    simp only [superblock, List.length_append, length_flatMap_leBytes, length_leBytes, hfields]
    rfl
  have hx := length_encodeSuperExt generation hheader
  have h₀ : (List.replicate SUPER (0 : UInt8)).length = SUPER := List.length_replicate
  have h₁ : (writeAt (List.replicate SUPER 0) 0 (superblock fields)).length = SUPER := by
    rw [length_writeAt_of_le (by rw [h₀, hsb]; decide), h₀]
  have h₂ : (writeAt (writeAt (List.replicate SUPER 0) 0 (superblock fields)) Format.SLOT
      (superblock fields)).length = SUPER := by
    rw [length_writeAt_of_le (by rw [h₁, hsb]; decide), h₁]
  have hfit : Format.SX_OFF + (encodeSuperExt ext generation).length ≤ (writeAt
      (writeAt (List.replicate SUPER 0) 0 (superblock fields)) Format.SLOT
      (superblock fields)).length := by
    rw [h₂, hx]
    decide
  have hfirst : HasAt (writeAt (List.replicate SUPER 0) 0 (superblock fields)) 0
      (superblock fields) := hasAt_writeAt (by rw [h₀, hsb]; decide)
  have hsecond : HasAt (writeAt (writeAt (List.replicate SUPER 0) 0 (superblock fields)) Format.SLOT
      (superblock fields)) Format.SLOT (superblock fields) :=
      hasAt_writeAt (by rw [h₁, hsb]; decide)
  refine ⟨(length_writeAt_of_le hfit).trans h₂, ?_, ?_, hasAt_writeAt hfit⟩
  · refine (hfirst.writeAt ?_ (Or.inl ?_)).writeAt hfit (Or.inl ?_)
    · rw [h₁, hsb]
      decide
    · rw [hsb]
      decide
    · rw [hsb]
      decide
  · refine hsecond.writeAt hfit (Or.inl ?_)
    rw [hsb]
    decide

/-- A copy in the file under the page, as the extension read back of the page names it. -/
lemma CopyLaid.at {page : Bytes} {reserve src len : ℕ} {c : Option (ℕ × Bytes)}
    (h : CopyLaid file reserve src len c) (hpage : page.length = SUPER)
    (hsrc : SUPER ≤ src) (hlen : src + len ≤ file.length) :
    ∃ at0 x, c = some (at0, x) ∧ x.length = len ∧ SUPER ≤ at0 ∧ at0 + len ≤ SUPER + reserve ∧
      slice (writeAt file 0 page) at0 (at0 + len) = x ∧
      CopyAt (writeAt file 0 page) reserve (src % 2 ^ 64) at0 len := by
  obtain ⟨at0, x, hc, hx, hlo, hhi, hat, hsame⟩ := h
  have hfit : 0 + page.length ≤ file.length := by omega
  have hat' := hat.writeAt hfit (Or.inr (by omega))
  have hsame' := hsame.writeAt hfit (Or.inr (by omega))
  rw [HasAt, hx] at hat' hsame'
  refine ⟨at0, x, hc, hx, hlo, hhi, hat', hlo, hhi, fun hsmall => ?_⟩
  rw [length_writeAt_of_le hfit] at hsmall
  rw [hat', Nat.mod_eq_of_lt (by omega), hsame']

/-- A head whose pieces fit names a copy of each. -/
lemma writeHead_placed (host : Host) {keyLen blocks generation : ℕ}
    (hparse : Flatindex.Header.parse header = some hdr)
    (hheader : header.length = Format.HEADER_BYTES) (hgen : generation < 2 ^ 64)
    (hcrc : hdr.crcOff ≠ 0) (hsmall : SUPER + r.bytes < 2 ^ 64)
    (hrow : 0 < checksumRowLen hdr.crcOff hdr.pieceShift keyOff)
    (hfence : 0 < hdr.nkeys → 0 < (fenceSpan hdr keyLen).2)
    (htableLen : table.length = blockTableLen blocks)
    (h : CopiesFit w file table keyOff hdr (fenceSpan hdr keyLen)
      (checksumRowLen hdr.crcOff hdr.pieceShift keyOff) r) :
    ∃ file' ext, w.writeHead host file table header keyOff keyLen SUPER generation = .ok file' ∧
      decodeSuperExt file' generation = some ext ∧
      Placed file' hdr.nkeys blocks r.bytes ext := by
  have hspare := (fits_le h.tableLe h.rowLe h.fenceLe h.dirLe).1
  have htable : w.tableInReserve table = true := by
    rw [tableInReserve, h.reserveOff, h.reserve]
    simp [SUPER, hspare]
  obtain ⟨file₁, copies, hfill, hlen₁, hs₁, hs₂, hs₃⟩ := h.fillReserve
  have hroom := h.room
  have hbehind := h.behind
  rw [writeHead, hparse]
  simp only [if_pos hcrc, if_pos htable, hfill, bind, Except.bind]
  set fields := [generation, generation, host.now, keyOff, keyLen, keyLen, SUPER, table.length,
    table.length, 0, 0, 0, w.pos, 0, 0, generation]
  set ext : SuperExt :=
    { fence := (keyOff + (fenceSpan hdr keyLen).1, (fenceSpan hdr keyLen).2)
      dir := (keyOff + hdr.dirOff, hdr.nkeys * 4), hash := (keyOff + hdr.hashOff, hdr.hashCap * 8)
      row := (keyOff + hdr.crcOff, checksumRowLen hdr.crcOff hdr.pieceShift keyOff)
      tableCopy := some (SUPER, table.length)
      fenceCopy := copies.fence.map (fun c => (c.1, c.2.length, crc32 c.2))
      rowCopy := copies.row.map Prod.fst, dirCopy := copies.dir.map (fun c => (c.1, crc32 c.2))
      payload := if 0 < w.payload then some w.payload else none, header := header } with hext
  obtain ⟨hpage, -, -, hat⟩ := @superPage_spec fields ext generation rfl hheader
  set page := superPage fields ext generation
  have hfile : writeAt file₁ 0 page = page ++ file₁.drop page.length := by
    rw [writeAt_of_le (by omega), Nat.zero_add, List.take_zero, List.nil_append]
  have hat' : HasAt (writeAt file₁ 0 page) Format.SX_OFF (encodeSuperExt ext generation) := by
    have hle := length_encodeSuperExt (x := ext) generation hheader
    rw [hfile, HasAt, slice_append_left (by rw [hpage, hle]; decide)]
    exact hat
  refine ⟨_, _, rfl, decodeSuperExt_eq hat' hheader hgen, ?_⟩
  have hlen : ∀ {src len}, src + len ≤ file.length → src + len ≤ file₁.length := by
    intro src len hle
    rw [hlen₁]
    exact hle
  obtain ⟨at₁, x₁, hc₁, -, hlo₁, hhi₁, -, hcopy₁⟩ :=
    (hs₁ hrow).at hpage (by omega) (hlen h.rowIn)
  have hmod : ∀ {n : ℕ}, n ≤ SUPER + r.bytes → n % 2 ^ 64 = n :=
    fun hn => Nat.mod_eq_of_lt (by omega)
  have hcrc : ∀ c : BitVec 32, BitVec.ofNat 32 (c.toNat % 2 ^ 64) = c := by
    intro c
    rw [Nat.mod_eq_of_lt (lt_trans c.isLt (by norm_num)), BitVec.ofNat_toNat, BitVec.setWidth_eq]
  have hS : SUPER = 4096 := rfl
  refine ⟨⟨?_, by omega⟩, ⟨?_, at₁, ?_, ?_⟩, fun hn => ?_, fun hn => ?_⟩
  · show (if 0 < table.length % 2 ^ 64 then some (SUPER % 2 ^ 64, table.length % 2 ^ 64) else none)
      = _
    have hpos : 0 < blockTableLen blocks := by
      rw [blockTableLen, BLK_HEADER]
      omega
    rw [hmod (by omega), hmod (by omega), htableLen, if_pos hpos]
  · show 0 < checksumRowLen hdr.crcOff hdr.pieceShift keyOff % 2 ^ 64
    rw [hmod (by omega)]
    exact hrow
  · show (if 0 < (copies.row.map Prod.fst).getD 0 % 2 ^ 64 then
      some ((copies.row.map Prod.fst).getD 0 % 2 ^ 64) else none) = some at₁
    rw [hc₁, Option.map_some, Option.getD_some, hmod (by omega), if_pos (by omega)]
  · show CopyAt _ _ ((keyOff + hdr.crcOff) % 2 ^ 64) _
      (checksumRowLen hdr.crcOff hdr.pieceShift keyOff % 2 ^ 64)
    rw [hmod (by omega : checksumRowLen hdr.crcOff hdr.pieceShift keyOff ≤ _)]
    exact hcopy₁
  · obtain ⟨at₂, x₂, hc₂, hx₂, hlo₂, hhi₂, hslice₂, hcopy₂⟩ :=
      (hs₂ (hfence hn)).at hpage (by omega) (hlen h.fenceIn)
    have hfenceLen : (fenceSpan hdr keyLen).2 % 2 ^ 64 = (fenceSpan hdr keyLen).2 :=
      hmod (by omega)
    refine ⟨?_, at₂, ?_, ?_⟩
    · show 0 < (fenceSpan hdr keyLen).2 % 2 ^ 64
      rw [hfenceLen]
      exact hfence hn
    · simp only [SuperExt.ofWords, SuperExt.words, hext, hc₂, Option.map_some, Option.getD_some,
        List.getD_cons_succ, List.getD_cons_zero, hfenceLen, hx₂, hslice₂, hcrc,
        hmod (show at₂ ≤ SUPER + r.bytes by omega), if_pos (hfence hn)]
    · show CopyAt _ _ ((keyOff + (fenceSpan hdr keyLen).1) % 2 ^ 64) _
        ((fenceSpan hdr keyLen).2 % 2 ^ 64)
      rw [hfenceLen]
      exact hcopy₂
  · obtain ⟨at₃, x₃, hc₃, hx₃, hlo₃, hhi₃, hslice₃, hcopy₃⟩ :=
      (hs₃ hn).at hpage (by omega) (hlen h.dirIn)
    have hdirLen : hdr.nkeys * 4 % 2 ^ 64 = hdr.nkeys * 4 := hmod (by omega)
    refine ⟨hdirLen, at₃, ?_, hcopy₃⟩
    simp only [SuperExt.ofWords, SuperExt.words, hext, hc₃, Option.map_some, Option.getD_some,
      List.getD_cons_succ, List.getD_cons_zero, hslice₃, hcrc,
      hmod (show at₃ ≤ SUPER + r.bytes by omega), if_pos (show 0 < at₃ by omega)]

end Reserve

end Supdb
