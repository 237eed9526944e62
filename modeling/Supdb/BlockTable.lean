import Supdb.Block

/-!
# The block table

The block table is a header, an entry a block, and a row of chunk checksums a block.  It is read
where it lies, so a reader asks that its entries are aligned: `base` is the address the table's
section lies at.
-/

namespace Supdb

open StorageLib

/-- The table's mark, `SBLK`. -/
def BLK_MAGIC : ℕ := 0x4B4C4253

/-- Bytes of the table's header. -/
def BLK_HEADER : ℕ := 16

/-- Bytes of an entry. -/
def BLK_ENTRY : ℕ := 32

/-- Bytes of a block's chunk checksums. -/
def CRC_ROW : ℕ := MAX_CHUNK_CRCS * 4

/-- `block_table_len`. -/
def blockTableLen (blocks : ℕ) : ℕ := BLK_HEADER + blocks * BLK_ENTRY + blocks * CRC_ROW

/-- The flags byte of an entry: bit 0 solo, bit 1 chunked, bit 2 chunk checksums. -/
def BlockLoc.flags (b : BlockLoc) : ℕ :=
  b.solo.toNat + b.chunked.toNat * 2 + b.chunkCrc.toNat * 4

/-- `BlockRec::of`: an entry as it sits in the file. -/
def blockRec (b : BlockLoc) : Bytes :=
  leBytes 8 b.off ++ (leBytes 4 b.stored ++ (leBytes 4 b.uncompressed ++ (leBytes 4 b.cap ++
    (leBytes 4 b.crc.toNat ++ (leBytes 1 b.flags ++ List.replicate 7 0)))))

/-- `BlockRec::to_loc`. -/
def toLoc (rec : Bytes) : BlockLoc :=
  let flags := leNat (slice rec 24 25)
  { off := leNat (slice rec 0 8), stored := leNat (slice rec 8 12)
    uncompressed := leNat (slice rec 12 16), cap := leNat (slice rec 16 20)
    crc := BitVec.ofNat 32 (leNat (slice rec 20 24)), solo := flags &&& 1 ≠ 0
    chunked := flags &&& 2 ≠ 0, chunkCrc := flags &&& 4 ≠ 0 }

/-- A block's row of chunk checksums. -/
def crcRow (row : List (BitVec 32)) : Bytes := row.flatMap (fun c => leBytes 4 c.toNat)

/-- `encode_blocks`, a row a block. -/
def encodeBlocks (blocks : List BlockLoc) (rows : List (List (BitVec 32))) : Bytes :=
  leBytes 4 BLK_MAGIC ++ (leBytes 4 BLK_ENTRY ++ (leBytes 8 blocks.length ++
    (blocks.flatMap blockRec ++ rows.flatMap crcRow)))

/-- A table found readable: how many entries it has, behind its header. -/
structure MappedBlocks where
  n : ℕ
  deriving DecidableEq, Repr

namespace MappedBlocks

/-- `MappedBlocks::parse`. -/
def parse (base : ℕ) (sec : Bytes) : Option MappedBlocks := do
  let magic ← readWord 4 sec 0
  if magic ≠ BLK_MAGIC then none
  else
    let entry ← readWord 4 sec 4
    if entry ≠ BLK_ENTRY then none
    else
      let n ← readWord 8 sec 8
      if 2 ^ 64 ≤ BLK_HEADER + n * BLK_ENTRY then none
      else
        let _ ← getRange sec BLK_HEADER (BLK_HEADER + n * BLK_ENTRY)
        if (base + BLK_HEADER) % 8 ≠ 0 then none else some ⟨n⟩

/-- `MappedBlocks::get`: the entry of block `i`. -/
def get (m : MappedBlocks) (base : ℕ) (sec : Bytes) (i : ℕ) : Option BlockLoc :=
  if m.n ≤ i then none
  else do
    let at0 := BLK_HEADER + i * BLK_ENTRY
    let rec ← getRange sec at0 (at0 + BLK_ENTRY)
    if (base + at0) % 8 ≠ 0 then none else some (toLoc rec)

/-- `MappedBlocks::chunk_crc`: the checksum of chunk `j` of block `i`. -/
def chunkCrc (m : MappedBlocks) (sec : Bytes) (i j : ℕ) : Option ℕ :=
  if m.n ≤ i ∨ MAX_CHUNK_CRCS ≤ j then none
  else readWord 4 sec (BLK_HEADER + m.n * BLK_ENTRY + i * CRC_ROW + j * 4)

end MappedBlocks

/-! ## What was written is read back -/

/-- A block location whose fields fit the entry's. -/
structure BlockLoc.Fits (b : BlockLoc) : Prop where
  off : b.off < 2 ^ 64
  stored : b.stored < 2 ^ 32
  uncompressed : b.uncompressed < 2 ^ 32
  cap : b.cap < 2 ^ 32

@[simp] lemma length_blockRec (b : BlockLoc) : (blockRec b).length = BLK_ENTRY := by
  simp [blockRec, BLK_ENTRY]

/-- An entry is read back as the location it was written from. -/
lemma toLoc_blockRec {b : BlockLoc} (h : b.Fits) : toLoc (blockRec b) = b := by
  obtain ⟨off, stored, unc, cap, chunked, crc, chunkCrc, solo⟩ := b
  obtain ⟨h1, h2, h3, h4⟩ := h
  dsimp only at h1 h2 h3 h4
  set rec := blockRec ⟨off, stored, unc, cap, chunked, crc, chunkCrc, solo⟩ with hrec
  have s1 : slice rec 0 8 = leBytes 8 off := slice_append_right [] (leBytes 8 off) _
  have s2 : slice rec 8 12 = leBytes 4 stored := slice_append_mid (by simp) (by simp)
  have s3 : slice rec 12 16 = leBytes 4 unc := by
    rw [hrec, blockRec, slice_append_of_le (by simp) (by simp)]
    exact slice_append_mid (by simp) (by simp)
  have s4 : slice rec 16 20 = leBytes 4 cap := by
    rw [hrec, blockRec, slice_append_of_le (by simp) (by simp),
      slice_append_of_le (by simp) (by simp)]
    exact slice_append_mid (by simp) (by simp)
  have s5 : slice rec 20 24 = leBytes 4 crc.toNat := by
    rw [hrec, blockRec, slice_append_of_le (by simp) (by simp),
      slice_append_of_le (by simp) (by simp), slice_append_of_le (by simp) (by simp)]
    exact slice_append_mid (by simp) (by simp)
  have s6 : slice rec 24 25
      = leBytes 1 (solo.toNat + chunked.toNat * 2 + chunkCrc.toNat * 4) := by
    rw [hrec, blockRec, slice_append_of_le (by simp) (by simp),
      slice_append_of_le (by simp) (by simp), slice_append_of_le (by simp) (by simp),
      slice_append_of_le (by simp) (by simp)]
    exact slice_append_mid (by simp) (by simp [BlockLoc.flags])
  have hflags : leNat (leBytes 1 (solo.toNat + chunked.toNat * 2 + chunkCrc.toNat * 4))
      = solo.toNat + chunked.toNat * 2 + chunkCrc.toNat * 4 := by
    refine leNat_leBytes ?_
    cases solo <;> cases chunked <;> cases chunkCrc <;> decide
  have hcrc : BitVec.ofNat 32 crc.toNat = crc := by simp
  rw [toLoc, s1, s2, s3, s4, s5, s6, hflags, leNat_leBytes (lt_of_lt_of_le h1 (by norm_num)),
    leNat_leBytes (lt_of_lt_of_le h2 (by norm_num)),
    leNat_leBytes (lt_of_lt_of_le h3 (by norm_num)),
    leNat_leBytes (lt_of_lt_of_le h4 (by norm_num)),
    leNat_leBytes (lt_of_lt_of_le crc.isLt (by norm_num)), hcrc]
  cases solo <;> cases chunked <;> cases chunkCrc <;> rfl

lemma length_flatMap_of {α : Type} (f : α → Bytes) (w : ℕ) (l : List α)
    (h : ∀ x ∈ l, (f x).length = w) : (l.flatMap f).length = l.length * w := by
  induction l with
  | nil => simp
  | cons x l ih =>
      rw [List.flatMap_cons, List.length_append, h x (List.mem_cons_self ..),
        ih (fun y hy => h y (List.mem_cons_of_mem _ hy)), List.length_cons, Nat.add_mul, one_mul,
        Nat.add_comm]

/-- The `i`-th of items of one width laid end to end. -/
lemma getRange_flatMap_of {α : Type} (f : α → Bytes) (w : ℕ) (l : List α)
    (h : ∀ x ∈ l, (f x).length = w) {i : ℕ} (hi : i < l.length) :
    getRange (l.flatMap f) (i * w) (i * w + w) = some (f l[i]) := by
  have hsplit : l.flatMap f = (l.take i).flatMap f ++ (f l[i] ++ (l.drop (i + 1)).flatMap f) := by
    conv_lhs => rw [← List.take_append_drop i l, List.drop_eq_getElem_cons hi]
    rw [List.flatMap_append, List.flatMap_cons]
  have hlen : ((l.take i).flatMap f).length = i * w := by
    rw [length_flatMap_of f w _ (fun x hx => h x (List.mem_of_mem_take hx)), List.length_take,
      min_eq_left hi.le]
  rw [hsplit]
  exact getRange_append_mid hlen.symm (by rw [hlen, h _ (List.getElem_mem hi)])

section Table

variable {blocks : List BlockLoc} {rows : List (List (BitVec 32))}

lemma length_crcRow {row : List (BitVec 32)} (h : row.length = MAX_CHUNK_CRCS) :
    (crcRow row).length = CRC_ROW := by
  rw [crcRow, length_flatMap_of _ 4 row (fun _ _ => length_leBytes 4 _), h, CRC_ROW]

lemma length_encodeBlocks (hrows : ∀ r ∈ rows, r.length = MAX_CHUNK_CRCS)
    (hlen : rows.length = blocks.length) :
    (encodeBlocks blocks rows).length = blockTableLen blocks.length := by
  rw [encodeBlocks, List.length_append, List.length_append, List.length_append, List.length_append,
    length_flatMap_of blockRec BLK_ENTRY blocks (fun b _ => length_blockRec b),
    length_flatMap_of crcRow CRC_ROW rows (fun r hr => length_crcRow (hrows r hr)), hlen]
  simp only [length_leBytes, blockTableLen, BLK_HEADER]
  omega

/-- The table's entries stand behind its header, and its rows behind them. -/
lemma encodeBlocks_eq (blocks : List BlockLoc) (rows : List (List (BitVec 32))) :
    ∃ head : Bytes, head.length = BLK_HEADER ∧
      encodeBlocks blocks rows = head ++ (blocks.flatMap blockRec ++ rows.flatMap crcRow) :=
  ⟨leBytes 4 BLK_MAGIC ++ (leBytes 4 BLK_ENTRY ++ leBytes 8 blocks.length),
    by simp [BLK_HEADER], by simp only [encodeBlocks, List.append_assoc]⟩

/-- A table is readable where it lies, in an aligned section. -/
lemma parse_encodeBlocks {base : ℕ} (hbase : 8 ∣ base) (hsmall : blocks.length < 2 ^ 32) :
    MappedBlocks.parse base (encodeBlocks blocks rows) = some ⟨blocks.length⟩ := by
  have h1 : readWord 4 (encodeBlocks blocks rows) 0 = some BLK_MAGIC := by
    have hs : encodeBlocks blocks rows = [] ++ (leBytes 4 BLK_MAGIC ++ (leBytes 4 BLK_ENTRY ++
        leBytes 8 blocks.length ++ (blocks.flatMap blockRec ++ rows.flatMap crcRow))) := by
      simp only [encodeBlocks, List.append_assoc, List.nil_append]
    rw [hs]
    exact readWord_append_mid rfl (by norm_num [BLK_MAGIC])
  have h2 : readWord 4 (encodeBlocks blocks rows) 4 = some BLK_ENTRY :=
    readWord_append_mid (by simp) (by norm_num [BLK_ENTRY])
  have h3 : readWord 8 (encodeBlocks blocks rows) 8 = some blocks.length := by
    have hs : encodeBlocks blocks rows = (leBytes 4 BLK_MAGIC ++ leBytes 4 BLK_ENTRY) ++
        (leBytes 8 blocks.length ++ (blocks.flatMap blockRec ++ rows.flatMap crcRow)) := by
      simp only [encodeBlocks, List.append_assoc]
    rw [hs]
    exact readWord_append_mid (by simp) (lt_of_lt_of_le hsmall (by norm_num))
  have hentries : getRange (encodeBlocks blocks rows) BLK_HEADER
      (BLK_HEADER + blocks.length * BLK_ENTRY) = some (blocks.flatMap blockRec) := by
    obtain ⟨head, hhead, heq⟩ := encodeBlocks_eq blocks rows
    rw [heq]
    exact getRange_append_mid hhead.symm (by
      rw [hhead, length_flatMap_of blockRec BLK_ENTRY blocks (fun b _ => length_blockRec b)])
  have hfit : ¬ 2 ^ 64 ≤ BLK_HEADER + blocks.length * BLK_ENTRY := by
    simp only [BLK_HEADER, BLK_ENTRY]
    omega
  have halign : ¬ (base + BLK_HEADER) % 8 ≠ 0 := by
    simp only [BLK_HEADER]
    omega
  rw [MappedBlocks.parse, h1]
  simp only [Option.bind_eq_bind, Option.bind_some]
  rw [if_neg (by simp), h2]
  simp only [Option.bind_some]
  rw [if_neg (by simp), h3]
  simp only [Option.bind_some]
  rw [if_neg hfit, hentries]
  simp only [Option.bind_some]
  rw [if_neg halign]

/-- Every block's location is read back. -/
lemma get_encodeBlocks {base i : ℕ} (hbase : 8 ∣ base) (hfits : ∀ b ∈ blocks, b.Fits)
    (hi : i < blocks.length) :
    MappedBlocks.get ⟨blocks.length⟩ base (encodeBlocks blocks rows) i = some blocks[i] := by
  obtain ⟨head, hhead, heq⟩ := encodeBlocks_eq blocks rows
  have hitem := getRange_flatMap_of blockRec BLK_ENTRY blocks (fun b _ => length_blockRec b) hi
  have hget : getRange (encodeBlocks blocks rows) (BLK_HEADER + i * BLK_ENTRY)
      (BLK_HEADER + i * BLK_ENTRY + BLK_ENTRY) = some (blockRec blocks[i]) := by
    rw [heq, ← hhead, Nat.add_assoc, getRange_append_right]
    exact getRange_append hitem
  have halign : ¬ (base + (BLK_HEADER + i * BLK_ENTRY)) % 8 ≠ 0 := by
    simp only [BLK_HEADER, BLK_ENTRY]
    omega
  simp only [MappedBlocks.get]
  rw [if_neg (by omega), hget]
  simp only [Option.bind_eq_bind, Option.bind_some]
  rw [if_neg halign, toLoc_blockRec (hfits _ (List.getElem_mem hi))]

/-- Every chunk checksum is read back. -/
lemma chunkCrc_encodeBlocks {i j : ℕ} (hrows : ∀ r ∈ rows, r.length = MAX_CHUNK_CRCS)
    (hlen : rows.length = blocks.length) (hi : i < rows.length) (hj : j < MAX_CHUNK_CRCS) :
    MappedBlocks.chunkCrc ⟨blocks.length⟩ (encodeBlocks blocks rows) i j
      = (rows[i][j]?).map BitVec.toNat := by
  obtain ⟨head, hhead, heq⟩ := encodeBlocks_eq blocks rows
  have hrow : rows[i].length = MAX_CHUNK_CRCS := hrows _ (List.getElem_mem hi)
  have hitem := getRange_flatMap_of crcRow CRC_ROW rows (fun r hr => length_crcRow (hrows r hr)) hi
  have hword := getRange_flatMap_of (fun c : BitVec 32 => leBytes 4 c.toNat) 4 rows[i]
    (fun _ _ => length_leBytes 4 _) (by rw [hrow]; exact hj : j < rows[i].length)
  have hentries : (blocks.flatMap blockRec).length = blocks.length * BLK_ENTRY :=
    length_flatMap_of blockRec BLK_ENTRY blocks (fun b _ => length_blockRec b)
  have hrows' : getRange (encodeBlocks blocks rows)
      (BLK_HEADER + blocks.length * BLK_ENTRY + i * CRC_ROW)
      (BLK_HEADER + blocks.length * BLK_ENTRY + (i * CRC_ROW + CRC_ROW))
        = some (crcRow rows[i]) := by
    rw [heq, ← List.append_assoc, ← hentries, ← hhead, ← List.length_append, getRange_append_right]
    exact hitem
  have hget := getRange_getRange hrows' hword
  have hin : ¬ (blocks.length ≤ i ∨ MAX_CHUNK_CRCS ≤ j) := by omega
  rw [← Nat.add_assoc] at hget
  rw [MappedBlocks.chunkCrc, if_neg hin, readWord, hget,
    List.getElem?_eq_getElem (by rw [hrow]; exact hj), Option.map_some, Option.map_some,
    leNat_leBytes (lt_of_lt_of_le (BitVec.isLt _) (by norm_num))]

end Table

end Supdb
