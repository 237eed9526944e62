import Supdb.BlockTable
import Supdb.Section
import Supdb.SegmentWriter

/-!
# Finishing a segment

`finish` writes what is left of a segment: the key section or its trailer and checksum row, the
blocks held back, the block table, and last the head, which was left zero until then: the section
header of the records-first layout, the copies in the head reserve, and the superblock page.

* `SegmentWriter.finish` – the finished file, or the writer's refusal.
-/

namespace Supdb

open StorageLib Flatindex

/-- What a finish takes from its process: the fence size, the order several threads claim a
table's slots in, by the number of keys, and the clock. -/
structure Host where
  target : ℕ+
  claims : ℕ → ℕ → ℕ
  now : ℕ

/-- A key with its values and whether it was deleted before them: what one segment says of it. -/
structure Entry where
  key : Bytes
  values : List Bytes
  tomb : Bool
  deriving DecidableEq, Repr

namespace SegmentWriter

/-- `pad_to`. -/
def padTo (w : SegmentWriter) (align : ℕ) : SegmentWriter :=
  { w with out := w.out ++ padding w.pos align, pos := alignUp w.pos align }

/-- `key_start`. -/
def keyStart (w : SegmentWriter) : ℕ :=
  SUPER + if w.reserveOff ≠ 0 then w.opts.headReserve else 0

/-- The bytes a piece of the section is hashed from: the header's where it reaches, and the file's
behind it. -/
def pieceBytes (out header : Bytes) (keyOff a b : ℕ) : Bytes :=
  let fromHeader := min (header.length - a) (b - a)
  slice header a (a + fromHeader) ++ slice out (keyOff + (a + fromHeader)) (keyOff + b)

/-- `row_for`: the checksum row of a streamed section, whose header is not yet in the file. -/
def rowFor (out header : Bytes) (keyOff total : ℕ) : Bytes :=
  (pieces total PIECE_SHIFT keyOff).flatMap
    (fun r => leBytes 4 (crc32 (pieceBytes out header keyOff r.1 r.2)).toNat)

/-- The held blocks written, each location taking the offset it lands at. -/
def placeHeld : List Bytes → List BlockLoc → ℕ → List BlockLoc
  | bytes :: held, loc :: locs, pos =>
      { loc with off := pos } :: placeHeld held locs (pos + bytes.length)
  | _, locs, _ => locs

/-- The section of the records-first layout closed: trailer, row and held blocks.  Returns the
header, which is still to be patched in. -/
def closeSection (host : Host) (w : SegmentWriter) (generation : ℕ) :
    Except String (SegmentWriter × ℕ × ℕ × Bytes) :=
  let keyOff := w.keyStart
  match streamTrailer host.target w.keys.length w.recsLen (fun i => w.keys.getD i [])
      (fun i => (w.recOffs.getD i 0, fnv64 (w.keys.getD i []))) generation w.opts.lookahead with
  | none => .error "segment writer: key section exceeds the flat index's limits"
  | some (header, trailer, total) =>
      let header := setChecksumWords header total
      let out := w.out ++ trailer
      let row := rowFor out header keyOff total
      let pos := w.pos + trailer.length + row.length
      .ok ({ w with out := out ++ (row ++ w.pendingBlocks.flatten),
                    pos := pos + w.pendingBlocks.flatten.length,
                    blocks := placeHeld w.pendingBlocks w.blocks pos, pendingBlocks := [] },
        keyOff, total + row.length, header)

/-- The entries a blocks-first writer has kept for its section. -/
def kept (w : SegmentWriter) : List FlatEntry :=
  (w.keys.zip (w.exts.zip w.tails)).map (fun e => ⟨e.1, [e.2.1], e.2.2⟩)

/-- The section of the blocks-first layout built and written behind the blocks. -/
def appendSection (host : Host) (w : SegmentWriter) (generation : ℕ) :
    Except String (SegmentWriter × ℕ × ℕ × Bytes) :=
  match encodeInline host.target (host.claims w.keys.length) w.kept generation fnv64 with
  | none => .error "segment writer: key section exceeds the flat index's limits"
  | some (sec, reserve) =>
      let w := w.padTo 8
      let keyOff := w.pos
      let sec := if reserve ≤ sec.length then withChecksums sec keyOff else sec
      let keyLen := max reserve sec.length
      .ok ({ w with out := w.out ++ (sec ++ List.replicate (keyLen - sec.length) 0),
                    pos := w.pos + keyLen },
        keyOff, keyLen, sec.take HEADER)

/-- Whether the block table goes into the head reserve. -/
def tableInReserve (w : SegmentWriter) (table : Bytes) : Bool :=
  w.reserveOff ≠ 0 ∧ table.length + 8 ≤ w.opts.headReserve

/-- The block table written, unless it goes into the reserve; and where it lies. -/
def placeTable (w : SegmentWriter) : SegmentWriter × Bytes × ℕ :=
  let table := encodeBlocks w.blocks w.chunkRows
  if w.tableInReserve table then (w, table, w.reserveOff)
  else
    let w := w.padTo 8
    ({ w with out := w.out ++ table, pos := w.pos + table.length }, table, w.pos)

/-- A copy of `len` bytes of the file laid into the reserve at `at0` when it fits: the file, where
the copy lies and what it holds, and where the next one goes. -/
def copyInto (file : Bytes) (stop at0 off len : ℕ) :
    Except String (Bytes × Option (ℕ × Bytes) × ℕ) :=
  if 0 < len ∧ at0 + len ≤ stop then
    match getRange file off (off + len) with
    | none => .error "failed to fill whole buffer"
    | some bytes => .ok (writeAt file at0 bytes, some (at0, bytes), alignUp (at0 + len) 8)
  else .ok (file, none, at0)

/-- The copies a reserve holds behind the table. -/
structure Copies where
  row : Option (ℕ × Bytes)
  fence : Option (ℕ × Bytes)
  dir : Option (ℕ × Bytes)

/-- The reserve filled: the table, then the checksum row, the fence and the directory, each when it
fits. -/
def fillReserve (w : SegmentWriter) (file table : Bytes) (keyOff : ℕ) (hdr : Flatindex.Header)
    (fence : ℕ × ℕ) (rowLen : ℕ) : Except String (Bytes × Copies) := do
  let file := writeAt file w.reserveOff table
  let stop := w.reserveOff + w.opts.headReserve
  let at0 := alignUp (w.reserveOff + table.length) 8
  let (file, row, at1) ← copyInto file stop at0 (keyOff + hdr.crcOff) rowLen
  let (file, fence, at2) ← copyInto file stop at1 (keyOff + fence.1) fence.2
  let (file, dir, _) ← copyInto file stop at2 (keyOff + hdr.dirOff) (hdr.nkeys * 4)
  .ok (file, ⟨row, fence, dir⟩)

/-- The superblock page. -/
def superPage (fields : List ℕ) (ext : SuperExt) (generation : ℕ) : Bytes :=
  let sb := superblock fields
  writeAt (writeAt (writeAt (List.replicate SUPER 0) 0 sb) Format.SLOT sb) Format.SX_OFF
    (encodeSuperExt ext generation)

/-- The head of a file whose every other byte is written: the reserve's copies and the page. -/
def writeHead (host : Host) (w : SegmentWriter) (file table header : Bytes)
    (keyOff keyLen blkOff generation : ℕ) : Except String Bytes :=
  match Flatindex.Header.parse header with
  | none => .error "segment writer: the header it wrote does not parse"
  | some hdr => do
      let fence := fenceSpan hdr keyLen
      let rowLen := if hdr.crcOff ≠ 0 then checksumRowLen hdr.crcOff hdr.pieceShift keyOff else 0
      let (file, copies) ← if w.tableInReserve table then
          w.fillReserve file table keyOff hdr fence rowLen
        else .ok (file, ⟨none, none, none⟩)
      let ext : SuperExt :=
        { fence := (keyOff + fence.1, fence.2), dir := (keyOff + hdr.dirOff, hdr.nkeys * 4)
          hash := (keyOff + hdr.hashOff, hdr.hashCap * 8), row := (keyOff + hdr.crcOff, rowLen)
          tableCopy := if w.tableInReserve table then some (blkOff, table.length) else none
          fenceCopy := copies.fence.map (fun c => (c.1, c.2.length, crc32 c.2))
          rowCopy := copies.row.map Prod.fst
          dirCopy := copies.dir.map (fun c => (c.1, crc32 c.2))
          payload := if 0 < w.payload then some w.payload else none
          header := header }
      let fields := [generation, generation, host.now, keyOff, keyLen, keyLen, blkOff,
        table.length, table.length, 0, 0, 0, w.pos, 0, 0, generation]
      .ok (writeAt file 0 (superPage fields ext generation))

/-- `finish`: the finished file. -/
def finish (host : Host) (lz : Lz4) (w : SegmentWriter) (generation : ℕ) : Except String Bytes :=
  if w.openKey.isSome then .error "segment writer: finish with a key still open"
  else
    let (w, layout) := w.layout
    let w := (flushBlock lz w).sync
    match layout with
    | .recordsFirst => do
        let (w, keyOff, keyLen, header) ← w.closeSection host generation
        let (w, table, blkOff) := w.placeTable
        w.writeHead host (writeAt w.out keyOff header) table header keyOff keyLen blkOff generation
    | .blocksFirst => do
        let (w, table, blkOff) := w.placeTable
        let (w, keyOff, keyLen, header) ← w.appendSection host generation
        w.writeHead host w.out table header keyOff keyLen blkOff generation

/-- `begin`, a `value` each and `end_with`. -/
def addEntry (lz : Lz4) (w : SegmentWriter) (e : Entry) : Except String SegmentWriter := do
  let w ← w.begin e.key
  (e.values.foldl value w).endWith lz e.tomb

end SegmentWriter

end Supdb
