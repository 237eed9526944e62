import Supdb.FlatIndex
import Supdb.Superblock

/-!
# The segment writer

`SegmentWriter` takes keys in order, each with its values, and writes a segment.  It has two
layouts: **records first**, when runs may go inline, where each key's record streams out as the key
is closed; and **blocks first**, where blocks stream and the key section is built at the end.  A
*marking* writer holds the records of a batch until `mark`, which hashes them, writes them, and
closes the batch with a commit marker.

Every call of the source that can fail is an `Except` here, with the source's own message.
`out` is everything written so far; what the source's buffering does with it is not visible to
anything modelled.
-/

namespace Supdb

open StorageLib Flatindex

/-- The two layouts the writer produces. -/
inductive Layout where
  | blocksFirst
  | recordsFirst
  deriving DecidableEq, Repr

/-- What a writer is set to before its first key. -/
structure WriterOptions where
  blockSize : ℕ
  inlineMax : ℕ
  headReserve : ℕ
  compress : Bool
  compactRecords : Bool
  marks : Bool
  checksums : Bool
  lookahead : Bool

/-- A segment being written. -/
structure SegmentWriter where
  opts : WriterOptions
  /-- Everything handed to the file. -/
  out : Bytes
  /-- The file offset the next write lands at, the batch held for a marker counted. -/
  pos : ℕ
  /-- The block being filled. -/
  builder : Bytes
  blocks : List BlockLoc
  chunkRows : List (List (BitVec 32))
  keys : List Bytes
  exts : List Ext
  openKey : Option Bytes
  raw : Bytes
  lens : List ℕ
  records : ℕ
  tails : List Bytes
  mode : Option Layout
  reserveOff : ℕ
  recsLen : ℕ
  recOffs : List ℕ
  batchBuf : Bytes
  pendingBlocks : List Bytes
  markCrc : BitVec 32
  markStart : ℕ
  /-- Key and value bytes taken in. -/
  payload : ℕ

/-- A row of no chunk checksums. -/
def emptyRow : List (BitVec 32) := List.replicate MAX_CHUNK_CRCS 0

/-- `inlines`: whether a run goes into its record rather than a block. -/
def inlines (inlineMax runLen : ℕ) : Bool := 0 < inlineMax ∧ runLen ≤ inlineMax

namespace SegmentWriter

/-- `SegmentWriter::create`, its settings applied. -/
def create (opts : WriterOptions) : SegmentWriter :=
  { opts := { opts with blockSize := max opts.blockSize 1 }
    out := List.replicate SUPER 0, pos := SUPER, builder := [], blocks := [], chunkRows := []
    keys := [], exts := [], openKey := none, raw := [], lens := [], records := 0, tails := []
    mode := none, reserveOff := 0, recsLen := 0, recOffs := [], batchBuf := [], pendingBlocks := []
    markCrc := 0, markStart := 0, payload := 0 }

/-- `layout`: decided at the first key, with the head reserve and, records first, the section
header's room laid down then. -/
def layout (w : SegmentWriter) : SegmentWriter × Layout :=
  match w.mode with
  | some m => (w, m)
  | none =>
      let m := if 0 < w.opts.inlineMax then Layout.recordsFirst else Layout.blocksFirst
      let w := if 0 < w.opts.headReserve ∧ w.reserveOff = 0 then
          { w with reserveOff := w.pos, out := w.out ++ List.replicate w.opts.headReserve 0,
                   pos := w.pos + w.opts.headReserve }
        else w
      let w := if m = .recordsFirst then
          { w with out := w.out ++ List.replicate HEADER 0, pos := w.pos + HEADER }
        else w
      ({ w with mode := some m }, m)

/-- The checks a key has to pass. -/
def checkKey (w : SegmentWriter) (key : Bytes) : Except String Unit :=
  if w.openKey.isSome then .error "segment writer: begin while a key is open"
  else if 65535 < key.length then .error "segment writer: key longer than 65,535 bytes"
  else if w.keys.getLast?.any (fun l => key ≤ l) then
    .error "segment writer: keys must arrive in strictly increasing order"
  else .ok ()

/-- `begin`. -/
def begin (w : SegmentWriter) (key : Bytes) : Except String SegmentWriter := do
  w.checkKey key
  let w := w.layout.1
  .ok { w with openKey := some key, records := 0 }

/-- `value`: one value of the open key. -/
def value (w : SegmentWriter) (v : Bytes) : SegmentWriter :=
  { w with records := (w.records + 1) % 2 ^ 32, lens := w.lens ++ [v.length % 2 ^ 32],
           raw := w.raw ++ v }

/-- The three forms a block can be stored in: chunked, compressed whole, verbatim. -/
def storedBlock (lz : Lz4) (opts : WriterOptions) (payload : Bytes) : Bytes × Bool :=
  if opts.compress ∧ CHUNK < payload.length then
    let c := writeChunkedSz lz opts.checksums payload CHUNK
    if c.length < payload.length then (c, true) else (payload, false)
  else if opts.compress then ((Supdb.compress lz payload).getD payload, false)
  else (payload, false)

/-- `flush_block`: the staged payload becomes a block, written where blocks come first and held
otherwise. -/
def flushBlock (lz : Lz4) (w : SegmentWriter) : SegmentWriter :=
  if w.builder = [] then w
  else
    let (bytes, chunked) := storedBlock lz w.opts w.builder
    let len := bytes.length % 2 ^ 32
    let uncompressed := w.builder.length % 2 ^ 32
    let row := if w.opts.checksums ∧ len = uncompressed then chunkCrcs bytes else none
    let loc : BlockLoc :=
      { off := w.pos, stored := len, uncompressed := uncompressed, cap := len, chunked := chunked,
        solo := false, chunkCrc := row.isSome
        crc := if w.opts.checksums then crc32 bytes else 0 }
    let w := { w with builder := [], blocks := w.blocks ++ [loc],
                      chunkRows := w.chunkRows ++ [row.getD emptyRow] }
    if w.mode = some .recordsFirst then { w with pendingBlocks := w.pendingBlocks ++ [bytes] }
    else { w with out := w.out ++ bytes, pos := w.pos + bytes.length }

/-- A run that goes into a block: the extent, the block flushed before it when it would overflow
and behind it when it is full. -/
def placeRun (lz : Lz4) (w : SegmentWriter) (run : Bytes) (last count : ℕ) : SegmentWriter × Ext :=
  let w := if w.builder ≠ [] ∧ w.opts.blockSize < w.builder.length + run.length then
    flushBlock lz w else w
  let ext : Ext :=
    { block := w.blocks.length % 2 ^ 32, off := w.builder.length % 2 ^ 32,
      len := run.length % 2 ^ 32, last := last, count := count }
  let w := { w with builder := w.builder ++ run }
  (if w.opts.blockSize ≤ w.builder.length then flushBlock lz w else w, ext)

/-- A record streamed: into the batch of a marking writer, else to the file. -/
def streamRecord (w : SegmentWriter) (key : Bytes) (ext : Ext) (tail : Bytes) :
    Except String SegmentWriter :=
  match streamRecordAs [] key [ext] tail w.opts.compactRecords with
  | none => .error "segment writer: record exceeds the flat index's limits"
  | some (rec, wrote) =>
      let w := if w.opts.marks then { w with batchBuf := w.batchBuf ++ rec }
        else { w with out := w.out ++ rec }
      let w := { w with pos := w.pos + wrote, recOffs := w.recOffs ++ [w.recsLen % 2 ^ 32],
                        recsLen := w.recsLen + wrote }
      if MAX_RECS < w.recsLen then
        .error "segment writer: key section exceeds the flat index's limits"
      else .ok { w with keys := w.keys ++ [key] }

/-- A key's record taken in, in either layout: streamed, or kept for the key section that follows
the blocks. -/
def addRecord (w : SegmentWriter) (m : Layout) (key : Bytes) (ext : Ext) (tail : Bytes) :
    Except String SegmentWriter :=
  match m with
  | .recordsFirst => w.streamRecord key ext tail
  | .blocksFirst =>
      .ok { w with tails := w.tails ++ [tail], exts := w.exts ++ [ext], keys := w.keys ++ [key] }

/-- A closed key's run placed, in its record or in a block, and its record taken in. -/
def addRun (lz : Lz4) (w : SegmentWriter) (key run : Bytes) (last count : ℕ) :
    Except String SegmentWriter :=
  let (w, m) := w.layout
  if inlines w.opts.inlineMax run.length then
    w.addRecord m key
      { block := Ext.INLINE, off := 0, len := run.length % 2 ^ 32, last := last, count := count }
      run
  else
    let (w, ext) := placeRun lz w run last count
    w.addRecord m key ext []

/-- The open key's staging cleared, its bytes counted. -/
def closeKey (w : SegmentWriter) (key : Bytes) (tombstone : Bool) : SegmentWriter :=
  { w with openKey := none, raw := [], lens := []
           payload := w.payload + (key.length * w.records + w.raw.length +
             if tombstone then key.length + 16 else 0) }

/-- `end_with`: close the open key. -/
def endWith (lz : Lz4) (w : SegmentWriter) (tombstone : Bool) : Except String SegmentWriter :=
  match w.openKey with
  | none => .error "segment writer: end without begin"
  | some key =>
      let (run, last, fixed) := encodeRun w.raw w.lens
      if 2 ^ 32 - 1 < run.length then
        .error "segment writer: a key's values exceed 4 GiB in one segment"
      else if Ext.FIXED ≤ w.records then
        .error "segment writer: a key's values exceed the extent's count"
      else (w.closeKey key tombstone).addRun lz key run last (countWord w.records fixed tombstone)

/-- Key and value bytes counted. -/
def countBytes (w : SegmentWriter) (n : ℕ) : SegmentWriter := { w with payload := w.payload + n }

/-- `begin`, one `value` and `end`. -/
def putThree (lz : Lz4) (w : SegmentWriter) (key value : Bytes) : Except String SegmentWriter := do
  let w ← w.begin key
  (w.value value).endWith lz false

/-- `put_one`: the three calls as one, for a value the record carries inline. -/
def putOne (lz : Lz4) (w : SegmentWriter) (key value : Bytes) : Except String SegmentWriter :=
  if value = [] ∨ ¬ inlines w.opts.inlineMax value.length then w.putThree lz key value
  else do
    w.checkKey key
    let (w, m) := w.layout
    if m ≠ .recordsFirst then w.putThree lz key value
    else
      (w.countBytes (key.length + value.length)).streamRecord key
        { block := Ext.INLINE, off := 0, len := value.length % 2 ^ 32, last := 0,
          count := countWord 1 true false } value

/-! ## Commit markers -/

/-- The tag of a marker, `SUPD`. -/
def DIRECT_MARK : Bytes := [0x53, 0x55, 0x50, 0x44]

/-- Bytes of a marker. -/
def DIRECT_MARK_LEN : ℕ := 24

/-- The hashing loop of `write_hashed`: `data` lands at `at0`, and is hashed in the parts the
piece boundaries of the file cut it into. -/
def hashPieces (data : Bytes) (at0 p : ℕ) (whole : BitVec 32) : BitVec 32 :=
  if _h : p < at0 + data.length then
    let stop := min ((p / PIECE + 1) * PIECE) (at0 + data.length)
    let chunk := slice data (p - at0) (stop - at0)
    hashPieces data at0 stop (crc32Combine whole (crc32 chunk) chunk.length)
  else whole
termination_by at0 + data.length - p
decreasing_by
  have hlt : p < (p / PIECE + 1) * PIECE := by
    have := Nat.lt_div_mul_add (a := p) (b := PIECE) (by norm_num [PIECE, PIECE_SHIFT])
    rw [Nat.add_mul, one_mul]
    exact this
  omega

/-- The batch held for a marker hashed and written, as `mark` and `sync` do it. -/
def writeBatch (w : SegmentWriter) : SegmentWriter :=
  let c := hashPieces w.batchBuf w.out.length w.out.length 0
  { w with out := w.out ++ w.batchBuf, markCrc := crc32Combine w.markCrc c w.batchBuf.length,
           batchBuf := [] }

/-- `marker_bytes`. -/
def markerBytes (crc : BitVec 32) (len count : ℕ) : Bytes :=
  leBytes 4 0 ++ (DIRECT_MARK ++ (leBytes 4 crc.toNat ++ (leBytes 4 len ++ leBytes 8 count)))

/-- `mark`: the batch closed. -/
def mark (w : SegmentWriter) : Except String SegmentWriter :=
  if w.openKey.isSome then .error "segment writer: mark while a key is open"
  else
    let (w, m) := w.layout
    if m ≠ .recordsFirst then .error "segment writer: a marker needs the records-first layout"
    else if ¬ w.opts.marks then .error "segment writer: mark on a writer not set to mark"
    else
      let w := w.writeBatch
      let m := markerBytes w.markCrc (w.recsLen - w.markStart) w.keys.length
      let recsLen := w.recsLen + DIRECT_MARK_LEN
      .ok { w with out := w.out ++ m, pos := w.pos + DIRECT_MARK_LEN, recsLen := recsLen,
                   markCrc := 0, markStart := recsLen }

/-- `sync`: a batch not yet closed is written ahead of its marker. -/
def sync (w : SegmentWriter) : SegmentWriter := if w.batchBuf = [] then w else w.writeBatch

end SegmentWriter

lemma layout_of_mode {w : SegmentWriter} {m : Layout} (h : w.mode = some m) :
    w.layout = (w, m) := by
  rw [SegmentWriter.layout, h]

end Supdb
