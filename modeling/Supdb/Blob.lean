import Supdb.BlockTable
import Supdb.ChunkedRead
import Supdb.Section
import Supdb.Superblock

/-!
# Reading a segment

A `Blob` is a segment opened over a mapping of its file.  The open reads the superblock page, the
key section and the block table, and checks the section against its row; from then on a key is found
in the section, by hash or by rank, and its values are read off the record's tail or off the block
its extent names.

* `Blob.openWith` – the open.
* `Blob.keyAt`, `Blob.extsAt`, `Blob.valuesAt` – what the segment holds at a rank, as a merge's
  cursors ask it; `Blob.readAll` – the values of a key, as a point read asks it.
* `Blob.withExtent` – the bytes of one extent: of a plain block the chunks it touches, checked
  against the table's row where the block has one; of a compressed block what it decodes to.

A reader remembers which chunks it has checked and what its thread decoded last, so that a second
read does neither again.  That is left out: every read here is a first one.
-/

namespace Supdb

open StorageLib Flatindex Run

/-- How much a reader checks. -/
structure BlobOptions where
  verifyChecksums : Bool
  verifyIndex : Bool

/-- A segment opened.  `addr` is where the file is mapped, and `checksumsOn` the process's switch.
-/
structure Blob where
  file : Bytes
  addr : ℕ
  keyOff : ℕ
  key : Bytes
  idx : FlatIndex
  blkOff : ℕ
  blk : Bytes
  blocks : MappedBlocks
  checksumsOn : Bool
  opts : BlobOptions

/-- `corrupt`. -/
def corrupt (what : String) : ChunkErr := .invalid ("supdb: " ++ what)

/-- `short`. -/
def short (off want have_ : ℕ) : ChunkErr :=
  .invalid s!"wanted {want} bytes at {off} of a {have_}-byte object"

/-- `take`: bytes of the source, lent. -/
def takeBytes (file : Bytes) (off len : ℕ) : Run ChunkErr Bytes :=
  match getRange file off (off + len) with
  | some bytes => ok bytes
  | none => err (short off len file.length)

/-- `open_head`: the superblock of a file whose redo log, where it names one, holds nothing. -/
def openHead (file : Bytes) : Run ChunkErr Super :=
  match pickSuper (file.take SUPER) file.length with
  | .error text => err (.invalid text)
  | .ok sb =>
      if 4 ≤ sb.logLen then do
        let word ← takeBytes file sb.logOff 4
        if word ≠ List.replicate 4 0 then
          err (.invalid "this store's redo log holds records newer than its index, and this reader does not replay a log. It reads sealed objects; seal the store with a full checkpoint (a rolled day index already is) before reading it here")
        else ok sb
      else ok sb

/-- The error of a section whose row does not match. -/
def badPiece (p : Option ℕ) : ChunkErr :=
  let text := (p.map toString).getD "18446744073709551615"
  corrupt ("key index checksum mismatch in piece " ++ text)

namespace Blob

/-! ## The open -/

/-- `open_with`. -/
def openWith (checksumsOn : Bool) (opts : BlobOptions) (addr : ℕ) (file : Bytes) :
    Run ChunkErr Blob := do
  let sb ← openHead file
  let key ← takeBytes file sb.keyOff sb.keyStored
  let blk ← takeBytes file sb.blkOff sb.blkStored
  match FlatIndex.parse key with
  | none => err (corrupt "the key index is not the flat format this reader understands (an older varint index, or damage in its header)")
  | some idx =>
      let checked := if idx.crcOff ≠ 0 ∧ opts.verifyIndex then
        verifyPieces key idx.crcOff idx.pieceShift sb.keyOff else .ok ()
      match checked, MappedBlocks.parse (addr + sb.blkOff) blk with
      | .error p, _ => err (badPiece p)
      | .ok (), none => err (corrupt "the block table is not readable")
      | .ok (), some blocks =>
          ok { file := file, addr := addr, keyOff := sb.keyOff, key := key, idx := idx
               blkOff := sb.blkOff, blk := blk, blocks := blocks, checksumsOn := checksumsOn
               opts := opts }

/-! ## Keys and their extents -/

/-- `keys`: how many the segment holds. -/
def keys (b : Blob) : ℕ := b.idx.nkeys

/-- `key_at`. -/
def keyAt (b : Blob) (rank : ℕ) : Option Bytes := b.idx.keyAt b.key rank

/-- `exts_at`. -/
def extsAt (b : Blob) (rank : ℕ) : Option (Bytes × List Ext) :=
  (b.idx.atFull (b.addr + b.keyOff) b.key rank).map (fun r => (r.1, r.2.1))

/-- `lookup_full`. -/
def lookupFull (b : Blob) (key : Bytes) : Option (List Ext × Bytes) :=
  b.idx.lookupFull (b.addr + b.keyOff) b.key key fnv64

/-! ## Blocks -/

/-- `loc_of`: the entry of a block. -/
def locOf (b : Blob) (id : ℕ) : Run ChunkErr BlockLoc :=
  match b.blocks.get (b.addr + b.blkOff) b.blk id with
  | some loc => ok loc
  | none =>
      let n := b.blocks.n
      err (corrupt s!"an extent names block {id} but the table has {n}")

/-- `chunk_span`: the stored bytes a read of an extent fetches. -/
def chunkSpan (loc : BlockLoc) (e : Ext) : ℕ × ℕ :=
  if ¬ loc.isPlain ∨ ¬ loc.chunkCrc then (0, loc.stored)
  else
    let a := min (e.off / CHUNK * CHUNK) loc.stored
    (a, max (min (divCeil (e.off + e.len) CHUNK * CHUNK) loc.stored) a)

/-- The whole block checked, as `verify` falls back to it. -/
def verifyWhole (loc : BlockLoc) (raw : Bytes) (base : ℕ) : Run ChunkErr Unit :=
  if base ≠ 0 ∨ raw.length ≠ loc.stored then
    err (corrupt "a partial block read needs per-chunk checksums")
  else if crc32 raw ≠ loc.crc then err (corrupt "block checksum mismatch")
  else ok ()

/-- The loop of `verify`: `n` chunks from the `j`-th on. -/
def verifyChunks (b : Blob) (id : ℕ) (loc : BlockLoc) (raw : Bytes) (base : ℕ) :
    ℕ → ℕ → Run ChunkErr Unit
  | 0, _ => ok ()
  | n + 1, j =>
      let lo := j * CHUNK
      let hi := min ((j + 1) * CHUNK) (base + raw.length)
      match b.blocks.chunkCrc b.blk id j with
      | none => verifyWhole loc raw base
      | some want =>
          if hi ≤ lo ∨ lo < base then verifyWhole loc raw base
          else if (crc32 (slice raw (lo - base) (hi - base))).toNat ≠ want then
            err (corrupt "block checksum mismatch")
          else verifyChunks b id loc raw base n (j + 1)

/-- `verify`: the chunks `[lo, hi)` of a block touches, `raw` holding its bytes from `base` on. -/
def verify (b : Blob) (id : ℕ) (loc : BlockLoc) (raw : Bytes) (base lo hi : ℕ) :
    Run ChunkErr Unit :=
  if ¬ b.opts.verifyChecksums ∨ ¬ b.checksumsOn then ok ()
  else if ¬ loc.chunkCrc ∨ base + raw.length < hi ∨ lo < base ∨ hi ≤ lo then
    verifyWhole loc raw base
  else b.verifyChunks id loc raw base ((hi - 1) / CHUNK + 1 - lo / CHUNK) (lo / CHUNK)

/-- A compressed block's bytes `[lo, hi)`: of a chunked one the chunks they touch decoded, else all
of it. -/
def decodeRange (lz : Lz4) (b : Blob) (id : ℕ) (loc : BlockLoc) (raw : Bytes) (lo hi : ℕ) :
    Run ChunkErr Bytes :=
  let un := loc.uncompressed
  if un < hi then err (corrupt "extent runs past its block")
  else if loc.chunked then do
    let dec ← readChunkedRange lz raw un lo hi (List.replicate un 0) b.opts.verifyChecksums
    ok (slice dec lo hi)
  else do
    b.verify id loc raw 0 0 raw.length
    match lz.decompressInto raw un with
    | none => err .lz4
    | some dec => ok (slice dec lo hi)

/-- `with_extent`: the bytes of an extent in a block. -/
def withExtent (lz : Lz4) (b : Blob) (e : Ext) : Run ChunkErr Bytes :=
  if e.isInline then err (corrupt "inline run read without its record")
  else do
    let loc ← b.locOf e.block
    let lo := e.off
    let hi := e.off + e.len
    let (c0, c1) := chunkSpan loc e
    let raw ← takeBytes b.file (loc.off + c0) (c1 - c0)
    if loc.isPlain then
      if lo < c0 ∨ c0 + raw.length < hi then err (corrupt "extent runs past its block")
      else do
        b.verify e.block loc raw c0 lo hi
        ok (slice raw (lo - c0) (hi - c0))
    else b.decodeRange lz e.block loc raw lo hi

/-- `with_run`: `with_extent`, for an extent that may be inline. -/
def withRun (lz : Lz4) (b : Blob) (e : Ext) (tail : Bytes) : Run ChunkErr Bytes :=
  if e.isInline then
    match getRange tail e.off (e.off + e.len) with
    | some run => ok run
    | none => err (corrupt "inline run runs past its record")
  else b.withExtent lz e

/-! ## Values -/

/-- The values of one extent. -/
def readExt (lz : Lz4) (b : Blob) (tail : Bytes) (e : Ext) : Run ChunkErr (List Bytes) := do
  let run ← b.withRun lz e tail
  match eachValue run e with
  | (vals, .ok _) => ok vals
  | (_, .error text) => err (corrupt text)

/-- `read_exts`: the values of some extents, in order. -/
def readExts (lz : Lz4) (b : Blob) (tail : Bytes) : List Ext → Run ChunkErr (List Bytes)
  | [] => ok []
  | e :: es => do
      let vals ← b.readExt lz tail e
      let rest ← b.readExts lz tail es
      ok (vals ++ rest)

/-- `values_at`: the values of the key at a rank; none of a rank there is not. -/
def valuesAt (lz : Lz4) (b : Blob) (rank : ℕ) : Run ChunkErr (List Bytes) :=
  match b.idx.atFull (b.addr + b.keyOff) b.key rank with
  | some r => b.readExts lz r.2.2 r.2.1
  | none => ok []

/-- `read_all`: the values of a key; none of a key there is not. -/
def readAll (lz : Lz4) (b : Blob) (key : Bytes) : Run ChunkErr (List Bytes) :=
  match b.lookupFull key with
  | some r => b.readExts lz r.2 r.1
  | none => ok []

end Blob

end Supdb
