import Supdb.Crc

/-!
# Blocks

Runs that do not fit in a record are gathered into blocks.  A block is stored verbatim, compressed
whole, or compressed in chunks with a directory of where each chunk starts and its checksum, so
that a read decodes only the chunks its extent touches.

The compressor itself is a third party's: an `Lz4` is its two functions, and `Lz4.Lossless` is what
the engine relies on.
-/

namespace Supdb

open StorageLib

/-- The block codec: `compress` of any bytes, and `decompress_into` a destination of so many
bytes, the bytes it put there or none for an error. -/
structure Lz4 where
  compress : Bytes → Bytes
  decompressInto : Bytes → ℕ → Option Bytes

/-- What the codec's documentation promises: decompressing undoes compressing. -/
def Lz4.Lossless (lz : Lz4) : Prop :=
  ∀ src : Bytes, lz.decompressInto (lz.compress src) src.length = some src

/-- Where a block lives and how big it is in each form. -/
structure BlockLoc where
  off : ℕ
  stored : ℕ
  uncompressed : ℕ
  cap : ℕ
  chunked : Bool
  crc : BitVec 32
  chunkCrc : Bool
  solo : Bool
  deriving DecidableEq, Repr

/-- Stored verbatim because compressing it did not pay. -/
def BlockLoc.isPlain (b : BlockLoc) : Bool := b.stored = b.uncompressed

/-- Bytes of a chunk (`CHUNK`). -/
def CHUNK : ℕ := 4096

/-- Chunk checksums a block may carry beside it. -/
def MAX_CHUNK_CRCS : ℕ := 16

/-- Chunks of `n` bytes in `len` bytes, the last perhaps short (`div_ceil`). -/
def divCeil (len n : ℕ) : ℕ := (len + n - 1) / n

/-- The `i`-th of the chunks of `n` bytes. -/
def chunkAt (n : ℕ) (bytes : Bytes) (i : ℕ) : Bytes :=
  slice bytes (i * n) (min ((i + 1) * n) bytes.length)

/-- `chunk_crcs`: a checksum a chunk, padded with zeros to a whole row; none when the block has no
chunk or more than a row holds. -/
def chunkCrcs (bytes : Bytes) : Option (List (BitVec 32)) :=
  let n := divCeil bytes.length CHUNK
  if n = 0 ∨ MAX_CHUNK_CRCS < n then none
  else some ((List.range n).map (fun i => crc32 (chunkAt CHUNK bytes i)) ++
    List.replicate (MAX_CHUNK_CRCS - n) 0)

/-- `compress`: the compressed bytes, where they are fewer. -/
def compress (lz : Lz4) (src : Bytes) : Option Bytes :=
  if (lz.compress src).length < src.length then some (lz.compress src) else none

/-- Directory size for `n` chunks: two words, `n + 1` starts and `n` checksums. -/
def chunkHeaderLen (n : ℕ) : ℕ := 8 + 4 * (n + 1) + 4 * n

/-- The stored form of a chunk: compressed where that is shorter, else as it is. -/
def storedChunk (lz : Lz4) (raw : Bytes) : Bytes := (compress lz raw).getD raw

/-- `write_chunked_sz`: the directory and the chunks, `checksums` being the process's switch. -/
def writeChunkedSz (lz : Lz4) (checksums : Bool) (src : Bytes) (chunk : ℕ) : Bytes :=
  let n := divCeil src.length chunk
  let stored := (List.range n).map (fun i => storedChunk lz (chunkAt chunk src i))
  let starts := (List.range (n + 1)).map (fun i => ((stored.take i).flatten).length)
  let crcs := stored.map (fun s => if checksums then crc32 s else 0)
  leBytes 4 chunk ++ (leBytes 4 n ++ (starts.flatMap (leBytes 4) ++
    (crcs.flatMap (fun c => leBytes 4 c.toNat) ++ stored.flatten)))

end Supdb
