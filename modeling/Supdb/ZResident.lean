import Supdb.ZFenceSearch
import Supdb.ZTrailer
import Supdb.Lib.Trap

/-!
# The form file's resident part

Behind its pages a form file keeps what a reader holds in memory: the fence's first ranks, pages and
key offsets as words, the key blob, and behind them, from a multiple of eight, the filter's blocks.

* **`ZFence.encodeResident`** – the resident part, padded to a page, and what the trailer records of
  it.
* **`ZFence.decodeResident`** – the fence and the filter, after the checksum, the regions' lengths,
  the offsets and `ZFence.checkTiling`.
* `ZFence.checkTiling` – that the entries cut a partition's keys and pages into runs.

A reader's arithmetic is of 64-bit words and its slices are checked: a run here traps where the
source would.
-/

namespace Supdb

open StorageLib

/-- What the trailer records of the resident part. -/
structure ResidentFacts where
  resLen : BitVec 64
  keysLen : BitVec 64
  filterOff : BitVec 64
  filterBlocks : BitVec 64
  resCrc : BitVec 32
  deriving DecidableEq, Repr

/-- The most bytes one allocation may have. -/
def ALLOC_MAX : ℕ := 2 ^ 63 - 1

/-- `next_multiple_of`. -/
def nextMultipleOf (n a : ℕ) : Run ZError ℕ :=
  if alignUp n a < 2 ^ 64 then .ok (alignUp n a) else .trap .overflow

/-- A read the source makes without a check: outside, it panics. -/
def orTrap {α : Type} : Option α → Run ZError α
  | some a => .ok a
  | none => .trap .bounds

namespace ZFence

/-! ## Encoding -/

/-- The entries as they are stored: three columns of words, then the keys. -/
def entryBytes (f : ZFence) : Bytes :=
  (f.firstRank ++ f.page ++ f.keyOff).flatMap (fun w => leBytes 4 w.toNat) ++ f.keys

/-- The entries and, from a multiple of eight, the filter; where the filter begins, and its blocks.
-/
def withFilter (entries filter : Bytes) : Bytes × ℕ × ℕ :=
  if filter = [] then (entries, 0, 0)
  else
    let out := entries ++ padding entries.length 8
    (out ++ filter, out.length, filter.length / 64)

/-- `encode_resident`. -/
def encodeResident (f : ZFence) (filter : Bytes) : Run ZError (Bytes × ResidentFacts) :=
  if ¬ 64 ∣ filter.length then .err (.resident "the filter is not whole blocks")
  else if ALLOC_MAX < 12 * f.len + 4 + f.keys.length + filter.length + ZPAGE then .trap .overflow
  else
    let (out, filterOff, blocks) := withFilter f.entryBytes filter
    .ok (out ++ padding out.length ZPAGE,
      { resLen := BitVec.ofNat 64 out.length, keysLen := BitVec.ofNat 64 f.keys.length
        filterOff := BitVec.ofNat 64 filterOff, filterBlocks := BitVec.ofNat 64 blocks
        resCrc := crc32 out })

/-! ## The tiling -/

/-- Whether a window of two neighbours fails to ascend. -/
def notAscending (ws : List UInt32) : Bool := (ws.zip ws.tail).any (fun w => w.2 ≤ w.1)

/-- The check of the keys, entry by entry. -/
def checkKeys (f : ZFence) : List ℕ → Run ZError Unit
  | [] => .ok ()
  | i :: rest => do
      let a ← orTrap (f.key (i - 1))
      let b ← orTrap (f.key i)
      if b ≤ a then .err (.tiling "keys do not increase") else checkKeys f rest

/-- The check of the pages: how many entries have one. -/
def checkPages (nPages : ℕ) : List UInt32 → Option UInt32 → ℕ → Run ZError ℕ
  | [], _, held => .ok held
  | p :: rest, last, held =>
      if p = ZNOPAGE then checkPages nPages rest last held
      else if nPages ≤ p.toNat then .err (.tiling "a page number is past the pages")
      else if last.any (p ≤ ·) then .err (.tiling "page numbers do not increase")
      else checkPages nPages rest (some p) (held + 1)

/-- `check_tiling`. -/
def checkTiling (f : ZFence) (nkeys nPages : ℕ) : Run ZError Unit :=
  let e := f.len
  if nkeys = 0 then
    if e = 0 ∧ nPages = 0 then .ok () else .err (.tiling "a partition of no keys has entries")
  else if e = 0 then .err (.tiling "a partition of keys has no entries")
  else do
    let first ← Run.index f.firstRank 0
    if first ≠ 0 then .err (.tiling "the first entry does not begin at rank zero")
    else if notAscending f.firstRank then .err (.tiling "first ranks do not increase")
    else do
      let last ← Run.index f.firstRank (e - 1)
      if nkeys ≤ last.toNat then .err (.tiling "an entry begins past the last key")
      else do
        f.checkKeys (List.range' 1 (e - 1))
        let held ← checkPages nPages f.page none 0
        if held ≠ nPages then .err (.tiling "the pages are not exactly the entries that have one") else .ok ()

/-! ## Decoding -/

/-- `words`: `n` words of the region from `p`. -/
def words (region : Bytes) (p n : ℕ) : Run ZError (List UInt32) := do
  let len ← Run.mulU 4 n
  let stop ← Run.addU p len
  let x ← Run.cut region p stop
  .ok ((List.range n).map (fun i => UInt32.ofNat (u32At x (4 * i))))

/-- Where the entries end: twelve bytes an entry, a last offset, the keys. -/
def entriesEnd (e keysLen : ℕ) : Option ℕ :=
  if 12 * e < 2 ^ 64 ∧ 12 * e + 4 < 2 ^ 64 ∧
    12 * e + 4 + keysLen < 2 ^ 64 then some (12 * e + 4 + keysLen)
  else none

/-- The filter's bytes, where the trailer says they are. -/
def filterOf (region : Bytes) (t : Trailer) (resLen bEnd : ℕ) : Run ZError Bytes :=
  if t.filter then do
    let start ← nextMultipleOf bEnd 8
    let blocks := t.filterBlocks.toNat
    if 2 ^ 64 ≤ blocks * 64 then .err (.resident "the filter overflows")
    else if blocks = 0 ∨ t.filterOff.toNat ≠ start ∨
      ¬ (start + blocks * 64 < 2 ^ 64 ∧ start + blocks * 64 = resLen) then
      .err (.resident "the filter is not where the entries end")
    else do
      let pad ← Run.cut region bEnd start
      if pad.any (· ≠ 0) then .err (.resident "the padding before the filter is not zero")
      else Run.cut region start region.length
  else if t.filterOff ≠ 0 ∨ t.filterBlocks ≠ 0 ∨ resLen ≠ bEnd then
    .err (.resident "the region is not the entries alone")
  else .ok []

/-- The key offsets run from zero to the blob's length. -/
def checkOffsets (keyOff : List UInt32) (e keysLen : ℕ) : Run ZError Unit := do
  let first ← Run.index keyOff 0
  let last ← Run.index keyOff e
  if first ≠ 0 ∨ last.toNat ≠ keysLen ∨ (keyOff.zip keyOff.tail).any (fun w => w.2 < w.1) then
    .err (.resident "the key offsets do not run from zero to the blob's length")
  else .ok ()

/-- `decode_resident`. -/
def decodeResident (res : Bytes) (t : Trailer) : Run ZError (ZFence × Bytes) :=
  let resLen := t.resLen.toNat
  match getRange res 0 resLen with
  | none => .err .length
  | some region =>
      if crc32 region ≠ t.resCrc then .err .residentCrc
      else if 2 ^ 32 ≤ t.nEntries.toNat then .err (.resident "more entries than a u32 counts")
      else if 2 ^ 32 ≤ t.keysLen.toNat then .err (.resident "a key blob over four gibibytes")
      else
        let e := t.nEntries.toNat
        let keysLen := t.keysLen.toNat
        match entriesEnd e keysLen with
        | none => .err (.resident "the entries overflow")
        | some bEnd => do
            let filter ← filterOf region t resLen bEnd
            let offsAt ← Run.mulU 8 e
            let n ← Run.addU e 1
            let keyOff ← words region offsAt n
            checkOffsets keyOff e keysLen
            let firstRank ← words region 0 e
            let pagesAt ← Run.mulU 4 e
            let page ← words region pagesAt e
            let bytes ← Run.mulU 12 e
            let keysAt ← Run.addU bytes 4
            let keys ← Run.cut region keysAt bEnd
            let fence : ZFence := { firstRank := firstRank, page := page, keyOff := keyOff, keys := keys
                                    probe := [], probePos := [], shared := [] }
            fence.checkTiling t.nkeys.toNat t.nPages.toNat
            .ok (fence, filter)

end ZFence

end Supdb
