import Supdb.Block
import Supdb.Lib.Search
import Supdb.Record

/-!
# The flat key index

A key section is read where it lies.  Its regions are the records in key order, a *fence* of every
`stride`-th key, a *directory* of record offsets by rank, and an open-addressed *hash table* of
(tag, record offset) words; a header names each by its offset.

* `streamTrailer` – the header and the trailer over records already streamed.
* `FlatIndex.parse` – the header of a section checked and decoded.
* `FlatIndex.lookupFull`, `FlatIndex.atFull`, `FlatIndex.seekWith` – the three ways a record is
  found: by hash, by rank, by order.

Words of the source are `ℕ` here.  The section lies at address `base`, which is what decides
whether a full record's extents can be borrowed.
-/

namespace Supdb

open StorageLib

/-- Bytes of a section header. -/
def HEADER : ℕ := 192

/-- The most record bytes a section can address. -/
def MAX_RECS : ℕ := 2 ^ 32 - 1

namespace Flatindex

/-- The section's mark, `SFIX`. -/
def MAGIC : ℕ := 0x58494653

def VERSION : ℕ := 3

/-- Bytes of a hash slot. -/
def SLOT : ℕ := 8

/-- The table is at most three quarters full. -/
def HASH_LOAD_NUM : ℕ := 3
def HASH_LOAD_DEN : ℕ := 4

/-- Keys a lookahead fill asks for before it places them. -/
def FILL_AHEAD : ℕ := 16

def FENCE_MIN_STRIDE : ℕ := 16

/-- Where a header names its checksum row, and the row's piece size. -/
def W_CRC_OFF : ℕ := 160
def W_PIECE_SHIFT : ℕ := 168

def PIECE_SHIFT : ℕ := 14

/-- Bytes of a checksummed piece of a section. -/
def PIECE : ℕ := 2 ^ PIECE_SHIFT

/-! ## The hash table -/

/-- The doubling of `hash_cap_for`, from `2 ^ k`. -/
def doubleTo (want k : ℕ) : Option ℕ :=
  if 2 ^ k < want then
    if _h : 2 ^ 64 ≤ 2 ^ k * 2 then none else doubleTo want (k + 1)
  else some (2 ^ k)
termination_by 64 - k
decreasing_by
  have h : 2 ^ (k + 1) < 2 ^ 64 := by rw [pow_succ]; omega
  have := (Nat.pow_lt_pow_iff_right (by norm_num : 1 < 2)).mp h
  omega

/-- `hash_cap_for`: slots for `keys`. -/
def hashCapFor (keys : ℕ) : Option ℕ :=
  if 2 ^ 64 ≤ keys * HASH_LOAD_DEN then none
  else (doubleTo (divCeil (keys * HASH_LOAD_DEN) HASH_LOAD_NUM) 0).map (fun cap => max cap 16)

/-- The tag of a hash, never zero. -/
def tagOf (h : ℕ) : ℕ := (h >>> 56 ||| 1) &&& 0xff

/-- The word a slot holds. -/
def slotWord (h off : ℕ) : ℕ := tagOf h <<< 56 ||| off

/-- `place`: a word into the first empty slot at or behind its hash's home. -/
def placeSlot (t : List ℕ) (mask : ℕ) (item : ℕ × ℕ) : Option (List ℕ) :=
  place 0 (slotWord item.1 item.2) (fun s => (s + 1) &&& mask) t.length t (item.1 &&& mask)

/-- One turn of a lookahead fill: the ring's key placed, and the key `FILL_AHEAD` on asked for. -/
def fillAhead (mask n : ℕ) (keyed : ℕ → ℕ × ℕ) (st : List ℕ × List (ℕ × ℕ)) (i : ℕ) :
    Option (List ℕ × List (ℕ × ℕ)) :=
  let item := st.2.getD (i % FILL_AHEAD) (0, 0)
  let ring := if i + FILL_AHEAD < n then st.2.set (i % FILL_AHEAD) (keyed (i + FILL_AHEAD))
    else st.2
  (placeSlot st.1 mask item).map (fun t => (t, ring))

/-- `fill_hash`: `n` keys placed in order, `keyed` giving each one's hash and record offset; none
only where a probe would never end. -/
def fillHash (cap mask n : ℕ) (keyed : ℕ → ℕ × ℕ) (lookahead : Bool) : Option (List ℕ) :=
  let t := List.replicate cap 0
  if lookahead then
    let ring := (List.range FILL_AHEAD).map (fun i => if i < n then keyed i else (0, 0))
    ((List.range n).foldlM (fillAhead mask n keyed) (t, ring)).map Prod.fst
  else (List.range n).foldlM (fun t i => placeSlot t mask (keyed i)) t

/-! ## The header and the trailer -/

/-- `fence_stride`, the next power of two, `target` being the process's fence size. -/
def fenceStride (target : ℕ+) (n : ℕ) : ℕ :=
  2 ^ Nat.clog 2 (max (divCeil n target) FENCE_MIN_STRIDE)

/-- The fence loop: each sample's offset, and the samples laid end to end. -/
def fenceFill (keyAt : ℕ → Bytes) (stride : ℕ) (fenceN : ℕ) : Bytes × Bytes :=
  (List.range fenceN).foldl
    (fun (offs, blob) i => (offs ++ leBytes 4 blob.length, blob ++ keyAt (i * stride))) ([], [])

/-- The fence region. -/
def fenceRegion (keyAt : ℕ → Bytes) (stride fenceN : ℕ) : Bytes :=
  if 0 < fenceN then
    let (offs, blob) := fenceFill keyAt stride fenceN
    offs ++ (leBytes 4 blob.length ++ blob)
  else []

/-- A header: the mark, the version and its words. -/
def headerBytes (words : List ℕ) : Bytes :=
  leBytes 4 MAGIC ++ (leBytes 4 VERSION ++ (words.flatMap (leBytes 8) ++
    List.replicate (HEADER - (8 + words.length * 8)) 0))

/-- Where a section's regions lie, its records apart: the fence, its stride and entries, the
directory, the hash table and its slots, and the section's end. -/
structure Trailer where
  fenceOffsOff : ℕ
  stride : ℕ
  fenceN : ℕ
  dirOff : ℕ
  hashOff : ℕ
  cap : ℕ
  total : ℕ
  deriving DecidableEq, Repr

/-- The words of a section's header: no earlier index, one directory, no room behind the records. -/
def headerWords (generation n recsOff recsLen : ℕ) (t : Trailer) : List ℕ :=
  [generation, 0, 0, 0, 0, 0, n, t.cap, t.hashOff, t.dirOff, recsOff, recsLen, recsLen, recsLen,
    t.fenceOffsOff, t.fenceN, t.stride, 0, 0]

/-- The trailer's regions laid out behind the records, each padded to where it may start. -/
def layTrailer (recsLen n cap stride fenceN : ℕ) (fence dir table : Bytes) : Trailer × Bytes :=
  let at0 := HEADER + recsLen
  let fenceOffsOff := alignUp at0 4
  let at1 := fenceOffsOff + fence.length
  let dirOff := alignUp at1 4
  let at2 := dirOff + n * 4
  let hashOff := alignUp at2 8
  (⟨fenceOffsOff, stride, fenceN, dirOff, hashOff, cap, hashOff + cap * SLOT⟩,
    padding at0 4 ++ (fence ++ (padding at1 4 ++ (dir ++ (padding at2 8 ++ table)))))

/-- `stream_trailer`: the header, the trailer and the section's length, over `recsLen` bytes of
records.  `each` gives a key's record offset and hash. -/
def streamTrailer (target : ℕ+) (n recsLen : ℕ) (keyAt : ℕ → Bytes) (each : ℕ → ℕ × ℕ)
    (generation : ℕ) (lookahead : Bool) : Option (Bytes × Bytes × ℕ) :=
  if MAX_RECS < recsLen then none
  else do
    let cap ← hashCapFor n
    let stride := fenceStride target n
    let fenceN := divCeil n stride
    let slots ← fillHash cap (cap - 1) n (fun i => ((each i).2, (each i).1)) lookahead
    let dir := (List.range n).flatMap (fun i => leBytes 4 (each i).1)
    let (t, trailer) := layTrailer recsLen n cap stride fenceN (fenceRegion keyAt stride fenceN) dir
      (slots.flatMap (leBytes SLOT))
    some (headerBytes (headerWords generation n HEADER recsLen t), trailer, t.total)

/-! ## Reading the header -/

/-- Arithmetic the source checks for overflow. -/
def checked (n : ℕ) : Option ℕ := if n < 2 ^ 64 then some n else none

/-- `is_flat`. -/
def isFlat (sec : Bytes) : Bool :=
  readWord 4 sec 0 = some MAGIC ∧ readWord 4 sec 4 = some VERSION

/-- `checksum_words`: none for a damaged word, `some none` for a section without a row. -/
def checksumWords (sec : Bytes) : Option (Option (ℕ × ℕ)) := do
  let crcOff ← readWord 8 sec W_CRC_OFF
  if crcOff = 0 then some none
  else
    let shift ← readWord 8 sec W_PIECE_SHIFT
    if shift < 10 ∨ 24 < shift then none else some (some (crcOff, shift))

end Flatindex

open Flatindex

/-- A parsed key section: its regions, each from an offset to an offset. -/
structure FlatIndex where
  hash : ℕ × ℕ
  dir : ℕ × ℕ
  dirCap : ℕ
  dirBase : ℕ
  recs : ℕ × ℕ
  hashCap : ℕ
  mask : ℕ
  nkeys : ℕ
  meanRecordLen : ℕ
  recsOff : ℕ
  recsCap : ℕ
  bump : ℕ
  fenceOffs : ℕ × ℕ
  fenceBlob : ℕ × ℕ
  fenceN : ℕ
  fenceStride : ℕ
  generation : ℕ
  prev : Option (ℕ × ℕ × ℕ × ℕ × ℕ)
  crcOff : ℕ
  pieceShift : ℕ
  deriving DecidableEq, Repr

namespace FlatIndex

/-- The live directory and its keys: where there are two, the word that publishes one decides. -/
def liveDir (dirOff nkeys dirCap dirState : ℕ) : Option (ℕ × ℕ) :=
  if dirCap = 0 then some (dirOff, nkeys)
  else do
    let liveOff := dirState >>> 32
    let liveN := dirState &&& 0xffffffff
    let second ← checked (dirOff + (← checked (dirCap * 4)))
    if (liveOff ≠ dirOff ∧ liveOff ≠ second) ∨ dirCap < liveN then none else some (liveOff, liveN)

/-- Whether two regions share a byte. -/
def overlaps (a b : ℕ × ℕ) : Bool := a.1 < b.2 ∧ b.1 < a.2 ∧ a.1 ≠ a.2 ∧ b.1 ≠ b.2

/-- A fence that checks out: its offsets, its keys, its entries and its stride. -/
def parseFence (sec : Bytes) (nkeys fenceOffsOff fenceN fenceStride : ℕ)
    (regions : List (ℕ × ℕ)) : Option ((ℕ × ℕ) × (ℕ × ℕ) × ℕ × ℕ) := do
  if fenceN = 0 ∨ fenceStride = 0 ∨ nkeys < fenceN then none
  else if fenceN ≠ divCeil nkeys fenceStride then none
  else
    let offsEnd ← checked (fenceOffsOff + (← checked ((fenceN + 1) * 4)))
    if fenceOffsOff < HEADER ∨ sec.length < offsEnd then none
    else
      let offs ← getRange sec fenceOffsOff offsEnd
      let blobLen ← readWord 4 offs (fenceN * 4)
      let blobEnd ← checked (offsEnd + blobLen)
      if sec.length < blobEnd then none
      else if regions.any (fun r => overlaps (fenceOffsOff, blobEnd) r) then none
      else some ((fenceOffsOff, offsEnd), (offsEnd, blobEnd), fenceN, fenceStride)

/-- `FlatIndex::parse`. -/
def parse (sec : Bytes) : Option FlatIndex :=
  if ¬ isFlat sec then none
  else do
    let generation ← readWord 8 sec 8
    let prevGen ← readWord 8 sec 16
    let prevTs ← readWord 8 sec 24
    let prevOff ← readWord 8 sec 32
    let prevStored ← readWord 8 sec 40
    let prevUnc ← readWord 8 sec 48
    let nkeys ← readWord 8 sec 56
    let hashCap ← readWord 8 sec 64
    let hashOff ← readWord 8 sec 72
    let dirBase ← readWord 8 sec 80
    let recsOff ← readWord 8 sec 88
    let recsLen ← readWord 8 sec 96
    let recsCap := max (← readWord 8 sec 104) recsLen
    let bump := max recsLen (min (← readWord 8 sec 112) recsCap)
    let fenceOffsOff ← readWord 8 sec 120
    let fenceN ← readWord 8 sec 128
    let fenceStride ← readWord 8 sec 136
    let dirCap ← readWord 8 sec 144
    let dirState ← readWord 8 sec 152
    if hashCap = 0 ∨ ¬ hashCap.isPowerOfTwo then none
    else
      let (dirOff, nkeys) ← liveDir dirBase nkeys dirCap dirState
      let hashEnd ← checked (hashOff + (← checked (hashCap * SLOT)))
      let dirEnd ← if dirCap = 0 then checked (dirOff + (← checked (nkeys * 4)))
        else (checked (dirCap * 8)).map (fun n => (dirBase + n) % 2 ^ 64)
      let recsEnd ← checked (recsOff + recsCap)
      let regions := [(hashOff, hashEnd), (dirOff, dirEnd), (recsOff, recsEnd)]
      if regions.any (fun r => r.1 < HEADER ∨ sec.length < r.2 ∨ r.2 < r.1) then none
      else if overlaps (hashOff, hashEnd) (dirOff, dirEnd) ∨
          overlaps (hashOff, hashEnd) (recsOff, recsEnd) ∨
          overlaps (dirOff, dirEnd) (recsOff, recsEnd) then none
      else if hashCap < nkeys then none
      else
        let (fenceOffs, fenceBlob, fenceN, fenceStride) :=
          (parseFence sec nkeys fenceOffsOff fenceN fenceStride regions).getD
            ((0, 0), (0, 0), 0, 0)
        let (crcOff, pieceShift) ←
          match ← checksumWords sec with
          | some (off, shift) => if off < HEADER ∨ sec.length < off then none else some (off, shift)
          | none => some (0, 0)
        some
          { hash := (hashOff, hashEnd), dir := (dirOff, dirEnd), dirCap := dirCap,
            dirBase := dirBase, recs := (recsOff, recsEnd), hashCap := hashCap,
            mask := hashCap - 1, nkeys := nkeys,
            meanRecordLen := max (recsLen / max nkeys 1) 1, recsOff := recsOff,
            recsCap := recsCap, bump := bump, fenceOffs := fenceOffs, fenceBlob := fenceBlob,
            fenceN := fenceN, fenceStride := fenceStride, generation := generation,
            prev := if 0 < prevOff then some (prevGen, prevTs, prevOff, prevStored, prevUnc)
              else none
            crcOff := crcOff, pieceShift := pieceShift }

/-! ## Finding a record -/

/-- A region of the section. -/
def region (sec : Bytes) (r : ℕ × ℕ) : Option Bytes := getRange sec r.1 r.2

/-- `record_full`: the record at `off` of the record region. -/
def recordFull (base : ℕ) (fi : FlatIndex) (sec : Bytes) (off : ℕ) :
    Option (Bytes × List Ext × Bytes) := do
  let recs ← region sec fi.recs
  (parseRecord (base + fi.recs.1) recs off).map (fun r => (r.1, r.2.1, r.2.2.1))

/-- What a slot's word answers for `key`. -/
def slotRecord (base : ℕ) (fi : FlatIndex) (sec key : Bytes) (tag packed : ℕ) :
    Option (List Ext × Bytes) :=
  if packed >>> 56 = tag then
    match recordFull base fi sec (packed &&& 0x00ffffffffffffff) with
    | some (k, exts, tail) => if k = key then some (exts, tail) else none
    | none => none
  else none

/-- The probe of `lookup_full`. -/
def lookupLoop (base : ℕ) (fi : FlatIndex) (sec hash key : Bytes) (tag : ℕ) :
    ℕ → ℕ → Option (List Ext × Bytes)
  | 0, _ => none
  | fuel + 1, s => do
      let packed ← readWord 8 hash (s * SLOT)
      if packed = 0 then none
      else
        match slotRecord base fi sec key tag packed with
        | some r => some r
        | none => lookupLoop base fi sec hash key tag fuel ((s + 1) &&& fi.mask)

/-- `lookup_full`: the extents and the tail of `key`. -/
def lookupFull (base : ℕ) (fi : FlatIndex) (sec key : Bytes) (hashOf : Bytes → ℕ) :
    Option (List Ext × Bytes) := do
  let hash ← region sec fi.hash
  let h := hashOf key
  lookupLoop base fi sec hash key (tagOf h) fi.hashCap (h &&& fi.mask)

/-- `at_full`: the record of rank `rank`. -/
def atFull (base : ℕ) (fi : FlatIndex) (sec : Bytes) (rank : ℕ) :
    Option (Bytes × List Ext × Bytes) := do
  let recs ← region sec fi.recs
  let dir ← region sec fi.dir
  if fi.nkeys ≤ rank then none
  else
    let off ← readWord 4 dir (rank * 4)
    (parseRecord (base + fi.recs.1) recs off).map (fun r => (r.1, r.2.1, r.2.2.1))

/-- `record_key`: the key of the record at `off`, its extents not read. -/
def recordKey (buf : Bytes) (off : ℕ) : Option Bytes := do
  let klen ← readWord 2 buf off
  let n ← readWord 2 buf (off + 2)
  if n &&& COMPACT ≠ 0 ∧ n ≠ COMPACT then none
  else getRange buf (off + 4) (off + 4 + klen)

/-- `key_at`. -/
def keyAt (fi : FlatIndex) (sec : Bytes) (rank : ℕ) : Option Bytes :=
  if fi.nkeys ≤ rank then none
  else do
    let recs ← region sec fi.recs
    let dir ← region sec fi.dir
    let off ← readWord 4 dir (rank * 4)
    recordKey recs off

/-- `fence_key`: the fence's entry `i`. -/
def fenceKey (fi : FlatIndex) (sec : Bytes) (i : ℕ) : Option Bytes :=
  if fi.fenceN ≤ i then none
  else do
    let offs ← region sec fi.fenceOffs
    let a ← readWord 4 offs (i * 4)
    let b ← readWord 4 offs ((i + 1) * 4)
    if b < a then none
    else
      let blob ← region sec fi.fenceBlob
      getRange blob a b

/-- A key read at a probe and found below `key`; one that does not read is not below. -/
def isLess (k : Option Bytes) (key : Bytes) : Bool :=
  match k with
  | some k => k < key
  | none => false

/-- `fence_window`: the ranks a key can lie at. -/
def fenceWindow (fi : FlatIndex) (sec key : Bytes) : ℕ × ℕ :=
  if fi.fenceN = 0 ∨ fi.fenceStride = 0 then (0, fi.nkeys)
  else
    let lo := partitionPoint (fun mid => isLess (fi.fenceKey sec mid) key) 0 fi.fenceN
    let start := (lo - 1) * fi.fenceStride
    (start, max (min (lo * fi.fenceStride) fi.nkeys) start)

/-- `search`: the halving over the records. -/
def search (fi : FlatIndex) (sec key : Bytes) (lo hi : ℕ) : ℕ :=
  partitionPoint (fun mid => isLess (fi.keyAt sec mid) key) lo hi

/-- `brackets`: whether `r` is the first rank whose key is not below `key`. -/
def brackets (fi : FlatIndex) (sec key : Bytes) (r : ℕ) : Bool :=
  if fi.nkeys < r then false
  else if 0 < r ∧ ¬ isLess (fi.keyAt sec (r - 1)) key then false
  else if r < fi.nkeys then
    match fi.keyAt sec r with
    | some k => ¬ k < key
    | none => false
  else true

/-- `seek_with`: the rank of the first key not below `key`, by way of the fence or not. -/
def seekWith (fi : FlatIndex) (sec key : Bytes) (fence : Bool) : ℕ :=
  if fence ∧ 0 < fi.fenceN then
    let (lo, hi) := fi.fenceWindow sec key
    let r := fi.search sec key lo hi
    if fi.brackets sec key r then r else fi.search sec key 0 fi.nkeys
  else fi.search sec key 0 fi.nkeys

end FlatIndex

end Supdb
