import Supdb.FlatWrite

/-!
# Whole key sections

A segment's key section carries a *checksum row*: one CRC for each piece of the section, a piece
being what one 16 KiB page of the object holds of it.  The header names the row by its offset.

* `checksumRow`, `withChecksums` and `verifyPieces` – the row, a section with its row, and the check
  a resident open makes of it.
* `Header.parse` and `fenceSpan` – the header decoded on its own, for whoever has no section.
* `encodeInline` – the section of the blocks-first layout: table, directory and fence stand before
  the records there.
-/

namespace Supdb

open StorageLib

namespace Flatindex

/-! ## The checksum row -/

/-- `piece_count`: the pieces of `len` bytes starting `base` bytes into the object. -/
def pieceCount (len shift base : ℕ) : ℕ := divCeil (base % 2 ^ shift + len) (2 ^ shift)

/-- `checksum_row_len`. -/
def checksumRowLen (len shift base : ℕ) : ℕ := pieceCount len shift base * 4

/-- Where the piece that starts at `p` ends. -/
def pieceStop (len shift base p : ℕ) : ℕ :=
  if p = 0 then min (2 ^ shift - base % 2 ^ shift) len else min (p + 2 ^ shift) len

lemma lt_pieceStop {len shift base p : ℕ} (h : p < len) : p < pieceStop len shift base p := by
  have hpos : 0 < 2 ^ shift := Nat.two_pow_pos shift
  have hmod : base % 2 ^ shift < 2 ^ shift := Nat.mod_lt _ hpos
  rw [pieceStop]
  split_ifs <;> omega

/-- The pieces from offset `p` on. -/
def piecesFrom (len shift base p : ℕ) : List (ℕ × ℕ) :=
  if _h : p < len then
    (p, pieceStop len shift base p) :: piecesFrom len shift base (pieceStop len shift base p)
  else []
termination_by len - p
decreasing_by
  have := @lt_pieceStop len shift base p _h
  omega

/-- `pieces`: the pieces of a section, by where each starts and ends. -/
def pieces (len shift base : ℕ) : List (ℕ × ℕ) := piecesFrom len shift base 0

/-- `checksum_row`: the row of a section without one. -/
def checksumRow (sec : Bytes) (shift base : ℕ) : Bytes :=
  (pieces sec.length shift base).flatMap
    (fun r => leBytes 4 (crc32 (slice sec r.1 r.2)).toNat)

/-- `set_checksum_words`: a header made to name the row behind `len` bytes. -/
def setChecksumWords (header : Bytes) (len : ℕ) : Bytes :=
  writeAt (writeAt header W_CRC_OFF (leBytes 8 len)) W_PIECE_SHIFT (leBytes 8 PIECE_SHIFT)

/-- `with_checksums`: a section with its row named and appended. -/
def withChecksums (sec : Bytes) (base : ℕ) : Bytes :=
  let sec := setChecksumWords sec sec.length
  sec ++ checksumRow sec PIECE_SHIFT base

/-- `piece_crc`. -/
def pieceCrc (row : Bytes) (i : ℕ) : Option ℕ := readWord 4 row (i * 4)

/-- The pieces of `verify_pieces` from the `i`-th on; an error names the first that differs, or no
piece where the row is short. -/
def verifyFrom (sec row : Bytes) : ℕ → List (ℕ × ℕ) → Except (Option ℕ) Unit
  | _, [] => .ok ()
  | i, r :: rs =>
      match pieceCrc row i with
      | none => .error none
      | some c => if (crc32 (slice sec r.1 r.2)).toNat ≠ c then .error (some i)
          else verifyFrom sec row (i + 1) rs

/-- `verify_pieces`. -/
def verifyPieces (sec : Bytes) (crcOff shift base : ℕ) : Except (Option ℕ) Unit :=
  match getRange sec crcOff (crcOff + checksumRowLen crcOff shift base) with
  | none => .error none
  | some row => verifyFrom sec row 0 (pieces crcOff shift base)

/-! ## The header alone -/

/-- A section's header, decoded on its own. -/
structure Header where
  generation : ℕ
  nkeys : ℕ
  hashOff : ℕ
  hashCap : ℕ
  dirOff : ℕ
  dirBase : ℕ
  dirCap : ℕ
  recsOff : ℕ
  recsLen : ℕ
  bump : ℕ
  fenceOffsOff : ℕ
  fenceN : ℕ
  fenceStride : ℕ
  crcOff : ℕ
  pieceShift : ℕ
  deriving DecidableEq, Repr

/-- `Header::parse`. -/
def Header.parse (sec : Bytes) : Option Header :=
  if ¬ isFlat sec then none
  else do
    let nkeys ← readWord 8 sec 56
    let hashCap ← readWord 8 sec 64
    let dirBase ← readWord 8 sec 80
    let recsLen ← readWord 8 sec 96
    let recsCap := max (← readWord 8 sec 104) recsLen
    let dirCap ← readWord 8 sec 144
    let dirState ← readWord 8 sec 152
    if hashCap = 0 ∨ ¬ hashCap.isPowerOfTwo then none
    else
      let (dirOff, nkeys) ← FlatIndex.liveDir dirBase nkeys dirCap dirState
      if hashCap < nkeys then none
      else
        let generation ← readWord 8 sec 8
        let hashOff ← readWord 8 sec 72
        let recsOff ← readWord 8 sec 88
        let bump := max recsLen (min (← readWord 8 sec 112) recsCap)
        let fenceOffsOff ← readWord 8 sec 120
        let fenceN ← readWord 8 sec 128
        let fenceStride ← readWord 8 sec 136
        let words ← checksumWords sec
        let (crcOff, pieceShift) := words.getD (0, 0)
        some
          { generation := generation, nkeys := nkeys, hashOff := hashOff, hashCap := hashCap,
            dirOff := dirOff, dirBase := dirBase, dirCap := dirCap, recsOff := recsOff,
            recsLen := recsLen, bump := bump, fenceOffsOff := fenceOffsOff, fenceN := fenceN,
            fenceStride := fenceStride, crcOff := crcOff, pieceShift := pieceShift }

/-- `fence_span`: where the fence lies in a section of `secLen` bytes, from its offsets to the
region that comes next. -/
def fenceSpan (h : Header) (secLen : ℕ) : ℕ × ℕ :=
  if h.fenceN = 0 then (0, 0)
  else if h.fenceOffsOff < HEADER ∨ secLen < h.fenceOffsOff then (0, 0)
  else
    let stops := [h.hashOff, h.dirBase, h.recsOff, h.crcOff, secLen].filter (h.fenceOffsOff < ·)
    let stop := min (stops.min?.getD secLen) secLen
    (h.fenceOffsOff, stop - h.fenceOffsOff)

/-! ## The section built at the end -/

/-- The record offsets of `plan_inline` from `at0` on, and where the records end. -/
def planRecs : List FlatEntry → ℕ → Option (List ℕ × ℕ)
  | [], at0 => some ([], at0)
  | e :: es, at0 =>
      if 65535 < e.key.length then none
      else if COMPACT ≤ e.exts.length then none
      else if MAX_RECS < at0 then none
      else do
        let at1 ← checked (at0 + (recordTailAt e.key.length e.exts true +
          alignUp e.tail.length REC_ALIGN))
        let (offs, stop) ← planRecs es at1
        some (at0 % 2 ^ 32 :: offs, stop)

/-- `section_layout` with no room kept for inserts or updates: the table, the directory and the
fence behind the header, then the records. -/
def sectionLayout (keys recBytes stride fenceN fenceBlobLen : ℕ) : Option (Trailer × ℕ) :=
  if MAX_RECS < recBytes then none
  else do
    let cap ← hashCapFor keys
    let dirOff := HEADER + cap * SLOT
    let fenceOffsOff := dirOff + keys * 4
    let fenceOffsLen := if fenceN = 0 then 0 else (fenceN + 1) * 4
    let recsOff := alignUp (fenceOffsOff + fenceOffsLen + fenceBlobLen) REC_ALIGN
    some (⟨fenceOffsOff, stride, fenceN, dirOff, HEADER, cap, recsOff + recBytes⟩, recsOff)

/-- `encode_inline` as a segment's writer calls it: the section of the sorted entries and the bytes
to reserve for it.  `order` is the order the keys are put into the table in: theirs, or, where the
table is filled by several threads, the order their slots were claimed in. -/
def encodeInline (target : ℕ+) (order : ℕ → ℕ) (all : List FlatEntry) (generation : ℕ)
    (hashOf : Bytes → ℕ) : Option (Bytes × ℕ) := do
  let n := all.length
  let (offs, recsLen) ← planRecs all 0
  let stride := fenceStride target n
  let fenceN := divCeil n stride
  let fence := fenceRegion (keyOf all) stride fenceN
  let (t, recsOff) ← sectionLayout n recsLen stride fenceN
    (fence.length - if fenceN = 0 then 0 else (fenceN + 1) * 4)
  let slots ← fillHash t.cap (t.cap - 1) n
    (fun i => (hashOf (keyOf all (order i)), offs.getD (order i) 0)) false
  let header := headerBytes (headerWords generation n recsOff recsLen t)
  some (header ++ (slots.flatMap (leBytes SLOT) ++ (offs.flatMap (leBytes 4) ++ (fence ++
    (padding (t.fenceOffsOff + fence.length) REC_ALIGN ++ recordsOf true all)))), t.total)

end Flatindex

end Supdb
