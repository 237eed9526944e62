import Supdb.BlockTable
import Supdb.Section

/-!
# The reserve planner

A segment's head reserve holds the block table and copies of the key section's checksum row, its
fence and its directory.  Its size is chosen before the first key is written, from lengths alone.

* `cut` – one run through the writer's cut into blocks.
* `Planner` – the sizes of the keys pushed so far: their records, their blocks, the samples the
  fence may take.
* `forLengths` and `fromTotals` – the planner over every key, and over as many keys of the longest
  length with the mean run.

The planner's state after any keys is a sum over them (`foldl_push`), and a planner that has refused
a key answers nothing.
-/

namespace Supdb

open StorageLib

namespace Flatindex

/-- `record_len`. -/
def recordLen (klen next : ℕ) : ℕ := alignUp (4 + klen) REC_ALIGN + next * EXT_BYTES

/-- `record_len_tail`. -/
def recordLenTail (klen next tail : ℕ) : ℕ := recordLen klen next + alignUp tail REC_ALIGN

/-- `record_len_compact`. -/
def recordLenCompact (klen run : ℕ) : ℕ := alignUp (4 + klen) REC_ALIGN + 4 + alignUp run REC_ALIGN

/-- `segment_record_len`: the record of a key whose values are one run, inline or in a block. -/
def segmentRecordLen (klen run : ℕ) (inline compact : Bool) : ℕ :=
  if compact ∧ inline ∧ run < COMPACT_RUN then recordLenCompact klen run
  else recordLenTail klen 1 (if inline then run else 0)

end Flatindex

namespace Reserve

open Flatindex

/-! ## The cut into blocks -/

/-- The bytes of `uvarint_len`. -/
def uvarintLen (v : ℕ) : ℕ := if _h : 0x80 ≤ v then 1 + uvarintLen (v >>> 7) else 1
termination_by v
decreasing_by rw [Nat.shiftRight_eq_div_pow]; omega

/-- `run_len`: what a key's values encode to. -/
def runLen (valueLens : List ℕ) : ℕ :=
  let first := valueLens.headD 0
  if 0 < valueLens.length ∧ 0 < first ∧ valueLens.all (· = first) then valueLens.length * first
  else (valueLens.map (fun l => uvarintLen l + l)).sum

/-- `cut`: a run staged, and the blocks that closed. -/
def cut (staged n blockSize : ℕ) : ℕ × ℕ :=
  let (staged, closed) := if staged ≠ 0 ∧ blockSize - staged < n then (0, 1) else (staged, 0)
  let staged := min (staged + n) (2 ^ 64 - 1)
  if blockSize ≤ staged then (0, closed + 1) else (staged, closed)

/-- What is staged after some runs, and the blocks that closed. -/
def cutAll (blockSize : ℕ) (st : ℕ × ℕ) (runs : List ℕ) : ℕ × ℕ :=
  runs.foldl (fun st n => ((cut st.1 n blockSize).1, st.2 + (cut st.1 n blockSize).2)) st

/-- The block that takes what is still staged. -/
def lastBlock (st : ℕ × ℕ) : ℕ := st.2 + if st.1 ≠ 0 then 1 else 0

/-- `blocks_for`. -/
def blocksFor (runs : List ℕ) (blockSize : ℕ) : ℕ := lastBlock (cutAll blockSize (0, 0) runs)

/-! ## The planner -/

/-- The longest run the planner sizes. -/
def MAX_RUN : ℕ := 2 ^ 32 - 1 - 8

/-- Whether a writer writes compact records unless told otherwise. -/
def COMPACT_RECORDS : Bool := true

/-- `Planner`. -/
structure Planner where
  blockSize : ℕ
  inlineMax : ℕ
  keys : ℕ
  recBytes : ℕ
  staged : ℕ
  blocks : ℕ
  /-- The key lengths at every `sampleStride`-th key. -/
  sampled : List ℕ
  sampleStride : ℕ
  viable : Bool
  compact : Bool
  deriving DecidableEq, Repr

/-- `Reserve`: the bytes of each piece. -/
structure Pieces where
  table : ℕ
  row : ℕ
  fence : ℕ
  directory : ℕ
  deriving DecidableEq, Repr

namespace Planner

/-- `Planner::new`. -/
def new (target : ℕ+) (blockSize inlineMax : ℕ) : Planner :=
  { blockSize := blockSize, inlineMax := inlineMax, keys := 0, recBytes := 0, staged := 0
    blocks := 0, sampled := [], sampleStride := fenceStride target 0, viable := true
    compact := COMPACT_RECORDS }

/-- `Planner::compact_records`. -/
def compactRecords (p : Planner) (on : Bool) : Planner := { p with compact := on }

/-- Whether a run goes into its record. -/
def inlines (p : Planner) (runLen : ℕ) : Bool := 0 < p.inlineMax ∧ runLen ≤ p.inlineMax

/-- `Planner::push`. -/
def push (p : Planner) (keyLen runLen : ℕ) : Planner :=
  if 65535 < keyLen ∨ MAX_RUN < runLen then { p with viable := false }
  else
    let sampled := if p.keys % p.sampleStride = 0 then p.sampled ++ [keyLen] else p.sampled
    let inline := p.inlines runLen
    match checked (p.recBytes + segmentRecordLen keyLen runLen inline p.compact) with
    | none => { p with sampled := sampled, viable := false }
    | some n =>
        let (staged, closed) := if inline then (p.staged, 0) else cut p.staged runLen p.blockSize
        { p with
          sampled := sampled, recBytes := n, staged := staged, blocks := p.blocks + closed
          keys := p.keys + 1 }

/-- The fence's samples added up; none where one was not kept. -/
def fenceBlobLen (p : Planner) (stride fenceN : ℕ) : Option ℕ :=
  (List.range fenceN).foldlM
    (fun len i => (p.sampled[i * stride / p.sampleStride]?).bind (fun l => checked (len + l))) 0

/-- `Planner::finish`. -/
def finish (target : ℕ+) (p : Planner) : Option Pieces :=
  if ¬ p.viable then none
  else do
    let stride := fenceStride target p.keys
    let fenceN := divCeil p.keys stride
    let blobLen ← p.fenceBlobLen stride fenceN
    let (t, recsOff) ← sectionLayout p.keys p.recBytes stride fenceN blobLen
    let blocks := p.blocks + if p.staged ≠ 0 then 1 else 0
    some
      { table := blockTableLen blocks
        row := checksumRowLen t.total PIECE_SHIFT (2 ^ PIECE_SHIFT - 1)
        fence := if fenceN = 0 then 0 else recsOff - t.fenceOffsOff
        directory := p.keys * 4 }

end Planner

/-- `fits`: the pieces in order, each at a multiple of eight, and eight bytes to spare behind the
table. -/
def fits (table row fence dir : ℕ) : ℕ :=
  let at0 := alignUp table 8
  let at1 := alignUp (at0 + row) 8
  let at2 := alignUp (at1 + fence) 8
  max (at2 + dir) (table + 8)

/-- `Reserve::bytes`. -/
def Pieces.bytes (r : Pieces) : ℕ := fits r.table r.row r.fence r.directory

/-- `for_lengths_as`, a key's length and its run's at a time. -/
def forLengthsAs (target : ℕ+) (keys : List (ℕ × ℕ)) (blockSize inlineMax : ℕ) (compact : Bool) :
    Option Pieces :=
  (keys.foldl (fun p k => p.push k.1 k.2)
    ((Planner.new target blockSize inlineMax).compactRecords compact)).finish target

/-- `for_lengths`. -/
def forLengths (target : ℕ+) (keys : List (ℕ × ℕ)) (blockSize inlineMax : ℕ) : Option Pieces :=
  forLengthsAs target keys blockSize inlineMax COMPACT_RECORDS

/-- The run `from_totals` gives every key. -/
def perKeyRun (keys maxRunLen runBytes : ℕ) : ℕ := min (max (divCeil runBytes keys) 1) maxRunLen

/-- The most blocks runs of these totals are cut into, as `from_totals` counts them. -/
def worstBlocks (keys maxRunLen runBytes blockSize : ℕ) : ℕ :=
  if blockSize ≤ maxRunLen then keys
  else min (divCeil runBytes (blockSize - maxRunLen)) keys

/-- `from_totals`. -/
def fromTotals (target : ℕ+) (keys maxKeyLen maxRunLen runBytes blockSize inlineMax : ℕ) :
    Option Pieces :=
  if keys = 0 then forLengths target [] blockSize inlineMax
  else do
    let run := perKeyRun keys maxRunLen runBytes
    let need ← forLengthsAs target (List.replicate keys (maxKeyLen, run)) blockSize inlineMax false
    let worst := worstBlocks keys maxRunLen runBytes blockSize
    some (if blocksFor (List.replicate keys run) blockSize < worst then
      { need with table := blockTableLen worst } else need)

end Reserve

end Supdb
