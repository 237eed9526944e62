import Supdb.Compact
import Supdb.Lib.Layers

/-!
# The levels

The live set is partitions, which tile the keys, and level-0 pieces over them, newer than every
partition.  No age is stored: the set is sorted by level, lower fence, sequence and name, and a read
takes what it consults in that order. Beside reads, tables are frozen and cut at the partitions'
fences as they stand, and land in order; merges over disjoint ranges run beside one another and
beside landings, and replace what they took; a piece merge replaces a range's pieces by one; and
pieces whose keys lie behind a partition's become partitions by a change of name.

* `Seg`, `Levels` – a segment open; the live set, the tables not yet landed, and what runs over
  them.
* `Levels.readAll` – `read_all`: the partition routed to, the pieces over it, the frozen tables and
  the live one.
* `Levels.step` – every way the set moves: a write, a freeze, a landing, a merge or piece merge
  started or landed, and the two promotions.

A filter over a segment's keys is any function that never denies a key the segment holds.  What a
merge writes is what `compactRun` and `tierRun` write of its inputs; every call of a file succeeds.
A table a sync hands over without a freeze is read as a frozen one is, and a direct run's close is a
freeze whose every key lies in the last range.
-/

namespace Supdb

open StorageLib

/-! ## Segments -/

/-- `Seg`: a segment open: its name, and what it holds. -/
structure Seg where
  name : SealName
  entries : List Entry
  deriving DecidableEq, Repr

namespace Seg

/-- What a name says: its kind, id, sequence and fence. -/
def said (s : Seg) : SegName :=
  match s.name with
  | .first id endSeq => ⟨.par, id, endSeq, ([], none)⟩
  | .whole id endSeq => ⟨.pcs, id, endSeq, ([], none)⟩
  | .piece n => n

/-- Whether a segment is of the level below level 0. -/
def isPart (s : Seg) : Bool := s.said.kind = .par

def level (s : Seg) : ℕ := if s.isPart then 1 else 0

def fence (s : Seg) : Fence := s.said.fence

def seq (s : Seg) : ℕ := s.said.endSeq

def id (s : Seg) : ℕ := s.said.id

/-- The file's name. -/
def text (s : Seg) : String :=
  match s.name with
  | .whole id endSeq => "seg-" ++ zeroPadded 8 id ++ "-" ++ zeroPadded 16 endSeq ++ ".sup"
  | _ => s.said.text

def keys (s : Seg) : List Bytes := s.entries.map Entry.key

/-- Whether any key of it has a tombstone. -/
def tombs (s : Seg) : Bool := s.entries.any Entry.tomb

/-- A segment as a merge opens it. -/
def input (s : Seg) : Input := ⟨s.entries, none⟩

/-- What `seg_order` compares: the level, the higher first, the lower fence, the sequence and the
name. -/
def rank (s : Seg) : ℕᵒᵈ ×ₗ Bytes ×ₗ ℕ ×ₗ String :=
  toLex (OrderDual.toDual s.level, toLex (s.fence.1, toLex (s.seq, s.text)))

/-- `may_hold`: the fence, and the filter where it has one. -/
def mayHold (hint : Seg → Bytes → Bool) (s : Seg) (k : Bytes) : Bool :=
  decide (s.fence.Holds k) && hint s k

/-- The values read off a segment, where it may hold the key. -/
def valuesAt (hint : Seg → Bytes → Bool) (k : Bytes) (s : Seg) : List Bytes :=
  if s.mayHold hint k then (deltaIn s.entries k).vals else []

/-- The name a promotion gives: the id and the sequence kept, a partition, the new fence. -/
def renamed (s : Seg) (f : Fence) : Seg := { s with name := .piece ⟨.par, s.id, s.seq, f⟩ }

end Seg

/-- `seg_order`. -/
def segOrder (a b : Seg) : Bool := decide (a.rank ≤ b.rank)

/-! ## The state -/

/-- Whether a record is a tombstone. -/
def WalRecord.isDelete : WalRecord → Bool
  | .delete _ => true
  | _ => false

/-- A table handed to a seal: what was written to it, and the segments its seal writes. -/
structure FrozenTable where
  table : List WalRecord
  pieces : List Seg

/-- `Merging`: a partition merge in flight. -/
structure MergeJob where
  inputs : List Seg
  fences : Option (List Fence)
  outputs : List Seg

/-- A piece merge in flight. -/
structure TierJob where
  inputs : List Seg
  outputs : List Seg

/-- The live set in `seg_order`, the tables frozen and not landed, oldest first, and the live one;
the merges and the piece merge in flight; the sequence covered, the log's next sequence and the next
segment's id. -/
structure Levels where
  live : List Seg
  sealing : List FrozenTable
  mem : List WalRecord
  merging : List MergeJob
  tiering : Option TierJob
  covered : ℕ
  seq : ℕ
  nextSeg : ℕ

/-- What may happen.  A freeze is told whether the options let a seal write the first partition, how
large that may be, and how large its file is; a merge, the ranges planned, if any, how many merges
may run, and the sizes it goes by; a piece merge, its range and how many pieces it takes; the last
promotion, whether a lone piece fits a partition. -/
inductive LevelsOp where
  | write (r : WalRecord)
  | commit
  | freeze (putOne shape : Bool) (limit len : ℕ)
  | land
  | startCompact (given : Option (List Fence)) (room parts maxKeys : ℕ)
  | joinMerge (i : ℕ)
  | startTier (f : Fence) (n : ℕ)
  | joinTier
  | promoteRange (f : Fence)
  | promoteUnpartitioned (fits : Bool)

namespace Levels

/-- An empty store. -/
def empty : Levels := ⟨[], [], [], [], none, 0, 0, 0⟩

/-- The partitions, in key order. -/
def parts (h : Levels) : List Seg := h.live.filter Seg.isPart

/-- The level-0 pieces, as the live set orders them. -/
def l0 (h : Levels) : List Seg := h.live.filter (fun s => !s.isPart)

/-- The segments of the tables not landed. -/
def queue (h : Levels) : List Seg := h.sealing.flatMap FrozenTable.pieces

/-- `publish_segs`: the live set sorted. -/
def publish (segs : List Seg) : List Seg := segs.mergeSort segOrder

/-- `in_flight_input`. -/
def inFlight (h : Levels) (s : Seg) : Bool :=
  h.merging.any (fun m => decide (s.name ∈ m.inputs.map Seg.name)) ||
    h.tiering.any (fun t => decide (s.name ∈ t.inputs.map Seg.name))

/-! ## Reads -/

/-- `l0_aligned_of`. -/
def l0Aligned (h : Levels) : Bool :=
  !h.parts.isEmpty && h.l0.all (fun s => h.parts.any (fun p => p.fence = s.fence))

/-- The partition a key routes to. -/
def route (h : Levels) (k : Bytes) : ℕ :=
  partitionPoint (fun i => (h.parts[i]?.bind (fun s => s.fence.2)).any (fun x => decide (x ≤ k))) 0
    h.parts.length

/-- `pieces_over`: the pieces that may hold a key of a partition's range, those with its lower fence
where every piece is aligned. -/
def piecesOver (h : Levels) (at0 : ℕ) : List Seg :=
  match h.parts[at0]? with
  | none => h.l0
  | some p =>
      if !h.l0Aligned then h.l0
      else
        let lo := p.fence.1
        let start := partitionPoint (fun i => h.l0[i]?.any (fun s => decide (s.fence.1 < lo))) 0 h.l0.length
        let rest := h.l0.drop start
        rest.take (partitionPoint (fun i => rest[i]?.any (fun s => decide (s.fence.1 = lo))) 0 rest.length)

/-- `has_tombstones`. -/
def hasTombstones (h : Levels) : Bool :=
  h.live.any Seg.tombs || h.mem.any WalRecord.isDelete || h.sealing.any
    (fun j => j.table.any WalRecord.isDelete)

/-- The source a read's live values begin at: the partition is 0, then the pieces, the frozen tables
and the live one. -/
def readStart (h : Levels) (hint : Seg → Bytes → Bool) (pieces : List Seg) (k : Bytes) : ℕ :=
  if !h.hasTombstones then 0
  else
    newestMask 1 (pieces.map (fun s => s.tombs && s.mayHold hint k && (deltaIn s.entries k).masks))
      (h.sealing.map (fun j => (recordsDelta j.table k).masks)) (recordsDelta h.mem k).masks

/-- `read_all`. -/
def readAll (h : Levels) (hint : Seg → Bytes → Bool) (k : Bytes) : List Bytes :=
  let pieces := h.piecesOver (h.route k)
  let start := h.readStart hint pieces k
  let frIx := 1 + pieces.length
  (if start = 0 then (h.parts[h.route k]?.map (Seg.valuesAt hint k)).getD [] else []) ++
  pieces.zipIdx.flatMap (fun s => if 1 + s.2 < start then [] else Seg.valuesAt hint k s.1) ++
  h.sealing.zipIdx.flatMap
    (fun j => if frIx + j.2 < start then [] else (recordsDelta j.1.table k).vals) ++
  (recordsDelta h.mem k).vals

/-! ## Tables -/

/-- A seal's plan over the partitions as they stand. -/
def sealPlan (h : Levels) (putOne shape : Bool) (limit : ℕ) : SealPlan :=
  { putOne := putOne, firstId := h.nextSeg, endSeq := h.seq
    firstPartition := shape && h.live.isEmpty && h.sealing.isEmpty, limit := limit, fences :=
    h.parts.map Seg.fence }

/-- The segments a seal writes: the table's records cut at the ranges. -/
def sealPieces (plan : SealPlan) (len : ℕ) (table : List WalRecord) : List Seg :=
  (piecesOf 0 plan.ranges (sealRecs plan table)).map (fun p =>
    ⟨sealName plan (plan.firstId + p.1) p.2.1 (p.2.2.any (fun r => r.1.tomb)) len,
      p.2.2.map Prod.fst⟩)

/-- `seal_table`: the live table frozen and handed over. -/
def freeze (h : Levels) (putOne shape : Bool) (limit len : ℕ) : Levels :=
  if h.mem = [] then h
  else
    { h with mem := [], sealing := h.sealing ++ [⟨h.mem, sealPieces (h.sealPlan putOne shape limit) len h.mem⟩]
             nextSeg := h.nextSeg + max h.parts.length 1 }

/-- `land_readable` of the oldest one. -/
def land (h : Levels) : Levels :=
  match h.sealing with
  | [] => h
  | j :: rest =>
      { h with live := publish (h.live ++ j.pieces), sealing := rest
               covered := j.pieces.foldl (fun c s => max c s.seq) h.covered }

/-! ## Merges -/

/-- `cover_inputs`. -/
def coverInputs (h : Levels) (given : List Fence) : List Fence :=
  resolveFences (h.parts.map Seg.fence) (h.l0.map Seg.fence) given

/-- `merges_meet`. -/
def mergesMeet (a b : MergeJob) : Bool :=
  match a.fences, b.fences with
  | some fs, some gs =>
      b.inputs.any (fun s => decide (s.name ∈ a.inputs.map Seg.name)) || fs.any
        (fun f => gs.any (fun g => fencesOverlap f g))
  | _, _ => true

/-- What a merge takes: everything, or what its fences overlap. -/
def mergeInputs (h : Levels) (fences : Option (List Fence)) : List Seg :=
  match fences with
  | none => h.live
  | some fs => h.live.filter (fun s => fs.any (fun f => fencesOverlap s.fence f))

/-- The job a merge starts. -/
def mergePlan (h : Levels) (fences : Option (List Fence)) (parts maxKeys : ℕ) : MergePlan :=
  { firstId := h.nextSeg, endSeq := h.covered, fences := fences, maxKeys := max maxKeys 1000
    parts := match fences with
      | some fs => fs.length
      | none => max parts 1
    cursors := true, heads := true, walkCached := true }

/-- The segments a merge writes. -/
def mergeOutputs (plan : MergePlan) (inputs : List Seg) : List Seg :=
  if allKeys (inputs.map Seg.input) = [] then []
  else (compactParts plan (inputs.map Seg.input)).map
    (fun p => ⟨.piece p.1, partEntries (inputs.map Seg.input) p.2⟩)

/-- The merge that ranges make over the live set. -/
def mergeJob (h : Levels) (given : Option (List Fence)) (parts maxKeys : ℕ) : MergeJob :=
  let fences := given.map h.coverInputs
  let inputs := h.mergeInputs fences
  ⟨inputs, fences, mergeOutputs (h.mergePlan fences parts maxKeys) inputs⟩

/-- The ids a merge reserves. -/
def reserved (h : Levels) (given : Option (List Fence)) (parts maxKeys : ℕ) : ℕ :=
  max ((h.mergePlan (given.map h.coverInputs) parts maxKeys).parts * 4) 8

/-- `start_compact`, beside the merges it leaves running; its callers start none beside a piece
merge. -/
def startCompact (h : Levels) (given : Option (List Fence)) (room parts maxKeys : ℕ) : Levels :=
  if h.tiering.isSome then h
  else if h.merging ≠ [] ∧ (given = none ∨ max room 1 ≤ h.merging.length) then h
  else
    let m := h.mergeJob given parts maxKeys
    if m.inputs = [] then h
    else if h.merging.any (fun a => mergesMeet a m) then h
    else
      { h with merging := h.merging ++ [m], nextSeg := h.nextSeg + h.reserved given parts maxKeys }

/-- `join_merge`. -/
def joinMerge (h : Levels) (i : ℕ) : Levels :=
  match h.merging[i]? with
  | none => h
  | some m =>
      { h with merging := h.merging.eraseIdx i
               live := publish (m.outputs ++ h.live.filter (fun s => s.name ∉ m.inputs.map Seg.name)) }

/-- The pieces of a range that no merge in flight takes. -/
def tierInputs (h : Levels) (f : Fence) : List Seg :=
  h.live.filter (fun s => !s.isPart && s.fence = f && !h.merging.any (fun m => decide (s.name ∈ m.inputs.map Seg.name)))

/-- The segment a piece merge writes: none where its inputs hold no key. -/
def tierOutputs (id covered : ℕ) (f : Fence) (inputs : List Seg) : List Seg :=
  if allKeys (inputs.map Seg.input) = [] then []
  else
    [⟨.piece ⟨.pcs, id, (inputs.map Seg.seq).max?.getD covered, f⟩,
      tierEntries (inputs.map Seg.input)⟩]

/-- `maybe_tier` at one partition's range. -/
def startTier (h : Levels) (f : Fence) (n : ℕ) : Levels :=
  if n = 0 ∨ h.tiering.isSome ∨ f ∉ h.parts.map Seg.fence ∨ (h.tierInputs f).length < n then h
  else
    { h with tiering := some ⟨h.tierInputs f, tierOutputs h.nextSeg h.covered f (h.tierInputs f)⟩
             nextSeg := h.nextSeg + 1 }

/-- `join_tier`. -/
def joinTier (h : Levels) : Levels :=
  match h.tiering with
  | none => h
  | some t =>
      { h with tiering := none
               live := publish (h.live.filter (fun s => s.name ∉ t.inputs.map Seg.name) ++ t.outputs) }

/-! ## Promotions -/

/-- The pieces of a chain, by their first keys: each one's first key, cut to a fence's length, above
what is before it and inside the range.  Gives each one's bound. -/
def chainBounds (range : Fence) : Option Bytes → List Seg → Option (List Bytes)
  | _, [] => some []
  | prevLast, s :: ss => do
      let first ← s.keys.head?
      let b := fenceLo first
      if prevLast.any (fun pl => decide (b ≤ pl)) then none
      else if (if range.1 = [] then b = [] else b ≤ range.1) ∨ range.2.any (fun h => decide (h ≤ b)) then none
      else do
        let bounds ← chainBounds range s.keys.getLast? ss
        some (b :: bounds)

/-- `promotion_chain`: the pieces in order of their first keys, and their bounds. -/
def promotionChain (range : Fence) (floor : Option Bytes) (pieces : List Seg) :
    Option (List Seg × List Bytes) :=
  if pieces = [] ∨ pieces.any (fun s => s.keys.isEmpty) then none
  else
    let pieces := pieces.mergeSort (fun a b => decide (a.keys.head?.getD [] ≤ b.keys.head?.getD []))
    (chainBounds range floor pieces).map (fun bounds => (pieces, bounds))

/-- Each piece with the fence from its bound to the next one's, the last up to the range's end. -/
def chainFences (hi : Option Bytes) : List Bytes → List Fence
  | [] => []
  | [b] => [(b, hi)]
  | b :: c :: bs => (b, some c) :: chainFences hi (c :: bs)

/-- The live set with some of it under other names. -/
def promoted (live : List Seg) (renames : List (Seg × Fence)) : List Seg :=
  live.map
    (fun s => ((renames.find? (fun r => r.1.name = s.name)).map (fun r => s.renamed r.2)).getD s)

/-- `apply_promotion`. -/
def applyPromotion (h : Levels) (renames : List (Seg × Fence)) : Levels :=
  { h with live := publish (promoted h.live renames) }

/-- Whether a piece may be promoted with a range's: cut at its fences, or open-ended over the last
range. -/
def candidate (f : Fence) (s : Seg) : Bool :=
  !s.isPart && (s.fence = f || (f.2 = none && s.fence.2 = none && s.fence.1 ≤ f.1))

/-- `promote_ranges`, at one range. -/
def promoteRange (h : Levels) (f : Fence) : Levels :=
  let pieces := h.live.filter (candidate f)
  match h.parts.find? (fun s => s.fence = f) with
  | none => h
  | some p =>
      if h.inFlight p ∨ pieces.any h.inFlight then h
      else if h.live.any (fun s => !s.isPart && !candidate f s && fencesOverlap s.fence f) then h
      else
        match promotionChain f p.keys.getLast? pieces with
        | none => h
        | some (pieces, bounds) =>
            h.applyPromotion ((p, (f.1, some (bounds.headD []))) :: pieces.zip (chainFences f.2 bounds))

/-- `promote_unpartitioned`. -/
def promoteUnpartitioned (h : Levels) (fits : Bool) : Levels :=
  if h.parts ≠ [] ∨ h.l0 = [] ∨ h.l0.any h.inFlight then h
  else if h.l0.length = 1 ∧ (h.l0.any Seg.tombs ∨ ¬ fits) then h
  else
    match promotionChain ([], none) none h.l0 with
    | none => h
    | some (pieces, bounds) => h.applyPromotion (pieces.zip (chainFences none ([] :: bounds.drop 1)))

/-! ## Steps -/

/-- A write, a commit, a freeze, or a step of a job. -/
def step (h : Levels) : LevelsOp → Levels
  | .write r => { h with mem := h.mem ++ [r], seq := h.seq + 1 }
  | .commit => { h with seq := h.seq + 1 }
  | .freeze putOne shape limit len => h.freeze putOne shape limit len
  | .land => h.land
  | .startCompact given room parts maxKeys => h.startCompact given room parts maxKeys
  | .joinMerge i => h.joinMerge i
  | .startTier f n => h.startTier f n
  | .joinTier => h.joinTier
  | .promoteRange f => h.promoteRange f
  | .promoteUnpartitioned fits => h.promoteUnpartitioned fits

/-- Writes, freezes and jobs of the levels in any order. -/
def run (h : Levels) (ops : List LevelsOp) : Levels := ops.foldl step h

end Levels

/-- What a step writes. -/
def LevelsOp.records : LevelsOp → List WalRecord
  | .write r => [r]
  | _ => []

end Supdb
