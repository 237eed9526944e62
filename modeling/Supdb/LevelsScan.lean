import Supdb.LevelsRead

/-!
# Scans of the levels

A scan hands out the keys at or after one, in order and each once, with what a read of each would
give.  Three walks do it, by what the store holds.

* `Levels.scanCursors` – a cursor over every segment that may reach the start, and one over the
  unsealed keys.
* `Levels.scanMerged` – `scan_merged`: one cursor for the partitions, which is moved on from each to
  the next, and one for each piece; where every piece is aligned, for those over the partition the
  walk is in alone.
* `Levels.scanPartitions` – `scan_partitions`: with no piece, each partition walked in bulk, cut
  where the next unsealed key falls.

A snapshot is the keys of the tables not landed and of the live one, in order, and a seek of a
segment or of a snapshot is to the first key not below the one sought.  The forms a partition's
records are also kept in, and the block cache over them, are not modelled here; nor is what is
counted, hinted or prefetched.
-/

namespace Supdb

open StorageLib

/-! ## Cursors -/

/-- `Cur`: a segment and the rank the cursor stands at. -/
structure Cur where
  seg : Seg
  rank : ℕ

namespace Cur

/-- The key it stands on. -/
def key (c : Cur) : Option Bytes := c.seg.keys[c.rank]?

/-- `values_at`. -/
def values (c : Cur) : List Bytes := (c.seg.entries[c.rank]?.map Entry.values).getD []

/-- Whether an extent it stands on is a tombstone. -/
def tomb (c : Cur) : Bool := c.seg.entries[c.rank]?.any Entry.tomb

def advance (c : Cur) : Cur := { c with rank := c.rank + 1 }

end Cur

/-- The place of the first key of `keys[lo..hi]` not below one. -/
def seekIn (keys : List Bytes) (k : Bytes) (lo hi : ℕ) : ℕ :=
  partitionPoint (fun i => keys[i]?.any (fun x => decide (x < k))) lo hi

namespace Seg

/-- `may_reach`. -/
def mayReach (s : Seg) (start : Bytes) : Bool := s.fence.2.all (fun h => decide (start < h))

/-- `cursor_from`. -/
def cursorFrom (s : Seg) (start : Bytes) : Bytes := if s.fence.1 ≠ [] ∧
    start < s.fence.1 then s.fence.1 else start

/-- The rank a seek of a segment gives. -/
def seek (s : Seg) (k : Bytes) : ℕ := seekIn s.keys k 0 s.keys.length

/-- A cursor sought to a scan's start. -/
def cursorAt (s : Seg) (start : Bytes) : Cur := ⟨s, s.seek (s.cursorFrom start)⟩

end Seg

/-- The lesser of the least key so far and another. -/
def lesserKey (next k : Option Bytes) : Option Bytes :=
  match k with
  | none => next
  | some k => if next.all (fun n => decide (k < n)) then some k else next

/-- The least key that any source stands on. -/
def nextKey (keys : List (Option Bytes)) : Option Bytes := keys.foldl lesserKey none

/-- Each cursor that stands on a key, moved on. -/
def advancePast (cs : List Cur) (k : Bytes) : List Cur :=
  cs.map (fun c => if c.key = some k then c.advance else c)

/-- The values of the cursors that stand on a key, from a source on, the first cursor being the
`at0`-th source. -/
def cursorVals (cs : List Cur) (k : Bytes) (at0 start : ℕ) : List Bytes :=
  cs.zipIdx.flatMap (fun c => if at0 + c.2 < start then [] else if c.1.key
    = some k then c.1.values else [])

namespace Levels

/-! ## What is emitted -/

/-- The keys of the frozen tables and the live one, in order, as a snapshot that is current has
them. -/
def unsealed (h : Levels) : List Bytes :=
  slotsInKeyOrder (h.sealing.flatMap FrozenTable.table ++ h.mem)

/-- The unsealed keys from a scan's start on. -/
def unsealedFrom (h : Levels) (start : Bytes) : List Bytes :=
  h.unsealed.drop (seekIn h.unsealed start 0 h.unsealed.length)

/-- The source a key's live values begin at, the cursors standing behind `at0` others. -/
def scanStart (h : Levels) (at0 : ℕ) (cs : List Cur) (inUnsealed : Bool) (k : Bytes) : ℕ :=
  if !h.hasTombstones then 0
  else
    newestMask at0 (cs.map (fun c => c.seg.tombs && decide (c.key = some k) && c.tomb))
      (h.sealing.map (fun j => inUnsealed && (recordsDelta j.table k).masks))
      (inUnsealed && (recordsDelta h.mem k).masks)

/-- The values of the tables from a source on, the first table being the `at0`-th. -/
def tableVals (h : Levels) (inUnsealed : Bool) (k : Bytes) (at0 start : ℕ) : List Bytes :=
  if inUnsealed then
    h.sealing.zipIdx.flatMap
      (fun j => if at0 + j.2 < start then [] else (recordsDelta j.1.table k).vals) ++
      (recordsDelta h.mem k).vals
  else []

/-! ## Every cursor -/

/-- The merge of every cursor and the snapshot, over a number of keys at most. -/
def cursorsLoop (h : Levels) : ℕ → List Cur → List Bytes → List (Bytes × List Bytes)
  | 0, _, _ => []
  | n + 1, cs, us =>
      match nextKey (cs.map Cur.key ++ [us.head?]) with
      | none => []
      | some k =>
          let inUnsealed := decide (us.head? = some k)
          let start := h.scanStart 0 cs inUnsealed k
          (k, cursorVals cs k 0 start ++ h.tableVals inUnsealed k cs.length start) ::
            h.cursorsLoop n (advancePast cs k) (if inUnsealed then us.tail else us)

/-- `scan` over every segment. -/
def scanCursors (h : Levels) (start : Bytes) (limit : ℕ) : List (Bytes × List Bytes) :=
  h.cursorsLoop limit ((h.live.filter (·.mayReach start)).map (·.cursorAt start))
    (h.unsealedFrom start)

/-! ## The partitions in turn -/

/-- Whether a partition ends at or before a key. -/
def endsBelow (h : Levels) (start : Bytes) (i : ℕ) : Bool :=
  (h.parts[i]?.bind (fun s => s.fence.2)).any (fun x => decide (x ≤ start))

/-- The gallop of `first_reaching`, the step a power of two. -/
def reachSpan (h : Levels) (start : Bytes) (j lo : ℕ) : ℕ × ℕ :=
  if 2 ^ j ≤ h.parts.length ∧ h.endsBelow start (2 ^ j - 1) then h.reachSpan start (j + 1) (2 ^ j)
  else (lo, min (2 ^ j) h.parts.length)
termination_by h.parts.length + 1 - 2 ^ j
decreasing_by
  have hpos := Nat.two_pow_pos j
  rw [Nat.pow_succ]
  omega

/-- `first_reaching`. -/
def firstReaching (h : Levels) (start : Bytes) : ℕ :=
  let span := h.reachSpan start 0 0
  span.1 + partitionPoint (fun i => h.endsBelow start (span.1 + i)) 0 (span.2 - span.1)

/-- The level-0 cursors: over the pieces of a partition's range where every piece is aligned, and
else over all that may reach the start. -/
def seekL0 (h : Levels) (at0 : ℕ) (start : Bytes) : List Cur :=
  ((if h.l0Aligned then h.piecesOver at0 else h.l0).filter (·.mayReach start)).map
    (·.cursorAt start)

/-- The first partition walked: the first with a key there, or the first of all where the pieces are
those over it. -/
def firstPart (h : Levels) (start : Bytes) : List (Seg × ℕ) → List (Seg × ℕ) × Option Cur × ℕ
  | [] => ([], none, h.parts.length)
  | (p, i) :: rest =>
      if (p.cursorAt start).key.isSome || h.l0Aligned then (rest, some (p.cursorAt start), i)
        else h.firstPart start rest

/-- The walk moved on past partitions with no key left, and, where the pieces are those over the
partition, none in them. -/
def nextPart (h : Levels) : List (Seg × ℕ) → Option Cur → List Cur →
    List (Seg × ℕ) × Option Cur × List Cur
  | [], pw, l0 => ([], pw, l0)
  | (p, i) :: rest, pw, l0 =>
      if h.l0Aligned then
        if pw.all (fun c => c.key.isNone) && l0.all (fun c => c.key.isNone) then
          h.nextPart rest (some ⟨p, 0⟩) (h.seekL0 i p.fence.1)
        else ((p, i) :: rest, pw, l0)
      else if pw.any (fun c => c.key.isNone) then h.nextPart rest (some ⟨p, 0⟩) l0
      else ((p, i) :: rest, pw, l0)

/-- The merge of the partitions' cursor, the level-0 ones and the snapshot.  A partition's cursor
that stood on the key emitted is moved on at the next turn's start. -/
def mergedLoop (h : Levels) : ℕ → Bool → List (Seg × ℕ) → Option Cur → List Cur → List Bytes →
    List (Bytes × List Bytes)
  | 0, _, _, _, _, _ => []
  | n + 1, padv, rest, pw, l0, us =>
      let pw := if padv then pw.map Cur.advance else pw
      let w := if padv || h.l0Aligned then h.nextPart rest pw l0 else (rest, pw, l0)
      let pw := w.2.1
      let l0 := w.2.2
      match nextKey (pw.bind Cur.key :: (l0.map Cur.key ++ [us.head?])) with
      | none => []
      | some k =>
          let inUnsealed := decide (us.head? = some k)
          let inPart := decide (pw.bind Cur.key = some k)
          let start := h.scanStart 1 l0 inUnsealed k
          (k, (if inPart && decide (start = 0) then (pw.map Cur.values).getD [] else []) ++
              cursorVals l0 k 1 start ++ h.tableVals inUnsealed k (1 + l0.length) start) ::
            h.mergedLoop n inPart w.1 pw (advancePast l0 k) (if inUnsealed then us.tail else us)

/-- `scan_merged`. -/
def scanMerged (h : Levels) (start : Bytes) (limit : ℕ) : List (Bytes × List Bytes) :=
  let w := h.firstPart start (h.parts.zipIdx.drop (h.firstReaching start))
  h.mergedLoop limit false w.1 w.2.1 (h.seekL0 w.2.2 start) (h.unsealedFrom start)

/-! ## The partitions in bulk -/

/-- `emit_unsealed`: an unsealed key, and the partition's cursor where it stands on that key. -/
def emitUnsealed (h : Levels) (k : Bytes) (part : Option Cur) : Bytes × List Bytes :=
  let start := h.scanStart 1 [] true k
  (k, (if start = 0 then (part.map Cur.values).getD [] else []) ++ h.tableVals true k 1 start)

/-- Where a walk of a partition up to `hi` is cut for the next unsealed key, and whether the
partition holds that key there. -/
def cutAt (s : Seg) (rank hi : ℕ) (next : Option Bytes) : ℕ × Bool :=
  match next with
  | some u =>
      if rank < hi then
        let r := seekIn s.keys u rank hi
        if hi ≤ r then (hi, false) else (r, decide (s.keys[r]? = some u))
      else (hi, false)
  | none => (hi, false)

/-- The records of a partition from a rank on, as many as there are to be. -/
def bulk (s : Seg) (rank n : ℕ) : List (Bytes × List Bytes) :=
  ((s.entries.drop rank).take n).map (fun e => (e.key, e.values))

/-- The walk of one partition, the unsealed keys of its range laid over it: what it emits, how many
keys are still wanted, and the unsealed keys behind it. -/
def partLoop (h : Levels) (s : Seg) (n rank : ℕ) (us : List Bytes) :
    List (Bytes × List Bytes) × ℕ × List Bytes :=
  if n = 0 then ([], 0, us)
  else
    let cut := cutAt s rank (min (rank + n) s.keys.length) us.head?
    let got := cut.1 - rank
    let out := bulk s rank got
    let rank := rank + got
    if n ≤ got then (out, n - got, us)
    else
      match us with
      | [] => (out, n - got, [])
      | u :: rest =>
          let same := decide (rank < s.keys.length) && cut.2
          if !same &&
            (s.fence.2.any (fun x => decide (x ≤ u)) ||
            (decide (s.keys.length ≤ rank) && s.fence.2.isNone)) then
            (out, n - got, u :: rest)
          else
            let r := h.partLoop s (n - got - 1) (if same then rank + 1 else rank) rest
            (out ++ h.emitUnsealed u (if same then some ⟨s, rank⟩ else none) :: r.1, r.2)
termination_by n
decreasing_by omega

/-- The walk of one partition after another. -/
def partsLoop (h : Levels) : List Seg → ℕ → Bytes → List Bytes →
    List (Bytes × List Bytes) × ℕ × List Bytes
  | [], n, _, us => ([], n, us)
  | s :: rest, n, cursor, us =>
      if n = 0 then ([], 0, us)
      else
        let r := h.partLoop s n (s.seek (s.cursorFrom cursor)) us
        match s.fence.2 with
        | some hi =>
            let q := h.partsLoop rest r.2.1 hi r.2.2
            (r.1 ++ q.1, q.2)
        | none => r

/-- `scan_partitions`. -/
def scanPartitions (h : Levels) (start : Bytes) (limit : ℕ) : List (Bytes × List Bytes) :=
  let r := h.partsLoop (h.parts.drop (h.firstReaching start)) limit start (h.unsealedFrom start)
  r.1 ++ (r.2.2.take r.2.1).map (fun u => h.emitUnsealed u none)

/-- `scan`, where the block cache stands aside; told whether the merge keeps one cursor for the
partitions. -/
def scan (h : Levels) (merge : Bool) (start : Bytes) (limit : ℕ) : List (Bytes × List Bytes) :=
  if h.l0 = [] then h.scanPartitions start limit
  else if merge then h.scanMerged start limit
  else h.scanCursors start limit

end Levels

end Supdb
