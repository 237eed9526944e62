import Supdb.Lib.Delta
import Supdb.Lib.KMerge
import Supdb.OrdIndex
import Supdb.SegmentFinish

/-!
# Merging segments

A merge walks its inputs, oldest to newest, in key order, twice: once for the keys, which decide the
*slices* of the walk and the fence each output is named by, and once for the values, which an
*emitter* writes into one piece per slice.

* `mergeRanks` and `mergeKeys` – the two walks, by the records and by the ordered indexes.
* `Slicer` – the slices and their fences, from the keys pushed once in order.
* `Emitter` – the pieces written, a writer opened at each slice's first rank and finished at its
  last.
* `compactRun` – a partition merge, whose outputs are the bottom level.
* `tierRun` – a piece merge, whose one output still masks what lies below it.

An opened input is the list of what its segment holds, in key order, and its ordered index where one
opens beside it.  File creation, renaming and syncing are taken to succeed.
-/

namespace Supdb

open StorageLib

/-! ## Fences and names -/

/-- A half-open range of keys, unbounded above where there is no upper end. -/
abbrev Fence := Bytes × Option Bytes

/-- The longest a fence's ends get. -/
def FENCE_MAX : ℕ := 16

/-- `fence_lo`: a key cut to the fence's length. -/
def fenceLo (minKey : Bytes) : Bytes := minKey.take FENCE_MAX

/-- Whether a key lies inside a fence. -/
def Fence.Holds (f : Fence) (k : Bytes) : Prop := f.1 ≤ k ∧ ∀ h ∈ f.2, k < h

instance (f : Fence) (k : Bytes) : Decidable (f.Holds k) :=
  inferInstanceAs (Decidable (f.1 ≤ k ∧ ∀ h ∈ f.2, k < h))

/-- The two kinds of segment a merge writes: a partition and a piece. -/
inductive SegKind where
  | par
  | pcs
  deriving DecidableEq, Repr

/-- What a segment's name says. -/
structure SegName where
  kind : SegKind
  id : ℕ
  endSeq : ℕ
  fence : Fence
  deriving DecidableEq, Repr

/-- `hex`. -/
def hex (b : Bytes) : String :=
  String.ofList (b.flatMap (fun x => [Nat.digitChar (x.toNat / 16), Nat.digitChar (x.toNat % 16)]))

/-- A number with zeros before it up to a width. -/
def zeroPadded (width n : ℕ) : String :=
  let s := toString n
  String.ofList (List.replicate (width - s.length) '0') ++ s

/-- A segment's file name. -/
def SegName.text (name : SegName) : String :=
  let kind := match name.kind with
    | .par => "par"
    | .pcs => "pcs"
  kind ++ "-" ++ zeroPadded 8 name.id ++ "-" ++ zeroPadded 16 name.endSeq ++ "-" ++
    hex name.fence.1 ++ "-" ++ (name.fence.2.map hex).getD "" ++ ".sup"

/-! ## The walks -/

/-- An input opened: what its segment holds, and its ordered index. -/
structure Input where
  entries : List Entry
  ord : Option OrdIndex

/-- An input's keys. -/
def Input.keys (s : Input) : List Bytes := s.entries.map Entry.key

/-- The ranks of all inputs together. -/
def totalKeys (inputs : List Input) : ℕ := (inputs.map (fun s => s.entries.length)).sum

/-- The key of an input at a rank, read off its record. -/
def recordKeyAt (inputs : List Input) (i r : ℕ) : Option Bytes := do
  let s ← inputs[i]?
  s.keys[r]?

/-- `merge_ranks`: the inputs walked in rank order, each distinct key once, with the inputs that
hold it. -/
def mergeRanks {σ : Type} (inputs : List Input) (cached : Bool)
    (f : σ → Bytes → List (ℕ × ℕ) → Except String σ) (s : σ) : Except String σ :=
  kmerge (recordKeyAt inputs) cached f inputs.length (totalKeys inputs) s

/-- The key of an input at a rank, read off its heads where they are whole keys. -/
def headKeyAt (inputs : List Input) (ords : List (Option OrdIndex)) (i r : ℕ) : Option Bytes := do
  let s ← inputs[i]?
  if s.entries.length ≤ r then none
  else
    match (ords.getD i none).bind (fun o => o.wholeKeyAt r) with
    | some k => some k
    | none => s.keys[r]?

/-- `merge_keys`: the walk of a merge's first pass. -/
def mergeKeys {σ : Type} (inputs : List Input) (ords : List (Option OrdIndex)) (cached : Bool)
    (f : σ → Bytes → List (ℕ × ℕ) → Except String σ) (s : σ) : Except String σ :=
  kmerge (headKeyAt inputs ords) cached f inputs.length (totalKeys inputs) s

/-- The ordered index a merge reads an input's keys by: opened, its prefix learned, and its heads
found to be whole keys. -/
def openOrd (heads : Bool) (s : Input) : Option OrdIndex :=
  if ¬ heads then none
  else do
    let ord ← s.ord
    let first ← s.keys[0]?
    let ord := ord.learnPrefix first
    let _ ← ord.wholeKeyAt 0
    some ord

/-! ## The slices -/

/-- The slices cut so far, where the next one starts, and the low end of its fence. -/
structure Cut where
  slices : List (ℕ × ℕ)
  given : List Fence
  pos : ℕ
  slo : Bytes
  deriving DecidableEq, Repr

/-- The first rank whose key is not below a bound. -/
def keysBelow (keys : List Bytes) (bound : Bytes) : ℕ :=
  partitionPoint (fun i => decide (keys.getD i [] < bound)) 0 keys.length

/-- A bound tried: it makes a slice when it cuts anything off what is left. -/
def Cut.step (keys : List Bytes) (a b : ℕ) (c : Cut) (bound : Bytes) : Cut :=
  let stop := max a (min b (keysBelow keys bound))
  if c.pos < stop then
    { slices := c.slices ++ [(c.pos, stop)], given := c.given ++ [(c.slo, some bound)], pos := stop,
      slo := bound }
  else c

/-- `cut_by_bounds`: the ranks `[a, b)`, whose keys lie in the fence `(lo, hi)`, cut at `bounds`. -/
def cutByBounds (keys : List Bytes) (a b : ℕ) (lo : Bytes) (hi : Option Bytes)
    (bounds : List Bytes) : List (ℕ × ℕ) × List Fence :=
  let c := bounds.foldl (Cut.step keys a b) ⟨[], [], a, lo⟩
  if c.pos < b then (c.slices ++ [(c.pos, b)], c.given ++ [(c.slo, hi)])
  else
    match c.given.getLast? with
    | some last => (c.slices, c.given.dropLast ++ [(last.1, hi)])
    | none => (c.slices, c.given)

/-- The bounds at every `per`-th rank of the keys held, cut to the fence's length, each named
once. -/
def evenBounds (held : List Bytes) (n per : ℕ) : List Bytes :=
  (List.range' 1 (n - 1)).foldl (fun bounds i =>
    let b := fenceLo (held.getD (min (i * per) (held.length - 1)) [])
    if bounds.getLast? = some b then bounds else bounds ++ [b]) []

/-- A merge's slices being taken from its distinct keys.  `fences` are the given fences from the
walked one on. -/
structure Slicer where
  fences : Option (List Fence)
  parts : ℕ
  maxKeys : ℕ
  start : ℕ
  held : List Bytes
  total : ℕ
  slices : List (ℕ × ℕ)
  given : List Fence
  deriving DecidableEq, Repr

namespace Slicer

/-- `Slicer::new`. -/
def new (fences : Option (List Fence)) (parts maxKeys : ℕ) : Slicer :=
  { fences := fences, parts := parts, maxKeys := maxKeys, start := 0, held := [], total := 0
    slices := [], given := [] }

/-- `close_fence`: the slices of the walked fence, from the keys it held; an empty one where it
held none. -/
def closeFence (s : Slicer) (f : Fence) (rest : List Fence) : Slicer :=
  let s' := { s with fences := some rest, held := [] }
  if s.held = [] then
    { s' with slices := s.slices ++ [(s.total, s.total)], given := s.given ++ [f] }
  else
    let len := s.held.length
    let n := max (divCeil len (max s.maxKeys 1)) 1
    let (cut, given) := cutByBounds s.held 0 len f.1 f.2 (evenBounds s.held n (divCeil len n))
    { s' with slices := s.slices ++ cut.map (fun r => (s.start + r.1, s.start + r.2)),
              given := s.given ++ given }

/-- A key held under the fence being walked, after every fence it is past is closed. -/
def pushIn (k : Bytes) : List Fence → Slicer → Slicer
  | [], s => s
  | f :: rest, s =>
      if f.2.any (fun h => h ≤ k) then pushIn k rest (s.closeFence f rest)
      else if f.1 ≠ [] ∧ k < f.1 then s
      else { s with start := if s.held = [] then s.total else s.start,
                    held := s.held ++ [k.take FENCE_MAX] }

/-- `Slicer::push`: the next distinct key. -/
def push (s : Slicer) (k : Bytes) : Slicer :=
  let s := match s.fences with
    | some fs => pushIn k fs s
    | none => { s with held := s.held ++ [k.take FENCE_MAX] }
  { s with total := s.total + 1 }

/-- The fences left closed, one by one. -/
def closeAll : List Fence → Slicer → Slicer
  | [], s => s
  | f :: rest, s => closeAll rest (s.closeFence f rest)

/-- `Slicer::finish`: the slices, their fences and the count of keys; nothing when there was no
key. -/
def finish (s : Slicer) : Option (List (ℕ × ℕ) × List Fence × ℕ) :=
  if s.total = 0 then none
  else
    match s.fences with
    | some fs =>
        let s := closeAll fs s
        some (s.slices, s.given, s.total)
    | none =>
        let len := s.held.length
        let parts := min (max s.parts 1) len
        let (cut, given) := cutByBounds s.held 0 len [] none
          (evenBounds s.held parts (divCeil len parts))
        some (s.slices ++ cut, s.given ++ given, s.total)

end Slicer

/-! ## The pieces -/

/-- A piece's writer: the segment, and the keys its ordered index is composed from. -/
structure PieceWriter where
  seg : SegmentWriter
  keys : List Bytes

namespace PieceWriter

/-- `create`: without a head reserve, without compression and without markers, which a writer is set
to apart. -/
def create (opts : WriterOptions) : PieceWriter :=
  ⟨.create { opts with headReserve := 0, compress := false, marks := false }, []⟩

def begin (w : PieceWriter) (k : Bytes) : Except String PieceWriter := do
  let seg ← w.seg.begin k
  .ok ⟨seg, w.keys ++ [k]⟩

def value (w : PieceWriter) (v : Bytes) : PieceWriter := { w with seg := w.seg.value v }

def endWith (lz : Lz4) (w : PieceWriter) (tombstone : Bool) : Except String PieceWriter := do
  let seg ← w.seg.endWith lz tombstone
  .ok { w with seg := seg }

/-- `finish`: the segment's file and its ordered index. -/
def finish (host : Host) (lz : Lz4) (w : PieceWriter) : Except String (Bytes × OrdIndex) := do
  let file ← w.seg.finish host lz 1
  .ok (file, OrdIndex.compose w.keys)

end PieceWriter

/-- What a merge takes from around it: its process, the codec and the writer's settings. -/
structure MergeEnv where
  host : Host
  lz : Lz4
  opts : WriterOptions

/-- A segment a merge wrote. -/
structure Output where
  name : SegName
  file : Bytes
  ord : OrdIndex

/-- One output of a merge: the ranks it holds and its name. -/
structure Piece where
  start : ℕ
  stop : ℕ
  name : SegName
  deriving DecidableEq, Repr

/-- Pass two of a merge. -/
structure Emitter where
  pieces : List Piece
  pi : ℕ
  r : ℕ
  w : Option PieceWriter
  out : List Output

namespace Emitter

/-- A piece's ranks, as the emitter's messages give them. -/
def ranksText (p : Piece) : String :=
  let a := p.start
  let b := p.stop
  s!"[{a}, {b})"

/-- What `enter` says of a rank the current piece does not hold. -/
def unassigned (em : Emitter) (p : Piece) : String :=
  let r := em.r
  let pi := em.pi
  let n := em.pieces.length
  s!"merge slices leave a key unassigned: rank {r} against piece {pi} of {n}, ranks " ++
    ranksText p ++ ", " ++ p.name.text ++ "; the pieces: " ++
    " | ".intercalate (em.pieces.map (fun q => ranksText q ++ " " ++ q.name.text))

/-- What `enter` says of a key its piece's fence does not hold. -/
def outside (em : Emitter) (p : Piece) (k : Bytes) : String :=
  let r := em.r
  let pi := em.pi
  let n := em.pieces.length
  "compaction would write a key outside its fence: key " ++ hex k ++
    s!" at rank {r} of piece {pi} of {n}, ranks " ++ ranksText p ++ ", fence [" ++
    hex p.name.fence.1 ++ ", " ++ (p.name.fence.2.map hex).getD "" ++ "), " ++ p.name.text

/-- `enter`: the visited rank is the current piece's and the key, if given, inside its fence; the
piece's writer is opened at its first rank.  Returns the piece's last rank. -/
def enter (env : MergeEnv) (em : Emitter) (k : Option Bytes) : Except String (Emitter × ℕ) :=
  match em.pieces[em.pi]? with
  | none => .error "merge visited a key past its last piece"
  | some p =>
      if em.r < p.start ∨ p.stop ≤ em.r then .error (em.unassigned p)
      else if k.any (fun k => (p.name.fence.1 ≠ [] ∧ k < p.name.fence.1) ∨
          p.name.fence.2.any (fun h => h ≤ k)) then .error (em.outside p (k.getD []))
      else if em.r = p.start then .ok ({ em with w := some (.create env.opts) }, p.stop)
      else .ok (em, p.stop)

/-- A piece finished and published. -/
def finishPiece (env : MergeEnv) (name : SegName) (w : PieceWriter) : Except String Output :=
  match w.finish env.host env.lz with
  | .error e => .error ("compact finish: " ++ e)
  | .ok (file, ord) => .ok ⟨name, file, ord⟩

/-- `leave`: past the visited rank; the piece is finished at its last one. -/
def leave (env : MergeEnv) (em : Emitter) (stop : ℕ) : Except String Emitter :=
  let em := { em with r := em.r + 1 }
  if em.r = stop then
    match em.w, em.pieces[em.pi]? with
    | some w, some p => do
        let o ← finishPiece env p.name w
        .ok { em with w := none, out := em.out ++ [o], pi := em.pi + 1 }
    | _, _ => .error "merge piece not open"
  else .ok em

/-- `key_with`: a key written, its values pulled by `pull`. -/
def keyWith (env : MergeEnv) (em : Emitter) (k : Bytes) (tombstone : Bool) (values : List Bytes) :
    Except String Emitter := do
  let (em, stop) ← em.enter env (some k)
  match em.w with
  | none => .error "merge piece not open"
  | some w => do
      let w ← w.begin k
      let w ← (values.foldl PieceWriter.value w).endWith env.lz tombstone
      ({ em with w := some w }).leave env stop

/-- `skip`: a rank whose key has nothing live. -/
def skip (env : MergeEnv) (em : Emitter) : Except String Emitter := do
  let (em, stop) ← em.enter env none
  em.leave env stop

/-- `Emitter::finish`. -/
def finish (em : Emitter) (total : ℕ) : Except String (List Output) :=
  if em.r ≠ total ∨ em.pi ≠ em.pieces.length then .error "merge ended with a piece still open"
  else .ok em.out

end Emitter

/-! ## The merges -/

/-- What the tied inputs come to, oldest first: the first one whose values are kept, how many values
are live, and whether any holds a tombstone. -/
def gather (inputs : List Input) (tied : List (ℕ × ℕ)) : Except String (ℕ × ℕ × Bool) :=
  tied.zipIdx.foldlM (fun (start, live, tomb) t =>
    match inputs[t.1.1]?.bind (fun s => s.entries[t.1.2]?) with
    | none => .error "segment key walk: a rank the index does not have"
    | some e =>
        if e.tomb then .ok (t.2, e.values.length, true)
        else .ok (start, live + e.values.length, tomb)) (0, 0, false)

/-- The values of the tied inputs, in order. -/
def valuesOf (inputs : List Input) (tied : List (ℕ × ℕ)) : List Bytes :=
  tied.flatMap (fun t =>
    ((inputs[t.1]?.bind (fun s => s.entries[t.2]?)).map Entry.values).getD [])

/-- A merge as it is asked for. -/
structure MergePlan where
  firstId : ℕ
  endSeq : ℕ
  parts : ℕ
  fences : Option (List Fence)
  maxKeys : ℕ
  cursors : Bool
  heads : Bool
  walkCached : Bool

/-- One key of a partition merge's second pass. -/
def compactKey (env : MergeEnv) (inputs : List Input) (em : Emitter) (k : Bytes)
    (tied : List (ℕ × ℕ)) : Except String Emitter := do
  let (start, live, _) ← gather inputs tied
  if live = 0 then em.skip env
  else em.keyWith env k false (valuesOf inputs (tied.drop start))

/-- The inputs that hold a key, found by asking each. -/
def foundIn (inputs : List Input) (k : Bytes) : List (ℕ × ℕ) :=
  inputs.zipIdx.filterMap (fun s =>
    (s.1.entries.findIdx? (fun e => e.key = k)).map (fun r => (s.2, r)))

/-- Every key of every input, sorted, each once. -/
def allKeys (inputs : List Input) : List Bytes :=
  (inputs.flatMap Input.keys).mergeSort.destutter (· ≠ ·)

/-- An empty partition written for a fence with no rank. -/
def writeEmpty (env : MergeEnv) (name : SegName) : Except String Output :=
  Emitter.finishPiece env name (.create env.opts)

/-- `compact_run`. -/
def compactRun (env : MergeEnv) (plan : MergePlan) (inputs : List Input) :
    Except String (List Output) := do
  let ords := inputs.map (openOrd plan.heads)
  let slicer := Slicer.new plan.fences plan.parts plan.maxKeys
  let all := allKeys inputs
  let slicer ← if plan.cursors then
      mergeKeys inputs ords plan.walkCached (fun s k _ => .ok (s.push k)) slicer
    else .ok (all.foldl Slicer.push slicer)
  match slicer.finish with
  | none => .ok []
  | some (slices, given, total) => do
      let pieces := (slices.zip given).zipIdx.map (fun p =>
        (⟨p.1.1.1, p.1.1.2, ⟨.par, plan.firstId + p.2, plan.endSeq, p.1.2⟩⟩ : Piece))
      let empties ← (pieces.filter (fun p => p.stop ≤ p.start)).mapM
        (fun p => writeEmpty env p.name)
      let em : Emitter := ⟨pieces.filter (fun p => ¬ p.stop ≤ p.start), 0, 0, none, []⟩
      let em ← if plan.cursors then
          mergeRanks inputs plan.walkCached (compactKey env inputs) em
        else all.foldlM (fun em k => compactKey env inputs em k (foundIn inputs k)) em
      let out ← em.finish total
      .ok (out ++ empties)

/-- A piece merge as it is asked for. -/
structure TierPlan where
  id : ℕ
  endSeq : ℕ
  fence : Fence
  walkCached : Bool

/-- One key of a piece merge's second pass. -/
def tierKey (env : MergeEnv) (inputs : List Input) (em : Emitter) (k : Bytes)
    (tied : List (ℕ × ℕ)) : Except String Emitter := do
  let (start, live, tomb) ← gather inputs tied
  if live = 0 ∧ tomb = false then em.skip env
  else em.keyWith env k tomb (valuesOf inputs (tied.drop start))

/-- `tier_run`. -/
def tierRun (env : MergeEnv) (plan : TierPlan) (inputs : List Input) :
    Except String (List Output) := do
  let total ← mergeRanks inputs plan.walkCached (fun total _ _ => .ok (total + 1)) 0
  if total = 0 then .ok []
  else do
    let em : Emitter := ⟨[⟨0, total, ⟨.pcs, plan.id, plan.endSeq, plan.fence⟩⟩], 0, 0, none, []⟩
    let em ← mergeRanks inputs plan.walkCached (tierKey env inputs) em
    em.finish total

end Supdb
