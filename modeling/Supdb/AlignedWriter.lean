import Supdb.SegmentFinish

/-!
# The writer under a segment

A segment's bytes go to their file a whole write piece at a time, and the checksum row of a streamed
key section is made as they go: by the writer over the bytes it buffers, by a helper thread over
what it reads back, and at the finish over what neither did.

* **`AlignedWriter`** – the file, the buffer, the writer's own row and the helper.
* **`Helper.step`** – one access of the helper's thread to what it shares with the writer.
* `AlignedWriter.write`, `AlignedWriter.writeHashed`, `AlignedWriter.flush` – the writes.
* `AlignedWriter.startSection`, `AlignedWriter.endSection`, `AlignedWriter.joinHelper` – a key
  section's ends.
* **`AlignedWriter.rowFor`** – the row of the section, from the pieces the helper or the writer
  hashed and the file.

Between two accesses of the writer to what it shares with the helper the helper takes any number of
steps: a schedule gives, for each such point, the steps and which of them find their read of the
file in order.  A word that holds `u64::MAX` for *none* is an option.  The streamed record section
of `stream_hash` is not here.
-/

namespace Supdb

open StorageLib Flatindex

/-- What the helper reads from the file at once. -/
def READ : ℕ := 2 ^ 20

/-- `HelperRow`: the CRCs of the file's pieces from `start` on, and where the hashed run ends. -/
structure HelperRow where
  start : ℕ
  stop : ℕ
  crcs : List (BitVec 32)
  deriving Repr, DecidableEq

/-! ## The helper -/

/-- Where the helper's thread stands in its loop: what of the shared words it has loaded. -/
inductive Pc where
  | top
  | landed (l : ℕ)
  | hash (l : ℕ)
  | range (l stop : ℕ)
  | hashing (l first off stop : ℕ)
  | hashed (l first off : ℕ)
  | turned (l : ℕ)
  | stopping (l : ℕ)
  | done
  deriving Repr, DecidableEq

/-- `WriterHelper`: the words shared with the writer, and the thread. -/
structure Helper where
  landed : ℕ
  stop : Bool
  hashFrom : Option ℕ
  hashedTo : Option ℕ
  sectionEnd : Option ℕ
  row : List (BitVec 32)
  pc : Pc
  deriving Repr, DecidableEq

/-- The CRCs of the whole pieces of what was read. -/
def pieceCrcs (x : Bytes) : List (BitVec 32) :=
  (List.range (x.length / PIECE)).map (fun i => crc32 (slice x (i * PIECE) ((i + 1) * PIECE)))

namespace Helper

/-- `set_section`, the first of its two stores. -/
def setHashedTo (h : Helper) (p : ℕ) : Helper := { h with hashedTo := some p }

/-- `spawn`: the thread about to begin its loop; nothing of the file is synced yet. -/
def spawn (keySection : Option ℕ) : Helper where
  landed := 0
  stop := false
  hashFrom := keySection.map (fun s => alignUp s PIECE)
  hashedTo := keySection.map (fun s => alignUp s PIECE)
  sectionEnd := none
  row := []
  pc := .top

/-- The thread at its read of the file from `off`: up to `READ` bytes hashed, or the end of the
hashing where the read fails. -/
def hashChunk (file : Bytes) (reads : Bool) (h : Helper) (l first off stop : ℕ) : Helper :=
  let n := min (stop - off) READ
  if reads ∧ off + n ≤ file.length then
    { h with row := h.row ++ pieceCrcs (slice file off (off + n)), pc := .hashing l first (off + n) stop }
  else { h with pc := .hashed l first off }

/-- **One access of the thread.**  Where it would sync the file or park it goes back to the top of
its loop. -/
def step (file : Bytes) (h : Helper) (reads : Bool) : Helper :=
  match h.pc with
  | .top => { h with pc := .landed h.landed }
  | .landed l =>
      match h.hashFrom with
      | none => { h with pc := .turned l }
      | some _ => { h with pc := .hash l }
  | .hash l =>
      match h.sectionEnd with
      | none => { h with pc := .range l l }
      | some stop => { h with pc := .range l (min l stop) }
  | .range l stop =>
      match h.hashedTo with
      | none => { h with pc := .turned l }
      | some first => { h with pc := .hashing l first first (first + (stop - first) / PIECE * PIECE) }
  | .hashing l first off stop => if off < stop then h.hashChunk file reads l first off stop
      else { h with pc := .hashed l first off }
  | .hashed l first off =>
      { h with hashedTo := if first < off then some off else h.hashedTo, pc := .turned l }
  | .turned l => if h.stop then { h with pc := .stopping l } else { h with pc := .top }
  | .stopping l => if h.landed ≠ l then { h with pc := .top } else { h with pc := .done }
  | .done => h

/-- The thread run for a while. -/
def steps (file : Bytes) (h : Helper) (reads : List Bool) : Helper := reads.foldl (step file) h

/-- `finish`: the pieces the helper hashed, where it had a section. -/
def finished (h : Helper) : Option HelperRow :=
  match h.hashFrom with
  | none => none
  | some start => some ⟨start, h.hashedTo.getD 0, h.row⟩

end Helper

/-! ## The writer -/

/-- `AlignedWriter`.  The clock counts the points at which the helper may run. -/
structure AlignedWriter where
  file : Bytes
  buf : Bytes
  written : ℕ
  piece : ℕ
  ahead : ℕ
  headLen : ℕ
  helper : Option Helper
  helperDone : Bool
  keySection : Option ℕ
  ownOn : Bool
  ownFrom : ℕ
  ownAt : ℕ
  ownCrc : BitVec 32
  ownRow : List (BitVec 32)
  helperHashes : Bool
  clock : ℕ

/-- How long the helper runs at each point, and which of its reads succeed. -/
abbrev Schedule := ℕ → List Bool

namespace AlignedWriter

/-- `new`, over an empty file; `set_prefix`, `set_row_on_write` and `set_helper_hashes`. -/
def new (piece ahead headLen : ℕ) (rowOnWrite helperHashes : Bool) : AlignedWriter where
  file := []
  buf := []
  written := 0
  piece := max piece 4096
  ahead := ahead
  headLen := headLen
  helper := none
  helperDone := false
  keySection := none
  ownOn := rowOnWrite
  ownFrom := 0
  ownAt := 0
  ownCrc := 0
  ownRow := []
  helperHashes := helperHashes
  clock := 0

/-- `pos`: where the buffer's first byte lands. -/
def pos (w : AlignedWriter) : ℕ := w.written

/-- `to_boundary`: what the buffer holds before it is written. -/
def toBoundary (w : AlignedWriter) : ℕ := w.piece - w.pos % w.piece

/-- A change of what the writer shares with the helper, where there is one. -/
def withHelper (w : AlignedWriter) (f : Helper → Helper) : AlignedWriter :=
  { w with helper := w.helper.map f }

/-- The helper does as much as the schedule gives it here. -/
def pause (sched : Schedule) (w : AlignedWriter) : AlignedWriter :=
  { w with helper := w.helper.map (fun h => h.steps w.file (sched w.clock)), clock := w.clock + 1 }

/-! ## The writer's own row -/

/-- The loop of `own_hash` over the bytes from file offset `p` to `stop`, `data` lying at `base`. -/
def ownHashFrom (data : Bytes) (base stop p : ℕ) (crc : BitVec 32) (row : List (BitVec 32)) :
    BitVec 32 × List (BitVec 32) :=
  if p < stop then
    let boundary := (p / PIECE + 1) * PIECE
    let cut := min boundary stop
    let crc := crc32Resume crc (slice data (p - base) (cut - base))
    if cut = boundary then ownHashFrom data base stop cut 0 (row ++ [crc])
    else ownHashFrom data base stop cut crc row
  else (crc, row)
termination_by stop - p
decreasing_by
  all_goals
    have hlt : p < (p / PIECE + 1) * PIECE := by
      have := Nat.lt_div_mul_add (a := p) (b := PIECE) (by decide)
      rw [Nat.succ_mul]
      omega
    omega

/-- `own_hash`: bytes just buffered at file offset `base` taken into the writer's own row. -/
def ownHash (w : AlignedWriter) (base : ℕ) (data : Bytes) : AlignedWriter :=
  let stop := base + data.length
  if stop ≤ w.ownAt then w
  else
    let r := ownHashFrom data base stop (max w.ownAt base) w.ownCrc w.ownRow
    { w with ownCrc := r.1, ownRow := r.2, ownAt := stop }

/-- `own_row_so_far`: the whole pieces from the section's first boundary, taken out of the writer.
-/
def ownRowSoFar (w : AlignedWriter) : Option HelperRow × AlignedWriter :=
  match w.keySection with
  | none => (none, w)
  | some _ =>
      (some ⟨w.ownFrom, w.ownFrom + w.ownRow.length * PIECE, w.ownRow⟩, { w with ownRow := [] })

/-! ## Writing -/

/-- `landed`, where the file is an `ahead` long and no helper runs: it is started, over the section
where it is to hash one, and the pieces the writer hashed become the head of its row. -/
def spawnHelper (sched : Schedule) (w : AlignedWriter) : AlignedWriter :=
  let own := if w.helperHashes && w.ownOn then w.ownRowSoFar else (none, w)
  let w := { own.2 with ownOn := w.ownOn && !w.helperHashes,
                        helper := some (Helper.spawn (if w.helperHashes then w.keySection else none)) }
  let w := w.pause sched
  match own.1 with
  | none => w
  | some row =>
      let w := (w.withHelper (fun h => { h with row := row.crcs })).pause sched
      (w.withHelper (fun h => h.setHashedTo row.stop)).pause sched

/-- `landed`, the helper told how far the file goes. -/
def announce (sched : Schedule) (w : AlignedWriter) : AlignedWriter :=
  (w.withHelper (fun h => { h with landed := w.written })).pause sched

/-- `landed`: a piece landed on the file. -/
def landed (sched : Schedule) (w : AlignedWriter) : AlignedWriter :=
  match w.helper with
  | some _ => w.announce sched
  | none => if w.helperDone ∨ w.written < w.ahead then w else (w.spawnHelper sched).announce sched

/-- `write_buf_with`: the buffer on the file, the file's head in a write of its own. -/
def writeBuf (sched : Schedule) (w : AlignedWriter) : AlignedWriter :=
  let split := min w.headLen w.buf.length
  let file := if w.written = 0 ∧ 0 < split ∧
    split < w.buf.length then w.file ++ w.buf.take split ++ w.buf.drop split
    else w.file ++ w.buf
  let w := { w with file := file, written := w.written + w.buf.length, buf := [] }
  if 0 < w.ahead then w.landed sched else w

/-- One turn of `write`: `x` hashed where the writer hashes, buffered, and the buffer written where
it is full. -/
def push (sched : Schedule) (w : AlignedWriter) (x : Bytes) : AlignedWriter :=
  let w := if w.ownOn ∧ w.keySection.isSome then w.ownHash (w.pos + w.buf.length) x else w
  let w := { w with buf := w.buf ++ x }
  if w.buf.length = w.toBoundary then w.writeBuf sched else w

/-- `write`.  A turn always takes a byte: the buffer is never full between turns. -/
def write (sched : Schedule) (w : AlignedWriter) (rest : Bytes) : AlignedWriter :=
  let take := min (w.toBoundary - w.buf.length) rest.length
  if 0 < take then write sched (w.push sched (rest.take take)) (rest.drop take) else w
termination_by rest.length
decreasing_by
  rw [List.length_drop]
  omega

/-- The state of `write_hashed`'s pass over its data. -/
structure HashPass where
  whole : BitVec 32
  ownAt : ℕ
  ownCrc : BitVec 32
  ownRow : List (BitVec 32)

/-- One chunk of `write_hashed`, of file offsets `p` to `stop` inside one piece: hashed once, for
the whole and for the row. -/
def HashPass.chunk (own : Bool) (s : HashPass) (x : Bytes) (stop boundary : ℕ) : HashPass :=
  let c := crc32 x
  let s := { s with whole := crc32Combine s.whole c x.length }
  if own ∧ s.ownAt < stop then
    let crc := crc32Combine s.ownCrc c x.length
    if stop = boundary then { s with ownCrc := 0, ownRow := s.ownRow ++ [crc], ownAt := stop }
    else { s with ownCrc := crc, ownAt := stop }
  else s

/-- The loop of `write_hashed` from file offset `p` on, `data` lying at `base`. -/
def hashFrom (own : Bool) (data : Bytes) (base stop p : ℕ) (s : HashPass) : HashPass :=
  if p < stop then
    let boundary := (p / PIECE + 1) * PIECE
    let cut := min boundary stop
    hashFrom own data base stop cut (s.chunk own (slice data (p - base) (cut - base)) cut boundary)
  else s
termination_by stop - p
decreasing_by
  have hlt : p < (p / PIECE + 1) * PIECE := by
    have := Nat.lt_div_mul_add (a := p) (b := PIECE) (by decide)
    rw [Nat.succ_mul]
    omega
  omega

/-- `write_hashed`: the data hashed in one pass, then buffered without hashing it again. -/
def writeHashed (sched : Schedule) (w : AlignedWriter) (data : Bytes) : AlignedWriter × BitVec 32 :=
  let base := w.pos + w.buf.length
  let s := hashFrom (w.ownOn && w.keySection.isSome) data base (base + data.length) base
    ⟨0, w.ownAt, w.ownCrc, w.ownRow⟩
  let was := w.ownOn
  let w := { w with ownAt := s.ownAt, ownCrc := s.ownCrc, ownRow := s.ownRow, ownOn := false }
  let w := w.write sched data
  ({ w with ownOn := was }, s.whole)

/-- How far a file of `written` bytes goes once the writer was given bytes up to `stop`: it is
written to a whole piece at a time, so to the last boundary among them. -/
def reach (piece written stop : ℕ) : ℕ := max written (stop / piece * piece)

/-- `flush`. -/
def flush (sched : Schedule) (w : AlignedWriter) : AlignedWriter :=
  if w.buf ≠ [] then w.writeBuf sched else w

/-! ## The section's ends -/

/-- `start_section`: the key section starts at `p`, the next byte written. -/
def startSection (sched : Schedule) (w : AlignedWriter) (p : ℕ) : AlignedWriter :=
  let first := alignUp p PIECE
  let w :=
    { w with keySection := some p, ownFrom := first, ownAt := first, ownCrc := 0, ownRow := [] }
  match w.helper with
  | none => w
  | some _ =>
      if w.helperHashes then
        let w := (w.withHelper (fun h => h.setHashedTo first)).pause sched
        let w := (w.withHelper (fun h => { h with hashFrom := some first })).pause sched
        { w with ownOn := false }
      else w

/-- `end_section`: the section ends at `stop`; the helper is told so, and to stop. -/
def endSection (sched : Schedule) (w : AlignedWriter) (stop : ℕ) : AlignedWriter :=
  let w := { w with ownOn := false }
  let w := (w.withHelper (fun h => { h with sectionEnd := some stop })).pause sched
  (w.withHelper (fun h => { h with stop := true })).pause sched

/-- `join_helper`: the helper told to stop, run to its end, and its row taken, or the writer's own.
-/
def joinHelper (sched : Schedule) (w : AlignedWriter) : Option HelperRow × AlignedWriter :=
  let w := { w with helperDone := true }
  match w.helper with
  | none => w.ownRowSoFar
  | some _ =>
      let w := (w.withHelper (fun h => { h with stop := true })).pause sched
      let row := w.helper.bind Helper.finished
      let w := { w with helper := none }
      match row with
      | some row => (some row, w)
      | none => w.ownRowSoFar

/-! ## The row -/

/-- `n` bytes from `off`, read where there are any to read. -/
def readPart (l : Bytes) (off n : ℕ) : Option Bytes :=
  if 0 < n then getRange l off (off + n) else some []

/-- `read_section`: `n` bytes of the output from `off`, from the file and from the buffer. -/
def readSection (w : AlignedWriter) (off n : ℕ) : Option Bytes := do
  let onFile := min (w.written - off) n
  let x ← readPart w.file off onFile
  let y ← readPart w.buf (off + onFile - w.written) (n - onFile)
  some (x ++ y)

/-- The bytes of the section behind the header's, where a piece has any. -/
def readBehind (w : AlignedWriter) (keyOff first stop fromHeader : ℕ) : Option Bytes :=
  if fromHeader < stop - first then w.readSection (keyOff + (first + fromHeader))
    (stop - first - fromHeader) else some []

/-- The CRC of the section's bytes `first` to `stop`, the header's where it reaches and read back
behind it. -/
def readBack (w : AlignedWriter) (header : Bytes) (keyOff first stop : ℕ) : Option (BitVec 32) := do
  let fromHeader := min (header.length - first) (stop - first)
  let x ← readPart header first fromHeader
  let y ← w.readBehind keyOff first stop fromHeader
  some (crc32 (x ++ y))

/-- The CRC of a piece, where the row in hand has it: it lies behind the header, within the hashed
run and at one of its boundaries. -/
def hashedPiece (helped : Option HelperRow) (headLen keyOff first stop : ℕ) :
    Option (Option (BitVec 32)) :=
  match helped with
  | none => none
  | some h =>
      let f := keyOff + first
      if headLen ≤ first ∧ h.start ≤ f ∧ f + (stop - first) ≤ h.stop ∧ PIECE ∣ f - h.start then
        some h.crcs[(f - h.start) / PIECE]?
      else none

/-- `row_for`: the row of a section `total` bytes long at `keyOff`. -/
def rowFor (w : AlignedWriter) (header : Bytes) (keyOff total : ℕ) (helped : Option HelperRow) :
    Option Bytes := do
  let crcs ← (pieces total PIECE_SHIFT keyOff).mapM (fun r =>
    match hashedPiece helped header.length keyOff r.1 r.2 with
    | some crc => crc
    | none => w.readBack header keyOff r.1 r.2)
  some (crcs.flatMap (fun crc => leBytes 4 crc.toNat))

end AlignedWriter

/-! ## Runs -/

/-- One call of the writer. -/
inductive WriteOp where
  | write (data : Bytes)
  | writeHashed (data : Bytes)
  | flush
  deriving Repr, DecidableEq

/-- The bytes a call adds to the output. -/
def WriteOp.bytes : WriteOp → Bytes
  | .write data => data
  | .writeHashed data => data
  | .flush => []

/-- What the segment writer calls: bytes written, hashed or not, or a flush. -/
def AlignedWriter.call (sched : Schedule) (w : AlignedWriter) : WriteOp → AlignedWriter
  | .write data => w.write sched data
  | .writeHashed data => (w.writeHashed sched data).1
  | .flush => w.flush sched

/-- Calls made one after the other. -/
def AlignedWriter.calls (sched : Schedule) (w : AlignedWriter) (ops : List WriteOp) :
    AlignedWriter :=
  ops.foldl (AlignedWriter.call sched) w

end Supdb
