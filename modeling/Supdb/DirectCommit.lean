import Supdb.Direct

/-!
# Commits to a direct run

An ordered table's batch goes to the run's own file: each entry put into the writer, a marker behind
them, and a sync.  Any of it can fail, and the next commit starts over with what the failed one left
in the writer.

* `commitDirect` – the commit, over the three forms of an ordered table, with a fault at any of its
  steps and what the fault leaves behind.
* `putAll_refused` – a batch put in part is refused from its first key on, whatever the retry.
* `direct_commit_honest` – as long as no sync fails, a commit that returns `Ok` has every record
  appended so far in the synced bytes of its file.
* `direct_commit_unsynced` – a failed sync, and the retry that returns `Ok` for it.

The file's head is buffered by the first put, so a put does no I/O; a fault in one is an error it
returned having taken nothing of its record.  An append the run does not take ends it, and is none
of a run's.
-/

namespace Supdb

open StorageLib SegmentWriter

/-! ## The table and its file -/

/-- How an ordered table keeps its values: in chunks, by reference into the run's file once they are
there, or as the stream of records the file is. -/
inductive TableForm where
  | plain
  | refs
  | stream (recycle : Bool)
  deriving DecidableEq, Repr

/-- The bits of a reference that hold a value's length. -/
def REF_LEN_BITS : ℕ := 24

/-- What a direct run is opened with. -/
structure DirectOptions where
  blockSize : ℕ
  inlineBytes : ℕ
  compress : Bool
  compactRecords : Bool
  checksums : Bool
  lookahead : Bool
  putOne : Bool
  form : TableForm
  writePiece : ℕ
  /-- Bytes of a block of the stream's arena, as a shift. -/
  arenaShift : ℕ
  /-- A value that goes direct fits a reference's length. -/
  lengths : inlineBytes < 2 ^ REF_LEN_BITS

namespace DirectOptions

/-- The writer's settings. -/
def writer (o : DirectOptions) : WriterOptions :=
  { blockSize := o.blockSize, inlineMax := o.inlineBytes, headReserve := 0, compress := o.compress
    compactRecords := o.compactRecords, marks := true, checksums := o.checksums
    lookahead := o.lookahead }

def streams (o : DirectOptions) : Bool :=
  match o.form with
  | .stream _ => true
  | _ => false

/-- Whether the table reads through a mapping of the file, made before the first batch is put. -/
def maps (o : DirectOptions) : Bool := o.form = .refs ∨ o.form = .stream true

end DirectOptions

/-- An open run: its writer, the entries committed, where the stream's next batch starts, and what
of the file an fsync has covered. -/
structure DirectFile where
  w : SegmentWriter
  committed : ℕ
  streamFrom : ℕ
  synced : Bytes

/-- A store with an ordered live table: the greatest key it has seen, the table's entries and the
stream it keeps of them, whether the file is mapped, and the run. -/
structure OrderedTable where
  opts : DirectOptions
  maxKey : Bytes
  entries : List (Bytes × Bytes)
  stream : Bytes
  mapped : Bool
  direct : Option DirectFile

namespace OrderedTable

/-- An ordered table that has just replaced an empty one. -/
def start (opts : DirectOptions) (maxKey : Bytes) : OrderedTable :=
  { opts := opts, maxKey := maxKey, entries := [], stream := [], mapped := false, direct := none }

/-- What of the run's file is durable. -/
def durable (t : OrderedTable) : Bytes := (t.direct.map DirectFile.synced).getD []

/-- `goes_direct`. -/
def goesDirect (t : OrderedTable) (key value : Bytes) : Bool :=
  key ≠ [] ∧ key.length ≤ 65535 ∧ t.maxKey < key ∧ inlines t.opts.inlineBytes (max value.length 1)

/-- An append the run takes. -/
def append (t : OrderedTable) (key value : Bytes) : OrderedTable :=
  if t.goesDirect key value then
    { t with maxKey := key, entries := t.entries ++ [(key, value)]
             stream := if t.opts.streams then t.stream ++ recordOf t.opts.compactRecords (key, value)
               else t.stream }
  else t

end OrderedTable

/-! ## The streamed calls of the writer -/

/-- `put_encoded`: the bookkeeping of a record the caller's stream already holds. -/
def SegmentWriter.putEncoded (w : SegmentWriter) (key : Bytes) (recLen valueLen : ℕ) :
    Except String SegmentWriter := do
  w.checkKey key
  let (w, m) := w.layout
  if m ≠ .recordsFirst then .error "segment writer: a streamed record needs the records-first layout"
  else
    let w := { w with payload := w.payload + (key.length + valueLen), pos := w.pos + recLen
                      recOffs := w.recOffs ++ [w.recsLen % 2 ^ 32], keys := w.keys ++ [key]
                      recsLen := w.recsLen + recLen }
    if MAX_RECS < w.recsLen then
      .error "segment writer: key section exceeds the flat index's limits"
    else .ok w

/-- The loop of `stream_hash`: the part of the stream in each block of the arena, hashed in the
pieces of the file it lands in. -/
def streamHash (stream : Bytes) (block base stop p : ℕ) (whole : BitVec 32) : BitVec 32 :=
  if _h : p < stop ∧ 0 < block then
    let part := min (stop - p) (block - p % block)
    let s := slice stream p (p + part)
    streamHash stream block base stop (p + part) (hashPieces s (base + p) (base + p) whole)
  else whole
termination_by stop - p
decreasing_by
  have := Nat.mod_lt p _h.2
  omega

/-- `stream_out`: the stream from `start` to `stop` hashed into the marker's CRC, and held for the
file. -/
def SegmentWriter.streamOut (w : SegmentWriter) (stream : Bytes) (block start stop : ℕ) :
    SegmentWriter :=
  let c := streamHash stream block (w.out.length - start) stop start 0
  { w with out := w.out ++ slice stream start stop, markCrc := crc32Combine w.markCrc c (stop - start) }

/-- The marker `mark_stream` lays into the stream. -/
def SegmentWriter.nextMarker (w : SegmentWriter) : Bytes :=
  markerBytes w.markCrc (w.recsLen - w.markStart) w.keys.length

/-- `mark_stream`, up to its flush. -/
def SegmentWriter.markStream (w : SegmentWriter) : SegmentWriter :=
  let recsLen := w.recsLen + DIRECT_MARK_LEN
  { w with out := w.out ++ w.nextMarker, pos := w.pos + DIRECT_MARK_LEN, recsLen := recsLen, markCrc := 0
           markStart := recsLen }

/-! ## The commit -/

/-- Where a commit fails: opening the file or its mapping; a put of the batch; `mark`'s write of the
batch or of the marker, some bytes in; the write of what is buffered before the stream; the flush of
the stream's whole pieces; the mapping's growth; the sync. -/
inductive CommitFault where
  | create
  | openMap
  | put (i : ℕ)
  | batchWrite (n : ℕ)
  | markerWrite (n : ℕ)
  | streamOut
  | streamFlush
  | grow
  | sync
  deriving DecidableEq, Repr

namespace OrderedTable

variable (lz : Lz4)

/-- One entry put, by the call the table's form takes. -/
def putEntry (o : DirectOptions) (w : SegmentWriter) (r : Bytes × Bytes) :
    Except String SegmentWriter :=
  if o.streams then w.putEncoded r.1 (recordOf o.compactRecords r).length r.2.length
  else if o.putOne then w.putOne lz r.1 r.2
  else w.putThree lz r.1 r.2

/-- What a put that refused its entry leaves: nothing of it where the key was refused, and over the
section's limit its record, and under a stream its key too. -/
def refused (o : DirectOptions) (w : SegmentWriter) (r : Bytes × Bytes) : SegmentWriter :=
  match w.checkKey r.1 with
  | .error _ => w
  | .ok _ =>
      let w := w.layout.1
      let record := recordOf o.compactRecords r
      { w with batchBuf := if o.streams then w.batchBuf else w.batchBuf ++ record
               pos := w.pos + record.length, recOffs := w.recOffs ++ [w.recsLen % 2 ^ 32]
               recsLen := w.recsLen + record.length, payload := w.payload + (r.1.length + r.2.length)
               keys := if o.streams then w.keys ++ [r.1] else w.keys }

/-- The batch put: the writer behind it, and whether every put went through.  `fault` is the put
that fails. -/
def putAll (o : DirectOptions) : SegmentWriter → List (Bytes × Bytes) → Option ℕ →
    SegmentWriter × Bool
  | w, [], _ => (w, true)
  | w, r :: rs, fault =>
      if fault = some 0 then (w, false)
      else
        match putEntry lz o w r with
        | .ok w' => putAll o w' rs (fault.map (· - 1))
        | .error _ => (refused o w r, false)

/-- The put a fault names. -/
def putFault : Option CommitFault → Option ℕ
  | some (.put i) => some i
  | _ => none

/-- `mark`, and what a failed write leaves: the batch held, or its bytes written and the marker not.
-/
def markFile (w : SegmentWriter) (fault : Option CommitFault) : SegmentWriter × Bool :=
  match fault with
  | some (.batchWrite n) => ({ w with out := w.out ++ w.batchBuf.take n }, false)
  | some (.markerWrite n) =>
      let w := w.writeBatch
      ({ w with out := w.out ++ w.nextMarker.take n }, false)
  | _ =>
      match w.mark with
      | .ok w => (w, true)
      | .error _ => (w, false)

/-- The end of a commit: the batch counted, the sync, and a refs table's mapping grown. -/
def settle (t : OrderedTable) (d : DirectFile) (fault : Option CommitFault) : OrderedTable × Bool :=
  let d := { d with committed := t.entries.length }
  if fault = some .sync then ({ t with direct := some d }, false)
  else
    let d := { d with w := d.w.sync, synced := d.w.sync.out }
    ({ t with direct := some d }, ¬ (t.opts.form = .refs ∧ fault = some .grow))

/-- A batch of a table that keeps a stream. -/
def commitStream (t : OrderedTable) (d : DirectFile) (fault : Option CommitFault) :
    OrderedTable × Bool :=
  let (w, ok) := putAll lz t.opts d.w (t.entries.drop d.committed) (putFault fault)
  if ¬ ok ∨ fault = some .streamOut then ({ t with direct := some { d with w := w } }, false)
  else
    let w := w.streamOut t.stream (2 ^ t.opts.arenaShift) d.streamFrom t.stream.length
    let t := { t with stream := t.stream ++ w.nextMarker }
    let d := { d with w := w.markStream }
    if fault = some .streamFlush then ({ t with direct := some d }, false)
    else
      let d := { d with streamFrom := t.stream.length }
      if t.opts.form = .stream true ∧ fault = some .grow then ({ t with direct := some d }, false)
      else t.settle d fault

/-- A batch of a table that does not. -/
def commitRecords (t : OrderedTable) (d : DirectFile) (fault : Option CommitFault) :
    OrderedTable × Bool :=
  let (w, ok) := putAll lz t.opts d.w (t.entries.drop d.committed) (putFault fault)
  if ¬ ok then ({ t with direct := some { d with w := w } }, false)
  else
    let (w, ok) := markFile w fault
    if ¬ ok then ({ t with direct := some { d with w := w } }, false)
    else t.settle { d with w := w } fault

/-- The run's file, opened here on the first commit. -/
def openFile (t : OrderedTable) (fault : Option CommitFault) : Option DirectFile :=
  match t.direct with
  | some d => some d
  | none =>
      if fault = some .create then none
      else some { w := .create t.opts.writer, committed := 0, streamFrom := 0, synced := [] }

/-- `commit_direct` under `SyncPolicy::Always`: what it leaves, and whether it returned `Ok`. -/
def commitDirect (t : OrderedTable) (fault : Option CommitFault) : OrderedTable × Bool :=
  if (t.direct.map DirectFile.committed).getD 0 = t.entries.length then (t, true)
  else
    match t.openFile fault with
    | none => (t, false)
    | some d =>
        if t.opts.maps ∧ ¬ t.mapped ∧ fault = some .openMap then ({ t with direct := some d }, false)
        else
          let t := { t with direct := some d, mapped := t.mapped || t.opts.maps }
          if t.opts.streams then t.commitStream lz d fault else t.commitRecords lz d fault

end OrderedTable

/-- What a run is made of. -/
inductive RunOp where
  | append (key value : Bytes)
  | commit (fault : Option CommitFault)

/-- An append, or a commit and the call of it that fails. -/
def OrderedTable.step (lz : Lz4) (t : OrderedTable) : RunOp → OrderedTable
  | .append key value => t.append key value
  | .commit fault => (t.commitDirect lz fault).1

/-- A commit whose sync, if it comes to it, does not fail. -/
def RunOp.Syncs : RunOp → Prop
  | .append _ _ => True
  | .commit fault => fault ≠ some .sync

/-! ## One put -/

/-- A pair a run takes. -/
structure Carried (o : DirectOptions) (r : Bytes × Bytes) : Prop where
  klen : r.1.length ≤ 65535
  inline : CarriedInline o.inlineBytes r.2

/-- A run's writer, ready for a record. -/
structure Ready (o : DirectOptions) (w : SegmentWriter) : Prop where
  opts : w.opts = (SegmentWriter.create o.writer).opts
  records : w.layout.2 = .recordsFirst
  raw : w.raw = []
  lens : w.lens = []

/-- What a put leaves: one record more, in the batch or in the caller's stream, and one key. -/
structure Taken (o : DirectOptions) (w w' : SegmentWriter) (r : Bytes × Bytes) : Prop where
  opts : w'.opts = w.opts
  mode : w'.mode = w.mode
  out : w'.out = w.out
  batchBuf : w'.batchBuf = if o.streams then w.batchBuf else w.batchBuf ++
    recordOf o.compactRecords r
  recsLen : w'.recsLen = w.recsLen + (recordOf o.compactRecords r).length
  keys : w'.keys = w.keys ++ [r.1]
  markCrc : w'.markCrc = w.markCrc
  markStart : w'.markStart = w.markStart
  openKey : w'.openKey = none
  raw : w'.raw = []
  lens : w'.lens = []
  fits : w'.recsLen ≤ MAX_RECS

section Put

variable {lz : Lz4} {o : DirectOptions} {w w' : SegmentWriter} {r : Bytes × Bytes}

lemma Ready.compact (h : Ready o w) : w.opts.compactRecords = o.compactRecords := by
  rw [h.opts]; rfl

lemma Ready.marks (h : Ready o w) : w.opts.marks = true := by rw [h.opts]; rfl

lemma Ready.inlineMax (h : Ready o w) : w.opts.inlineMax = o.inlineBytes := by rw [h.opts]; rfl

lemma Ready.layoutCompact (h : Ready o w) : w.layout.1.opts.compactRecords = o.compactRecords := by
  rw [(layout_frame w).1, h.compact]

lemma Taken.ready (h : Ready o w) (ht : Taken o w.layout.1 w' r) : Ready o w' where
  opts := by rw [ht.opts, (layout_frame w).1, h.opts]
  records := by
    have hmode : w'.mode = some .recordsFirst := by
      rw [ht.mode, (layout_frame w).2.2.2.2.2.2.2.2.2.1, h.records]
    rw [layout_of_mode hmode]
  raw := ht.raw
  lens := ht.lens

/-- A put is the key's record and nothing else. -/
lemma putEntry_ok (h : Ready o w) (hr : Carried o r)
    (hput : OrderedTable.putEntry lz o w r = .ok w') : Taken o w.layout.1 w' r := by
  have hin : inlines w.opts.inlineMax (runOf [r.2]).length = true := by
    rw [h.inlineMax]
    exact hr.inline.1
  rw [OrderedTable.putEntry] at hput
  by_cases hs : o.streams = true
  · rw [if_pos hs, SegmentWriter.putEncoded] at hput
    obtain ⟨u, hkey, hput⟩ := except_bind_eq_ok.mp hput
    obtain ⟨-, hopen, hraw, hlens, -, -, -, -, -, -, -⟩ := layout_frame w
    simp only [h.records, ne_eq, not_true_eq_false, if_false] at hput
    split_ifs at hput with hmax
    injection hput with hput
    subst hput
    exact ⟨rfl, rfl, rfl, by rw [if_pos hs], rfl, rfl, rfl, rfl, hopen.trans (checkKey_ok hkey).1,
      hraw.trans h.raw, hlens.trans h.lens, Nat.le_of_not_lt hmax⟩
  · have hstreamed : Streamed w.layout.1 w' r := by
      rw [if_neg hs] at hput
      split_ifs at hput
      · exact putOne_streamed h.marks h.records h.raw h.lens hin hr.inline.2 hr.inline.length_lt hput
      · exact putThree_streamed h.marks h.records h.raw h.lens hin hr.inline.2 hr.inline.length_lt hput
    have hc := h.layoutCompact
    exact ⟨hstreamed.opts, hstreamed.mode, hstreamed.out, by rw [if_neg hs, hstreamed.batchBuf, hc],
      by rw [hstreamed.recsLen, hc], hstreamed.keys, hstreamed.markCrc, hstreamed.markStart,
      hstreamed.openKey, hstreamed.raw, hstreamed.lens, hstreamed.fits⟩

/-- A put fails by the checks of its key, or over the section's limit. -/
lemma putEntry_error {e : String} (h : Ready o w) (hr : Carried o r)
    (hput : OrderedTable.putEntry lz o w r = .error e) :
    (∃ e', w.checkKey r.1 = .error e') ∨
    MAX_RECS < w.recsLen + (recordOf o.compactRecords r).length := by
  have hin : inlines w.opts.inlineMax (runOf [r.2]).length = true := by
    rw [h.inlineMax]
    exact hr.inline.1
  have hrecs := (layout_frame w).2.2.2.2.2.2.1
  cases hkey : w.checkKey r.1 with
  | error e' => exact Or.inl ⟨e', rfl⟩
  | ok u =>
      right
      rw [OrderedTable.putEntry] at hput
      by_cases hs : o.streams = true
      · rw [if_pos hs, SegmentWriter.putEncoded] at hput
        simp only [hkey, bind, Except.bind, h.records, ne_eq, not_true_eq_false, if_false] at hput
        split_ifs at hput with hmax
        rwa [hrecs] at hmax
      · rw [if_neg hs] at hput
        -- both ways of putting it stream the same record
        obtain ⟨w₁, hframe, hone⟩ : ∃ w₁, Framed w.layout.1 w₁ ∧
            w₁.streamRecord r.1 (inlineExt [r.2] false) (runOf [r.2]) = .error e := by
          split_ifs at hput
          · obtain ⟨w₁, hframe, heq⟩ :=
              putOne_eq h.records h.raw h.lens hin hr.inline.2 hr.inline.length_lt hkey
            exact ⟨w₁, hframe, heq ▸ hput⟩
          · obtain ⟨w₁, hframe, heq⟩ :=
              putThree_eq h.records h.raw h.lens hin hr.inline.2 hr.inline.length_lt hkey
            exact ⟨w₁, hframe, heq ▸ hput⟩
        have hopts : w₁.opts = w.opts := hframe.opts.trans (layout_frame w).1
        have hlimit := streamRecord_error (by rw [hopts]; exact h.marks) hr.klen hone
        rwa [hframe.recsLen, hrecs, hopts, h.compact] at hlimit

end Put

/-! ## A batch put in part -/

/-- **A writer that refuses a key**, and goes on refusing it: a key put is not below it, or the
section is over its limit. -/
structure Refuses (o : DirectOptions) (w : SegmentWriter) (k : Bytes) : Prop where
  ready : Ready o w
  cause : (∃ l, w.keys.getLast? = some l ∧ k ≤ l) ∨ MAX_RECS < w.recsLen

section Refuse

variable {lz : Lz4} {o : DirectOptions} {w w' : SegmentWriter} {r : Bytes × Bytes} {k : Bytes}
  {rs : List (Bytes × Bytes)} {fault : Option ℕ}

/-- The key is refused, whichever way it is put. -/
lemma Refuses.putEntry (lz : Lz4) (h : Refuses o w r.1) (hr : Carried o r) :
    ∃ e, OrderedTable.putEntry lz o w r = .error e := by
  cases hput : OrderedTable.putEntry lz o w r with
  | error e => exact ⟨e, rfl⟩
  | ok w' =>
      exfalso
      have htaken := putEntry_ok h.ready hr hput
      rcases h.cause with ⟨l, hl, hle⟩ | hmax
      · -- the key's check comes before anything else
        obtain ⟨e, hkey⟩ : ∃ e, w.checkKey r.1 = .error e := by
          rw [SegmentWriter.checkKey, hl]
          split_ifs with _ _ hlast
          · exact ⟨_, rfl⟩
          · exact ⟨_, rfl⟩
          · exact ⟨_, rfl⟩
          · exact absurd (decide_eq_true hle) hlast
        rw [OrderedTable.putEntry] at hput
        split_ifs at hput
        · rw [SegmentWriter.putEncoded, hkey] at hput
          exact absurd hput (by simp [bind, Except.bind])
        · rw [putOne_refused hkey] at hput
          exact absurd hput (by simp)
        · rw [putThree_refused hkey] at hput
          exact absurd hput (by simp)
      · have hlen := htaken.recsLen
        have hfits := htaken.fits
        rw [(layout_frame w).2.2.2.2.2.2.1] at hlen
        omega

/-- What a refused put leaves is as ready as before, with no key less and no shorter section. -/
lemma ready_refused (h : Ready o w) (r : Bytes × Bytes) : Ready o (OrderedTable.refused o w r) := by
  rw [OrderedTable.refused]
  cases w.checkKey r.1 with
  | error e => exact h
  | ok u =>
      obtain ⟨hopts, -, hraw, hlens, -, -, -, -, -, hmode, -⟩ := layout_frame w
      rw [h.records] at hmode
      exact
        { opts := hopts.trans h.opts
          records := by
            dsimp only
            rw [SegmentWriter.layout, hmode]
          raw := hraw.trans h.raw
          lens := hlens.trans h.lens }

/-- A writer stays refusing a key behind a put of one that is not below it, taken or not. -/
lemma Refuses.taken (h : Ready o w) (ht : Taken o w.layout.1 w' r) (hle : k ≤ r.1) :
    Refuses o w' k where
  ready := ht.ready h
  cause := Or.inl ⟨r.1, by rw [ht.keys, List.getLast?_append, List.getLast?_singleton, Option.some_or], hle⟩

lemma Refuses.refused (h : Refuses o w k) (hle : k ≤ r.1) :
    Refuses o (OrderedTable.refused o w r) k where
  ready := ready_refused h.ready r
  cause := by
    rw [OrderedTable.refused]
    cases w.checkKey r.1 with
    | error e => exact h.cause
    | ok u =>
        have hkeys := (layout_frame w).2.2.2.2.1
        have hrecs := (layout_frame w).2.2.2.2.2.2.1
        rcases h.cause with ⟨l, hl, hkl⟩ | hmax
        · left
          by_cases hs : o.streams = true
          · refine ⟨r.1, ?_, hle⟩
            dsimp only
            rw [if_pos hs, List.getLast?_append, List.getLast?_singleton, Option.some_or]
          · refine ⟨l, ?_, hkl⟩
            dsimp only
            rw [if_neg hs, hkeys, hl]
        · right
          dsimp only
          omega

/-- Puts of further keys keep it refused. -/
lemma Refuses.putAll (h : Refuses o w k) (hrs : ∀ r ∈ rs, Carried o r) (hle : ∀ r ∈ rs, k ≤ r.1) :
    Refuses o (OrderedTable.putAll lz o w rs fault).1 k := by
  induction rs generalizing w fault with
  | nil => exact h
  | cons r rs ih =>
      rw [List.forall_mem_cons] at hrs hle
      rw [OrderedTable.putAll]
      split_ifs
      · exact h
      · cases hput : OrderedTable.putEntry lz o w r with
        | error e => exact h.refused hle.1
        | ok w' => exact ih (.taken h.ready (putEntry_ok h.ready hrs.1 hput) hle.1) hrs.2 hle.2

/-- **A batch put in part is refused from its first key on**: the writer is as it was, or refuses
the key. -/
lemma putAll_refused (lz : Lz4) (fault : Option ℕ) (h : Ready o w)
    (hrs : ∀ r' ∈ r :: rs, Carried o r') (hle : ∀ r' ∈ rs, r.1 ≤ r'.1) :
    (OrderedTable.putAll lz o w (r :: rs) fault).1 = w ∨
      Refuses o (OrderedTable.putAll lz o w (r :: rs) fault).1 r.1 := by
  rw [List.forall_mem_cons] at hrs
  rw [OrderedTable.putAll]
  split_ifs with hfault
  · exact Or.inl rfl
  · cases hput : OrderedTable.putEntry lz o w r with
    | ok w' =>
        right
        exact Refuses.putAll (.taken h (putEntry_ok h hrs.1 hput) (le_refl _)) hrs.2 hle
    | error e =>
        rcases putEntry_error h hrs.1 hput with ⟨e', hkey⟩ | hmax
        · left
          simp only [OrderedTable.refused, hkey]
        · by_cases hkey : ∃ e', w.checkKey r.1 = .error e'
          · left
            obtain ⟨e', hkey⟩ := hkey
            simp only [OrderedTable.refused, hkey]
          · right
            refine ⟨ready_refused h r, Or.inr ?_⟩
            cases hok : w.checkKey r.1 with
            | error e' => exact absurd ⟨e', hok⟩ hkey
            | ok u =>
                have hrecs := (layout_frame w).2.2.2.2.2.2.1
                simp only [OrderedTable.refused, hok]
                omega

/-- A whole batch put: the last key in is not below the first. -/
lemma Refuses.whole (h : Ready o w) (hrs : ∀ r' ∈ r :: rs, Carried o r')
    (hle : ∀ r' ∈ rs, r.1 ≤ r'.1) (hok : (OrderedTable.putAll lz o w (r :: rs) fault).2 = true) :
    Refuses o (OrderedTable.putAll lz o w (r :: rs) fault).1 r.1 := by
  rw [List.forall_mem_cons] at hrs
  rw [OrderedTable.putAll] at hok ⊢
  split_ifs at hok ⊢ with hfault
  cases hput : OrderedTable.putEntry lz o w r with
  | error e =>
      rw [hput] at hok
      exact absurd hok (by simp)
  | ok w' => exact Refuses.putAll (.taken h (putEntry_ok h hrs.1 hput) (le_refl _)) hrs.2 hle

end Refuse

/-! ## The log behind the commits -/

/-- The writer with a stream's records in its batch: what the same puts of a table without a stream
would have left. -/
def asBatch (o : DirectOptions) (w : SegmentWriter) (b : Bytes) : SegmentWriter :=
  if o.streams then { w with batchBuf := b } else w

section Log

variable {lz : Lz4} {o : DirectOptions} {w w' : SegmentWriter} {r : Bytes × Bytes}
  {rs : List (Bytes × Bytes)} {fault : Option ℕ} {b : Bytes}

lemma layout_batchBuf (w : SegmentWriter) (b : Bytes) :
    ({ w with batchBuf := b } : SegmentWriter).layout
    = ({ w.layout.1 with batchBuf := b }, w.layout.2) := by
  rcases Option.eq_none_or_eq_some w.mode with hm | ⟨m, hm⟩
  · simp only [SegmentWriter.layout, hm]
    split_ifs <;> rfl
  · have hm' : ({ w with batchBuf := b } : SegmentWriter).mode = some m := hm
    rw [layout_of_mode hm, layout_of_mode hm']

lemma Taken.streamed (h : Ready o w) (hr : Carried o r) (ht : Taken o w.layout.1 w' r) :
    Streamed (asBatch o w b).layout.1 (asBatch o w' (b ++ recordOf o.compactRecords r)) r := by
  have hc := h.layoutCompact
  rw [asBatch, asBatch]
  by_cases hs : o.streams = true
  · rw [if_pos hs, if_pos hs, layout_batchBuf]
    exact ⟨ht.opts, ht.mode, ht.out, by rw [hc], by rw [hc]; exact ht.recsLen, ht.keys, ht.markCrc,
      ht.markStart, ht.openKey, ht.raw, ht.lens, hr.klen, ht.fits⟩
  · rw [if_neg hs, if_neg hs]
    exact ⟨ht.opts, ht.mode,
      ht.out, by rw [ht.batchBuf, if_neg hs, hc], by rw [hc]; exact ht.recsLen,
      ht.keys, ht.markCrc, ht.markStart, ht.openKey, ht.raw, ht.lens, hr.klen, ht.fits⟩

/-- **A batch put through** is the log's opened batch. -/
lemma putAll_log {l : DirectLog} (hl : l.Inv) (hw : l.writer = asBatch o w b) (h : Ready o w)
    (hrs : ∀ r ∈ rs, Carried o r) (hok : (OrderedTable.putAll lz o w rs fault).2 = true) :
    ∃ l' : DirectLog, l'.Inv ∧ l'.opened = l.opened ++ rs ∧ l'.commits = l.commits ∧
      l'.writer = asBatch o (OrderedTable.putAll lz o w rs fault).1
        (b ++ recordsBytes o.compactRecords rs) := by
  induction rs generalizing w fault l b with
  | nil =>
      refine ⟨l, hl, by rw [List.append_nil], rfl, ?_⟩
      rw [hw, OrderedTable.putAll, recordsBytes, List.flatMap_nil, List.append_nil]
  | cons r rs ih =>
      rw [List.forall_mem_cons] at hrs
      rw [OrderedTable.putAll] at hok ⊢
      split_ifs at hok ⊢ with hfault
      cases hput : OrderedTable.putEntry lz o w r with
      | error e =>
          rw [hput] at hok
          exact absurd hok (by simp)
      | ok w' =>
          rw [hput] at hok
          have htaken := putEntry_ok h hrs.1 hput
          have hstreamed := htaken.streamed h hrs.1 (b := b)
          rw [← hw] at hstreamed
          have hinv := DirectLog.inv_put hl hstreamed hrs.1.inline.2
          obtain ⟨l', hl', hopened, hcommits, hwriter⟩ := ih hinv rfl (htaken.ready h) hrs.2 hok
          refine ⟨l', hl', ?_, hcommits, ?_⟩
          · rw [hopened, List.append_assoc, List.singleton_append]
          · rw [hwriter, recordsBytes_cons, List.append_assoc]

/-- What a batch put through leaves beside its records. -/
lemma putAll_frame (h : Ready o w) (hne : rs ≠ []) (hrs : ∀ r ∈ rs, Carried o r)
    (hok : (OrderedTable.putAll lz o w rs fault).2 = true) :
    (OrderedTable.putAll lz o w rs fault).1.openKey = none ∧
      (OrderedTable.putAll lz o w rs fault).1.mode = some .recordsFirst ∧
      (OrderedTable.putAll lz o w rs fault).1.opts = w.opts ∧
      (o.streams = true → (OrderedTable.putAll lz o w rs fault).1.batchBuf = w.batchBuf) := by
  induction rs generalizing w fault with
  | nil => exact absurd rfl hne
  | cons r rs ih =>
      rw [List.forall_mem_cons] at hrs
      rw [OrderedTable.putAll] at hok ⊢
      split_ifs at hok ⊢ with hfault
      cases hput : OrderedTable.putEntry lz o w r with
      | error e =>
          rw [hput] at hok
          exact absurd hok (by simp)
      | ok w' =>
          rw [hput] at hok
          have htaken := putEntry_ok h hrs.1 hput
          obtain ⟨hopts, -, -, -, -, hbuf, -, -, -, hmode, -⟩ := layout_frame w
          have hopts' : w'.opts = w.opts := htaken.opts.trans hopts
          have hmode' : w'.mode = some .recordsFirst := by rw [htaken.mode, hmode, h.records]
          have hbuf' : o.streams = true → w'.batchBuf = w.batchBuf := fun hs => by
            rw [htaken.batchBuf, if_pos hs, hbuf]
          rcases eq_or_ne rs [] with rfl | hne'
          · exact ⟨htaken.openKey, hmode', hopts', hbuf'⟩
          · obtain ⟨hopen, hmode'', hopts'', hbuf''⟩ := ih (htaken.ready h) hne' hrs.2 hok
            exact ⟨hopen, hmode'', hopts''.trans hopts', fun hs => (hbuf'' hs).trans (hbuf' hs)⟩

/-- The stream hashed block by block and piece by piece: the CRC of its bytes. -/
lemma streamHash_eq (stream before : Bytes) {block stop p : ℕ} (base : ℕ) (hblock : 0 < block)
    (hp : p ≤ stop) :
    streamHash stream block base stop p (crc32 before) = crc32 (before ++ slice stream p stop) := by
  induction hm : stop - p using Nat.strong_induction_on generalizing p before with
  | _ m ih =>
      rw [streamHash]
      split_ifs with h
      · dsimp only
        set part := min (stop - p) (block - p % block) with hpart
        have hmod := Nat.mod_lt p hblock
        rw [hashPieces_crc32, ih (stop - (p + part)) (by omega) _ (by omega) rfl, List.append_assoc,
          slice_append_slice stream (by omega) (by omega)]
      · have heq : p = stop := by omega
        rw [heq, slice_self, List.append_nil]

/-- **The stream's marker is the batch's**: a batch streamed out and marked leaves the writer that
the same batch, held and marked, would have. -/
lemma mark_asBatch {stream : Bytes} {block a : ℕ} (hblock : 0 < block) (ha : a ≤ stream.length)
    (hopen : w.openKey = none) (hmode : w.mode = some .recordsFirst) (hmarks : w.opts.marks = true)
    (hbuf : w.batchBuf = []) :
    ({ w with batchBuf := stream.drop a } : SegmentWriter).mark
      = .ok (w.streamOut stream block a stream.length).markStream := by
  have hslice : slice stream a stream.length = stream.drop a := by
    rw [slice, List.take_length]
  have hlen : stream.length - a = (stream.drop a).length := by rw [List.length_drop]
  have hstream := streamHash_eq stream [] (w.out.length - a) hblock ha
  have hpieces := hashPieces_crc32 [] (stream.drop a) w.out.length
  rw [crc32_nil, List.nil_append, hslice] at hstream
  rw [crc32_nil, List.nil_append] at hpieces
  unfold SegmentWriter.mark
  rw [if_neg (by rw [hopen]; simp), layout_batchBuf, layout_of_mode hmode]
  simp only [ne_eq, not_true_eq_false, if_false, hmarks]
  unfold SegmentWriter.streamOut SegmentWriter.markStream SegmentWriter.nextMarker
    SegmentWriter.writeBatch
  simp only [hslice, hstream, hpieces, hlen, hbuf]

lemma layout_snd_congr {w w' : SegmentWriter} (hopts : w'.opts = w.opts)
    (hmode : w'.mode = w.mode) : w'.layout.2 = w.layout.2 := by
  rw [SegmentWriter.layout, SegmentWriter.layout, hopts, hmode]
  cases w.mode <;> rfl

/-- Whether a writer refuses a key depends on its keys, its section and its settings. -/
lemma Refuses.congr {o : DirectOptions} {w w' : SegmentWriter} {k : Bytes} (h : Refuses o w k)
    (hopts : w'.opts = w.opts) (hmode : w'.mode = w.mode) (hraw : w'.raw = w.raw)
    (hlens : w'.lens = w.lens)
    (hkeys : w'.keys = w.keys) (hrecs : w.recsLen ≤ w'.recsLen) : Refuses o w' k where
  ready := ⟨hopts.trans h.ready.opts, (layout_snd_congr hopts hmode).trans h.ready.records,
    hraw.trans h.ready.raw, hlens.trans h.ready.lens⟩
  cause := by
    rw [hkeys]
    exact h.cause.imp_right fun hmax => hmax.trans_le hrecs

lemma ready_of_inv {o : DirectOptions} {l : DirectLog} (hl : l.Inv)
    (hopts : l.writer.opts = (SegmentWriter.create o.writer).opts) : Ready o l.writer :=
  ⟨hopts, hl.records, hl.raw, hl.lens⟩

/-- Between batches a writer holds nothing back. -/
lemma batchBuf_of_inv {l : DirectLog} (hl : l.Inv) (hopened : l.opened = []) :
    l.writer.batchBuf = [] := by
  obtain ⟨done, -, hheld, -⟩ := hl.stream
  rw [hopened, recordsBytes, List.flatMap_nil] at hheld
  exact (List.append_eq_nil_iff.mp hheld.symm).2

end Log

/-! ## What holds between calls -/

namespace OrderedTable

/-- A run between commits: the log's batches are the entries committed, all of them synced, and the
stream's tail the records of the others. -/
structure Clean (t : OrderedTable) (d : DirectFile) : Prop where
  log : ∃ l : DirectLog, l.Inv ∧ l.writer = d.w ∧ l.opened = [] ∧
    l.closed.flatten = t.entries.take d.committed
  ready : Ready t.opts d.w
  le : d.committed ≤ t.entries.length
  synced : d.synced = if d.committed = 0 then [] else d.w.out
  stream : t.opts.streams = true → d.streamFrom ≤ t.stream.length ∧
    t.stream.drop d.streamFrom = recordsBytes t.opts.compactRecords (t.entries.drop d.committed)

/-- The run's file: none yet, or one between commits, or one that takes no commit again. -/
def FileOk (t : OrderedTable) : Prop :=
  match t.direct with
  | none => t.opts.streams = true → t.stream = recordsBytes t.opts.compactRecords t.entries
  | some d => t.Clean d ∨ ∃ r, t.entries[d.committed]? = some r ∧ Refuses t.opts d.w r.1

/-- **What holds of an ordered table** in a run whose syncs do not fail. -/
structure Holds (t : OrderedTable) : Prop where
  carried : ∀ r ∈ t.entries, Carried t.opts r
  sorted : t.entries.Pairwise (fun a b => a.1 < b.1)
  below : ∀ r ∈ t.entries, r.1 ≤ t.maxKey
  file : t.FileOk

section Runs

variable {lz : Lz4} {t : OrderedTable} {d : DirectFile} {fault : Option CommitFault}

lemma holds_start (o : DirectOptions) (maxKey : Bytes) : (start o maxKey).Holds where
  carried := by simp [start]
  sorted := List.Pairwise.nil
  below := by simp [start]
  file := fun _ => rfl

/-- A value that goes direct is carried inline. -/
lemma carried_of_goesDirect {key value : Bytes} (h : t.goesDirect key value = true) :
    Carried t.opts (key, value) := by
  simp only [goesDirect, decide_eq_true_eq] at h
  obtain ⟨-, hlen, -, hin⟩ := h
  have hrun : (runOf [value]).length = max value.length 1 := by
    rcases eq_or_ne value [] with rfl | hne
    · rw [runOf_singleton_nil]
      rfl
    · rw [runOf_singleton_of_ne hne, max_eq_left (List.length_pos_iff.mpr hne)]
  refine ⟨hlen, by rw [hrun]; exact hin, ?_⟩
  simp only [inlines, decide_eq_true_eq] at hin
  have hmax := t.opts.lengths
  rw [REF_LEN_BITS] at hmax
  rw [hrun]
  omega

/-- **An append keeps it.** -/
lemma holds_append (h : t.Holds) (key value : Bytes) : (t.append key value).Holds := by
  rw [append]
  by_cases hgo : t.goesDirect key value = true
  · rw [if_pos hgo]
    have hcar := carried_of_goesDirect hgo
    have hlt : t.maxKey < key := by
      simp only [goesDirect, decide_eq_true_eq] at hgo
      exact hgo.2.2.1
    refine ⟨?_, ?_, ?_, ?_⟩
    · intro r hr
      rcases List.mem_append.mp hr with hr | hr
      · exact h.carried r hr
      · rw [List.mem_singleton.mp hr]
        exact hcar
    · rw [List.pairwise_append]
      refine ⟨h.sorted, List.pairwise_singleton _ _, fun a ha b hb => ?_⟩
      rw [List.mem_singleton.mp hb]
      exact (h.below a ha).trans_lt hlt
    · intro r hr
      rcases List.mem_append.mp hr with hr | hr
      · exact (h.below r hr).trans hlt.le
      · rw [List.mem_singleton.mp hr]
    · have hfile := h.file
      rw [FileOk] at hfile ⊢
      dsimp only
      cases hd : t.direct with
      | none =>
          rw [hd] at hfile
          intro hs
          rw [if_pos hs, recordsBytes_snoc, ← hfile hs]
      | some d =>
          rw [hd] at hfile
          rcases hfile with hclean | ⟨r, hr, hrefuses⟩
          · left
            refine ⟨?_, hclean.ready, ?_, hclean.synced, ?_⟩
            · obtain ⟨l, hl, hw, hopened, hclosed⟩ := hclean.log
              refine ⟨l, hl, hw, hopened, ?_⟩
              rw [hclosed, List.take_append_of_le_length hclean.le]
            · rw [List.length_append]
              exact hclean.le.trans (Nat.le_add_right _ _)
            · intro hs
              obtain ⟨hle, htail⟩ := hclean.stream hs
              dsimp only at hs ⊢
              rw [if_pos hs, List.length_append, List.drop_append_of_le_length hle,
                List.drop_append_of_le_length hclean.le, htail, recordsBytes_snoc]
              exact ⟨hle.trans (Nat.le_add_right _ _), rfl⟩
          · right
            refine ⟨r, ?_, hrefuses⟩
            have hlen := (List.getElem?_eq_some_iff.mp hr).1
            rw [List.getElem?_append_left hlen, hr]
  · rw [if_neg hgo]
    exact h

/-- What a commit leaves of a table is as it was but for its file. -/
lemma Holds.of_file {t' : OrderedTable} (h : t.Holds) (hopts : t'.opts = t.opts)
    (hentries : t'.entries = t.entries) (hmax : t'.maxKey = t.maxKey) (hfile : t'.FileOk) :
    t'.Holds where
  carried := by
    rw [hopts, hentries]
    exact h.carried
  sorted := by
    rw [hentries]
    exact h.sorted
  below := by
    rw [hentries, hmax]
    exact h.below
  file := hfile

/-- **A batch settled**: its log's batches are all the entries, and the sync covers them. -/
lemma holds_settle {t₀ : OrderedTable} {l : DirectLog} (h : t₀.Holds) (hsame : t.opts = t₀.opts)
    (hentries : t.entries = t₀.entries) (hmax : t.maxKey = t₀.maxKey) (hfault : fault ≠ some .sync)
    (hne : t.entries ≠ [])
    (hl : l.Inv) (hw : l.writer = d.w)
    (hopts : d.w.opts = (SegmentWriter.create t.opts.writer).opts) (hopened : l.opened = [])
    (hclosed : l.closed.flatten = t.entries)
    (hstream : t.opts.streams = true → d.streamFrom = t.stream.length) :
    (t.settle d fault).1.Holds ∧
      ((t.settle d fault).1.direct.map DirectFile.committed).getD 0 = t.entries.length := by
  have hsync : DirectLog.Inv { l with writer := l.writer.sync } := DirectLog.inv_sync hl
  rw [settle, if_neg hfault]
  refine ⟨h.of_file hsame hentries hmax (Or.inl ?_), rfl⟩
  refine ⟨⟨{ l with writer := l.writer.sync }, hsync, by rw [hw], hopened, ?_⟩, ?_,
    le_refl _, ?_, ?_⟩
  · dsimp only
    rw [List.take_length]
    exact hclosed
  · have hready : Ready t.opts l.writer.sync := ready_of_inv hsync (by
      rw [sync_opts, hw]
      exact hopts)
    rwa [hw] at hready
  · dsimp only
    rw [if_neg fun h0 => hne (List.length_eq_zero_iff.mp h0)]
  · intro hs
    dsimp only at hs ⊢
    rw [hstream hs, List.drop_length, List.drop_length]
    exact ⟨le_refl _, rfl⟩

/-- A batch to commit, from an open file. -/
structure Due (t : OrderedTable) (d : DirectFile) (r : Bytes × Bytes) (rs : List (Bytes × Bytes)) :
    Prop where
  batch : t.entries.drop d.committed = r :: rs
  file : t.Clean d ∨ Refuses t.opts d.w r.1

variable {r : Bytes × Bytes} {rs : List (Bytes × Bytes)}

lemma Due.ready (h : t.Due d r rs) : Ready t.opts d.w := by
  rcases h.file with hclean | hrefuses
  · exact hclean.ready
  · exact hrefuses.ready

lemma Due.at_committed (h : t.Due d r rs) : t.entries[d.committed]? = some r := by
  rw [← List.head?_drop, h.batch, List.head?_cons]

lemma Due.carried (h : t.Due d r rs) (ht : t.Holds) : ∀ r' ∈ r :: rs, Carried t.opts r' := by
  intro r' hr'
  rw [← h.batch] at hr'
  exact ht.carried r' (List.mem_of_mem_drop hr')

lemma Due.le (h : t.Due d r rs) (ht : t.Holds) : ∀ r' ∈ rs, r.1 ≤ r'.1 := by
  have hsorted := ht.sorted.sublist (List.drop_sublist d.committed t.entries)
  rw [h.batch, List.pairwise_cons] at hsorted
  exact fun r' hr' => (hsorted.1 r' hr').le

/-- A file left by a failed put. -/
lemma Due.fileOk_put (lz : Lz4) (h : t.Due d r rs) (ht : t.Holds) (fault : Option ℕ) :
    FileOk { t with direct := some { d with w := (putAll lz t.opts d.w (r :: rs) fault).1 } } := by
  rcases putAll_refused lz fault h.ready (h.carried ht) (h.le ht) with heq | hrefuses
  · rw [heq]
    rcases h.file with hclean | hrefuses
    · exact Or.inl ⟨hclean.log, hclean.ready, hclean.le, hclean.synced, hclean.stream⟩
    · exact Or.inr ⟨r, h.at_committed, hrefuses⟩
  · exact Or.inr ⟨r, h.at_committed, hrefuses⟩

/-- A batch goes through only from a clean file. -/
lemma Due.clean (h : t.Due d r rs) (ht : t.Holds) {fault : Option ℕ}
    (hok : (putAll lz t.opts d.w (r :: rs) fault).2 = true) : t.Clean d := by
  rcases h.file with hclean | hrefuses
  · exact hclean
  · exfalso
    obtain ⟨e, he⟩ := hrefuses.putEntry lz (h.carried ht r (List.mem_cons_self ..))
    rw [putAll] at hok
    split_ifs at hok
    rw [he] at hok
    exact absurd hok (by simp)

/-- The log of a batch that went through. -/
lemma Due.log (h : t.Due d r rs) (ht : t.Holds) {fault : Option ℕ}
    (hok : (putAll lz t.opts d.w (r :: rs) fault).2 = true) :
    ∃ l : DirectLog, l.Inv ∧ l.opened = r :: rs ∧ l.closed.flatten = t.entries.take d.committed ∧
      l.writer = asBatch t.opts (putAll lz t.opts d.w (r :: rs) fault).1
        (recordsBytes t.opts.compactRecords (r :: rs)) := by
  obtain ⟨l, hl, hw, hopened, hclosed⟩ := (h.clean ht hok).log
  have hbuf : d.w.batchBuf = [] := by
    rw [← hw]
    exact batchBuf_of_inv hl hopened
  have hbatch : l.writer = asBatch t.opts d.w [] := by
    rw [hw, asBatch, ← hbuf]
    split_ifs <;> rfl
  obtain ⟨l', hl', hopened', hcommits', hwriter'⟩ := putAll_log hl hbatch h.ready (h.carried ht) hok
  refine ⟨l',
    hl', by rw [hopened', hopened, List.nil_append], ?_, by rw [hwriter', List.nil_append]⟩
  rw [DirectLog.closed, hcommits']
  exact hclosed

/-- A batch that went through, marked and settled. -/
lemma Due.settled {t' : OrderedTable} {d' : DirectFile} {l : DirectLog} (h : t.Due d r rs)
    (ht : t.Holds) (hfault : fault ≠ some .sync) (hopts : t'.opts = t.opts)
    (hentries : t'.entries = t.entries) (hmax : t'.maxKey = t.maxKey)
    (hl : l.Inv) (hopened : l.opened = r :: rs)
    (hclosed : l.closed.flatten = t.entries.take d.committed)
    (hwriter : l.writer.opts = (SegmentWriter.create t.opts.writer).opts)
    (hmark : l.writer.mark = .ok d'.w)
    (hstream : t'.opts.streams = true → d'.streamFrom = t'.stream.length) :
    (t'.settle d' fault).1.Holds ∧
      ((t'.settle d' fault).1.direct.map DirectFile.committed).getD 0 = t.entries.length := by
  have hinv := DirectLog.inv_mark hl hmark
  rw [← hentries]
  refine holds_settle ht hopts hentries hmax hfault ?_ hinv rfl ?_ rfl ?_ hstream
  · intro hnil
    have hbatch := h.batch
    rw [← hentries, hnil, List.drop_nil] at hbatch
    exact absurd hbatch (by simp)
  · rw [mark_opts hmark, hwriter, hopts]
  · have happ : DirectLog.closed ⟨d'.w, [], l.commits ++ [(l.opened, d'.w.out.length)]⟩
        = l.closed ++ [l.opened] := by
      simp [DirectLog.closed]
    rw [happ, List.flatten_append, List.flatten_singleton, hclosed, hopened, ← h.batch,
      List.take_append_drop, hentries]

/-- **A batch of records committed.** -/
lemma holds_commitRecords (h : t.Due d r rs) (ht : t.Holds) (hs : ¬ t.opts.streams = true)
    (hfault : fault ≠ some .sync) :
    (t.commitRecords lz d fault).1.Holds ∧ ((t.commitRecords lz d fault).2 = true →
      ((t.commitRecords lz d fault).1.direct.map DirectFile.committed).getD 0
      = t.entries.length) := by
  rw [commitRecords, h.batch]
  have hput := h.fileOk_put lz ht (putFault fault)
  cases hok : (putAll lz t.opts d.w (r :: rs) (putFault fault)).2 with
  | false =>
      simp only [hok, Bool.false_eq_true, not_false_eq_true, if_true]
      exact ⟨ht.of_file rfl rfl rfl hput, fun hok' => absurd hok' (by simp)⟩
  | true =>
      have hrefuses := Refuses.whole h.ready (h.carried ht) (h.le ht) hok
      obtain ⟨l, hl, hopened, hclosed, hw⟩ := h.log ht hok
      obtain ⟨-, -, hopts, -⟩ := putAll_frame h.ready (List.cons_ne_nil _ _) (h.carried ht) hok
      rw [asBatch, if_neg hs] at hw
      simp only [hok, not_true_eq_false, if_false]
      set w := (putAll lz t.opts d.w (r :: rs) (putFault fault)).1 with hwdef
      -- the marker, or what its failure leaves
      have hleft : ∀ w', Refuses t.opts w' r.1 →
          Holds { t with direct := some { d with w := w' } } := fun w' hw' =>
        ht.of_file rfl rfl rfl (Or.inr ⟨r, h.at_committed, hw'⟩)
      unfold markFile
      split
      · rename_i n
        simp only [Bool.false_eq_true, not_false_eq_true, if_true]
        refine ⟨hleft _ ?_, fun hok' => absurd hok' (by simp)⟩
        exact hrefuses.congr rfl rfl rfl rfl rfl (le_refl _)
      · rename_i n
        simp only [Bool.false_eq_true, not_false_eq_true, if_true]
        refine ⟨hleft _ ?_, fun hok' => absurd hok' (by simp)⟩
        exact hrefuses.congr rfl rfl rfl rfl rfl (le_refl _)
      · cases hmark : w.mark with
        | error e =>
            simp only [Bool.false_eq_true, not_false_eq_true, if_true]
            exact ⟨hleft _ hrefuses, fun hok' => absurd hok' (by simp)⟩
        | ok w' =>
            simp only [not_true_eq_false, if_false]
            rw [← hw] at hmark
            have hsettled : (t.settle { d with w := w' } fault).1.Holds ∧ _ :=
              h.settled ht hfault rfl rfl rfl hl hopened hclosed (by rw [hw, hopts, h.ready.opts])
                hmark (fun hs' => absurd hs' hs)
            exact ⟨hsettled.1, fun _ => hsettled.2⟩

/-- **A batch of a stream committed.** -/
lemma holds_commitStream (h : t.Due d r rs) (ht : t.Holds) (hs : t.opts.streams = true)
    (hfault : fault ≠ some .sync) :
    (t.commitStream lz d fault).1.Holds ∧ ((t.commitStream lz d fault).2 = true →
      ((t.commitStream lz d fault).1.direct.map DirectFile.committed).getD 0
      = t.entries.length) := by
  rw [commitStream, h.batch]
  have hput := h.fileOk_put lz ht (putFault fault)
  by_cases hstop : ¬ (putAll lz t.opts d.w (r :: rs) (putFault fault)).2 = true ∨
    fault = some .streamOut
  · dsimp only
    rw [if_pos hstop]
    exact ⟨ht.of_file rfl rfl rfl hput, fun hok => absurd hok (by simp)⟩
  · dsimp only
    rw [if_neg hstop]
    have hok : (putAll lz t.opts d.w (r :: rs) (putFault fault)).2 = true :=
      not_not.mp fun h' => hstop (Or.inl h')
    have hrefuses := Refuses.whole h.ready (h.carried ht) (h.le ht) hok
    obtain ⟨l, hl, hopened, hclosed, hw⟩ := h.log ht hok
    obtain ⟨hopen, hmode, hopts, hbuf⟩ := putAll_frame h.ready (List.cons_ne_nil _ _)
      (h.carried ht) hok
    have hclean := h.clean ht hok
    obtain ⟨hle, htail⟩ := hclean.stream hs
    have hheld : d.w.batchBuf = [] := by
      obtain ⟨l₀, hl₀, hw₀, hopened₀, -⟩ := hclean.log
      rw [← hw₀]
      exact batchBuf_of_inv hl₀ hopened₀
    set w := (putAll lz t.opts d.w (r :: rs) (putFault fault)).1 with hwdef
    set w₁ := w.streamOut t.stream (2 ^ t.opts.arenaShift) d.streamFrom t.stream.length with hw₁
    have hmark : l.writer.mark = .ok w₁.markStream := by
      rw [hw, asBatch, if_pos hs, ← h.batch, ← htail]
      exact mark_asBatch (by positivity) hle hopen hmode (by rw [hopts]; exact h.ready.marks)
        ((hbuf hs).trans hheld)
    have hleft : ∀ n, Holds { t with stream := t.stream ++ w₁.nextMarker
                                     direct := some ⟨w₁.markStream, d.committed, n, d.synced⟩ } := by
      intro n
      refine ht.of_file rfl rfl rfl (Or.inr ⟨r, h.at_committed, ?_⟩)
      exact hrefuses.congr rfl rfl rfl rfl rfl (Nat.le_add_right _ _)
    split_ifs with hflush hgrow
    · exact ⟨hleft d.streamFrom, fun hok' => absurd hok' (by simp)⟩
    · exact ⟨hleft _, fun hok' => absurd hok' (by simp)⟩
    · have hwriter : l.writer.opts = (SegmentWriter.create t.opts.writer).opts := by
        rw [hw, asBatch, if_pos hs, ← h.ready.opts]
        exact hopts
      have hsettled : (settle { t with stream := t.stream ++ w₁.nextMarker }
          ⟨w₁.markStream, d.committed, (t.stream ++ w₁.nextMarker).length, d.synced⟩ fault).1.Holds ∧ _ :=
        h.settled ht hfault rfl rfl rfl hl hopened hclosed hwriter hmark (fun _ => rfl)
      exact ⟨hsettled.1, fun _ => hsettled.2⟩

/-- A file opened on the first commit. -/
lemma clean_create {r : Bytes × Bytes} (h : t.Holds) (hr : r ∈ t.entries) (hd : t.direct = none) :
    t.Clean { w := .create t.opts.writer, committed := 0, streamFrom := 0, synced := [] } := by
  have hpos : 0 < t.opts.writer.inlineMax := by
    have hin := (h.carried r hr).inline.1
    simp only [inlines, decide_eq_true_eq] at hin
    exact hin.1
  have hinv : (DirectLog.start t.opts.writer).Inv := DirectLog.inv_start rfl hpos rfl
  refine ⟨⟨_, hinv, rfl, rfl, rfl⟩, ready_of_inv hinv rfl, Nat.zero_le _, rfl, fun hs => ?_⟩
  have hfile := h.file
  rw [FileOk, hd] at hfile
  exact ⟨Nat.zero_le _, hfile hs⟩

/-- The file a commit with something to commit goes on with. -/
lemma openFile_due (h : t.Holds)
    (hlt : (t.direct.map DirectFile.committed).getD 0 ≠ t.entries.length)
    (hopen : t.openFile fault = some d) : ∃ r rs, ∀ mapped,
    Due { t with direct := some d, mapped := mapped } d r rs := by
  have hfile : t.Clean d ∨ ∃ r, t.entries[d.committed]? = some r ∧ Refuses t.opts d.w r.1 := by
    rw [openFile] at hopen
    cases hd : t.direct with
    | some d₀ =>
        rw [hd] at hopen
        have hok := h.file
        rw [FileOk, hd] at hok
        rwa [Option.some.inj hopen] at hok
    | none =>
        rw [hd] at hopen hlt
        split_ifs at hopen
        rw [← Option.some.inj hopen]
        obtain ⟨r, hr⟩ := List.exists_mem_of_ne_nil _ (fun hnil => hlt (by rw [hnil]; rfl) : t.entries ≠ [])
        exact Or.inl (clean_create h hr hd)
  have hcommitted : d.committed ≠ t.entries.length := by
    rw [openFile] at hopen
    cases hd : t.direct with
    | some d₀ =>
        rw [hd] at hopen hlt
        rw [← Option.some.inj hopen]
        exact hlt
    | none =>
        rw [hd] at hopen hlt
        split_ifs at hopen
        rw [← Option.some.inj hopen]
        exact hlt
  have hless : d.committed < t.entries.length := by
    rcases hfile with hclean | ⟨r, hr, -⟩
    · exact lt_of_le_of_ne hclean.le hcommitted
    · exact (List.getElem?_eq_some_iff.mp hr).1
  have hbatch := List.drop_eq_getElem_cons hless
  refine ⟨_, _, fun mapped => ⟨hbatch, ?_⟩⟩
  rcases hfile with hclean | ⟨r, hr, hrefuses⟩
  · exact Or.inl ⟨hclean.log, hclean.ready, hclean.le, hclean.synced, hclean.stream⟩
  · rw [List.getElem?_eq_getElem hless] at hr
    exact Or.inr (Option.some.inj hr ▸ hrefuses)

lemma Due.fileOk (h : t.Due d r rs) (hd : t.direct = some d) : t.FileOk := by
  rw [FileOk, hd]
  exact h.file.imp_right fun hrefuses => ⟨r, h.at_committed, hrefuses⟩

/-- **A commit keeps it**, and one that returns `Ok` has committed every entry. -/
lemma holds_commitDirect (lz : Lz4) (h : t.Holds) (hfault : fault ≠ some .sync) :
    (t.commitDirect lz fault).1.Holds ∧ ((t.commitDirect lz fault).2 = true →
      ((t.commitDirect lz fault).1.direct.map DirectFile.committed).getD 0 = t.entries.length) := by
  rw [commitDirect]
  by_cases hdone : (t.direct.map DirectFile.committed).getD 0 = t.entries.length
  · rw [if_pos hdone]
    exact ⟨h, fun _ => hdone⟩
  rw [if_neg hdone]
  cases hopen : t.openFile fault with
  | none => exact ⟨h, fun hok => absurd hok (by simp)⟩
  | some d =>
      obtain ⟨r, rs, hdue⟩ := openFile_due h hdone hopen
      have hholds : ∀ mapped, Holds { t with direct := some d, mapped := mapped } := fun mapped =>
        h.of_file rfl rfl rfl ((hdue mapped).fileOk rfl)
      dsimp only
      split_ifs with hmap hs
      · exact ⟨hholds t.mapped, fun hok => absurd hok (by simp)⟩
      · exact holds_commitStream (hdue _) (hholds _) hs hfault
      · exact holds_commitRecords (hdue _) (hholds _) hs hfault

lemma entries_commitDirect (lz : Lz4) (t : OrderedTable) (fault : Option CommitFault) :
    (t.commitDirect lz fault).1.entries = t.entries := by
  have hsettle : ∀ (t : OrderedTable) (d : DirectFile), (t.settle d fault).1.entries
    = t.entries := by
    intro t d
    rw [settle]
    split_ifs <;> rfl
  rw [commitDirect]
  by_cases hdone : (t.direct.map DirectFile.committed).getD 0 = t.entries.length
  · rw [if_pos hdone]
  rw [if_neg hdone]
  cases t.openFile fault with
  | none => rfl
  | some d =>
      dsimp only
      split_ifs
      · rfl
      · rw [commitStream]
        dsimp only
        split_ifs
        · rfl
        · rfl
        · rfl
        · exact hsettle _ _
      · rw [commitRecords]
        dsimp only
        split_ifs
        · exact hsettle _ _
        · rfl
        · rfl

/-- **Any run** whose syncs go through keeps the table and its file in step. -/
lemma holds_run (lz : Lz4) {ops : List RunOp} (h : t.Holds) (hops : ∀ op ∈ ops, op.Syncs) :
    (ops.foldl (step lz) t).Holds := by
  induction ops generalizing t with
  | nil => exact h
  | cons op ops ih =>
      rw [List.forall_mem_cons] at hops
      refine ih ?_ hops.2
      cases op with
      | append key value => exact holds_append h key value
      | commit fault => exact (holds_commitDirect lz h hops.1).1

/-- What the synced bytes of a table with every entry committed recover to. -/
lemma recover_durable {base : ℕ} (h : t.Holds) (hbase : 4 ∣ base)
    (hall : (t.direct.map DirectFile.committed).getD 0 = t.entries.length) :
    recoverDirect base t.durable = t.entries := by
  have hempty : recoverDirect base [] = [] := recoverDirect_short (by norm_num [SUPER])
  have hfile := h.file
  rw [FileOk] at hfile
  rw [durable]
  cases hd : t.direct with
  | none =>
      rw [hd] at hall
      rw [List.length_eq_zero_iff.mp hall.symm]
      exact hempty
  | some d =>
      rw [hd] at hall hfile
      have hlen : d.committed = t.entries.length := hall
      rcases hfile with hclean | ⟨r, hr, -⟩
      · obtain ⟨l, hl, hw, -, hclosed⟩ := hclean.log
        have hsynced : d.synced = if d.committed = 0 then [] else d.w.out := hclean.synced
        show recoverDirect base d.synced = t.entries
        rw [hsynced]
        split_ifs with hzero
        · rw [List.length_eq_zero_iff.mp (hlen.symm.trans hzero)]
          exact hempty
        · have hrec := DirectLog.recover_take hl hbase l.writer.out.length
          have hfilter : l.commits.filter (fun c => c.2 ≤ l.writer.out.length) = l.commits :=
            List.filter_eq_self.mpr fun c hc => decide_eq_true (hl.endsLe c hc)
          have hclosed' : l.commits.flatMap Prod.fst = t.entries.take d.committed := by
            rw [← hclosed, DirectLog.closed, List.flatMap_def]
          rw [List.take_length, hfilter, hclosed', hlen, List.take_length] at hrec
          rw [← hw, hrec]
      · have hlt := (List.getElem?_eq_some_iff.mp hr).1
        omega

end Runs

end OrderedTable

/-- **A direct commit is honest.**  Whatever is appended and committed over an ordered table of any
form, and whichever steps of the commits fail, as long as no sync does: a commit that returns `Ok`
leaves every record appended so far in the synced bytes of the run's file, in order and once each.
`base` is where the allocator put the buffer the file is read into. -/
theorem direct_commit_honest (lz : Lz4) (o : DirectOptions) (maxKey : Bytes) {ops : List RunOp}
    {fault : Option CommitFault} {base : ℕ} (hbase : 4 ∣ base) (hops : ∀ op ∈ ops, op.Syncs)
    (hfault : (RunOp.commit fault).Syncs)
    (hok : ((ops.foldl (OrderedTable.step lz) (.start o maxKey)).commitDirect lz fault).2 = true) :
    recoverDirect base
      ((ops.foldl (OrderedTable.step lz) (.start o maxKey)).commitDirect lz fault).1.durable
      = (ops.foldl (OrderedTable.step lz) (.start o maxKey)).entries := by
  have hrun := OrderedTable.holds_run lz (OrderedTable.holds_start o maxKey) hops
  obtain ⟨hholds, hall⟩ := OrderedTable.holds_commitDirect lz hrun hfault
  have hentries := OrderedTable.entries_commitDirect lz
    (ops.foldl (OrderedTable.step lz) (.start o maxKey)) fault
  rw [← hentries]
  exact OrderedTable.recover_durable hholds hbase (by rw [hentries]; exact hall hok)

/-- A stream whose file could not be opened at the first commit, and whose mapping could not at the
second. -/
theorem direct_commit_honest_stream :
    ([.append [1] [2], .commit (some .create), .append [3] [], .commit (some .openMap)].foldl
        (OrderedTable.step ⟨id, fun b _ => some b⟩)
        (.start ⟨4096, 64, false, true, true, true, true, .stream true, 1048576, 20, by decide⟩ [])).entries
      = [([1], [2]), ([3], [])] ∧
    recoverDirect 16 (([.append [1] [2], .commit (some .create), .append [3] [],
        .commit (some .openMap)].foldl (OrderedTable.step ⟨id, fun b _ => some b⟩)
        (.start ⟨4096, 64, false, true, true, true, true, .stream true, 1048576, 20, by decide⟩
          [])).commitDirect ⟨id, fun b _ => some b⟩ none).1.durable
      = ([.append [1] [2], .commit (some .create), .append [3] [], .commit (some .openMap)].foldl
        (OrderedTable.step ⟨id, fun b _ => some b⟩)
        (.start ⟨4096, 64, false, true, true, true, true, .stream true, 1048576, 20, by decide⟩ [])).entries := by
  refine ⟨by decide +kernel, direct_commit_honest _ _ _ (by decide) ?_ ?_ (by decide +kernel)⟩
  · simp [RunOp.Syncs]
  · simp [RunOp.Syncs]

/-- **A retry after a failed sync.**  The commit whose sync failed has counted its batch, so the
next one finds nothing to commit and returns `Ok`, and no byte of the record is durable. -/
theorem direct_commit_unsynced :
    let t :=
      [.append [1] [2], .commit (some .sync)].foldl (OrderedTable.step ⟨id, fun b _ => some b⟩)
      (.start ⟨4096, 64, false, true, true, true, true, .plain, 1048576, 22, by decide⟩ [])
    (t.commitDirect ⟨id, fun b _ => some b⟩ none).2 = true ∧
      recoverDirect 16 (t.commitDirect ⟨id, fun b _ => some b⟩ none).1.durable ≠ t.entries := by
  intro t
  have hdurable : (t.commitDirect ⟨id, fun b _ => some b⟩ none).1.durable = [] := by decide +kernel
  have hentries : t.entries = [([1], [2])] := by decide +kernel
  refine ⟨by decide +kernel, ?_⟩
  rw [hdurable, hentries, recoverDirect_short (by norm_num [SUPER])]
  simp

end Supdb
