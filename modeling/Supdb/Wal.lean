import Supdb.Lib.Uvarint
import Supdb.Crc

/-!
# The write-ahead log

`Wal` frames every record of a batch, closes the batch with a commit frame and hands the lot to the
file; `Wal::replay` reads the file back and applies the batches whose commit frame it finds intact.
A frame is `len u32 | crc u32 | seq u64 | kind u8 | payload`; only the commit frame carries
checksums, its own and that of the batch's bytes before it, so a batch is applied whole or not at
all.

* `Wal`, `Wal.frame`, `Wal.markCommit`, `Wal.write` – the writer, over the bytes it has put in the
  file.
* `replay` – the reader, over the bytes the file holds; `applied` is the sequence of calls it makes
  to its caller's `apply`.
* `replay_cut` – **the torn-tail law**: over any prefix of a log, replay applies exactly the
  batches whose commit frame the prefix holds.
-/

namespace Supdb

open StorageLib

/-! ## The engine's varints -/

namespace Db

/-- `put_uvarint`, as the log and the direct stream write it. -/
def putUvarint (v : ℕ) : Bytes :=
  let b := UInt8.ofNat (v &&& 0x7f)
  if _h : v >>> 7 = 0 then [b] else (b ||| 0x80) :: putUvarint (v >>> 7)
termination_by v
decreasing_by
  rw [Nat.shiftRight_eq_div_pow] at _h ⊢
  omega

/-- `get_uvarint`: none where the bytes run out or the value runs past 64 bits. -/
def getUvarint (buf : Bytes) (p : ℕ) : Option (ℕ × ℕ) :=
  match readUvarint (buf.drop p) p 0 0 with
  | .whole v p' => some (v, p')
  | .short _ _ => none

lemma ofNat_or_128 {n : ℕ} (h : n < 128) : UInt8.ofNat n ||| 0x80 = UInt8.ofNat (n + 128) := by
  apply UInt8.toNat_inj.mp
  have h7 : n < 2 ^ 7 := by omega
  have h128 : (0x80 : UInt8).toNat = 2 ^ 7 * 1 := rfl
  rw [UInt8.toNat_or, h128, UInt8.toNat_ofNat', UInt8.toNat_ofNat',
    Nat.mod_eq_of_lt (by omega : n < 2 ^ 8), Nat.or_comm, ← Nat.two_pow_add_eq_or_of_lt h7]
  omega

lemma putUvarint_eq (v : ℕ) : putUvarint v = uvarint v := by
  induction v using Nat.strong_induction_on with
  | _ v ih =>
      rw [putUvarint, and_127]
      have hshift : v >>> 7 = v / 128 := by rw [Nat.shiftRight_eq_div_pow]
      by_cases h : v < 128
      · rw [dif_pos (by omega), uvarint_of_lt h, Nat.mod_eq_of_lt h]
      · have hrec : putUvarint (v >>> 7) = uvarint (v / 128) := by
          rw [hshift]; exact ih _ (by omega)
        rw [dif_neg (by omega), hrec, uvarint_of_ge (by omega : 128 ≤ v), ofNat_or_128 (by omega)]

/-- What `put_uvarint` wrote at the cursor is read back, whatever follows. -/
lemma getUvarint_append {pre post : Bytes} {v p : ℕ} (hp : p = pre.length) (hv : v < 2 ^ 64) :
    getUvarint (pre ++ (putUvarint v ++ post)) p = some (v, p + (putUvarint v).length) := by
  rw [getUvarint, hp, List.drop_left, putUvarint_eq, readUvarint_uvarint hv]

end Db

/-! ## The writer -/

/-- Frame kinds. -/
def walPut : UInt8 := 0
def walDel : UInt8 := 1
def walCommit : UInt8 := 2

/-- Bytes of a frame before its body: its length and its checksum. -/
def frameHeader : ℕ := 8

/-- `SUPDBWL`. -/
def walHead : Bytes := [0x53, 0x55, 0x50, 0x44, 0x42, 0x57, 0x4C]

/-- Header kinds: the file before this one was synced when this one began, or was not. -/
def walChained : UInt8 := 4
def walLoose : UInt8 := 5

/-- `wal_header`. -/
def walHeader (kind : UInt8) : Bytes := walHead ++ [kind]

/-- `wal_kind`: the kind byte of a header, none for bytes that are not a log's header. -/
def walKind (header : Bytes) : Option UInt8 :=
  if header.length < 8 ∨ slice header 0 7 ≠ walHead then none
  else
    match header[7]? with
    | some k => if k = walChained ∨ k = walLoose then some k else none
    | none => none

/-- `wal_seed`: the per-file seed every checksum of the file is xored with. -/
def walSeed (id : BitVec 64) : BitVec 32 :=
  let z := id + 0x9E3779B97F4A7C15#64
  let z := (z ^^^ (z >>> 30)) * 0xBF58476D1CE4E5B9#64
  let z := (z ^^^ (z >>> 27)) * 0x94D049BB133111EB#64
  (z ^^^ (z >>> 31)).setWidth 32

/-- A log being written: the file's bytes so far, the next record's sequence, the frames buffered
since the last commit, and the file's seed. -/
structure Wal where
  file : Bytes
  seq : ℕ
  pending : Bytes
  seed : BitVec 32

/-- One record of a batch. -/
inductive WalRecord where
  | put (key value : Bytes)
  | delete (key : Bytes)
  deriving DecidableEq, Repr

namespace Wal

/-- `Wal::create`, its first record to carry sequence `fromSeq`. -/
def create (id : BitVec 64) (kind : UInt8) (fromSeq : ℕ) : Wal :=
  { file := walHeader kind, seq := fromSeq, pending := [], seed := walSeed id }

/-- The body of a frame: sequence, kind and payload. -/
def body (seq : ℕ) (kind : UInt8) (payload : Bytes) : Bytes :=
  leBytes 8 seq ++ ([kind] ++ payload)

/-- A frame around its body: the body's length as a `u32`, its checksum word, the body. -/
def frameBytes (crc : BitVec 32) (body : Bytes) : Bytes :=
  leBytes 4 body.length ++ (leBytes 4 crc.toNat ++ body)

/-- `Wal::frame`. -/
def frame (w : Wal) (kind : UInt8) (key value : Bytes) : Wal :=
  let payload :=
    if kind = walCommit then leBytes 4 (crc32 w.pending ^^^ w.seed).toNat
    else Db.putUvarint key.length ++ (key ++ if kind = walPut then value else [])
  let body := body w.seq kind payload
  let crc := if kind = walCommit then crc32 body ^^^ w.seed else 0#32
  { w with pending := w.pending ++ frameBytes crc body, seq := (w.seq + 1) % 2 ^ 64 }

/-- `Wal::append` and `Wal::delete`. -/
def record (w : Wal) : WalRecord → Wal
  | .put key value => w.frame walPut key value
  | .delete key => w.frame walDel key []

/-- `Wal::mark_commit`: nothing pending, nothing to close. -/
def markCommit (w : Wal) : Wal :=
  if w.pending = [] then w else w.frame walCommit [] []

/-- `Wal::write`. -/
def write (w : Wal) : Wal := { w with file := w.file ++ w.pending, pending := [] }

/-- A batch staged, closed and written, as every commit does it. -/
def commitBatch (w : Wal) (batch : List WalRecord) : Wal :=
  (batch.foldl record w).markCommit.write

end Wal

/-! ## The reader -/

/-- A record of the batch being read: where its key and value lie in the buffer. -/
structure BatchEntry where
  kind : UInt8
  seq : ℕ
  ks : ℕ
  ke : ℕ
  ve : ℕ

/-- One call of `apply`. -/
abbrev Applied := UInt8 × Bytes × Bytes

/-- What replay did: the calls it made, and what it returned. -/
structure Replayed where
  applied : List Applied
  outcome : Except String (ℕ × ℕ × Bool)

/-- The locals of replay's walk other than its cursor. -/
structure ReplayState where
  nextSeq : ℕ
  committedSeq : ℕ
  validLen : ℕ
  batch : List BatchEntry
  batchStart : ℕ
  applied : List Applied

/-- How the walk goes on after a frame: past it, or it ends, or replay returns. -/
inductive FrameRead where
  | next (s : ReplayState)
  | stop
  | done (r : Replayed)

/-- The continuity check over the sequences of a verified batch: records below `from` are
skipped, the others have to follow one another. -/
def chainSeq (fromSeq : ℕ) : ℕ → List ℕ → Option ℕ
  | next, [] => some next
  | next, s :: ss =>
      if fromSeq ≤ s then
        if s ≠ next then none else chainSeq fromSeq ((s + 1) % 2 ^ 64) ss
      else chainSeq fromSeq next ss

/-- The calls of `apply` for the records of a verified batch. -/
def applyBatch (buf : Bytes) (fromSeq : ℕ) (batch : List BatchEntry) : List Applied :=
  (batch.filter (fun e => fromSeq ≤ e.seq)).map
    (fun e => (e.kind, slice buf e.ks e.ke, slice buf e.ke e.ve))

/-- The message of a gap in a verified batch. -/
def gapError : String := "wal sequence gap: a durable record is missing"

/-- The message of a header that is not a log's. -/
def headerError : String := "not a supdb WAL: the header is missing or from an older format"

/-- A commit frame at `p`. -/
def readCommit (buf : Bytes) (seed : BitVec 32) (fromSeq : ℕ) (loose : Bool) (p fin : ℕ)
    (s : ReplayState) : FrameRead :=
  let body := slice buf (p + frameHeader) fin
  let seq := u64At body 0
  if (crc32 body ^^^ seed).toNat ≠ u32At buf (p + 4) ∨ body.length ≠ 13 then .stop
  else if (crc32 (slice buf s.batchStart p) ^^^ seed).toNat ≠ u32At body 9 then .stop
  else
    let firstApplied := (s.batch.map BatchEntry.seq ++ [seq]).find? (fun q => fromSeq ≤ q)
    if loose ∧ s.committedSeq = fromSeq ∧ firstApplied.any (fun q => q ≠ s.nextSeq) then
      .done ⟨s.applied, .ok (fromSeq, 8, true)⟩
    else
      match chainSeq fromSeq s.nextSeq (s.batch.map BatchEntry.seq ++ [seq]) with
      | none => .done ⟨s.applied, .error gapError⟩
      | some next =>
          .next
            { nextSeq := next, committedSeq := next, validLen := fin, batch := [],
              batchStart := fin, applied := s.applied ++ applyBatch buf fromSeq s.batch }

/-- A record frame at `p`. -/
def readRecord (buf : Bytes) (p fin : ℕ) (kind : UInt8) (s : ReplayState) : FrameRead :=
  let bodyAt := p + frameHeader
  let body := slice buf bodyAt fin
  if u32At buf (p + 4) ≠ 0 then .stop
  else
    match Db.getUvarint body 9 with
    | none => .stop
    | some (klen, q) =>
        if body.length < q + klen then .stop
        else if kind = walDel ∧ q + klen ≠ body.length then .stop
        else
          .next { s with
            batch := s.batch ++ [⟨kind, u64At body 0, bodyAt + q, bodyAt + (q + klen), fin⟩] }

/-- A frame at `p` whose body ends at `end`, inside the buffer. -/
def readFrame (buf : Bytes) (seed : BitVec 32) (fromSeq : ℕ) (loose : Bool) (p fin : ℕ)
    (s : ReplayState) : FrameRead :=
  match buf[p + frameHeader + 8]? with
  | none => .stop
  | some kind =>
      if kind = walCommit then readCommit buf seed fromSeq loose p fin s
      else if kind = walPut ∨ kind = walDel then readRecord buf p fin kind s
      else .stop

/-- The walk of `Wal::replay`. -/
def replayLoop (buf : Bytes) (seed : BitVec 32) (fromSeq : ℕ) (loose : Bool) (p : ℕ)
    (s : ReplayState) : Replayed :=
  let ended : Replayed := ⟨s.applied, .ok (s.committedSeq, s.validLen, false)⟩
  if buf.length - p < frameHeader then ended
  else
    let len := u32At buf p
    let fin := p + frameHeader + len
    if _h : buf.length < fin ∨ len < 9 then ended
    else
      match readFrame buf seed fromSeq loose p fin s with
      | .next s' => replayLoop buf seed fromSeq loose fin s'
      | .stop => ended
      | .done r => r
termination_by buf.length - p
decreasing_by
  simp only [frameHeader] at *
  omega

/-- `Wal::replay` of a file holding `buf`; a file that is not there reads as an empty one. -/
def replay (buf : Bytes) (id : BitVec 64) (fromSeq : ℕ) (first : Bool) : Replayed :=
  if buf = [] then ⟨[], .ok (fromSeq, 0, false)⟩
  else if buf.length < 8 then
    if buf.take 7 <+: walHead then ⟨[], .ok (fromSeq, 0, false)⟩ else ⟨[], .error headerError⟩
  else
    match walKind (buf.take 8) with
    | none => ⟨[], .error headerError⟩
    | some kind =>
        let loose : Bool := kind = walLoose ∧ ¬ first
        replayLoop buf (walSeed id) fromSeq loose 8
          { nextSeq := fromSeq, committedSeq := fromSeq, validLen := 8, batch := [], batchStart := 8,
            applied := [] }

/-! ## The bytes of a log -/

/-- What replay hands to `apply` for a record. -/
def WalRecord.applied : WalRecord → Applied
  | .put key value => (walPut, key, value)
  | .delete key => (walDel, key, [])

/-- The payload of a record's frame. -/
def WalRecord.payload : WalRecord → Bytes
  | .put key value => Db.putUvarint key.length ++ (key ++ value)
  | .delete key => Db.putUvarint key.length ++ (key ++ [])

/-- The bytes behind a frame's header, and so its length word: they have to fit a `u32`. -/
def WalRecord.bodyLen (r : WalRecord) : ℕ := 9 + r.payload.length

namespace Wal

/-- The frame of a record. -/
def recordFrame (seq : ℕ) (r : WalRecord) : Bytes :=
  frameBytes 0#32 (body seq r.applied.1 r.payload)

/-- The frames of a run of records, numbered from `seq`. -/
def recordFrames : ℕ → List WalRecord → Bytes
  | _, [] => []
  | seq, r :: rs => recordFrame seq r ++ recordFrames (seq + 1) rs

/-- The body of the frame that closes a batch whose record frames are `frames`. -/
def commitBody (seed : BitVec 32) (seq : ℕ) (frames : Bytes) : Bytes :=
  body seq walCommit (leBytes 4 (crc32 frames ^^^ seed).toNat)

/-- The frame that closes a batch whose record frames are `frames`. -/
def commitFrame (seed : BitVec 32) (seq : ℕ) (frames : Bytes) : Bytes :=
  frameBytes (crc32 (commitBody seed seq frames) ^^^ seed) (commitBody seed seq frames)

/-- A batch's bytes, numbered from `seq`. -/
def batchBytes (seed : BitVec 32) (seq : ℕ) (batch : List WalRecord) : Bytes :=
  recordFrames seq batch ++ commitFrame seed (seq + batch.length) (recordFrames seq batch)

lemma length_body (seq : ℕ) (kind : UInt8) (payload : Bytes) :
    (body seq kind payload).length = 9 + payload.length := by
  simp only [body, List.length_append, length_leBytes, List.length_singleton]
  omega

lemma length_frameBytes (crc : BitVec 32) (b : Bytes) :
    (frameBytes crc b).length = frameHeader + b.length := by
  simp only [frameBytes, List.length_append, length_leBytes, frameHeader]
  omega

lemma record_eq (w : Wal) (r : WalRecord) :
    w.record r = { w with pending := w.pending ++ recordFrame w.seq r
                          seq := (w.seq + 1) % 2 ^ 64 } := by
  cases r with
  | put key value => simp [record, frame, recordFrame, WalRecord.applied, WalRecord.payload,
      walPut, walCommit]
  | delete key => simp [record, frame, recordFrame, WalRecord.applied, WalRecord.payload,
      walPut, walDel, walCommit]

lemma recordFrame_ne_nil (seq : ℕ) (r : WalRecord) : recordFrame seq r ≠ [] := by
  intro h
  have := congrArg List.length h
  rw [recordFrame, length_frameBytes] at this
  simp [frameHeader] at this

/-- Staging a run of records appends their frames, as long as the sequence does not wrap. -/
lemma foldl_record (batch : List WalRecord) (w : Wal) (h : w.seq + batch.length < 2 ^ 64) :
    batch.foldl record w
      = { w with pending := w.pending ++ recordFrames w.seq batch, seq := w.seq + batch.length } :=
      by
  induction batch generalizing w with
  | nil => simp [recordFrames]
  | cons r rs ih =>
      rw [List.length_cons] at h
      have hseq : (w.seq + 1) % 2 ^ 64 = w.seq + 1 := Nat.mod_eq_of_lt (by omega)
      rw [List.foldl_cons, record_eq, hseq, ih _ (by simpa using by omega)]
      simp only [recordFrames, List.append_assoc, List.length_cons]
      congr 1
      omega

/-- A batch committed to a log with nothing pending: its bytes behind what the file held. -/
lemma commitBatch_eq {batch : List WalRecord} (hne : batch ≠ []) (w : Wal) (hp : w.pending = [])
    (h : w.seq + batch.length + 1 < 2 ^ 64) :
    w.commitBatch batch
      = { w with file := w.file ++ batchBytes w.seed w.seq batch
                 pending := [], seq := w.seq + (batch.length + 1) } := by
  have hframes : recordFrames w.seq batch ≠ [] := by
    cases batch with
    | nil => exact absurd rfl hne
    | cons r rs => simp [recordFrames, recordFrame_ne_nil]
  have hseq : (w.seq + batch.length + 1) % 2 ^ 64 = w.seq + (batch.length + 1) := by
    rw [Nat.mod_eq_of_lt h, add_assoc]
  rw [commitBatch, foldl_record batch w (by omega), markCommit, hp, List.nil_append,
    if_neg hframes]
  simp only [frame, write, if_true, hseq, batchBytes, commitFrame, commitBody]

end Wal

/-! ## Reading one frame -/

section Frame

variable {buf pre rest : Bytes} {seed crc : BitVec 32} {fromSeq p : ℕ} {loose : Bool} {b : Bytes}
  {s : ReplayState}

/-- What the walk finds at a frame: its length, its checksum word, its body. -/
lemma frame_at (hbuf : buf = pre ++ (Wal.frameBytes crc b ++ rest)) (hp : p = pre.length)
    (hb : b.length < 2 ^ 32) :
    u32At buf p = b.length ∧ u32At buf (p + 4) = crc.toNat ∧
      slice buf (p + frameHeader) (p + frameHeader + b.length) = b := by
  have h1 : buf = pre ++ (leBytes 4 b.length ++ (leBytes 4 crc.toNat ++ (b ++ rest))) := by
    rw [hbuf, Wal.frameBytes]; simp only [List.append_assoc]
  have h2 : buf = (pre ++ leBytes 4 b.length) ++ (leBytes 4 crc.toNat ++ (b ++ rest)) := by
    rw [h1, List.append_assoc]
  have h3 : buf = (pre ++ leBytes 4 b.length ++ leBytes 4 crc.toNat) ++ (b ++ rest) := by
    rw [h2, List.append_assoc _ (leBytes 4 crc.toNat)]
  refine ⟨?_, ?_, ?_⟩
  · rw [h1]; exact u32At_append hp hb
  · rw [h2]; exact u32At_append (by simp [hp]) crc.isLt
  · rw [h3]; exact slice_append_mid (by simp [hp, frameHeader]) (by simp [hp, frameHeader])

/-- The walk over a whole frame is its read of that frame. -/
lemma replayLoop_frame (hbuf : buf = pre ++ (Wal.frameBytes crc b ++ rest)) (hp : p = pre.length)
    (hb : b.length < 2 ^ 32) (h9 : 9 ≤ b.length) :
    replayLoop buf seed fromSeq loose p s
      = match readFrame buf seed fromSeq loose p (p + frameHeader + b.length) s with
        | .next s' => replayLoop buf seed fromSeq loose (p + frameHeader + b.length) s'
        | .stop => ⟨s.applied, .ok (s.committedSeq, s.validLen, false)⟩
        | .done r => r := by
  have hlen : buf.length = p + frameHeader + b.length + rest.length := by
    rw [hbuf, hp, List.length_append, List.length_append, Wal.length_frameBytes]; omega
  have hhead : ¬ buf.length - p < frameHeader := by omega
  have hend : ¬ (buf.length < p + frameHeader + b.length ∨ b.length < 9) := by omega
  rw [replayLoop, if_neg hhead, (frame_at hbuf hp hb).1, dif_neg hend]

/-- The kind byte of a frame. -/
lemma frame_kind {seq : ℕ} {kind : UInt8} {payload : Bytes}
    (hbuf : buf = pre ++ (Wal.frameBytes crc (Wal.body seq kind payload) ++ rest))
    (hp : p = pre.length) : buf[p + frameHeader + 8]? = some kind := by
  have h : buf = (pre ++ leBytes 4 (Wal.body seq kind payload).length ++ leBytes 4 crc.toNat ++
      leBytes 8 seq) ++ (kind :: (payload ++ rest)) := by
    rw [hbuf, Wal.frameBytes]
    simp only [Wal.body, List.append_assoc, List.cons_append, List.nil_append]
  rw [h, List.getElem?_append_right (by simp [hp, frameHeader])]
  simp [hp, frameHeader]

end Frame

/-- An entry of the batch being read stands for a record: its kind, its sequence, and the bytes its
positions name. -/
def Reads (buf : Bytes) (e : BatchEntry) (seq : ℕ) (r : WalRecord) : Prop :=
  e.kind = r.applied.1 ∧ e.seq = seq ∧ slice buf e.ks e.ke = r.applied.2.1 ∧
    slice buf e.ke e.ve = r.applied.2.2

/-- Entries standing for a run of records numbered from `seq`. -/
def ReadsAll (buf : Bytes) : ℕ → List BatchEntry → List WalRecord → Prop
  | _, [], [] => True
  | seq, e :: es, r :: rs => Reads buf e seq r ∧ ReadsAll buf (seq + 1) es rs
  | _, _, _ => False

lemma WalRecord.payload_eq (r : WalRecord) :
    r.payload = Db.putUvarint r.applied.2.1.length ++ (r.applied.2.1 ++ r.applied.2.2) := by
  cases r <;> rfl

lemma WalRecord.kind_cases (r : WalRecord) :
    r.applied.1 = walPut ∨ r.applied.1 = walDel ∧ r.applied.2.2 = [] := by
  cases r <;> simp [WalRecord.applied]

lemma WalRecord.kind_ne_commit (r : WalRecord) : r.applied.1 ≠ walCommit := by
  cases r <;> simp [WalRecord.applied, walPut, walDel, walCommit]

/-- The fields of a record's body, as the reader takes them out. -/
lemma recordBody_fields {seq : ℕ} (kind : UInt8) (key value : Bytes) (hseq : seq < 2 ^ 64)
    (hklen : key.length < 2 ^ 64) :
    let body := Wal.body seq kind (Db.putUvarint key.length ++ (key ++ value))
    let q := 9 + (Db.putUvarint key.length).length
    u64At body 0 = seq ∧ Db.getUvarint body 9 = some (key.length, q) ∧
      body.length = q + key.length + value.length ∧ slice body q (q + key.length) = key ∧
      slice body (q + key.length) body.length = value := by
  intro body q
  have hlen : body.length = q + key.length + value.length := by
    simp only [body, Wal.length_body, List.length_append, q]
    omega
  have h9 : body = (leBytes 8 seq ++ [kind]) ++ (Db.putUvarint key.length ++ (key ++ value)) := by
    simp only [body, Wal.body, List.append_assoc]
  have hq : body = (leBytes 8 seq ++ [kind] ++ Db.putUvarint key.length) ++ (key ++ value) := by
    rw [h9]; simp only [List.append_assoc]
  have hv : body = (leBytes 8 seq ++ [kind] ++ Db.putUvarint key.length ++ key) ++
      (value ++ []) := by
    rw [h9]; simp only [List.append_assoc, List.append_nil]
  refine ⟨?_, ?_, hlen, ?_, ?_⟩
  · have :
      body = [] ++ (leBytes 8 seq ++ ([kind] ++ (Db.putUvarint key.length ++ (key ++ value)))) :=
      rfl
    rw [this]
    exact u64At_append rfl hseq
  · rw [h9]
    exact Db.getUvarint_append (by simp) hklen
  · rw [hq]
    exact slice_append_mid (by simp [q]; omega) (by simp [q]; omega)
  · rw [hlen, hv]
    exact slice_append_mid (by simp [q]; omega) (by simp [q]; omega)

section Walk

variable {buf pre rest : Bytes} {p : ℕ} (seed : BitVec 32) (fromSeq : ℕ) (loose : Bool)
  (s : ReplayState)

/-- **A record frame** is put aside for its batch. -/
lemma replayLoop_record {seq : ℕ} (r : WalRecord)
    (hbuf : buf = pre ++ (Wal.recordFrame seq r ++ rest)) (hp : p = pre.length)
    (hseq : seq < 2 ^ 64) (hfit : r.bodyLen < 2 ^ 32) :
    ∃ e, Reads buf e seq r ∧
      replayLoop buf seed fromSeq loose p s
        = replayLoop buf seed fromSeq loose (p + (Wal.recordFrame seq r).length)
            { s with batch := s.batch ++ [e] } := by
  rw [Wal.recordFrame] at hbuf
  set body := Wal.body seq r.applied.1 r.payload with hbody
  have hlen : body.length = r.bodyLen := by rw [Wal.length_body, WalRecord.bodyLen]
  obtain ⟨-, hcrc, hslice⟩ := frame_at hbuf hp (by omega)
  have hpay : r.payload.length = (Db.putUvarint r.applied.2.1.length).length +
      (r.applied.2.1.length + r.applied.2.2.length) := by
    rw [r.payload_eq, List.length_append, List.length_append]
  obtain ⟨hsq, hklen, hblen, hkey, hval⟩ := recordBody_fields r.applied.1
    r.applied.2.1 r.applied.2.2 hseq (by rw [WalRecord.bodyLen] at hfit; omega)
  rw [← r.payload_eq, ← hbody] at hsq hklen hblen hkey hval
  set q := 9 + (Db.putUvarint r.applied.2.1.length).length with hq
  set klen := r.applied.2.1.length
  have hkind := frame_kind hbuf hp
  have hdel : ¬ (r.applied.1 = walDel ∧ q + klen ≠ body.length) := by
    rintro ⟨hd, hne⟩
    rcases r.kind_cases with h | ⟨-, h⟩
    · rw [h] at hd; exact absurd hd (by decide)
    · rw [h] at hblen; simp at hblen; omega
  have hframe : (Wal.recordFrame seq r).length = frameHeader + body.length := by
    rw [Wal.recordFrame, Wal.length_frameBytes]
  refine ⟨⟨r.applied.1, seq, p + frameHeader + q, p + frameHeader + (q + klen),
    p + frameHeader + body.length⟩, ⟨rfl, rfl, ?_, ?_⟩, ?_⟩
  · rw [← slice_slice buf _ (p + frameHeader + body.length) _ _ (by omega), hslice]
    exact hkey
  · rw [← slice_slice buf _ (p + frameHeader + body.length) _ _ (by omega), hslice]
    exact hval
  · have hpd : r.applied.1 = walPut ∨ r.applied.1 = walDel := by
      rcases r.kind_cases with h | ⟨h, -⟩
      · exact Or.inl h
      · exact Or.inr h
    rw [replayLoop_frame hbuf hp (by omega) (by rw [Wal.length_body]; omega), readFrame, hkind]
    simp only [if_neg r.kind_ne_commit, if_pos hpd]
    rw [readRecord, hslice, hcrc, hklen, hframe]
    simp only [BitVec.toNat_ofNat, Nat.zero_mod, ne_eq, not_true_eq_false, if_false, hsq]
    rw [if_neg (by omega), if_neg hdel]
    simp only [add_assoc]

/-- **A run of record frames** is put aside, in order. -/
lemma replayLoop_records {seq : ℕ} (rs : List WalRecord)
    (hbuf : buf = pre ++ (Wal.recordFrames seq rs ++ rest)) (hp : p = pre.length)
    (hseq : seq + rs.length ≤ 2 ^ 64) (hfit : ∀ r ∈ rs, r.bodyLen < 2 ^ 32) :
    ∃ es, ReadsAll buf seq es rs ∧
      replayLoop buf seed fromSeq loose p s
        = replayLoop buf seed fromSeq loose (p + (Wal.recordFrames seq rs).length)
            { s with batch := s.batch ++ es } := by
  induction rs generalizing seq pre p s with
  | nil => exact ⟨[], trivial, by simp [Wal.recordFrames]⟩
  | cons r rs ih =>
      rw [List.length_cons] at hseq
      have hbuf' : buf = pre ++ (Wal.recordFrame seq r ++ (Wal.recordFrames (seq + 1) rs ++ rest)) := by
        rw [hbuf, Wal.recordFrames, List.append_assoc]
      have hbuf'' : buf = (pre ++ Wal.recordFrame seq r) ++ (Wal.recordFrames (seq + 1) rs ++ rest) := by
        rw [hbuf', List.append_assoc]
      have hp' : p + (Wal.recordFrame seq r).length = (pre ++ Wal.recordFrame seq r).length := by
        rw [hp, List.length_append]
      obtain ⟨e, he, hstep⟩ := replayLoop_record seed fromSeq loose s r hbuf' hp (by omega)
        (hfit r (List.mem_cons_self ..))
      obtain ⟨es, hes, hrun⟩ := ih { s with batch := s.batch ++ [e] } hbuf'' hp' (by omega)
        (fun r hr => hfit r (List.mem_cons_of_mem _ hr))
      refine ⟨e :: es, ⟨he, hes⟩, ?_⟩
      rw [hstep, hrun]
      simp only [Wal.recordFrames, List.length_append, List.append_assoc, List.singleton_append,
        add_assoc]

end Walk

lemma chainSeq_readsAll {buf : Bytes} {fromSeq seq : ℕ} {es : List BatchEntry}
    {rs : List WalRecord} (h : ReadsAll buf seq es rs) (hfrom : fromSeq ≤ seq)
    (hseq : seq + rs.length + 1 < 2 ^ 64) :
    chainSeq fromSeq seq (es.map BatchEntry.seq ++ [seq + rs.length])
      = some (seq + (rs.length + 1)) := by
  induction rs generalizing seq es with
  | nil =>
      cases es with
      | nil =>
          rw [List.length_nil, add_zero] at hseq
          rw [List.length_nil, add_zero, List.map_nil, List.nil_append, chainSeq, if_pos hfrom,
            if_neg (by simp), Nat.mod_eq_of_lt hseq, chainSeq, zero_add]
      | cons e es => exact absurd h (by simp [ReadsAll])
  | cons r rs ih =>
      cases es with
      | nil => exact absurd h (by simp [ReadsAll])
      | cons e es =>
          obtain ⟨⟨-, he, -, -⟩, hes⟩ := h
          rw [List.length_cons] at hseq
          have hnext := ih hes (by omega) (by omega)
          rw [List.map_cons, List.cons_append, chainSeq, he, if_pos hfrom, if_neg (by simp),
            Nat.mod_eq_of_lt (by omega), List.length_cons]
          have h1 : seq + (rs.length + 1) = seq + 1 + rs.length := by omega
          have h2 : seq + (rs.length + 1 + 1) = seq + 1 + (rs.length + 1) := by omega
          rw [h1, h2]
          exact hnext

lemma applyBatch_readsAll {buf : Bytes} {fromSeq seq : ℕ} {es : List BatchEntry}
    {rs : List WalRecord} (h : ReadsAll buf seq es rs) (hfrom : fromSeq ≤ seq) :
    applyBatch buf fromSeq es = rs.map WalRecord.applied := by
  induction rs generalizing seq es with
  | nil =>
      cases es with
      | nil => rfl
      | cons e es => exact absurd h (by simp [ReadsAll])
  | cons r rs ih =>
      cases es with
      | nil => exact absurd h (by simp [ReadsAll])
      | cons e es =>
          obtain ⟨⟨hkind, hs, hkey, hval⟩, hes⟩ := h
          have hrest := ih hes (by omega)
          rw [applyBatch] at hrest ⊢
          rw [List.filter_cons_of_pos (by simpa [hs] using hfrom), List.map_cons, hrest, hkind,
            hkey, hval, List.map_cons]

lemma seq_lt_of_readsAll {buf : Bytes} {seq : ℕ} {es : List BatchEntry} {rs : List WalRecord}
    (h : ReadsAll buf seq es rs) : ∀ q ∈ es.map BatchEntry.seq, q < seq + rs.length := by
  induction rs generalizing seq es with
  | nil =>
      cases es with
      | nil => simp
      | cons e es => exact absurd h (by simp [ReadsAll])
  | cons r rs ih =>
      cases es with
      | nil => simp
      | cons e es =>
          obtain ⟨⟨-, he, -, -⟩, hes⟩ := h
          intro q hq
          rw [List.length_cons]
          rcases List.mem_cons.mp hq with rfl | hq
          · omega
          · have := ih hes q hq
            omega

/-- Sequences below the one the walk starts from move nothing. -/
lemma chainSeq_below {fromSeq next : ℕ} {ss : List ℕ} (h : ∀ q ∈ ss, q < fromSeq) :
    chainSeq fromSeq next ss = some next := by
  induction ss with
  | nil => rfl
  | cons q ss ih =>
      have hq := h q (List.mem_cons_self ..)
      rw [chainSeq, if_neg (by omega), ih (fun x hx => h x (List.mem_cons_of_mem _ hx))]

/-- The first record of a batch to be applied is its first. -/
lemma find?_readsAll {buf : Bytes} {fromSeq seq : ℕ} {es : List BatchEntry} {rs : List WalRecord}
    (h : ReadsAll buf seq es rs) (hfrom : fromSeq ≤ seq) :
    (es.map BatchEntry.seq ++ [seq + rs.length]).find? (fun q => decide (fromSeq ≤ q))
      = some seq := by
  cases rs with
  | nil =>
      cases es with
      | nil => simp [hfrom]
      | cons e es => exact absurd h (by simp [ReadsAll])
  | cons r rs =>
      cases es with
      | nil => exact absurd h (by simp [ReadsAll])
      | cons e es =>
          obtain ⟨⟨-, he, -, -⟩, -⟩ := h
          simp [he, hfrom]

/-- The walk between two batches: everything up to `p` is applied, and it ends there if nothing
intact follows. -/
def ReplayState.committed (seq p : ℕ) (applied : List Applied) : ReplayState :=
  { nextSeq := seq, committedSeq := seq, validLen := p, batch := [], batchStart := p,
    applied := applied }

/-- Ending the walk in a state. -/
def ReplayState.ended (s : ReplayState) : Replayed :=
  ⟨s.applied, .ok (s.committedSeq, s.validLen, false)⟩

section Batches

variable {buf pre rest : Bytes} {p : ℕ} (seed : BitVec 32) (fromSeq : ℕ) (loose : Bool)

lemma length_commitBody (seq : ℕ) (frames : Bytes) :
    (Wal.commitBody seed seq frames).length = 13 := by
  rw [Wal.commitBody, Wal.length_body, length_leBytes]

lemma commitBody_fields {seq : ℕ} (frames : Bytes) (hseq : seq < 2 ^ 64) :
    u64At (Wal.commitBody seed seq frames) 0 = seq ∧
      u32At (Wal.commitBody seed seq frames) 9 = (crc32 frames ^^^ seed).toNat := by
  constructor
  · have h : Wal.commitBody seed seq frames = [] ++ (leBytes 8 seq ++
        ([walCommit] ++ leBytes 4 (crc32 frames ^^^ seed).toNat)) := rfl
    rw [h]
    exact u64At_append rfl hseq
  · have h : Wal.commitBody seed seq frames
        = (leBytes 8 seq ++ [walCommit]) ++ (leBytes 4 (crc32 frames ^^^ seed).toNat ++ []) := by
      simp only [Wal.commitBody, Wal.body, List.append_assoc, List.append_nil]
    rw [h]
    exact u32At_append (by simp) (BitVec.isLt _)

/-- **A whole batch read.**  Its commit frame verifies, and what follows is decided by the sequences
of its records against the one the walk expects. -/
lemma replayLoop_verified {seq next : ℕ} {applied : List Applied} (batch : List WalRecord)
    (hbuf : buf = pre ++ (Wal.batchBytes seed seq batch ++ rest)) (hp : p = pre.length)
    (hseq : seq + batch.length + 1 < 2 ^ 64) (hfit : ∀ r ∈ batch, r.bodyLen < 2 ^ 32) :
    ∃ es, ReadsAll buf seq es batch ∧
      ((loose = true ∧ next = fromSeq ∧ ∃ q, (es.map BatchEntry.seq ++ [seq + batch.length]).find?
          (fun q => decide (fromSeq ≤ q)) = some q ∧ q ≠ next) →
        replayLoop buf seed fromSeq loose p (.committed next p applied)
          = ⟨applied, .ok (fromSeq, 8, true)⟩) ∧
      (¬ (loose = true ∧ next = fromSeq ∧ ∃ q, (es.map BatchEntry.seq ++ [seq + batch.length]).find?
          (fun q => decide (fromSeq ≤ q)) = some q ∧ q ≠ next) →
        replayLoop buf seed fromSeq loose p (.committed next p applied)
          = match chainSeq fromSeq next (es.map BatchEntry.seq ++ [seq + batch.length]) with
            | none => ⟨applied, .error gapError⟩
            | some next' =>
                replayLoop buf seed fromSeq loose (p + (Wal.batchBytes seed seq batch).length)
                  (.committed next' (p + (Wal.batchBytes seed seq batch).length)
                    (applied ++ applyBatch buf fromSeq es))) := by
  set frames := Wal.recordFrames seq batch with hframes
  set commit := Wal.commitFrame seed (seq + batch.length) frames with hcommit
  set body := Wal.commitBody seed (seq + batch.length) frames with hbody
  have hbytes : Wal.batchBytes seed seq batch = frames ++ commit := rfl
  have hbody13 : body.length = 13 := length_commitBody seed _ _
  have hbuf1 : buf = pre ++ (frames ++ (commit ++ rest)) := by
    rw [hbuf, hbytes, List.append_assoc]
  have hbuf2 : buf = (pre ++ frames) ++ (Wal.frameBytes (crc32 body ^^^ seed) body ++ rest) := by
    rw [hbuf1, List.append_assoc]; rfl
  have hp2 : p + frames.length = (pre ++ frames).length := by rw [hp, List.length_append]
  have hlen : p + (Wal.batchBytes seed seq batch).length
      = p + frames.length + frameHeader + body.length := by
    have : commit.length = frameHeader + body.length := Wal.length_frameBytes _ _
    rw [hbytes, List.length_append, this]; omega
  have hslice : slice buf p (p + frames.length) = frames := by
    rw [hbuf1]; exact slice_append_mid hp (by rw [hp])
  obtain ⟨es, hes, hrun⟩ := replayLoop_records seed fromSeq loose (.committed next p applied) batch
    hbuf1 hp (by omega) hfit
  obtain ⟨-, hcrc, hbodyAt⟩ := frame_at hbuf2 hp2 (by omega)
  obtain ⟨hseqAt, hwant⟩ := commitBody_fields seed frames (by omega : seq + batch.length < 2 ^ 64)
  rw [← hbody] at hseqAt hwant
  refine ⟨es, hes, ?_⟩
  rw [hrun, ← hframes, replayLoop_frame hbuf2 hp2 (by omega) (by omega), readFrame,
    frame_kind hbuf2 hp2, hlen]
  rw [hbody13] at hbodyAt ⊢
  simp only [if_true, readCommit, hbodyAt, hcrc, hbody13, ne_self_iff_false, or_self,
    if_false, ReplayState.committed, hslice, hwant, hseqAt, List.nil_append]
  constructor
  · rintro ⟨hl, hn, q, hq, hne⟩
    rw [if_pos ⟨hl, hn, (Option.any_eq_true _ _).mpr ⟨q, hq, decide_eq_true hne⟩⟩]
  · intro hgap
    rw [if_neg]
    · cases chainSeq fromSeq next (es.map BatchEntry.seq ++ [seq + batch.length]) with
      | none => rfl
      | some next' => rfl
    · rintro ⟨hl, hn, hany⟩
      obtain ⟨q, hq, hne⟩ := (Option.any_eq_true _ _).mp hany
      exact hgap ⟨hl, hn, q, hq, of_decide_eq_true hne⟩

/-- **A batch that continues the log** is applied, record by record, and the walk stands behind
it. -/
lemma replayLoop_batch {seq : ℕ} {applied : List Applied} (batch : List WalRecord)
    (hbuf : buf = pre ++ (Wal.batchBytes seed seq batch ++ rest)) (hp : p = pre.length)
    (hfrom : fromSeq ≤ seq) (hseq : seq + batch.length + 1 < 2 ^ 64)
    (hfit : ∀ r ∈ batch, r.bodyLen < 2 ^ 32) :
    replayLoop buf seed fromSeq loose p (.committed seq p applied)
      = replayLoop buf seed fromSeq loose (p + (Wal.batchBytes seed seq batch).length)
          (.committed (seq + (batch.length + 1)) (p + (Wal.batchBytes seed seq batch).length)
            (applied ++ batch.map WalRecord.applied)) := by
  obtain ⟨es, hes, -, hrun⟩ := replayLoop_verified seed fromSeq loose batch hbuf hp hseq hfit
  rw [hrun, chainSeq_readsAll hes hfrom hseq, applyBatch_readsAll hes hfrom]
  rintro ⟨-, -, q, hq, hne⟩
  rw [find?_readsAll hes hfrom] at hq
  exact hne (Option.some.inj hq).symm

/-- **A batch below the sequence the walk starts from** is passed over. -/
lemma replayLoop_covered {seq next : ℕ} {applied : List Applied} (batch : List WalRecord)
    (hbuf : buf = pre ++ (Wal.batchBytes seed seq batch ++ rest)) (hp : p = pre.length)
    (hfrom : seq + (batch.length + 1) ≤ fromSeq) (hseq : seq + batch.length + 1 < 2 ^ 64)
    (hfit : ∀ r ∈ batch, r.bodyLen < 2 ^ 32) :
    replayLoop buf seed fromSeq loose p (.committed next p applied)
      = replayLoop buf seed fromSeq loose (p + (Wal.batchBytes seed seq batch).length)
          (.committed next (p + (Wal.batchBytes seed seq batch).length) applied) := by
  obtain ⟨es, hes, -, hrun⟩ := replayLoop_verified seed fromSeq loose batch hbuf hp hseq hfit
  have hbelow : ∀ q ∈ es.map BatchEntry.seq ++ [seq + batch.length], q < fromSeq := by
    intro q hq
    rcases List.mem_append.mp hq with hq | hq
    · have := seq_lt_of_readsAll hes q hq
      omega
    · rw [List.mem_singleton.mp hq]
      omega
  have hnone : (es.map BatchEntry.seq ++ [seq + batch.length]).find?
      (fun q => decide (fromSeq ≤ q)) = none := by
    rw [List.find?_eq_none]
    intro q hq
    simpa using hbelow q hq
  have happly : applyBatch buf fromSeq es = [] := by
    rw [applyBatch, List.map_eq_nil_iff, List.filter_eq_nil_iff]
    intro e he
    simpa using hbelow e.seq (List.mem_append_left _ (List.mem_map_of_mem he))
  rw [hrun, chainSeq_below hbelow, happly, List.append_nil]
  rintro ⟨-, -, q, hq, -⟩
  rw [hnone] at hq
  exact absurd hq (by simp)

/-- **A batch behind a gap** in a file begun loose, before anything of the file is applied, ends the
log at the file's start. -/
lemma replayLoop_gap {seq : ℕ} {applied : List Applied} (batch : List WalRecord)
    (hbuf : buf = pre ++ (Wal.batchBytes seed seq batch ++ rest)) (hp : p = pre.length)
    (hfrom : fromSeq < seq) (hseq : seq + batch.length + 1 < 2 ^ 64)
    (hfit : ∀ r ∈ batch, r.bodyLen < 2 ^ 32) :
    replayLoop buf seed fromSeq true p (.committed fromSeq p applied)
      = ⟨applied, .ok (fromSeq, 8, true)⟩ := by
  obtain ⟨es, hes, hrun, -⟩ := replayLoop_verified seed fromSeq true batch hbuf hp hseq hfit
  exact hrun ⟨rfl, rfl, seq, find?_readsAll hes hfrom.le, hfrom.ne'⟩

/-- A frame cut short ends the walk. -/
lemma replayLoop_tornFrame {crc : BitVec 32} {b t : Bytes} (s : ReplayState)
    (hbuf : buf = pre ++ t) (hp : p = pre.length) (ht : t <+: Wal.frameBytes crc b)
    (hshort : t.length < (Wal.frameBytes crc b).length) (hb : b.length < 2 ^ 32) :
    replayLoop buf seed fromSeq loose p s = s.ended := by
  rw [Wal.length_frameBytes] at hshort
  have hlen : buf.length = p + t.length := by rw [hbuf, hp, List.length_append]
  rw [replayLoop]
  by_cases h8 : buf.length - p < frameHeader
  · rw [if_pos h8]; rfl
  · -- the length word is whole, and names bytes the buffer does not hold
    obtain ⟨t', ht'⟩ := ht
    have hwhole : buf ++ t' = pre ++ (Wal.frameBytes crc b ++ []) := by
      rw [hbuf, List.append_assoc, ht', List.append_nil]
    have hword : u32At buf p = b.length := by
      have h4 : p + 4 ≤ buf.length := by simp only [frameHeader] at h8; omega
      rw [← (frame_at hwhole hp hb).1, u32At, u32At, slice_append_left h4]
    rw [if_neg h8, hword, dif_pos (Or.inl (by omega))]
    rfl

/-- A batch cut short ends the walk, wherever the cut falls. -/
lemma replayLoop_tornRun {crc : BitVec 32} {b t : Bytes} {seq : ℕ} (rs : List WalRecord)
    (s : ReplayState) (hbuf : buf = pre ++ t) (hp : p = pre.length)
    (ht : t <+: Wal.recordFrames seq rs ++ Wal.frameBytes crc b)
    (hshort : t.length < (Wal.recordFrames seq rs ++ Wal.frameBytes crc b).length)
    (hb : b.length < 2 ^ 32) (hseq : seq + rs.length ≤ 2 ^ 64)
    (hfit : ∀ r ∈ rs, r.bodyLen < 2 ^ 32) :
    replayLoop buf seed fromSeq loose p s = s.ended := by
  induction rs generalizing seq pre p s t with
  | nil => exact replayLoop_tornFrame seed fromSeq loose s hbuf hp ht hshort hb
  | cons r rs ih =>
      rw [List.length_cons] at hseq
      rw [Wal.recordFrames, List.append_assoc] at ht hshort
      have hr : r.bodyLen < 2 ^ 32 := hfit r (List.mem_cons_self ..)
      by_cases hcut : t.length < (Wal.recordFrame seq r).length
      · have hpre : t <+: Wal.recordFrame seq r :=
          List.prefix_of_prefix_length_le ht (List.prefix_append _ _) (by omega)
        refine replayLoop_tornFrame seed fromSeq loose s hbuf hp hpre hcut ?_
        rw [Wal.length_body]
        exact hr
      · have hpre : Wal.recordFrame seq r <+: t :=
          List.prefix_of_prefix_length_le (List.prefix_append _ _) ht (by omega)
        obtain ⟨t', rfl⟩ := hpre
        have hbuf' : buf = (pre ++ Wal.recordFrame seq r) ++ t' := by
          rw [hbuf, List.append_assoc]
        have hp' : p + (Wal.recordFrame seq r).length = (pre ++ Wal.recordFrame seq r).length := by
          rw [hp, List.length_append]
        obtain ⟨e, -, hstep⟩ := replayLoop_record seed fromSeq loose s r hbuf hp (by omega) hr
        rw [List.length_append, List.length_append] at hshort
        rw [hstep, ih { s with batch := s.batch ++ [e] } hbuf' hp'
          ((List.prefix_append_right_inj _).mp ht) (by omega) (by omega)
          (fun r hr => hfit r (List.mem_cons_of_mem _ hr))]
        rfl

/-- Zeros end the walk: they read as a frame of length zero. -/
lemma replayLoop_zeros {z : ℕ} (s : ReplayState) (hbuf : buf = pre ++ List.replicate z 0)
    (hp : p = pre.length) : replayLoop buf seed fromSeq loose p s = s.ended := by
  rw [replayLoop]
  by_cases h8 : buf.length - p < frameHeader
  · rw [if_pos h8]; rfl
  · have hz : 4 ≤ z := by
      rw [hbuf, hp, List.length_append, List.length_replicate, frameHeader] at h8; omega
    have hword : u32At buf p = 0 := by
      have hshift := slice_append_shift pre (List.replicate z (0 : UInt8)) 0 4
      rw [add_zero, slice_replicate _ _ _ _ hz] at hshift
      rw [u32At, hbuf, hp, hshift]
      exact leNat_replicate_zero 4
    rw [if_neg h8, hword, dif_pos (Or.inr (by norm_num))]
    rfl

end Batches

/-! ## The torn-tail law -/

/-- A commit frame of a log: the batch it closes, the offset it ends at, and the sequence after
it. -/
structure Commit where
  batch : List WalRecord
  endAt : ℕ
  nextSeq : ℕ

/-- The commit frames `batches` put into a log, in order. -/
def Wal.commits : Wal → List (List WalRecord) → List Commit
  | _, [] => []
  | w, b :: bs =>
      let w' := w.commitBatch b
      ⟨b, w'.file.length, w'.seq⟩ :: w'.commits bs

/-- Frames `batches` take: one a record and one a commit. -/
def frameCount (batches : List (List WalRecord)) : ℕ :=
  (batches.map (fun b => b.length + 1)).sum

/-- A replay that applies exactly the batches closed by `cs`: it returns the sequence after the
last of them and that frame's end, or `seq` and `len` when there is none. -/
def Replayed.ofCommits (seq len : ℕ) (cs : List Commit) : Replayed :=
  ⟨cs.flatMap (fun c => c.batch.map WalRecord.applied),
    .ok ((cs.getLast?.map Commit.nextSeq).getD seq, (cs.getLast?.map Commit.endAt).getD len, false)⟩

/-- The batches a log can carry: none empty, every frame's body within a `u32`. -/
def BatchesFit (batches : List (List WalRecord)) : Prop :=
  ∀ b ∈ batches, b ≠ [] ∧ ∀ r ∈ b, r.bodyLen < 2 ^ 32

lemma Replayed.ofCommits_cons (seq len : ℕ) (c : Commit) (cs : List Commit) :
    Replayed.ofCommits seq len (c :: cs)
      = ⟨c.batch.map WalRecord.applied ++ (Replayed.ofCommits c.nextSeq c.endAt cs).applied,
          (Replayed.ofCommits c.nextSeq c.endAt cs).outcome⟩ := by
  simp only [Replayed.ofCommits, List.flatMap_cons, List.getLast?_cons, Option.map_some,
    Option.getD_some]
  cases cs.getLast? <;> rfl

section Log

variable {w : Wal} {b : List WalRecord} {bs : List (List WalRecord)}

lemma BatchesFit.tail (h : BatchesFit (b :: bs)) : BatchesFit bs :=
  fun c hc => h c (List.mem_cons_of_mem _ hc)

lemma Wal.commitBatch_fits (hpend : w.pending = []) (hfit : BatchesFit (b :: bs))
    (hseq : w.seq + frameCount (b :: bs) < 2 ^ 64) :
    w.commitBatch b
      = { w with file := w.file ++ batchBytes w.seed w.seq b
                 pending := [], seq := w.seq + (b.length + 1) } := by
  simp only [frameCount, List.map_cons, List.sum_cons] at hseq
  exact commitBatch_eq (hfit b (List.mem_cons_self ..)).1 w hpend (by omega)

/-- The log behind the first of its batches: nothing is pending, and the frames of the rest have
their numbers. -/
lemma Wal.commitBatch_next (hpend : w.pending = []) (hfit : BatchesFit (b :: bs))
    (hseq : w.seq + frameCount (b :: bs) < 2 ^ 64) :
    (w.commitBatch b).pending = [] ∧ (w.commitBatch b).seed = w.seed ∧
      (w.commitBatch b).seq = w.seq + (b.length + 1) ∧
      (w.commitBatch b).file = w.file ++ batchBytes w.seed w.seq b ∧
      (w.commitBatch b).seq + frameCount bs < 2 ^ 64 := by
  rw [commitBatch_fits hpend hfit hseq]
  refine ⟨rfl, rfl, rfl, rfl, ?_⟩
  simp only [frameCount, List.map_cons, List.sum_cons] at hseq ⊢
  omega

/-- The file only grows. -/
lemma Wal.file_prefix_foldl (hpend : w.pending = []) (hfit : BatchesFit bs)
    (hseq : w.seq + frameCount bs < 2 ^ 64) :
    ∃ x, (bs.foldl commitBatch w).file = w.file ++ x := by
  induction bs generalizing w with
  | nil => exact ⟨[], by simp⟩
  | cons b bs ih =>
      obtain ⟨hpend', -, -, hfile, hseq'⟩ := commitBatch_next hpend hfit hseq
      obtain ⟨x, hx⟩ := ih hpend' hfit.tail hseq'
      refine ⟨batchBytes w.seed w.seq b ++ x, ?_⟩
      rw [List.foldl_cons, hx, hfile, List.append_assoc]

/-- Every commit frame ends behind the log it was added to. -/
lemma Wal.le_endAt (hpend : w.pending = []) (hfit : BatchesFit bs)
    (hseq : w.seq + frameCount bs < 2 ^ 64) : ∀ c ∈ w.commits bs, w.file.length ≤ c.endAt := by
  induction bs generalizing w with
  | nil => intro c hc; exact absurd hc (by simp [commits])
  | cons b bs ih =>
      obtain ⟨hpend', -, -, hfile, hseq'⟩ := commitBatch_next hpend hfit hseq
      have hgrow : w.file.length ≤ (w.commitBatch b).file.length := by
        rw [hfile]; simp
      intro c hc
      rw [commits, List.mem_cons] at hc
      rcases hc with rfl | hc
      · exact hgrow
      · exact hgrow.trans (ih hpend' hfit.tail hseq' c hc)

/-- **The walk over a cut log**, from the boundary between two batches on: the induction is on the
batches still to come, and the state the walk carries is `committed`. -/
lemma replayLoop_cut {fromSeq n : ℕ} (loose : Bool) {buf : Bytes} (applied : List Applied)
    (hpend : w.pending = []) (hfit : BatchesFit bs) (hseq : w.seq + frameCount bs < 2 ^ 64)
    (hfrom : fromSeq ≤ w.seq) (hbuf : buf = (bs.foldl Wal.commitBatch w).file.take n)
    (hn : w.file.length ≤ n) :
    replayLoop buf w.seed fromSeq loose w.file.length (.committed w.seq w.file.length applied)
      = ⟨applied ++ (Replayed.ofCommits w.seq w.file.length
            ((w.commits bs).filter (fun c => c.endAt ≤ n))).applied,
          (Replayed.ofCommits w.seq w.file.length
            ((w.commits bs).filter (fun c => c.endAt ≤ n))).outcome⟩ := by
  induction bs generalizing w applied with
  | nil =>
      have hbuf' : buf = w.file ++ List.replicate 0 0 := by
        rw [hbuf, List.foldl_nil, List.take_of_length_le hn, List.replicate_zero, List.append_nil]
      rw [replayLoop_zeros w.seed fromSeq loose _ hbuf' rfl]
      simp [ReplayState.ended, ReplayState.committed, Wal.commits, Replayed.ofCommits]
  | cons b bs ih =>
      obtain ⟨hpend', hseed, hnext, hfile, hseq'⟩ := Wal.commitBatch_next hpend hfit hseq
      have hb := hfit b (List.mem_cons_self ..)
      obtain ⟨x, hx⟩ := Wal.file_prefix_foldl hpend' hfit.tail hseq'
      set bytes := Wal.batchBytes w.seed w.seq b with hbytes
      have hend : (w.commitBatch b).file.length = w.file.length + bytes.length := by
        rw [hfile, List.length_append]
      rw [List.foldl_cons, hx, hfile, List.append_assoc] at hbuf
      by_cases hcut : (w.commitBatch b).file.length ≤ n
      · -- the commit frame is in the prefix: the batch is applied, and the rest by induction
        have hbuf' : buf = w.file ++ (bytes ++ x.take (n - (w.file ++ bytes).length)) := by
          rw [hbuf, ← List.append_assoc, List.take_append,
            List.take_of_length_le (by rw [List.length_append]; omega), List.append_assoc]
        have hih := ih (w := w.commitBatch b) (applied ++ b.map WalRecord.applied) hpend' hfit.tail
          hseq' (by omega) (by rw [hbuf, hx, hfile, List.append_assoc]) hcut
        rw [Wal.commits, List.filter_cons_of_pos (by simpa using hcut), Replayed.ofCommits_cons,
          replayLoop_batch w.seed fromSeq loose b hbuf' rfl hfrom (by omega) hb.2, ← hbytes, ← hend,
          ← hnext, ← hseed, hih]
        simp only [List.append_assoc]
      · -- the cut falls inside this batch: nothing of it, nor of what follows, is applied
        have hnone : (w.commits (b :: bs)).filter (fun c => c.endAt ≤ n) = [] := by
          rw [List.filter_eq_nil_iff]
          intro c hc
          rw [Wal.commits, List.mem_cons] at hc
          rcases hc with rfl | hc
          · simpa using hcut
          · have := Wal.le_endAt hpend' hfit.tail hseq' c hc
            simp only [decide_eq_true_eq]
            omega
        have hbuf' : buf = w.file ++ bytes.take (n - w.file.length) := by
          rw [hbuf, List.take_append, List.take_of_length_le hn,
            List.take_append_of_le_length (by omega)]
        rw [hnone, replayLoop_tornRun w.seed fromSeq loose b _ hbuf' rfl (List.take_prefix _ bytes)
          (by rw [List.length_take]; show _ < bytes.length; omega)
          (by rw [length_commitBody]; norm_num) (by omega) hb.2]
        simp [ReplayState.ended, ReplayState.committed, Replayed.ofCommits]

/-- **The walk over a whole log**, whatever stands behind it. -/
lemma replayLoop_whole {fromSeq : ℕ} (loose : Bool) {buf tail : Bytes} (applied : List Applied)
    (hpend : w.pending = []) (hfit : BatchesFit bs) (hseq : w.seq + frameCount bs < 2 ^ 64)
    (hfrom : fromSeq ≤ w.seq) (hbuf : buf = (bs.foldl Wal.commitBatch w).file ++ tail) :
    replayLoop buf w.seed fromSeq loose w.file.length (.committed w.seq w.file.length applied)
      = replayLoop buf w.seed fromSeq loose (bs.foldl Wal.commitBatch w).file.length
          (.committed (bs.foldl Wal.commitBatch w).seq (bs.foldl Wal.commitBatch w).file.length
            (applied ++ (Replayed.ofCommits w.seq w.file.length (w.commits bs)).applied)) := by
  induction bs generalizing w applied with
  | nil => simp [Wal.commits, Replayed.ofCommits]
  | cons b bs ih =>
      obtain ⟨hpend', hseed, hnext, hfile, hseq'⟩ := Wal.commitBatch_next hpend hfit hseq
      have hb := hfit b (List.mem_cons_self ..)
      obtain ⟨x, hx⟩ := Wal.file_prefix_foldl hpend' hfit.tail hseq'
      have hend : (w.commitBatch b).file.length
          = w.file.length + (Wal.batchBytes w.seed w.seq b).length := by
        rw [hfile, List.length_append]
      have hbuf' : buf = w.file ++ (Wal.batchBytes w.seed w.seq b ++ (x ++ tail)) := by
        rw [hbuf, List.foldl_cons, hx, hfile]; simp only [List.append_assoc]
      have hih := ih (w := w.commitBatch b) (applied ++ b.map WalRecord.applied) hpend' hfit.tail
        hseq' (by omega) hbuf
      rw [Wal.commits, Replayed.ofCommits_cons,
        replayLoop_batch w.seed fromSeq loose b hbuf' rfl hfrom (by omega) hb.2, ← hend, ← hnext,
        ← hseed, hih]
      simp only [List.append_assoc, List.foldl_cons]

/-- A log's last commit frame ends where its file does. -/
lemma Replayed.ofCommits_commits (hpend : w.pending = []) (hfit : BatchesFit bs)
    (hseq : w.seq + frameCount bs < 2 ^ 64) :
    (Replayed.ofCommits w.seq w.file.length (w.commits bs)).outcome
      = .ok ((bs.foldl Wal.commitBatch w).seq, (bs.foldl Wal.commitBatch w).file.length,
      false) := by
  induction bs generalizing w with
  | nil => rfl
  | cons b bs ih =>
      obtain ⟨hpend', -, -, -, hseq'⟩ := Wal.commitBatch_next hpend hfit hseq
      rw [Wal.commits, Replayed.ofCommits_cons, List.foldl_cons]
      exact ih hpend' hfit.tail hseq'

/-- What a log keeps from its creation on, and how far its sequence has run. -/
lemma Wal.foldl_commitBatch (hpend : w.pending = []) (hfit : BatchesFit bs)
    (hseq : w.seq + frameCount bs < 2 ^ 64) :
    (bs.foldl commitBatch w).pending = [] ∧ (bs.foldl commitBatch w).seed = w.seed ∧
      (bs.foldl commitBatch w).seq = w.seq + frameCount bs := by
  induction bs generalizing w with
  | nil => exact ⟨hpend, rfl, rfl⟩
  | cons b bs ih =>
      obtain ⟨hpend', hseed, hnext, -, hseq'⟩ := commitBatch_next hpend hfit hseq
      have hcount : frameCount (b :: bs) = b.length + 1 + frameCount bs := by
        simp [frameCount]
      obtain ⟨h1, h2, h3⟩ := ih hpend' hfit.tail hseq'
      exact ⟨h1, h2.trans hseed, h3.trans (by omega)⟩

end Log

/-! ### The header -/

lemma walKind_walHeader {kind : UInt8} (h : kind = walChained ∨ kind = walLoose) :
    walKind (walHeader kind) = some kind := by
  rcases h with rfl | rfl
  · decide
  · decide

/-- A file that starts with a header is walked from behind it. -/
lemma replay_header {id : BitVec 64} {kind : UInt8} {fromSeq : ℕ} {first : Bool}
    (hkind : kind = walChained ∨ kind = walLoose) (x : Bytes) :
    replay (walHeader kind ++ x) id fromSeq first
      = replayLoop (walHeader kind ++ x) (walSeed id) fromSeq
          (decide (kind = walLoose ∧ ¬ first = true)) 8 (.committed fromSeq 8 []) := by
  have hlen : (walHeader kind).length = 8 := rfl
  have hnil : walHeader kind ++ x ≠ [] := by simp [walHeader]
  have h8 : ¬ (walHeader kind ++ x).length < 8 := by
    rw [List.length_append, hlen]; omega
  have htake : (walHeader kind ++ x).take 8 = walHeader kind := List.take_left' hlen
  rw [replay, if_neg hnil, if_neg h8, htake, walKind_walHeader hkind]
  rfl

/-- A header cut short is a log with nothing in it. -/
lemma replay_cutHeader {id : BitVec 64} {kind : UInt8} {fromSeq n : ℕ} {first : Bool} (x : Bytes)
    (hn : n < 8) :
    replay ((walHeader kind ++ x).take n) id fromSeq first = ⟨[], .ok (fromSeq, 0, false)⟩ := by
  have hhead : (walHeader kind ++ x).take n = walHead.take n := by
    have h7 : n ≤ walHead.length := by show n ≤ 7; omega
    rw [walHeader, List.append_assoc, List.take_append_of_le_length h7]
  rw [hhead, replay]
  by_cases hnil : walHead.take n = []
  · rw [if_pos hnil]
  · have hlt : (walHead.take n).length < 8 := by
      rw [List.length_take]; omega
    have hprefix : (walHead.take n).take 7 <+: walHead :=
      (List.take_prefix _ _).trans (List.take_prefix _ _)
    rw [if_neg hnil, if_pos hlt, if_pos hprefix]

/-- **The torn-tail law of the log.**  Batches framed under file id `id` from sequence `fromSeq`
on, and the file cut to its first `n` bytes: replay succeeds, applies exactly the records of the
batches whose commit frame ends at or before `n`, in order, and returns the sequence after the last
of those frames and the offset it ends at, zero when the header itself is cut.  The same for a file
that holds whole frames, the last of them perhaps of a batch not yet closed (`staged`), and zeros
after them.  Every frame takes one `u64` sequence number, so there are fewer frames than those. -/
theorem replay_torn (id : BitVec 64) (fromSeq : ℕ) (batches : List (List WalRecord)) (first : Bool)
    (hfit : BatchesFit batches) (hseq : fromSeq + frameCount batches < 2 ^ 64) :
    let log := batches.foldl Wal.commitBatch (.create id walChained fromSeq)
    let commits := (Wal.create id walChained fromSeq).commits batches
    (∀ n ≤ log.file.length,
      replay (log.file.take n) id fromSeq first
        = .ofCommits fromSeq (if n < 8 then 0 else 8) (commits.filter (fun c => c.endAt ≤ n))) ∧
    (∀ (staged : List WalRecord) (z : ℕ), (∀ r ∈ staged, r.bodyLen < 2 ^ 32) →
      fromSeq + frameCount batches + staged.length < 2 ^ 64 →
      replay (log.file ++ ((staged.foldl Wal.record log).pending ++ List.replicate z 0)) id fromSeq
          first
        = .ofCommits fromSeq 8 commits) := by
  intro log commits
  set start := Wal.create id walChained fromSeq with hstart
  have hpend : start.pending = [] := rfl
  have hlen8 : start.file.length = 8 := rfl
  obtain ⟨x, hx⟩ := Wal.file_prefix_foldl hpend hfit hseq
  have hfile : log.file = walHeader walChained ++ x := hx
  refine ⟨fun n _ => ?_, fun staged z hstaged hroom => ?_⟩
  · by_cases h8 : n < 8
    · have hnone : commits.filter (fun c => c.endAt ≤ n) = [] := by
        rw [List.filter_eq_nil_iff]
        intro c hc
        have := Wal.le_endAt hpend hfit hseq c hc
        simp only [decide_eq_true_eq]
        omega
      rw [hfile, replay_cutHeader x h8, hnone, if_pos h8]
      rfl
    · have hcut := replayLoop_cut (n := n) false [] hpend hfit hseq (le_refl _) rfl (by omega)
      have htake : log.file.take n = walHeader walChained ++ x.take (n - 8) := by
        have hle : (walHeader walChained).length ≤ n := by show 8 ≤ n; omega
        rw [hfile, List.take_append, List.take_of_length_le hle]
        rfl
      rw [if_neg h8, htake, replay_header (Or.inl rfl), ← htake]
      exact hcut
  · obtain ⟨hpend', hseed', hseq'⟩ := Wal.foldl_commitBatch hpend hfit hseq
    have hstage : (staged.foldl Wal.record log).pending = Wal.recordFrames log.seq staged := by
      rw [Wal.foldl_record staged log (by rw [hseq']; exact hroom), hpend', List.nil_append]
    set buf := log.file ++ ((staged.foldl Wal.record log).pending ++ List.replicate z 0) with hbuf
    have hhead : buf = walHeader walChained
        ++ (x ++ ((staged.foldl Wal.record log).pending ++ List.replicate z 0)) := by
      rw [hbuf, hfile, List.append_assoc]
    have hwhole := replayLoop_whole false [] hpend hfit hseq (le_refl _) hbuf
    have hbuf' : buf = log.file ++ (Wal.recordFrames log.seq staged ++ List.replicate z 0) := by
      rw [hbuf, hstage]
    obtain ⟨es, -, hrun⟩ := replayLoop_records start.seed fromSeq false
      (.committed log.seq log.file.length ([] ++
        (Replayed.ofCommits start.seq start.file.length commits).applied)) staged hbuf' rfl
      (by rw [hseq']; exact le_of_lt hroom) hstaged
    have hzeros : buf = (log.file ++ Wal.recordFrames log.seq staged) ++ List.replicate z 0 := by
      rw [hbuf', List.append_assoc]
    have hend := Replayed.ofCommits_commits hpend hfit hseq
    rw [hhead, replay_header (Or.inl rfl), ← hhead]
    refine hwhole.trans (hrun.trans ?_)
    rw [replayLoop_zeros start.seed fromSeq false _ hzeros (by rw [List.length_append])]
    simp only [ReplayState.ended, ReplayState.committed, List.nil_append]
    rw [← hend]
    rfl

/-- Two small batches, one of them with an empty value and a delete. -/
def twoBatches : List (List WalRecord) :=
  [[.put [1] [2, 3], .put [] []], [.delete [1]]]

lemma twoBatches_fit : BatchesFit twoBatches := by
  intro b hb
  simp only [twoBatches, List.mem_cons, List.not_mem_nil, or_false] at hb
  rcases hb with rfl | rfl <;>
    simp [WalRecord.bodyLen, WalRecord.payload, Db.putUvarint_eq, uvarint_of_lt]

/-- The law at work: the two batches and a half-written third before the zeros of a prefilled
file. -/
theorem replay_torn_twoBatches :
    BatchesFit twoBatches ∧
      replay (((twoBatches.foldl Wal.commitBatch (.create 7 walChained 5)).file) ++
          ((([.delete [9]] : List WalRecord).foldl Wal.record
            (twoBatches.foldl Wal.commitBatch (.create 7 walChained 5))).pending ++
            List.replicate 40 0)) 7 5 true
        = .ofCommits 5 8 ((Wal.create 7 walChained 5).commits twoBatches) :=
  ⟨twoBatches_fit, (replay_torn 7 5 twoBatches true twoBatches_fit (by decide)).2 [.delete [9]] 40
    (by simp [WalRecord.bodyLen, WalRecord.payload, Db.putUvarint_eq, uvarint_of_lt]) (by decide)⟩

end Supdb
