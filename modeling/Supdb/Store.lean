import Supdb.DirectRun
import Supdb.WalCovered

/-!
# The store's write path

A write goes to the live table and, unless a direct run takes it, into a frame of the log.  A commit
closes the batch in the log or in the run's file, whichever has it, and the policy says when that is
synced.  A full table is frozen or, at the end of a sync, handed as it is: a seal writes it as a
segment beside the writer, and its landing covers the log up to where the table ended.  `Db::open`
reads it all back: the segments, every direct run's file on top of them, and the log from the
covered sequence on.

* `Store` – what of an open store the write path reads and writes.
* `Instr`, `Store.exec` – the calls that write to a device, cut at each of its operations, so that a
  power loss may fall between any two.
* `History` – the calls, their instructions and the landings of the seals in any order.
* `Store.openAfter` – `Db::open` over what a loss left.

Nothing a merge does is here: what it writes stands for what it read.  The thresholds that make a
commit seal, and the thread that runs a seal, are choices of the history.  No call of a device
fails; the one failure here is the wait for a seal in front of a run's close, `land_seal`.
-/

namespace Supdb

open StorageLib

/-! ## The store -/

/-- `SyncPolicy`. -/
inductive SyncPolicy where
  | always
  | everyN (n : ℕ)
  deriving DecidableEq, Repr

/-- Whether every commit syncs. -/
def SyncPolicy.Each : SyncPolicy → Prop
  | .always => True
  | .everyN n => n ≤ 1

/-- What of `Options` the write path reads. -/
structure StoreOptions where
  direct : DirectOptions
  directIngest : Bool
  sync : SyncPolicy
  drainSyncsWal : Bool
  sealRotatesWal : Bool
  adaptiveShape : Bool
  sealBytes : ℕ

/-- The open direct run: its file, and how many of the table's entries are in it. -/
structure Direct where
  file : RunFile
  committed : ℕ

/-- A table on its way to a segment: the direct run's file it is, where it is one, the sequence its
landing covers, and the log files that landing retires. -/
structure InFlight where
  table : MemTable
  file : Option RunFile
  endSeq : ℕ
  wals : List ℕ

/-- An open store.  `handed` is `mem_handed`: the live table is the last of the seals in flight, or
has been replaced by its landing.  `tmps` are the files of runs closed, their temp names not yet
removed. -/
structure Store where
  opts : StoreOptions
  maxKey : Bytes
  mem : MemTable
  handed : Bool
  direct : Option Direct
  chain : Chain
  /-- What is framed and not written: the log's pending records. -/
  pending : List WalRecord
  closedWals : List ℕ
  dirUnsynced : Bool
  unsynced : ℕ
  pendingErr : Bool
  sealing : List InFlight
  tmps : List RunFile
  segments : List (List Entry)
  covered : ℕ
  nextSeg : ℕ

namespace Store

/-- `Db::create`. -/
def create (o : StoreOptions) : Store :=
  { opts := o, maxKey := [], mem := .fresh, handed := false, direct := none, chain := .create
    pending := [], closedWals := [], dirUnsynced := false, unsynced := 0, pendingErr := false
    sealing := [], tmps := [], segments := [], covered := 0, nextSeg := 0 }

/-! ## Closing a run -/

/-- How many of an ordered table's entries are committed to its run. -/
def committed (s : Store) : ℕ := (s.direct.map Direct.committed).getD 0

/-- `close_run`: the run and its table to the seal thread, the log files closed since the last seal
with them. -/
def closeRun (s : Store) (d : Direct) (table : MemTable) : Store :=
  { s with closedWals := [], tmps := s.tmps ++ [d.file]
           sealing := s.sealing ++ [⟨table, some d.file, s.chain.wal.seq, s.closedWals⟩] }

/-- `close_direct`, and whether it returned `Ok`.  It takes the run's writer before it waits for a
seal to land, and freezes the table behind the wait; `fails` if that wait ends in an error. -/
def closeDirect (s : Store) (fails : Bool) : Store × Bool :=
  match s.direct with
  | none => ({ s with mem := .fresh }, true)
  | some d =>
      let s := { s with direct := none }
      if fails then ({ s with tmps := s.tmps ++ [d.file] }, false)
      else (({ s with mem := .fresh }).closeRun d s.mem, true)

/-- `leave_direct`: the run closed, and the batch's own entries moved to the log and to what is live
then. -/
def leaveDirect (s : Store) (fails : Bool) : Store :=
  let tail := s.mem.entries.drop s.committed
  let (s, ok) := ({ s with mem := s.mem.truncate s.committed }).closeDirect fails
  { s with pendingErr := s.pendingErr || !ok, pending := s.pending ++ tail.map asPut
           mem := tail.foldl (fun t e => t.append e.1 e.2) s.mem }

/-! ## Writes -/

/-- `writes_go`: a table handed to a seal is replaced before the writer writes again. -/
def writesGo (s : Store) : Store :=
  if s.handed then { s with mem := .fresh, handed := false } else s

/-- `direct_can_open`. -/
def directCanOpen (s : Store) : Bool := s.opts.directIngest && s.mem.isEmpty && s.pending.isEmpty

/-- `goes_direct`. -/
def goesDirect (s : Store) (key value : Bytes) : Bool :=
  key ≠ [] ∧ key.length ≤ 65535 ∧ s.maxKey < key ∧
    inlines s.opts.direct.inlineBytes (max value.length 1)

/-- The greatest key raised by one. -/
def raised (s : Store) (key : Bytes) : Bytes := if s.maxKey < key then key else s.maxKey

/-- An append that goes to the log. -/
def appendLogged (s : Store) (key value : Bytes) : Store :=
  { s with maxKey := s.raised key, pending := s.pending ++ [.put key value]
           mem := s.mem.append key value }

/-- An append that goes to a run, in an ordered table that replaces an empty one where there is
none. -/
def appendDirect (s : Store) (key value : Bytes) : Store :=
  { s with maxKey := key, mem := .ordered (s.mem.entries ++ [(key, value)]) }

/-- `append`. -/
def append (s : Store) (key value : Bytes) (fails : Bool) : Store :=
  let s := s.writesGo
  if s.mem.isOrdered ∨ s.directCanOpen then
    if s.goesDirect key value then s.appendDirect key value
    else if s.mem.isOrdered then (s.leaveDirect fails).appendLogged key value
    else s.appendLogged key value
  else s.appendLogged key value

/-- What `put` and `delete` start with. -/
def leftDirect (s : Store) (fails : Bool) : Store :=
  let s := s.writesGo
  if s.mem.isOrdered then s.leaveDirect fails else s

/-- `put`; nothing where the table it reaches is still ordered, and asserts. -/
def put (s : Store) (key value : Bytes) (fails : Bool) : Option Store := do
  let s := s.leftDirect fails
  let mem ← s.mem.write [.delete key, .put key value]
  some { s with maxKey := s.raised key, pending := s.pending ++ [.delete key, .put key value], mem := mem }

/-- `delete`, which does not raise the greatest key. -/
def delete (s : Store) (key : Bytes) (fails : Bool) : Option Store := do
  let s := s.leftDirect fails
  let mem ← s.mem.write [.delete key]
  some { s with pending := s.pending ++ [.delete key], mem := mem }

/-! ## Commits and seals -/

/-- Whether the policy asks for a sync. -/
def due (s : Store) : Bool :=
  match s.opts.sync with
  | .always => true
  | .everyN n => max n 1 ≤ s.unsynced

/-- Whether the log has anything a sync would do. -/
def logOwes (s : Store) : Bool := s.chain.framesUnsynced || s.chain.owes || s.dirUnsynced

/-- `rotate_wal`. -/
def rotate (s : Store) : Store :=
  { s with chain := s.chain.rotate, closedWals := s.closedWals ++ [s.chain.id]
           dirUnsynced := s.chain.framesUnsynced }

/-- `mark_commit` and `write`. -/
def writeLog (s : Store) : Store :=
  { s with chain := if s.pending = [] then s.chain else s.chain.commit s.pending, pending := [] }

/-- `seal_table`. -/
def sealTable (s : Store) (table : MemTable) : Store :=
  let s := if s.opts.sealRotatesWal then s.rotate else s
  { s with closedWals := [], sealing := s.sealing ++ [⟨table, none, s.chain.wal.seq, s.closedWals⟩] }

/-- What a table on its way becomes. -/
def segmentOf (j : InFlight) : List Entry :=
  match j.file with
  | some f => pieceEntries f.batches.flatten
  | none => sealedEntries j.table.records

/-- The oldest seal landed, its segment durable and named: the log is covered up to its end, its
files are removed, and a handed table it was still live as is replaced. -/
def land (s : Store) : Store :=
  match s.sealing with
  | [] => s
  | j :: rest =>
      { s with
        segments := s.segments ++ [segmentOf j], covered := j.endSeq, chain := s.chain.retire j.wals
        sealing := rest
        tmps := match j.file with
          | some f => s.tmps.filter (fun g => g.id ≠ f.id)
          | none => s.tmps
        mem := if s.handed ∧ rest = [] then .fresh else s.mem }

end Store

/-! ## The calls that write to a device -/

/-- Who commits to the log: `commit`, `commit_staged` or `seal`. -/
inductive Committer where
  | commit
  | staged
  | sealing
  deriving DecidableEq, Repr

/-- What the writer has yet to do of a call.  `commit`'s flag is whether it seals behind the batch,
`sync`'s whether the segment work is away; `fails` is of the close of a run, should it come to one.
-/
inductive Instr where
  | commit (seals fails : Bool)
  | sealing (fails : Bool)
  | sync (hands : Bool)
  | commitLog (who : Committer)
  | commitDirect
  | syncLog
  | syncRun
  | rotateBySize
  | freeze
  | closeDirect (fails : Bool)
  | syncBarrier
  | handTail (hands : Bool)
  deriving DecidableEq, Repr

namespace Store

/-- The batch closed in the log, and whether a sync follows. -/
def commitLog (s : Store) (who : Committer) : Store × List Instr :=
  let staged := decide (s.pending ≠ [])
  let s :=
    { s.writeLog with unsynced := if who = .commit ∨ staged then s.unsynced + 1 else s.unsynced }
  let syncs := match who with
    | .commit => s.due
    | .staged => (s.opts.drainSyncsWal || s.due) && s.logOwes
    | .sealing => s.opts.sealRotatesWal ||
        match s.opts.sync with
        | .always => staged
        | .everyN _ => s.due
  (s, if syncs then [.syncLog] else [])

/-- `sync_wal`, its next operation: the oldest file owed a sync, the live header, the live file. -/
def syncLog (s : Store) : Store × List Instr :=
  if s.chain.owes then ({ s with chain := s.chain.syncOwed, dirUnsynced := false }, [.syncLog])
  else if s.chain.loose then ({ s with chain := s.chain.chainHeader, dirUnsynced := false },
    [.syncLog])
  else ({ s with chain := s.chain.syncLive, dirUnsynced := false, unsynced := 0 }, [])

/-- `commit_direct`, up to its sync: what the table holds behind the last commit put in the run's
file, opened here on the first.  An error is the writer's, over its limits. -/
def commitDirect (lz : Lz4) (s : Store) : Except String (Store × List Instr) :=
  if s.committed = s.mem.entries.length then .ok (s, [])
  else do
    let (file, nextSeg) := match s.direct with
      | some d => (d.file, s.nextSeg)
      | none => (.create s.opts.direct s.nextSeg, s.nextSeg + 1)
    let file ← file.commit lz s.opts.direct (s.mem.entries.drop s.committed)
    let s := { s with direct := some ⟨file, s.mem.entries.length⟩, nextSeg := nextSeg
                      unsynced := s.unsynced + 1 }
    .ok (s, if s.due then [.syncRun] else [])

/-- `d.w.sync()`. -/
def syncRun (s : Store) : Store :=
  { s with direct := s.direct.map (fun d => { d with file := d.file.sync }), unsynced := 0 }

/-- `hand_tail`. -/
def handTail (s : Store) : Store :=
  if s.mem.isOrdered then
    match s.direct with
    | none => s
    | some d => { ({ s with direct := none }).closeRun d s.mem with handed := true }
  else { s.sealTable s.mem with handed := true }

/-- One instruction: the store behind it, and what it puts in front of the rest of its call. -/
def exec (lz : Lz4) (s : Store) : Instr → Except String (Store × List Instr)
  | .commit seals fails =>
      if s.pendingErr then .ok ({ s with pendingErr := false }, [])
      else if s.handed then .ok (s, [])
      else .ok (s, (if s.mem.isOrdered then [.commitDirect] else [.commitLog .commit, .rotateBySize])
        ++ (if seals then [.sealing fails] else []))
  | .sealing fails =>
      if s.pendingErr then .ok ({ s with pendingErr := false }, [])
      else
        let s := s.writesGo
        .ok (s, if s.mem.isOrdered then [.commitDirect, .closeDirect fails]
          else [.commitLog .sealing, .freeze])
  | .sync hands =>
      if s.pendingErr then .ok ({ s with pendingErr := false }, [])
      else .ok (s, (if s.handed then [] else if s.mem.isOrdered then [.commitDirect]
        else [.commitLog .staged]) ++ [.syncBarrier, .handTail hands])
  | .commitLog who => .ok (s.commitLog who)
  | .commitDirect => s.commitDirect lz
  | .syncLog => .ok s.syncLog
  | .syncRun => .ok (s.syncRun, [])
  | .rotateBySize =>
      .ok (if s.opts.sealRotatesWal ∨ s.chain.wal.file.length < s.opts.sealBytes then s else s.rotate, [])
  | .freeze =>
      .ok (if s.mem.isEmpty then s else ({ s with mem := .fresh }).sealTable s.mem, [])
  | .closeDirect fails => .ok ((s.closeDirect fails).1, [])
  | .syncBarrier => .ok (s, if ¬ s.mem.isOrdered ∧ s.logOwes then [.syncLog] else [])
  | .handTail hands =>
      let s := { s with unsynced := 0 }
      .ok (if s.opts.adaptiveShape ∧ hands ∧ ¬ s.handed ∧ ¬ s.mem.isEmpty then s.handTail else s, [])

end Store

/-! ## Histories -/

/-- A store over its life: what is left of the call under way, the writes since the last commit, the
batches committed, and whether the process has panicked. -/
structure History where
  store : Store
  todo : List Instr
  staged : List WalRecord
  committed : List (List WalRecord)
  panicked : Bool

/-- What happens to a store: a call begins, one under way goes on, or the oldest seal lands. -/
inductive Event where
  | append (key value : Bytes) (fails : Bool)
  | put (key value : Bytes) (fails : Bool)
  | delete (key : Bytes) (fails : Bool)
  | commit (seals fails : Bool)
  | sealing (fails : Bool)
  | sync (hands : Bool)
  | go
  | land
  deriving DecidableEq, Repr

namespace History

/-- The history of a new store, before any call. -/
def start (o : StoreOptions) : History := ⟨.create o, [], [], [], false⟩

/-- Everything written, committed or not. -/
def written (h : History) : List WalRecord := h.committed.flatten ++ h.staged

/-- Whether a call can begin. -/
def idle (h : History) : Bool := h.todo.isEmpty && !h.panicked

/-- A write: `none` is the panic of a table that asserts. -/
def wrote (h : History) (rs : List WalRecord) : Option Store → History
  | some s => { h with store := s, staged := h.staged ++ rs }
  | none => { h with panicked := true }

/-- The batch of the writes since the last commit, committed, if there are any. -/
def closeBatch (h : History) : History :=
  { h with committed := if h.staged = [] then h.committed else h.committed ++ [h.staged], staged := [] }

/-- The next instruction of the call under way. -/
def go (lz : Lz4) (h : History) : Except String History :=
  match h.todo with
  | [] => .ok h
  | i :: rest => do
      let (s, more) ← h.store.exec lz i
      let h := match i with
        | .commitLog _ => h.closeBatch
        | .commitDirect => h.closeBatch
        | _ => h
      .ok { h with store := s, todo := more ++ rest }

/-- One event.  A call begins only behind the one before. -/
def step (lz : Lz4) (h : History) : Event → Except String History
  | .append key value fails =>
      .ok (if h.idle then h.wrote [.put key value] (some (h.store.append key value fails)) else h)
  | .put key value fails =>
      .ok (if h.idle then h.wrote [.delete key, .put key value] (h.store.put key value fails) else h)
  | .delete key fails =>
      .ok (if h.idle then h.wrote [.delete key] (h.store.delete key fails) else h)
  | .commit seals fails => .ok (if h.idle then { h with todo := [.commit seals fails] } else h)
  | .sealing fails => .ok (if h.idle then { h with todo := [.sealing fails] } else h)
  | .sync hands => .ok (if h.idle then { h with todo := [.sync hands] } else h)
  | .go => h.go lz
  | .land => .ok { h with store := h.store.land }

/-- Calls, their instructions and landings in any order. -/
def run (lz : Lz4) (h : History) (es : List Event) : Except String History := es.foldlM (step lz) h

end History

/-! ## Crashes and opens -/

/-- What a crash leaves: of each log file and each run's file as many bytes as it says, no fewer
than were synced and no more than were written to it. -/
structure Loss where
  wal : ℕ → ℕ × Bool
  run : ℕ → ℕ

namespace Store

/-- The direct runs' files an open finds, in the order of their ids. -/
def runs (s : Store) : List RunFile := s.tmps ++ (s.direct.map Direct.file).toList

/-- How far a run's file goes: as far as its writer wrote it, and up to all the writer was given
where the run's close is under way, since that is the seal thread's to finish. -/
def onFile (s : Store) (f : RunFile) : ℕ :=
  if s.sealing.any (fun j => j.file.any (fun g => g.id = f.id)) then f.bytes.length else f.landed

/-- What a crash leaves of a run's file. -/
def leaves (s : Store) (loss : Loss) (f : RunFile) : ℕ :=
  min (s.onFile f) (max (loss.run f.id) f.synced)

/-- Recovered records rewritten as a piece: the writer takes ascending keys. -/
def rebuild (recs : List (Bytes × Bytes)) : Except String (List Entry) :=
  if (recs.map Prod.fst).Pairwise (· < ·) then .ok (pieceEntries recs)
  else .error "segment writer: keys must arrive in strictly increasing order"

end Store

/-- A record replay hands to the table. -/
def WalRecord.ofApplied (a : Applied) : WalRecord :=
  if a.1 = walDel then .delete a.2.1 else .put a.2.1 a.2.2

namespace Store

/-- `max_key_of`: the greatest key of the segments' last keys and the table's. -/
def maxKeyOf (segments : List (List Entry)) (mem : MemTable) : Bytes :=
  (segments.filterMap (fun es => es.getLast?.map Entry.key) ++ mem.records.map WalRecord.key).foldl
    (fun best k => if best < k then k else best) []

/-- `Db::open` over what a loss left of a store: every run's file recovered as a piece, and the log
replayed from the covered sequence on. -/
def openAfter (base : ℕ) (s : Store) (loss : Loss) : Except String Store := do
  let recovered := (s.runs.map (fun f => f.recovered base (s.leaves loss f))).filter (· ≠ [])
  let pieces ← recovered.mapM rebuild
  let (applied, chain) ← reopen s.covered (s.chain.files.map (fun f => f.lose (loss.wal f.id)))
  let segments := s.segments ++ pieces
  let mem := MemTable.hashed (applied.map WalRecord.ofApplied)
  .ok { opts := s.opts, maxKey := maxKeyOf segments mem, mem := mem, handed := false, direct := none
        chain := chain, pending := [], closedWals := chain.closed.map LogFile.id, dirUnsynced := false
        unsynced := 0, pendingErr := false, sealing := [], tmps := [], segments := segments
        covered := s.covered, nextSeg := s.nextSeg }

/-- The frozen tables: a table handed to a seal is live. -/
def frozen (s : Store) : List InFlight := if s.handed then s.sealing.dropLast else s.sealing

/-- `read_all`: the segments, oldest first, the frozen tables and the live one. -/
def readAll (s : Store) (k : Bytes) : List Bytes :=
  ((s.segments.map (fun es => deltaIn es k)).prod * (s.frozen.map (fun j => j.table.read k)).prod
    * s.mem.read k).vals

end Store

end Supdb
