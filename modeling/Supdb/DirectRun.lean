import Supdb.DirectCommit
import Supdb.MemTable
import Supdb.RowAssembly

/-!
# The file of a direct run

A direct run's batches are put into a writer of its own, each behind the one before with a marker
after it, and synced as the policy asks.  The writer's file takes a whole write piece at a time:
what is behind the last of them is in memory until a sync, and a crash takes it.  A power loss
leaves any prefix of the file that holds what a sync covered, and an open recovers from it the
batches whose marker it has.

* `RunFile` – the file: what its writer was given, batch by batch, how much of it is on the file and
  how much a sync covers.
* `RunFile.landBatch_calls` – so far the writer's file goes, whatever calls the batch was.
* `RunFile.recovered_eq` – **what an open recovers of a cut file**: its first so many batches, at
  least the durable ones, and all of them where nothing was lost.

The batches are put by the writer's own calls; a table that keeps its values by reference or as the
stream itself leaves the same log (`OrderedTable`).
-/

namespace Supdb

open StorageLib

/-- A run's file `direct-<id>.tmp`: what its writer was given, the bytes of it that are on the file,
and those a sync covers. -/
structure RunFile where
  id : ℕ
  log : DirectLog
  landed : ℕ
  synced : ℕ

namespace RunFile

/-- The file made; its head waits in the writer. -/
def create (o : DirectOptions) (id : ℕ) : RunFile := ⟨id, .start o.writer, 0, 0⟩

/-- The call that puts one entry. -/
def putOp (o : DirectOptions) (e : Bytes × Bytes) : DirectOp :=
  if o.putOne then .putOne e.1 e.2 else .put e.1 e.2

/-- How far the file goes behind a batch that ends at `stop`: a streamed table's first batch writes
the head, and what is given to the writer is written a whole piece at a time. -/
def landBatch (o : DirectOptions) (landed stop : ℕ) : ℕ :=
  AlignedWriter.reach (max o.writePiece 4096)
    (max landed (if o.streams then SUPER + HEADER else 0)) stop

/-- A batch put, and its marker behind it. -/
def commit (lz : Lz4) (o : DirectOptions) (f : RunFile) (batch : List (Bytes × Bytes)) :
    Except String RunFile := do
  let log ← f.log.run lz (batch.map (putOp o) ++ [.mark])
  .ok { f with log := log, landed := landBatch o f.landed log.writer.out.length }

/-- `SegmentWriter::sync`: what the writer was given, all of it on the file and covered. -/
def sync (f : RunFile) : RunFile :=
  { f with log := { f.log with writer := f.log.writer.sync }, landed := f.log.writer.sync.out.length
           synced := f.log.writer.sync.out.length }

/-- What the file's writer was given, up to the bytes still in its memory. -/
def bytes (f : RunFile) : Bytes := f.log.writer.out

/-- The batches written to it. -/
def batches (f : RunFile) : List (List (Bytes × Bytes)) := f.log.closed

/-- How many batches are whole in the file's first `n` bytes. -/
def whole (f : RunFile) (n : ℕ) : ℕ := (f.log.commits.filter (fun c => c.2 ≤ n)).length

/-- How many batches a sync covers. -/
def durable (f : RunFile) : ℕ := f.whole f.synced

/-- What an open recovers where a loss left `n` bytes of the file.  `base` is where the allocator
put the buffer the file was read into. -/
def recovered (base : ℕ) (f : RunFile) (n : ℕ) : List (Bytes × Bytes) :=
  recoverDirect base (f.bytes.take n)

/-- **What holds of a run's file** between its batches. -/
structure Ok (o : DirectOptions) (f : RunFile) : Prop where
  log : f.log.Inv
  opts : f.log.writer.opts = (SegmentWriter.create o.writer).opts
  opened : f.log.opened = []
  synced : f.synced ≤ f.landed
  landed : f.landed ≤ f.bytes.length

section Files

variable {lz : Lz4} {o : DirectOptions} {f f' : RunFile} {batch : List (Bytes × Bytes)}

lemma create_ok (o : DirectOptions) (hinline : 0 < o.inlineBytes) (id : ℕ) :
    (create o id).Ok o where
  log := DirectLog.inv_start rfl hinline rfl
  opts := rfl
  opened := rfl
  synced := le_rfl
  landed := Nat.zero_le _

/-- **The writer's file goes so far** behind the calls of a batch, none of them a flush, however the
helper runs beside them. -/
lemma landBatch_calls {p : Option ℕ} {out : Bytes} {w : AlignedWriter} (sched : Schedule)
    (ok : w.Ok p out) (hpiece : w.piece = max o.writePiece 4096)
    (hhead : o.streams = true → SUPER + HEADER ≤ w.written) {ops : List WriteOp}
    (hops : WriteOp.flush ∉ ops) :
    (w.calls sched ops).written
    = landBatch o w.written (out ++ ops.flatMap WriteOp.bytes).length := by
  have hmax : max w.written (if o.streams = true then SUPER + HEADER else 0) = w.written := by
    split_ifs with hs
    · exact max_eq_left (hhead hs)
    · exact max_eq_left (Nat.zero_le _)
  rw [ok.written_calls sched hops, landBatch, hmax, hpiece]

/-- A flush, as a sync begins with, leaves nothing in memory. -/
lemma flush_written {p : Option ℕ} {out : Bytes} {w : AlignedWriter} (sched : Schedule)
    (ok : w.Ok p out) : (w.flush sched).written = out.length := by
  obtain ⟨hok, hbuf⟩ := ok.flush sched
  have hpos := hok.base.pos
  rw [hbuf, List.length_nil, add_zero, AlignedWriter.pos] at hpos
  exact hpos

lemma landBatch_le {landed stop : ℕ} (h : landed ≤ stop) (hhead : SUPER + HEADER ≤ stop) :
    landBatch o landed stop ≤ stop := by
  have hdiv := Nat.div_mul_le_self stop (max o.writePiece 4096)
  rw [landBatch, AlignedWriter.reach]
  split_ifs <;> omega

lemma le_landBatch (landed stop : ℕ) : landed ≤ landBatch o landed stop :=
  (le_max_left _ _).trans (le_max_left _ _)

/-- Between batches the writer was given no more than its head and the batches with their markers.
-/
lemma out_length_le (h : f.Ok o) : f.bytes.length ≤
    SUPER + HEADER + (directStream f.log.writer.opts.compactRecords 0 f.log.closed).length := by
  obtain ⟨-, -, -, -, -, -, -, -, -, -, x, hout⟩ := layout_frame f.log.writer
  obtain ⟨done, hstream, hheld, -⟩ := h.log.stream
  rw [h.opened, recordsBytes, List.flatMap_nil] at hheld
  obtain ⟨hdone, -⟩ := List.append_eq_nil_iff.mp hheld.symm
  have hlen := congrArg List.length (hout.symm.trans hstream)
  rw [hdone, List.append_nil, List.length_append, List.length_append, List.length_replicate] at hlen
  rw [bytes]
  omega

/-- The writer behind some puts: in order, its settings kept, its batch longer by them. -/
lemma run_puts {l l' : DirectLog} (hl : l.Inv) (hopts : l.writer.opts = (SegmentWriter.create o.writer).opts)
    (hbatch : ∀ e ∈ batch, Carried o e) (hrun : l.run lz (batch.map (putOp o) ++ [.mark]) = .ok l') :
    l'.Inv ∧ l'.writer.opts = l.writer.opts ∧ l'.opened = [] ∧
      l'.commits = l.commits ++ [(l.opened ++ batch, l'.writer.out.length)] := by
  have hmax : l.writer.opts.inlineMax = o.inlineBytes := by
    rw [hopts]
    rfl
  induction batch generalizing l with
  | nil =>
      obtain ⟨m, hm, hrun⟩ := except_bind_eq_ok.mp hrun
      injection hrun with hrun
      subst hrun
      obtain ⟨hinv, hkept⟩ := @DirectLog.inv_step lz l m .mark hl trivial hm
      obtain ⟨w, hw, hm⟩ := except_bind_eq_ok.mp hm
      injection hm with hm
      subst hm
      exact ⟨hinv, hkept, rfl, by rw [List.append_nil]⟩
  | cons e batch ih =>
      obtain ⟨he, hbatch⟩ := List.forall_mem_cons.mp hbatch
      obtain ⟨m, hm, hrun⟩ := except_bind_eq_ok.mp hrun
      have hin : (putOp o e).Inline l.writer.opts.inlineMax := by
        rw [hmax, putOp]
        split_ifs
        · exact he.inline
        · exact he.inline
      obtain ⟨hinv, hkept⟩ := DirectLog.inv_step hl hin hm
      have hstep : m.opened = l.opened ++ [e] ∧ m.commits = l.commits := by
        rw [putOp] at hm
        split_ifs at hm
        · obtain ⟨w, hw, hm⟩ := except_bind_eq_ok.mp hm
          injection hm with hm
          subst hm
          exact ⟨rfl, rfl⟩
        · obtain ⟨w, hw, hm⟩ := except_bind_eq_ok.mp hm
          injection hm with hm
          subst hm
          exact ⟨rfl, rfl⟩
      obtain ⟨hinv', hkept', hopened, hcommits⟩ :=
        ih hinv (hkept.trans hopts) hbatch hrun (by rw [hkept, hmax])
      refine ⟨hinv', hkept'.trans hkept, hopened, ?_⟩
      rw [hcommits, hstep.1, hstep.2, List.append_assoc]
      rfl

lemma whole_mono (f : RunFile) {m n : ℕ} (h : m ≤ n) : f.whole m ≤ f.whole n := by
  refine List.Sublist.length_le (List.monotone_filter_right f.log.commits ?_)
  intro c hc
  exact decide_eq_true ((of_decide_eq_true hc).trans h)

lemma whole_le (f : RunFile) (n : ℕ) : f.whole n ≤ f.batches.length := by
  rw [whole, batches, DirectLog.closed, List.length_map]
  exact List.length_filter_le _ _

/-- A commit puts the batch and its marker behind the run. -/
lemma commit_ok (h : f.Ok o) (hbatch : ∀ e ∈ batch, Carried o e)
    (hc : f.commit lz o batch = .ok f') :
    f'.Ok o ∧ f'.id = f.id ∧ f'.synced = f.synced ∧ f'.batches = f.batches ++ [batch] ∧
      f.durable ≤ f'.durable := by
  obtain ⟨log, hlog, hc⟩ := except_bind_eq_ok.mp hc
  injection hc with hc
  subst hc
  obtain ⟨hinv, hkept, hopened, hcommits⟩ := run_puts h.log h.opts hbatch hlog
  rw [h.opened, List.nil_append] at hcommits
  have hclosed : log.closed = f.log.closed ++ [batch] := by
    rw [DirectLog.closed, hcommits, List.map_append]
    rfl
  have hlast := hinv.ends
  rw [hclosed, hcommits, List.map_append, @markerEnds_snoc _ 0, hkept] at hlast
  obtain ⟨-, hend⟩ := List.append_inj' hlast rfl
  rw [List.map_singleton, List.singleton_inj] at hend
  have hgiven := out_length_le h
  have hgrows : f.bytes.length ≤ log.writer.out.length := by omega
  have hhead : SUPER + HEADER ≤ log.writer.out.length := by omega
  refine ⟨⟨hinv, hkept.trans h.opts, hopened, h.synced.trans (le_landBatch _ _),
    landBatch_le (h.landed.trans hgrows) hhead⟩, rfl, rfl, ?_, ?_⟩
  · simp only [batches, DirectLog.closed, hcommits, List.map_append, List.map_singleton]
  · simp only [durable, whole, hcommits, List.filter_append, List.length_append]
    omega

lemma commit_id (hc : f.commit lz o batch = .ok f') : f'.id = f.id := by
  obtain ⟨log, -, hc⟩ := except_bind_eq_ok.mp hc
  injection hc with hc
  rw [← hc]

lemma whole_eq_length (h : f.Ok o) {n : ℕ} (hn : f.bytes.length ≤ n) :
    f.whole n = f.batches.length := by
  have hall : f.log.commits.filter (fun c => c.2 ≤ n) = f.log.commits := by
    rw [List.filter_eq_self]
    exact fun c hc => decide_eq_true ((h.log.endsLe c hc).trans hn)
  rw [whole, hall, batches, DirectLog.closed, List.length_map]

/-- A sync covers every batch of the run. -/
lemma sync_ok (h : f.Ok o) :
    f.sync.Ok o ∧ f.sync.batches = f.batches ∧ f.sync.durable = f.sync.batches.length := by
  have hok : f.sync.Ok o :=
    ⟨DirectLog.inv_sync h.log, (sync_opts f.log.writer).trans h.opts, h.opened, le_rfl, le_rfl⟩
  exact ⟨hok, rfl, whole_eq_length hok (le_refl _)⟩

lemma pairwise_markerEnds (compact : Bool) (at0 : ℕ) (bs : List (List (Bytes × Bytes))) :
    (markerEnds compact at0 bs).Pairwise (· < ·) := by
  induction bs generalizing at0 with
  | nil => exact List.Pairwise.nil
  | cons b bs ih => exact List.pairwise_cons.mpr ⟨lt_markerEnds compact bs _, ih _⟩

/-- Of a list ordered by its ends, those that end in time are the first so many. -/
lemma filter_le_eq_take {α : Type} {cs : List (α × ℕ)}
    (hsorted : (cs.map Prod.snd).Pairwise (· < ·)) (n : ℕ) :
    cs.filter (fun c => c.2 ≤ n) = cs.take (cs.filter (fun c => c.2 ≤ n)).length := by
  induction cs with
  | nil => rfl
  | cons c cs ih =>
      obtain ⟨hc, hcs⟩ := List.pairwise_cons.mp hsorted
      by_cases hle : c.2 ≤ n
      · simp only [List.filter_cons, hle, decide_true, if_true, List.length_cons, List.take_succ_cons]
        rw [← ih hcs]
      · have hnone : cs.filter (fun c => c.2 ≤ n) = [] := by
          rw [List.filter_eq_nil_iff]
          intro c' hc'
          have := hc c'.2 (List.mem_map_of_mem hc')
          simp only [decide_eq_true_eq]
          omega
        rw [List.filter_cons_of_neg (by simpa using hle), hnone]
        rfl

/-- **What an open recovers of a cut file**: its first batches, as many as the cut holds whole. -/
lemma recovered_eq {base : ℕ} (h : f.Ok o) (hbase : 4 ∣ base) (n : ℕ) :
    f.recovered base n = (f.batches.take (f.whole n)).flatten := by
  have hsorted : (f.log.commits.map Prod.snd).Pairwise (· < ·) := by
    rw [h.log.ends]
    exact pairwise_markerEnds _ _ _
  rw [recovered, bytes, DirectLog.recover_take h.log hbase, filter_le_eq_take hsorted, batches,
    DirectLog.closed, ← List.map_take, List.flatMap_def]
  rfl

end Files

end RunFile

end Supdb
