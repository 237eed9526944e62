import Supdb.WalChain

/-!
# Committing to the log when a write fails

A commit closes what is staged with a commit frame, hands the frames to the file and syncs it.  A
failed `write` leaves its frames in the pending buffer, the commit frame among them, and any part of
them on the file; the next commit frames and writes on from there.

* `LogRun` – the log of a store under `SyncPolicy::Always` whose live table is hashed, with what its
  commits have answered for.
* `commit_honest` – **what holds**: where no `write` fails, whatever the syncs do, a commit that
  returns `Ok` leaves a file whose replay applies every record written, once and in order.
* `commit_dishonest` – and what fails: one failed `write`, and the next commit that returns `Ok`
  answers for a record no replay will apply.
-/

namespace Supdb

open StorageLib

/-! ## The calls -/

/-- The writes a store takes. -/
inductive Verb where
  | append (key value : Bytes)
  | put (key value : Bytes)
  | delete (key : Bytes)
  deriving DecidableEq, Repr

/-- The records a write frames: a put is a delete and an append. -/
def Verb.records : Verb → List WalRecord
  | .append key value => [.put key value]
  | .put key value => [.delete key, .put key value]
  | .delete key => [.delete key]

/-- What the file system makes of a commit: all of it done, its `write` failed after `kept` of the
bytes, or its `sync` failed. -/
inductive Fate where
  | done
  | writeFails (kept : ℕ)
  | syncFails
  deriving DecidableEq, Repr

/-- A call on the store. -/
inductive LogCall where
  | write (v : Verb)
  | commit (fate : Fate)
  deriving DecidableEq, Repr

/-- The log, and what has been written through it: the records staged since the last commit that
returned `Ok`, those of the commits that did, and whether the last call was one of them. -/
structure LogRun where
  wal : Wal
  staged : List WalRecord
  acked : List WalRecord
  ok : Bool

namespace LogRun

/-- The log as file `id` holds it when the calls begin: the batches of an earlier life, if any, from
sequence `fromSeq` on. -/
def start (id : BitVec 64) (kind : UInt8) (fromSeq : ℕ) (held : List (List WalRecord)) : LogRun :=
  ⟨held.foldl Wal.commitBatch (.create id kind fromSeq), [], held.flatten, false⟩

/-- The hashed arm of `Db::commit` under `SyncPolicy::Always`: `mark_commit`, `write`, `sync`.  A
`write` with nothing pending makes no call that could fail. -/
def commit (s : LogRun) (fate : Fate) : LogRun :=
  let w := s.wal.markCommit
  match fate with
  | .writeFails kept =>
      if w.pending = [] then ⟨w.write, [], s.acked ++ s.staged, true⟩
      else ⟨{ w with file := w.file ++ w.pending.take kept }, s.staged, s.acked, false⟩
  | .syncFails => ⟨w.write, s.staged, s.acked, false⟩
  | .done => ⟨w.write, [], s.acked ++ s.staged, true⟩

/-- A write, or a commit and what became of it. -/
def call (s : LogRun) : LogCall → LogRun
  | .write v => ⟨v.records.foldl Wal.record s.wal, s.staged ++ v.records, s.acked, false⟩
  | .commit fate => s.commit fate

/-- Writes and commits, of which some fail. -/
def run (s : LogRun) (calls : List LogCall) : LogRun := calls.foldl call s

/-- When a commit has just returned `Ok`, replay of the file as it stands succeeds and applies every
record written before, in order and each once. -/
def Honest (s : LogRun) (id : BitVec 64) (fromSeq : ℕ) (first : Bool) : Prop :=
  s.ok = true → (replay s.wal.file id fromSeq first).applied = s.acked.map WalRecord.applied ∧
    ∃ next, (replay s.wal.file id fromSeq first).outcome = .ok (next, s.wal.file.length, false)

end LogRun

/-! ## Where no write fails -/

/-- A call whose `write`, if it makes one, succeeds, and whose records fit their frames. -/
def LogCall.Meets : LogCall → Prop
  | .write v => ∀ r ∈ v.records, r.bodyLen < 2 ^ 32
  | .commit fate => ∀ kept, fate ≠ .writeFails kept

/-- The frames a run of calls can take at most. -/
def framesOf (calls : List LogCall) : ℕ :=
  (calls.map (fun c => match c with
    | .write v => v.records.length
    | .commit _ => 1)).sum

section Runs

variable {id : BitVec 64} {kind : UInt8} {fromSeq : ℕ}

/-- The log between calls: whole batches on the file, whole record frames pending, and all of it
what was written. -/
def LogRun.Framed (id : BitVec 64) (kind : UInt8) (fromSeq : ℕ) (s : LogRun) : Prop :=
  ∃ (bs : List (List WalRecord)) (tail : List WalRecord),
    s.wal = ⟨walHeader kind ++ Wal.logBytes (walSeed id) fromSeq bs,
      fromSeq + frameCount bs + tail.length,
      Wal.recordFrames (fromSeq + frameCount bs) tail, walSeed id⟩ ∧
    s.acked ++ s.staged = bs.flatten ++ tail ∧ BatchesFit bs ∧ (∀ r ∈ tail, r.bodyLen < 2 ^ 32) ∧
    (s.ok = true → tail = [] ∧ s.staged = [])

lemma framed_start {held : List (List WalRecord)} (hfit : BatchesFit held)
    (hroom : fromSeq + frameCount held < 2 ^ 64) :
    (LogRun.start id kind fromSeq held).Framed id kind fromSeq := by
  have hfile := @file_foldl_commitBatch (.create id kind fromSeq) held rfl hfit hroom
  obtain ⟨hpend, hseed, hseq⟩ :=
    @Wal.foldl_commitBatch (.create id kind fromSeq) held rfl hfit hroom
  refine ⟨held, [], ?_, by simp [LogRun.start], hfit, by simp, by simp [LogRun.start]⟩
  rw [LogRun.start]
  cases hw : held.foldl Wal.commitBatch (.create id kind fromSeq) with
  | mk file seq pending seed =>
      rw [hw] at hfile hpend hseed hseq
      simp only at hfile hpend hseed hseq
      rw [hfile, hpend, hseed, hseq]
      rfl

lemma recordFrames_append (seq : ℕ) (as bs : List WalRecord) :
    Wal.recordFrames seq (as ++ bs)
      = Wal.recordFrames seq as ++ Wal.recordFrames (seq + as.length) bs := by
  induction as generalizing seq with
  | nil => rfl
  | cons a as ih =>
      rw [List.cons_append, Wal.recordFrames, ih, Wal.recordFrames, List.append_assoc,
        List.length_cons, Nat.add_assoc, Nat.add_comm 1]

/-- Records written stand behind those pending. -/
lemma framed_write {s : LogRun} (h : s.Framed id kind fromSeq) (v : Verb)
    (hfit : ∀ r ∈ v.records, r.bodyLen < 2 ^ 32) (hroom : s.wal.seq + v.records.length < 2 ^ 64) :
    (s.call (.write v)).Framed id kind fromSeq := by
  obtain ⟨bs, tail, hwal, hrecs, hbs, htail, -⟩ := h
  refine ⟨bs, tail ++ v.records, ?_, ?_, hbs, ?_, by simp [LogRun.call]⟩
  · rw [LogRun.call, Wal.foldl_record _ _ hroom, hwal]
    simp only [Wal.mk.injEq, true_and, and_true]
    exact ⟨by rw [List.length_append, ← Nat.add_assoc], (recordFrames_append _ _ _).symm⟩
  · rw [LogRun.call, ← List.append_assoc, hrecs, List.append_assoc]
  · intro r hr
    rcases List.mem_append.mp hr with hr | hr
    · exact htail r hr
    · exact hfit r hr

/-- A commit's frames, written: the records pending become a batch. -/
lemma framed_markCommit_write {w : Wal} {bs : List (List WalRecord)} {tail : List WalRecord}
    (hwal : w = ⟨walHeader kind ++ Wal.logBytes (walSeed id) fromSeq bs,
      fromSeq + frameCount bs + tail.length,
      Wal.recordFrames (fromSeq + frameCount bs) tail, walSeed id⟩)
    (hbs : BatchesFit bs) (htail : ∀ r ∈ tail, r.bodyLen < 2 ^ 32) (hroom : w.seq + 1 < 2 ^ 64) :
    ∃ bs', w.markCommit.write = ⟨walHeader kind ++ Wal.logBytes (walSeed id) fromSeq bs',
        fromSeq + frameCount bs', [], walSeed id⟩ ∧ bs'.flatten = bs.flatten ++ tail ∧
      BatchesFit bs' ∧ fromSeq + frameCount bs' ≤ w.seq + 1 := by
  cases tail with
  | nil =>
      refine ⟨bs, ?_, (List.append_nil _).symm, hbs, ?_⟩
      · rw [hwal]
        simp [Wal.markCommit, Wal.write, Wal.recordFrames]
      · rw [hwal]
        simp only [List.length_nil]
        omega
  | cons r tail =>
      have hne : Wal.recordFrames (fromSeq + frameCount bs) (r :: tail) ≠ [] := by
        simp [Wal.recordFrames, Wal.recordFrame_ne_nil]
      refine ⟨bs ++ [r :: tail], ?_, by simp, ?_, ?_⟩
      · rw [hwal] at hroom ⊢
        simp only at hroom
        simp only [Wal.markCommit, if_neg hne, Wal.frame, Wal.write, if_true, logBytes_append,
          Wal.logBytes, List.append_nil, Wal.batchBytes, Wal.commitFrame, Wal.commitBody,
          List.append_assoc, Wal.mk.injEq, true_and, and_true]
        rw [Nat.mod_eq_of_lt hroom, frameCount_append, frameCount_cons, frameCount_nil]
        omega
      · intro b hb
        rcases List.mem_append.mp hb with hb | hb
        · exact hbs b hb
        · rw [List.mem_singleton.mp hb]
          exact ⟨List.cons_ne_nil _ _, htail⟩
      · rw [hwal, frameCount_append, frameCount_cons, frameCount_nil]
        simp only [List.length_cons]
        omega

lemma framed_commit {s : LogRun} (h : s.Framed id kind fromSeq) {fate : Fate}
    (hfate : ∀ kept, fate ≠ .writeFails kept) (hroom : s.wal.seq + 1 < 2 ^ 64) :
    (s.call (.commit fate)).Framed id kind fromSeq ∧
      (s.call (.commit fate)).wal.seq ≤ s.wal.seq + 1 := by
  obtain ⟨bs, tail, hwal, hrecs, hbs, htail, -⟩ := h
  obtain ⟨bs', hw, hflat, hfit, hle⟩ := framed_markCommit_write hwal hbs htail hroom
  cases fate with
  | writeFails kept => exact absurd rfl (hfate kept)
  | done =>
      refine ⟨⟨bs', [], hw, by simp [LogRun.call, LogRun.commit, hrecs, hflat], hfit, by simp,
        by simp [LogRun.call, LogRun.commit]⟩, ?_⟩
      change s.wal.markCommit.write.seq ≤ s.wal.seq + 1
      rw [hw]
      exact hle
  | syncFails =>
      refine ⟨⟨bs', [], hw, by simp [LogRun.call, LogRun.commit, hrecs, hflat], hfit, by simp,
        by simp [LogRun.call, LogRun.commit]⟩, ?_⟩
      change s.wal.markCommit.write.seq ≤ s.wal.seq + 1
      rw [hw]
      exact hle

/-- Runs in which no `write` fails keep the log framed. -/
lemma framed_run {s : LogRun} (h : s.Framed id kind fromSeq) {calls : List LogCall}
    (hmeets : ∀ c ∈ calls, c.Meets) (hroom : s.wal.seq + framesOf calls < 2 ^ 64) :
    (s.run calls).Framed id kind fromSeq ∧
      (s.run calls).wal.seq ≤ s.wal.seq + framesOf calls := by
  induction calls generalizing s with
  | nil => exact ⟨h, Nat.le_add_right _ _⟩
  | cons c calls ih =>
      have hc := hmeets c (List.mem_cons_self ..)
      have hrest : ∀ c ∈ calls, c.Meets := fun c hc => hmeets c (List.mem_cons_of_mem _ hc)
      cases c with
      | write v =>
          have hcount : framesOf (.write v :: calls) = v.records.length + framesOf calls := by
            simp [framesOf]
          have hseq : (s.call (.write v)).wal.seq = s.wal.seq + v.records.length := by
            rw [LogRun.call, Wal.foldl_record _ _ (by omega)]
          obtain ⟨hframed, hle⟩ := ih (framed_write h v hc (by omega)) hrest (by omega)
          exact ⟨hframed, hle.trans (by omega)⟩
      | commit fate =>
          have hcount : framesOf (.commit fate :: calls) = 1 + framesOf calls := by
            simp [framesOf]
          obtain ⟨hnext, hone⟩ := framed_commit h hc (by omega)
          obtain ⟨hframed, hle⟩ := ih hnext hrest (by omega)
          exact ⟨hframed, hle.trans (by omega)⟩

/-- A framed log answers for what it holds. -/
lemma honest_of_framed {s : LogRun} (h : s.Framed id kind fromSeq)
    (hkind : kind = walChained ∨ kind = walLoose) (hroom : s.wal.seq < 2 ^ 64) (first : Bool) :
    s.Honest id fromSeq first := by
  intro hok
  obtain ⟨bs, tail, hwal, hrecs, hbs, -, hdone⟩ := h
  obtain ⟨rfl, hstaged⟩ := hdone hok
  rw [hstaged, List.append_nil, List.append_nil] at hrecs
  rw [hwal, List.length_nil, Nat.add_zero] at hroom
  have h8 : 8 = (walHeader kind).length := rfl
  have hrun := @replayLoop_wholeLog (walSeed id) fromSeq (decide (kind = walLoose ∧ ¬ first = true))
    (walHeader kind) [] 8 fromSeq fromSeq [] bs h8 (fun _ => ⟨rfl, le_refl fromSeq⟩) hbs hroom
  rw [List.append_nil] at hrun
  have hend := replayLoop_zeros (walSeed id) fromSeq (decide (kind = walLoose ∧ ¬ first = true))
    (.committed (fromSeq + frameCount bs) (8 + (Wal.logBytes (walSeed id) fromSeq bs).length)
      ([] ++ bs.flatten.map WalRecord.applied))
    (z := 0) (List.append_nil (walHeader kind ++ Wal.logBytes (walSeed id) fromSeq bs)).symm
    (by rw [List.length_append, ← h8])
  have hreplay : replay s.wal.file id fromSeq first
      = ⟨s.acked.map WalRecord.applied, .ok (fromSeq + frameCount bs, s.wal.file.length, false)⟩ :=
      by
    rw [hwal, replay_header hkind, hrun, hend, hrecs, List.length_append, ← h8]
    rfl
  rw [hreplay]
  exact ⟨rfl, _, rfl⟩

end Runs

/-- **A commit is honest where no write has failed.**  Over every run of writes and commits in which
no `Wal::write` fails, whichever of its syncs fail, each commit that returns `Ok` leaves a file
whose replay applies every record written before it, in order and each once. -/
theorem commit_honest (id : BitVec 64) (kind : UInt8) (fromSeq : ℕ) (first : Bool)
    (held : List (List WalRecord)) (calls : List LogCall)
    (hkind : kind = walChained ∨ kind = walLoose) (hheld : BatchesFit held)
    (hmeets : ∀ c ∈ calls, c.Meets)
    (hroom : fromSeq + frameCount held + framesOf calls < 2 ^ 64) :
    ((LogRun.start id kind fromSeq held).run calls).Honest id fromSeq first := by
  have hbegin : fromSeq + frameCount held < 2 ^ 64 := by omega
  have hseq : (LogRun.start id kind fromSeq held).wal.seq = fromSeq + frameCount held :=
    (@Wal.foldl_commitBatch (.create id kind fromSeq) held rfl hheld hbegin).2.2
  have hstart : (LogRun.start id kind fromSeq held).Framed id kind fromSeq :=
    framed_start hheld hbegin
  obtain ⟨hframed, hle⟩ := framed_run hstart hmeets (by rw [hseq]; exact hroom)
  exact honest_of_framed hframed hkind (by omega) first

/-- A commit whose sync fails, and the next one, over a log that held a batch. -/
theorem commit_honest_syncFailed :
    ((LogRun.start 7 walLoose 5 [[.delete [9]]]).run
      [.write (.put [1] [2]), .commit .syncFails, .write (.append [3] []), .commit .done]).ok
      = true ∧
    ((LogRun.start 7 walLoose 5 [[.delete [9]]]).run
      [.write (.put [1] [2]), .commit .syncFails, .write (.append [3] []), .commit .done]).Honest
      7 5 true := by
  refine ⟨rfl, commit_honest 7 walLoose 5 true _ _ (Or.inr rfl) ?_ ?_ (by decide)⟩
  · intro b hb
    rw [List.mem_singleton.mp hb]
    exact ⟨by simp, by decide +kernel⟩
  · intro c hc
    fin_cases hc
    · exact (by decide +kernel : ∀ r ∈ [WalRecord.delete [1], .put [1] [2]], r.bodyLen < 2 ^ 32)
    · exact fun kept h => by simp at h
    · exact (by decide +kernel : ∀ r ∈ [WalRecord.put [3] []], r.bodyLen < 2 ^ 32)
    · exact fun kept h => by simp at h

/-- **And not where one has.**  A commit's `write` fails with nothing on the file; the next commit,
with one more record, returns `Ok`, and replay of what it wrote stops before that record: the commit
frame the failed write left pending closes a batch of its own, and the checksum of the frame behind
it covers both. -/
theorem commit_dishonest :
    ¬ ((LogRun.start 7 walChained 0 []).run
      [.write (.append [1] [2]), .commit (.writeFails 0), .write (.append [3] [4]),
        .commit .done]).Honest 7 0 true := by
  intro h
  have happlied : (replay ((LogRun.start 7 walChained 0 []).run
      [.write (.append [1] [2]), .commit (.writeFails 0), .write (.append [3] [4]),
        .commit .done]).wal.file 7 0 true).applied = [(walPut, [1], [2])] := by decide +kernel
  exact absurd (happlied.symm.trans (h rfl).1) (by decide)

end Supdb
