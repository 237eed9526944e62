import Supdb.TrailWrites

/-!
# Commits, syncs and seals

Everything else a call does is an instruction: a batch closed in the log or in the run's file, a
sync's next operation, a rotation, a table handed or frozen.  Each keeps the store what its trail
says, and the one thing any of them does to the history is to write what is staged behind it.

* `LogOk.commit`, `LogOk.rotated`, `LogOk.syncLog` – the log behind a batch, a rotation, a sync's
  next step.
* `commitLog_inv`, `commitDirect_inv` – **a batch committed**, to the log or to the run.
* `sealTable_inv`, `closeDirect_inv`, `handTail_inv` – a seal of the live table.
* `exec_inv` – **an instruction**, and what the rest of its call finds.
-/

namespace Supdb

open StorageLib

/-! ## The log -/

/-- The trail behind a batch in the log. -/
def Trail.logged (t : Trail) (b : List WalRecord) : Trail :=
  { t with live := t.live ++ [(none, b)], part := ⟨t.part.start, t.part.kept ++ [b]⟩ }

/-- The trail behind a rotation. -/
def Trail.rotated (t : Trail) : Trail :=
  { t with parts := t.parts ++ [t.part], part := ⟨t.part.start + frameCount t.part.kept, []⟩ }

section Log

variable {s s' : Store} {t t' : Trail} {b : List WalRecord} {more : Option Logged}

@[simp] lemma Trail.logged_hist (t : Trail) (b : List WalRecord) :
    (t.logged b).hist = t.hist ++ [(none, b)] := by
  rw [Trail.hist, Trail.hist, Trail.logged, List.append_assoc]

@[simp] lemma Trail.rotated_hist (t : Trail) : t.rotated.hist = t.hist := rfl

lemma Trail.logged_log (t : Trail) (b : List WalRecord) : (t.logged b).log = t.log ++ [b] := by
  simp only [Trail.log, Trail.logged, batchesOf_append, batchesOf_cons, batchesOf_nil,
    List.append_nil, List.append_assoc]

lemma Trail.rotated_log (t : Trail) : t.rotated.log = t.log := by
  simp only [Trail.log, Trail.rotated, batchesOf_append, batchesOf_cons, batchesOf_nil,
    List.append_nil]

/-- A step that lands nothing, and leaves no less durable. -/
lemma Evolves.of_le (hhist : t'.hist = t.hist ++ more.toList) (hlanded : t'.landed = t.landed)
    (hcut : t'.cut = t.cut)
    (hlog : durCount s.chain.files (t.parts ++ [t.part]) ≤ durCount s'.chain.files
    (t'.parts ++ [t'.part]))
    (hruns : ∀ id, runDurable s.runs id ≤ runDurable s'.runs id) : Evolves s t more s' t' := by
  refine ⟨[], by simp [hhist], by simp [hlanded], fun l => ?_⟩
  cases l with
  | none =>
      rw [durable, durable, hcut, countIn_nil]
      omega
  | some id =>
      rw [durable, durable, countIn_nil, Nat.zero_add]
      exact hruns id

/-- The log behind a batch. -/
lemma LogOk.commit (h : LogOk s t) (hne : b ≠ []) (hfit : ∀ r ∈ b, r.bodyLen < 2 ^ 32)
    (hroom : s.chain.wal.seq + (b.length + 1) < 2 ^ 64) (hchain : s'.chain = s.chain.commit b)
    (hsealing : s'.sealing = s.sealing) (hclosed : s'.closedWals = s.closedWals)
    (hcovered : s'.covered = s.covered) :
    LogOk s' (t.logged b) ∧
      durCount s.chain.files (t.parts ++ [t.part])
        ≤ durCount s'.chain.files ((t.logged b).parts ++ [(t.logged b).part]) := by
  obtain ⟨hok, hdur⟩ := h.chain.commit hne hfit hroom
  have hcut : (t.logged b).cut = t.cut := rfl
  rw [hchain]
  refine ⟨⟨?_, ?_, ?_, ?_, ?_, ?_, ?_⟩, hdur⟩
  · rw [hchain]
    exact hok
  · rw [hchain]
    exact h.ids
  · rw [hchain, hsealing, hclosed]
    exact h.wals
  · rw [Trail.logged_log, List.length_append]
    exact h.cut.trans (Nat.le_add_right _ _)
  · rw [Trail.logged_log, hcut, List.take_append_of_le_length h.cut, hcovered]
    exact h.covered
  · rw [Trail.logged_log, hcut, List.drop_append_of_le_length h.cut, Trail.logged_hist,
      walOf_append, h.above]
    rfl
  · rw [hcovered, hsealing]
    exact h.seals

/-- The log behind a rotation. -/
lemma LogOk.rotated (h : LogOk s t) (hframes : s.chain.owes = true → 8 < s.chain.wal.file.length) :
    LogOk s.rotate t.rotated ∧
      durCount s.chain.files (t.parts ++ [t.part])
        ≤ durCount s.rotate.chain.files (t.rotated.parts ++ [t.rotated.part]) := by
  obtain ⟨hok, hdur⟩ := h.chain.rotate hframes
  refine ⟨⟨hok, ?_, ?_, ?_, ?_, ?_, h.seals.parts_append⟩, hdur⟩
  · show ((s.chain.closed ++ [_]).map LogFile.id ++ [s.chain.id + 1]).Pairwise (· < ·)
    have hids := h.ids
    rw [List.map_append, List.map_singleton, List.pairwise_append]
    refine ⟨hids, List.pairwise_singleton _ _, ?_⟩
    intro i hi i' hi'
    rw [List.mem_singleton.mp hi']
    rcases List.mem_append.mp hi with hi | hi
    · exact (List.pairwise_append.mp hids).2.2 i hi s.chain.id (List.mem_singleton_self _) |>.trans
        (Nat.lt_succ_self _)
    · rw [List.mem_singleton.mp hi]
      exact Nat.lt_succ_self _
  · show (s.chain.closed ++ [_]).map LogFile.id = _
    rw [List.map_append, h.wals, List.append_assoc]
    rfl
  · rw [Trail.rotated_log]
    exact h.cut
  · rw [Trail.rotated_log]
    exact h.covered
  · rw [Trail.rotated_log]
    exact h.above

lemma map_id_syncFirst (fs : List LogFile) : (syncFirst fs).map LogFile.id = fs.map LogFile.id := by
  induction fs with
  | nil => rfl
  | cons f fs ih =>
      rw [syncFirst]
      split_ifs
      · rfl
      · rw [List.map_cons, List.map_cons, ih]

/-- The log behind a sync's next operation. -/
lemma LogOk.syncLog (h : LogOk s t) :
    LogOk s.syncLog.1 t ∧
      durCount s.chain.files (t.parts ++ [t.part]) ≤ durCount s.syncLog.1.chain.files
      (t.parts ++ [t.part]) := by
  rw [Store.syncLog]
  by_cases howes : s.chain.owes = true
  · rw [if_pos howes]
    obtain ⟨hok, hdur⟩ := h.chain.syncOwed
    have hids : s.chain.syncOwed.closed.map LogFile.id = s.chain.closed.map LogFile.id :=
      map_id_syncFirst _
    refine ⟨⟨hok, ?_, ?_, h.cut, h.covered, h.above, h.seals⟩, hdur⟩
    · show (s.chain.syncOwed.closed.map LogFile.id ++ [s.chain.id]).Pairwise (· < ·)
      rw [hids]
      exact h.ids
    · show s.chain.syncOwed.closed.map LogFile.id = _
      rw [hids]
      exact h.wals
  · rw [if_neg howes]
    have hno : s.chain.owes = false := Bool.not_eq_true _ ▸ howes
    split_ifs with hloose
    · obtain ⟨hok, hdur⟩ := h.chain.chainHeader hno
      have hsame : s.chain.chainHeader.closed = s.chain.closed ∧ s.chain.chainHeader.id = s.chain.id := by
        rw [Chain.chainHeader, if_pos hloose]
        exact ⟨rfl, rfl⟩
      refine ⟨⟨hok, ?_, ?_, h.cut, h.covered, h.above, h.seals⟩, hdur⟩
      · show (s.chain.chainHeader.closed.map LogFile.id ++ [s.chain.chainHeader.id]).Pairwise (· < ·)
        rw [hsame.1, hsame.2]
        exact h.ids
      · show s.chain.chainHeader.closed.map LogFile.id = _
        rw [hsame.1]
        exact h.wals
    · obtain ⟨hok, hdur⟩ := h.chain.syncLive hno (Bool.not_eq_true _ ▸ hloose)
      refine ⟨⟨hok, h.ids, h.wals, h.cut, h.covered, h.above, h.seals⟩, ?_⟩
      show _ ≤ durCount s.chain.syncLive.files (t.parts ++ [t.part])
      rw [hdur]
      exact durCount_le h.chain.files_whole

/-- Behind the last of a sync's operations every frame is synced. -/
lemma syncLog_safe (h : LogOk s t) (hdone : s.syncLog.2 = []) : ∀ f ∈ s.syncLog.1.chain.files,
    f.Safe := by
  rw [Store.syncLog] at hdone ⊢
  by_cases howes : s.chain.owes = true
  · rw [if_pos howes] at hdone
    exact absurd hdone (by simp)
  · rw [if_neg howes] at hdone ⊢
    split_ifs at hdone ⊢
    intro f hf
    rcases List.mem_append.mp hf with hf | hf
    · exact h.chain.safe_of_not_owes (Bool.not_eq_true _ ▸ howes) f hf
    · rw [List.mem_singleton.mp hf]
      exact le_max_left _ _

end Log

/-! ## A batch committed -/

/-- What is staged, as a batch of a log. -/
def batchIn (l : Option ℕ) (staged : List WalRecord) : Option Logged :=
  if staged = [] then none else some (l, staged)

section Batches

variable {s s' : Store} {t : Trail} {staged : List WalRecord}

/-- The live table, hashed, holds what is staged, all of it pending. -/
lemma LiveOk.of_hashed (h : LiveOk s staged t) (hr : RunsOk s t)
    (hordered : s.mem.isOrdered = false) (hhanded : s.handed = false) (hstranded : ¬ s.Stranded) :
    s.mem = .hashed ((t.live.map Prod.snd).flatten ++ staged) ∧ s.direct = none ∧
      s.pending = staged ∧ t.run = none := by
  have hdirect := direct_eq_run hr h hstranded
  cases h with
  | hashed hmem _ hdirect' hpending hrun => exact ⟨hmem, hdirect', hpending, hrun⟩
  | ordered tail hmem => exact absurd hordered (by simp [hmem, MemTable.isOrdered])
  | handed hhanded' => exact absurd hhanded (by simp [hhanded'])
  | stranded r hmem _ hdirect' hrun =>
      rw [hdirect', hrun] at hdirect
      exact absurd hdirect (by simp)

/-- An ordered one holds what its run's file does and, behind it, what is staged. -/
lemma LiveOk.of_ordered (h : LiveOk s staged t) (hr : RunsOk s t)
    (hordered : s.mem.isOrdered = true) (hhanded : s.handed = false) (hstranded : ¬ s.Stranded) :
    ∃ tail, s.mem = .ordered (t.entries ++ tail) ∧ s.committed = t.entries.length ∧ s.pending = [] ∧
      t.live = (t.run.map RunFile.logged).getD [] ∧ staged = tail.map asPut ∧
      ∀ e ∈ t.entries ++ tail, Carried s.opts.direct e := by
  have hdirect := direct_eq_run hr h hstranded
  cases h with
  | hashed hmem => exact absurd hordered (by simp [hmem, MemTable.isOrdered])
  | ordered tail hmem _ _ hcommitted hpending hlive hstaged hcarried =>
      exact ⟨tail, hmem, hcommitted, hpending, hlive, hstaged, hcarried⟩
  | handed hhanded' => exact absurd hhanded (by simp [hhanded'])
  | stranded r hmem _ hdirect' hrun =>
      rw [hdirect', hrun] at hdirect
      exact absurd hdirect (by simp)

/-- The keys behind a batch committed: one of a run's has none a batch of a seal's in the log has.
-/
lemma KeysOk.snoc {t' : Trail} {l : Option ℕ} (h : KeysOk s staged t) (hmem : s'.mem = s.mem)
    (hmax : s'.maxKey = s.maxKey) (hhanded : s'.handed = s.handed)
    (hstranded : s'.Stranded ↔ s.Stranded) (hhist : t'.hist = t.hist ++ [(l, staged)])
    (hlanded : t'.landed = t.landed) (hfrozen : t'.frozen = t.frozen)
    (hrun : ∀ a ∈ t.hist, a.1 = none → l ≠ none → KeysApart a.2 staged) : KeysOk s' [] t' := by
  have hbatches : t'.batches = t.batches ++ [staged] := by
    rw [Trail.batches, Trail.batches, hhist, hlanded, List.map_append, List.append_assoc]
    rfl
  refine ⟨?_, ?_, fun r hr => absurd hr List.not_mem_nil, ?_, ?_⟩
  · rw [hmem]
    exact h.sorted
  · rw [hmax, hbatches]
    intro b hb
    rcases List.mem_append.mp hb with hb | hb
    · exact h.raised b hb
    · rw [List.mem_singleton.mp hb]
      exact h.raisedStaged
  · rw [hhist, List.pairwise_append]
    refine ⟨h.apart, List.pairwise_singleton _ _, ?_⟩
    intro a ha b hb
    rw [List.mem_singleton.mp hb]
    exact hrun a ha
  · rw [hhanded, hstranded, hfrozen, hmem]
    exact h.apartLive

/-- **A batch committed to the log**, if anything is staged. -/
lemma commitLog_inv (h : s.Inv staged t) (hordered : s.mem.isOrdered = false)
    (hhanded : s.handed = false) (hstranded : ¬ s.Stranded)
    (hfit : s.pending ≠ [] → (∀ r ∈ s.pending, r.bodyLen < 2 ^ 32) ∧
      s.chain.wal.seq + (s.pending.length + 1) < 2 ^ 64) (who : Committer) :
    ∃ t', (s.commitLog who).1.Inv [] t' ∧
      Evolves s t (batchIn none staged) (s.commitLog who).1 t' := by
  obtain ⟨hmem, hdirect, hpending, hrun⟩ := h.live.of_hashed h.runs hordered hhanded hstranded
  rw [hpending] at hfit
  by_cases hne : staged = []
  · subst hne
    have hchain : (s.commitLog who).1.chain = s.chain := by
      show s.writeLog.chain = s.chain
      rw [Store.writeLog, if_pos hpending]
    refine ⟨t,
      ⟨h.nonempty, h.segments, h.log.congr hchain rfl rfl rfl, h.runs.congr rfl rfl rfl rfl, ?_,
      h.keys.congr rfl (Or.inr ⟨rfl, fun h1 h2 => ⟨h1, h2⟩⟩)⟩,
      Evolves.refl hchain rfl rfl rfl rfl rfl rfl⟩
    exact .hashed hmem hhanded hdirect rfl hrun
  · obtain ⟨hbody, hroom⟩ := hfit hne
    have hchain : (s.commitLog who).1.chain = s.chain.commit staged := by
      show s.writeLog.chain = s.chain.commit staged
      rw [Store.writeLog, hpending, if_neg hne]
    have hcommit : LogOk (s.commitLog who).1 (t.logged staged) ∧ _ :=
      h.log.commit hne hbody hroom hchain rfl rfl rfl
    obtain ⟨hlog, hdur⟩ := hcommit
    refine ⟨t.logged staged, ⟨?_, h.segments, hlog, ?_, ?_, ?_⟩, ?_⟩
    · intro e he
      rw [Trail.logged_hist] at he
      rcases List.mem_append.mp he with he | he
      · exact h.nonempty e he
      · rw [List.mem_singleton.mp he]
        exact hne
    · refine ⟨h.runs.runs, h.runs.ids, h.runs.next, h.runs.files, h.runs.sorted, ?_⟩
      have hlive := h.runs.live
      have hnone : (t.logged staged).run = none := hrun
      rw [hrun] at hlive
      rw [hnone]
      intro e he
      have he : e ∈ t.live ++ [(none, staged)] := he
      rcases List.mem_append.mp he with he | he
      · exact hlive e he
      · rw [List.mem_singleton.mp he]
    · refine .hashed ?_ hhanded hdirect rfl hrun
      show s.mem = .hashed (((t.live ++ [(none, staged)]).map Prod.snd).flatten ++ [])
      rw [hmem, List.map_append, List.flatten_append, List.append_nil]
      simp
    · exact h.keys.snoc (l := none) rfl rfl rfl Iff.rfl (Trail.logged_hist t staged) rfl rfl
        (fun _ _ _ hcon => absurd rfl hcon)
    · rw [batchIn, if_neg hne]
      exact Evolves.of_le (Trail.logged_hist t staged) rfl rfl hdur (fun _ => le_refl _)

end Batches

section Runs

variable {s s' : Store} {t : Trail} {staged : List WalRecord} {lz : Lz4}

/-- What `commit_direct` does where it returns. -/
lemma commitDirect_cases {more : List Instr} (h : s.commitDirect lz = .ok (s', more)) :
    (s.committed = s.mem.entries.length ∧ s' = s ∧ more = []) ∨
    (s.committed ≠ s.mem.entries.length ∧ ∃ file file' next,
      ((∃ d, s.direct = some d ∧ file = d.file ∧ next = s.nextSeg) ∨
        (s.direct = none ∧ file = .create s.opts.direct s.nextSeg ∧ next = s.nextSeg + 1)) ∧
      file.commit lz s.opts.direct (s.mem.entries.drop s.committed) = .ok file' ∧
      s' = { s with direct := some ⟨file', s.mem.entries.length⟩, nextSeg := next
                    unsynced := s.unsynced + 1 } ∧
      more = if s'.due then [.syncRun] else []) := by
  rw [Store.commitDirect] at h
  by_cases hlen : s.committed = s.mem.entries.length
  · rw [if_pos hlen] at h
    injection h with h
    injection h with h1 h2
    exact Or.inl ⟨hlen, h1.symm, h2.symm⟩
  · rw [if_neg hlen] at h
    refine Or.inr ⟨hlen, ?_⟩
    cases hdirect : s.direct with
    | none =>
        rw [hdirect] at h
        obtain ⟨file', hfile, h⟩ := except_bind_eq_ok.mp h
        injection h with h
        injection h with h1 h2
        refine ⟨_, file', _, Or.inr ⟨rfl, rfl, rfl⟩, hfile, h1.symm, ?_⟩
        rw [← h2, ← h1]
    | some d =>
        rw [hdirect] at h
        obtain ⟨file', hfile, h⟩ := except_bind_eq_ok.mp h
        injection h with h
        injection h with h1 h2
        refine ⟨_, file', _, Or.inl ⟨d, rfl, rfl, rfl⟩, hfile, h1.symm, ?_⟩
        rw [← h2, ← h1]

lemma runDurable_snoc_le {rs : List RunFile} {r r' : RunFile} (hid : r'.id = r.id)
    (hle : r.durable ≤ r'.durable)
    (id : ℕ) : runDurable (rs ++ [r]) id ≤ runDurable (rs ++ [r']) id := by
  rw [runDurable, runDurable, List.find?_append, List.find?_append]
  cases rs.find? (fun r => r.id = id) with
  | some x => exact le_refl _
  | none =>
      by_cases hr : r.id = id
      · simp [hr, hid, hle]
      · simp [hr, hid]

lemma runDurable_le_snoc (rs : List RunFile) (r : RunFile) (id : ℕ) :
    runDurable rs id ≤ runDurable (rs ++ [r]) id := by
  rw [runDurable, runDurable, List.find?_append]
  cases rs.find? (fun r => r.id = id) with
  | some x => exact le_refl _
  | none => exact Nat.zero_le _

lemma logged_snoc {r r' : RunFile} {batch : List (Bytes × Bytes)} (hid : r'.id = r.id)
    (hbatches : r'.batches = r.batches ++ [batch]) : r'.logged
    = r.logged ++ [(some r'.id, batch.map asPut)] := by
  rw [RunFile.logged, RunFile.logged, hbatches, hid, List.map_append]
  rfl

/-- The trail behind a batch in the run's file. -/
def Trail.ran (t : Trail) (r : RunFile) (b : List WalRecord) : Trail :=
  { t with live := t.live ++ [(some r.id, b)], run := some r }

@[simp] lemma Trail.ran_hist (t : Trail) (r : RunFile) (b : List WalRecord) :
    (t.ran r b).hist = t.hist ++ [(some r.id, b)] := by
  rw [Trail.hist, Trail.hist, Trail.ran, List.append_assoc]

/-- The run a batch goes to, and what it has of it then: the one open, or one made for it. -/
lemma commit_run (h : s.Inv staged t) (hdirect : s.direct.map Direct.file = t.run)
    {tail : List (Bytes × Bytes)} (hne : tail ≠ []) (hcarried : ∀ e ∈ tail, Carried s.opts.direct e)
    {file file' : RunFile} {next : ℕ}
    (hfile : (∃ d, s.direct = some d ∧ file = d.file ∧ next = s.nextSeg) ∨
      (s.direct = none ∧ file = .create s.opts.direct s.nextSeg ∧ next = s.nextSeg + 1))
    (hcommit : file.commit lz s.opts.direct tail = .ok file') :
    file'.Ok s.opts.direct ∧ file'.batches = (t.run.map RunFile.batches).getD [] ++ [tail] ∧
      ((s.tmps ++ [file']).map RunFile.id).Pairwise (· < ·) ∧ s.nextSeg ≤ next ∧ file'.id < next ∧
      (t.run.map RunFile.logged).getD [] ++ [(some file'.id, tail.map asPut)] = file'.logged ∧
      ∀ id, runDurable s.runs id ≤ runDurable (s.tmps ++ [file']) id := by
  have hids := h.runs.ids
  have hnext := h.runs.next
  rcases hfile with ⟨d, hd, rfl, rfl⟩ | ⟨hd, rfl, rfl⟩
  · have hruns : s.runs = s.tmps ++ [d.file] := by
      rw [Store.runs, hd]
      rfl
    have hmem : d.file ∈ s.runs := by
      rw [hruns]
      exact List.mem_append_right _ (List.mem_singleton_self _)
    have hrun : t.run = some d.file := by
      rw [← hdirect, hd]
      rfl
    obtain ⟨hok, hid, -, hbatches, hdur⟩ := RunFile.commit_ok (h.runs.files _ hmem) hcarried hcommit
    refine ⟨hok, ?_, ?_, le_refl _, ?_, ?_, ?_⟩
    · rw [hbatches, hrun]
      rfl
    · rw [hruns, List.map_append, List.map_singleton] at hids
      rw [List.map_append, List.map_singleton, hid]
      exact hids
    · rw [hid]
      exact hnext _ hmem
    · rw [hrun]
      exact (logged_snoc hid hbatches).symm
    · rw [hruns]
      exact runDurable_snoc_le hid hdur
  · have hruns : s.runs = s.tmps := by
      rw [Store.runs, hd]
      simp
    have hrun : t.run = none := by
      rw [← hdirect, hd]
      rfl
    have hinline : 0 < s.opts.direct.inlineBytes := by
      obtain ⟨e, he⟩ := List.exists_mem_of_ne_nil _ hne
      have := (hcarried e he).inline.1
      rw [inlines, decide_eq_true_iff] at this
      exact this.1
    obtain ⟨hok, hid, -, hbatches, -⟩ :=
      RunFile.commit_ok (RunFile.create_ok s.opts.direct hinline s.nextSeg) hcarried hcommit
    have hidEq : file'.id = s.nextSeg := hid
    refine ⟨hok, ?_, ?_, Nat.le_succ _, ?_, ?_, ?_⟩
    · rw [hbatches, hrun]
      rfl
    · rw [hruns] at hids hnext
      rw [List.map_append, List.map_singleton, List.pairwise_append]
      refine ⟨hids, List.pairwise_singleton _ _, ?_⟩
      intro i hi i' hi'
      obtain ⟨r, hr, rfl⟩ := List.mem_map.mp hi
      rw [List.mem_singleton.mp hi', hidEq]
      exact hnext r hr
    · rw [hidEq]
      exact Nat.lt_succ_self _
    · rw [hrun]
      exact (logged_snoc hid hbatches).symm
    · rw [hruns]
      exact runDurable_le_snoc _ _

/-- **A batch committed to the run**, if anything is staged. -/
lemma commitDirect_inv (h : s.Inv staged t) (hordered : s.mem.isOrdered = true)
    (hhanded : s.handed = false) (hstranded : ¬ s.Stranded) {more : List Instr}
    (hcommit : s.commitDirect lz = .ok (s', more)) :
    ∃ t', s'.Inv [] t' ∧
    Evolves s t (batchIn (s'.direct.map (fun d => d.file.id)) staged) s' t' := by
  obtain ⟨tail, hmem, hcommitted, hpending, hlive, hstaged, hcarried⟩ :=
    h.live.of_ordered h.runs hordered hhanded hstranded
  have hdirect := direct_eq_run h.runs h.live hstranded
  have hentries : s.mem.entries = t.entries ++ tail := by rw [hmem]; rfl
  rcases commitDirect_cases hcommit with ⟨hlen, rfl, rfl⟩ | ⟨hlen, file, file', next, hfile, hc,
    rfl, rfl⟩
  · have htail : tail = [] := by
      rw [hcommitted, hentries, List.length_append] at hlen
      exact List.length_eq_zero_iff.mp (by omega)
    subst htail
    have hnil : staged = [] := hstaged
    subst hnil
    exact ⟨t, h, Evolves.refl rfl rfl rfl rfl rfl rfl rfl⟩
  · have hne : tail ≠ [] := by
      rintro rfl
      rw [hcommitted, hentries, List.append_nil] at hlen
      exact hlen rfl
    have hdrop : s.mem.entries.drop s.committed = tail := by
      rw [hentries, hcommitted, List.drop_left]
    rw [hdrop] at hc
    obtain ⟨hok, hbatches, hids, hnext, hlt, hlogged, hdur⟩ :=
      commit_run h hdirect hne (fun e he => hcarried e (List.mem_append_right _ he)) hfile hc
    have hstagedNe : staged ≠ [] := by
      rw [hstaged]
      simpa using hne
    have hflat : file'.batches.flatten = s.mem.entries := by
      rw [hbatches, List.flatten_append, hentries, Trail.entries, List.flatten_singleton]
      cases t.run <;> rfl
    have htmps : s.tmps = s.sealing.filterMap InFlight.file := by
      obtain ⟨rest, htmps, hrest⟩ := tmps_eq h.runs h.live
      rw [hdirect] at hrest
      have hnil : rest = [] := by simpa using hrest
      rw [htmps, hnil, List.append_nil]
    have hmemRuns : ∀ r ∈ s.tmps ++ [file'], r ∈ s.runs ∨ r = file' := by
      intro r hr
      rcases List.mem_append.mp hr with hr | hr
      · exact Or.inl (List.mem_append_left _ hr)
      · exact Or.inr (List.mem_singleton.mp hr)
    refine ⟨t.ran file' staged,
      ⟨?_, h.segments, ⟨h.log.chain, h.log.ids, h.log.wals, h.log.cut, h.log.covered,
      ?_, h.log.seals⟩, ⟨?_, hids, ?_, ?_, ?_, ?_⟩, ?_, ?_⟩, ?_⟩
    · intro e he
      rw [Trail.ran_hist] at he
      rcases List.mem_append.mp he with he | he
      · exact h.nonempty e he
      · rw [List.mem_singleton.mp he]
        exact hstagedNe
    · rw [Trail.ran_hist, walOf_append]
      show t.log.drop t.cut = walOf t.hist ++ []
      rw [List.append_nil]
      exact h.log.above
    · show s.tmps ++ [file'] = s.sealing.filterMap InFlight.file ++ [file']
      rw [htmps]
    · intro r hr
      rcases hmemRuns r hr with hr | rfl
      · exact (h.runs.next r hr).trans_le hnext
      · exact hlt
    · intro r hr
      rcases hmemRuns r hr with hr | rfl
      · exact h.runs.files r hr
      · exact hok
    · intro r hr
      rcases hmemRuns r hr with hr | rfl
      · exact h.runs.sorted r hr
      · rw [hflat]
        exact h.keys.sorted
    · refine ⟨?_, by rw [hbatches]; simp⟩
      show t.live ++ [(some file'.id, staged)] = file'.logged
      rw [hlive, hstaged, hlogged]
    · refine .ordered [] ?_ hhanded rfl ?_ hpending ?_ rfl ?_
      · show s.mem = .ordered (file'.batches.flatten ++ [])
        rw [hflat, List.append_nil, hentries, hmem]
      · show s.mem.entries.length = file'.batches.flatten.length
        rw [hflat]
      · show t.live ++ [(some file'.id, staged)] = file'.logged
        rw [hlive, hstaged, hlogged]
      · intro e he
        have he : e ∈ file'.batches.flatten ++ [] := he
        rw [hflat, List.append_nil, hentries] at he
        exact hcarried e he
    · have hsame : ∀ st : Store, st.tmps = s.tmps → st.sealing = s.sealing → (st.Stranded ↔ s.Stranded) := by
        intro st h1 h2
        rw [Store.Stranded, Store.Stranded, h1, h2]
      refine h.keys.snoc (l := some file'.id) rfl rfl rfl (hsame _ rfl rfl) (Trail.ran_hist t file' staged) rfl rfl ?_
      intro a ha hnone _
      rw [Trail.hist] at ha
      rcases List.mem_append.mp ha with ha | ha
      · intro r hr r' hr'
        refine h.keys.apartLive hhanded hstranded a ha hnone r hr r' ?_
        rw [hentries, List.map_append, ← hstaged]
        exact List.mem_append_right _ hr'
      · rw [hlive] at ha
        cases hrun : t.run with
        | none =>
            rw [hrun] at ha
            exact absurd ha List.not_mem_nil
        | some r =>
            rw [hrun] at ha
            obtain ⟨b, -, rfl⟩ := List.mem_map.mp (ha : a ∈ r.logged)
            exact absurd hnone (by simp)
    · rw [batchIn, if_neg hstagedNe]
      exact Evolves.of_le (Trail.ran_hist t file' staged) rfl rfl (le_refl _) hdur

/-- A sync of the run makes each batch of it durable. -/
lemma syncRun_inv (h : s.Inv staged t) :
    ∃ t', s.syncRun.Inv staged t' ∧ Evolves s t none s.syncRun t' ∧
      ∀ d ∈ s.syncRun.direct, d.file.durable = d.file.batches.length := by
  cases hdirect : s.direct with
  | none =>
      have hsync : s.syncRun = { s with direct := none, unsynced := 0 } := by
        rw [Store.syncRun, hdirect]
        rfl
      have hruns : s.syncRun.runs = s.runs := by
        rw [hsync, Store.runs, Store.runs, hdirect]
      refine ⟨t, ⟨h.nonempty, h.segments, h.log.congr rfl rfl rfl rfl, h.runs.congr hruns rfl rfl rfl, ?_,
        h.keys.congr rfl (Or.inr ⟨rfl, fun h1 h2 => ⟨h1, h2⟩⟩)⟩,
        Evolves.refl rfl hruns rfl rfl rfl rfl rfl, ?_⟩
      · rw [hsync]
        cases h.live with
        | hashed hmem hhanded _ hpending hrun => exact .hashed hmem hhanded rfl hpending hrun
        | ordered tail hmem hhanded hdir hcommitted hpending hlive hstaged hcarried =>
            rw [hdirect] at hdir
            refine .ordered tail hmem hhanded hdir ?_ hpending hlive hstaged hcarried
            rw [← hcommitted, Store.committed, Store.committed, hdirect]
        | handed hhanded _ hpending hrun hlive hstaged hmem =>
            exact .handed hhanded rfl hpending hrun hlive hstaged hmem
        | stranded r hmem hhanded _ hrun hlive => exact .stranded r hmem hhanded rfl hrun hlive
      · rw [hsync]
        exact fun d hd => absurd hd (by simp)
  | some d =>
      have hmemRuns : d.file ∈ s.runs := by
        rw [Store.runs, hdirect]
        exact List.mem_append_right _ (List.mem_singleton_self _)
      obtain ⟨hok, hbatches, hdur⟩ := RunFile.sync_ok (h.runs.files _ hmemRuns)
      have hsync : s.syncRun = { s with direct := some { d with file := d.file.sync }, unsynced := 0 } := by
        rw [Store.syncRun, hdirect]
        rfl
      have hruns : s.runs = s.tmps ++ [d.file] := by
        rw [Store.runs, hdirect]
        rfl
      have hruns' : s.syncRun.runs = s.tmps ++ [d.file.sync] := by
        rw [hsync]
        rfl
      obtain ⟨hrun, hcommitted, tail, hmem, hhanded, hpending, hlive, hstaged, hcarried⟩ :
          t.run = some d.file ∧ s.committed = t.entries.length ∧ ∃ tail, s.mem = .ordered (t.entries ++ tail) ∧
            s.handed = false ∧ s.pending = [] ∧ t.live = (t.run.map RunFile.logged).getD [] ∧
            staged = tail.map asPut ∧ ∀ e ∈ t.entries ++ tail, Carried s.opts.direct e := by
        cases h.live with
        | hashed _ _ hdir => exact absurd (hdirect.symm.trans hdir) (by simp)
        | ordered tail hmem hhanded hdir hcommitted hpending hlive hstaged hcarried =>
            rw [hdirect] at hdir
            exact ⟨hdir.symm, hcommitted, tail, hmem, hhanded, hpending, hlive, hstaged, hcarried⟩
        | handed _ hdir => exact absurd (hdirect.symm.trans hdir) (by simp)
        | stranded r _ _ hdir => exact absurd (hdirect.symm.trans hdir) (by simp)
      have hlogged : d.file.sync.logged = d.file.logged := rfl
      have hentries : Trail.entries { t with run := some d.file.sync } = t.entries := by
        rw [Trail.entries, Trail.entries, hrun]
        rfl
      have hmem' : ∀ r ∈ s.syncRun.runs, r ∈ s.runs ∨ r = d.file.sync := by
        rw [hruns', hruns]
        intro r hr
        rcases List.mem_append.mp hr with hr | hr
        · exact Or.inl (List.mem_append_left _ hr)
        · exact Or.inr (List.mem_singleton.mp hr)
      have hnext : s.syncRun.nextSeg = s.nextSeg := rfl
      refine ⟨{ t with run := some d.file.sync }, ⟨h.nonempty, h.segments,
        ⟨h.log.chain, h.log.ids, h.log.wals, h.log.cut, h.log.covered, h.log.above, h.log.seals⟩,
        ⟨?_, ?_, ?_, ?_, ?_, ?_⟩, ?_, ?_⟩, ?_, ?_⟩
      · have := h.runs.runs
        rw [hruns, hrun] at this
        rw [hruns', List.append_cancel_right (this : s.tmps ++ [d.file] = _ ++ [d.file])]
        rfl
      · have hids := h.runs.ids
        rw [hruns, List.map_append] at hids
        rw [hruns', List.map_append]
        exact hids
      · intro r hr
        rcases hmem' r hr with hr | rfl
        · exact h.runs.next r hr
        · exact h.runs.next d.file hmemRuns
      · intro r hr
        rcases hmem' r hr with hr | rfl
        · exact h.runs.files r hr
        · exact hok
      · intro r hr
        rcases hmem' r hr with hr | rfl
        · exact h.runs.sorted r hr
        · exact h.runs.sorted d.file hmemRuns
      · have hl := h.runs.live
        rw [hrun] at hl
        exact hl
      · rw [hsync]
        refine .ordered tail ?_ hhanded rfl ?_ hpending ?_ hstaged ?_
        · rw [hentries]
          exact hmem
        · rw [hentries, ← hcommitted, Store.committed, Store.committed, hdirect]
          rfl
        · rw [hlive, hrun]
          rfl
        · rw [hentries]
          exact hcarried
      · exact ⟨h.keys.sorted, h.keys.raised, h.keys.raisedStaged, h.keys.apart, h.keys.apartLive⟩
      · refine Evolves.of_le (by simp [Trail.hist]) rfl rfl (le_refl _) ?_
        rw [hruns, hruns']
        refine runDurable_snoc_le rfl ?_
        rw [hdur]
        exact d.file.whole_le _
      · rw [hsync]
        intro d' hd'
        rw [← Option.mem_some.mp hd']
        exact hdur

end Runs

/-! ## Seals -/

section Seals

variable {s s' : Store} {t t' : Trail} {staged : List WalRecord}

/-- The live table where nothing of it changes. -/
lemma LiveOk.congr (h : LiveOk s staged t) (hmem : s'.mem = s.mem) (hhanded : s'.handed = s.handed)
    (hdirect : s'.direct = s.direct) (hpending : s'.pending = s.pending) (hopts : s'.opts = s.opts)
    (hsealing : s'.sealing = s.sealing) (hlive : t'.live = t.live) (hrun : t'.run = t.run) :
    LiveOk s' staged t' := by
  have hentries : t'.entries = t.entries := by rw [Trail.entries, Trail.entries, hrun]
  cases h with
  | hashed h1 h2 h3 h4 h5 =>
      refine .hashed ?_ (hhanded.trans h2) (hdirect.trans h3) (hpending.trans h4) (hrun.trans h5)
      rw [hmem, hlive]
      exact h1
  | ordered tail h1 h2 h3 h4 h5 h6 h7 h8 =>
      refine .ordered tail ?_ (hhanded.trans h2) ?_ ?_ (hpending.trans h5) ?_ h7 ?_
      · rw [hmem, hentries]
        exact h1
      · rw [hdirect, hrun]
        exact h3
      · rw [Store.committed, hdirect, hentries]
        exact h4
      · rw [hlive, hrun]
        exact h6
      · rw [hentries, hopts]
        exact h8
  | handed h1 h2 h3 h4 h5 h6 h7 =>
      refine .handed (hhanded.trans h1) (hdirect.trans h2) (hpending.trans h3) (hrun.trans h4)
        (hlive.trans h5) h6 ?_
      rw [hmem, hsealing]
      exact h7
  | stranded r h1 h2 h3 h4 h5 =>
      refine .stranded r ?_ (hhanded.trans h2) (hdirect.trans h3) (hrun.trans h4) (hlive.trans h5)
      rw [hmem, hlive]
      exact h1

/-- The writer's error and its count of commits are no part of this. -/
lemma Store.Inv.counted (h : s.Inv staged t) (err : Bool) (n : ℕ) :
    Store.Inv { s with pendingErr := err, unsynced := n } staged t :=
  ⟨h.nonempty, h.segments, h.log.congr rfl rfl rfl rfl, h.runs.congr rfl rfl rfl rfl,
    h.live.congr rfl rfl rfl rfl rfl rfl rfl rfl,
    h.keys.congr rfl (Or.inr ⟨rfl, fun h1 h2 => ⟨h1, h2⟩⟩)⟩

/-- A rotation opens a log file and moves no batch. -/
lemma rotate_inv (h : s.Inv staged t)
    (hframes : s.chain.owes = true → 8 < s.chain.wal.file.length) :
    s.rotate.Inv staged t.rotated ∧ Evolves s t none s.rotate t.rotated := by
  obtain ⟨hlog, hdur⟩ := h.log.rotated hframes
  refine ⟨⟨h.nonempty, h.segments, hlog,
    ⟨h.runs.runs, h.runs.ids, h.runs.next, h.runs.files, h.runs.sorted, h.runs.live⟩,
    h.live.congr rfl rfl rfl rfl rfl rfl rfl rfl,
    ⟨h.keys.sorted, h.keys.raised, h.keys.raisedStaged, h.keys.apart, h.keys.apartLive⟩⟩, ?_⟩
  exact Evolves.of_le (by simp) rfl rfl hdur (fun _ => le_refl _)

/-- The seal of a hashed table, which is replaced, or stays the live one, handed. -/
lemma seal_inv (h : s.Inv [] t) (hordered : s.mem.isOrdered = false) (hhanded : s.handed = false)
    (hstranded : ¬ s.Stranded) {m : MemTable} {handed : Bool}
    (hm : m = .fresh ∧ handed = false ∨ m = s.mem ∧ handed = true) :
    Store.Inv { s with mem := m, handed := handed, closedWals := []
                       sealing := s.sealing ++ [⟨s.mem, none, s.chain.wal.seq, s.closedWals⟩] } [] t.sealed ∧
      Evolves s t none { s with mem := m, handed := handed, closedWals := []
                                sealing := s.sealing ++ [⟨s.mem, none, s.chain.wal.seq, s.closedWals⟩] }
        t.sealed := by
  obtain ⟨hmem, hdirect, hpending, hrun⟩ := h.live.of_hashed h.runs hordered hhanded hstranded
  have hlive : ∀ e ∈ t.live, e.1 = none := by
    have hl := h.runs.live
    rw [hrun] at hl
    exact hl
  have hholds : InFlight.Holds ⟨s.mem, none, s.chain.wal.seq, s.closedWals⟩ t.live := by
    refine ⟨hlive, ?_⟩
    rw [hmem, List.append_nil]
  refine ⟨⟨?_, h.segments, h.log.sealed hholds rfl rfl rfl rfl rfl rfl,
    h.runs.sealed (j := ⟨s.mem, none, s.chain.wal.seq, s.closedWals⟩) hrun.symm rfl rfl rfl rfl, ?_,
    ?_⟩, Evolves.refl rfl rfl (Trail.sealed_hist t) rfl rfl rfl rfl⟩
  · rw [Trail.sealed_hist]
    exact h.nonempty
  · rcases hm with ⟨rfl, rfl⟩ | ⟨rfl, rfl⟩
    · exact .hashed rfl rfl hdirect hpending rfl
    · refine .handed rfl hdirect hpending rfl rfl rfl ?_
      simp
  · refine h.keys.sealed rfl ?_
    rcases hm with ⟨rfl, rfl⟩ | ⟨rfl, rfl⟩
    · exact Or.inl rfl
    · exact Or.inr ⟨rfl, rfl⟩

/-- The seal of a run, whose table stays the live one, handed. -/
lemma handRun_inv (h : s.Inv [] t) (hordered : s.mem.isOrdered = true) (hhanded : s.handed = false)
    (hstranded : ¬ s.Stranded) {d : Direct} (hd : s.direct = some d) :
    Store.Inv { ({ s with direct := none }).closeRun d s.mem with handed := true } [] t.sealed ∧
      Evolves s t none { ({ s with direct := none }).closeRun d s.mem with handed := true }
      t.sealed := by
  obtain ⟨tail, hmem, hcommitted, hpending, hlive, hstaged, hcarried⟩ :=
    h.live.of_ordered h.runs hordered hhanded hstranded
  have hrun : t.run = some d.file := by
    rw [← direct_eq_run h.runs h.live hstranded, hd]
    rfl
  have htail : tail = [] := by simpa using hstaged.symm
  have hruns : s.tmps ++ [d.file] ++ [] = s.runs := by
    rw [Store.runs, hd, List.append_nil]
    rfl
  have hholds : InFlight.Holds ⟨s.mem, some d.file, s.chain.wal.seq, s.closedWals⟩ t.live := by
    refine ⟨?_, ?_⟩
    · rw [hlive, hrun]
      rfl
    · rw [hmem, htail, List.append_nil, Trail.entries, hrun]
      rfl
  refine ⟨⟨?_, h.segments, h.log.sealed hholds rfl rfl rfl rfl rfl rfl,
    h.runs.sealed (j := ⟨s.mem, some d.file, s.chain.wal.seq, s.closedWals⟩) hrun.symm hruns rfl
    rfl rfl, ?_, h.keys.sealed rfl (Or.inr ⟨rfl, rfl⟩)⟩,
    Evolves.refl rfl hruns (Trail.sealed_hist t) rfl rfl rfl rfl⟩
  · rw [Trail.sealed_hist]
    exact h.nonempty
  · refine .handed rfl rfl hpending rfl rfl rfl ?_
    simp [Store.closeRun]

/-- A run's close with nothing behind its last commit is what `leave_direct` does there. -/
lemma closeDirect_eq (hordered : s.mem.isOrdered = true) (hlen : s.committed = s.mem.entries.length)
    (fails : Bool) : (s.closeDirect fails).1
    = { s.leaveDirect fails with pendingErr := s.pendingErr } := by
  cases hmem : s.mem with
  | hashed ops => exact absurd hordered (by simp [hmem, MemTable.isOrdered])
  | ordered es =>
      rw [hmem, Store.committed] at hlen
      cases hdirect : s.direct with
      | none =>
          rw [hdirect] at hlen
          have hes : es = [] := List.length_eq_zero_iff.mp hlen.symm
          subst hes
          rw [leaveDirect_none fails hmem hdirect, Store.closeDirect, hdirect]
          simp [MemTable.fresh]
      | some d =>
          rw [hdirect] at hlen
          have hdrop : es.drop d.committed = [] := List.drop_of_length_le hlen.ge
          have htake : es.take d.committed = es := List.take_of_length_le hlen.ge
          cases fails with
          | true =>
              rw [leaveDirect_fails hmem hdirect, hdrop, Store.closeDirect, hdirect]
              simp [hmem]
          | false =>
              rw [leaveDirect_closes hmem hdirect, hdrop, htake, Store.closeDirect, hdirect]
              simp [hmem, Store.closeRun, MemTable.fresh]

/-- The close of a run behind its last commit. -/
lemma closeDirect_inv (h : s.Inv [] t) (hordered : s.mem.isOrdered = true)
    (hhanded : s.handed = false) (hstranded : ¬ s.Stranded) (fails : Bool) :
    ∃ t', (s.closeDirect fails).1.Inv [] t' ∧ Evolves s t none (s.closeDirect fails).1 t' := by
  obtain ⟨tail, hmem, hcommitted, -, -, hstaged, -⟩ :=
    h.live.of_ordered h.runs hordered hhanded hstranded
  have htail : tail = [] := by simpa using hstaged.symm
  have hlen : s.committed = s.mem.entries.length := by
    rw [hcommitted, hmem, htail, List.append_nil]
    rfl
  obtain ⟨u, hleave, hev, -⟩ := leaveDirect_inv h hordered hhanded fails
  rw [closeDirect_eq hordered hlen]
  exact ⟨u, hleave.counted s.pendingErr _, hev.trans (Evolves.refl rfl rfl rfl rfl rfl rfl rfl)⟩

end Seals

end Supdb
