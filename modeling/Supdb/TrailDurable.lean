import Supdb.TrailRecovers

/-!
# What the syncs cover

Where the policy syncs every commit, everything committed is durable but the log whose sync the call
under way has yet to make.

* `log_durable`, `run_durable` – a log whose every frame is synced, a run's file whose every batch
  is.
* `batch_synced` – a batch written is followed by its sync.
* `step_each` – **under such a policy** the invariant is one of every event.
-/

namespace Supdb

open StorageLib

section Durable

variable {s : Store} {t : Trail} {staged : List WalRecord}

/-- A log whose every frame is synced is durable. -/
lemma log_durable (h : s.Inv staged t) (hsafe : ∀ f ∈ s.chain.files, f.Safe) :
    countIn none t.hist ≤ durable s t none := by
  have hfull := durCount_of_safe (whole_length h.log.chain.files_whole) hsafe
  have hcount : countIn none t.hist = t.log.length - t.cut := by
    rw [countIn_none, ← h.log.above, List.length_drop]
  rw [durable, hfull, hcount]
  exact le_refl _

/-- One that is covered whole has nothing left to lose. -/
lemma log_durable_of_covered (h : s.Inv staged t) (hcovered : s.covered = s.chain.wal.seq) :
    countIn none t.hist ≤ durable s t none := by
  have hseq := h.log.seq
  have hnil : walOf t.hist = [] := by
    cases hw : walOf t.hist with
    | nil => rfl
    | cons b bs =>
        rw [hw, frameCount_cons, hcovered] at hseq
        omega
  rw [countIn_none, hnil]
  exact Nat.zero_le _

/-- A run's file whose every batch is synced is durable. -/
lemma run_durable (h : s.Inv staged t) {id : ℕ}
    (hall : ∀ r ∈ s.runs, r.id = id → r.durable = r.batches.length) :
    countIn (some id) t.hist ≤ durable s t (some id) := by
  rw [countIn_run h.log h.runs, durable, runDurable]
  cases hfind : s.runs.find? (fun r => r.id = id) with
  | none => exact le_refl _
  | some r =>
      have hid : r.id = id := by simpa using List.find?_some hfind
      exact (hall r (List.mem_of_find?_eq_some hfind) hid).ge

/-- A batch written to the log is not synced yet. -/
lemma commit_framesUnsynced {b : List WalRecord} (h : LogOk s t) (hne : b ≠ [])
    (hroom : s.chain.wal.seq + (b.length + 1) < 2 ^ 64) : (s.chain.commit b).framesUnsynced
    = true := by
  obtain ⟨kind, -, -, hwal⟩ := h.chain.wal
  have hpending : s.chain.wal.pending = [] := by rw [hwal]
  have hfile : (s.chain.commit b).wal.file
      = s.chain.wal.file ++ Wal.batchBytes s.chain.wal.seed s.chain.wal.seq b := by
    rw [Chain.commit, Wal.commitBatch_eq hne _ hpending (by omega)]
  have hpos := @batchBytes_pos s.chain.wal.seed s.chain.wal.seq b
  have h8 := h.chain.length_file
  have hbelieved : s.chain.believed ≤ s.chain.wal.file.length :=
    h.chain.believed.trans h.chain.wf_live.1
  rw [Chain.framesUnsynced, decide_eq_true_iff, hfile, List.length_append]
  show max s.chain.believed 8 < _
  omega

end Durable

/-! ## A policy that syncs every commit -/

/-- The log an instruction syncs. -/
def Instr.Syncs (s : Store) (l : Option ℕ) : Instr → Prop
  | .syncLog => l = none
  | .syncRun => l ≠ none ∧ l = s.direct.map (fun d => d.file.id)
  | _ => False

/-- The log whose sync the call under way makes next. -/
def Owed (h : History) (l : Option ℕ) : Prop := ∃ i ∈ h.todo.head?, i.Syncs h.store l

section Each

variable {lz : Lz4} {s s' : Store} {h h' : History} {t : Trail} {staged : List WalRecord}

lemma due_of_each (heach : s.opts.sync.Each) (hunsynced : 0 < s.unsynced) : s.due = true := by
  rw [Store.due]
  cases hsync : s.opts.sync with
  | always => rfl
  | everyN n =>
      rw [hsync] at heach
      have hn : n ≤ 1 := heach
      simp only [decide_eq_true_eq]
      omega

/-- A batch written to the log is followed by its sync. -/
lemma commitLog_syncs (h : s.Inv staged t) (heach : s.opts.sync.Each) (hne : s.pending ≠ [])
    (hroom : s.chain.wal.seq + (s.pending.length + 1) < 2 ^ 64) (who : Committer) :
    (s.commitLog who).2 = [.syncLog] := by
  have hframes := commit_framesUnsynced h.log hne hroom
  have hdue : Store.due { s.writeLog with unsynced := s.unsynced + 1 } = true :=
    due_of_each heach (Nat.succ_pos _)
  have howes : Store.logOwes { s.writeLog with unsynced := s.unsynced + 1 } = true := by
    rw [Store.logOwes, Store.writeLog, if_neg hne, hframes]
    rfl
  cases who with
  | commit => simp [Store.commitLog, hdue]
  | staged => simp [Store.commitLog, hne, hdue, howes]
  | sealing =>
      have hopts : s.writeLog.opts = s.opts := rfl
      cases hsync : s.opts.sync with
      | always => simp [Store.commitLog, hne, hopts, hsync]
      | everyN n =>
          simp only [Store.commitLog, hne, hopts, hsync, ne_eq, not_false_eq_true, decide_true, or_true, if_true]
          exact if_pos (Bool.or_eq_true_iff.mpr (Or.inr hdue))

/-- A batch written to the run is followed by its sync, and is the last of its file. -/
lemma commitDirect_syncs {more : List Instr} (h : s.Inv staged t)
    (hordered : s.mem.isOrdered = true) (hhanded : s.handed = false) (hstranded : ¬ s.Stranded)
    (heach : s.opts.sync.Each) (hne : staged ≠ [])
    (hcommit : s.commitDirect lz = .ok (s', more)) : more = [.syncRun] ∧
    ∃ d, s'.direct = some d := by
  obtain ⟨tail, hmem, hcommitted, -, -, hstaged, -⟩ :=
    h.live.of_ordered h.runs hordered hhanded hstranded
  rcases commitDirect_cases hcommit with ⟨hlen, -, -⟩ | ⟨-, file, file', next, -, -, rfl, rfl⟩
  · have htail : tail = [] := by
      rw [hcommitted, hmem, MemTable.entries, List.length_append] at hlen
      exact List.length_eq_zero_iff.mp (by omega)
    exact absurd (by rw [hstaged, htail]; rfl) hne
  · have hdue : Store.due { s with direct := some ⟨file', s.mem.entries.length⟩, nextSeg := next
                                   unsynced := s.unsynced + 1 } = true :=
      due_of_each heach (Nat.succ_pos _)
    exact ⟨if_pos hdue, _, rfl⟩

/-- The open run is the only one of its id. -/
lemma direct_unique (h : RunsOk s t) {d : Direct} (hd : s.direct = some d) :
    ∀ r ∈ s.runs, r.id = d.file.id → r = d.file := by
  intro r hr hid
  have hmem : d.file ∈ s.runs := by
    rw [Store.runs, hd]
    exact List.mem_append_right _ (List.mem_singleton_self _)
  have h1 := find?_run h.ids hr
  have h2 := find?_run h.ids hmem
  rw [hid, h2] at h1
  exact (Option.some.inj h1).symm

/-- The options are what they were. -/
lemma leaveDirect_opts (s : Store) (fails : Bool) : (s.leaveDirect fails).opts = s.opts := by
  simp only [Store.leaveDirect, Store.closeDirect]
  split
  · rfl
  · split_ifs <;> rfl

lemma writesGo_opts (s : Store) : s.writesGo.opts = s.opts := by
  rw [Store.writesGo]
  split_ifs <;> rfl

lemma append_opts (s : Store) (key value : Bytes) (fails : Bool) :
    (s.append key value fails).opts = s.opts := by
  have h1 : ∀ w : Store, (w.appendLogged key value).opts = w.opts := fun _ => rfl
  have h2 : ∀ w : Store, (w.appendDirect key value).opts = w.opts := fun _ => rfl
  rw [Store.append]
  split_ifs <;> simp only [h1, h2, leaveDirect_opts, writesGo_opts]

lemma leftDirect_opts (s : Store) (fails : Bool) : (s.leftDirect fails).opts = s.opts := by
  rw [Store.leftDirect]
  split_ifs <;> simp only [leaveDirect_opts, writesGo_opts]

lemma put_opts {key value : Bytes} {fails : Bool} (h : s.put key value fails = some s') :
    s'.opts = s.opts := by
  obtain ⟨mem, -, h⟩ := Option.bind_eq_some_iff.mp h
  injection h with h
  rw [← h]
  exact leftDirect_opts s fails

lemma delete_opts {key : Bytes} {fails : Bool} (h : s.delete key fails = some s') :
    s'.opts = s.opts := by
  obtain ⟨mem, -, h⟩ := Option.bind_eq_some_iff.mp h
  injection h with h
  rw [← h]
  exact leftDirect_opts s fails

lemma sealTable_opts (s : Store) (table : MemTable) : (s.sealTable table).opts = s.opts := by
  rw [Store.sealTable]
  split_ifs <;> rfl

lemma exec_opts {i : Instr} {more : List Instr} (h : s.exec lz i = .ok (s', more)) :
    s'.opts = s.opts := by
  cases i with
  | commitDirect =>
      rcases commitDirect_cases h with ⟨-, rfl, -⟩ | ⟨-, file, file', next, -, -, rfl, -⟩ <;> rfl
  | commit seals fails =>
      rw [Store.exec] at h
      split_ifs at h <;> injection h with h <;> injection h with h <;> rw [← h]
  | sealing fails =>
      rw [Store.exec] at h
      split_ifs at h <;> injection h with h <;> injection h with h <;> rw [← h]
      exact writesGo_opts s
  | sync hands =>
      rw [Store.exec] at h
      split_ifs at h <;> injection h with h <;> injection h with h <;> rw [← h]
  | commitLog who =>
      injection h with h
      exact (congrArg (fun p : Store × List Instr => p.1.opts) h).symm
  | syncLog =>
      injection h with h
      refine (congrArg (fun p : Store × List Instr => p.1.opts) h).symm.trans ?_
      simp only [Store.syncLog]
      split_ifs <;> rfl
  | syncRun =>
      injection h with h
      exact (congrArg (fun p : Store × List Instr => p.1.opts) h).symm
  | rotateBySize =>
      injection h with h
      refine (congrArg (fun p : Store × List Instr => p.1.opts) h).symm.trans ?_
      split_ifs <;> rfl
  | freeze =>
      injection h with h
      refine (congrArg (fun p : Store × List Instr => p.1.opts) h).symm.trans ?_
      simp only
      split_ifs
      · rfl
      · exact sealTable_opts _ _
  | closeDirect fails =>
      injection h with h
      refine (congrArg (fun p : Store × List Instr => p.1.opts) h).symm.trans ?_
      simp only [Store.closeDirect]
      split
      · rfl
      · split_ifs <;> rfl
  | syncBarrier =>
      injection h with h
      exact (congrArg (fun p : Store × List Instr => p.1.opts) h).symm
  | handTail hands =>
      injection h with h
      refine (congrArg (fun p : Store × List Instr => p.1.opts) h).symm.trans ?_
      simp only
      split_ifs
      · rw [Store.handTail]
        split_ifs
        · split <;> rfl
        · exact sealTable_opts _ s.mem
      · rfl

lemma land_opts (s : Store) : s.land.opts = s.opts := by
  rw [Store.land]
  cases s.sealing <;> rfl

lemma step_opts {e : Event} (hstep : h.step lz e = .ok h') : h'.store.opts = h.store.opts := by
  cases e with
  | append key value fails =>
      injection hstep with hstep
      rw [← hstep]
      split_ifs
      · exact append_opts _ _ _ _
      · rfl
  | put key value fails =>
      injection hstep with hstep
      rw [← hstep]
      split_ifs
      · cases hput : h.store.put key value fails with
        | none => rfl
        | some s' => exact put_opts hput
      · rfl
  | delete key fails =>
      injection hstep with hstep
      rw [← hstep]
      split_ifs
      · cases hdelete : h.store.delete key fails with
        | none => rfl
        | some s' => exact delete_opts hdelete
      · rfl
  | commit seals fails =>
      injection hstep with hstep
      rw [← hstep]
      split_ifs <;> rfl
  | sealing fails =>
      injection hstep with hstep
      rw [← hstep]
      split_ifs <;> rfl
  | sync hands =>
      injection hstep with hstep
      rw [← hstep]
      split_ifs <;> rfl
  | go =>
      rw [History.step, History.go] at hstep
      cases htodo : h.todo with
      | nil =>
          rw [htodo] at hstep
          injection hstep with hstep
          rw [← hstep]
      | cons i rest =>
          rw [htodo] at hstep
          obtain ⟨⟨s', more⟩, hexec, hstep⟩ := except_bind_eq_ok.mp hstep
          injection hstep with hstep
          rw [← hstep]
          exact exec_opts hexec
  | land =>
      injection hstep with hstep
      rw [← hstep]
      exact land_opts _

/-- Where every commit is synced, everything committed is durable but the log owed its sync. -/
def Each (h : History) (t : Trail) : Prop := h.store.opts.sync.Each ∧ DurableBut (Owed h) h.store t

/-- The instruction under way keeps that: a batch written is owed its sync, and a sync made is owed
no more. -/
lemma go_each {t' : Trail} (h0 : h.Inv t) (hq : Each h t) (hmeets : Event.go.Meets h)
    (hstep : h.go lz = .ok h') (hinv : h'.Inv t')
    (hev : Evolves h.store t (Event.go.wrote h h') h'.store t') :
    DurableBut (Owed h') h'.store t' := by
  obtain ⟨heach, hdur⟩ := hq
  cases htodo : h.todo with
  | nil =>
      rw [History.go, htodo] at hstep
      injection hstep with hstep
      subst hstep
      rw [Event.wrote, htodo] at hev
      exact hev.durableBut hdur
  | cons i rest =>
      obtain ⟨more, hexec, htodo', -, -, hwrote⟩ := go_cons htodo hstep
      have hstoreInv := hinv.store
      have hfits := h0.todo
      rw [htodo] at hfits
      have hi : i.Meets h.store := hmeets i (by rw [htodo]; rfl)
      rw [hwrote] at hev
      generalize hs : h'.store = s' at *
      -- what was durable before stays so, and only a sync of its own makes the rest so
      have hkeep : (∀ l, ¬ Owed h l) → i.wrote h.staged s' = none → DurableBut (Owed h') s' t' := by
        intro hno hnone
        rw [hnone] at hev
        exact (hev.durableBut (hdur.mono hno)).mono (fun _ hcon => hcon.elim)
      have howed : ∀ l, Owed h l ↔ i.Syncs h.store l := by
        intro l
        rw [Owed, htodo]
        simp
      cases i with
      | commitLog who =>
          have hno : ∀ l, ¬ Owed h l := fun l hl => (howed l).mp hl
          obtain ⟨⟨hordered, hhanded, hstranded⟩, -⟩ := hfits
          obtain ⟨-, -, hpending, -⟩ := h0.store.live.of_hashed h0.store.runs hordered hhanded hstranded
          by_cases hne : h.staged = []
          · exact hkeep hno (if_pos hne)
          · have hwritten : Instr.wrote (.commitLog who) h.staged s' = some (none, h.staged) := if_neg hne
            rw [hwritten] at hev
            have hsyncs : more = [.syncLog] := by
              injection hexec with hexec
              have h2 : (h.store.commitLog who).2 = more := congrArg Prod.snd hexec
              rw [← h2]
              rw [← hpending] at hne
              exact commitLog_syncs h0.store heach hne (hi hne).2 who
            refine (hev.durableBut_more (hdur.mono hno)).mono (fun l hl => ?_)
            rw [Owed, htodo', hsyncs, hs]
            exact ⟨.syncLog, rfl, hl⟩
      | commitDirect =>
          have hno : ∀ l, ¬ Owed h l := fun l hl => (howed l).mp hl
          obtain ⟨⟨hordered, hhanded, hstranded⟩, -⟩ := hfits
          by_cases hne : h.staged = []
          · exact hkeep hno (if_pos hne)
          · have hwritten : Instr.wrote .commitDirect h.staged s'
                = some (s'.direct.map (fun d => d.file.id), h.staged) := if_neg hne
            rw [hwritten] at hev
            obtain ⟨hsyncs, d, hd⟩ := commitDirect_syncs h0.store hordered hhanded hstranded heach hne hexec
            refine (hev.durableBut_more (hdur.mono hno)).mono (fun l hl => ?_)
            rw [Owed, htodo', hsyncs, hs]
            exact ⟨.syncRun, rfl, by rw [hl, hd]; simp, hl⟩
      | syncLog =>
          injection hexec with hexec
          have h1 : h.store.syncLog.1 = s' := congrArg Prod.fst hexec
          have h2 : h.store.syncLog.2 = more := congrArg Prod.snd hexec
          have hrest := (hev : Evolves h.store t none s' t').durableBut hdur
          have hmore : more = [.syncLog] ∨ more = [] := by
            rw [← h2, Store.syncLog]
            split_ifs <;> simp
          rcases hmore with hmore | hmore
          · refine hrest.mono (fun l hl => ?_)
            rw [Owed, htodo', hmore, hs]
            exact ⟨.syncLog, rfl, (howed l).mp hl⟩
          · intro l _
            by_cases hl : l = none
            · have hsafe := syncLog_safe h0.store.log (h2.trans hmore)
              rw [h1] at hsafe
              rw [hl]
              exact log_durable hstoreInv hsafe
            · exact hrest l (fun hcon => hl ((howed l).mp hcon))
      | syncRun =>
          obtain ⟨-, -, -, hsynced⟩ := syncRun_inv h0.store
          injection hexec with hexec
          have h1 : h.store.syncRun = s' := congrArg Prod.fst hexec
          have hrest := (hev : Evolves h.store t none s' t').durableBut hdur
          rw [h1] at hsynced
          intro l _
          by_cases hl : Owed h l
          · obtain ⟨hsome, hl⟩ := (howed l).mp hl
            cases hd : h.store.direct with
            | none =>
                rw [hd] at hl
                exact absurd hl hsome
            | some d =>
                have hd' : s'.direct = some { d with file := d.file.sync } := by
                  rw [← h1, Store.syncRun, hd]
                  rfl
                rw [hl, hd]
                refine run_durable hstoreInv (fun r hr hid => ?_)
                rw [direct_unique hstoreInv.runs hd' r hr hid]
                exact hsynced _ hd'
          · exact hrest l hl
      | commit seals fails => exact hkeep (fun l hl => (howed l).mp hl) rfl
      | sealing fails => exact hkeep (fun l hl => (howed l).mp hl) rfl
      | sync hands => exact hkeep (fun l hl => (howed l).mp hl) rfl
      | rotateBySize => exact hkeep (fun l hl => (howed l).mp hl) rfl
      | freeze => exact hkeep (fun l hl => (howed l).mp hl) rfl
      | closeDirect fails => exact hkeep (fun l hl => (howed l).mp hl) rfl
      | syncBarrier => exact hkeep (fun l hl => (howed l).mp hl) rfl
      | handTail hands => exact hkeep (fun l hl => (howed l).mp hl) rfl

/-- **An event** under a policy that syncs every commit leaves everything durable but the log owed
its sync. -/
lemma step_each {e : Event} (h0 : h.Inv t) (hq : Each h t) (hmeets : e.Meets h)
    (hstep : h.step lz e = .ok h') : ∃ t', h'.Inv t' ∧ Each h' t' := by
  obtain ⟨t', hinv, hev⟩ := step_inv h0 hmeets hstep
  refine ⟨t', hinv, by rw [step_opts hstep]; exact hq.1, ?_⟩
  -- an event that writes nothing leaves what is owed as it is, or finds nothing owed
  have hkeep : e.wrote h h' = none → (∀ l, Owed h l → Owed h' l) →
    DurableBut (Owed h') h'.store t' := by
    intro hnone howed
    rw [hnone] at hev
    exact (hev.durableBut hq.2).mono howed
  have hidle : h.idle = true → ∀ l, Owed h l → Owed h' l := by
    rintro hidle l ⟨i, hi, -⟩
    rw [todo_of_idle hidle] at hi
    exact absurd hi (by simp)
  have hsame : h.idle = false → e ≠ .go → e ≠ .land → ∀ l, Owed h l → Owed h' l := by
    intro hbusy hgo hland l hl
    have heq : h' = h := by
      cases e with
      | go => exact absurd rfl hgo
      | land => exact absurd rfl hland
      | _ =>
          injection hstep with hstep
          rw [← hstep, hbusy]
          rfl
    rw [heq]
    exact hl
  cases e with
  | go => exact go_each h0 hq hmeets hstep hinv hev
  | land =>
      refine hkeep rfl (fun l hl => ?_)
      injection hstep with hstep
      obtain ⟨i, hi, hsyncs⟩ := hl
      have hdirect : h.store.land.direct = h.store.direct := by
        rw [Store.land]
        cases h.store.sealing <;> rfl
      refine ⟨i, by rw [← hstep]; exact hi, ?_⟩
      rw [← hstep]
      cases i <;> simp only [Instr.Syncs, hdirect] at hsyncs ⊢ <;> exact hsyncs
  | append key value fails =>
      refine hkeep rfl ?_
      cases hi : h.idle with
      | true => exact hidle hi
      | false => exact hsame hi (by simp) (by simp)
  | put key value fails =>
      refine hkeep rfl ?_
      cases hi : h.idle with
      | true => exact hidle hi
      | false => exact hsame hi (by simp) (by simp)
  | delete key fails =>
      refine hkeep rfl ?_
      cases hi : h.idle with
      | true => exact hidle hi
      | false => exact hsame hi (by simp) (by simp)
  | commit seals fails =>
      refine hkeep rfl ?_
      cases hi : h.idle with
      | true => exact hidle hi
      | false => exact hsame hi (by simp) (by simp)
  | sealing fails =>
      refine hkeep rfl ?_
      cases hi : h.idle with
      | true => exact hidle hi
      | false => exact hsame hi (by simp) (by simp)
  | sync hands =>
      refine hkeep rfl ?_
      cases hi : h.idle with
      | true => exact hidle hi
      | false => exact hsame hi (by simp) (by simp)

end Each

end Supdb
