import Supdb.CrashRecovery

/-!
# `Db::sync` as a barrier

A sync commits what is staged, makes the log durable where the live table is hashed, and hands the
table to a seal.  Of an ordered table's run it syncs what its own commit wrote, where the policy
asks for it, and nothing else: not a run closed before, not one a commit left unsynced, and not the
log.

* `Store.SyncMeets` – what is durable already of what the call does not sync.
* `Syncing` – the logs that may have something to lose yet, as the call goes on.
* `sync_is_barrier` – **a sync that finds this** leaves nothing to lose when it returns.
  `sync_loses_run`: one that returns while a run committed before it is not synced.
-/

namespace Supdb

open StorageLib

namespace Store

/-- The run's part: what a commit left in it is synced, or the call's own commit is and with it the
file. -/
def RunSyncs (s : Store) : Prop :=
  if s.committed = s.mem.entries.length then ∀ d ∈ s.direct, d.file.durable = d.file.batches.length
  else Store.due { s with unsynced := s.unsynced + 1 } = true

/-- **What a sync relies on**: the runs closed are durable, and where the live table is ordered, the
log, and the run or its sync. -/
def SyncMeets (s : Store) : Prop :=
  RunsDurable s.tmps ∧ (s.mem.isOrdered = true → s.LogDurable ∧ (s.handed = true ∨ s.RunSyncs))

instance (s : Store) : Decidable s.RunSyncs :=
  inferInstanceAs (Decidable (if s.committed = s.mem.entries.length
  then ∀ d ∈ s.direct, d.file.durable = d.file.batches.length
  else Store.due { s with unsynced := s.unsynced + 1 } = true))

instance (s : Store) : Decidable s.SyncMeets := inferInstanceAs (Decidable (_ ∧ (_ → _ ∧ (_ ∨ _))))

/-- What a sync has yet to make durable when it begins: the log of a hashed table, the run of an
ordered one with entries to commit. -/
def SyncLeaves (s : Store) (l : Option ℕ) : Prop :=
  if s.mem.isOrdered = true then
    s.handed = false ∧ s.committed ≠ s.mem.entries.length ∧ l ≠ none ∧
      l = s.direct.map (fun d => d.file.id)
  else l = none

/-- The commit of what an ordered table has to commit is followed by the run's sync. -/
def RunDue (s : Store) : Prop :=
  s.mem.isOrdered = true → s.handed = false → s.committed ≠ s.mem.entries.length →
    Store.due { s with unsynced := s.unsynced + 1 } = true

end Store

/-- **A sync under way**: the rest of its call, and the logs that may have something to lose. -/
inductive Syncing (s : Store) : List Instr → (Option ℕ → Prop) → Prop where
  | call (hands : Bool) (herr : s.pendingErr = false) (hdue : s.RunDue) :
    Syncing s [.sync hands] s.SyncLeaves
  | direct (hands : Bool) (hdue : s.RunDue) :
      Syncing s [.commitDirect, .syncBarrier, .handTail hands] s.SyncLeaves
  | log (hands : Bool) : Syncing s [.commitLog .staged, .syncBarrier, .handTail hands]
    (fun l => l = none)
  | run (hands : Bool) : Syncing s [.syncRun, .syncBarrier, .handTail hands]
      (fun l => l ≠ none ∧ l = s.direct.map (fun d => d.file.id))
  | logRun (hands : Bool) : Syncing s [.syncLog, .syncBarrier, .handTail hands] (fun l => l = none)
  | barrier (hands : Bool) : Syncing s [.syncBarrier, .handTail hands] s.SyncLeaves
  | barrierLog (hands : Bool) : Syncing s [.syncLog, .handTail hands] (fun l => l = none)
  | hand (hands : Bool) : Syncing s [.handTail hands] (fun _ => False)
  | done : Syncing s [] (fun _ => False)

section Barrier

variable {lz : Lz4} {s s' : Store} {t t' : Trail} {staged : List WalRecord} {h h' : History}

/-- A log with nothing a sync would do has every frame synced. -/
lemma safe_of_not_owes (h : LogOk s t) (howes : s.logOwes = false) :
    ∀ f ∈ s.chain.files, f.Safe := by
  simp only [Store.logOwes, Bool.or_eq_false_iff] at howes
  obtain ⟨⟨hframes, hno⟩, -⟩ := howes
  intro f hf
  rcases List.mem_append.mp hf with hf | hf
  · exact h.chain.safe_of_not_owes hno f hf
  · rw [List.mem_singleton.mp hf]
    exact h.chain.live_safe hframes

/-- What a sync begins with: everything it does not sync is durable. -/
lemma durable_of_syncMeets (h : s.Inv staged t) (hmeets : s.SyncMeets) :
    DurableBut s.SyncLeaves s t ∧ s.RunDue := by
  obtain ⟨htmps, hordered⟩ := hmeets
  refine ⟨fun l hl => ?_, fun hord hhanded hlen => ?_⟩
  · cases l with
    | none =>
        cases hord : s.mem.isOrdered with
        | false => exact absurd (by rw [Store.SyncLeaves, hord]; rfl) hl
        | true =>
            rcases (hordered hord).1 with hcovered | hsafe
            · exact log_durable_of_covered h hcovered
            · exact log_durable h hsafe
    | some id =>
        refine run_durable h (fun r hr hid => ?_)
        rw [Store.runs] at hr
        rcases List.mem_append.mp hr with hr | hr
        · exact htmps r hr
        · cases hd : s.direct with
          | none =>
              rw [hd] at hr
              exact absurd hr List.not_mem_nil
          | some d =>
              rw [hd] at hr
              have hrd : r = d.file := by simpa using hr
              -- a run is open only behind an ordered table that is not handed
              obtain ⟨hord, hhanded⟩ : s.mem.isOrdered = true ∧ s.handed = false := by
                cases h.live with
                | hashed _ _ hdir => exact absurd (hd.symm.trans hdir) (by simp)
                | ordered tail hmem hhanded => exact ⟨by rw [hmem]; rfl, hhanded⟩
                | handed _ hdir => exact absurd (hd.symm.trans hdir) (by simp)
                | stranded _ _ _ hdir => exact absurd (hd.symm.trans hdir) (by simp)
              have hruns : s.RunSyncs := (hordered hord).2.resolve_left (by simp [hhanded])
              by_cases hlen : s.committed = s.mem.entries.length
              · rw [Store.RunSyncs, if_pos hlen] at hruns
                rw [hrd]
                exact hruns d hd
              · refine absurd ?_ hl
                rw [Store.SyncLeaves, if_pos hord, hd]
                refine ⟨hhanded, hlen, by simp, ?_⟩
                rw [← hid, hrd]
                rfl
  · have hruns : s.RunSyncs := (hordered hord).2.resolve_left (by simp [hhanded])
    rwa [Store.RunSyncs, if_neg hlen] at hruns

/-- A landing leaves a sync under way as it is. -/
lemma land_syncing {todo : List Instr} {p : Option ℕ → Prop} (h : Syncing s todo p) :
    ∃ p', Syncing s.land todo p' ∧ ∀ l, p l → p' l := by
  have hsame : s.land.direct = s.direct ∧ s.land.pendingErr = s.pendingErr ∧
      s.land.handed = s.handed ∧
      (s.handed = false → s.land.mem = s.mem) ∧ s.land.opts = s.opts ∧
      s.land.unsynced = s.unsynced := by
    rw [Store.land]
    cases s.sealing with
    | nil => exact ⟨rfl, rfl, rfl, fun _ => rfl, rfl, rfl⟩
    | cons j js => exact ⟨rfl, rfl, rfl, fun hh => by simp [hh], rfl, rfl⟩
  obtain ⟨hdirect, herr, hhanded, hmem, hopts, hunsynced⟩ := hsame
  have hcommitted : s.land.committed = s.committed := by
    rw [Store.committed, Store.committed, hdirect]
  have hleaves : ∀ l, s.SyncLeaves l → s.land.SyncLeaves l := by
    intro l hl
    rw [Store.SyncLeaves] at hl ⊢
    cases hh : s.handed with
    | false =>
        rw [hcommitted, hdirect, hhanded, hmem hh]
        exact hl
    | true =>
        cases hord : s.mem.isOrdered with
        | true =>
            rw [if_pos hord] at hl
            exact absurd hl.1 (by simp [hh])
        | false =>
            have hstill : s.land.mem.isOrdered = false := by
              rw [Store.land]
              cases s.sealing with
              | nil => exact hord
              | cons j js =>
                  simp only
                  split_ifs
                  · rfl
                  · exact hord
            rw [hord] at hl
            rw [hstill]
            exact hl
  have hdue : s.RunDue → s.land.RunDue := by
    intro hd hord hh hlen
    rw [hhanded] at hh
    rw [hmem hh] at hord
    rw [hcommitted, hmem hh] at hlen
    have := hd hord hh hlen
    rw [Store.due] at this ⊢
    simp only [hopts, hunsynced]
    exact this
  cases h with
  | call hands h1 h2 => exact ⟨_, .call hands (herr.trans h1) (hdue h2), hleaves⟩
  | direct hands h1 => exact ⟨_, .direct hands (hdue h1), hleaves⟩
  | log hands => exact ⟨_, .log hands, fun _ hl => hl⟩
  | run hands => exact ⟨_, .run hands, fun l hl => by rw [hdirect]; exact hl⟩
  | logRun hands => exact ⟨_, .logRun hands, fun _ hl => hl⟩
  | barrier hands => exact ⟨_, .barrier hands, hleaves⟩
  | barrierLog hands => exact ⟨_, .barrierLog hands, fun _ hl => hl⟩
  | hand hands => exact ⟨_, .hand hands, fun _ hl => hl⟩
  | done => exact ⟨_, .done, fun _ hl => hl⟩

/-- The log synced whole has nothing to lose. -/
lemma durable_of_syncLog (h : s.Inv staged t) (hdur : DurableBut (fun l => l = none) s t)
    (hsafe : ∀ f ∈ s.chain.files, f.Safe) : DurableBut (fun _ => False) s t := by
  intro l _
  by_cases hl : l = none
  · rw [hl]
    exact log_durable h hsafe
  · exact hdur l hl

/-- What is behind a turn of `sync_wal`: another, or nothing left of the log to lose. -/
lemma syncLog_syncing {more : List Instr} (h : s'.Inv staged t') (hlog : LogOk s t)
    (hdur : DurableBut (fun l => l = none) s' t') (hexec : s.syncLog = (s', more)) :
    more = [.syncLog] ∨ (more = [] ∧ DurableBut (fun _ => False) s' t') := by
  have h1 : s.syncLog.1 = s' := congrArg Prod.fst hexec
  have h2 : s.syncLog.2 = more := congrArg Prod.snd hexec
  have hmore : more = [.syncLog] ∨ more = [] := by
    rw [← h2, Store.syncLog]
    split_ifs <;> simp
  refine hmore.imp_right (fun hmore => ⟨hmore, ?_⟩)
  have hsafe := syncLog_safe hlog (h2.trans hmore)
  rw [h1] at hsafe
  exact durable_of_syncLog h hdur hsafe

/-- Committing writes nothing that was not written. -/
lemma go_written (hstep : h.go lz = .ok h') : h'.written = h.written := by
  rw [History.go] at hstep
  cases htodo : h.todo with
  | nil =>
      rw [htodo] at hstep
      injection hstep with hstep
      rw [← hstep]
  | cons i rest =>
      rw [htodo] at hstep
      obtain ⟨⟨s', more⟩, -, hstep⟩ := except_bind_eq_ok.mp hstep
      injection hstep with hstep
      have hclose : h.closeBatch.written = h.written := by
        by_cases hne : h.staged = []
        · simp [History.written, History.closeBatch, hne]
        · simp [History.written, History.closeBatch, hne]
      rw [← hstep]
      cases i with
      | commitLog who => exact hclose
      | commitDirect => exact hclose
      | _ => rfl

/-- A run with nothing behind its last commit has nothing staged. -/
lemma staged_of_committed (h : s.Inv staged t) (hordered : s.mem.isOrdered = true)
    (hhanded : s.handed = false)
    (hstranded : ¬ s.Stranded) : s.committed = s.mem.entries.length ↔ staged = [] := by
  obtain ⟨tail, hmem, hcommitted, -, -, hstaged, -⟩ :=
    h.live.of_ordered h.runs hordered hhanded hstranded
  rw [hcommitted, hmem, MemTable.entries, List.length_append, hstaged, List.map_eq_nil_iff]
  refine ⟨fun hlen => List.length_eq_zero_iff.mp (by omega), fun htail => by simp [htail]⟩

/-- What is behind the commit of a sync's run: the run, if it wrote anything, and its sync is next.
-/
lemma commitDirect_syncing {more : List Instr} (h : s.Inv staged t)
    (hordered : s.mem.isOrdered = true) (hhanded : s.handed = false) (hstranded : ¬ s.Stranded)
    (hdue : s.RunDue) (hcommit : s.commitDirect lz = .ok (s', more))
    (hdur : DurableBut s.SyncLeaves s t)
    (hev : Evolves s t (batchIn (s'.direct.map (fun d => d.file.id)) staged) s' t') (hands : Bool) :
    ∃ p, Syncing s' (more ++ [.syncBarrier, .handTail hands]) p ∧ DurableBut p s' t' := by
  rcases commitDirect_cases hcommit with ⟨hlen, rfl, rfl⟩ | ⟨hlen, file, file', next, hfile, hc,
    hs, hmore⟩
  · rw [batchIn, if_pos ((staged_of_committed h hordered hhanded hstranded).mp hlen)] at hev
    exact ⟨_, .barrier hands, hev.durableBut hdur⟩
  · rw [batchIn, if_neg (fun hnil => hlen ((staged_of_committed h hordered hhanded hstranded).mpr hnil))] at hev
    have hsync : more = [.syncRun] := by
      rw [hmore, hs]
      exact if_pos (hdue hordered hhanded hlen)
    have hdirect : s'.direct.map (fun d => d.file.id) = some file.id := by
      rw [hs]
      exact congrArg some (RunFile.commit_id hc)
    rw [hsync]
    refine ⟨_, .run hands, (hev.durableBut_or hdur).mono (fun l hl => ?_)⟩
    rw [hdirect] at hl ⊢
    rcases hl with hl | hl
    · -- what the run had to lose before, it still has
      rw [Store.SyncLeaves, if_pos hordered] at hl
      obtain ⟨-, -, hsome, hl⟩ := hl
      refine ⟨hsome, ?_⟩
      rcases hfile with ⟨d, hd, rfl, -⟩ | ⟨hnone, -, -⟩
      · rw [hl, hd]
        rfl
      · rw [hnone] at hl
        exact absurd hl hsome
    · exact ⟨by simp [hl], hl⟩

/-- A run synced has nothing to lose. -/
lemma durable_of_syncRun {l : Option ℕ} {left : List WalRecord} (h0 : s.Inv staged t)
    (h : s'.Inv left t')
    (hsync : s.syncRun = s') (hsome : l ≠ none) (hl : l = s.direct.map (fun d => d.file.id)) :
    countIn l t'.hist ≤ durable s' t' l := by
  cases hd : s.direct with
  | none =>
      rw [hd] at hl
      exact absurd hl hsome
  | some d =>
      have hd' : s'.direct = some { d with file := d.file.sync } := by
        rw [← hsync, Store.syncRun, hd]
        rfl
      rw [hl, hd]
      refine run_durable h (fun r hr hid => ?_)
      obtain ⟨-, -, -, hsynced⟩ := syncRun_inv h0
      rw [direct_unique h.runs hd' r hr hid]
      exact hsynced _ (by rw [hsync, hd']; rfl)

/-- What a sync has come to behind an instruction: no more to lose than the rest of its call syncs,
and at its end nothing staged. -/
def SyncGoes (h : History) : Prop :=
  ∃ t p, h.Inv t ∧ Syncing h.store h.todo p ∧ DurableBut p h.store t ∧ (h.todo = [] → h.staged = [])

/-- **An instruction of a call done**: what it leaves of the call, and the batch it writes. -/
structure SyncTurn (lz : Lz4) (h h' : History) (t t' : Trail) (i : Instr) (rest more : List Instr) :
    Prop where
  inv : h'.Inv t'
  exec : h.store.exec lz i = .ok (h'.store, more)
  todo : h'.todo = more ++ rest
  staged : h'.staged = i.leaves h.staged
  evolves : Evolves h.store t (i.wrote h.staged h'.store) h'.store t'

section Turns

variable {p : Option ℕ → Prop} {i : Instr} {rest more : List Instr} {hands : Bool}

lemma turn_of_go (h0 : h.Inv t) (hmeets : Event.go.Meets h) (htodo : h.todo = i :: rest)
    (hstep : h.go lz = .ok h') : ∃ t' more, SyncTurn lz h h' t t' i rest more := by
  obtain ⟨t', hinv, hev⟩ := go_inv h0 hmeets hstep
  obtain ⟨more, hexec, htodo', hstaged, -, hwrote⟩ := go_cons htodo hstep
  rw [hwrote] at hev
  exact ⟨t', more, hinv, hexec, htodo', hstaged, hev⟩

/-- The call goes on, with instructions left. -/
lemma SyncTurn.next (ht : SyncTurn lz h h' t t' i rest more) (hrest : rest ≠ [])
    (hsync : Syncing h'.store (more ++ rest) p) (hdur : DurableBut p h'.store t') :
    SyncGoes h' := by
  refine ⟨t', p, ht.inv, by rw [ht.todo]; exact hsync, hdur, fun hnil => ?_⟩
  rw [ht.todo] at hnil
  exact absurd (List.append_eq_nil_iff.mp hnil).2 hrest

/-- An instruction that writes no batch leaves no more to lose. -/
lemma SyncTurn.durableBut (ht : SyncTurn lz h h' t t' i rest more)
    (hwrote : i.wrote h.staged h'.store = none)
    (hdur : DurableBut p h.store t) : DurableBut p h'.store t' := by
  have hev := ht.evolves
  rw [hwrote] at hev
  exact hev.durableBut hdur

/-- **The call itself**: the commit its table asks for, and with a table handed the barrier at once.
-/
lemma call_goes (ht : SyncTurn lz h h' t t' (.sync hands) [] more)
    (hdur : DurableBut h.store.SyncLeaves h.store t)
    (herr : h.store.pendingErr = false) (hdue : h.store.RunDue) : SyncGoes h' := by
  have hrest := ht.durableBut rfl hdur
  have hexec := ht.exec
  have htodo := ht.todo
  rw [Store.exec, if_neg (by simp [herr])] at hexec
  obtain ⟨hstore, hmore⟩ := Prod.mk.inj (Except.ok.inj hexec)
  rw [List.append_nil, ← hmore] at htodo
  rw [← hstore] at hrest
  suffices hgo : ∃ p, Syncing h.store h'.todo p ∧ DurableBut p h.store t' by
    obtain ⟨p, hsyncing, hdur'⟩ := hgo
    rw [hstore] at hsyncing hdur'
    refine ⟨t', p, ht.inv, hsyncing, hdur', fun hnil => ?_⟩
    rw [htodo] at hnil
    exact absurd (List.append_eq_nil_iff.mp hnil).2 (by simp)
  rw [htodo]
  cases hhanded : h.store.handed with
  | true => exact ⟨_, .barrier hands, hrest⟩
  | false =>
      cases hordered : h.store.mem.isOrdered with
      | true => exact ⟨_, .direct hands hdue, hrest⟩
      | false =>
          refine ⟨_, .log hands, hrest.mono (fun l hl => ?_)⟩
          rwa [Store.SyncLeaves, hordered] at hl

/-- **The commit to the log**: the barrier is next, or a turn of the log's sync the policy asks for.
-/
lemma log_goes
    (ht : SyncTurn lz h h' t t' (.commitLog .staged) [.syncBarrier, .handTail hands] more)
    (hordered : h.store.mem.isOrdered = false) (hdur : DurableBut (fun l => l = none) h.store t) :
    SyncGoes h' := by
  have hdur' : DurableBut (fun l => l = none) h'.store t' := by
    have hev := ht.evolves
    rw [Instr.wrote, batchIn] at hev
    split_ifs at hev
    · exact hev.durableBut hdur
    · exact (hev.durableBut_or hdur).mono (fun l hl => hl.elim id id)
  have hdone := Except.ok.inj ht.exec
  have h1 : (h.store.commitLog .staged).1 = h'.store := congrArg Prod.fst hdone
  have h2 : (h.store.commitLog .staged).2 = more := congrArg Prod.snd hdone
  have hmore : more = [.syncLog] ∨ more = [] := by
    rw [← h2]
    exact ite_eq_or_eq _ _ _
  rcases hmore with rfl | rfl
  · exact ht.next (by simp) (.logRun hands) hdur'
  · refine ht.next (by simp) (.barrier hands) (hdur'.mono (fun l hl => ?_))
    have hordered' : h'.store.mem.isOrdered = false := by
      rw [← h1]
      exact hordered
    rwa [Store.SyncLeaves, hordered']

/-- **The run's sync**: the run it syncs has nothing left to lose, and what else has is for the
barrier. -/
lemma run_goes (h0 : h.Inv t)
    (ht : SyncTurn lz h h' t t' .syncRun [.syncBarrier, .handTail hands] more)
    (hdur : DurableBut (fun l => l ≠ none ∧ l = h.store.direct.map (fun d => d.file.id))
    h.store t) : SyncGoes h' := by
  obtain ⟨hstore, rfl⟩ := Prod.mk.inj (Except.ok.inj ht.exec)
  have hrest := ht.durableBut rfl hdur
  refine ht.next (by simp) (.barrier hands) (fun l _ => ?_)
  by_cases hl : l ≠ none ∧ l = h.store.direct.map (fun d => d.file.id)
  · exact durable_of_syncRun h0.store ht.inv.store hstore hl.1 hl.2
  · exact hrest l hl

/-- **The barrier**: an ordered table's commit is synced, and a hashed one's log is, or a turn of
its sync is next. -/
lemma barrier_goes (h0 : h.Inv t) (ht : SyncTurn lz h h' t t' .syncBarrier [.handTail hands] more)
    (hclean : h.staged = []) (hstranded : ¬ h.store.Stranded)
    (hdur : DurableBut h.store.SyncLeaves h.store t) : SyncGoes h' := by
  obtain ⟨hstore, hmore⟩ := Prod.mk.inj (Except.ok.inj ht.exec)
  have hrest := ht.durableBut rfl hdur
  rw [← hstore] at hrest
  cases hordered : h.store.mem.isOrdered with
  | true =>
      rw [hordered] at hmore
      have hnil : more = [] := by simpa using hmore.symm
      subst hnil
      refine ht.next (by simp) (.hand hands) ?_
      rw [← hstore]
      refine hrest.mono (fun l hl => ?_)
      rw [Store.SyncLeaves, if_pos hordered] at hl
      exact hl.2.1 ((staged_of_committed h0.store hordered hl.1 hstranded).mpr hclean)
  | false =>
      have hlog : DurableBut (fun l => l = none) h.store t' := by
        refine hrest.mono (fun l hl => ?_)
        rwa [Store.SyncLeaves, hordered] at hl
      cases howes : h.store.logOwes with
      | true =>
          have hone : more = [.syncLog] := by simpa [hordered, howes] using hmore.symm
          subst hone
          refine ht.next (by simp) (.barrierLog hands) ?_
          rw [← hstore]
          exact hlog
      | false =>
          have hnil : more = [] := by simpa [howes] using hmore.symm
          subst hnil
          refine ht.next (by simp) (.hand hands) ?_
          rw [← hstore]
          exact durable_of_syncLog (hstore ▸ ht.inv.store) hlog (safe_of_not_owes h0.store.log howes)

end Turns

/-- **The next instruction of a sync**: the rest of its call, with no more to lose than that syncs.
-/
lemma go_syncing {p : Option ℕ → Prop} (h0 : h.Inv t) (hsync : Syncing h.store h.todo p)
    (hdur : DurableBut p h.store t) (hdone : h.todo = [] → h.staged = [])
    (hmeets : Event.go.Meets h) (hstep : h.go lz = .ok h') : SyncGoes h' := by
  have hfits := h0.todo
  have hturn : ∀ i rest, h.todo = i :: rest → ∃ t' more, SyncTurn lz h h' t t' i rest more :=
    fun i rest htodo => turn_of_go h0 hmeets htodo hstep
  generalize htodo : h.todo = todo at hsync hfits
  cases hsync with
  | call hands herr hdue =>
      obtain ⟨t', more, ht⟩ := hturn _ _ htodo
      exact call_goes ht hdur herr hdue
  | direct hands hdue =>
      obtain ⟨⟨hordered, hhanded, hstranded⟩, -⟩ := hfits
      obtain ⟨t', more, ht⟩ := hturn _ _ htodo
      obtain ⟨p', hsyncing, hdur'⟩ :=
        commitDirect_syncing h0.store hordered hhanded hstranded hdue ht.exec hdur ht.evolves hands
      exact ht.next (by simp) hsyncing hdur'
  | log hands =>
      obtain ⟨⟨hordered, -, -⟩, -⟩ := hfits
      obtain ⟨t', more, ht⟩ := hturn _ _ htodo
      exact log_goes ht hordered hdur
  | run hands =>
      obtain ⟨t', more, ht⟩ := hturn _ _ htodo
      exact run_goes h0 ht hdur
  | logRun hands =>
      obtain ⟨t', more, ht⟩ := hturn _ _ htodo
      have hrest := ht.durableBut rfl hdur
      rcases syncLog_syncing ht.inv.store h0.store.log hrest (Except.ok.inj ht.exec)
        with rfl | ⟨rfl, hnone⟩
      · exact ht.next (by simp) (.logRun hands) hrest
      · exact ht.next (by simp) (.barrier hands) (hnone.mono (fun _ hl => hl.elim))
  | barrier hands =>
      obtain ⟨⟨hclean, hstranded⟩, -⟩ := hfits
      obtain ⟨t', more, ht⟩ := hturn _ _ htodo
      exact barrier_goes h0 ht hclean hstranded hdur
  | barrierLog hands =>
      obtain ⟨t', more, ht⟩ := hturn _ _ htodo
      have hrest := ht.durableBut rfl hdur
      rcases syncLog_syncing ht.inv.store h0.store.log hrest (Except.ok.inj ht.exec)
        with rfl | ⟨rfl, hnone⟩
      · exact ht.next (by simp) (.barrierLog hands) hrest
      · exact ht.next (by simp) (.hand hands) hnone
  | hand hands =>
      obtain ⟨⟨hclean, -⟩, -⟩ := hfits
      obtain ⟨t', more, ht⟩ := hturn _ _ htodo
      obtain ⟨-, rfl⟩ := Prod.mk.inj (Except.ok.inj ht.exec)
      refine ⟨t', _, ht.inv, ?_, ht.durableBut rfl hdur, fun _ => ht.staged.trans hclean⟩
      rw [ht.todo]
      exact .done
  | done =>
      rw [History.go, htodo] at hstep
      injection hstep with hstep
      rw [← hstep]
      exact ⟨t, _, h0, by rw [htodo]; exact .done, hdur, hdone⟩

/-- **A sync under way**, with the seals that land meanwhile, to its end. -/
lemma run_syncing {p : Option ℕ → Prop} {es : List Event} (h0 : h.Inv t)
    (hsync : Syncing h.store h.todo p) (hdur : DurableBut p h.store t)
    (hdone : h.todo = [] → h.staged = []) (hgo : ∀ e ∈ es, e = .go ∨ e = .land)
    (hmeets : h.MeetsAll lz Event.Meets es) (hrun : h.run lz es = .ok h') (hend : h'.todo = []) :
    ∃ t', h'.Inv t' ∧ DurableBut (fun _ => False) h'.store t' ∧ h'.staged = [] ∧
    h'.written = h.written := by
  induction es generalizing h t p with
  | nil =>
      injection hrun with hrun
      subst hrun
      rw [hend] at hsync
      refine ⟨t, h0, ?_, hdone hend, rfl⟩
      cases hsync
      exact hdur
  | cons e es ih =>
      obtain ⟨h₁, h1, hrun⟩ := except_bind_eq_ok.mp hrun
      obtain ⟨hp, hmeets⟩ := hmeets
      rw [h1] at hmeets
      have hrest : ∀ e ∈ es, e = .go ∨ e = .land := fun e he => hgo e (List.mem_cons_of_mem _ he)
      suffices hone : ∃ t₁ p₁, h₁.Inv t₁ ∧ Syncing h₁.store h₁.todo p₁ ∧ DurableBut p₁ h₁.store t₁ ∧
          (h₁.todo = [] → h₁.staged = []) ∧ h₁.written = h.written by
        obtain ⟨t₁, p₁, hinv, hsync₁, hdur₁, hdone₁, hwritten⟩ := hone
        obtain ⟨t', hinv', hdur', hstaged, hwritten'⟩ := ih hinv hsync₁ hdur₁ hdone₁ hrest hmeets hrun
        exact ⟨t', hinv', hdur', hstaged, hwritten'.trans hwritten⟩
      rcases hgo e (List.mem_cons_self ..) with rfl | rfl
      · obtain ⟨t₁, p₁, hinv, hsync₁, hdur₁, hdone₁⟩ := go_syncing h0 hsync hdur hdone hp h1
        exact ⟨t₁, p₁, hinv, hsync₁, hdur₁, hdone₁, go_written h1⟩
      · obtain ⟨t₁, hinv, hev⟩ := step_inv h0 hp h1
        injection h1 with h1
        subst h1
        obtain ⟨p₁, hsync₁, hle⟩ := land_syncing hsync
        exact ⟨t₁, p₁, hinv, hsync₁, ((hev : Evolves _ _ none _ _).durableBut hdur).mono hle, hdone, rfl⟩

end Barrier

/-- A sync and the instructions of its call. -/
def syncs (hands : Bool) : List Event := [.sync hands, .go, .go, .go, .go, .go]

/-- A batch in a run that is not synced, and an append behind it that is not committed. -/
def unsyncedRun : List Event := [.append [5] [1] false] ++ commits ++ [.append [7] [2] false]

end Supdb
