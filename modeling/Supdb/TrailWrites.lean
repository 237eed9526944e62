import Supdb.Trail

/-!
# Writes, and the closes of a run

A write changes the live table and what is framed for the log, and where the table is a direct run's
and cannot take it, first closes the run.  None of this changes a log, so a write leaves what is
durable as it is, whatever becomes of the run.

* `leaveDirect_none`, `leaveDirect_fails`, `leaveDirect_closes` – what `leave_direct` does, by
  whether a run is open and whether its close fails.
* `leaveDirect_inv` – the writer goes on in a hashed table, or, where the close failed, in the old
  ordered one, stranded.
* `append_inv`, `put_inv`, `delete_inv` – **a write** keeps the store what its trail says.  An
  append asks two things: no seal in flight holds a delete of a key that goes to a run, and a key
  appended behind a close that failed is above all before it.
-/

namespace Supdb

open StorageLib

/-! ## What a step does not touch -/

section Congr

variable {s s' : Store} {t : Trail}

lemma LogOk.congr (h : LogOk s t) (hchain : s'.chain = s.chain) (hsealing : s'.sealing = s.sealing)
    (hclosed : s'.closedWals = s.closedWals) (hcovered : s'.covered = s.covered) : LogOk s' t := by
  refine ⟨?_, ?_, ?_, h.cut, ?_, h.above, ?_⟩
  · rw [hchain]
    exact h.chain
  · rw [hchain]
    exact h.ids
  · rw [hchain, hsealing, hclosed]
    exact h.wals
  · rw [hcovered]
    exact h.covered
  · rw [hcovered, hsealing]
    exact h.seals

lemma RunsOk.congr (h : RunsOk s t) (hruns : s'.runs = s.runs) (hsealing : s'.sealing = s.sealing)
    (hnext : s'.nextSeg = s.nextSeg) (hopts : s'.opts = s.opts) : RunsOk s' t := by
  refine ⟨?_, ?_, ?_, ?_, ?_, h.live⟩
  · rw [hruns, hsealing]
    exact h.runs
  · rw [hruns]
    exact h.ids
  · rw [hruns, hnext]
    exact h.next
  · rw [hruns, hopts]
    exact h.files
  · rw [hruns]
    exact h.sorted

/-- The log's sequence is the one behind every batch. -/
lemma LogOk.seq (h : LogOk s t) : s.chain.wal.seq = s.covered + frameCount (walOf t.hist) := by
  rw [h.chain.seq_eq, h.covered, ← h.above, Nat.add_assoc, ← frameCount_append,
    List.take_append_drop]
  rfl

/-- The live table is what has been written since the seals in flight. -/
lemma LiveOk.records {staged : List WalRecord} (h : LiveOk s staged t)
    (hhanded : s.handed = false) : s.mem.records = (t.live.map Prod.snd).flatten ++ staged := by
  cases h with
  | hashed hmem _ hdirect hpending hrun =>
      rw [hmem]
      rfl
  | ordered tail hmem _ hdirect hcommitted hpending hlive hstaged hcarried =>
      rw [hmem, hlive, hstaged, Trail.entries, MemTable.records, List.map_append]
      cases t.run with
      | none => rfl
      | some r => rw [Option.map_some, Option.map_some, Option.getD_some, Option.getD_some, flatten_logged]
  | handed hhanded' => exact absurd hhanded (by simp [hhanded'])
  | stranded r hmem => exact hmem

/-- No entry of the live table is above the greatest key. -/
lemma Store.Inv.entries_le {staged : List WalRecord} (h : s.Inv staged t)
    (hhanded : s.handed = false) : ∀ e ∈ s.mem.entries, e.1 ≤ s.maxKey := by
  intro e he
  have hmem : asPut e ∈ s.mem.records := by
    cases hm : s.mem with
    | hashed ops =>
        rw [hm] at he
        exact absurd he List.not_mem_nil
    | ordered es =>
        rw [hm] at he
        exact List.mem_map_of_mem he
  rw [h.live.records hhanded] at hmem
  rcases List.mem_append.mp hmem with hmem | hmem
  · obtain ⟨b, hb, hmem⟩ := List.mem_flatten.mp hmem
    obtain ⟨l, hl, rfl⟩ := List.mem_map.mp hb
    refine h.keys.raised l.2 (List.mem_append_right _ (List.mem_map_of_mem ?_)) _ hmem _ _ rfl
    exact List.mem_append_right _ hl
  · exact h.keys.raisedStaged _ hmem _ _ rfl

end Congr

/-! ## The close of a run -/

/-- The trail behind a seal of the live table. -/
def Trail.sealed (t : Trail) : Trail :=
  { t with frozen := t.frozen ++ [t.live], live := [], run := none }

@[simp] lemma Trail.sealed_hist (t : Trail) : t.sealed.hist = t.hist := by
  rw [Trail.hist, Trail.hist, Trail.sealed]
  simp

lemma foldl_append_hashed (tail : List (Bytes × Bytes)) (ops : List WalRecord) :
    tail.foldl (fun t e => t.append e.1 e.2) (MemTable.hashed ops)
    = .hashed (ops ++ tail.map asPut) := by
  induction tail generalizing ops with
  | nil => simp
  | cons e tail ih =>
      rw [List.foldl_cons, MemTable.append, ih, List.map_cons, List.append_assoc]
      rfl

lemma foldl_append_ordered (tail es : List (Bytes × Bytes)) :
    tail.foldl (fun t e => t.append e.1 e.2) (MemTable.ordered es) = .ordered (es ++ tail) := by
  induction tail generalizing es with
  | nil => simp
  | cons e tail ih =>
      rw [List.foldl_cons, MemTable.append, ih, List.append_assoc]
      rfl

section Closes

variable {s : Store} {t : Trail} {es : List (Bytes × Bytes)} {d : Direct} (fails : Bool)

/-- `leave_direct` with no run open: the table's entries are all the batch's own. -/
lemma leaveDirect_none (hmem : s.mem = .ordered es) (hdirect : s.direct = none) :
    s.leaveDirect fails
      = { s with pendingErr := s.pendingErr, pending := s.pending ++ es.map asPut
                 mem := .hashed (es.map asPut) } := by
  have hcommitted : s.committed = 0 := by rw [Store.committed, hdirect]; rfl
  simp only [Store.leaveDirect, Store.closeDirect, hmem, hdirect, hcommitted, MemTable.entries,
    List.drop_zero,
    MemTable.fresh, foldl_append_hashed, List.nil_append, Bool.not_true, Bool.or_false]

/-- `leave_direct` where the close fails: the run's file is left behind, and the table ordered. -/
lemma leaveDirect_fails (hmem : s.mem = .ordered es) (hdirect : s.direct = some d) :
    s.leaveDirect true
      = { s with direct := none, tmps := s.tmps ++ [d.file], pendingErr := true
                 pending := s.pending ++ (es.drop d.committed).map asPut, mem := .ordered es } := by
  have hcommitted : s.committed = d.committed := by rw [Store.committed, hdirect]; rfl
  simp only [Store.leaveDirect, Store.closeDirect, hmem, hdirect, hcommitted, MemTable.entries,
    MemTable.truncate, foldl_append_ordered, List.take_append_drop, if_true, Bool.not_false,
    Bool.or_true]

/-- `leave_direct` where the run closes. -/
lemma leaveDirect_closes (hmem : s.mem = .ordered es) (hdirect : s.direct = some d) :
    s.leaveDirect false
      = { s with direct := none, closedWals := [], tmps := s.tmps ++ [d.file], pendingErr := s.pendingErr
                 sealing := s.sealing ++
                   [⟨.ordered (es.take d.committed), some d.file, s.chain.wal.seq, s.closedWals⟩]
                 pending := s.pending ++ (es.drop d.committed).map asPut
                 mem := .hashed ((es.drop d.committed).map asPut) } := by
  have hcommitted : s.committed = d.committed := by rw [Store.committed, hdirect]; rfl
  simp only [Store.leaveDirect, Store.closeDirect, Store.closeRun, hmem, hdirect, hcommitted,
    MemTable.entries, MemTable.truncate, MemTable.fresh, foldl_append_hashed, List.nil_append,
    Bool.false_eq_true, if_false, Bool.not_true, Bool.or_false]

end Closes

section Sealed

variable {s s' : Store} {t : Trail} {staged : List WalRecord} {j : InFlight}

/-- The log behind a seal of the live table, which takes every file closed since the last. -/
lemma LogOk.sealed (h : LogOk s t) (hholds : j.Holds t.live) (hend : j.endSeq = s.chain.wal.seq)
    (hwals : j.wals = s.closedWals) (hchain : s'.chain = s.chain)
    (hsealing : s'.sealing = s.sealing ++ [j])
    (hclosed : s'.closedWals = []) (hcovered : s'.covered = s.covered) : LogOk s' t.sealed := by
  have hlen : t.parts.length = (s.sealing.flatMap InFlight.wals).length + j.wals.length := by
    have := congrArg List.length h.wals
    rw [List.length_map, List.length_append] at this
    rw [← whole_length h.chain.whole, this, hwals]
  have hseq : j.endSeq = s.covered + frameCount (walOf t.frozen.flatten) +
    frameCount (walOf t.live) := by
    rw [hend, h.seq, Trail.hist, walOf_append, frameCount_append, Nat.add_assoc]
  have hle : t.base + frameCount (batchesOf t.parts) ≤ j.endSeq := by
    rw [hend, h.chain.seq_eq, batchesOf_append, frameCount_append]
    omega
  refine ⟨?_, ?_, ?_, h.cut, ?_, ?_, ?_⟩
  · rw [hchain]
    exact h.chain
  · rw [hchain]
    exact h.ids
  · rw [hchain, hsealing, hclosed, h.wals, List.flatMap_append, List.flatMap_singleton, hwals,
      List.append_nil]
  · rw [hcovered]
    exact h.covered
  · rw [Trail.sealed_hist]
    exact h.above
  · rw [hcovered, hsealing]
    exact h.seals.snoc hholds hlen hseq hle

/-- The runs behind it. -/
lemma RunsOk.sealed (h : RunsOk s t) (hfile : j.file = t.run) (hruns : s'.runs = s.runs)
    (hsealing : s'.sealing = s.sealing ++ [j]) (hnext : s'.nextSeg = s.nextSeg)
    (hopts : s'.opts = s.opts) : RunsOk s' t.sealed := by
  refine ⟨?_, ?_, ?_, ?_, ?_, ?_⟩
  · rw [hruns, h.runs, hsealing, List.filterMap_append, ← hfile]
    cases hj : j.file <;> simp [hj, Trail.sealed]
  · rw [hruns]
    exact h.ids
  · rw [hruns, hnext]
    exact h.next
  · rw [hruns, hopts]
    exact h.files
  · rw [hruns]
    exact h.sorted
  · exact fun e he => absurd he List.not_mem_nil

/-- The keys behind it: the live table is another, or handed. -/
lemma KeysOk.sealed (h : KeysOk s staged t) (hmax : s'.maxKey = s.maxKey)
    (hmem : s'.mem.entries = [] ∨ s'.handed = true ∧ s'.mem = s.mem) :
    KeysOk s' staged t.sealed := by
  refine ⟨?_, ?_, ?_, ?_, ?_⟩
  · rcases hmem with hmem | ⟨-, hmem⟩
    · rw [MemTable.Sorted, hmem]
      exact List.Pairwise.nil
    · rw [hmem]
      exact h.sorted
  · rw [hmax, Trail.batches, Trail.sealed_hist]
    exact h.raised
  · rw [hmax]
    exact h.raisedStaged
  · rw [Trail.sealed_hist]
    exact h.apart
  · intro hhanded
    rcases hmem with hmem | ⟨htrue, -⟩
    · intro _ a _ _ r _ r' hr'
      rw [hmem] at hr'
      exact absurd hr' List.not_mem_nil
    · exact absurd htrue (by simp [hhanded])

/-- The keys where nothing of them changes but that the live table may hold fewer in order. -/
lemma KeysOk.congr (h : KeysOk s staged t) (hmax : s'.maxKey = s.maxKey)
    (hmem : s'.mem.entries = [] ∨
      s'.mem.entries = s.mem.entries ∧
      (s'.handed = false → ¬ s'.Stranded → s.handed = false ∧ ¬ s.Stranded)) :
    KeysOk s' staged t := by
  refine ⟨?_, ?_, ?_, h.apart, ?_⟩
  · rcases hmem with hmem | ⟨hmem, -⟩
    · rw [MemTable.Sorted, hmem]
      exact List.Pairwise.nil
    · rw [MemTable.Sorted, hmem]
      exact h.sorted
  · rw [hmax]
    exact h.raised
  · rw [hmax]
    exact h.raisedStaged
  · intro hhanded hno a ha hnone
    rcases hmem with hmem | ⟨hmem, hback⟩
    · intro r _ r' hr'
      rw [hmem] at hr'
      exact absurd hr' List.not_mem_nil
    · obtain ⟨hhanded', hno'⟩ := hback hhanded hno
      rw [hmem]
      exact h.apartLive hhanded' hno' a ha hnone

end Sealed

section Leave

variable {s : Store} {t : Trail} {staged : List WalRecord}

/-- `writes_go`: a table handed to a seal is replaced by an empty one. -/
lemma writesGo_inv (h : s.Inv staged t) : s.writesGo.Inv staged t ∧ s.writesGo.handed = false := by
  rw [Store.writesGo]
  split_ifs with hhanded
  · refine ⟨⟨h.nonempty, h.segments, h.log.congr rfl rfl rfl rfl, h.runs.congr rfl rfl rfl rfl, ?_,
      h.keys.congr rfl (Or.inl rfl)⟩, rfl⟩
    cases h.live with
    | hashed _ hhanded' => exact absurd hhanded (by simp [hhanded'])
    | ordered tail _ hhanded' => exact absurd hhanded (by simp [hhanded'])
    | handed _ hdirect hpending hrun hlive hstaged hmem =>
        subst hstaged
        exact .hashed (by rw [hlive]; rfl) rfl hdirect hpending hrun
    | stranded r _ hhanded' => exact absurd hhanded (by simp [hhanded'])
  · exact ⟨h, Bool.not_eq_true _ ▸ hhanded⟩

/-- **`leave_direct`**: what the run holds goes with it, and the writer goes on with the batch's own
entries in a hashed table; where the close failed it is stranded in the old one. -/
lemma leaveDirect_inv (h : s.Inv staged t) (hordered : s.mem.isOrdered = true)
    (hhanded : s.handed = false) (fails : Bool) :
    ∃ t', (s.leaveDirect fails).Inv staged t' ∧ Evolves s t none (s.leaveDirect fails) t' ∧
      (s.leaveDirect fails).handed = false ∧ (s.leaveDirect fails).maxKey = s.maxKey ∧
      ((s.leaveDirect fails).mem.isOrdered = true →
        s.direct.isSome = true ∧ fails = true ∧ (s.leaveDirect fails).Stranded) := by
  cases hmem : s.mem with
  | hashed ops => exact absurd hordered (by simp [hmem, MemTable.isOrdered])
  | ordered es =>
      cases hdirect : s.direct with
      | none =>
          rw [leaveDirect_none fails hmem hdirect]
          refine ⟨t, ⟨h.nonempty, h.segments, h.log.congr rfl rfl rfl rfl, h.runs.congr rfl rfl rfl rfl, ?_,
            h.keys.congr rfl (Or.inl rfl)⟩, Evolves.refl rfl rfl rfl rfl rfl rfl rfl, hhanded, rfl, ?_⟩
          · cases h.live with
            | hashed hmem' => exact absurd (hmem.symm.trans hmem') (by simp)
            | ordered tail hmem' _ hrun hcommitted hpending hlive hstaged hcarried =>
                have hrun' : t.run = none := by
                  rw [← hrun, hdirect]
                  rfl
                rw [hrun'] at hlive
                have hentries : t.entries = [] := by rw [Trail.entries, hrun']; rfl
                rw [hentries, hmem, List.nil_append] at hmem'
                injection hmem' with hmem'
                subst hmem' hstaged
                exact .hashed (by rw [hlive]; rfl) hhanded hdirect (by rw [hpending]; rfl) hrun'
            | handed hhanded' => exact absurd hhanded (by simp [hhanded'])
            | stranded r hrecords _ _ hrun hlive =>
                refine .stranded r ?_ hhanded hdirect hrun hlive
                rw [← hrecords, hmem]
                rfl
          · exact fun hcon => absurd hcon (by simp [MemTable.isOrdered])
      | some d =>
          -- the table is the run's: nothing of another state has one
          obtain ⟨tail, hes, hrun, hcommitted, hpending, hlive, hstaged⟩ : ∃ tail,
              es = d.file.batches.flatten ++ tail ∧ t.run = some d.file ∧
              d.committed = d.file.batches.flatten.length ∧ s.pending = [] ∧
              t.live = d.file.logged ∧ staged = tail.map asPut := by
            cases h.live with
            | hashed hmem' => exact absurd (hmem.symm.trans hmem') (by simp)
            | ordered tail hmem' _ hrun hcommitted hpending hlive hstaged hcarried =>
                rw [hdirect] at hrun
                have hrun' : t.run = some d.file := hrun.symm
                have hentries : t.entries = d.file.batches.flatten := by rw [Trail.entries, hrun']; rfl
                rw [hentries] at hmem' hcommitted
                rw [Store.committed, hdirect] at hcommitted
                rw [hrun'] at hlive
                rw [hmem] at hmem'
                injection hmem' with hmem'
                exact ⟨tail, hmem', hrun', hcommitted, hpending, hlive, hstaged⟩
            | handed _ hdirect' => exact absurd (hdirect.symm.trans hdirect') (by simp)
            | stranded r _ _ hdirect' => exact absurd (hdirect.symm.trans hdirect') (by simp)
          have hdrop : es.drop d.committed = tail := by rw [hes, hcommitted, List.drop_left]
          have htake : es.take d.committed = d.file.batches.flatten := by rw [hes, hcommitted, List.take_left]
          have hruns : s.tmps ++ [d.file] ++ [] = s.runs := by
            rw [Store.runs, hdirect, List.append_nil]
            rfl
          have hcount : (s.tmps ++ [d.file]).length = (s.sealing.filterMap InFlight.file).length + 1 := by
            have := congrArg List.length h.runs.runs
            rw [← hruns, hrun] at this
            simpa using this
          cases fails with
          | true =>
              rw [leaveDirect_fails hmem hdirect, hdrop]
              have hstranded : (s.tmps ++ [d.file]).length ≠ (s.sealing.filterMap InFlight.file).length := by
                rw [hcount]
                omega
              refine ⟨t, ⟨h.nonempty, h.segments, h.log.congr rfl rfl rfl rfl,
                h.runs.congr hruns rfl rfl rfl, ?_, h.keys.congr rfl (Or.inr ⟨by rw [hmem], ?_⟩)⟩,
                Evolves.refl rfl hruns rfl rfl rfl rfl rfl, hhanded, rfl, fun _ => ⟨rfl, rfl, hstranded⟩⟩
              · refine .stranded d.file ?_ hhanded rfl hrun hlive
                rw [MemTable.records, hes, List.map_append, hlive, flatten_logged, hstaged]
              · exact fun _ hno => absurd hstranded hno
          | false =>
              rw [leaveDirect_closes hmem hdirect, hdrop, htake]
              refine ⟨t.sealed, ⟨?_, h.segments, h.log.sealed
                (j := ⟨.ordered d.file.batches.flatten, some d.file, s.chain.wal.seq, s.closedWals⟩)
                ⟨hlive, rfl⟩ rfl rfl rfl rfl rfl rfl, h.runs.sealed hrun.symm hruns rfl rfl rfl, ?_,
                h.keys.sealed rfl (Or.inl rfl)⟩,
                Evolves.refl rfl hruns (Trail.sealed_hist t) rfl rfl rfl rfl, hhanded, rfl, ?_⟩
              · rw [Trail.sealed_hist]
                exact h.nonempty
              · refine .hashed ?_ hhanded rfl ?_ rfl
                · rw [hstaged]
                  rfl
                · rw [hpending, hstaged]
                  rfl
              · exact fun hcon => absurd hcon (by simp [MemTable.isOrdered])

end Leave

/-! ## Writes -/

section Writes

variable {s : Store} {t : Trail} {staged rs : List WalRecord} {key value m : Bytes}

lemma Raised.mono {m' : Bytes} (h : Raised m rs) (hle : m ≤ m') : Raised m' rs :=
  fun r hr k v heq => (h r hr k v heq).trans hle

lemma Raised.append {rs' : List WalRecord} (h : Raised m rs) (h' : Raised m rs') :
    Raised m (rs ++ rs') := by
  intro r hr
  rcases List.mem_append.mp hr with hr | hr
  · exact h r hr
  · exact h' r hr

lemma le_raised (s : Store) (key : Bytes) : s.maxKey ≤ s.raised key ∧ key ≤ s.raised key := by
  rw [Store.raised]
  split_ifs with hlt
  · exact ⟨hlt.le, le_refl _⟩
  · exact ⟨le_refl _, not_lt.mp hlt⟩

lemma raised_put (hle : key ≤ m) (hrs : ∀ r ∈ rs, r = .delete key ∨ r = .put key value) :
    Raised m rs := by
  intro r hr k v heq
  rcases hrs r hr with rfl | rfl
  · exact absurd heq (by simp)
  · injection heq with hk hv
    exact hk ▸ hle

/-- A record of a seal's batches is one of its table's. -/
lemma SealsOk.records {covered base : ℕ} {parts : List Part} {js : List InFlight}
    {fs : List (List Logged)}
    (h : SealsOk covered base parts js fs) : ∀ e ∈ fs.flatten, ∀ r ∈ e.2, ∃ j ∈ js,
    r ∈ j.table.records := by
  induction js generalizing covered base parts fs with
  | nil =>
      cases fs with
      | nil => exact fun e he => absurd he List.not_mem_nil
      | cons f fs => exact h.elim
  | cons j js ih =>
      cases fs with
      | nil => exact h.elim
      | cons f fs =>
          obtain ⟨hholds, -, ps, qs, -, -, -, hrest⟩ := h
          intro e he r hr
          rw [List.flatten_cons] at he
          rcases List.mem_append.mp he with he | he
          · refine ⟨j, List.mem_cons_self .., ?_⟩
            rw [hholds.records]
            exact List.mem_flatten.mpr ⟨e.2, List.mem_map_of_mem he, hr⟩
          · obtain ⟨i, hi, hmem⟩ := ih hrest e he r hr
            exact ⟨i, List.mem_cons_of_mem _ hi, hmem⟩

/-- A run that is open, or none, is not stranded. -/
lemma not_stranded (hr : RunsOk s t) (hdirect : s.direct.map Direct.file = t.run) :
    ¬ s.Stranded := by
  have := congrArg List.length hr.runs
  rw [Store.runs, hdirect, List.length_append, List.length_append] at this
  rw [Store.Stranded, not_not]
  omega

/-- Records framed behind a hashed table's. -/
lemma logged_inv (h : s.Inv staged t) (hhanded : s.handed = false) {ops : List WalRecord}
    (hmem : s.mem = .hashed ops) (hmax : s.maxKey ≤ m) (hraised : Raised m rs) :
    Store.Inv { s with maxKey := m, pending := s.pending ++ rs, mem := .hashed (ops ++ rs) }
    (staged ++ rs) t := by
  refine ⟨h.nonempty, h.segments, h.log.congr rfl rfl rfl rfl, h.runs.congr rfl rfl rfl rfl, ?_, ?_⟩
  · cases h.live with
    | hashed hmem' _ hdirect hpending hrun =>
        rw [hmem] at hmem'
        injection hmem' with hmem'
        refine .hashed ?_ hhanded hdirect (by rw [hpending]) hrun
        rw [hmem', List.append_assoc]
    | ordered tail hmem' => exact absurd (hmem.symm.trans hmem') (by simp)
    | handed hhanded' => exact absurd hhanded (by simp [hhanded'])
    | stranded r hrecords _ hdirect hrun hlive =>
        refine .stranded r ?_ hhanded hdirect hrun hlive
        rw [← List.append_assoc, ← hrecords, hmem]
        rfl
  · refine ⟨List.Pairwise.nil, fun b hb => (h.keys.raised b hb).mono hmax,
      (h.keys.raisedStaged.mono hmax).append hraised, h.keys.apart, ?_⟩
    intro _ _ a _ _ r _ r' hr'
    exact absurd hr' List.not_mem_nil

/-- An ordered table's keys, and one above them all. -/
lemma sorted_snoc (h : s.Inv staged t) (hhanded : s.handed = false) (hlt : s.maxKey < key) :
    ((s.mem.entries ++ [(key, value)]).map Prod.fst).Pairwise (· < ·) := by
  rw [List.map_append, List.pairwise_append]
  refine ⟨h.keys.sorted, List.pairwise_singleton _ _, ?_⟩
  intro k hk k' hk'
  obtain ⟨e, he, rfl⟩ := List.mem_map.mp hk
  rw [List.map_singleton, List.mem_singleton] at hk'
  rw [hk']
  exact (h.entries_le hhanded e he).trans_lt hlt

/-- An append to the log: the table is hashed, or stranded and the key above all before it. -/
lemma appendLogged_inv (h : s.Inv staged t) (hhanded : s.handed = false)
    (hordered : s.mem.isOrdered = true → s.Stranded ∧ s.maxKey < key) :
    (s.appendLogged key value).Inv (staged ++ [.put key value]) t := by
  have hraised : Raised (s.raised key) [.put key value] :=
    @raised_put _ key value _ (le_raised s key).2 (fun r hr => Or.inr (List.mem_singleton.mp hr))
  cases hmem : s.mem with
  | hashed ops =>
      rw [Store.appendLogged, hmem]
      exact logged_inv h hhanded hmem (le_raised s key).1 hraised
  | ordered es =>
      obtain ⟨hstranded, hlt⟩ := hordered (by rw [hmem]; rfl)
      rw [Store.appendLogged, hmem]
      refine ⟨h.nonempty, h.segments, h.log.congr rfl rfl rfl rfl, h.runs.congr rfl rfl rfl rfl, ?_, ?_⟩
      · cases h.live with
        | hashed hmem' => exact absurd (hmem.symm.trans hmem') (by simp)
        | ordered tail _ _ hrun => exact absurd hstranded (not_stranded h.runs hrun)
        | handed hhanded' => exact absurd hhanded (by simp [hhanded'])
        | stranded r hrecords _ hdirect hrun hlive =>
            refine .stranded r ?_ hhanded hdirect hrun hlive
            rw [← List.append_assoc, ← hrecords, hmem, MemTable.append, MemTable.records, List.map_append]
            rfl
      · have hsorted := @sorted_snoc _ _ _ key value h hhanded hlt
        rw [hmem] at hsorted
        exact ⟨hsorted, fun b hb => (h.keys.raised b hb).mono (le_raised s key).1,
          (h.keys.raisedStaged.mono (le_raised s key).1).append hraised, h.keys.apart,
          fun _ hno => absurd hstranded hno⟩

/-- **An append to a run**, of a key no seal in flight deletes. -/
lemma appendDirect_inv (h : s.Inv staged t) (hhanded : s.handed = false)
    (hopen : s.mem.isOrdered = true ∨ s.directCanOpen = true)
    (hgoes : s.goesDirect key value = true)
    (hdelete : ∀ j ∈ s.sealing, WalRecord.delete key ∉ j.table.records) :
    (s.appendDirect key value).Inv (staged ++ [.put key value]) t := by
  have hlt : s.maxKey < key := (of_decide_eq_true hgoes).2.2.1
  have hcarries : Carried s.opts.direct (key, value) :=
    OrderedTable.carried_of_goesDirect (t := .start s.opts.direct s.maxKey) hgoes
  have hraised : Raised key [.put key value] :=
    @raised_put _ key value _ (le_refl _) (fun r hr => Or.inr (List.mem_singleton.mp hr))
  -- a table that is not ordered is empty, and so is everything behind the seals in flight
  have hempty : s.mem.isOrdered = false → t.live = [] ∧ staged = [] ∧ s.pending = [] ∧
    s.mem.entries = [] := by
    intro hno
    have hcan : s.directCanOpen = true := hopen.resolve_left (by simp [hno])
    simp only [Store.directCanOpen, Bool.and_eq_true, MemTable.isEmpty, List.isEmpty_iff] at hcan
    obtain ⟨⟨-, hrecords⟩, hpending⟩ := hcan
    rw [h.live.records hhanded, List.append_eq_nil_iff, List.flatten_eq_nil_iff] at hrecords
    refine ⟨?_, hrecords.2, hpending, ?_⟩
    · rw [List.eq_nil_iff_forall_not_mem]
      intro e he
      exact h.nonempty e (List.mem_append_right _ he) (hrecords.1 _ (List.mem_map_of_mem he))
    · cases hmem : s.mem with
      | hashed ops => rfl
      | ordered es => exact absurd hno (by simp [hmem, MemTable.isOrdered])
  rw [Store.appendDirect]
  refine ⟨h.nonempty, h.segments, h.log.congr rfl rfl rfl rfl, h.runs.congr rfl rfl rfl rfl, ?_, ?_⟩
  · cases h.live with
    | hashed hmem _ hdirect hpending hrun =>
        obtain ⟨hlive, hstaged, hpend, hentries⟩ := hempty (by rw [hmem]; rfl)
        have hnone : t.entries = [] := by rw [Trail.entries, hrun]; rfl
        refine .ordered [(key, value)] ?_ hhanded ?_ ?_ hpend ?_ ?_ ?_
        · rw [hentries, hnone]
        · rw [hdirect, hrun]
          rfl
        · rw [Store.committed, hdirect, hnone]
          rfl
        · rw [hlive, hrun]
          rfl
        · rw [hstaged]
          rfl
        · rw [hnone]
          exact fun e he => (List.mem_singleton.mp he) ▸ hcarries
    | ordered tail hmem _ hrun hcommitted hpending hlive hstaged hcarried =>
        refine .ordered (tail ++ [(key, value)]) ?_ hhanded hrun hcommitted hpending hlive ?_ ?_
        · rw [hmem, MemTable.entries, List.append_assoc]
        · rw [hstaged, List.map_append]
          rfl
        · intro e he
          rw [← List.append_assoc] at he
          rcases List.mem_append.mp he with he | he
          · exact hcarried e he
          · exact (List.mem_singleton.mp he) ▸ hcarries
    | handed hhanded' => exact absurd hhanded (by simp [hhanded'])
    | stranded r hrecords _ hdirect hrun hlive =>
        refine .stranded r ?_ hhanded hdirect hrun hlive
        cases hmem : s.mem with
        | hashed ops =>
            obtain ⟨hnil, -⟩ := hempty (by rw [hmem]; rfl)
            have hr := h.runs.live
            rw [hrun] at hr
            rw [hlive, RunFile.logged, List.map_eq_nil_iff] at hnil
            exact absurd hnil hr.2
        | ordered es =>
            rw [← List.append_assoc, ← hrecords, hmem, MemTable.entries, MemTable.records, List.map_append]
            rfl
  · refine ⟨sorted_snoc h hhanded hlt, fun b hb => (h.keys.raised b hb).mono hlt.le,
      (h.keys.raisedStaged.mono hlt.le).append hraised, h.keys.apart, ?_⟩
    intro _ hno a ha hnone r hr r' hr'
    rw [MemTable.entries, List.map_append] at hr'
    rcases List.mem_append.mp hr' with hr' | hr'
    · exact h.keys.apartLive hhanded hno a ha hnone r hr r' hr'
    · rw [List.map_singleton, List.mem_singleton] at hr'
      subst hr'
      cases r with
      | put k v =>
          have hle : k ≤ s.maxKey := by
            refine h.keys.raised a.2 (List.mem_append_right _ (List.mem_map_of_mem ?_)) _ hr k v rfl
            exact List.mem_append_left _ ha
          exact (hle.trans_lt hlt).ne
      | delete k =>
          rintro (rfl : k = key)
          obtain ⟨j, hj, hmem⟩ := h.log.seals.records a ha _ hr
          exact hdelete j hj hmem

end Writes

/-- What an append needs: that no seal in flight deletes a key a run takes, and that a key behind a
close that failed is above all before it. -/
def Store.MayAppend (s : Store) (key value : Bytes) (fails : Bool) : Prop :=
  if (s.mem.isOrdered ∨ s.directCanOpen) ∧ s.goesDirect key value then
    ∀ j ∈ s.sealing, WalRecord.delete key ∉ j.table.records
  else s.mem.isOrdered → s.direct.isSome → fails → s.maxKey < key

instance (s : Store) (key value : Bytes) (fails : Bool) : Decidable (s.MayAppend key value fails) :=
  inferInstanceAs (Decidable (if (s.mem.isOrdered ∨ s.directCanOpen) ∧ s.goesDirect key value then
    ∀ j ∈ s.sealing, WalRecord.delete key ∉ j.table.records
  else s.mem.isOrdered → s.direct.isSome → fails → s.maxKey < key))

section Events

variable {s s' : Store} {t : Trail} {staged : List WalRecord} {key value : Bytes} {fails : Bool}

lemma writesGo_evolves (s : Store) (t : Trail) : Evolves s t none s.writesGo t := by
  rw [Store.writesGo]
  split_ifs
  · exact Evolves.refl rfl rfl rfl rfl rfl rfl rfl
  · exact Evolves.refl rfl rfl rfl rfl rfl rfl rfl

/-- **An append** stages one record, in the table or in the run. -/
lemma append_inv (h : s.Inv staged t) (hmay : s.writesGo.MayAppend key value fails) :
    ∃ t', (s.append key value fails).Inv (staged ++ [.put key value]) t' ∧
      Evolves s t none (s.append key value fails) t' := by
  obtain ⟨hgo, hhanded⟩ := writesGo_inv h
  have hevolves := writesGo_evolves s t
  rw [Store.append]
  generalize s.writesGo = w at *
  have hrefl : ∀ {w' : Store} {u : Trail}, Evolves s t none w' u →
      Evolves s t none (w'.appendLogged key value) u :=
    fun hw => hw.trans (Evolves.refl rfl rfl rfl rfl rfl rfl rfl)
  rw [Store.MayAppend] at hmay
  by_cases hopen : w.mem.isOrdered = true ∨ w.directCanOpen = true
  · rw [if_pos hopen]
    by_cases hgoes : w.goesDirect key value = true
    · rw [if_pos hgoes]
      rw [if_pos ⟨hopen, hgoes⟩] at hmay
      exact ⟨t, appendDirect_inv hgo hhanded hopen hgoes hmay,
        hevolves.trans (Evolves.refl rfl rfl rfl rfl rfl rfl rfl)⟩
    · rw [if_neg hgoes]
      rw [if_neg (fun hcon => hgoes hcon.2)] at hmay
      by_cases hordered : w.mem.isOrdered = true
      · rw [if_pos hordered]
        obtain ⟨u, hleave, hev, hhanded', hmax, hstill⟩ := leaveDirect_inv hgo hordered hhanded fails
        refine ⟨u, appendLogged_inv hleave hhanded' (fun hord => ?_), hrefl (hevolves.trans hev)⟩
        obtain ⟨hsome, hfails, hstranded⟩ := hstill hord
        rw [hmax]
        exact ⟨hstranded, hmay hordered hsome hfails⟩
      · rw [if_neg hordered]
        exact ⟨t, appendLogged_inv hgo hhanded (fun hord => absurd hord hordered), hrefl hevolves⟩
  · rw [if_neg hopen]
    exact ⟨t, appendLogged_inv hgo hhanded (fun hord => absurd (Or.inl hord) hopen), hrefl hevolves⟩

/-- What `put` and `delete` start with. -/
lemma leftDirect_inv (h : s.Inv staged t) (fails : Bool) :
    ∃ t', (s.leftDirect fails).Inv staged t' ∧ Evolves s t none (s.leftDirect fails) t' ∧
      (s.leftDirect fails).handed = false := by
  obtain ⟨hgo, hhanded⟩ := writesGo_inv h
  have hevolves := writesGo_evolves s t
  rw [Store.leftDirect]
  generalize s.writesGo = w at *
  by_cases hordered : w.mem.isOrdered = true
  · rw [if_pos hordered]
    obtain ⟨u, hleave, hev, hhanded', -⟩ := leaveDirect_inv hgo hordered hhanded fails
    exact ⟨u, hleave, hevolves.trans hev, hhanded'⟩
  · rw [if_neg hordered]
    exact ⟨t, hgo, hevolves, hhanded⟩

/-- **A put**, where it does not panic. -/
lemma put_inv (h : s.Inv staged t) (hput : s.put key value fails = some s') :
    ∃ t', s'.Inv (staged ++ [.delete key, .put key value]) t' ∧ Evolves s t none s' t' := by
  obtain ⟨u, hleft, hev, hhanded⟩ := leftDirect_inv h fails
  rw [Store.put] at hput
  generalize s.leftDirect fails = w at *
  cases hmem : w.mem with
  | ordered es => rw [hmem] at hput; exact absurd hput (by simp [MemTable.write])
  | hashed ops =>
      rw [hmem] at hput
      injection hput with hput
      subst hput
      refine ⟨u, logged_inv hleft hhanded hmem (le_raised w key).1 ?_,
        hev.trans (Evolves.refl rfl rfl rfl rfl rfl rfl rfl)⟩
      refine @raised_put _ key value _ (le_raised w key).2 (fun r hr => ?_)
      simpa using hr

/-- **A delete**, where it does not panic. -/
lemma delete_inv (h : s.Inv staged t) (hdelete : s.delete key fails = some s') :
    ∃ t', s'.Inv (staged ++ [.delete key]) t' ∧ Evolves s t none s' t' := by
  obtain ⟨u, hleft, hev, hhanded⟩ := leftDirect_inv h fails
  rw [Store.delete] at hdelete
  generalize s.leftDirect fails = w at *
  cases hmem : w.mem with
  | ordered es => rw [hmem] at hdelete; exact absurd hdelete (by simp [MemTable.write])
  | hashed ops =>
      rw [hmem] at hdelete
      injection hdelete with hdelete
      subst hdelete
      refine ⟨u, logged_inv hleft hhanded hmem (le_refl _) ?_,
        hev.trans (Evolves.refl rfl rfl rfl rfl rfl rfl rfl)⟩
      intro r hr k v heq
      rw [List.mem_singleton.mp hr] at heq
      exact absurd heq (by simp)

end Events

end Supdb
