import Supdb.TrailRun

/-!
# What an open finds

A loss cuts each log on its own, so an open finds the **survivors** of the history: of every log its
first so many batches, no fewer than are durable.  It stacks them otherwise than they were written,
every run's file below the replayed log, and reads the same all the same, since no key of a run is
one of a batch that went to the log before it.

* `mapM_rebuild`, `recovers_log` – the runs' files as pieces, and the log replayed.
* `openAfter_survivors` – **an open** reads what landed and, on top of it, the survivors of the
  history.
* `openAfter_durable`, `openAfter_prefix` – everything, where all of it is durable or kept; and a
  prefix of the batches, where the logs were synced in order.
* `readAll_eq` – what a read finds while the store is open.
-/

namespace Supdb

open StorageLib

/-- A crash that keeps what was committed: every byte of the log, and of each run's file the markers
of all its batches, which are on the file. -/
def Loss.Keeps (loss : Loss) (s : Store) : Prop :=
  (∀ f ∈ s.chain.files, f.bytes.length ≤ (loss.wal f.id).1 ∧ (loss.wal f.id).2 = false) ∧
    ∀ r ∈ s.runs, r.whole (s.leaves loss r) = r.batches.length

/-- How many of each log's batches not landed an open finds, where `j` of the WAL's are left. -/
def leftOf (s : Store) (loss : Loss) (j : ℕ) : Option ℕ → ℕ
  | none => j
  | some id => ((s.runs.find? (fun r => r.id = id)).map (fun r => r.whole (s.leaves loss r))).getD 0

section Files

variable {s : Store} {t : Trail} {staged : List WalRecord}

lemma find?_run {rs : List RunFile} (hids : (rs.map RunFile.id).Pairwise (· < ·)) {r : RunFile}
    (hr : r ∈ rs) : rs.find? (fun x => x.id = r.id) = some r := by
  induction rs with
  | nil => exact absurd hr List.not_mem_nil
  | cons x rs ih =>
      rw [List.map_cons, List.pairwise_cons] at hids
      rw [List.find?_cons]
      rcases List.mem_cons.mp hr with rfl | hr
      · simp
      · have hne : x.id ≠ r.id := (hids.1 r.id (List.mem_map_of_mem hr)).ne
        simp only [hne, decide_false]
        exact ih hids.2 hr

/-- The batches not landed that went to runs are those of the runs' files. -/
lemma runs_hist (hlog : LogOk s t) (hr : RunsOk s t) :
    t.hist.filter (fun e => !e.1.isNone) = s.runs.flatMap RunFile.logged := by
  have hlive : t.live.filter (fun e => !e.1.isNone) = t.run.toList.flatMap RunFile.logged := by
    have hl := hr.live
    cases hrun : t.run with
    | none =>
        rw [hrun] at hl
        rw [List.filter_eq_nil_iff.mpr (fun e he => by rw [hl e he]; simp)]
        rfl
    | some r =>
        rw [hrun] at hl
        rw [hl.1, Option.toList_some, List.flatMap_singleton, List.filter_eq_self]
        intro e he
        obtain ⟨b, -, rfl⟩ := List.mem_map.mp he
        rfl
  rw [Trail.hist, List.filter_append, hlog.seals.runs, hlive, hr.runs, List.flatMap_append]

lemma countIn_filter {p : Option ℕ → Bool} {l : Option ℕ} (hl : p l = true) (h : List Logged) :
    countIn l h = countIn l (h.filter (fun e => p e.1)) := by
  rw [countIn, countIn, List.countP_filter]
  refine List.countP_congr (fun e _ => ?_)
  simp only [decide_eq_true_eq, Bool.and_eq_true]
  exact ⟨fun he => ⟨he, he ▸ hl⟩, fun he => he.1⟩

lemma countIn_logged (r : RunFile) (id : ℕ) :
    countIn (some id) r.logged = if r.id = id then r.batches.length else 0 := by
  rw [countIn, RunFile.logged, List.countP_map]
  split_ifs with hid
  · rw [List.countP_eq_length.mpr]
    intro b _
    simp [hid]
  · rw [List.countP_eq_zero]
    intro b _
    simp [hid]

/-- How many batches went to a run: those of its file. -/
lemma countIn_runs {rs : List RunFile} (hids : (rs.map RunFile.id).Pairwise (· < ·)) (id : ℕ) :
    countIn (some id) (rs.flatMap RunFile.logged)
      = ((rs.find? (fun r => r.id = id)).map (fun r => r.batches.length)).getD 0 := by
  induction rs with
  | nil => rfl
  | cons r rs ih =>
      rw [List.map_cons, List.pairwise_cons] at hids
      rw [List.flatMap_cons, countIn_append, countIn_logged, ih hids.2, List.find?_cons]
      by_cases hid : r.id = id
      · have hnone : rs.find? (fun x => x.id = id) = none := by
          rw [List.find?_eq_none]
          intro x hx
          have := hids.1 x.id (List.mem_map_of_mem hx)
          simp only [decide_eq_true_eq]
          omega
        simp [hid, hnone]
      · simp [hid]

/-- How many batches of a run are not landed. -/
lemma countIn_run (hlog : LogOk s t) (hr : RunsOk s t) (id : ℕ) :
    countIn (some id) t.hist
      = ((s.runs.find? (fun r => r.id = id)).map (fun r => r.batches.length)).getD 0 := by
  have hp := @countIn_filter (fun l => !l.isNone) (some id) rfl t.hist
  rw [hp, runs_hist hlog hr, countIn_runs hr.ids]

/-- A crash leaves what was synced of a run's file. -/
lemma synced_le_leaves {f : RunFile} (h : f.Ok s.opts.direct) (loss : Loss) :
    f.synced ≤ s.leaves loss f := by
  refine le_min ?_ (le_max_right _ _)
  rw [Store.onFile]
  split_ifs
  · exact h.synced.trans h.landed
  · exact h.synced

/-- What is left of each log is no less than what is durable, and all of it where the loss keeps it.
-/
lemma durable_le_leftOf (hr : RunsOk s t) (loss : Loss) {j : ℕ} (hj : durable s t none ≤ j)
    (l : Option ℕ) : durable s t l ≤ leftOf s loss j l := by
  cases l with
  | none => exact hj
  | some id =>
      rw [durable, runDurable, leftOf]
      cases hfind : s.runs.find? (fun r => r.id = id) with
      | none => exact le_rfl
      | some r => exact r.whole_mono (synced_le_leaves (hr.files r (List.mem_of_find?_eq_some hfind)) loss)

lemma count_le_leftOf (hlog : LogOk s t) (hr : RunsOk s t) {loss : Loss}
    (hkeeps : loss.Keeps s) {j : ℕ}
    (hj : countIn none t.hist ≤ j) (l : Option ℕ) : countIn l t.hist ≤ leftOf s loss j l := by
  cases l with
  | none => exact hj
  | some id =>
      rw [countIn_run hlog hr, leftOf]
      cases hfind : s.runs.find? (fun r => r.id = id) with
      | none => exact le_refl _
      | some r => exact (hkeeps.2 r (List.mem_of_find?_eq_some hfind)).ge

/-! ## The open's parts -/

/-- The runs' files, rebuilt as pieces. -/
lemma mapM_rebuild {recs : List (List (Bytes × Bytes))}
    (hsorted : ∀ r ∈ recs, (r.map Prod.fst).Pairwise (· < ·)) :
    recs.mapM Store.rebuild = .ok (recs.map pieceEntries) := by
  induction recs with
  | nil => rfl
  | cons r recs ih =>
      obtain ⟨hr, hrecs⟩ := List.forall_mem_cons.mp hsorted
      rw [List.mapM_cons, Store.rebuild, if_pos hr, ih hrecs]
      rfl

/-- What a run's file gives, and that its keys ascend. -/
lemma recovered_sorted (hr : RunsOk s t) {base : ℕ} (hbase : 4 ∣ base) (loss : Loss) {r : RunFile}
    (hmem : r ∈ s.runs) :
    r.recovered base (s.leaves loss r) = (r.batches.take (r.whole (s.leaves loss r))).flatten ∧
      ((r.recovered base (s.leaves loss r)).map Prod.fst).Pairwise (· < ·) := by
  have heq := RunFile.recovered_eq (hr.files r hmem) hbase (s.leaves loss r)
  refine ⟨heq, ?_⟩
  rw [heq]
  refine (hr.sorted r hmem).sublist (List.Sublist.map _ ?_)
  exact (List.take_sublist _ _).flatten

/-- The log replayed: the WAL's batches above the covered sequence, up to where it was cut. -/
lemma recovers_log (hlog : LogOk s t) (loss : Loss) :
    ∃ j, durable s t none ≤ j ∧ (loss.Keeps s → countIn none t.hist ≤ j) ∧ ∃ c,
      reopen s.covered (s.chain.files.map (fun f => f.lose (loss.wal f.id)))
        = .ok (((walOf t.hist).take j).flatten.map WalRecord.applied, c) := by
  have hopened : ∀ {bs : List (List WalRecord)} {fs : List LogFile},
      (∃ o, openFiles s.covered true fs = .ok o ∧ o.applied = bs.flatten.map WalRecord.applied) →
      ∃ c, reopen s.covered fs = .ok (bs.flatten.map WalRecord.applied, c) := by
    rintro bs fs ⟨o, ho, happlied⟩
    rw [reopen, ho, ← happlied]
    simp only [bind, Except.bind]
    split
    · exact ⟨_, rfl⟩
    · exact ⟨_, rfl⟩
  have hcount : countIn none t.hist = t.log.length - t.cut := by
    rw [countIn_none, ← hlog.above, List.length_drop]
  by_cases hkeeps : loss.Keeps s
  · refine ⟨countIn none t.hist, ?_, fun _ => le_refl _, ?_⟩
    · rw [durable, hcount]
      exact Nat.sub_le_sub_right (durCount_le hlog.chain.files_whole) _
    · refine hopened ?_
      rw [countIn_none, List.take_length, ← hlog.above]
      exact openFiles_kept hlog.chain.files_whole hlog.cut hlog.covered hkeeps.1 true
  · obtain ⟨j, hj, hopen⟩ :=
      openFiles_covered hlog.chain.files_whole hlog.chain.wf hlog.chain.durable hlog.cut
      hlog.covered loss.wal true
    refine ⟨j, ?_, fun hk => absurd hk hkeeps, ?_⟩
    · rw [durable]
      omega
    · refine hopened ?_
      rw [← hlog.above]
      exact hopen

end Files

/-! ## What is read -/

section Reads

variable {s : Store} {t : Trail} {staged : List WalRecord}

lemma ofApplied_applied (r : WalRecord) : WalRecord.ofApplied r.applied = r := by
  cases r <;> rfl

/-- What batches say of a key together. -/
def saidBy (k : Bytes) (h : List Logged) : Delta Bytes := (h.map (fun e => recordsDelta e.2 k)).prod

lemma saidBy_eq (k : Bytes) (h : List Logged) :
    saidBy k h = recordsDelta (h.map Prod.snd).flatten k := by
  rw [saidBy, recordsDelta_flatten, List.map_map]
  rfl

/-- Batches of which a run's have no key of the WAL's before them: the runs' may be read first. -/
lemma saidBy_runs_first {h : List Logged}
    (hapart : h.Pairwise (fun a b => a.1 = none → b.1 ≠ none → KeysApart a.2 b.2)) (k : Bytes) :
    saidBy k (h.filter (fun e => !e.1.isNone)) * saidBy k (h.filter (fun e => e.1.isNone))
    = saidBy k h := by
  have hcomm : h.Pairwise (fun a b => (!a.1.isNone) = false → (!b.1.isNone) = true →
      recordsDelta a.2 k * recordsDelta b.2 k = recordsDelta b.2 k * recordsDelta a.2 k) := by
    refine hapart.imp (fun {a b} hab hwal hrun => ?_)
    have hwal : a.1 = none := by simpa using hwal
    have hrun : b.1 ≠ none := by
      intro hnone
      rw [hnone] at hrun
      exact absurd hrun (by simp)
    have hkeys := hab hwal hrun
    by_cases hk : ∃ r ∈ a.2, r.key = k
    · obtain ⟨r, hr, rfl⟩ := hk
      have hone : recordsDelta b.2 r.key = 1 :=
        recordsDelta_eq_one (fun r' hr' heq => hkeys r hr r' hr' heq.symm)
      rw [hone, one_mul, mul_one]
    · have hone : recordsDelta a.2 k = 1 := recordsDelta_eq_one (fun r hr heq => hk ⟨r, hr, heq⟩)
      rw [hone, one_mul, mul_one]
  have hprod := prod_filter_mul_prod_filter (fun e : Logged => !e.1.isNone)
    (fun e => recordsDelta e.2 k) h hcomm
  simp only [Bool.not_not] at hprod
  exact hprod

/-- The pieces the runs' files are rebuilt as say what is left of the runs' batches. -/
lemma said_pieces (hr : RunsOk s t) {base : ℕ} (hbase : 4 ∣ base) (loss : Loss) (j : ℕ)
    (k : Bytes) : (((s.runs.map (fun f => f.recovered base (s.leaves loss f))).filter (· ≠ [])).map
        (fun es => deltaIn (pieceEntries es) k)).prod
      = saidBy k (survivors (leftOf s loss j) (s.runs.flatMap RunFile.logged)) := by
  have hdelta : ∀ r ∈ s.runs, deltaIn (pieceEntries (r.recovered base (s.leaves loss r))) k
      = saidBy k ((r.logged).take (leftOf s loss j (some r.id))) := by
    intro r hmem
    obtain ⟨heq, hsorted⟩ := recovered_sorted hr hbase loss hmem
    rw [deltaIn_pieceEntries hsorted, saidBy_eq, leftOf, find?_run hr.ids hmem, heq, RunFile.logged,
      ← List.map_take, List.map_map, List.map_flatten]
    rfl
  have hdrop : ∀ recs : List (List (Bytes × Bytes)),
      ((recs.filter (· ≠ [])).map (fun es => deltaIn (pieceEntries es) k)).prod
        = (recs.map (fun es => deltaIn (pieceEntries es) k)).prod := by
    intro recs
    induction recs with
    | nil => rfl
    | cons es recs ih =>
        cases es with
        | nil =>
            rw [List.filter_cons_of_neg (by simp), List.map_cons, List.prod_cons, ih]
            exact (one_mul _).symm
        | cons e es =>
            rw [List.filter_cons_of_pos (by simp), List.map_cons, List.prod_cons, ih, List.map_cons,
              List.prod_cons]
  have hnodup : (s.runs.map (fun r => (some r.id : Option ℕ))).Nodup := by
    have := (hr.ids.imp (fun hlt => ne_of_lt hlt) : (s.runs.map RunFile.id).Nodup)
    have hmap : s.runs.map (fun r => (some r.id : Option ℕ))
      = (s.runs.map RunFile.id).map some := by
      rw [List.map_map]
      rfl
    rw [hmap]
    exact List.Nodup.map (Option.some_injective _) this
  have hlogged : s.runs.flatMap RunFile.logged
      = s.runs.flatMap (fun r => (r.batches.map (fun b => b.map asPut)).map (fun b => (some r.id, b))) := by
    refine List.flatMap_congr (fun r _ => ?_)
    rw [RunFile.logged, List.map_map]
    rfl
  rw [hdrop, List.map_map, hlogged, survivors_flatMap hnodup, saidBy, List.map_flatMap,
    List.flatMap_def, List.prod_flatten, List.map_map]
  refine congrArg List.prod (List.map_congr_left (fun r hmem => ?_))
  rw [Function.comp_apply, Function.comp_apply, hdelta r hmem, saidBy,
    RunFile.logged, ← List.map_take, ← List.map_take]
  simp only [List.map_map]
  rfl

/-- **An open** reads what has landed and, on top of it, what survives of the history: of each log
no less than is durable, and all of it where the loss keeps it. -/
lemma openAfter_survivors (h : s.Inv staged t) {base : ℕ} (hbase : 4 ∣ base) (loss : Loss) :
    ∃ cut, (∀ l, durable s t l ≤ cut l) ∧ (loss.Keeps s → ∀ l, countIn l t.hist ≤ cut l) ∧
      ∃ s', Store.openAfter base s loss = .ok s' ∧
        ∀ k, s'.readAll k = liveValues (t.landed ++ (survivors cut t.hist).map Prod.snd).flatten k := by
  obtain ⟨j, hj, hkept, c, hopen⟩ := recovers_log h.log loss
  refine ⟨leftOf s loss j, durable_le_leftOf h.runs loss hj,
    fun hkeeps => count_le_leftOf h.log h.runs hkeeps (hkept hkeeps), ?_⟩
  have hsorted : ∀ es ∈ (s.runs.map (fun f => f.recovered base (s.leaves loss f))).filter (· ≠ []),
      (es.map Prod.fst).Pairwise (· < ·) := by
    intro es hes
    obtain ⟨r, hr, rfl⟩ := List.mem_map.mp (List.mem_filter.mp hes).1
    exact (recovered_sorted h.runs hbase loss hr).2
  rw [Store.openAfter, mapM_rebuild hsorted, hopen]
  refine ⟨_, rfl, fun k => ?_⟩
  -- the WAL's batches left, and the runs'
  have hwal : (survivors (leftOf s loss j) t.hist).filter (fun e => e.1.isNone)
      = ((walOf t.hist).take j).map (fun b => (none, b)) := by
    have hnone : t.hist.filter (fun e => e.1.isNone) = (walOf t.hist).map (fun b => (none, b)) := by
      rw [walOf, List.map_map]
      refine (List.map_id _).symm.trans (List.map_congr_left (fun e he => ?_))
      have := (List.mem_filter.mp he).2
      exact Prod.ext (Option.isNone_iff_eq_none.mp this) rfl
    rw [survivors_filter (fun l : Option ℕ => l.isNone), hnone, survivors_of_log]
    rfl
  have hrun : (survivors (leftOf s loss j) t.hist).filter (fun e => !e.1.isNone)
      = survivors (leftOf s loss j) (s.runs.flatMap RunFile.logged) := by
    rw [survivors_filter (fun l : Option ℕ => !l.isNone), runs_hist h.log h.runs]
  have hmem : ((((walOf t.hist).take j).flatten.map WalRecord.applied).map WalRecord.ofApplied)
      = ((walOf t.hist).take j).flatten := by
    rw [List.map_map]
    refine (List.map_congr_left (fun r _ => ?_)).trans (List.map_id _)
    exact ofApplied_applied r
  have hsaid : recordsDelta ((walOf t.hist).take j).flatten k
      = saidBy k ((survivors (leftOf s loss j) t.hist).filter (fun e => e.1.isNone)) := by
    rw [hwal, saidBy_eq, List.map_map]
    simp [Function.comp_def]
  have hwhole :=
    saidBy_runs_first (h.keys.apart.sublist (@survivors_sublist _ _ _ (leftOf s loss j) t.hist)) k
  rw [Store.readAll, Store.frozen]
  simp only [Bool.false_eq_true, if_false, List.map_nil, List.prod_nil, mul_one, MemTable.read]
  rw [List.map_append, List.prod_append, List.map_map, h.segments, hmem, hsaid]
  have hpieces := said_pieces h.runs hbase loss j k
  rw [← hrun] at hpieces
  rw [show (fun es => deltaIn es k) ∘ pieceEntries = fun es => deltaIn (pieceEntries es) k from rfl,
    hpieces,
    mul_assoc, hwhole, saidBy_eq, ← recordsDelta_append, ← List.flatten_append, vals_recordsDelta]

/-- Where every batch is durable, or the loss keeps it, an open finds all that is committed. -/
lemma openAfter_durable (h : s.Inv staged t) {base : ℕ} (hbase : 4 ∣ base) {loss : Loss}
    (hall : DurableBut (fun _ => False) s t ∨ loss.Keeps s) :
    ∃ s', Store.openAfter base s loss = .ok s' ∧
    ∀ k, s'.readAll k = liveValues t.batches.flatten k := by
  obtain ⟨cut, hdur, hkeeps, s', hopen, hread⟩ := openAfter_survivors h hbase loss
  have hcut : ∀ l, countIn l t.hist ≤ cut l := by
    rcases hall with hall | hall
    · exact fun l => (hall l not_false).trans (hdur l)
    · exact hkeeps hall
  refine ⟨s', hopen, fun k => ?_⟩
  rw [hread, survivors_of_count_le hcut]
  rfl

/-- Where the logs were synced in order, an open finds a prefix of what is committed. -/
lemma openAfter_prefix (h : s.Inv staged t) {base : ℕ} (hbase : 4 ∣ base) (loss : Loss)
    (horder : InOrder (durable s t) t.hist) :
    ∃ n s', Store.openAfter base s loss = .ok s' ∧
      ∀ k, s'.readAll k = liveValues (t.batches.take n).flatten k := by
  obtain ⟨cut, hdur, -, s', hopen, hread⟩ := openAfter_survivors h hbase loss
  obtain ⟨rest, hrest⟩ := survivors_prefix horder hdur
  generalize survivors cut t.hist = left at *
  refine ⟨t.landed.length + left.length, s', hopen, fun k => ?_⟩
  rw [hread, Trail.batches, List.take_length_add_append, ← List.map_take, ← hrest, List.take_left]

/-- The tables of the seals in flight say what their batches do. -/
lemma saidBy_seals {covered base : ℕ} {parts : List Part} {js : List InFlight}
    {fs : List (List Logged)} (h : SealsOk covered base parts js fs)
    (hsorted : ∀ r ∈ js.filterMap InFlight.file, (r.batches.flatten.map Prod.fst).Pairwise (· < ·))
    (k : Bytes) : (js.map (fun j => j.table.read k)).prod = saidBy k fs.flatten := by
  induction js generalizing covered base parts fs with
  | nil =>
      cases fs with
      | nil => rfl
      | cons f fs => exact h.elim
  | cons j js ih =>
      cases fs with
      | nil => exact h.elim
      | cons f fs =>
          obtain ⟨hholds, -, ps, qs, -, -, -, hrest⟩ := h
          have htable : j.table.Sorted := by
            have hj := hholds
            rw [InFlight.Holds] at hj
            cases hfile : j.file with
            | none =>
                rw [hfile] at hj
                rw [hj.2]
                exact List.Pairwise.nil
            | some r =>
                rw [hfile] at hj
                rw [hj.2]
                exact hsorted r (List.mem_filterMap.mpr ⟨j, List.mem_cons_self .., hfile⟩)
          have hread : j.table.read k = saidBy k f := by
            rw [MemTable.read_eq htable, hholds.records, saidBy_eq]
          have hprod : saidBy k (f ++ fs.flatten) = saidBy k f * saidBy k fs.flatten := by
            rw [saidBy, List.map_append, List.prod_append]
            rfl
          rw [List.map_cons, List.prod_cons, List.flatten_cons, hprod, hread, ih hrest]
          intro r hr
          obtain ⟨i, hi, hfile⟩ := List.mem_filterMap.mp hr
          exact hsorted r (List.mem_filterMap.mpr ⟨i, List.mem_cons_of_mem _ hi, hfile⟩)

/-- **What a read finds** of an open store: everything written. -/
lemma readAll_eq (h : s.Inv staged t) (k : Bytes) :
    s.readAll k = liveValues (t.batches.flatten ++ staged) k := by
  have hseals : (s.sealing.map (fun j => j.table.read k)).prod = saidBy k t.frozen.flatten := by
    refine saidBy_seals h.log.seals (fun r hr => h.runs.sorted r ?_) k
    rw [h.runs.runs]
    exact List.mem_append_left _ hr
  have htables : (s.frozen.map (fun j => j.table.read k)).prod * s.mem.read k
      = saidBy k t.hist * recordsDelta staged k := by
    have hread := MemTable.read_eq h.keys.sorted k
    rw [Store.frozen, Trail.hist, saidBy, List.map_append,
      List.prod_append, ← saidBy, ← saidBy, ← hseals]
    cases hhanded : s.handed with
    | false =>
        rw [hread, h.live.records hhanded, recordsDelta_append, ← saidBy_eq, mul_assoc]
        rfl
    | true =>
        cases h.live with
        | hashed _ hh => exact absurd hhanded (by simp [hh])
        | ordered _ _ hh => exact absurd hhanded (by simp [hh])
        | handed _ _ _ _ hlive hstaged hmem =>
            subst hstaged
            rw [hlive, recordsDelta_nil, mul_one]
            have hnil : saidBy k [] = 1 := rfl
            rw [hnil, mul_one, if_pos rfl]
            rcases List.eq_nil_or_concat s.sealing with hnone | ⟨init, last, hlast⟩
            · rw [hnone] at hmem ⊢
              rw [hmem]
              exact one_mul _
            · rw [hlast] at hmem ⊢
              simp only [List.concat_eq_append, List.getLast?_concat, Option.map_some, Option.getD_some] at hmem
              rw [hmem, List.concat_eq_append, List.dropLast_concat, List.map_append,
                List.prod_append, List.map_singleton, List.prod_singleton]
        | stranded _ _ hh => exact absurd hhanded (by simp [hh])
  rw [Store.readAll, mul_assoc, htables, h.segments, saidBy_eq, ← mul_assoc, ← recordsDelta_append,
    ← recordsDelta_append, vals_recordsDelta, Trail.batches, List.flatten_append]

end Reads

end Supdb
