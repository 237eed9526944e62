import Supdb.WalHistory

/-!
# A log behind a manifest

Once a seal has landed, the manifest covers the log up to a sequence.  The files that lie wholly
below it are retired, and an open replays the others from that sequence on, which may stand inside a
file.

* `Chain.retire` – the files a landing removes.
* `openFiles_covered` – **the files after a power loss, read from a covered sequence on**: a prefix
  of the batches above it, and of all batches at least those the syncs covered.
-/

namespace Supdb

open StorageLib

/-! ## Reading from a covered sequence -/

section Covered

variable {f : LogFile} {fs : List LogFile} {ps : List Part} {kind : UInt8} {start : ℕ}
  {kept : List (List WalRecord)}

/-- One file applied, and what the files behind it give. -/
lemma openFiles_cons {fromSeq next valid : ℕ} {first : Bool} {a x : List Applied}
    (hrun : f.replay fromSeq first = ⟨a, .ok (next, valid, false)⟩)
    (hrest : ∃ o, openFiles next false fs = .ok o ∧ o.applied = x) :
    ∃ o, openFiles fromSeq first (f :: fs) = .ok o ∧ o.applied = a ++ x := by
  obtain ⟨o, ho, rfl⟩ := hrest
  by_cases hfs : fs = []
  · subst hfs
    rw [openFiles] at ho
    injection ho with ho
    refine ⟨⟨a, next, [f], valid⟩, ?_, by rw [← ho, List.append_nil]⟩
    simp only [openFiles, hrun, or_true, if_true]
  · refine ⟨{ o with applied := a ++ o.applied, kept := f :: o.kept }, ?_, rfl⟩
    simp only [openFiles, hrun, ho, hfs, Bool.false_eq_true, or_self, if_false]
    rfl

lemma openFiles_applied_behind {seq : ℕ} (h : ∀ g ∈ fs, g.Behind seq) :
    ∃ o, openFiles seq false fs = .ok o ∧ o.applied = [] := by
  by_cases hfs : fs = []
  · subst hfs
    exact ⟨_, rfl, rfl⟩
  · obtain ⟨init, last, ps, p, valid, hopen, -⟩ := openFiles_behind hfs h
    exact ⟨_, hopen, rfl⟩

lemma openFiles_applied_readable {seq : ℕ} {bs : List (List WalRecord)} (h : Readable seq fs bs) :
    ∃ o, openFiles seq false fs = .ok o ∧ o.applied = bs.flatten.map WalRecord.applied := by
  by_cases hfs : fs = []
  · subst hfs
    exact ⟨_, rfl, by rw [(h : bs = [])]; rfl⟩
  · obtain ⟨init, last, ps, p, valid, hopen, -⟩ := openFiles_readable hfs h false
    exact ⟨_, hopen, rfl⟩

lemma frameCount_take_le (bs : List (List WalRecord)) (n : ℕ) :
    frameCount (bs.take n) ≤ frameCount bs := by
  calc frameCount (bs.take n) ≤ frameCount (bs.take n) + frameCount (bs.drop n) := Nat.le_add_right _ _
    _ = frameCount bs := by rw [← frameCount_append, List.take_append_drop]

lemma frameCount_drop_pos {bs : List (List WalRecord)} {n : ℕ} (h : n < bs.length) :
    0 < frameCount (bs.drop n) := by
  rw [List.drop_eq_getElem_cons h, frameCount_cons]
  omega

/-- A file whose batches are all covered gives nothing, cut or not. -/
lemma LogFile.Holds.replay_below {seq covered : ℕ} (h : f.Holds kind start kept)
    (hstart : kept ≠ [] → start = seq) (hle : seq + frameCount kept ≤ covered) (first : Bool) :
    ∃ valid, f.replay covered first = ⟨[], .ok (covered, valid, false)⟩ := by
  cases kept with
  | nil => exact ⟨_, h.replay_nil covered first⟩
  | cons b bs =>
      rw [← hstart (List.cons_ne_nil _ _)] at hle
      rw [← List.append_nil (b :: bs)] at h
      exact ⟨_, h.replay_split first hle (fun hne => absurd rfl hne)⟩

/-- A file that holds the covered sequence gives what it has above it. -/
lemma LogFile.Holds.replay_above {seq covered m : ℕ} (h : f.Holds kind seq kept)
    (hcov : covered = seq + frameCount (kept.take m)) (first : Bool) :
    ∃ valid, f.replay covered first
      = ⟨(kept.drop m).flatten.map WalRecord.applied,
          .ok (covered + frameCount (kept.drop m), valid, false)⟩ := by
  rw [← List.take_append_drop m kept] at h
  exact ⟨_, h.replay_split first hcov.ge (fun _ => hcov.symm)⟩

lemma durCount_cons_le (f : LogFile) (fs : List LogFile) (p : Part) (ps : List Part) :
    durCount (f :: fs) (p :: ps) ≤ p.kept.length + durCount fs ps := by
  rw [durCount]
  split_ifs
  · exact le_refl _
  · exact (wholeIn_le _ _ _ _).trans (Nat.le_add_right _ _)

/-- **The files after a power loss, read from a covered sequence on.**  The open succeeds, and
applies a prefix of the batches above it; with those below, all that the syncs covered. -/
lemma openFiles_covered {seq covered m : ℕ} (hwhole : Whole seq fs ps) (hwf : ∀ f ∈ fs, f.Wf)
    (hdur : DurableOk fs) (hm : m ≤ (batchesOf ps).length)
    (hcov : covered = seq + frameCount ((batchesOf ps).take m)) (loss : ℕ → ℕ × Bool)
    (first : Bool) : ∃ j, durCount fs ps ≤ m + j ∧
      ∃ o, openFiles covered first (fs.map (fun f => f.lose (loss f.id))) = .ok o ∧
        o.applied = (((batchesOf ps).drop m).take j).flatten.map WalRecord.applied := by
  induction fs generalizing seq ps m first with
  | nil =>
      cases ps with
      | nil => exact ⟨0, Nat.zero_le _, _, rfl, by simp⟩
      | cons p ps => exact hwhole.elim
  | cons f fs ih =>
      cases ps with
      | nil => exact hwhole.elim
      | cons p ps =>
          obtain ⟨⟨kind, hf⟩, hstart, hrest⟩ := hwhole
          obtain ⟨hfirst, hdur⟩ := hdur
          have hwf' : ∀ f ∈ fs, f.Wf := fun f hf => hwf f (List.mem_cons_of_mem _ hf)
          obtain ⟨kind', i, hi, hsafe, hcovered, -⟩ := hf.lose (hwf f (List.mem_cons_self ..)) (loss f.id)
          rw [batchesOf_cons, List.length_append] at hm
          rw [batchesOf_cons] at hcov ⊢
          rw [List.map_cons]
          by_cases hbelow : p.kept.length ≤ m
          · -- every batch of the file is covered, whatever is left of it
            rw [List.take_append, List.take_of_length_le hbelow, frameCount_append, ← Nat.add_assoc] at hcov
            obtain ⟨j, hj, hopen⟩ := ih hrest hwf' hdur (by omega) hcov false
            have hle : seq + frameCount (p.kept.take i) ≤ covered := by
              have := frameCount_take_le p.kept i
              omega
            obtain ⟨valid, hrun⟩ := hi.replay_below
              (fun hne => hstart (fun hnil => hne (by rw [hnil, List.take_nil]))) hle first
            refine ⟨j, ?_, ?_⟩
            · have := durCount_cons_le f fs p ps
              omega
            · rw [List.drop_append, List.drop_of_length_le hbelow, List.nil_append]
              exact openFiles_cons hrun hopen
          · have hlt : m < p.kept.length := by omega
            have hkept : p.kept ≠ [] := by
              rintro hnil
              rw [hnil] at hlt
              exact absurd hlt (Nat.not_lt_zero _)
            rw [hstart hkept] at hi hcovered
            rw [List.take_append_of_le_length hlt.le] at hcov
            rw [List.drop_append_of_le_length hlt.le]
            have hsplit : frameCount (p.kept.take m) + frameCount (p.kept.drop m) = frameCount p.kept := by
              rw [← frameCount_append, List.take_append_drop]
            by_cases hall : p.kept.take i = p.kept
            · -- the file is whole, and the rest follows it
              rw [hall] at hi
              obtain ⟨valid, hrun⟩ := hi.replay_above hcov first
              obtain ⟨j, hj, hread⟩ := readable_lose hrest hwf' hdur loss
              rw [show seq + frameCount p.kept = covered + frameCount (p.kept.drop m) by omega] at hread
              obtain ⟨o, ho, happ⟩ := openFiles_cons hrun (openFiles_applied_readable hread)
              refine ⟨(p.kept.drop m).length + j, ?_, o, ho, ?_⟩
              · have := durCount_cons_le f fs p ps
                rw [List.length_drop]
                omega
              · rw [happ, List.take_length_add_append, List.flatten_append, List.map_append]
            · -- a batch of the file is lost, and every file behind it is loose
              have hunsafe : ¬ f.Safe := fun h => hall (hsafe h)
              have hlen : i < p.kept.length := by
                by_contra h
                exact hall (List.take_of_length_le (by omega))
              have hdurCount : durCount (f :: fs) (p :: ps) ≤ i := by
                rw [durCount, if_neg hunsafe, hstart hkept]
                exact hcovered
              have hpos := frameCount_drop_pos hlen
              have hi' : frameCount (p.kept.take i) + frameCount (p.kept.drop i) = frameCount p.kept := by
                rw [← frameCount_append, List.take_append_drop]
              have hbehind : ∀ next, next < seq + frameCount p.kept →
                  ∃ o, openFiles next false (fs.map (fun f => f.lose (loss f.id))) = .ok o ∧
                    o.applied = [] := fun next hnext => openFiles_applied_behind
                (behind_of_loose hrest hwf' (hfirst.resolve_left hunsafe) hnext loss)
              by_cases him : i ≤ m
              · have hle : seq + frameCount (p.kept.take i) ≤ covered := by
                  have := frameCount_take_le (p.kept.take m) i
                  rw [List.take_take, Nat.min_eq_left him] at this
                  omega
                obtain ⟨valid, hrun⟩ := hi.replay_below (fun _ => rfl) hle first
                have hmpos := frameCount_drop_pos hlt
                obtain ⟨o, ho, happ⟩ := openFiles_cons hrun (hbehind covered (by omega))
                exact ⟨0, by omega, o, ho, by simpa using happ⟩
              · have htake : (p.kept.take i).take m = p.kept.take m := by
                  rw [List.take_take, Nat.min_eq_left (by omega)]
                have hcov' : covered = seq + frameCount ((p.kept.take i).take m) := by
                  rw [htake]
                  exact hcov
                obtain ⟨valid, hrun⟩ := hi.replay_above hcov' first
                have hsub : frameCount (p.kept.take m) + frameCount ((p.kept.take i).drop m)
                    = frameCount (p.kept.take i) := by
                  rw [← htake, ← frameCount_append, List.take_append_drop]
                obtain ⟨o, ho, happ⟩ := openFiles_cons hrun (hbehind _ (by omega))
                refine ⟨i - m, by omega, o, ho, ?_⟩
                rw [happ, List.append_nil, List.take_append_of_le_length (by rw [List.length_drop]; omega),
                  List.take_drop, Nat.add_sub_cancel' (by omega)]

lemma whole_sync {seq : ℕ} (h : Whole seq fs ps) : Whole seq (fs.map LogFile.sync) ps := by
  induction fs generalizing seq ps with
  | nil => exact h
  | cons f fs ih =>
      cases ps with
      | nil => exact h.elim
      | cons p ps => exact ⟨h.1, h.2.1, ih h.2.2⟩

/-- A loss that takes nothing of a file. -/
lemma LogFile.lose_of_keeps {loss : ℕ × Bool} (hlen : f.bytes.length ≤ loss.1)
    (hkind : loss.2 = false) : f.lose loss = f.sync.lose (0, false) := by
  have htake : ∀ n, f.bytes.length ≤ n → f.bytes.take n = f.bytes := fun n => List.take_of_length_le
  have hlose : f.lose loss = ⟨f.id, f.bytes, f.bytes.length, none, false⟩ := by
    rw [LogFile.lose, hkind]
    cases f.oldKind with
    | none => simp only [htake _ (hlen.trans (le_max_left _ _))]
    | some k => simp only [htake _ (hlen.trans (le_max_left _ _))]
  rw [hlose]
  simp only [LogFile.lose, LogFile.sync, htake _ (le_max_right 0 f.bytes.length)]

/-- The files after a crash that took nothing, read from a covered sequence on: every batch above
it. -/
lemma openFiles_kept {seq covered m : ℕ} (hwhole : Whole seq fs ps) (hm : m ≤ (batchesOf ps).length)
    (hcov : covered = seq + frameCount ((batchesOf ps).take m)) {loss : ℕ → ℕ × Bool}
    (hkeeps : ∀ f ∈ fs, f.bytes.length ≤ (loss f.id).1 ∧ (loss f.id).2 = false) (first : Bool) :
    ∃ o, openFiles covered first (fs.map (fun f => f.lose (loss f.id))) = .ok o ∧
      o.applied = ((batchesOf ps).drop m).flatten.map WalRecord.applied := by
  have hfiles : fs.map (fun f => f.lose (loss f.id))
      = (fs.map LogFile.sync).map (fun f => f.lose ((fun _ => (0, false)) f.id)) := by
    rw [List.map_map]
    exact List.map_congr_left (fun f hf => LogFile.lose_of_keeps (hkeeps f hf).1 (hkeeps f hf).2)
  have hsafe : ∀ f ∈ fs.map LogFile.sync, f.Safe := by
    intro f hf
    obtain ⟨g, -, rfl⟩ := List.mem_map.mp hf
    exact g.safe_sync
  have hwf : ∀ f ∈ fs.map LogFile.sync, f.Wf := by
    intro f hf
    obtain ⟨g, -, rfl⟩ := List.mem_map.mp hf
    exact ⟨le_refl _, fun k hk => absurd hk (by simp [LogFile.sync])⟩
  obtain ⟨j, hj, o, ho, happ⟩ :=
    openFiles_covered (whole_sync hwhole) hwf (durableOk_of_safe hsafe) hm hcov
    (fun _ => (0, false)) first
  rw [durCount_of_safe (whole_length (whole_sync hwhole)) hsafe] at hj
  refine ⟨o, hfiles ▸ ho, ?_⟩
  rw [happ, List.take_of_length_le (by rw [List.length_drop]; omega)]

end Covered

/-! ## Retiring files -/

/-- The files a landing removes: those below the sequence it covers. -/
def Chain.retire (c : Chain) (ids : List ℕ) : Chain :=
  { c with closed := c.closed.filter (fun f => f.id ∉ ids) }

section Retire

variable {fs gs : List LogFile} {ps qs : List Part}

/-- Elements whose names are the first of a list of distinct names. -/
lemma filter_notMem_names {α : Type} {name : α → ℕ} {as : List α} {ids rest : List ℕ}
    (h : as.map name = ids ++ rest) (hnodup : (ids ++ rest).Nodup) :
    as.filter (fun a => name a ∉ ids) = as.drop ids.length := by
  have hsplit := List.take_append_drop ids.length as
  have hnames : (as.take ids.length).map name = ids ∧ (as.drop ids.length).map name = rest := by
    rw [← hsplit, List.map_append] at h
    have hlen : ids.length ≤ as.length := by
      have := congrArg List.length h
      simp only [List.length_append, List.length_map, List.length_take, List.length_drop] at this
      omega
    exact List.append_inj h (by rw [List.length_map, List.length_take, Nat.min_eq_left hlen])
  have hold : (as.take ids.length).filter (fun a => name a ∉ ids) = [] := by
    rw [List.filter_eq_nil_iff]
    intro a ha
    have : name a ∈ ids := hnames.1 ▸ List.mem_map_of_mem ha
    simpa using this
  have hnew : (as.drop ids.length).filter (fun a => name a ∉ ids) = as.drop ids.length := by
    rw [List.filter_eq_self]
    intro a ha
    have hmem : name a ∈ rest := hnames.2 ▸ List.mem_map_of_mem ha
    have := (List.nodup_append.mp hnodup).2.2
    simpa using fun hin => this _ hin _ hmem rfl
  rw [← hsplit, List.filter_append, hold, List.nil_append]
  rw [hsplit]
  exact hnew

lemma whole_drop {seq : ℕ} (h : Whole seq (fs ++ gs) (ps ++ qs)) (hlen : fs.length = ps.length) :
    Whole (seq + frameCount (batchesOf ps)) gs qs := by
  induction fs generalizing seq ps with
  | nil =>
      cases ps with
      | nil => exact h
      | cons p ps => exact absurd hlen (by simp)
  | cons f fs ih =>
      cases ps with
      | nil => exact absurd hlen (by simp)
      | cons p ps =>
          rw [batchesOf_cons, frameCount_append, ← Nat.add_assoc]
          exact ih h.2.2 (by simpa using hlen)

lemma durableOk_drop (h : DurableOk (fs ++ gs)) : DurableOk gs := by
  induction fs with
  | nil => exact h
  | cons f fs ih => exact ih h.2

lemma durCount_append_le (hlen : fs.length = ps.length) :
    durCount (fs ++ gs) (ps ++ qs) ≤ (batchesOf ps).length + durCount gs qs := by
  induction fs generalizing ps with
  | nil =>
      cases ps with
      | nil => simp
      | cons p ps => exact absurd hlen (by simp)
  | cons f fs ih =>
      cases ps with
      | nil => exact absurd hlen (by simp)
      | cons p ps =>
          have h1 := durCount_cons_le f (fs ++ gs) p (ps ++ qs)
          have h2 := ih (by simpa using hlen : fs.length = ps.length)
          rw [batchesOf_cons, List.length_append]
          exact h1.trans (by omega)

/-- **The first files of a chain retired**: it is in order from where they ended. -/
lemma Chain.Ok.retire {c : Chain} {base : ℕ} {p : Part} {ids rest : List ℕ}
    (h : c.Ok base (ps ++ qs) p) (hids : c.closed.map LogFile.id = ids ++ rest)
    (hnodup : (ids ++ rest).Nodup) (hlen : ids.length = ps.length) :
    (c.retire ids).Ok (base + frameCount (batchesOf ps)) qs p ∧
      (c.retire ids).closed.map LogFile.id = rest ∧
      durCount c.files (ps ++ qs ++ [p])
        ≤ (batchesOf ps).length + durCount (c.retire ids).files (qs ++ [p]) := by
  have hclosed : (c.retire ids).closed = c.closed.drop ids.length := filter_notMem_names hids hnodup
  have hsplit : c.closed = c.closed.take ids.length ++ (c.retire ids).closed := by
    rw [hclosed, List.take_append_drop]
  have htake : (c.closed.take ids.length).length = ps.length := by
    have := congrArg List.length hids
    rw [List.length_map, List.length_append] at this
    rw [List.length_take, hlen, Nat.min_eq_left (by omega)]
  have hmem : ∀ f ∈ (c.retire ids).closed, f ∈ c.closed := fun f hf => (List.mem_filter.mp hf).1
  have hfiles : c.files = c.closed.take ids.length ++ (c.retire ids).files := by
    rw [Chain.files, hsplit, List.append_assoc, ← hsplit]
    rfl
  have howes : (c.retire ids).owes = true → c.owes = true := by
    simp only [Chain.owes, List.any_eq_true]
    rintro ⟨f, hf, ho⟩
    exact ⟨f, hmem f hf, ho⟩
  refine ⟨⟨⟨?_, ?_, h.wal, h.fits, h.room, ?_, ?_⟩, fun f hf => h.owed f (hmem f hf), h.believed,
    fun ho => h.owes (howes ho)⟩, ?_, ?_⟩
  · have := h.whole
    rw [hsplit] at this
    exact whole_drop this htake
  · rw [h.start, batchesOf_append, frameCount_append, Nat.add_assoc]
  · intro f hf
    exact h.wf f (hfiles ▸ List.mem_append_right _ hf)
  · exact durableOk_drop (hfiles ▸ h.durable)
  · rw [hclosed, List.map_drop, hids, List.drop_left]
  · rw [hfiles, List.append_assoc]
    exact durCount_append_le htake

end Retire

end Supdb
