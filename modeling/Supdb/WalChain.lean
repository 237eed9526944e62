import Supdb.Wal

/-!
# The chain of log files

A log is several files, replayed in order, each continuing the sequence of the one before.  What
replay makes of one file depends on where the log before it ended: it applies a file that continues
there, skips what a manifest covers, and stops the log at a file begun loose whose records come
later.

* `Wal.logBytes`, `wholeIn` – the frames of a run of batches, and how many of the batches a prefix
  of them holds whole.
* `replay_log`, `replay_gap` – replay of a cut file that continues the log, and of one that does
  not.
-/

namespace Supdb

open StorageLib

/-! ## The frames of a run of batches -/

/-- The frames of a run of batches, numbered from `seq`. -/
def Wal.logBytes (seed : BitVec 32) : ℕ → List (List WalRecord) → Bytes
  | _, [] => []
  | seq, b :: bs => batchBytes seed seq b ++ logBytes seed (seq + (b.length + 1)) bs

/-- How many of a run of batches the first `m` bytes of its frames hold whole. -/
def wholeIn (seed : BitVec 32) : ℕ → List (List WalRecord) → ℕ → ℕ
  | _, [], _ => 0
  | seq, b :: bs, m =>
      if (Wal.batchBytes seed seq b).length ≤ m then
        wholeIn seed (seq + (b.length + 1)) bs (m - (Wal.batchBytes seed seq b).length) + 1
      else 0

section Frames

variable (seed : BitVec 32)

@[simp] lemma frameCount_nil : frameCount [] = 0 := rfl

@[simp] lemma frameCount_cons (b : List WalRecord) (bs : List (List WalRecord)) :
    frameCount (b :: bs) = b.length + 1 + frameCount bs := by
  simp [frameCount]

lemma frameCount_append (as bs : List (List WalRecord)) :
    frameCount (as ++ bs) = frameCount as + frameCount bs := by
  simp [frameCount]

lemma add_frameCount_cons (seq : ℕ) (b : List WalRecord) (bs : List (List WalRecord)) :
    seq + frameCount (b :: bs) = seq + (b.length + 1) + frameCount bs := by
  rw [frameCount_cons]
  omega

lemma logBytes_append (seq : ℕ) (as bs : List (List WalRecord)) :
    Wal.logBytes seed seq (as ++ bs)
      = Wal.logBytes seed seq as ++ Wal.logBytes seed (seq + frameCount as) bs := by
  induction as generalizing seq with
  | nil => rfl
  | cons a as ih =>
      rw [List.cons_append, Wal.logBytes, ih, Wal.logBytes, List.append_assoc, add_frameCount_cons]

lemma wholeIn_le (seq : ℕ) (bs : List (List WalRecord)) (m : ℕ) :
    wholeIn seed seq bs m ≤ bs.length := by
  induction bs generalizing seq m with
  | nil => exact le_refl _
  | cons b bs ih =>
      rw [wholeIn, List.length_cons]
      split_ifs
      · exact Nat.succ_le_succ (ih _ _)
      · exact Nat.zero_le _

/-- A prefix as long as the frames holds every batch. -/
lemma wholeIn_of_length_le {seq : ℕ} {bs : List (List WalRecord)} {m : ℕ}
    (h : (Wal.logBytes seed seq bs).length ≤ m) : wholeIn seed seq bs m = bs.length := by
  induction bs generalizing seq m with
  | nil => rfl
  | cons b bs ih =>
      rw [Wal.logBytes, List.length_append] at h
      rw [wholeIn, if_pos (by omega), ih (by omega), List.length_cons]

/-- A prefix that reaches behind some batches holds them, and what it holds behind them. -/
lemma wholeIn_append {seq : ℕ} {as bs : List (List WalRecord)} {m : ℕ}
    (h : (Wal.logBytes seed seq as).length ≤ m) :
    wholeIn seed seq (as ++ bs) m
      = as.length + wholeIn seed (seq + frameCount as) bs
      (m - (Wal.logBytes seed seq as).length) := by
  induction as generalizing seq m with
  | nil => simp [Wal.logBytes]
  | cons a as ih =>
      rw [Wal.logBytes, List.length_append] at h
      rw [List.cons_append, wholeIn, if_pos (by omega), ih (by omega), Wal.logBytes,
        List.length_append, List.length_cons, add_frameCount_cons, Nat.sub_sub]
      omega

/-- A cut run of batches is those it holds whole, and a cut of the rest that holds none. -/
lemma take_logBytes (seq : ℕ) (bs : List (List WalRecord)) (m : ℕ) :
    ∃ m', (Wal.logBytes seed seq bs).take m
        = Wal.logBytes seed seq (bs.take (wholeIn seed seq bs m))
          ++ (Wal.logBytes seed (seq + frameCount (bs.take (wholeIn seed seq bs m)))
            (bs.drop (wholeIn seed seq bs m))).take m' ∧
      wholeIn seed (seq + frameCount (bs.take (wholeIn seed seq bs m)))
        (bs.drop (wholeIn seed seq bs m)) m' = 0 := by
  induction bs generalizing seq m with
  | nil => exact ⟨0, by simp [Wal.logBytes], rfl⟩
  | cons b bs ih =>
      by_cases hcut : (Wal.batchBytes seed seq b).length ≤ m
      · obtain ⟨m', hbytes, hnone⟩ := ih (seq + (b.length + 1))
          (m - (Wal.batchBytes seed seq b).length)
        refine ⟨m', ?_, ?_⟩
        · rw [wholeIn, if_pos hcut, List.take_succ_cons, List.drop_succ_cons, Wal.logBytes,
            List.take_append, List.take_of_length_le hcut, hbytes, Wal.logBytes, List.append_assoc,
            add_frameCount_cons]
        · rw [wholeIn, if_pos hcut, List.take_succ_cons, List.drop_succ_cons, add_frameCount_cons]
          exact hnone
      · have hzero : wholeIn seed seq (b :: bs) m = 0 := by rw [wholeIn, if_neg hcut]
        refine ⟨m, ?_, ?_⟩
        · rw [hzero]
          rfl
        · rw [hzero]
          exact hzero

/-- A file's log is its header and the frames of what was committed to it. -/
lemma file_foldl_commitBatch {w : Wal} {bs : List (List WalRecord)} (hpend : w.pending = [])
    (hfit : BatchesFit bs) (hseq : w.seq + frameCount bs < 2 ^ 64) :
    (bs.foldl Wal.commitBatch w).file = w.file ++ Wal.logBytes w.seed w.seq bs := by
  induction bs generalizing w with
  | nil => simp [Wal.logBytes]
  | cons b bs ih =>
      obtain ⟨hpend', hseed, hnext, hfile, hseq'⟩ := Wal.commitBatch_next hpend hfit hseq
      rw [List.foldl_cons, ih hpend' hfit.tail hseq', hseed, hnext, hfile, Wal.logBytes, List.append_assoc]

end Frames

/-! ## Replay of one file -/

section Replay

variable (seed : BitVec 32) (fromSeq : ℕ) (loose : Bool)

/-- **The walk over frames a manifest covers**: none of them is applied. -/
lemma replayLoop_coveredLog {pre rest : Bytes} {p seq next : ℕ} {applied : List Applied}
    {bs : List (List WalRecord)} (hp : p = pre.length) (hfrom : seq + frameCount bs ≤ fromSeq)
    (hfit : BatchesFit bs) (hseq : seq + frameCount bs < 2 ^ 64) :
    replayLoop (pre ++ (Wal.logBytes seed seq bs ++ rest)) seed fromSeq loose p
        (.committed next p applied)
      = replayLoop (pre ++ (Wal.logBytes seed seq bs ++ rest)) seed fromSeq loose
          (p + (Wal.logBytes seed seq bs).length)
          (.committed next (p + (Wal.logBytes seed seq bs).length) applied) := by
  induction bs generalizing pre p seq with
  | nil => rfl
  | cons b bs ih =>
      have hb := hfit b (List.mem_cons_self ..)
      rw [frameCount_cons] at hseq hfrom
      have hbuf : pre ++ (Wal.logBytes seed seq (b :: bs) ++ rest)
          = pre ++ (Wal.batchBytes seed seq b
            ++ (Wal.logBytes seed (seq + (b.length + 1)) bs ++ rest)) := by
        rw [Wal.logBytes, List.append_assoc]
      have hih := @ih (pre ++ Wal.batchBytes seed seq b)
        (p + (Wal.batchBytes seed seq b).length) (seq + (b.length + 1))
        (by rw [hp, List.length_append]) (by omega) hfit.tail (by omega)
      rw [replayLoop_covered seed fromSeq loose b hbuf hp (by omega) (by omega) hb.2, hbuf,
        ← List.append_assoc pre, hih, Wal.logBytes, List.length_append, Nat.add_assoc p]

/-- **The walk over frames that continue the log**, whatever stands behind them. -/
lemma replayLoop_wholeLog {pre rest : Bytes} {p seq next : ℕ} {applied : List Applied}
    {bs : List (List WalRecord)} (hp : p = pre.length)
    (hnext : bs ≠ [] → next = seq ∧ fromSeq ≤ seq) (hfit : BatchesFit bs)
    (hseq : seq + frameCount bs < 2 ^ 64) :
    replayLoop (pre ++ (Wal.logBytes seed seq bs ++ rest)) seed fromSeq loose p
        (.committed next p applied)
      = replayLoop (pre ++ (Wal.logBytes seed seq bs ++ rest)) seed fromSeq loose
          (p + (Wal.logBytes seed seq bs).length)
          (.committed (next + frameCount bs) (p + (Wal.logBytes seed seq bs).length)
            (applied ++ bs.flatten.map WalRecord.applied)) := by
  induction bs generalizing pre p seq next applied with
  | nil => simp [Wal.logBytes]
  | cons b bs ih =>
      obtain ⟨rfl, hfrom⟩ := hnext (List.cons_ne_nil _ _)
      have hb := hfit b (List.mem_cons_self ..)
      rw [frameCount_cons] at hseq
      have hbuf : pre ++ (Wal.logBytes seed next (b :: bs) ++ rest)
          = pre ++ (Wal.batchBytes seed next b
            ++ (Wal.logBytes seed (next + (b.length + 1)) bs ++ rest)) := by
        rw [Wal.logBytes, List.append_assoc]
      have hih := @ih (pre ++ Wal.batchBytes seed next b)
        (p + (Wal.batchBytes seed next b).length) (next + (b.length + 1)) (next + (b.length + 1))
        (applied ++ b.map WalRecord.applied) (by rw [hp, List.length_append])
        (fun _ => ⟨rfl, by omega⟩) hfit.tail (by omega)
      rw [replayLoop_batch seed fromSeq loose b hbuf hp hfrom (by omega) hb.2, hbuf,
        ← List.append_assoc pre, hih, Wal.logBytes, List.length_append, Nat.add_assoc p,
        add_frameCount_cons, List.flatten_cons, List.map_append, List.append_assoc applied]

/-- A cut that holds no whole batch ends the walk where it stands. -/
lemma replayLoop_noneWhole {pre : Bytes} {p seq m : ℕ} (s : ReplayState)
    {bs : List (List WalRecord)} (hp : p = pre.length) (hnone : wholeIn seed seq bs m = 0)
    (hfit : BatchesFit bs) (hseq : seq + frameCount bs < 2 ^ 64) :
    replayLoop (pre ++ (Wal.logBytes seed seq bs).take m) seed fromSeq loose p s = s.ended := by
  cases bs with
  | nil =>
      have hbuf : pre ++ (Wal.logBytes seed seq []).take m = pre ++ List.replicate 0 0 := by
        rw [Wal.logBytes, List.take_nil, List.replicate_zero]
      exact replayLoop_zeros seed fromSeq loose _ hbuf hp
  | cons b bs =>
      have hb := hfit b (List.mem_cons_self ..)
      rw [frameCount_cons] at hseq
      have hcut : ¬ (Wal.batchBytes seed seq b).length ≤ m := by
        intro h
        rw [wholeIn, if_pos h] at hnone
        exact absurd hnone (Nat.succ_ne_zero _)
      have hbuf : pre ++ (Wal.logBytes seed seq (b :: bs)).take m
          = pre ++ (Wal.batchBytes seed seq b).take m := by
        rw [Wal.logBytes, List.take_append_of_le_length (by omega)]
      rw [hbuf]
      refine replayLoop_tornRun seed fromSeq loose b s rfl hp (List.take_prefix _ _) ?_
        (by rw [length_commitBody]; norm_num) (by omega) hb.2
      rw [List.length_take]
      show _ < (Wal.batchBytes seed seq b).length
      omega

end Replay

/-! ## Files on the device -/

/-- A log file: its bytes, how many of them a completed sync covers, the kind its header had at that
sync where it was rewritten since, and whether the writer still owes it one. -/
structure LogFile where
  id : ℕ
  bytes : Bytes
  synced : ℕ
  oldKind : Option UInt8
  owed : Bool
  deriving DecidableEq, Repr

namespace LogFile

/-- The seed of a file's checksums. -/
def seed (f : LogFile) : BitVec 32 := walSeed (BitVec.ofNat 64 f.id)

/-- `Wal::replay` of the file. -/
def replay (f : LogFile) (fromSeq : ℕ) (first : Bool) : Replayed :=
  Supdb.replay f.bytes (BitVec.ofNat 64 f.id) fromSeq first

/-- A file under a header of kind `kind` that holds, whole, the batches `kept`, numbered from
`start`: what was framed into it cut anywhere. -/
def Holds (f : LogFile) (kind : UInt8) (start : ℕ) (kept : List (List WalRecord)) : Prop :=
  ∃ (bs : List (List WalRecord)) (n : ℕ), (kind = walChained ∨ kind = walLoose) ∧
    f.bytes = (walHeader kind ++ Wal.logBytes f.seed start bs).take n ∧ BatchesFit bs ∧
    start + frameCount bs < 2 ^ 64 ∧ kept = bs.take (wholeIn f.seed start bs (n - 8))

variable {f : LogFile} {kind : UInt8} {start : ℕ} {kept : List (List WalRecord)}

lemma wholeIn_zero (seed : BitVec 32) (seq : ℕ) (bs : List (List WalRecord)) :
    wholeIn seed seq bs 0 = 0 := by
  cases bs with
  | nil => rfl
  | cons b bs =>
      rw [wholeIn, if_neg]
      rw [Wal.batchBytes, List.length_append, Wal.commitFrame, Wal.length_frameBytes, frameHeader]
      omega

/-- A header cut short holds no batch. -/
lemma Holds.eq_nil_of_lt (h : f.Holds kind start kept) (hlen : f.bytes.length < 8) :
    kept = [] := by
  obtain ⟨bs, n, -, hbytes, -, -, rfl⟩ := h
  have hn : n < 8 := by
    rw [hbytes, List.length_take, List.length_append] at hlen
    have : (walHeader kind).length = 8 := rfl
    omega
  rw [Nat.sub_eq_zero_of_le hn.le, wholeIn_zero, List.take_zero]

/-- What replay returns for a file's length when it applies all the file holds. -/
def validLen (f : LogFile) (start : ℕ) (kept : List (List WalRecord)) : ℕ :=
  if f.bytes.length < 8 then 0 else 8 + (Wal.logBytes f.seed start kept).length

/-- A file is cut inside its header, or its header is whole and its frames cut. -/
lemma Holds.cases (h : f.Holds kind start kept) :
    (f.bytes.length < 8 ∧ kept = [] ∧
      ∀ fromSeq first, f.replay fromSeq first = ⟨[], .ok (fromSeq, 0, false)⟩) ∨
    (8 ≤ f.bytes.length ∧ (kind = walChained ∨ kind = walLoose) ∧
      ∃ bs m, f.bytes = walHeader kind ++ (Wal.logBytes f.seed start bs).take m ∧ BatchesFit bs ∧
        start + frameCount bs < 2 ^ 64 ∧ kept = bs.take (wholeIn f.seed start bs m) ∧
        ∀ fromSeq first, f.replay fromSeq first
          = replayLoop (walHeader kind ++ (Wal.logBytes f.seed start bs).take m) f.seed fromSeq
              (decide (kind = walLoose ∧ ¬ first = true)) 8 (.committed fromSeq 8 [])) := by
  by_cases hlen : f.bytes.length < 8
  · refine Or.inl ⟨hlen, h.eq_nil_of_lt hlen, fun fromSeq first => ?_⟩
    obtain ⟨bs, n, -, hbytes, -⟩ := h
    have hn : n < 8 := by
      rw [hbytes, List.length_take, List.length_append] at hlen
      have : (walHeader kind).length = 8 := rfl
      omega
    rw [replay, hbytes]
    exact replay_cutHeader _ hn
  · obtain ⟨bs, n, hkind, hbytes, hfit, hseq, hkept⟩ := h
    have h8 : (walHeader kind).length = 8 := rfl
    have hn : 8 ≤ n := by
      rw [hbytes, List.length_take] at hlen
      omega
    have hbytes' : f.bytes = walHeader kind ++ (Wal.logBytes f.seed start bs).take (n - 8) := by
      rw [hbytes, List.take_append, List.take_of_length_le (by omega), h8]
    refine Or.inr ⟨by omega, hkind, bs, n - 8, hbytes', hfit, hseq, hkept, fun fromSeq first => ?_⟩
    rw [replay, hbytes', replay_header hkind]
    rfl

/-- **A file that holds no whole batch** changes nothing. -/
lemma Holds.replay_nil (h : f.Holds kind start []) (fromSeq : ℕ) (first : Bool) :
    f.replay fromSeq first = ⟨[], .ok (fromSeq, f.validLen start [], false)⟩ := by
  rcases h.cases with ⟨hlen, -, hrun⟩ | ⟨hlen, -, bs, m, -, hfit, hseq, hnil, hrun⟩
  · rw [hrun, validLen, if_pos hlen]
  · have hnone : wholeIn f.seed start bs m = 0 := by
      have hle := wholeIn_le f.seed start bs m
      have := congrArg List.length hnil
      rw [List.length_nil, List.length_take] at this
      omega
    have h8 : 8 = (walHeader kind).length := rfl
    rw [hrun, replayLoop_noneWhole f.seed fromSeq _ _ h8 hnone hfit hseq, validLen,
      if_neg (by omega)]
    rfl

/-- **A file that reaches where the log starts** gives what it holds from there on. -/
lemma Holds.replay_split {older newer : List (List WalRecord)}
    (h : f.Holds kind start (older ++ newer)) (first : Bool) {fromSeq : ℕ}
    (hle : start + frameCount older ≤ fromSeq)
    (heq : newer ≠ [] → start + frameCount older = fromSeq) :
    f.replay fromSeq first
      = ⟨newer.flatten.map WalRecord.applied,
          .ok (fromSeq + frameCount newer, f.validLen start (older ++ newer), false)⟩ := by
  rcases h.cases with ⟨hlen, hnil, hrun⟩ | ⟨hlen, -, bs, m, -, hfit, hseq, hkept, hrun⟩
  · obtain ⟨rfl, rfl⟩ := List.append_eq_nil_iff.mp hnil
    rw [hrun, validLen, if_pos hlen]
    rfl
  · obtain ⟨m', hbytes, hnone⟩ := take_logBytes f.seed start bs m
    rw [← hkept] at hbytes hnone
    set rest := bs.drop (wholeIn f.seed start bs m) with hrest
    have hbs : bs = older ++ newer ++ rest := by rw [hkept, hrest, List.take_append_drop]
    have hfit' : BatchesFit (older ++ newer ++ rest) := hbs ▸ hfit
    rw [hbs, frameCount_append, frameCount_append] at hseq
    have hfold : BatchesFit older := fun b hb =>
      hfit' b (List.mem_append_left _ (List.mem_append_left _ hb))
    have hfnew : BatchesFit newer := fun b hb =>
      hfit' b (List.mem_append_left _ (List.mem_append_right _ hb))
    have hfrest : BatchesFit rest := fun b hb => hfit' b (List.mem_append_right _ hb)
    set torn := (Wal.logBytes f.seed (start + frameCount (older ++ newer)) rest).take m' with htorn
    have h8 : (walHeader kind).length = 8 := rfl
    have hbuf : walHeader kind ++ (Wal.logBytes f.seed start bs).take m
        = walHeader kind ++ (Wal.logBytes f.seed start older
          ++ (Wal.logBytes f.seed (start + frameCount older) newer ++ torn)) := by
      rw [hbytes, logBytes_append, List.append_assoc]
    rw [hrun, hbuf, replayLoop_coveredLog f.seed fromSeq _ h8.symm hle hfold (by omega), validLen,
      if_neg (by omega), logBytes_append, List.length_append]
    rw [frameCount_append, ← Nat.add_assoc start] at hnone htorn
    have hpre : 8 + (Wal.logBytes f.seed start older).length
        = (walHeader kind ++ Wal.logBytes f.seed start older).length := by
      rw [List.length_append, h8]
    rw [← List.append_assoc (walHeader kind), replayLoop_wholeLog f.seed fromSeq _ hpre
      (fun hne => ⟨(heq hne).symm, (heq hne).ge⟩) hfnew (by omega), List.nil_append, htorn,
      ← List.append_assoc (walHeader kind ++ Wal.logBytes f.seed start older), replayLoop_noneWhole
        f.seed fromSeq _ _ (by rw [List.length_append, ← hpre]) hnone hfrest (by omega)]
    simp only [ReplayState.ended, ReplayState.committed, Nat.add_assoc]

/-- **A file that continues the log** is applied whole. -/
lemma Holds.replay_continues (h : f.Holds kind start kept) (first : Bool) :
    f.replay start first
      = ⟨kept.flatten.map WalRecord.applied,
          .ok (start + frameCount kept, f.validLen start kept, false)⟩ :=
  @Holds.replay_split f kind start [] kept h first start (le_refl _) (fun _ => rfl)

/-- **A file begun loose whose batches come later** ends the log. -/
lemma Holds.replay_gap (h : f.Holds walLoose start kept) (hne : kept ≠ []) {fromSeq : ℕ}
    (hgap : fromSeq < start) : f.replay fromSeq false = ⟨[], .ok (fromSeq, 8, true)⟩ := by
  rcases h.cases with ⟨-, hnil, -⟩ | ⟨-, -, bs, m, -, hfit, hseq, rfl, hrun⟩
  · exact absurd hnil hne
  · cases bs with
    | nil => exact absurd (List.take_nil ..) hne
    | cons b bs =>
        have hcut : (Wal.batchBytes f.seed start b).length ≤ m := by
          by_contra h
          rw [wholeIn, if_neg h, List.take_zero] at hne
          exact hne rfl
        rw [frameCount_cons] at hseq
        have hbuf : walHeader walLoose ++ (Wal.logBytes f.seed start (b :: bs)).take m
            = walHeader walLoose ++ (Wal.batchBytes f.seed start b
              ++ (Wal.logBytes f.seed (start + (b.length + 1)) bs).take
                (m - (Wal.batchBytes f.seed start b).length)) := by
          rw [Wal.logBytes, List.take_append, List.take_of_length_le hcut]
        rw [hrun, decide_eq_true (⟨rfl, by simp⟩ : walLoose = walLoose ∧ ¬ false = true)]
        exact replayLoop_gap f.seed fromSeq b hbuf rfl hgap (by omega)
          (hfit b (List.mem_cons_self ..)).2

end LogFile

end Supdb
