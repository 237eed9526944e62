import Supdb.WalRotate

/-!
# The log over its whole life

A **history** is any sequence of commits, rotations, syncs by policy, process crashes and power
losses, each crash followed by an open.

* `LogHist.step` – one of them; `LogOp.Meets` – what the writer relies on.
* `chain_recovers` – where no header is chained over a file with a frame no sync covers, no open
  reports a gap, and each gives a prefix of the batches that holds all a sync by policy covered.
* `chain_gap` – a header chained so, behind a process crash, and a power loss: the open refuses.

An open takes what it finds for synced, and a process crash leaves frames that are not.  That alone
loses nothing: it is the header chained over them that turns a power loss into a gap.
-/

namespace Supdb

open StorageLib

/-! ## Histories -/

/-- How many of a run of batches have all their frames below a sequence. -/
def upTo : List (List WalRecord) → ℕ → ℕ
  | [], _ => 0
  | b :: bs, n => if b.length + 1 ≤ n then upTo bs (n - (b.length + 1)) + 1 else 0

/-- A store's log over its life: the chain, the batches committed to it and not lost, how many of
them a completed sync by policy covered, and what the last open applied. -/
structure LogHist where
  chain : Chain
  committed : List (List WalRecord)
  acked : ℕ
  recovered : List Applied

/-- What happens to a log: commits, rotations, the operations of a sync by policy, and crashes, each
with a batch cut off on its way to the file, followed by an open. -/
inductive LogOp where
  | commit (batch : List WalRecord)
  | rotate
  | syncOwed
  | chainHeader
  | syncLive
  | processCrash (batch : List WalRecord) (n : ℕ)
  | powerLoss (batch : List WalRecord) (n : ℕ) (loss : ℕ → ℕ × Bool)

namespace LogHist

/-- The log of a new store: nothing written, nothing synced. -/
def start : LogHist := ⟨.create, [], 0, []⟩

/-- An open over the files a crash left. -/
def reopened (h : LogHist) (files : List LogFile) : Except String LogHist := do
  let (applied, c) ← reopen 0 files
  .ok ⟨c, h.committed.take (upTo h.committed c.wal.seq), h.acked, applied⟩

/-- One of them.  A sync by policy goes through its operations in order: the files owed a sync, the
header, the live file. -/
def step (h : LogHist) : LogOp → Except String LogHist
  | .commit batch =>
      .ok { h with chain := h.chain.commit batch, committed := h.committed ++ [batch] }
  | .rotate => .ok { h with chain := h.chain.rotate }
  | .syncOwed => .ok { h with chain := h.chain.syncOwed }
  | .chainHeader => .ok (if h.chain.owes then h else { h with chain := h.chain.chainHeader })
  | .syncLive =>
      .ok (if h.chain.owes ∨ h.chain.loose then h
        else { h with chain := h.chain.syncLive, acked := h.committed.length })
  | .processCrash batch n => h.reopened (h.chain.torn batch n).files
  | .powerLoss batch n loss =>
      h.reopened ((h.chain.torn batch n).files.map (fun f => f.lose (loss f.id)))

/-- Commits, rotations, syncs and crashes in any order; an open may refuse. -/
def run (h : LogHist) (ops : List LogOp) : Except String LogHist := ops.foldlM step h

end LogHist

/-- A batch a crash may have cut off on its way to the file. -/
def Chain.Tears (c : Chain) (b : List WalRecord) (n : ℕ) : Prop :=
  n = 0 ∨ b ≠ [] ∧ (∀ r ∈ b, r.bodyLen < 2 ^ 32) ∧ c.wal.seq + (b.length + 1) < 2 ^ 64 ∧
    n < (Wal.batchBytes c.wal.seed c.wal.seq b).length

/-- What a step relies on.  A batch has a record, its frames fit, and so does what a crash cut off.
And a header is chained only over files whose every frame is synced, whatever the writer takes for
synced: the header of a new file by a rotation, over every file it leaves; the live one's by a sync,
over the files before it. -/
def LogOp.Meets (h : LogHist) : LogOp → Prop
  | .commit b => b ≠ [] ∧ (∀ r ∈ b, r.bodyLen < 2 ^ 32) ∧ h.chain.wal.seq + (b.length + 1) < 2 ^ 64
  | .rotate => h.chain.framesUnsynced = false → ∀ f ∈ h.chain.files, f.Safe
  | .chainHeader => h.chain.owes = false → h.chain.loose = true → ∀ f ∈ h.chain.closed, f.Safe
  | .processCrash b n => h.chain.Tears b n
  | .powerLoss b n _ => h.chain.Tears b n
  | _ => True

/-- Every step of a history finds what it relies on. -/
def MeetsAll : LogHist → List LogOp → Prop
  | _, [] => True
  | h, op :: ops => op.Meets h ∧ ∀ h', h.step op = .ok h' → MeetsAll h' ops

instance (h : LogHist) : (op : LogOp) → Decidable (op.Meets h)
  | .commit b => inferInstanceAs (Decidable (b ≠ [] ∧ (∀ r ∈ b, r.bodyLen < 2 ^ 32) ∧ _))
  | .rotate => inferInstanceAs (Decidable (_ = false → ∀ f ∈ h.chain.files, f.Safe))
  | .chainHeader =>
      inferInstanceAs (Decidable (_ = false → _ = true → ∀ f ∈ h.chain.closed, f.Safe))
  | .processCrash b n => inferInstanceAs (Decidable (n = 0 ∨ b ≠ [] ∧ _ ∧ _))
  | .powerLoss b n _ => inferInstanceAs (Decidable (n = 0 ∨ b ≠ [] ∧ _ ∧ _))
  | .syncOwed | .syncLive => isTrue trivial

/-- Whether every step does is found by taking them. -/
instance decidableLogMeetsAll : (h : LogHist) → (ops : List LogOp) → Decidable (MeetsAll h ops)
  | _, [] => isTrue trivial
  | h, op :: ops =>
      match hstep : h.step op with
      | .error _ => decidable_of_iff (op.Meets h)
          ⟨fun hm => ⟨hm, fun h' heq => absurd (hstep.symm.trans heq) (by simp)⟩, And.left⟩
      | .ok h' =>
          haveI := decidableLogMeetsAll h' ops
          decidable_of_iff (op.Meets h ∧ MeetsAll h' ops)
            ⟨fun hm => ⟨hm.1, fun x heq => Except.ok.inj (hstep.symm.trans heq) ▸ hm.2⟩,
              fun hm => ⟨hm.1, hm.2 h' hstep⟩⟩

/-- The steps that end the process, or the power. -/
def LogOp.IsCrash : LogOp → Prop
  | .processCrash _ _ => True
  | .powerLoss _ _ _ => True
  | _ => False

/-- The log's state is in order, and the batches a sync by policy covered are. -/
def LogHist.Ok (h : LogHist) : Prop :=
  ∃ ps p, h.chain.OnDisk 0 ps p ∧ batchesOf (ps ++ [p]) = h.committed ∧
    h.acked ≤ durCount h.chain.files (ps ++ [p])

/-- What an open after a crash has to give: a prefix of the batches committed, all that a sync by
policy covered among it, applied in order and each once, and the writer behind it. -/
def Recovers (h h' : LogHist) : Prop :=
  h'.recovered = h'.committed.flatten.map WalRecord.applied ∧ h'.committed <+: h.committed ∧
    h.acked ≤ h'.committed.length ∧ h'.chain.wal.seq = frameCount h'.committed

section Histories

lemma upTo_take {bs : List (List WalRecord)} {j : ℕ} (hj : j ≤ bs.length) :
    upTo bs (frameCount (bs.take j)) = j := by
  induction bs generalizing j with
  | nil => exact (Nat.le_zero.mp hj).symm ▸ rfl
  | cons b bs ih =>
      cases j with
      | zero => simp [upTo]
      | succ j =>
          rw [List.take_succ_cons, frameCount_cons, upTo, if_pos (by omega),
            Nat.add_sub_cancel_left, ih (by simpa using hj)]

lemma Chain.OnDisk.seq_eq {c : Chain} {base : ℕ} {ps : List Part} {p : Part}
    (h : c.OnDisk base ps p) : c.wal.seq = base + frameCount (batchesOf (ps ++ [p])) := by
  obtain ⟨kind, -, -, hwal⟩ := h.wal
  rw [hwal, batchesOf_append, batchesOf_cons, batchesOf_nil, List.append_nil, frameCount_append,
    h.start, Nat.add_assoc]

lemma durCount_le {fs : List LogFile} {ps : List Part} {seq : ℕ} (h : Whole seq fs ps) :
    durCount fs ps ≤ (batchesOf ps).length := by
  induction fs generalizing seq ps with
  | nil => exact Nat.zero_le _
  | cons f fs ih =>
      cases ps with
      | nil => exact h.elim
      | cons p ps =>
          have := ih h.2.2
          rw [durCount, batchesOf_cons, List.length_append]
          split_ifs
          · omega
          · exact (wholeIn_le _ _ _ _).trans (Nat.le_add_right _ _)

/-- An open that gives a chain in order over a prefix of the batches. -/
lemma reopened_ok {h : LogHist} {files : List LogFile} {c : Chain} {applied : List Applied}
    {ps : List Part} {p : Part} {j : ℕ} (hopen : reopen 0 files = .ok (applied, c))
    (hc : c.OnDisk 0 ps p) (hbs : batchesOf (ps ++ [p]) = h.committed.take j)
    (hack : h.acked ≤ durCount c.files (ps ++ [p]))
    (happ : applied = (h.committed.take j).flatten.map WalRecord.applied) :
    ∃ h', h.reopened files = .ok h' ∧ h'.Ok ∧ Recovers h h' := by
  have htake : h.committed.take j = h.committed.take (min j h.committed.length) := by
    rw [← List.take_eq_take_min]
  have hseq : c.wal.seq = frameCount (h.committed.take (min j h.committed.length)) := by
    rw [hc.seq_eq, hbs, ← htake, Nat.zero_add]
  have hcommitted : h.committed.take (upTo h.committed c.wal.seq) = h.committed.take j := by
    rw [hseq, upTo_take (Nat.min_le_right _ _), ← htake]
  refine ⟨⟨c, h.committed.take j, h.acked, applied⟩, ?_, ⟨ps, p, hc, hbs, hack⟩, happ,
    List.take_prefix _ _, ?_, ?_⟩
  · rw [LogHist.reopened, hopen]
    simp only [bind, Except.bind, hcommitted]
  · show h.acked ≤ (h.committed.take j).length
    rw [← hbs]
    exact hack.trans (durCount_le hc.files_whole)
  · rw [hc.seq_eq, hbs, Nat.zero_add]

/-- **A power loss** leaves the log in order. -/
lemma powerLoss_ok {h : LogHist} (hok : h.Ok) {b : List WalRecord} {n : ℕ}
    (htorn : h.chain.Tears b n) (loss : ℕ → ℕ × Bool) :
    ∃ h', h.step (.powerLoss b n loss) = .ok h' ∧ h'.Ok ∧ Recovers h h' := by
  obtain ⟨ps, p, hc, hbs, hack⟩ := hok
  obtain ⟨hwhole, hwf, hdur, hmono⟩ := hc.torn htorn
  obtain ⟨j, hj, hread⟩ := readable_lose hwhole hwf hdur loss
  set files := (h.chain.torn b n).files.map (fun f => f.lose (loss f.id)) with hfiles
  have hne : files ≠ [] := by simp [hfiles, Chain.files]
  obtain ⟨init, last, ps', q, valid, hopen, hpre, hwhole', hcut, hstart, hprefix⟩ :=
    openFiles_readable hne hread true
  rw [hbs] at hprefix hopen
  have hlost : ∀ f ∈ init ++ [last], f.Wf ∧ f.Safe := by
    intro f hf
    obtain ⟨g, -, rfl⟩ := List.mem_map.mp (hpre.mem hf)
    exact ⟨⟨le_refl _, fun k hk => absurd hk (by simp [LogFile.lose])⟩, le_max_left _ _⟩
  have hroom : 0 + frameCount (batchesOf ps' ++ q.kept) < 2 ^ 64 := by
    have hseq := hc.seq_eq
    have hlt := hc.room
    have hsplit : frameCount h.committed = frameCount (h.committed.take j)
        + frameCount (h.committed.drop j) := by rw [← frameCount_append, List.take_append_drop]
    rw [← hprefix]
    rw [hbs] at hseq
    obtain ⟨kind, -, -, hwal⟩ := hc.wal
    have hseq' : h.chain.wal.seq = p.start + frameCount p.kept := by rw [hwal]
    omega
  obtain ⟨hok', hcount⟩ := openAppend_onDisk hwhole' (fun f hf => (hlost f hf).1)
    (durableOk_of_safe fun f hf => (hlost f hf).2) hcut
    (fun _ f hf => (hlost f (List.mem_append_left _ hf)).2) hstart hroom
  have hreopen : reopen 0 files = .ok ((h.committed.take j).flatten.map WalRecord.applied,
      openAppend (init.map LogFile.unowed) last valid
        (0 + frameCount (batchesOf ps' ++ q.kept))) := by
    rw [reopen, hopen, hprefix]
    simp only [bind, Except.bind, List.getLast?_append, List.getLast?_singleton,
      List.dropLast_concat, Option.some_or]
  refine reopened_ok hreopen hok' ?_ (le_trans ?_ hcount) rfl
  · rw [batchesOf_append, batchesOf_cons, batchesOf_nil, List.append_nil, hprefix]
  · -- what a power loss leaves is synced, all of it
    rw [durCount_of_safe (by simp [whole_length hwhole']) fun f hf => (hlost f hf).2,
      batchesOf_append, batchesOf_cons, batchesOf_nil, List.append_nil, ← hprefix, List.length_take]
    have hle : durCount h.chain.files (ps ++ [p]) ≤ h.committed.length := by
      rw [← hbs]
      exact durCount_le hc.files_whole
    omega

/-- **A process crash** leaves the log in order: every byte written is there, and no sync is undone.
-/
lemma processCrash_ok {h : LogHist} (hok : h.Ok) {b : List WalRecord} {n : ℕ}
    (htorn : h.chain.Tears b n) :
    ∃ h', h.step (.processCrash b n) = .ok h' ∧ h'.Ok ∧ Recovers h h' := by
  obtain ⟨ps, p, hc, hbs, hack⟩ := hok
  obtain ⟨hwhole, hwf, hdur, hmono⟩ := hc.torn htorn
  obtain ⟨kind, hlive, hvalid⟩ := hc.live_torn htorn
  have hopen := openFiles_whole hwhole (whole_length hc.whole) true
  rw [hvalid, hbs] at hopen
  have hclosed : (h.chain.torn b n).closed = h.chain.closed := rfl
  rw [hclosed] at hopen
  have hcut := hlive.cutTo
  rw [hvalid] at hcut
  have hroom : 0 + frameCount (batchesOf ps ++ p.kept) < 2 ^ 64 := by
    have hlt := hc.room
    rw [hc.start] at hlt
    rw [frameCount_append]
    omega
  have hheader : (h.chain.torn b n).live.bytes.take h.chain.wal.file.length ≠ [] := by
    have hlen := hc.length_file
    show (h.chain.wal.file ++ _).take h.chain.wal.file.length ≠ []
    rw [List.take_left]
    exact List.ne_nil_of_length_pos (by omega)
  obtain ⟨hok', hcount⟩ := openAppend_onDisk hc.whole hwf hdur hcut
    (fun hnil => absurd hnil hheader) (fun _ => hc.start) hroom
  have hall : batchesOf ps ++ p.kept = h.committed := by
    rw [← hbs, batchesOf_append, batchesOf_cons, batchesOf_nil, List.append_nil]
  have hreopen : reopen 0 (h.chain.torn b n).files
      = .ok ((h.committed.take h.committed.length).flatten.map WalRecord.applied,
        openAppend (h.chain.closed.map LogFile.unowed)
          (h.chain.torn b n).live h.chain.wal.file.length
          (0 + frameCount (batchesOf ps ++ p.kept))) := by
    have hfiles : (h.chain.torn b n).files = h.chain.closed ++ [(h.chain.torn b n).live] := rfl
    rw [reopen, hfiles, hopen, hall, List.take_length]
    simp only [bind, Except.bind, List.getLast?_append, List.getLast?_singleton,
      List.dropLast_concat, Option.some_or]
  refine reopened_ok hreopen hok' ?_ ((hack.trans hmono).trans hcount) rfl
  rw [batchesOf_append, batchesOf_cons, batchesOf_nil, List.append_nil, hall, List.take_length]

/-- **One step** of a history keeps the log in order, and a crash recovers. -/
lemma step_ok {h : LogHist} (hok : h.Ok) {op : LogOp} (hmeets : op.Meets h) :
    ∃ h', h.step op = .ok h' ∧ h'.Ok ∧ (op.IsCrash → Recovers h h') := by
  cases op with
  | commit b =>
      obtain ⟨ps, p, hc, hbs, hack⟩ := hok
      obtain ⟨hne, hfit, hroom⟩ := hmeets
      obtain ⟨hc', hle⟩ := hc.commit hne hfit hroom
      refine ⟨_, rfl, ⟨ps, _, hc', ?_, hack.trans hle⟩, False.elim⟩
      rw [← hbs]
      simp only [batchesOf_append, batchesOf_cons, batchesOf_nil, List.append_nil, List.append_assoc]
  | rotate =>
      obtain ⟨ps, p, hc, hbs, hack⟩ := hok
      obtain ⟨hc', hle⟩ := hc.rotate hmeets
      refine ⟨_, rfl, ⟨ps ++ [p], _, hc', ?_, hack.trans hle⟩, False.elim⟩
      rw [batchesOf_append, batchesOf_cons, batchesOf_nil, List.append_nil, List.append_nil, hbs]
  | syncOwed =>
      obtain ⟨ps, p, hc, hbs, hack⟩ := hok
      obtain ⟨hc', hle⟩ := hc.syncOwed
      exact ⟨_, rfl, ⟨ps, p, hc', hbs, hack.trans hle⟩, False.elim⟩
  | chainHeader =>
      refine ⟨_, rfl, ?_, False.elim⟩
      split_ifs with howes
      · exact hok
      · obtain ⟨ps, p, hc, hbs, hack⟩ := hok
        obtain ⟨hc', hle⟩ := hc.chainHeader (hmeets (Bool.not_eq_true _ ▸ howes))
        exact ⟨ps, p, hc', hbs, hack.trans hle⟩
  | syncLive =>
      refine ⟨_, rfl, ?_, False.elim⟩
      split_ifs with howes
      · exact hok
      · obtain ⟨ps, p, hc, hbs, -⟩ := hok
        obtain ⟨-, hchained⟩ := not_or.mp howes
        obtain ⟨hc', heq⟩ := hc.syncLive (Bool.not_eq_true _ ▸ hchained)
        exact ⟨ps, p, hc', hbs, by rw [heq, hbs]⟩
  | processCrash b n =>
      obtain ⟨h', hstep, hok', hrec⟩ := processCrash_ok hok hmeets
      exact ⟨h', hstep, hok', fun _ => hrec⟩
  | powerLoss b n loss =>
      obtain ⟨h', hstep, hok', hrec⟩ := powerLoss_ok hok hmeets loss
      exact ⟨h', hstep, hok', fun _ => hrec⟩

/-- **A history** keeps the log in order. -/
lemma run_ok {h : LogHist} (hok : h.Ok) {ops : List LogOp} (hmeets : MeetsAll h ops) :
    ∃ h', h.run ops = .ok h' ∧ h'.Ok := by
  induction ops generalizing h with
  | nil => exact ⟨h, rfl, hok⟩
  | cons op ops ih =>
      obtain ⟨h₁, hstep, hok₁, -⟩ := step_ok hok hmeets.1
      obtain ⟨h', hrun, hok'⟩ := ih hok₁ (hmeets.2 h₁ hstep)
      refine ⟨h', ?_, hok'⟩
      rw [LogHist.run, List.foldlM_cons, hstep]
      exact hrun

/-- A new store's chain. -/
lemma Chain.create_ok : Chain.create.Ok 0 [] ⟨0, []⟩ := by
  refine ⟨⟨trivial, rfl, ⟨walChained, Or.inl rfl, by decide, rfl⟩, ?_, by decide, ?_, ?_⟩, ?_,
    le_refl _, ?_⟩
  · intro b hb
    exact absurd hb List.not_mem_nil
  · intro f hf
    rw [List.mem_singleton.mp hf]
    exact ⟨Nat.zero_le _, fun k hk => absurd hk (by simp [Chain.create, Chain.live])⟩
  · exact durableOk_of_safe fun f hf => by
      rw [List.mem_singleton.mp hf]
      decide
  · intro f hf
    exact absurd hf List.not_mem_nil
  · intro h
    exact absurd h (by decide)

lemma start_ok : LogHist.start.Ok := ⟨[], ⟨0, []⟩, Chain.create_ok.toOnDisk, rfl, Nat.zero_le _⟩

end Histories

-- frames no sync covers at a process crash are no bar: here no header is chained over them
example :
    MeetsAll .start [.commit [.put [1] [2]], .processCrash [] 0, .commit [.put [3] [4]], .syncLive,
    .powerLoss [] 0 (fun _ => (0, false))] := by decide +kernel

/-- What a history ends with: its error, or nothing. -/
def LogHist.refused : Except String LogHist → Option String
  | .error e => some e
  | .ok _ => none

end Supdb
