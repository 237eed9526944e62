import Supdb.WalChain

/-!
# Rotation, crashes and reopening

The live log file is swapped for a new one as it grows.  The new file's header says whether the one
before it was left with frames no sync had covered, *loose*, or not, *chained*; a sync by policy
syncs the files left so, oldest first, rewrites the live header chained and syncs the live file.
`Db::open` replays the files in order and takes a gap at a loose header for the end of the log, and
at a chained one for a record lost.

* `Chain` – the files and what the writer believes of them; `rotate`, `syncOwed`, `chainHeader` and
  `syncLive` are its steps, each at most one device operation, so a crash may fall between any two.
* `LogFile.lose` – what a power loss leaves of a file.
* `Chain.reopen` – what `Db::open` makes of the files it finds.
-/

namespace Supdb

open StorageLib

/-! ## The writer's side -/

/-- The log of an open store: the files closed by rotations, in order, the live one's writer, its
id, what the writer believes synced of it and whether its header is loose; and what is true of it on
the device. -/
structure Chain where
  closed : List LogFile
  wal : Wal
  id : ℕ
  believed : ℕ
  loose : Bool
  synced : ℕ
  oldKind : Option UInt8

namespace Chain

/-- The store's first file, as `Db::create` makes it. -/
def create : Chain :=
  ⟨[], .create 0 walChained 0, 0, 0, false, 0, none⟩

/-- The file the writer appends to. -/
def live (c : Chain) : LogFile := ⟨c.id, c.wal.file, c.synced, c.oldKind, false⟩

/-- Every file, in the order of their ids. -/
def files (c : Chain) : List LogFile := c.closed ++ [c.live]

/-- A batch framed and written. -/
def commit (c : Chain) (batch : List WalRecord) : Chain :=
  { c with wal := c.wal.commitBatch batch }

/-- `Wal::frames_unsynced`, as the writer believes. -/
def framesUnsynced (c : Chain) : Bool := max c.believed 8 < c.wal.file.length

/-- `Db::rotate_wal`. -/
def rotate (c : Chain) : Chain :=
  let loose := c.framesUnsynced
  let kind := if loose then walLoose else walChained
  { closed := c.closed ++ [{ c.live with owed := loose }],
    wal := .create (BitVec.ofNat 64 (c.id + 1)) kind c.wal.seq, id := c.id + 1, believed := 0,
    loose := loose, synced := 0, oldKind := none }

/-- Whether a file a loose rotation closed is still owed its sync. -/
def owes (c : Chain) : Bool := c.closed.any LogFile.owed

end Chain

/-- A file whose bytes, and whose header, a sync covers. -/
def LogFile.sync (f : LogFile) : LogFile :=
  { f with synced := f.bytes.length, oldKind := none, owed := false }

/-- A file the writer takes for synced. -/
def LogFile.unowed (f : LogFile) : LogFile := { f with owed := false }

/-- The oldest file owed a sync, synced. -/
def syncFirst : List LogFile → List LogFile
  | [] => []
  | f :: fs => if f.owed then f.sync :: fs else f :: syncFirst fs

namespace Chain

/-- `Db::sync_wal`, its loop's next turn: the oldest file owed a sync. -/
def syncOwed (c : Chain) : Chain := { c with closed := syncFirst c.closed }

/-- `Wal::chain`: the live header rewritten chained, behind every file owed a sync. -/
def chainHeader (c : Chain) : Chain :=
  if c.loose then
    { c with wal := { c.wal with file := writeAt c.wal.file 7 [walChained] }, loose := false,
             oldKind := some (c.oldKind.getD walLoose) }
  else c

/-- `Wal::sync`. -/
def syncLive (c : Chain) : Chain :=
  { c with believed := c.wal.file.length, synced := c.wal.file.length, oldKind := none }

end Chain

/-! ## Crashes -/

/-- A batch a crash cut off on its way to the live file: `n` of its bytes are there. -/
def Chain.torn (c : Chain) (batch : List WalRecord) (n : ℕ) : Chain :=
  { c with wal := { c.wal with
      file := c.wal.file ++ (Wal.batchBytes c.wal.seed c.wal.seq batch).take n } }

/-- What a power loss leaves of a file: any prefix that a sync covered, and a header rewritten since
or not. -/
def LogFile.lose (f : LogFile) (loss : ℕ × Bool) : LogFile :=
  let bytes := match f.oldKind, loss.2 with
    | some kind, true => writeAt f.bytes 7 [kind]
    | _, _ => f.bytes
  let bytes := bytes.take (max loss.1 f.synced)
  { f with bytes := bytes, synced := bytes.length, oldKind := none, owed := false }

/-! ## Reopening -/

/-- What the replay of the files gave: the records applied, the sequence after them, the files up to
the one the writer goes on in, and how much of that one is kept. -/
structure Opened where
  applied : List Applied
  next : ℕ
  kept : List LogFile
  valid : ℕ

/-- `Db::open`'s loop over the files: the log ends at the last, or at a loose boundary before it. -/
def openFiles (fromSeq : ℕ) (first : Bool) : List LogFile → Except String Opened
  | [] => .ok ⟨[], fromSeq, [], 0⟩
  | f :: fs =>
      match (f.replay fromSeq first).outcome with
      | .error e => .error e
      | .ok (next, valid, ended) =>
          if ended ∨ fs = [] then .ok ⟨(f.replay fromSeq first).applied, next, [f], valid⟩
          else do
            let o ← openFiles next false fs
            .ok { o with applied := (f.replay fromSeq first).applied ++ o.applied,
                         kept := f :: o.kept }

/-- The live file cut to what replay kept, synced where that cut anything, and reopened:
`Wal::open_append`. -/
def openAppend (closed : List LogFile) (f : LogFile) (valid seq : ℕ) : Chain :=
  let bytes := f.bytes.take valid
  let cut := decide (valid < f.bytes.length)
  if bytes = [] then
    ⟨closed, ⟨walHeader walChained, seq, [], f.seed⟩, f.id, 0, false, 0, none⟩
  else
    ⟨closed, ⟨bytes, seq, [], f.seed⟩, f.id, if bytes.length = 8 then 0 else bytes.length,
      decide (walKind (bytes.take 8) = some walLoose), if cut then valid else f.synced,
      if cut then none else f.oldKind⟩

/-- `Db::open`'s log: replayed from the sequence the manifest covers, and reopened for the writer.
-/
def reopen (fromSeq : ℕ) (files : List LogFile) : Except String (List Applied × Chain) := do
  let o ← openFiles fromSeq true files
  match o.kept.getLast? with
  | none => .ok (o.applied, ⟨[], .create 0 walChained o.next, 0, 0, false, 0, none⟩)
  | some f =>
      .ok (o.applied,
        openAppend (o.kept.dropLast.map LogFile.unowed) f o.valid o.next)

/-! ## What a crash keeps -/

section Cut

variable (seed : BitVec 32)

lemma wholeIn_mono {seq m m' : ℕ} {bs : List (List WalRecord)} (h : m ≤ m') :
    wholeIn seed seq bs m ≤ wholeIn seed seq bs m' := by
  induction bs generalizing seq m m' with
  | nil => exact le_refl _
  | cons b bs ih =>
      rw [wholeIn, wholeIn]
      by_cases hm : (Wal.batchBytes seed seq b).length ≤ m
      · rw [if_pos hm, if_pos (by omega)]
        exact Nat.succ_le_succ (ih (by omega))
      · rw [if_neg hm]
        exact Nat.zero_le _

lemma wholeIn_take_le {seq m j : ℕ} {bs : List (List WalRecord)} :
    wholeIn seed seq (bs.take j) m ≤ wholeIn seed seq bs m := by
  induction bs generalizing seq m j with
  | nil => simp [wholeIn]
  | cons b bs ih =>
      cases j with
      | zero => simp [wholeIn]
      | succ j =>
          rw [List.take_succ_cons, wholeIn, wholeIn]
          split_ifs
          · exact Nat.succ_le_succ ih
          · exact le_refl _

lemma batchBytes_pos (seq : ℕ) (b : List WalRecord) : 0 < (Wal.batchBytes seed seq b).length := by
  rw [Wal.batchBytes, List.length_append, Wal.commitFrame, Wal.length_frameBytes, frameHeader]
  omega

end Cut

namespace LogFile

/-- A file in order on the device: its sync covers bytes it has, and a header rewritten since was
loose. -/
def Wf (f : LogFile) : Prop :=
  f.synced ≤ f.bytes.length ∧ ∀ k ∈ f.oldKind, k = walLoose ∧ 8 ≤ f.bytes.length

/-- No frame of the file is without its sync. -/
def Safe (f : LogFile) : Prop := f.bytes.length ≤ max f.synced 8

instance (f : LogFile) : Decidable f.Safe := inferInstanceAs (Decidable (_ ≤ _))

/-- The file's header is loose, whichever of its writes the device holds. -/
def Loose (f : LogFile) : Prop :=
  f.bytes.take 8 <+: walHeader walLoose ∧ ∀ k ∈ f.oldKind, k = walLoose

variable {f : LogFile} {kind : UInt8} {start : ℕ} {kept : List (List WalRecord)}

lemma eq_of_walHeader_prefix {k k' : UInt8} (h : walHeader k <+: walHeader k') : k = k' := by
  have heq : walHeader k = walHeader k' := h.eq_of_length rfl
  simpa [walHeader] using heq

/-- The header of a file that holds anything is the one its bytes start with. -/
lemma Holds.kind_eq_loose (h : f.Holds kind start kept)
    (hloose : f.bytes.take 8 <+: walHeader walLoose) : f.Holds walLoose start kept := by
  rcases h.cases with ⟨hlen, rfl, -⟩ | ⟨hlen, -, bs, m, hbytes, -⟩
  · obtain ⟨bs, n, -, hbytes, hfit, hseq, hkept⟩ := h
    have hn : n < 8 := by
      rw [hbytes, List.length_take, List.length_append] at hlen
      have : (walHeader kind).length = 8 := rfl
      omega
    refine ⟨bs, n, Or.inr rfl, ?_, hfit, hseq, hkept⟩
    have h7 : n ≤ walHead.length := by show n ≤ 7; omega
    rw [hbytes, walHeader, walHeader, List.append_assoc, List.append_assoc,
      List.take_append_of_le_length h7, List.take_append_of_le_length h7]
  · have hhead : f.bytes.take 8 = walHeader kind := by
      rw [hbytes, List.take_append_of_le_length (by exact le_refl 8)]
      exact List.take_of_length_le (le_refl 8)
    rw [hhead] at hloose
    rw [← eq_of_walHeader_prefix hloose]
    exact h

/-- A file no longer than its header holds no batch. -/
lemma Holds.eq_nil_of_le (h : f.Holds kind start kept) (hlen : f.bytes.length ≤ 8) : kept = [] := by
  rcases h.cases with ⟨-, rfl, -⟩ | ⟨-, -, bs, m, hbytes, -, -, rfl, -⟩
  · rfl
  · cases bs with
    | nil => exact List.take_nil ..
    | cons b bs =>
        have hm : m = 0 := by
          have h1 := congrArg List.length hbytes
          rw [List.length_append, List.length_take, Wal.logBytes, List.length_append] at h1
          have h2 := batchBytes_pos f.seed start b
          have h3 : (walHeader kind).length = 8 := rfl
          omega
        rw [hm, wholeIn_zero, List.take_zero]

/-- The bytes of a file whose header was rewritten, under the header before. -/
lemma writeAt_header {kind k : UInt8} {x : Bytes} {n : ℕ} (hn : 8 ≤ n) :
    writeAt ((walHeader kind ++ x).take n) 7 [k] = (walHeader k ++ x).take n := by
  have hsplit : ∀ k : UInt8, (walHeader k ++ x).take n = walHead ++ ([k] ++ x.take (n - 8)) := by
    intro k
    have h8 : (walHeader k).length = 8 := rfl
    rw [List.take_append, List.take_of_length_le (by omega), h8, walHeader, List.append_assoc]
  rw [hsplit kind, hsplit k]
  exact writeAt_append_mid rfl rfl

/-- The header a power loss leaves a file under, before the cut. -/
lemma Holds.header_lost (h : f.Holds kind start kept) (hwf : f.Wf) (loss : ℕ × Bool) :
    ∃ (kind' : UInt8) (bs : List (List WalRecord)) (n : ℕ),
      (kind' = walChained ∨ kind' = walLoose) ∧
      (f.lose loss).bytes = ((walHeader kind' ++ Wal.logBytes f.seed start bs).take n).take
        (max loss.1 f.synced) ∧ BatchesFit bs ∧ start + frameCount bs < 2 ^ 64 ∧
      kept = bs.take (wholeIn f.seed start bs (n - 8)) ∧
      ((walHeader kind' ++ Wal.logBytes f.seed start bs).take n).length = f.bytes.length ∧
      (f.Loose → ((walHeader kind' ++ Wal.logBytes f.seed start bs).take n).take 8
        <+: walHeader walLoose) := by
  obtain ⟨bs, n, hkind, hbytes, hfit, hseq, hkept⟩ := h
  cases hold : f.oldKind with
  | none =>
      refine ⟨kind, bs, n, hkind, ?_, hfit, hseq, hkept, by rw [hbytes], fun hl => hbytes ▸ hl.1⟩
      rw [LogFile.lose, hold, ← hbytes]
  | some k =>
      obtain ⟨rfl, hlen⟩ := hwf.2 k hold
      cases hloss : loss.2 with
      | false =>
          refine ⟨kind, bs, n, hkind, ?_, hfit, hseq, hkept, by rw [hbytes], fun hl => hbytes ▸ hl.1⟩
          rw [LogFile.lose, hold, hloss, ← hbytes]
      | true =>
          have h8 : ∀ k : UInt8, (walHeader k).length = 8 := fun _ => rfl
          have hn : 8 ≤ n := by
            rw [hbytes, List.length_take] at hlen
            omega
          refine ⟨walLoose, bs, n, Or.inr rfl, ?_, hfit, hseq, hkept, ?_, fun _ => ?_⟩
          · rw [LogFile.lose, hold, hloss, ← @writeAt_header kind walLoose _ n hn, ← hbytes]
          · rw [hbytes, List.length_take, List.length_take, List.length_append, List.length_append,
              h8, h8]
          · rw [List.take_take, Nat.min_eq_left hn, List.take_append_of_le_length (h8 _).ge,
              List.take_of_length_le (h8 _).le]

/-- **A file after a power loss**: a prefix of its batches, all that its syncs covered, under its
header or the one before it. -/
lemma Holds.lose (h : f.Holds kind start kept) (hwf : f.Wf) (loss : ℕ × Bool) :
    ∃ kind' j, (f.lose loss).Holds kind' start (kept.take j) ∧ (f.Safe → kept.take j = kept) ∧
      wholeIn f.seed start kept (f.synced - 8) ≤ j ∧
      (f.Loose → (f.lose loss).Holds walLoose start (kept.take j)) := by
  obtain ⟨kind', bs, n, hkind, hbytes, hfit, hseq, hkept, hlen, hloose⟩ := h.header_lost hwf loss
  set x := (walHeader kind' ++ Wal.logBytes f.seed start bs).take n with hx
  have hlost : ∀ j, (f.lose loss).Holds kind' start (kept.take j) →
      f.Loose → (f.lose loss).Holds walLoose start (kept.take j) := by
    intro j hj hl
    refine hj.kind_eq_loose ?_
    rw [hbytes, List.take_take, Nat.min_comm, ← List.take_take]
    exact (List.take_prefix _ _).trans (hloose hl)
  by_cases hall : x.length ≤ max loss.1 f.synced
  · have hj : (f.lose loss).Holds kind' start (kept.take kept.length) := by
      rw [List.take_length]
      exact ⟨bs, n, hkind, by rw [hbytes, List.take_of_length_le hall]; rfl, hfit, hseq, hkept⟩
    exact ⟨kind', kept.length, hj, fun _ => List.take_length, wholeIn_le _ _ _ _, hlost _ hj⟩
  · have hcut : max loss.1 f.synced ≤ n := by
      have : x.length ≤ n := by rw [hx, List.length_take]; omega
      omega
    set j := wholeIn f.seed start bs (max loss.1 f.synced - 8) with hjdef
    have hle : j ≤ wholeIn f.seed start bs (n - 8) := wholeIn_mono f.seed (by omega)
    have htake : kept.take j = bs.take j := by
      rw [hkept, List.take_take, Nat.min_eq_left hle]
    have hj : (f.lose loss).Holds kind' start (kept.take j) := by
      refine ⟨bs, max loss.1 f.synced, hkind, ?_, hfit, hseq, htake⟩
      rw [hbytes, hx, List.take_take, Nat.min_eq_left hcut]
      rfl
    refine ⟨kind', j, hj, fun hsafe => ?_, ?_, hlost _ hj⟩
    · have h8 : f.bytes.length ≤ 8 := by
        rw [Safe] at hsafe
        omega
      rw [h.eq_nil_of_le h8, List.take_nil]
    · calc wholeIn f.seed start kept (f.synced - 8)
          ≤ wholeIn f.seed start bs (f.synced - 8) := by rw [hkept]; exact wholeIn_take_le f.seed
        _ ≤ j := wholeIn_mono f.seed (by omega)

end LogFile

/-! ## What an open makes of the files -/

/-- What a file was found to hold: the sequence its batches are numbered from, and the batches. -/
structure Part where
  start : ℕ
  kept : List (List WalRecord)

/-- Every batch of some files. -/
def batchesOf (ps : List Part) : List (List WalRecord) := ps.flatMap Part.kept

@[simp] lemma batchesOf_nil : batchesOf [] = [] := rfl

@[simp] lemma batchesOf_cons (p : Part) (ps : List Part) :
    batchesOf (p :: ps) = p.kept ++ batchesOf ps := rfl

/-- Files each continuing the one before, from a sequence on; one that holds no batch may have been
begun anywhere. -/
def Whole : ℕ → List LogFile → List Part → Prop
  | _, [], [] => True
  | seq, f :: fs, p :: ps =>
      (∃ kind, f.Holds kind p.start p.kept) ∧ (p.kept ≠ [] → p.start = seq) ∧
        Whole (seq + frameCount p.kept) fs ps
  | _, _, _ => False

/-- A file begun loose that holds only batches behind a sequence the log has not reached. -/
def LogFile.Behind (g : LogFile) (fromSeq : ℕ) : Prop :=
  ∃ start kept, g.Holds walLoose start kept ∧ (kept ≠ [] → fromSeq < start)

/-- Files an open can read from a sequence on, giving the batches `bs`: each continues the one
before, up to one behind which all are loose and hold only what comes later. -/
def Readable : ℕ → List LogFile → List (List WalRecord) → Prop
  | _, [], bs => bs = []
  | seq, f :: fs, bs =>
      ∃ kind start kept rest, f.Holds kind start kept ∧ (kept ≠ [] → start = seq) ∧
        bs = kept ++ rest ∧
        (Readable (seq + frameCount kept) fs rest ∨
          (rest = [] ∧ ∀ g ∈ fs, g.Behind (seq + frameCount kept)))

section Open

/-- What stands of the live file after the cut: nothing, or its header and whole batches. -/
def LogFile.CutTo (f : LogFile) (valid : ℕ) (p : Part) : Prop :=
  (f.bytes.take valid = [] ∧ p.kept = []) ∨
  (∃ kind, (kind = walChained ∨ kind = walLoose) ∧
    f.bytes.take valid = walHeader kind ++ Wal.logBytes f.seed p.start p.kept ∧
    BatchesFit p.kept ∧ p.start + frameCount p.kept < 2 ^ 64)

lemma LogFile.Holds.cutTo {f : LogFile} {kind : UInt8} {start : ℕ} {kept : List (List WalRecord)}
    (h : f.Holds kind start kept) : f.CutTo (f.validLen start kept) ⟨start, kept⟩ := by
  rcases h.cases with ⟨hlen, rfl, -⟩ | ⟨hlen, hkind, bs, m, hbytes, hfit, hseq, hkept, -⟩
  · refine Or.inl ⟨?_, rfl⟩
    rw [LogFile.validLen, if_pos hlen, List.take_zero]
  · refine Or.inr ⟨kind, hkind, ?_, ?_, ?_⟩
    · obtain ⟨m', htake, -⟩ := take_logBytes f.seed start bs m
      have h8 : (walHeader kind).length = 8 := rfl
      rw [LogFile.validLen, if_neg (by omega), hbytes, htake, ← hkept, ← List.append_assoc]
      exact List.take_left' (by rw [List.length_append, h8])
    · rw [hkept]
      exact fun b hb => hfit b (List.mem_of_mem_take hb)
    · have hsplit : frameCount bs = frameCount kept + frameCount (bs.drop (wholeIn f.seed start bs m)) := by
        rw [hkept, ← frameCount_append, List.take_append_drop]
      simp only
      omega

/-- A file of the chain read where the log stands. -/
lemma LogFile.Holds.replay_at {f : LogFile} {kind : UInt8} {start seq : ℕ}
    {kept : List (List WalRecord)} (h : f.Holds kind start kept) (hstart : kept ≠ [] → start = seq)
    (first : Bool) :
    f.replay seq first
      = ⟨kept.flatten.map WalRecord.applied,
          .ok (seq + frameCount kept, f.validLen start kept, false)⟩ := by
  cases kept with
  | nil => exact h.replay_nil seq first
  | cons b bs =>
      rw [← hstart (List.cons_ne_nil _ _)]
      exact h.replay_continues first

/-- Files behind what the log has reached end it, at the first of them that holds anything. -/
lemma openFiles_behind {files : List LogFile} (hne : files ≠ []) {seq : ℕ}
    (h : ∀ g ∈ files, g.Behind seq) :
    ∃ (init : List LogFile) (last : LogFile) (ps : List Part) (p : Part) (valid : ℕ),
      openFiles seq false files = .ok ⟨[], seq, init ++ [last], valid⟩ ∧
      init ++ [last] <+: files ∧ Whole seq init ps ∧ last.CutTo valid p ∧ batchesOf ps = [] ∧
      p.kept = [] := by
  induction files with
  | nil => exact absurd rfl hne
  | cons f fs ih =>
      obtain ⟨start, kept, hf, hgap⟩ := h f (List.mem_cons_self ..)
      by_cases hkept : kept = []
      · subst hkept
        have hrun := hf.replay_nil seq false
        by_cases hfs : fs = []
        · subst hfs
          refine ⟨[], f, [], ⟨start, []⟩, f.validLen start [], ?_, List.prefix_refl _, trivial, hf.cutTo, rfl,
            rfl⟩
          simp [openFiles, hrun]
        · obtain ⟨init, last, ps, p, valid, hopen, hpre, hwhole, hcut, hps, hp⟩ :=
            ih hfs (fun g hg => h g (List.mem_cons_of_mem _ hg))
          refine ⟨f :: init, last, ⟨start, []⟩ :: ps, p, valid, ?_, ?_, ?_, hcut, hps, hp⟩
          · simp only [openFiles, hrun, hopen, hfs, Bool.false_eq_true, or_self, if_false]
            rfl
          · exact (List.prefix_cons_inj f).mpr hpre
          · exact ⟨⟨walLoose, hf⟩, fun hne => absurd rfl hne, hwhole⟩
      · refine ⟨[], f, [], ⟨seq, []⟩, 8, ?_, by simp, trivial, ?_, rfl, rfl⟩
        · simp [openFiles, hf.replay_gap hkept (hgap hkept)]
        · rcases hf.cases with ⟨-, hnil, -⟩ | ⟨-, -, bs, m, hbytes, -⟩
          · exact absurd hnil hkept
          · by_cases hseq : seq < 2 ^ 64
            · refine Or.inr ⟨walLoose, Or.inr rfl, ?_, by simp [BatchesFit], hseq⟩
              have htake : (walHeader walLoose ++ (Wal.logBytes f.seed start bs).take m).take 8
                  = walHeader walLoose := List.take_left' rfl
              rw [hbytes, htake]
              exact (List.append_nil _).symm
            · have hstart := hgap hkept
              obtain ⟨bs, -, -, -, -, hlt, -⟩ := hf
              omega

/-- **Opening readable files** applies what they give and stops at the one to go on in. -/
lemma openFiles_readable {files : List LogFile} (hne : files ≠ []) {seq : ℕ}
    {bs : List (List WalRecord)} (h : Readable seq files bs) (first : Bool) :
    ∃ (init : List LogFile) (last : LogFile) (ps : List Part) (p : Part) (valid : ℕ),
      openFiles seq first files
        = .ok ⟨bs.flatten.map WalRecord.applied, seq + frameCount bs, init ++ [last], valid⟩ ∧
      init ++ [last] <+: files ∧ Whole seq init ps ∧ last.CutTo valid p ∧
      (p.kept ≠ [] → p.start = seq + frameCount (batchesOf ps)) ∧ bs = batchesOf ps ++ p.kept := by
  induction files generalizing seq bs first with
  | nil => exact absurd rfl hne
  | cons f fs ih =>
      obtain ⟨kind, start, kept, rest, hf, hstart, rfl, hrest⟩ := h
      have hrun := hf.replay_at hstart first
      by_cases hfs : fs = []
      · subst hfs
        have hnil : rest = [] := by
          rcases hrest with hrest | hrest
          · exact hrest
          · exact hrest.1
        subst hnil
        refine ⟨[], f, [], ⟨start, kept⟩, f.validLen start kept, ?_, List.prefix_refl _, trivial,
          hf.cutTo, fun hne => by simpa using hstart hne, by simp⟩
        simp [openFiles, hrun]
      · have hstep : ∀ o, openFiles (seq + frameCount kept) false fs = .ok o →
            openFiles seq first (f :: fs)
              = .ok { o with applied := kept.flatten.map WalRecord.applied ++ o.applied,
                             kept := f :: o.kept } := by
          intro o ho
          simp only [openFiles, hrun, ho, hfs, Bool.false_eq_true, or_self, if_false]
          rfl
        rcases hrest with hrest | ⟨rfl, hbehind⟩
        · obtain ⟨init, last, ps, p, valid, hopen, hpre, hwhole, hcut, hp, rfl⟩ := ih hfs hrest false
          refine ⟨f :: init, last, ⟨start, kept⟩ :: ps, p, valid, ?_, ?_, ?_, hcut, ?_, by simp⟩
          · rw [hstep _ hopen]
            simp only [List.flatten_append, List.map_append, frameCount_append, Nat.add_assoc,
              List.cons_append]
          · exact (List.prefix_cons_inj f).mpr hpre
          · exact ⟨⟨kind, hf⟩, hstart, hwhole⟩
          · intro hne
            rw [hp hne, batchesOf_cons, frameCount_append, Nat.add_assoc]
        · obtain ⟨init, last, ps, p, valid, hopen, hpre, hwhole, hcut, hps, hp⟩ :=
            openFiles_behind hfs hbehind
          refine ⟨f :: init, last, ⟨start, kept⟩ :: ps, p, valid, ?_, ?_, ?_, hcut, ?_, ?_⟩
          · rw [hstep _ hopen, List.append_nil, List.append_nil]
            rfl
          · exact (List.prefix_cons_inj f).mpr hpre
          · exact ⟨⟨kind, hf⟩, hstart, hwhole⟩
          · exact fun hne => absurd hp hne
          · simp [hps, hp]

end Open

/-! ## What a power loss leaves -/

/-- Behind a file with frames no sync covers every header is loose. -/
def DurableOk : List LogFile → Prop
  | [] => True
  | f :: fs => (f.Safe ∨ ∀ g ∈ fs, g.Loose) ∧ DurableOk fs

/-- How many batches the syncs made cover: those of the files up to the first with a frame without
one, and what of that file they cover. -/
def durCount : List LogFile → List Part → ℕ
  | f :: fs, p :: ps =>
      if f.Safe then p.kept.length + durCount fs ps
      else wholeIn f.seed p.start p.kept (f.synced - 8)
  | _, _ => 0

section Loss

/-- Loose files that follow on from one that lost batches hold only what comes later. -/
lemma behind_of_loose {fs : List LogFile} {ps : List Part} {seq fromSeq : ℕ}
    (hwhole : Whole seq fs ps) (hwf : ∀ f ∈ fs, f.Wf) (hloose : ∀ f ∈ fs, f.Loose)
    (hlt : fromSeq < seq) (loss : ℕ → ℕ × Bool) :
    ∀ g ∈ fs.map (fun f => f.lose (loss f.id)), g.Behind fromSeq := by
  induction fs generalizing seq ps with
  | nil => simp
  | cons f fs ih =>
      cases ps with
      | nil => exact hwhole.elim
      | cons p ps =>
          obtain ⟨⟨kind, hf⟩, hstart, hrest⟩ := hwhole
          intro g hg
          rcases List.mem_cons.mp hg with rfl | hg
          · obtain ⟨kind', j, -, -, -, hlost⟩ := hf.lose (hwf f (List.mem_cons_self ..)) (loss f.id)
            refine ⟨p.start, p.kept.take j, hlost (hloose f (List.mem_cons_self ..)), fun hne => ?_⟩
            have hkept : p.kept ≠ [] := by
              rintro hnil
              rw [hnil, List.take_nil] at hne
              exact hne rfl
            rw [hstart hkept]
            exact hlt
          · exact ih hrest (fun f hf => hwf f (List.mem_cons_of_mem _ hf))
              (fun f hf => hloose f (List.mem_cons_of_mem _ hf)) (by omega) g hg

/-- **The files after a power loss** give a prefix of the batches, all that the syncs covered among
it. -/
lemma readable_lose {fs : List LogFile} {ps : List Part} {seq : ℕ} (hwhole : Whole seq fs ps)
    (hwf : ∀ f ∈ fs, f.Wf) (hdur : DurableOk fs) (loss : ℕ → ℕ × Bool) :
    ∃ j, durCount fs ps ≤ j ∧
      Readable seq (fs.map (fun f => f.lose (loss f.id))) ((batchesOf ps).take j) := by
  induction fs generalizing seq ps with
  | nil =>
      cases ps with
      | nil => exact ⟨0, le_refl _, rfl⟩
      | cons p ps => exact hwhole.elim
  | cons f fs ih =>
      cases ps with
      | nil => exact hwhole.elim
      | cons p ps =>
          obtain ⟨⟨kind, hf⟩, hstart, hrest⟩ := hwhole
          obtain ⟨hfirst, hdur⟩ := hdur
          have hwf' : ∀ f ∈ fs, f.Wf := fun f hf => hwf f (List.mem_cons_of_mem _ hf)
          obtain ⟨kind', j, hj, hsafe, hcovered, -⟩ :=
            hf.lose (hwf f (List.mem_cons_self ..)) (loss f.id)
          have hstart' : p.kept.take j ≠ [] → p.start = seq := by
            intro hne
            refine hstart (fun hnil => hne ?_)
            rw [hnil, List.take_nil]
          by_cases hall : p.kept.take j = p.kept
          · -- nothing of this file is lost, and the rest follows
            obtain ⟨i, hi, hread⟩ := ih hrest hwf' hdur
            refine ⟨p.kept.length + i, ?_, kind', p.start, p.kept, (batchesOf ps).take i, hall ▸ hj,
              fun hne => hstart hne, ?_, Or.inl hread⟩
            · rw [durCount]
              split_ifs
              · omega
              · exact (wholeIn_le _ _ _ _).trans (by omega)
            · rw [batchesOf_cons, List.take_length_add_append]
          · -- a batch of this file is lost: it had frames without a sync, and the rest is loose
            have hunsafe : ¬ f.Safe := fun h => hall (hsafe h)
            have hlen : j < p.kept.length := by
              by_contra h
              exact hall (List.take_of_length_le (by omega))
            refine ⟨j, ?_, kind', p.start, p.kept.take j, [], hj, hstart', ?_, Or.inr ⟨rfl, ?_⟩⟩
            · rw [durCount, if_neg hunsafe]
              exact hcovered
            · rw [batchesOf_cons, List.take_append_of_le_length hlen.le, List.append_nil]
            · refine behind_of_loose hrest hwf' (hfirst.resolve_left hunsafe) ?_ loss
              have hsplit : frameCount p.kept
                  = frameCount (p.kept.take j) + frameCount (p.kept.drop j) := by
                rw [← frameCount_append, List.take_append_drop]
              have hpos : 0 < frameCount (p.kept.drop j) := by
                rw [List.drop_eq_getElem_cons hlen, frameCount_cons]
                omega
              omega

end Loss

/-! ## The chain's invariant -/

section Lists

variable {fs gs : List LogFile} {ps qs : List Part}

lemma durableOk_snoc {g : LogFile} :
    DurableOk (fs ++ [g]) ↔ DurableOk fs ∧ ∀ f ∈ fs, f.Safe ∨ g.Loose := by
  induction fs with
  | nil => simp [DurableOk]
  | cons f fs ih =>
      rw [List.cons_append, DurableOk, DurableOk, ih]
      constructor
      · rintro ⟨hf, hfs, hg⟩
        refine ⟨⟨hf.imp_right (fun h x hx => h x (List.mem_append_left _ hx)), hfs⟩, ?_⟩
        intro x hx
        rcases List.mem_cons.mp hx with rfl | hx
        · exact hf.imp_right (fun h => h g (by simp))
        · exact hg x hx
      · rintro ⟨⟨hf, hfs⟩, hg⟩
        refine ⟨?_, hfs, fun x hx => hg x (List.mem_cons_of_mem _ hx)⟩
        rcases hf with hf | hf
        · exact Or.inl hf
        · refine (hg f (List.mem_cons_self ..)).imp_right (fun hl x hx => ?_)
          rcases List.mem_append.mp hx with hx | hx
          · exact hf x hx
          · rw [List.mem_singleton.mp hx]
            exact hl

lemma durableOk_of_safe (h : ∀ f ∈ fs, f.Safe) : DurableOk fs := by
  induction fs with
  | nil => trivial
  | cons f fs ih =>
      exact ⟨Or.inl (h f (List.mem_cons_self ..)), ih (fun x hx => h x (List.mem_cons_of_mem _ hx))⟩

lemma whole_length {seq : ℕ} (h : Whole seq fs ps) : fs.length = ps.length := by
  induction fs generalizing seq ps with
  | nil =>
      cases ps with
      | nil => rfl
      | cons p ps => exact h.elim
  | cons f fs ih =>
      cases ps with
      | nil => exact h.elim
      | cons p ps => rw [List.length_cons, List.length_cons, ih h.2.2]

lemma whole_append {seq : ℕ} :
    Whole seq fs ps → Whole (seq + frameCount (batchesOf ps)) gs qs →
      Whole seq (fs ++ gs) (ps ++ qs) := by
  induction fs generalizing seq ps with
  | nil =>
      cases ps with
      | nil => exact fun _ h => h
      | cons p ps => exact fun h _ => h.elim
  | cons f fs ih =>
      cases ps with
      | nil => exact fun h _ => h.elim
      | cons p ps =>
          rintro ⟨hf, hstart, hrest⟩ hgs
          refine ⟨hf, hstart, ih hrest ?_⟩
          rwa [batchesOf_cons, frameCount_append, ← Nat.add_assoc] at hgs

lemma batchesOf_append : batchesOf (ps ++ qs) = batchesOf ps ++ batchesOf qs := by
  rw [batchesOf, List.flatMap_append]
  rfl

lemma durCount_of_safe (hlen : fs.length = ps.length) (hsafe : ∀ f ∈ fs, f.Safe) :
    durCount fs ps = (batchesOf ps).length := by
  induction fs generalizing ps with
  | nil =>
      cases ps with
      | nil => rfl
      | cons p ps => exact absurd hlen (by simp)
  | cons f fs ih =>
      cases ps with
      | nil => exact absurd hlen (by simp)
      | cons p ps =>
          rw [durCount, if_pos (hsafe f (List.mem_cons_self ..)),
            ih (by simpa using hlen) (fun x hx => hsafe x (List.mem_cons_of_mem _ hx)),
            batchesOf_cons, List.length_append]

lemma durCount_append_mono {gs' : List LogFile} {qs' : List Part} (hlen : fs.length = ps.length)
    (h : durCount gs qs ≤ durCount gs' qs') :
    durCount (fs ++ gs) (ps ++ qs) ≤ durCount (fs ++ gs') (ps ++ qs') := by
  induction fs generalizing ps with
  | nil =>
      cases ps with
      | nil => exact h
      | cons p ps => exact absurd hlen (by simp)
  | cons f fs ih =>
      cases ps with
      | nil => exact absurd hlen (by simp)
      | cons p ps =>
          have := @ih ps (by simpa using hlen)
          simp only [List.cons_append, durCount]
          split_ifs
          · omega
          · exact le_refl _

lemma LogFile.safe_sync (f : LogFile) : f.sync.Safe := le_max_left _ _

lemma mem_syncFirst {f : LogFile} (h : f ∈ syncFirst fs) : f ∈ fs ∨ ∃ g ∈ fs, f = g.sync := by
  induction fs with
  | nil => exact absurd h (by simp [syncFirst])
  | cons g fs ih =>
      rw [syncFirst] at h
      split_ifs at h
      · rcases List.mem_cons.mp h with rfl | h
        · exact Or.inr ⟨g, List.mem_cons_self .., rfl⟩
        · exact Or.inl (List.mem_cons_of_mem _ h)
      · rcases List.mem_cons.mp h with rfl | h
        · exact Or.inl (List.mem_cons_self ..)
        · rcases ih h with h | ⟨g', hg', rfl⟩
          · exact Or.inl (List.mem_cons_of_mem _ h)
          · exact Or.inr ⟨g', List.mem_cons_of_mem _ hg', rfl⟩

lemma whole_syncFirst {seq : ℕ} (h : Whole seq fs ps) : Whole seq (syncFirst fs) ps := by
  induction fs generalizing seq ps with
  | nil => exact h
  | cons f fs ih =>
      cases ps with
      | nil => exact h.elim
      | cons p ps =>
          obtain ⟨hf, hstart, hrest⟩ := h
          rw [syncFirst]
          split_ifs
          · exact ⟨hf, hstart, hrest⟩
          · exact ⟨hf, hstart, ih hrest⟩

lemma durableOk_syncFirst {g : LogFile} (h : DurableOk (fs ++ [g])) :
    DurableOk (syncFirst fs ++ [g]) := by
  induction fs with
  | nil => exact h
  | cons f fs ih =>
      obtain ⟨hf, hrest⟩ := h
      rw [syncFirst]
      split_ifs
      · exact ⟨Or.inl f.safe_sync, hrest⟩
      · refine ⟨hf.imp_right (fun hl x hx => ?_), ih hrest⟩
        rcases List.mem_append.mp hx with hx | hx
        · rcases mem_syncFirst hx with hx | ⟨y, hy, rfl⟩
          · exact hl x (List.mem_append_left _ hx)
          · exact ⟨(hl y (List.mem_append_left _ hy)).1, fun k hk => absurd hk (by simp [LogFile.sync])⟩
        · exact hl x (List.mem_append_right _ hx)

lemma durCount_syncFirst (hlen : fs.length = ps.length) :
    durCount (fs ++ gs) (ps ++ qs) ≤ durCount (syncFirst fs ++ gs) (ps ++ qs) := by
  induction fs generalizing ps with
  | nil => exact le_refl _
  | cons f fs ih =>
      cases ps with
      | nil => exact absurd hlen (by simp)
      | cons p ps =>
          have := @ih ps (by simpa using hlen)
          rw [syncFirst]
          by_cases howed : f.owed = true
          · rw [if_pos howed]
            simp only [List.cons_append, durCount, if_pos f.safe_sync]
            split_ifs
            · exact le_refl _
            · exact (wholeIn_le _ _ _ _).trans (Nat.le_add_right _ _)
          · rw [if_neg howed]
            simp only [List.cons_append, durCount]
            split_ifs
            · omega
            · exact le_refl _

end Lists

/-- A chain in order on the device, whatever the writer believes of it: its closed files continue
one another from `base` on, the live file holds whole batches behind them, and behind a file with a
frame no sync covers every header is loose. -/
structure Chain.OnDisk (c : Chain) (base : ℕ) (ps : List Part) (p : Part) : Prop where
  whole : Whole base c.closed ps
  start : p.start = base + frameCount (batchesOf ps)
  wal : ∃ kind, (kind = walChained ∨ kind = walLoose) ∧ (c.loose = true ↔ kind = walLoose) ∧
    c.wal = ⟨walHeader kind ++ Wal.logBytes c.live.seed p.start p.kept,
      p.start + frameCount p.kept, [], c.live.seed⟩
  fits : BatchesFit p.kept
  room : p.start + frameCount p.kept < 2 ^ 64
  wf : ∀ f ∈ c.files, f.Wf
  durable : DurableOk c.files

namespace Chain.OnDisk

variable {c : Chain} {base : ℕ} {ps : List Part} {p : Part}

/-- The live file with a batch cut off on its way to it. -/
lemma live_torn (h : c.OnDisk base ps p) {b : List WalRecord} {n : ℕ}
    (htorn : n = 0 ∨ b ≠ [] ∧ (∀ r ∈ b, r.bodyLen < 2 ^ 32) ∧ c.wal.seq + (b.length + 1) < 2 ^ 64 ∧
      n < (Wal.batchBytes c.wal.seed c.wal.seq b).length) :
    ∃ kind, (c.torn b n).live.Holds kind p.start p.kept ∧
      (c.torn b n).live.validLen p.start p.kept = c.wal.file.length := by
  obtain ⟨kind, hkind, -, hwal⟩ := h.wal
  have h8 : (walHeader kind).length = 8 := rfl
  have hvalid : (c.torn b n).live.validLen p.start p.kept = c.wal.file.length := by
    have hlen : ¬ (c.torn b n).live.bytes.length < 8 := by
      have hb : (c.torn b n).live.bytes = c.wal.file ++ (Wal.batchBytes c.wal.seed c.wal.seq b).take n :=
        rfl
      rw [hb, hwal]
      simp only [List.length_append, h8]
      omega
    rw [LogFile.validLen, if_neg hlen, hwal, List.length_append, h8]
    rfl
  refine ⟨kind, ?_, hvalid⟩
  rcases htorn with rfl | ⟨hne, hfit, hroom, hn⟩
  · refine ⟨p.kept, 8 + (Wal.logBytes c.live.seed p.start p.kept).length, hkind, ?_, h.fits,
      h.room, ?_⟩
    · change c.wal.file ++ (Wal.batchBytes c.wal.seed c.wal.seq b).take 0 = _
      rw [List.take_zero, List.append_nil, hwal]
      exact (List.take_of_length_le (by rw [List.length_append, h8])).symm
    · have hlive : (c.torn b 0).live.seed = c.live.seed := rfl
      rw [hlive, wholeIn_of_length_le _ (by rw [Nat.add_sub_cancel_left]), List.take_length]
  · have hseq : c.wal.seq = p.start + frameCount p.kept := by rw [hwal]
    have hseed : c.wal.seed = c.live.seed := by rw [hwal]
    rw [hseed, hseq] at hn
    refine ⟨p.kept ++ [b], 8 + ((Wal.logBytes c.live.seed p.start p.kept).length + n), hkind,
      ?_, ?_, ?_, ?_⟩
    · change c.wal.file ++ (Wal.batchBytes c.wal.seed c.wal.seq b).take n = _
      have hX : Wal.logBytes c.live.seed p.start (p.kept ++ [b])
          = Wal.logBytes c.live.seed p.start p.kept
            ++ Wal.batchBytes c.live.seed (p.start + frameCount p.kept) b := by
        rw [logBytes_append, Wal.logBytes, Wal.logBytes, List.append_nil]
      have hlive : (c.torn b n).live.seed = c.live.seed := rfl
      have hfile : c.wal.file = walHeader kind ++ Wal.logBytes c.live.seed p.start p.kept := by rw [hwal]
      rw [hlive, hX, ← h8, List.take_length_add_append, List.take_length_add_append, hseed,
        hseq, hfile, List.append_assoc]
    · intro x hx
      rcases List.mem_append.mp hx with hx | hx
      · exact h.fits x hx
      · rw [List.mem_singleton.mp hx]
        exact ⟨hne, hfit⟩
    · rw [frameCount_append, frameCount_cons, frameCount_nil]
      omega
    · have hlive : (c.torn b n).live.seed = c.live.seed := rfl
      rw [hlive, Nat.add_sub_cancel_left, wholeIn_append _ (by omega), Nat.add_sub_cancel_left,
        wholeIn, if_neg (by omega), Nat.add_zero, List.take_left]

/-- The live file as it stands. -/
lemma live_holds (h : c.OnDisk base ps p) : ∃ kind, c.live.Holds kind p.start p.kept := by
  obtain ⟨kind, hkind, -⟩ := @live_torn c base ps p h [] 0 (Or.inl rfl)
  have hlive : (c.torn [] 0).live = c.live := by simp [Chain.live, Chain.torn]
  exact ⟨kind, hlive ▸ hkind⟩

lemma files_whole (h : c.OnDisk base ps p) : Whole base c.files (ps ++ [p]) := by
  obtain ⟨kind, hlive⟩ := h.live_holds
  exact whole_append h.whole ⟨⟨kind, hlive⟩, fun _ => h.start, trivial⟩

/-- Under a chained header every closed file has its sync. -/
lemma closed_safe (h : c.OnDisk base ps p) (hloose : c.loose = false) : ∀ f ∈ c.closed, f.Safe := by
  obtain ⟨kind, -, hiff, hwal⟩ := h.wal
  have hd := h.durable
  rw [Chain.files, durableOk_snoc] at hd
  intro f hf
  refine (hd.2 f hf).resolve_right (fun hl => ?_)
  have h8 : (walHeader kind).length = 8 := rfl
  have hhead : c.live.bytes.take 8 = walHeader kind := by
    change c.wal.file.take 8 = _
    rw [hwal]
    exact List.take_left' h8
  have hkind := LogFile.eq_of_walHeader_prefix (hhead ▸ hl.1)
  rw [hiff.mpr hkind] at hloose
  exact absurd hloose (by simp)

lemma length_file (h : c.OnDisk base ps p) : 8 ≤ c.wal.file.length := by
  obtain ⟨kind, -, -, hwal⟩ := h.wal
  have h8 : (walHeader kind).length = 8 := rfl
  rw [hwal, List.length_append, h8]
  omega

/-- Files changed only behind their headers keep the invariant of the devices' syncs. -/
lemma durable_live (h : c.OnDisk base ps p) {g : LogFile} (hloose : c.live.Loose → g.Loose) :
    DurableOk (c.closed ++ [g]) := by
  have hd := h.durable
  rw [Chain.files, durableOk_snoc] at hd
  exact durableOk_snoc.mpr ⟨hd.1, fun f hf => (hd.2 f hf).imp_right hloose⟩

lemma wf_live (h : c.OnDisk base ps p) : c.live.Wf := h.wf c.live (by simp [Chain.files])

lemma wf_snoc (h : c.OnDisk base ps p) {g : LogFile} (hg : g.Wf) : ∀ f ∈ c.closed ++ [g], f.Wf := by
  intro f hf
  rcases List.mem_append.mp hf with hf | hf
  · exact h.wf f (List.mem_append_left _ hf)
  · rw [List.mem_singleton.mp hf]
    exact hg

/-- What a sync covers of a live file whose frames all have one. -/
lemma le_synced (h : c.OnDisk base ps p) (hsafe : c.live.Safe) (hne : p.kept ≠ []) :
    (Wal.logBytes c.live.seed p.start p.kept).length ≤ c.live.synced - 8 := by
  obtain ⟨kind, -, -, hwal⟩ := h.wal
  obtain ⟨kindL, hlive⟩ := h.live_holds
  have h8 : (walHeader kind).length = 8 := rfl
  have hbytes : c.live.bytes.length = 8 + (Wal.logBytes c.live.seed p.start p.kept).length := by
    change c.wal.file.length = _
    rw [hwal, List.length_append, h8]
  have hlong : ¬ c.live.bytes.length ≤ 8 := fun hle => hne (hlive.eq_nil_of_le hle)
  rw [LogFile.Safe] at hsafe
  omega

/-- A commit puts its batch behind what the device holds. -/
lemma commit (h : c.OnDisk base ps p) {b : List WalRecord} (hne : b ≠ [])
    (hfit : ∀ r ∈ b, r.bodyLen < 2 ^ 32) (hroom : c.wal.seq + (b.length + 1) < 2 ^ 64) :
    (c.commit b).OnDisk base ps ⟨p.start, p.kept ++ [b]⟩ ∧
      durCount c.files (ps ++ [p])
        ≤ durCount (c.commit b).files (ps ++ [⟨p.start, p.kept ++ [b]⟩]) := by
  obtain ⟨kind, hkind, hloose, hwal⟩ := h.wal
  have hpend : c.wal.pending = [] := by rw [hwal]
  have hseq : c.wal.seq = p.start + frameCount p.kept := by rw [hwal]
  have hcommit := Wal.commitBatch_eq hne c.wal hpend (by omega)
  have hfile : (c.commit b).wal.file
      = c.wal.file ++ Wal.batchBytes c.wal.seed c.wal.seq b := by
    rw [Chain.commit, hcommit]
  have hlen := h.length_file
  have hgrow : c.wal.file.length ≤ (c.commit b).wal.file.length := by
    rw [hfile, List.length_append]
    omega
  refine ⟨⟨h.whole, h.start, ⟨kind, hkind, hloose, ?_⟩, ?_, ?_, ?_, ?_⟩, ?_⟩
  · have hlive : (c.commit b).live.seed = c.live.seed := rfl
    rw [hlive, Chain.commit, hcommit, hwal, logBytes_append, Wal.logBytes, Wal.logBytes,
      List.append_nil, List.append_assoc, frameCount_append, frameCount_cons, frameCount_nil]
    simp only [Nat.add_assoc, Nat.add_zero]
  · intro x hx
    rcases List.mem_append.mp hx with hx | hx
    · exact h.fits x hx
    · rw [List.mem_singleton.mp hx]
      exact ⟨hne, hfit⟩
  · simp only [frameCount_append, frameCount_cons, frameCount_nil]
    omega
  · refine h.wf_snoc ⟨h.wf_live.1.trans hgrow, fun k hk => ⟨(h.wf_live.2 k hk).1, ?_⟩⟩
    exact hlen.trans hgrow
  · refine h.durable_live (fun hl => ⟨?_, hl.2⟩)
    have htake : (c.commit b).live.bytes.take 8 = c.live.bytes.take 8 := by
      change (c.commit b).wal.file.take 8 = c.wal.file.take 8
      rw [hfile, List.take_append_of_le_length hlen]
    rw [htake]
    exact hl.1
  · refine durCount_append_mono (whole_length h.whole) ?_
    have hseed : (c.commit b).live.seed = c.live.seed := rfl
    have hsync : (c.commit b).live.synced = c.live.synced := rfl
    have hwhole : ∀ m, (Wal.logBytes c.live.seed p.start p.kept).length ≤ m →
        p.kept.length ≤ wholeIn c.live.seed p.start (p.kept ++ [b]) m := by
      intro m hm
      rw [wholeIn_append _ hm]
      omega
    simp only [durCount, hseed, hsync, Nat.add_zero]
    split_ifs with hsafe hsafe'
    · rw [List.length_append]
      omega
    · rcases List.eq_nil_or_concat p.kept with hnil | ⟨bs, x, hx⟩
      · rw [hnil]
        exact Nat.zero_le _
      · exact hwhole _ (h.le_synced hsafe (by rw [hx]; simp))
    · exact (wholeIn_le _ _ _ _).trans (by rw [List.length_append]; omega)
    · have := @wholeIn_take_le c.live.seed p.start (c.live.synced - 8) p.kept.length (p.kept ++ [b])
      rwa [List.take_left] at this

/-- The live file swapped for a new one.  Its header may be chained only behind files whose every
frame is synced. -/
lemma rotate (h : c.OnDisk base ps p) (hchain : c.framesUnsynced = false → ∀ f ∈ c.files, f.Safe) :
    c.rotate.OnDisk base (ps ++ [p]) ⟨p.start + frameCount p.kept, []⟩ ∧
      durCount c.files (ps ++ [p])
        ≤ durCount c.rotate.files (ps ++ [p] ++ [⟨p.start + frameCount p.kept, []⟩]) := by
  obtain ⟨kind, hkind, hloose, hwal⟩ := h.wal
  obtain ⟨kindL, hlive⟩ := h.live_holds
  set g : LogFile := { c.live with owed := c.framesUnsynced } with hg
  have hgbytes : g.bytes = c.live.bytes := rfl
  have hgwf : g.Wf := h.wf_live
  have hgwhole : Whole base (c.closed ++ [g]) (ps ++ [p]) :=
    whole_append h.whole ⟨⟨kindL, hlive⟩, fun _ => h.start, trivial⟩
  have hdur : DurableOk (c.closed ++ [g]) := h.durable_live (fun hl => hl)
  have hstart : p.start + frameCount p.kept = base + frameCount (batchesOf (ps ++ [p])) := by
    rw [batchesOf_append, batchesOf_cons, batchesOf_nil, List.append_nil,
      frameCount_append, h.start, Nat.add_assoc]
  have hseq : c.wal.seq = p.start + frameCount p.kept := by rw [hwal]
  refine ⟨⟨hgwhole, hstart, ?_, by simp [BatchesFit], by simpa using h.room, ?_, ?_⟩, ?_⟩
  · refine ⟨if c.framesUnsynced then walLoose else walChained, ?_, ?_, ?_⟩
    · cases c.framesUnsynced with
      | true => exact Or.inr rfl
      | false => exact Or.inl rfl
    · change c.framesUnsynced = true ↔ _
      cases c.framesUnsynced with
      | true => exact ⟨fun _ => rfl, fun _ => rfl⟩
      | false => exact ⟨fun hf => absurd hf (by simp), fun hf => absurd hf (by decide)⟩
    · rw [Chain.rotate, Wal.create, hseq]
      simp only [Wal.logBytes, List.append_nil, frameCount_nil, Nat.add_zero]
      rfl
  · intro f hf
    rcases List.mem_append.mp hf with hf | hf
    · exact h.wf_snoc hgwf f hf
    · rw [List.mem_singleton.mp hf]
      exact ⟨Nat.zero_le _, fun k hk => absurd hk (by simp [Chain.rotate, Chain.live])⟩
  · refine durableOk_snoc.mpr ⟨hdur, fun f hf => ?_⟩
    cases hu : c.framesUnsynced with
    | true =>
        refine Or.inr ⟨?_, fun k hk => absurd hk (by simp [Chain.rotate, Chain.live])⟩
        change (c.rotate.wal.file).take 8 <+: _
        simp only [Chain.rotate, hu, if_true, Wal.create]
        exact List.take_prefix _ _
    | false =>
        refine Or.inl ?_
        rcases List.mem_append.mp hf with hf | hf
        · exact hchain hu f (List.mem_append_left _ hf)
        · rw [List.mem_singleton.mp hf]
          exact hchain hu c.live (by simp [Chain.files])
  · rw [Chain.files, Chain.files, List.append_assoc ps]
    change _ ≤ durCount ((c.closed ++ [g]) ++ [c.rotate.live]) _
    rw [List.append_assoc]
    refine durCount_append_mono (whole_length h.whole) ?_
    have hiff : g.Safe ↔ c.live.Safe := Iff.rfl
    have hseed : g.seed = c.live.seed := rfl
    have hsync : g.synced = c.live.synced := rfl
    simp only [List.cons_append, List.nil_append, durCount, hiff, hseed, hsync, Nat.add_zero]
    split_ifs
    · exact le_refl _
    · omega
    · exact le_refl _

/-- A file owed its sync, synced. -/
lemma syncOwed (h : c.OnDisk base ps p) :
    c.syncOwed.OnDisk base ps p ∧
    durCount c.files (ps ++ [p]) ≤ durCount c.syncOwed.files (ps ++ [p]) := by
  have hlive : c.syncOwed.live = c.live := rfl
  refine ⟨⟨whole_syncFirst h.whole, h.start, h.wal, h.fits, h.room, ?_, ?_⟩, ?_⟩
  · intro f hf
    rcases List.mem_append.mp hf with hf | hf
    · rcases mem_syncFirst hf with hf | ⟨g, -, rfl⟩
      · exact h.wf f (List.mem_append_left _ hf)
      · exact ⟨le_refl _, fun k hk => absurd hk (by simp [LogFile.sync])⟩
    · exact h.wf f (List.mem_append_right _ hf)
  · exact durableOk_syncFirst h.durable
  · exact durCount_syncFirst (whole_length h.whole)

/-- The live header rewritten, behind files that all have their syncs. -/
lemma chainHeader (h : c.OnDisk base ps p) (hchain : c.loose = true → ∀ f ∈ c.closed, f.Safe) :
    c.chainHeader.OnDisk base ps p ∧
      durCount c.files (ps ++ [p]) ≤ durCount c.chainHeader.files (ps ++ [p]) := by
  by_cases hl : c.loose = true
  · obtain ⟨kind, hkind, hloose, hwal⟩ := h.wal
    have h8 : (walHeader kind).length = 8 := rfl
    have hfile : writeAt c.wal.file 7 [walChained]
        = walHeader walChained ++ Wal.logBytes c.live.seed p.start p.kept := by
      have hw := @LogFile.writeAt_header kind walChained (Wal.logBytes c.live.seed p.start p.kept)
        (8 + (Wal.logBytes c.live.seed p.start p.kept).length) (by omega)
      rwa [List.take_of_length_le (by rw [List.length_append, h8]), List.take_of_length_le
        (by rw [List.length_append]; exact le_refl _),
        ← (by rw [hwal] : c.wal.file = walHeader kind ++ Wal.logBytes c.live.seed p.start p.kept)] at hw
    have hlen : (writeAt c.wal.file 7 [walChained]).length = c.wal.file.length := by
      rw [hfile, hwal, List.length_append, List.length_append]
      rfl
    have hlen8 := h.length_file
    rw [Chain.chainHeader, if_pos hl]
    refine ⟨⟨h.whole, h.start, ⟨walChained, Or.inl rfl, by simp; decide, ?_⟩, h.fits,
      h.room, ?_, ?_⟩, ?_⟩
    · rw [hfile, hwal]
      rfl
    · refine h.wf_snoc ⟨?_, ?_⟩
      · exact h.wf_live.1.trans hlen.ge
      · intro k hk
        have hk : k = c.oldKind.getD walLoose := (Option.some.inj hk).symm
        refine ⟨?_, hlen8.trans hlen.ge⟩
        cases hold : c.oldKind with
        | none => rw [hk, hold]; rfl
        | some k' =>
            rw [hk, hold]
            exact (h.wf_live.2 k' hold).1
    · exact durableOk_snoc.mpr ⟨durableOk_of_safe (hchain hl), fun f hf => Or.inl (hchain hl f hf)⟩
    · refine durCount_append_mono (whole_length h.whole) (le_of_eq ?_)
      have hiff : (LogFile.Safe ⟨c.id, writeAt c.wal.file 7 [walChained], c.synced,
          some (c.oldKind.getD walLoose), false⟩) ↔ c.live.Safe := by
        rw [LogFile.Safe, LogFile.Safe]
        change _ ≤ _ ↔ c.wal.file.length ≤ max c.synced 8
        rw [hlen]
      simp only [durCount, Chain.live]
      rw [Chain.live] at hiff
      simp only [hiff]
      rfl
  · rw [Chain.chainHeader, if_neg hl]
    exact ⟨h, le_refl _⟩

/-- The live file synced, under a chained header. -/
lemma syncLive (h : c.OnDisk base ps p) (hloose : c.loose = false) :
    c.syncLive.OnDisk base ps p ∧ durCount c.syncLive.files (ps ++ [p])
    = (batchesOf (ps ++ [p])).length := by
  have hsafe : ∀ f ∈ c.syncLive.files, f.Safe := by
    intro f hf
    rcases List.mem_append.mp hf with hf | hf
    · exact h.closed_safe hloose f hf
    · rw [List.mem_singleton.mp hf]
      exact le_max_left _ _
  have hok : c.syncLive.OnDisk base ps p := by
    refine ⟨h.whole, h.start, h.wal, h.fits, h.room, ?_, durableOk_of_safe hsafe⟩
    refine h.wf_snoc ⟨le_refl _, fun k hk => absurd hk ?_⟩
    simp [Chain.live, Chain.syncLive]
  exact ⟨hok, durCount_of_safe (whole_length hok.files_whole) hsafe⟩

/-- The files with a batch cut off on its way to the live one. -/
lemma torn (h : c.OnDisk base ps p) {b : List WalRecord} {n : ℕ}
    (htorn : n = 0 ∨ b ≠ [] ∧ (∀ r ∈ b, r.bodyLen < 2 ^ 32) ∧ c.wal.seq + (b.length + 1) < 2 ^ 64 ∧
      n < (Wal.batchBytes c.wal.seed c.wal.seq b).length) :
    Whole base (c.torn b n).files (ps ++ [p]) ∧ (∀ f ∈ (c.torn b n).files, f.Wf) ∧
      DurableOk (c.torn b n).files ∧
      durCount c.files (ps ++ [p]) ≤ durCount (c.torn b n).files (ps ++ [p]) := by
  obtain ⟨kind, hlive, -⟩ := h.live_torn htorn
  have hlen := h.length_file
  have hbytes : (c.torn b n).live.bytes
      = c.wal.file ++ (Wal.batchBytes c.wal.seed c.wal.seq b).take n := rfl
  have hgrow : c.wal.file.length ≤ (c.torn b n).live.bytes.length := by
    rw [hbytes, List.length_append]
    omega
  refine ⟨whole_append h.whole ⟨⟨kind, hlive⟩, fun _ => h.start, trivial⟩, ?_, ?_, ?_⟩
  · exact h.wf_snoc ⟨h.wf_live.1.trans hgrow, fun k hk => ⟨(h.wf_live.2 k hk).1, hlen.trans hgrow⟩⟩
  · refine h.durable_live (fun hl => ⟨?_, hl.2⟩)
    rw [hbytes, List.take_append_of_le_length hlen]
    exact hl.1
  · refine durCount_append_mono (whole_length h.whole) ?_
    have hseed : (c.torn b n).live.seed = c.live.seed := rfl
    have hsync : (c.torn b n).live.synced = c.live.synced := rfl
    simp only [durCount, hseed, hsync, Nat.add_zero]
    split_ifs with hsafe
    · exact le_refl _
    · by_cases hne : p.kept = []
      · rw [hne]
        exact Nat.zero_le _
      · rw [wholeIn_of_length_le _ (h.le_synced hsafe hne)]
    · exact wholeIn_le _ _ _ _
    · exact le_refl _

end Chain.OnDisk

/-- A chain in order whose writer is right about its syncs: a file it does not owe one has it. -/
structure Chain.Ok (c : Chain) (base : ℕ) (ps : List Part) (p : Part) : Prop
    extends c.OnDisk base ps p where
  owed : ∀ f ∈ c.closed, f.owed = false → f.Safe
  believed : c.believed ≤ c.synced
  owes : c.owes = true → c.believed = 0

namespace Chain.Ok

variable {c : Chain} {base : ℕ} {ps : List Part} {p : Part}

/-- Without a sync owed every closed file has its own. -/
lemma safe_of_not_owes (h : c.Ok base ps p) (howes : c.owes = false) : ∀ f ∈ c.closed, f.Safe := by
  intro f hf
  refine h.owed f hf ?_
  rw [Chain.owes, List.any_eq_false] at howes
  simpa using howes f hf

/-- What the writer believes synced of the live file is. -/
lemma live_safe (h : c.Ok base ps p) (hframes : c.framesUnsynced = false) : c.live.Safe := by
  have hbelieved := h.believed
  rw [Chain.framesUnsynced, decide_eq_false_iff_not] at hframes
  change c.wal.file.length ≤ max c.synced 8
  omega

/-- A commit leaves the chain in order, one batch longer. -/
lemma commit (h : c.Ok base ps p) {b : List WalRecord} (hne : b ≠ [])
    (hfit : ∀ r ∈ b, r.bodyLen < 2 ^ 32) (hroom : c.wal.seq + (b.length + 1) < 2 ^ 64) :
    (c.commit b).Ok base ps ⟨p.start, p.kept ++ [b]⟩ ∧
      durCount c.files (ps ++ [p])
        ≤ durCount (c.commit b).files (ps ++ [⟨p.start, p.kept ++ [b]⟩]) := by
  obtain ⟨hdisk, hdur⟩ := h.toOnDisk.commit hne hfit hroom
  exact ⟨⟨hdisk, h.owed, h.believed, h.owes⟩, hdur⟩

/-- A rotation.  A file rotated away with no frame in it, while one before it is owed its sync,
would be taken for a boundary that was synced. -/
lemma rotate (h : c.Ok base ps p) (hframes : c.owes = true → 8 < c.wal.file.length) :
    c.rotate.Ok base (ps ++ [p]) ⟨p.start + frameCount p.kept, []⟩ ∧
      durCount c.files (ps ++ [p])
        ≤ durCount c.rotate.files (ps ++ [p] ++ [⟨p.start + frameCount p.kept, []⟩]) := by
  have hclosed : c.framesUnsynced = false → ∀ f ∈ c.closed, f.Safe := by
    intro hf
    refine h.safe_of_not_owes ?_
    by_contra howes
    rw [Bool.not_eq_false] at howes
    rw [Chain.framesUnsynced, h.owes howes, decide_eq_false_iff_not] at hf
    have := hframes howes
    omega
  obtain ⟨hdisk, hdur⟩ := h.toOnDisk.rotate (fun hf g hg => by
    rcases List.mem_append.mp hg with hg | hg
    · exact hclosed hf g hg
    · rw [List.mem_singleton.mp hg]
      exact h.live_safe hf)
  refine ⟨⟨hdisk, fun f hf howed => ?_, le_refl _, fun _ => rfl⟩, hdur⟩
  rcases List.mem_append.mp hf with hf | hf
  · exact h.owed f hf howed
  · rw [List.mem_singleton.mp hf] at howed ⊢
    exact h.live_safe howed

/-- A file owed its sync, synced. -/
lemma syncOwed (h : c.Ok base ps p) :
    c.syncOwed.Ok base ps p ∧
    durCount c.files (ps ++ [p]) ≤ durCount c.syncOwed.files (ps ++ [p]) := by
  obtain ⟨hdisk, hdur⟩ := h.toOnDisk.syncOwed
  refine ⟨⟨hdisk, fun f hf howed => ?_, h.believed, fun howes => h.owes ?_⟩, hdur⟩
  · rcases mem_syncFirst hf with hf | ⟨g, -, rfl⟩
    · exact h.owed f hf howed
    · exact LogFile.safe_sync g
  · rw [Chain.owes, List.any_eq_true] at howes ⊢
    obtain ⟨f, hf, howed⟩ := howes
    rcases mem_syncFirst hf with hf | ⟨g, -, rfl⟩
    · exact ⟨f, hf, howed⟩
    · exact absurd howed (by simp [LogFile.sync])

/-- The live header rewritten. -/
lemma chainHeader (h : c.Ok base ps p) (howes : c.owes = false) :
    c.chainHeader.Ok base ps p ∧
      durCount c.files (ps ++ [p]) ≤ durCount c.chainHeader.files (ps ++ [p]) := by
  obtain ⟨hdisk, hdur⟩ := h.toOnDisk.chainHeader (fun _ => h.safe_of_not_owes howes)
  refine ⟨⟨hdisk, ?_, ?_, ?_⟩, hdur⟩ <;> rw [Chain.chainHeader] <;> split_ifs
  all_goals first
    | exact h.owed
    | exact h.believed
    | exact h.owes

/-- The live file synced. -/
lemma syncLive (h : c.Ok base ps p) (howes : c.owes = false) (hloose : c.loose = false) :
    c.syncLive.Ok base ps p ∧ durCount c.syncLive.files (ps ++ [p])
    = (batchesOf (ps ++ [p])).length := by
  obtain ⟨hdisk, hdur⟩ := h.toOnDisk.syncLive hloose
  exact ⟨⟨hdisk, h.owed, le_refl _, fun hw => absurd (howes.symm.trans hw) (by simp)⟩, hdur⟩

end Chain.Ok

/-! ## Reopening keeps the invariant -/

section Reopen

variable {base : ℕ}

/-- Files that each continue the one before are all read, and the last is gone on in. -/
lemma openFiles_whole {init : List LogFile} {last : LogFile} {ps : List Part} {p : Part}
    (h : Whole base (init ++ [last]) (ps ++ [p])) (hlen : init.length = ps.length) (first : Bool) :
    openFiles base first (init ++ [last])
      = .ok ⟨(batchesOf (ps ++ [p])).flatten.map WalRecord.applied,
          base + frameCount (batchesOf (ps ++ [p])), init ++ [last], last.validLen p.start p.kept⟩ := by
  induction init generalizing base ps first with
  | nil =>
      cases ps with
      | nil =>
          obtain ⟨⟨kind, hf⟩, hstart, -⟩ := h
          simp [openFiles, hf.replay_at hstart first]
      | cons q ps => exact absurd hlen (by simp)
  | cons f init ih =>
      cases ps with
      | nil => exact absurd hlen (by simp)
      | cons q ps =>
          obtain ⟨⟨kind, hf⟩, hstart, hrest⟩ := h
          have hopen := ih hrest (by simpa using hlen) false
          have hne : init ++ [last] ≠ [] := by simp
          simp only [List.cons_append, openFiles, hf.replay_at hstart first, hopen, hne,
            Bool.false_eq_true, or_self, if_false]
          simp only [bind, Except.bind, batchesOf_cons, List.flatten_append, List.map_append,
            frameCount_append, Nat.add_assoc]

lemma whole_unowed {fs : List LogFile} {ps : List Part} {seq : ℕ} (h : Whole seq fs ps) :
    Whole seq (fs.map LogFile.unowed) ps := by
  induction fs generalizing seq ps with
  | nil => exact h
  | cons f fs ih =>
      cases ps with
      | nil => exact h.elim
      | cons p ps => exact ⟨h.1, h.2.1, ih h.2.2⟩

lemma durableOk_unowed {fs : List LogFile} (h : DurableOk fs) :
    DurableOk (fs.map LogFile.unowed) := by
  induction fs with
  | nil => trivial
  | cons f fs ih =>
      refine ⟨h.1.imp_right (fun hl g hg => ?_), ih h.2⟩
      obtain ⟨x, hx, rfl⟩ := List.mem_map.mp hg
      exact hl x hx

lemma durCount_unowed {fs gs : List LogFile} {ps qs : List Part} (hlen : fs.length = ps.length) :
    durCount (fs.map LogFile.unowed ++ gs) (ps ++ qs) = durCount (fs ++ gs) (ps ++ qs) := by
  induction fs generalizing ps with
  | nil => rfl
  | cons f fs ih =>
      cases ps with
      | nil => exact absurd hlen (by simp)
      | cons p ps =>
          rw [List.map_cons, List.cons_append, List.cons_append, List.cons_append, durCount,
            durCount, ih (by simpa using hlen)]
          rfl

/-- **The writer reopened** over files in order on the device, the live one cut to whole batches:
they are in order still, and no batch that was covered is covered no more. -/
lemma openAppend_onDisk {init : List LogFile} {last : LogFile} {ps : List Part} {q : Part}
    {valid : ℕ} (hwhole : Whole base init ps) (hwf : ∀ f ∈ init ++ [last], f.Wf)
    (hdur : DurableOk (init ++ [last])) (hcut : last.CutTo valid q)
    (hempty : last.bytes.take valid = [] → ∀ f ∈ init, f.Safe)
    (hstart : q.kept ≠ [] → q.start = base + frameCount (batchesOf ps))
    (hroom : base + frameCount (batchesOf ps ++ q.kept) < 2 ^ 64) :
    (openAppend (init.map LogFile.unowed) last valid
        (base + frameCount (batchesOf ps ++ q.kept))).OnDisk base ps
      ⟨base + frameCount (batchesOf ps), q.kept⟩ ∧
    durCount (init ++ [last]) (ps ++ [q]) ≤ durCount (openAppend (init.map LogFile.unowed) last valid
        (base + frameCount (batchesOf ps ++ q.kept))).files
      (ps ++ [⟨base + frameCount (batchesOf ps), q.kept⟩]) := by
  set closed := init.map LogFile.unowed with hclosed
  have hbound : base + frameCount (batchesOf ps) + frameCount q.kept < 2 ^ 64 := by
    rw [frameCount_append] at hroom
    omega
  have hsnoc : ∀ g : LogFile, g.Wf → ∀ f ∈ closed ++ [g], f.Wf := by
    intro g hg f hf
    rcases List.mem_append.mp hf with hf | hf
    · obtain ⟨x, hx, rfl⟩ := List.mem_map.mp hf
      exact hwf x (List.mem_append_left _ hx)
    · rw [List.mem_singleton.mp hf]
      exact hg
  have hd := durableOk_snoc.mp hdur
  have hdurable : ∀ g : LogFile, (∀ f ∈ init, f.Safe ∨ g.Loose) → DurableOk (closed ++ [g]) := by
    intro g hg
    refine durableOk_snoc.mpr ⟨durableOk_unowed hd.1, fun f hf => ?_⟩
    obtain ⟨x, hx, rfl⟩ := List.mem_map.mp hf
    exact hg x hx
  have hcount : ∀ g : LogFile, durCount [last] [q] ≤
      durCount [g] [⟨base + frameCount (batchesOf ps), q.kept⟩] → durCount (init ++ [last]) (ps ++ [q]) ≤
        durCount (closed ++ [g]) (ps ++ [⟨base + frameCount (batchesOf ps), q.kept⟩]) := by
    intro g hg
    rw [hclosed, durCount_unowed (whole_length hwhole)]
    exact durCount_append_mono (whole_length hwhole) hg
  rcases hcut with ⟨hnil, hkept⟩ | ⟨kind, hkind, hbytes, hfit, -⟩
  · -- nothing stands of the live file: it is begun afresh, chained
    rw [openAppend, if_pos hnil, hkept]
    rw [hkept] at hbound hcount
    refine ⟨⟨whole_unowed hwhole, rfl, ⟨walChained, Or.inl rfl, by simp; decide, ?_⟩,
      by simp [BatchesFit], hbound, hsnoc _ ⟨Nat.zero_le _, by simp [Chain.live]⟩,
      hdurable _ fun f hf => Or.inl (hempty hnil f hf)⟩, hcount _ ?_⟩
    · simp only [Wal.logBytes, List.append_nil, frameCount_nil, Nat.add_zero]
      rfl
    · rw [durCount, hkept]
      split_ifs
      · exact Nat.zero_le _
      · exact (wholeIn_le _ _ _ _).trans (Nat.zero_le _)
  · have h8 : (walHeader kind).length = 8 := rfl
    have hne : last.bytes.take valid ≠ [] := by
      rw [hbytes]
      simp [walHeader]
    have hhead : (last.bytes.take valid).take 8 = walHeader kind := by
      rw [hbytes]
      exact List.take_left' h8
    have hlog : Wal.logBytes last.seed q.start q.kept
        = Wal.logBytes last.seed (base + frameCount (batchesOf ps)) q.kept := by
      by_cases hk : q.kept = []
      · rw [hk]
        rfl
      · rw [hstart hk]
    have hlen8 : 8 ≤ (last.bytes.take valid).length := by
      rw [hbytes, List.length_append, h8]
      omega
    have hlast := hwf last (by simp)
    rw [openAppend, if_neg hne]
    set g : LogFile := ⟨last.id, last.bytes.take valid,
      if decide (valid < last.bytes.length) = true then valid else last.synced,
      if decide (valid < last.bytes.length) = true then none else last.oldKind, false⟩ with hg
    have hgwf : g.Wf := by
      by_cases hc : valid < last.bytes.length
      · simp only [hg, decide_eq_true hc, if_true]
        exact ⟨by simp; omega, by simp⟩
      · simp only [hg, decide_eq_false hc, Bool.false_eq_true, if_false]
        refine ⟨?_, fun k hk => ⟨(hlast.2 k hk).1, hlen8⟩⟩
        rw [List.take_of_length_le (by omega)]
        exact hlast.1
    have hgloose : last.Loose → g.Loose := by
      rintro ⟨hhead, hold⟩
      refine ⟨?_, fun k hk => ?_⟩
      · show (last.bytes.take valid).take 8 <+: _
        rw [List.take_take, min_comm, ← List.take_take]
        exact (List.take_prefix _ _).trans hhead
      · by_cases hc : valid < last.bytes.length
        · simp [hg, hc] at hk
        · refine hold k ?_
          simpa only [hg, decide_eq_false hc, Bool.false_eq_true, if_false] using hk
    refine ⟨⟨whole_unowed hwhole, rfl, ⟨kind, hkind, ?_, ?_⟩, hfit, hbound, hsnoc g hgwf,
      hdurable g fun f hf => (hd.2 f hf).imp_right hgloose⟩, hcount g ?_⟩
    · simp only [decide_eq_true_eq, hhead, walKind_walHeader hkind, Option.some.injEq]
    · rw [hbytes, hlog, frameCount_append, ← Nat.add_assoc]
      rfl
    · -- a file cut is synced; one not cut is what it was
      by_cases hc : valid < last.bytes.length
      · have hsafe : g.Safe := by
          simp only [hg, decide_eq_true hc, if_true, LogFile.Safe, List.length_take]
          omega
        simp only [durCount, if_pos hsafe, Nat.add_zero]
        split_ifs
        · exact le_refl _
        · exact wholeIn_le _ _ _ _
      · have hsame : g.bytes = last.bytes ∧ g.synced = last.synced := by
          simp only [hg, decide_eq_false hc, Bool.false_eq_true, if_false, and_true]
          exact List.take_of_length_le (by omega)
        have hiff : g.Safe ↔ last.Safe := by rw [LogFile.Safe, LogFile.Safe, hsame.1, hsame.2]
        simp only [durCount, hiff, hsame.2, Nat.add_zero]
        split_ifs
        · exact le_refl _
        · by_cases hk : q.kept = []
          · rw [hk]
            exact (wholeIn_le _ _ _ _).trans (Nat.zero_le _)
          · rw [hstart hk]
            exact le_refl _

end Reopen

end Supdb
