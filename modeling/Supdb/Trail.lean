import Supdb.Lib.Logs
import Supdb.Store

/-!
# Where every committed batch stands

The **trail** of a store is its history by place: what has landed, what each seal in flight holds,
what the live table holds, and of each of these batches the log it went to.  The invariant says that
the store is what its trail says.

* `Trail.hist` – the batches not yet landed, in order, each with its log.
* `History.Inv` – the store and its trail agree; `LiveOk` is its part about the live table, one case
  for each state the writer can be in.
* `durable`, `Evolves` – how much of each log is synced, and how a step may change that and the
  history.
* `land_inv` – **a landing** moves the oldest seal's batches from the logs to the segments.
-/

namespace Supdb

open StorageLib

/-! ## The trail -/

/-- A batch with the log it went to: none is the WAL, and a run has its file's id. -/
abbrev Logged := Option ℕ × List WalRecord

/-- The batches of a run's file. -/
def RunFile.logged (r : RunFile) : List Logged := r.batches.map (fun b => (some r.id, b.map asPut))

/-- Of some batches those that went to the WAL. -/
def walOf (h : List Logged) : List (List WalRecord) := (h.filter (fun e => e.1.isNone)).map Prod.snd

/-- Where everything committed stands: the batches landed, those of each seal in flight and of the
live table, the live table's run, and how the standing log files are numbered and how many of their
batches a manifest covers. -/
structure Trail where
  landed : List (List WalRecord)
  frozen : List (List Logged)
  live : List Logged
  run : Option RunFile
  base : ℕ
  parts : List Part
  part : Part
  cut : ℕ

namespace Trail

/-- The batches not landed, in the order they were committed. -/
def hist (t : Trail) : List Logged := t.frozen.flatten ++ t.live

/-- Every batch committed. -/
def batches (t : Trail) : List (List WalRecord) := t.landed ++ t.hist.map Prod.snd

/-- The batches of the standing log files. -/
def log (t : Trail) : List (List WalRecord) := batchesOf (t.parts ++ [t.part])

/-- The entries of the live table that its run's file holds. -/
def entries (t : Trail) : List (Bytes × Bytes) := (t.run.map (fun r => r.batches.flatten)).getD []

end Trail

/-- A seal in flight and the batches its table holds. -/
def InFlight.Holds (j : InFlight) (f : List Logged) : Prop :=
  match j.file with
  | some r => f = r.logged ∧ j.table = .ordered r.batches.flatten
  | none => (∀ e ∈ f, e.1 = none) ∧ j.table = .hashed (f.map Prod.snd).flatten

/-- The seals in flight, oldest first: each ends at the sequence behind its batches, and the files
it retires lie below that. -/
def SealsOk : ℕ → ℕ → List Part → List InFlight → List (List Logged) → Prop
  | _, _, _, [], [] => True
  | covered, base, parts, j :: js, f :: fs =>
      j.Holds f ∧ j.endSeq = covered + frameCount (walOf f) ∧
        ∃ ps qs, parts = ps ++ qs ∧ ps.length = j.wals.length ∧
          base + frameCount (batchesOf ps) ≤ j.endSeq ∧
          SealsOk j.endSeq (base + frameCount (batchesOf ps)) qs js fs
  | _, _, _, _, _ => False

/-- Whether two batches have no key in common. -/
def KeysApart (a b : List WalRecord) : Prop := ∀ r ∈ a, ∀ r' ∈ b, r.key ≠ r'.key

/-- The greatest key is no less than any a record appends to. -/
def Raised (maxKey : Bytes) (rs : List WalRecord) : Prop :=
  ∀ r ∈ rs, ∀ key value, r = .put key value → key ≤ maxKey

namespace Store

/-- A run whose close failed: its file is still there, and no seal of it is in flight. -/
def Stranded (s : Store) : Prop := s.tmps.length ≠ (s.sealing.filterMap InFlight.file).length

instance (s : Store) : Decidable s.Stranded := inferInstanceAs (Decidable (_ ≠ _))

end Store

/-- **The live table**, in each state the writer can be in: hashed; ordered, what its run's file
does not hold behind what it does; handed to a seal; or stranded, its run's file left behind by a
close that failed. -/
inductive LiveOk (s : Store) (staged : List WalRecord) (t : Trail) : Prop where
  | hashed (hmem : s.mem = .hashed ((t.live.map Prod.snd).flatten ++ staged))
      (hhanded : s.handed = false)
      (hdirect : s.direct = none) (hpending : s.pending = staged) (hrun : t.run = none)
  | ordered (tail : List (Bytes × Bytes)) (hmem : s.mem = .ordered (t.entries ++ tail))
      (hhanded : s.handed = false) (hdirect : s.direct.map Direct.file = t.run)
      (hcommitted : s.committed = t.entries.length) (hpending : s.pending = [])
      (hlive : t.live = (t.run.map RunFile.logged).getD []) (hstaged : staged = tail.map asPut)
      (hcarried : ∀ e ∈ t.entries ++ tail, Carried s.opts.direct e)
  | handed (hhanded : s.handed = true) (hdirect : s.direct = none) (hpending : s.pending = [])
      (hrun : t.run = none) (hlive : t.live = []) (hstaged : staged = [])
      (hmem : s.mem = (s.sealing.getLast?.map InFlight.table).getD .fresh)
  | stranded (r : RunFile) (hmem : s.mem.records = (t.live.map Prod.snd).flatten ++ staged)
      (hhanded : s.handed = false) (hdirect : s.direct = none) (hrun : t.run = some r)
      (hlive : t.live = r.logged)

/-- What the rest of a call needs of the live table when it gets there; `clean` says that by then
nothing is staged. -/
def Fits (s : Store) : Prop → List Instr → Prop
  | _, [] => True
  | _, .commit _ _ :: rest => (s.pendingErr = true ∨ ¬ s.Stranded) ∧ rest = []
  | _, .sealing _ :: rest => (s.pendingErr = true ∨ ¬ s.Stranded) ∧ rest = []
  | _, .sync _ :: rest => (s.pendingErr = true ∨ ¬ s.Stranded) ∧ rest = []
  | _, .commitLog _ :: rest =>
      (s.mem.isOrdered = false ∧ s.handed = false ∧ ¬ s.Stranded) ∧ Fits s True rest
  | _, .commitDirect :: rest =>
      (s.mem.isOrdered = true ∧ s.handed = false ∧ ¬ s.Stranded) ∧ Fits s True rest
  | clean, .freeze :: rest =>
      (clean ∧ s.mem.isOrdered = false ∧ s.handed = false ∧ ¬ s.Stranded) ∧ rest = []
  | clean, .closeDirect _ :: rest =>
      (clean ∧ s.mem.isOrdered = true ∧ s.handed = false ∧ ¬ s.Stranded) ∧ rest = []
  | clean, .handTail _ :: rest => (clean ∧ ¬ s.Stranded) ∧ rest = []
  | clean, .syncLog :: rest => Fits s clean rest
  | clean, .syncRun :: rest => Fits s clean rest
  | clean, .rotateBySize :: rest => Fits s clean rest
  | clean, .syncBarrier :: rest => Fits s clean rest

/-- The log and its part in the trail. -/
structure LogOk (s : Store) (t : Trail) : Prop where
  chain : s.chain.Ok t.base t.parts t.part
  ids : (s.chain.closed.map LogFile.id ++ [s.chain.id]).Pairwise (· < ·)
  wals : s.chain.closed.map LogFile.id = s.sealing.flatMap InFlight.wals ++ s.closedWals
  cut : t.cut ≤ t.log.length
  covered : s.covered = t.base + frameCount (t.log.take t.cut)
  above : t.log.drop t.cut = walOf t.hist
  seals : SealsOk s.covered t.base t.parts s.sealing t.frozen

/-- The runs' files and their part in the trail. -/
structure RunsOk (s : Store) (t : Trail) : Prop where
  runs : s.runs = s.sealing.filterMap InFlight.file ++ t.run.toList
  ids : (s.runs.map RunFile.id).Pairwise (· < ·)
  next : ∀ r ∈ s.runs, r.id < s.nextSeg
  files : ∀ r ∈ s.runs, r.Ok s.opts.direct
  sorted : ∀ r ∈ s.runs, (r.batches.flatten.map Prod.fst).Pairwise (· < ·)
  live : match t.run with
    | none => ∀ e ∈ t.live, e.1 = none
    | some r => t.live = r.logged ∧ r.batches ≠ []

/-- The keys: an ordered table's ascend, none is above the greatest, and no key of a run is one of a
batch that went to the WAL before it. -/
structure KeysOk (s : Store) (staged : List WalRecord) (t : Trail) : Prop where
  sorted : s.mem.Sorted
  raised : ∀ b ∈ t.batches, Raised s.maxKey b
  raisedStaged : Raised s.maxKey staged
  apart : t.hist.Pairwise (fun a b => a.1 = none → b.1 ≠ none → KeysApart a.2 b.2)
  apartLive : s.handed = false → ¬ s.Stranded → ∀ a ∈ t.frozen.flatten, a.1 = none →
    KeysApart a.2 (s.mem.entries.map asPut)

/-- **A store is what its trail says.** -/
structure Store.Inv (s : Store) (staged : List WalRecord) (t : Trail) : Prop where
  nonempty : ∀ e ∈ t.hist, e.2 ≠ []
  segments : ∀ k, (s.segments.map (fun es => deltaIn es k)).prod = recordsDelta t.landed.flatten k
  log : LogOk s t
  runs : RunsOk s t
  live : LiveOk s staged t
  keys : KeysOk s staged t

/-- A store over its life is, and the rest of the call under way finds what it needs. -/
structure History.Inv (h : History) (t : Trail) : Prop where
  batches : h.committed = t.batches
  store : h.store.Inv h.staged t
  todo : Fits h.store (h.staged = []) h.todo

/-! ## What is durable -/

/-- How many batches of a run's file a sync covers. -/
def runDurable (rs : List RunFile) (id : ℕ) : ℕ :=
  ((rs.find? (fun r => r.id = id)).map RunFile.durable).getD 0

/-- How many of each log's batches not landed a sync covers. -/
def durable (s : Store) (t : Trail) : Option ℕ → ℕ
  | none => durCount s.chain.files (t.parts ++ [t.part]) - t.cut
  | some id => runDurable s.runs id

/-- **What a step may do to a history**: write a batch behind it, and land some from its front.
What was durable stays so, or has landed. -/
def Evolves (s : Store) (t : Trail) (more : Option Logged) (s' : Store) (t' : Trail) : Prop :=
  ∃ gone, t.hist ++ more.toList = gone ++ t'.hist ∧ t'.landed = t.landed ++ gone.map Prod.snd ∧
    ∀ l, durable s t l ≤ countIn l gone + durable s' t' l

/-- Everything that did not go to a log in `p` is durable. -/
def DurableBut (p : Option ℕ → Prop) (s : Store) (t : Trail) : Prop :=
  ∀ l, ¬ p l → countIn l t.hist ≤ durable s t l

section Evolving

variable {s s' : Store} {t t' : Trail} {more : Option Logged}

/-- A step that leaves the logs as they are. -/
lemma Evolves.refl (hchain : s'.chain = s.chain) (hruns : s'.runs = s.runs)
    (hhist : t'.hist = t.hist) (hlanded : t'.landed = t.landed) (hparts : t'.parts = t.parts)
    (hpart : t'.part = t.part) (hcut : t'.cut = t.cut) : Evolves s t none s' t' := by
  refine ⟨[], by simp [hhist], by simp [hlanded], fun l => ?_⟩
  cases l with
  | none => simp [durable, hchain, hparts, hpart, hcut]
  | some id => simp [durable, hruns]

/-- The batches behind a step: one more, where it writes one. -/
lemma Evolves.batches (h : Evolves s t more s' t') :
    t'.batches = t.batches ++ (more.map Prod.snd).toList := by
  obtain ⟨gone, hhist, hlanded, -⟩ := h
  have hmap := congrArg (List.map Prod.snd) hhist
  rw [List.map_append, List.map_append] at hmap
  rw [Trail.batches, Trail.batches, hlanded, List.append_assoc, List.append_assoc, ← hmap]
  cases more <;> rfl

/-- A step behind one that writes nothing. -/
lemma Evolves.trans {s₁ : Store} {t₁ : Trail} (h : Evolves s t none s₁ t₁)
    (h' : Evolves s₁ t₁ more s' t') : Evolves s t more s' t' := by
  obtain ⟨gone, hhist, hlanded, hdur⟩ := h
  obtain ⟨gone', hhist', hlanded', hdur'⟩ := h'
  refine ⟨gone ++ gone', ?_, ?_, fun l => ?_⟩
  · rw [List.append_assoc, ← hhist', ← List.append_assoc, ← hhist]
    simp
  · rw [hlanded', hlanded, List.map_append, List.append_assoc]
  · have := hdur l
    have := hdur' l
    rw [countIn_append]
    omega

/-- The order of the syncs is kept by a step that writes only where the other logs are durable. -/
lemma Evolves.inOrder (h : Evolves s t more s' t') (horder : InOrder (durable s t) t.hist)
    (hmore : ∀ e ∈ more, ∀ l, l ≠ e.1 → countIn l t.hist ≤ durable s t l) :
    InOrder (durable s' t') t'.hist := by
  obtain ⟨gone, hhist, -, hdur⟩ := h
  have hsnoc : InOrder (durable s t) (t.hist ++ more.toList) := by
    cases more with
    | none => simpa using horder
    | some e => exact horder.snoc (hmore e rfl)
  rw [hhist] at hsnoc
  exact hsnoc.drop hdur

/-- What was durable stays so. -/
lemma Evolves.durableBut (h : Evolves s t none s' t') {p : Option ℕ → Prop}
    (hdur : DurableBut p s t) : DurableBut p s' t' := by
  obtain ⟨gone, hhist, -, hle⟩ := h
  intro l hl
  have h1 := hdur l hl
  have h2 := hle l
  have h3 : countIn l t.hist = countIn l gone + countIn l t'.hist := by
    rw [← countIn_append, ← hhist]
    simp
  omega

lemma DurableBut.mono {p q : Option ℕ → Prop} (h : DurableBut p s t) (hpq : ∀ l, p l → q l) :
    DurableBut q s t :=
  fun l hl => h l (fun hp => hl (hpq l hp))

/-- Behind a batch written, its log is not. -/
lemma Evolves.durableBut_or {e : Logged} (h : Evolves s t (some e) s' t') {p : Option ℕ → Prop}
    (hdur : DurableBut p s t) : DurableBut (fun l => p l ∨ l = e.1) s' t' := by
  obtain ⟨gone, hhist, -, hle⟩ := h
  intro l hl
  have h1 := hdur l (fun hp => hl (Or.inl hp))
  have h2 := hle l
  have h3 : countIn l (t.hist ++ [e]) = countIn l gone + countIn l t'.hist := by
    rw [← countIn_append, ← hhist]
    rfl
  rw [countIn_append, countIn_cons, countIn_nil, if_neg (fun heq => hl (Or.inr heq.symm))] at h3
  omega

lemma Evolves.durableBut_more {e : Logged} (h : Evolves s t (some e) s' t')
    (hdur : DurableBut (fun _ => False) s t) : DurableBut (fun l => l = e.1) s' t' :=
  (h.durableBut_or hdur).mono (fun _ hl => hl.resolve_left not_false)

end Evolving

/-! ## The trail's lists -/

section Lists

lemma walOf_append (h h' : List Logged) : walOf (h ++ h') = walOf h ++ walOf h' := by
  rw [walOf, List.filter_append, List.map_append]
  rfl

lemma countIn_none (h : List Logged) : countIn none h = (walOf h).length := by
  rw [walOf, List.length_map, countIn, List.countP_eq_length_filter]
  congr 1
  refine List.filter_congr (fun e _ => ?_)
  cases e.1 <;> rfl

lemma flatten_logged (r : RunFile) :
    (r.logged.map Prod.snd).flatten = r.batches.flatten.map asPut := by
  rw [RunFile.logged, List.map_map, List.map_flatten]
  rfl

/-- What a table on its way holds is what its batches wrote. -/
lemma InFlight.Holds.records {j : InFlight} {f : List Logged} (h : j.Holds f) :
    j.table.records = (f.map Prod.snd).flatten := by
  rw [InFlight.Holds] at h
  cases hfile : j.file with
  | none =>
      rw [hfile] at h
      rw [h.2]
      rfl
  | some r =>
      rw [hfile] at h
      rw [h.1, h.2, flatten_logged]
      rfl

/-- Of the seals in flight, the batches that went to a run are those of the runs' files. -/
lemma SealsOk.runs {covered base : ℕ} {parts : List Part} {js : List InFlight}
    {fs : List (List Logged)} (h : SealsOk covered base parts js fs) :
    fs.flatten.filter (fun e => !e.1.isNone) = (js.filterMap InFlight.file).flatMap
    RunFile.logged := by
  induction js generalizing covered base parts fs with
  | nil =>
      cases fs with
      | nil => rfl
      | cons f fs => exact h.elim
  | cons j js ih =>
      cases fs with
      | nil => exact h.elim
      | cons f fs =>
          obtain ⟨hholds, -, ps, qs, -, -, -, hrest⟩ := h
          rw [List.flatten_cons, List.filter_append, ih hrest]
          rw [InFlight.Holds] at hholds
          cases hfile : j.file with
          | none =>
              rw [hfile] at hholds
              rw [List.filterMap_cons_none hfile, List.filter_eq_nil_iff.mpr (fun e he => by
                rw [hholds.1 e he]
                simp), List.nil_append]
          | some r =>
              rw [hfile] at hholds
              rw [List.filterMap_cons_some hfile, List.flatMap_cons, hholds.1]
              congr 1
              rw [List.filter_eq_self]
              intro e he
              obtain ⟨b, -, rfl⟩ := List.mem_map.mp he
              rfl

/-- A longer log leaves the seals in flight as they are. -/
lemma SealsOk.parts_append {covered base : ℕ} {parts qs : List Part} {js : List InFlight}
    {fs : List (List Logged)} (h : SealsOk covered base parts js fs) :
    SealsOk covered base (parts ++ qs) js fs := by
  induction js generalizing covered base parts fs with
  | nil =>
      cases fs with
      | nil => trivial
      | cons f fs => exact h.elim
  | cons j js ih =>
      cases fs with
      | nil => exact h.elim
      | cons f fs =>
          obtain ⟨hholds, hend, ps, qs', rfl, hlen, hle, hrest⟩ := h
          exact ⟨hholds, hend, ps, qs' ++ qs, List.append_assoc .., hlen, hle, ih hrest⟩

/-- A seal behind those in flight, retiring the rest of the closed files. -/
lemma SealsOk.snoc {covered base : ℕ} {parts : List Part} {js : List InFlight}
    {fs : List (List Logged)} {j : InFlight} {f : List Logged}
    (h : SealsOk covered base parts js fs) (hholds : j.Holds f)
    (hlen : parts.length = (js.flatMap InFlight.wals).length + j.wals.length)
    (hend : j.endSeq = covered + frameCount (walOf fs.flatten) + frameCount (walOf f))
    (hle : base + frameCount (batchesOf parts) ≤ j.endSeq) :
    SealsOk covered base parts (js ++ [j]) (fs ++ [f]) := by
  induction js generalizing covered base parts fs with
  | nil =>
      cases fs with
      | nil =>
          refine ⟨hholds, by simpa [walOf] using hend, parts, [], by simp, by simpa using hlen, hle, trivial⟩
      | cons f fs => exact h.elim
  | cons i js ih =>
      cases fs with
      | nil => exact h.elim
      | cons g fs =>
          obtain ⟨hi, hiend, ps, qs, rfl, hps, hiLe, hrest⟩ := h
          rw [List.flatten_cons, walOf_append, frameCount_append] at hend
          rw [batchesOf_append, frameCount_append] at hle
          rw [List.flatMap_cons, List.length_append, List.length_append] at hlen
          refine ⟨hi, hiend, ps, qs, rfl, hps, hiLe, ih hrest (by omega) ?_ ?_⟩
          · omega
          · omega

end Lists

/-! ## The rest of a call -/

section Rest

variable {s s' : Store} {t : Trail} {staged : List WalRecord} {clean clean' : Prop}
    {todo : List Instr}

/-- What the rest of a call needs depends on no more than this of the store. -/
lemma Fits.congr (h : Fits s clean todo) (herr : s'.pendingErr = s.pendingErr)
    (hstranded : s'.Stranded ↔ s.Stranded) (hhanded : s'.handed = s.handed)
    (hordered : s.handed = false → s'.mem.isOrdered = s.mem.isOrdered) : Fits s' clean todo := by
  induction todo generalizing clean with
  | nil => trivial
  | cons i todo ih =>
      cases i <;> simp only [Fits, herr, hstranded, hhanded] at h ⊢
      case commitLog who =>
          obtain ⟨⟨h1, h2, h3⟩, hrest⟩ := h
          exact ⟨⟨(hordered h2).trans h1, h2, h3⟩, ih hrest⟩
      case commitDirect =>
          obtain ⟨⟨h1, h2, h3⟩, hrest⟩ := h
          exact ⟨⟨(hordered h2).trans h1, h2, h3⟩, ih hrest⟩
      case freeze =>
          obtain ⟨⟨hc, h1, h2, h3⟩, hrest⟩ := h
          exact ⟨⟨hc, (hordered h2).trans h1, h2, h3⟩, hrest⟩
      case closeDirect fails =>
          obtain ⟨⟨hc, h1, h2, h3⟩, hrest⟩ := h
          exact ⟨⟨hc, (hordered h2).trans h1, h2, h3⟩, hrest⟩
      case syncLog => exact ih h
      case syncRun => exact ih h
      case rotateBySize => exact ih h
      case syncBarrier => exact ih h
      all_goals exact h

lemma Fits.mono (h : Fits s clean todo) (hclean : clean → clean') : Fits s clean' todo := by
  induction todo with
  | nil => trivial
  | cons i todo ih =>
      cases i <;> simp only [Fits] at h ⊢
      case freeze => exact ⟨⟨hclean h.1.1, h.1.2⟩, h.2⟩
      case closeDirect fails => exact ⟨⟨hclean h.1.1, h.1.2⟩, h.2⟩
      case handTail hands => exact ⟨⟨hclean h.1.1, h.1.2⟩, h.2⟩
      case syncLog => exact ih h
      case syncRun => exact ih h
      case rotateBySize => exact ih h
      case syncBarrier => exact ih h
      all_goals exact h

/-- The temp files: those of the seals in flight, and a stranded run's. -/
lemma tmps_eq (hr : RunsOk s t) (hl : LiveOk s staged t) :
    ∃ rest, s.tmps = s.sealing.filterMap InFlight.file ++ rest ∧
      rest ++ (s.direct.map Direct.file).toList = t.run.toList := by
  have hruns := hr.runs
  rw [Store.runs] at hruns
  cases hl with
  | hashed hmem hhanded hdirect hpending hrun =>
      rw [hdirect, hrun] at hruns ⊢
      exact ⟨[], by simpa using hruns, rfl⟩
  | ordered tail hmem hhanded hdirect hcommitted hpending hlive hstaged hcarried =>
      rw [hdirect] at hruns ⊢
      exact ⟨[], by simpa using hruns, rfl⟩
  | handed hhanded hdirect hpending hrun hlive hstaged hmem =>
      rw [hdirect, hrun] at hruns ⊢
      exact ⟨[], by simpa using hruns, rfl⟩
  | stranded r hmem hhanded hdirect hrun hlive =>
      rw [hdirect, hrun] at hruns ⊢
      exact ⟨[r], by simpa using hruns, rfl⟩

/-- A table that is not stranded has its run, if any, open. -/
lemma direct_eq_run (hr : RunsOk s t) (hl : LiveOk s staged t) (hstranded : ¬ s.Stranded) :
    s.direct.map Direct.file = t.run := by
  cases hl with
  | hashed hmem hhanded hdirect hpending hrun => rw [hdirect, hrun]; rfl
  | ordered tail hmem hhanded hdirect hcommitted hpending hlive hstaged hcarried => exact hdirect
  | handed hhanded hdirect hpending hrun hlive hstaged hmem => rw [hdirect, hrun]; rfl
  | stranded r hmem hhanded hdirect hrun hlive =>
      have hruns := hr.runs
      rw [Store.runs, hdirect, hrun] at hruns
      refine absurd (fun hlen => ?_) hstranded
      have := congrArg List.length hruns
      simp only [Option.map_none, Option.toList_none, List.append_nil, List.length_append,
        Option.toList_some, List.length_singleton] at this
      omega

end Rest

/-! ## A landing -/

section Land

variable {t : Trail} {j : InFlight} {js : List InFlight}

/-- Fewer frames are fewer batches. -/
lemma take_le_of_frameCount_le {bs : List (List WalRecord)} {m n : ℕ} (hm : m ≤ bs.length)
    (h : frameCount (bs.take m) ≤ frameCount (bs.take n)) : m ≤ n := by
  by_contra hlt
  have hsplit : frameCount (bs.take m) = frameCount (bs.take n) +
    frameCount ((bs.take m).drop n) := by
    have htake : (bs.take m).take n = bs.take n := by
      rw [List.take_take, Nat.min_eq_left (by omega)]
    rw [← htake, ← frameCount_append, List.take_append_drop]
  have hpos := @frameCount_drop_pos (bs.take m) n (by rw [List.length_take]; omega)
  omega

/-- The segment a landed table becomes says what its batches do. -/
lemma deltaIn_segmentOf {f : List Logged} (hholds : j.Holds f)
    (hsorted : ∀ r, j.file = some r → (r.batches.flatten.map Prod.fst).Pairwise (· < ·))
    (k : Bytes) : deltaIn (Store.segmentOf j) k = recordsDelta (f.map Prod.snd).flatten k := by
  rw [Store.segmentOf, InFlight.Holds] at *
  cases hfile : j.file with
  | none =>
      rw [hfile] at hholds
      rw [hholds.2]
      exact deltaIn_sealedEntries _ k
  | some r =>
      rw [hfile] at hholds
      rw [hholds.1, flatten_logged]
      exact deltaIn_pieceEntries (hsorted r hfile) k

/-- The trail behind a landing of the batches `f`, whose files held the parts `ps` and left `qs`. -/
def Trail.behind (t : Trail) (f : List Logged) (fs : List (List Logged)) (ps qs : List Part) :
    Trail :=
  { t with landed := t.landed ++ f.map Prod.snd, frozen := fs
           base := t.base + frameCount (batchesOf ps), parts := qs
           cut := t.cut + (walOf f).length - (batchesOf ps).length }

/-- **The log behind a landing**: its first files are retired, and it is covered up to the seal's
end. -/
lemma land_log {s : Store} (hlog : LogOk s t) (hsealing : s.sealing = j :: js) :
    ∃ f fs ps qs, t.frozen = f :: fs ∧ j.Holds f ∧ LogOk s.land (t.behind f fs ps qs) ∧
      durable s t none ≤ (walOf f).length + durable s.land (t.behind f fs ps qs) none := by
  have hseals := hlog.seals
  rw [hsealing] at hseals
  cases hfrozen : t.frozen with
  | nil =>
      rw [hfrozen] at hseals
      exact hseals.elim
  | cons f fs =>
      rw [hfrozen] at hseals
      obtain ⟨hholds, hend, ps, qs, hparts, hlen, hle, hrest⟩ := hseals
      have hwals := hlog.wals
      rw [hsealing, List.flatMap_cons, List.append_assoc] at hwals
      have hnodup : (j.wals ++ (js.flatMap InFlight.wals ++ s.closedWals)).Nodup := by
        rw [← hwals]
        exact (hlog.ids.imp (fun hlt => ne_of_lt hlt)).sublist (List.sublist_append_left _ _)
      have hchain := hlog.chain
      rw [hparts] at hchain
      obtain ⟨hok, hids, hdur⟩ := hchain.retire hwals hnodup hlen.symm
      -- the covered batches of the standing log are those of the retired files and some of the
      -- others
      have hlogEq : t.log = batchesOf ps ++ batchesOf (qs ++ [t.part]) := by
        rw [Trail.log, hparts, List.append_assoc, batchesOf_append]
      have habove : t.log.drop t.cut = walOf f ++ walOf (fs.flatten ++ t.live) := by
        rw [hlog.above, Trail.hist, hfrozen, List.flatten_cons, List.append_assoc, walOf_append]
      have hlogLen : t.cut + (walOf f).length ≤ t.log.length := by
        have := congrArg List.length habove
        rw [List.length_drop, List.length_append] at this
        have := hlog.cut
        omega
      have htake : t.log.take (t.cut + (walOf f).length) = t.log.take t.cut ++ walOf f := by
        rw [List.take_add, habove, List.take_left]
      have hendSeq : j.endSeq = t.base + frameCount (t.log.take (t.cut + (walOf f).length)) := by
        rw [hend, hlog.covered, htake, frameCount_append, Nat.add_assoc]
      have hcut : (batchesOf ps).length ≤ t.cut + (walOf f).length := by
        refine @take_le_of_frameCount_le t.log _ _ ?_ ?_
        · rw [hlogEq, List.length_append]
          omega
        · rw [hendSeq] at hle
          have hpre : t.log.take (batchesOf ps).length = batchesOf ps := by rw [hlogEq, List.take_left]
          rw [hpre]
          omega
      have hbehind : (t.behind f fs ps qs).log = batchesOf (qs ++ [t.part]) := rfl
      have hland : s.land.chain = s.chain.retire j.wals ∧ s.land.sealing = js ∧
          s.land.covered = j.endSeq ∧ s.land.closedWals = s.closedWals := by
        rw [Store.land, hsealing]
        exact ⟨rfl, rfl, rfl, rfl⟩
      obtain ⟨hland1, hland2, hland3, hland4⟩ := hland
      refine ⟨f, fs, ps, qs, rfl, hholds, ⟨?_, ?_, ?_, ?_, ?_, ?_, ?_⟩, ?_⟩
      · rw [hland1]
        exact hok
      · rw [hland1, hids]
        refine hlog.ids.sublist ?_
        rw [hwals]
        exact List.Sublist.append_right (List.sublist_append_right _ _) _
      · rw [hland1, hland2, hland4, hids]
      · rw [hbehind]
        have := congrArg List.length hlogEq
        rw [List.length_append] at this
        show t.cut + (walOf f).length - (batchesOf ps).length ≤ _
        omega
      · rw [hland3, hendSeq, hbehind, hlogEq, List.take_append, List.take_of_length_le hcut,
          frameCount_append, ← Nat.add_assoc]
        rfl
      · show (batchesOf (qs ++ [t.part])).drop (t.cut + (walOf f).length - (batchesOf ps).length)
          = walOf (fs.flatten ++ t.live)
        have hdrop : t.log.drop (t.cut + (walOf f).length) = walOf (fs.flatten ++ t.live) := by
          rw [← List.drop_drop, habove, List.drop_left]
        rw [hlogEq, List.drop_append, List.drop_of_length_le hcut, List.nil_append] at hdrop
        exact hdrop
      · rw [hland2, hland3]
        exact hrest
      · rw [durable, durable, hland1, hparts]
        show _ ≤ (walOf f).length + (durCount (s.chain.retire j.wals).files (qs ++ [t.part])
          - (t.cut + (walOf f).length - (batchesOf ps).length))
        omega

/-- The temp files behind a landing. -/
lemma land_tmps {s : Store} {staged : List WalRecord} (hr : RunsOk s t) (hl : LiveOk s staged t)
    (hsealing : s.sealing = j :: js) :
    ∃ rest, s.tmps = s.sealing.filterMap InFlight.file ++ rest ∧
      s.land.tmps = js.filterMap InFlight.file ++ rest ∧
      rest ++ (s.direct.map Direct.file).toList = t.run.toList := by
  obtain ⟨rest, htmps, hrest⟩ := tmps_eq hr hl
  refine ⟨rest, htmps, ?_, hrest⟩
  rw [Store.land, hsealing]
  rw [hsealing] at htmps
  cases hfile : j.file with
  | none =>
      rw [List.filterMap_cons_none hfile] at htmps
      simp only [hfile]
      exact htmps
  | some r =>
      rw [List.filterMap_cons_some hfile, List.cons_append] at htmps
      have hids := hr.ids
      rw [Store.runs, htmps, List.cons_append, List.map_cons, List.pairwise_cons] at hids
      simp only [hfile, htmps]
      rw [List.filter_cons_of_neg (by simp), List.filter_eq_self]
      intro r' hr'
      have := hids.1 r'.id (List.mem_map_of_mem (List.mem_append_left _ hr'))
      simp only [ne_eq, decide_eq_true_eq]
      omega

/-- **The runs' files behind a landing.** -/
lemma land_runs {s : Store} {staged : List WalRecord} (hr : RunsOk s t) (hl : LiveOk s staged t)
    (hsealing : s.sealing = j :: js) (f : List Logged) (fs : List (List Logged))
    (ps qs : List Part) : RunsOk s.land (t.behind f fs ps qs) ∧ s.land.runs.Sublist s.runs ∧
      s.runs = j.file.toList ++ s.land.runs := by
  obtain ⟨rest, htmps, htmps', hrest⟩ := land_tmps hr hl hsealing
  have hland : s.land.direct = s.direct ∧ s.land.sealing = js ∧ s.land.nextSeg = s.nextSeg ∧
      s.land.opts = s.opts := by
    rw [Store.land, hsealing]
    exact ⟨rfl, rfl, rfl, rfl⟩
  obtain ⟨hland1, hland2, hland3, hland4⟩ := hland
  have hruns' : s.land.runs = js.filterMap InFlight.file ++ t.run.toList := by
    rw [Store.runs, htmps', hland1, List.append_assoc, hrest]
  have hruns : s.runs = j.file.toList ++ s.land.runs := by
    rw [hr.runs, hruns', hsealing, ← List.append_assoc]
    cases hfile : j.file with
    | none => rw [List.filterMap_cons_none hfile]; rfl
    | some r => rw [List.filterMap_cons_some hfile]; rfl
  have hsub : s.land.runs.Sublist s.runs := by
    rw [hruns]
    exact List.sublist_append_right _ _
  refine ⟨⟨?_, ?_, ?_, ?_, ?_, hr.live⟩, hsub, hruns⟩
  · rw [hruns', hland2]
    rfl
  · exact hr.ids.sublist (hsub.map _)
  · rw [hland3]
    exact fun r hr' => hr.next r (hsub.mem hr')
  · rw [hland4]
    exact fun r hr' => hr.files r (hsub.mem hr')
  · exact fun r hr' => hr.sorted r (hsub.mem hr')

/-- **The live table behind a landing.** -/
lemma land_live {s : Store} {staged : List WalRecord} (hl : LiveOk s staged t)
    (hsealing : s.sealing = j :: js) (f : List Logged) (fs : List (List Logged))
    (ps qs : List Part) : LiveOk s.land staged (t.behind f fs ps qs) := by
  have hland : s.land.direct = s.direct ∧ s.land.sealing = js ∧ s.land.pending = s.pending ∧
      s.land.handed = s.handed ∧ s.land.opts = s.opts ∧
      s.land.mem = if s.handed ∧ js = [] then .fresh else s.mem := by
    rw [Store.land, hsealing]
    exact ⟨rfl, rfl, rfl, rfl, rfl, rfl⟩
  obtain ⟨hland1, hland2, hland3, hland4, hland5, hland6⟩ := hland
  have hmemEq : s.handed = false → s.land.mem = s.mem := by
    intro hhanded
    rw [hland6, if_neg (by simp [hhanded])]
  cases hl with
  | hashed hmem hhanded hdirect hpending hrun =>
      exact .hashed ((hmemEq hhanded).trans hmem) (hland4.trans hhanded) (hland1.trans hdirect)
        (hland3.trans hpending) hrun
  | ordered tail hmem hhanded hdirect hcommitted hpending hlive hstaged hcarried =>
      refine .ordered tail ((hmemEq hhanded).trans hmem) (hland4.trans hhanded) (by rw [hland1]; exact hdirect)
        ?_ (hland3.trans hpending) hlive hstaged (by rw [hland5]; exact hcarried)
      rw [Store.committed, hland1]
      exact hcommitted
  | handed hhanded hdirect hpending hrun hlive hstaged hmem =>
      refine .handed (hland4.trans hhanded) (hland1.trans hdirect) (hland3.trans hpending) hrun hlive hstaged ?_
      rw [hland6, hland2]
      cases js with
      | nil => simp [hhanded]
      | cons i js => simpa [hsealing] using hmem
  | stranded r hmem hhanded hdirect hrun hlive =>
      refine .stranded r ?_ (hland4.trans hhanded) (hland1.trans hdirect) hrun hlive
      rw [hmemEq hhanded]
      exact hmem

/-- A landing leaves a stranded run so, and makes none. -/
lemma land_stranded {s : Store} {staged : List WalRecord} (hr : RunsOk s t)
    (hl : LiveOk s staged t) : s.land.Stranded ↔ s.Stranded := by
  cases hsealing : s.sealing with
  | nil => rw [Store.land, hsealing]
  | cons j js =>
      obtain ⟨rest, htmps, htmps', -⟩ := land_tmps hr hl hsealing
      have hland : s.land.sealing = js := by rw [Store.land, hsealing]
      rw [Store.Stranded, Store.Stranded, htmps, htmps', hland, List.length_append, List.length_append]
      omega

/-- **The keys behind a landing.** -/
lemma land_keys {s : Store} {staged : List WalRecord} (hk : KeysOk s staged t)
    (hstranded : s.land.Stranded ↔ s.Stranded) (hsealing : s.sealing = j :: js) {f : List Logged}
    {fs : List (List Logged)} (hfrozen : t.frozen = f :: fs) (ps qs : List Part) :
    KeysOk s.land staged (t.behind f fs ps qs) := by
  have hland : s.land.maxKey = s.maxKey ∧ s.land.handed = s.handed ∧
      s.land.mem = if s.handed ∧ js = [] then .fresh else s.mem := by
    rw [Store.land, hsealing]
    exact ⟨rfl, rfl, rfl⟩
  obtain ⟨hland1, hland2, hland3⟩ := hland
  have hhist : t.hist = f ++ (t.behind f fs ps qs).hist := by
    rw [Trail.hist, hfrozen, List.flatten_cons, List.append_assoc]
    rfl
  refine ⟨?_, ?_, ?_, ?_, ?_⟩
  · rw [hland3]
    split_ifs
    · exact List.Pairwise.nil
    · exact hk.sorted
  · intro b hb
    rw [hland1]
    refine hk.raised b ?_
    rw [Trail.batches, hhist, List.map_append, ← List.append_assoc]
    exact hb
  · rw [hland1]
    exact hk.raisedStaged
  · have := hk.apart
    rw [hhist] at this
    exact (List.pairwise_append.mp this).2.1
  · intro hhanded hno a ha hnone
    have hhanded' : s.handed = false := hland2 ▸ hhanded
    rw [hland3, if_neg (by simp [hhanded'])]
    refine hk.apartLive hhanded' (hstranded.not.mp hno) a ?_ hnone
    rw [hfrozen, List.flatten_cons]
    exact List.mem_append_right _ ha

/-- What a landing leaves durable: of the WAL what it had beyond the batches landed, and the other
runs. -/
lemma land_durable {s : Store} {f : List Logged} (hholds : j.Holds f)
    (hruns : s.runs = j.file.toList ++ s.land.runs) {fs : List (List Logged)} {ps qs : List Part}
    (id : ℕ) :
    durable s t (some id) ≤ countIn (some id) f + durable s.land (t.behind f fs ps qs)
    (some id) := by
  rw [durable, durable, runDurable, runDurable, hruns, List.find?_append]
  cases hfile : j.file with
  | none => simp
  | some r =>
      by_cases hid : r.id = id
      · have hfull : r.durable ≤ countIn (some id) f := by
          rw [InFlight.Holds, hfile] at hholds
          have hcount : countIn (some id) f = r.batches.length := by
            rw [hholds.1, countIn, RunFile.logged, List.countP_map, List.countP_eq_length.mpr]
            intro b hb
            simp [hid]
          rw [hcount]
          exact r.whole_le _
        simp [hid]
        omega
      · simp [hid]

/-- **A landing** keeps the store what its trail says, moves the oldest seal's batches to the
segments, and leaves what is durable of the others so. -/
lemma land_inv {s : Store} {staged : List WalRecord} (hinv : s.Inv staged t) :
    ∃ t', s.land.Inv staged t' ∧ Evolves s t none s.land t' := by
  cases hsealing : s.sealing with
  | nil =>
      have hland : s.land = s := by rw [Store.land, hsealing]
      rw [hland]
      exact ⟨t, hinv, Evolves.refl rfl rfl rfl rfl rfl rfl rfl⟩
  | cons j js =>
      obtain ⟨f, fs, ps, qs, hfrozen, hholds, hlog, hdurable⟩ := land_log hinv.log hsealing
      obtain ⟨hruns, hsub, hrunsEq⟩ := land_runs hinv.runs hinv.live hsealing f fs ps qs
      have hhist : t.hist = f ++ (t.behind f fs ps qs).hist := by
        rw [Trail.hist, hfrozen, List.flatten_cons, List.append_assoc]
        rfl
      have hsegments : s.land.segments = s.segments ++ [Store.segmentOf j] := by rw [Store.land, hsealing]
      refine ⟨t.behind f fs ps qs, ⟨?_, ?_, hlog, hruns, land_live hinv.live hsealing f fs ps qs,
        land_keys hinv.keys (land_stranded hinv.runs hinv.live) hsealing hfrozen ps qs⟩, f, ?_, rfl, ?_⟩
      · exact fun e he => hinv.nonempty e (hhist ▸ List.mem_append_right _ he)
      · intro k
        have hsorted : ∀ r, j.file = some r → (r.batches.flatten.map Prod.fst).Pairwise (· < ·) := by
          intro r hfile
          refine hinv.runs.sorted r ?_
          rw [hrunsEq, hfile]
          exact List.mem_cons_self ..
        show _ = recordsDelta (t.landed ++ f.map Prod.snd).flatten k
        rw [hsegments, List.map_append, List.prod_append, hinv.segments, List.map_singleton,
          List.prod_singleton, deltaIn_segmentOf hholds hsorted, List.flatten_append, recordsDelta_append]
      · simpa using hhist
      · intro l
        cases l with
        | none =>
            rw [countIn_none]
            exact hdurable
        | some id => exact land_durable hholds hrunsEq id

/-- The rest of a call finds what it needs behind a landing. -/
lemma land_fits {s : Store} {staged : List WalRecord} (hr : RunsOk s t) (hl : LiveOk s staged t)
    {clean : Prop} {todo : List Instr} (h : Fits s clean todo) : Fits s.land clean todo := by
  refine h.congr ?_ (land_stranded hr hl) ?_ ?_
  · rw [Store.land]
    cases s.sealing <;> rfl
  · rw [Store.land]
    cases s.sealing <;> rfl
  · intro hhanded
    rw [Store.land]
    cases s.sealing <;> simp [hhanded]

end Land

end Supdb
