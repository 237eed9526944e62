import Supdb.ManifestPublish

/-!
# Landing seals

A frozen table is written out by a seal's thread, which names the segments as soon as they can be
read and goes on to sync them.  The segment work lands the seals in the order they were handed, each
in two phases: **readable**, the segments published to readers and their sequence covered, and
**durable**, once the thread has returned, the manifest written and the log files under it removed.
Under the *pending* shape the manifest is written at the first phase, the segments' names flagged,
and the log files wait for the next.  Merges, piece merges and promotions land between, and a drain
may leave a slot's sync owed.

* `Landing` – the segment work's state and the store's slots; `Landing.step` – every way it moves,
  with every place a step may fail.
* `LandingEvent.Good` – what a manifest written, and a log file removed, have to answer for.
* `landing_durable` – in every run whose seals sync once their segments are live, every event is
  good.
* `landing_pending_early` – under the pending shape the first landing behind an open removes log
  files whose records only its own segments hold, before those are synced.
-/

namespace Supdb

open StorageLib

/-! ## The segment work's state -/

/-- A table handed to a seal: the segments its seal writes, and the sequence it ends at. -/
structure SealedTable where
  segs : List ℕ
  endSeq : ℕ

/-- A closed log file, and the sequence its records end at. -/
structure ClosedWal where
  id : ℕ
  last : ℕ

/-- A seal in flight: its table, the log files its landing retires, whether its segments are
published, and whether a frame had no sync when it was handed. -/
structure SealJob where
  table : SealedTable
  wals : List ClosedWal
  landed : Bool
  walUnsynced : Bool

/-- What a manifest says: the sequence it covers, the segments it names and those it flags pending.
-/
structure Naming where
  covered : ℕ
  names : List ℕ
  pending : List ℕ

/-- What an observer of the directory sees: a manifest written, with the segments synced, the tables
handed and the segments merges have replaced by then; and a log file removed, over the slots and the
segments synced as they were. -/
inductive LandingEvent where
  | wrote (m : Naming) (synced : List ℕ) (tables : List SealedTable) (replaced : List ℕ)
  | removed (wal : ClosedWal) (disk : Bool → Option (Naming × Bool)) (synced : List ℕ)

/-- A manifest names without a flag only segments that are synced, and covers no table but by its
segments, or what merges made of them.  A log file goes only behind a manifest that is durable,
covers its records and names only durable segments. -/
def LandingEvent.Good : LandingEvent → Prop
  | .wrote m synced tables replaced =>
      (∀ n ∈ m.names, n ∉ m.pending → n ∈ synced) ∧
        ∀ t ∈ tables, t.endSeq < m.covered → ∀ n ∈ t.segs, n ∈ m.names ∨ n ∈ replaced
  | .removed wal disk synced =>
      ∃ s m, disk s = some (m, true) ∧ wal.last ≤ m.covered ∧ ∀ n ∈ m.names, n ∈ synced

/-- `Maint`: its options, the seals in flight, the live set and the sequence it covers, the names
the newest slot flags, the log files to remove, the slot owed a sync and whether a landing failed;
with it the slots, each with what it holds and whether that is synced, and what has happened. -/
structure Landing where
  slots : Bool
  manifestPending : Bool
  flushWaits : Bool
  sealing : List SealJob
  live : List ℕ
  covered : ℕ
  pending : List ℕ
  retiring : List ClosedWal
  due : Option Bool
  wedged : Bool
  seq : ℕ
  disk : Bool → Option (Naming × Bool)
  synced : List ℕ
  replaced : List ℕ
  tables : List SealedTable
  log : List LandingEvent

/-- Where a manifest's write fails, if it does. -/
inductive PublishFate where
  | done
  | writeFails
  | syncFails
  deriving DecidableEq

/-- Where a readable landing fails, if it does: before its segments are live, the pending slot
written or not, or at the sync behind. -/
inductive ReadableFate where
  | done
  | early (wrote : Bool)
  | late

/-- What may happen: a table handed; the front seal landed readable, or whole with its thread
joined; a merge, a piece merge or a promotion landed; a slot owed its sync synced; and the store
closed. -/
inductive LandingOp where
  | hand (table : SealedTable) (wals : List ClosedWal) (walUnsynced : Bool)
  | landFrontReadable (fate : ReadableFate) (threadOk : Bool)
  | landFront (draining : Bool) (threadOk : Bool) (fate : ReadableFate) (publish : PublishFate)
  | rewrite (ins outs : List ℕ) (publish : PublishFate)
  | syncOwed (ok : Bool)
  | stop (threadsOk : List Bool) (publish : PublishFate) (ok : Bool)

namespace Landing

/-- `Maint::pending_on`. -/
def pendingOn (h : Landing) : Bool := h.manifestPending && h.slots

/-- A store just opened: the manifest it found, in the slot of its sequence, its segments live, and
the older log files, which the next landing is to remove. -/
def opened (slots manifestPending flushWaits : Bool) (seq covered : ℕ) (names : List ℕ)
    (retiring : List ClosedWal) : Landing :=
  { slots := slots, manifestPending := manifestPending, flushWaits := flushWaits, sealing := [],
    live := names, covered := covered, pending := [], retiring := retiring, due := none,
    wedged := false, seq := seq,
    disk := fun s => if s = (slots && manifestSlot seq) then some (⟨covered, names, []⟩, true)
    else none, synced := names, replaced := [], tables := [], log := [] }

/-- `seal_between_phases`. -/
def betweenPhases (h : Landing) : Bool := h.sealing.head?.any SealJob.landed

/-- A manifest goes to a slot. -/
def put (h : Landing) (s : Bool) (m : Naming) (content : Option (Naming × Bool)) : Landing :=
  { h with seq := h.seq + 1, disk := Function.update h.disk s content,
           log := h.log ++ [.wrote m h.synced h.tables h.replaced] }

/-- What the live set's manifest says. -/
def naming (h : Landing) : Naming := ⟨h.covered, h.live, []⟩

/-- A slot's sync. -/
def syncSlot (h : Landing) (s : Bool) : Landing :=
  { h with disk := Function.update h.disk s ((h.disk s).map (fun p => (p.1, true))) }

/-- `Maint::retire_covered`. -/
def retireCovered (h : Landing) : Landing :=
  { h with retiring := [], log := h.log ++ h.retiring.map (.removed · h.disk h.synced) }

/-- `Maint::publish`, and whether it succeeded. -/
def publish (h : Landing) (fate : PublishFate) : Landing × Bool :=
  let s := h.slots && manifestSlot (h.seq + 1)
  match fate with
  | .writeFails => (h.put s h.naming (if h.slots then none else h.disk s), false)
  | .syncFails => (h.put s h.naming (some (h.naming, false)), false)
  | .done =>
      let h₁ := h.put s h.naming (some (h.naming, true))
      if h.slots then
        let h₂ := { h₁ with due := none }
        (if h.pending ≠ [] ∨ h.due.isSome then { h₂ with pending := [] }.retireCovered else h₂, true)
      else (h₁, true)

/-- A slot written and its sync owed. -/
def putOwed (h : Landing) : Landing :=
  { h.put (manifestSlot (h.seq + 1)) h.naming (some (h.naming, false)) with
    due := some (manifestSlot (h.seq + 1)) }

/-- `Maint::publish_unsynced`. -/
def publishUnsynced (h : Landing) : PublishFate → Landing × Bool
  | .writeFails => (h.put (manifestSlot (h.seq + 1)) h.naming none, false)
  | _ => (h.putOwed, true)

/-- `Maint::sync_owed_slot`. -/
def syncOwedSlot (h : Landing) (ok : Bool) : Landing :=
  match h.due with
  | none => h
  | some s =>
      let h₁ := { h with due := none }
      if ok then (h₁.syncSlot s).retireCovered else h₁

/-- A seal's segments published to readers, and their sequence covered. -/
def goLive (h : Landing) (t : SealedTable) : Landing :=
  { h with live := h.live ++ t.segs, covered := t.segs.foldl (fun c _ => max c t.endSeq) h.covered }

/-- What a pending publish says: the live set, and the seal's segments flagged. -/
def namingPending (h : Landing) (t : SealedTable) : Naming :=
  ⟨t.segs.foldl (fun c _ => max c t.endSeq) h.covered, h.live ++ t.segs, t.segs⟩

/-- `Maint::land_readable`, and whether it succeeded. -/
def landReadable (h : Landing) (t : SealedTable) (fate : ReadableFate) : Landing × Bool :=
  let pend := h.pendingOn && !t.segs.isEmpty
  let s := manifestSlot (h.seq + 1)
  let h₁ := if pend then h.put s (h.namingPending t) (some (h.namingPending t, false)) else h
  match fate with
  | .early wrote => (if wrote then h₁ else h, false)
  | .late => (h₁.goLive t, false)
  | .done =>
      (if pend then ({ (h₁.goLive t).syncSlot s with pending := t.segs }).retireCovered
        else h₁.goLive t, true)

/-- `Maint::land_durable`. -/
def landDurable (h : Landing) (wals : List ClosedWal) (defer : Bool) (fate : PublishFate) :
    Landing :=
  let (h₁, ok) := if h.pendingOn && !h.pending.isEmpty then (h, true)
    else if defer && h.slots then h.publishUnsynced fate else h.publish fate
  if ok then
    let h₂ := { h₁ with retiring := h₁.retiring ++ wals }
    if (!h₂.pendingOn || h₂.pending.isEmpty) && h₂.due.isNone then h₂.retireCovered else h₂
  else h₁

/-- A seal's thread joined: its segments are synced, or not. -/
def joined (h : Landing) (t : SealedTable) (threadOk : Bool) : Landing :=
  if threadOk then { h with synced := h.synced ++ t.segs } else h

/-- `Maint::land_front_readable`. -/
def landFrontReadable (h : Landing) (fate : ReadableFate) (threadOk : Bool) : Landing :=
  match h.sealing with
  | [] => h
  | j :: rest =>
      if j.landed || h.wedged then h
      else
        let (h₁, ok) := h.landReadable j.table fate
        if ok then { h₁ with sealing := { j with landed := true } :: rest }
        else { h₁.joined j.table threadOk with sealing := rest, wedged := true }

/-- `Maint::land_front`. -/
def landFront (h : Landing) (draining threadOk : Bool) (fate : ReadableFate) (pub : PublishFate) :
    Landing :=
  match h.sealing with
  | [] => h
  | j :: rest =>
      if h.wedged then h
      else
        let h₀ := { h with sealing := rest }.joined j.table threadOk
        if !threadOk then { h₀ with wedged := h₀.wedged || !j.landed }
        else
          let (h₁, ok) := if j.landed then (h₀, true) else h₀.landReadable j.table fate
          if ok then
            h₁.landDurable j.wals (draining && !h.flushWaits && !h.pendingOn && !j.walUnsynced) pub
          else { h₁ with wedged := true }

/-- `Maint::join_merge`, `Maint::join_tier` and `Maint::apply_promotion`: outputs the job has synced
in for its inputs, and the manifest.  Held while a seal is between its phases. -/
def rewrite (h : Landing) (ins outs : List ℕ) (fate : PublishFate) : Landing :=
  if h.betweenPhases then h
  else
    ({ h with live := h.live.filter (· ∉ ins) ++ outs, synced := h.synced ++ outs,
              replaced := h.replaced ++ h.live.filter (· ∈ ins) }.publish fate).1

/-- `Maint::stop`: every thread joined and nothing landed, then or later; a slot that flags names
rewritten. -/
def stop (h : Landing) (threadsOk : List Bool) (fate : PublishFate) (ok : Bool) : Landing :=
  let segs := (h.sealing.zip threadsOk).flatMap (fun r => if r.2 then r.1.table.segs else [])
  let h₁ := { h with synced := h.synced ++ segs, sealing := [], wedged := true }
  let h₂ := if h₁.pendingOn && !h₁.pending.isEmpty then (h₁.publish fate).1 else h₁
  h₂.syncOwedSlot ok

/-- A table handed, a landing or a part of one, a rewrite or a stop. -/
def step (h : Landing) : LandingOp → Landing
  | .hand table wals walUnsynced =>
      { h with sealing := h.sealing ++ [⟨table, wals, false, walUnsynced⟩],
               tables := h.tables ++ [table] }
  | .landFrontReadable fate threadOk => h.landFrontReadable fate threadOk
  | .landFront draining threadOk fate pub => h.landFront draining threadOk fate pub
  | .rewrite ins outs fate => h.rewrite ins outs fate
  | .syncOwed ok => h.syncOwedSlot ok
  | .stop threadsOk fate ok => h.stop threadsOk fate ok

/-- Tables handed and landed in any order, whatever fails. -/
def run (h : Landing) (ops : List LandingOp) : Landing := ops.foldl step h

end Landing

/-! ## What a run relies on -/

/-- What the segment work can rely on.  A table handed has a record, so a segment, and ends behind
the tables and the log files before it.  The thread of a seal whose segments are live syncs them.
And a publish does not fail under the pending shape or with a slot's sync owed. -/
def LandingOp.Meets (h : Landing) : LandingOp → Prop
  | .hand t wals _ => t.segs ≠ [] ∧ h.covered ≤ t.endSeq ∧
      (∀ j ∈ h.sealing, j.table.endSeq ≤ t.endSeq) ∧ (∀ w ∈ wals, w.last ≤ t.endSeq) ∧
      (∀ w ∈ h.retiring, w.last ≤ t.endSeq) ∧ ∀ n ∈ t.segs, n ∉ h.live ∧ n ∉ h.replaced
  | .landFrontReadable fate threadOk => fate = .late → threadOk = true
  | .landFront _ threadOk _ pub => (h.betweenPhases = true → threadOk = true) ∧
      (h.pendingOn = true ∨ h.due.isSome = true → pub = .done)
  | .rewrite _ _ pub => h.pendingOn = true ∧ h.wedged = false ∨ h.due.isSome = true → pub = .done
  | .syncOwed _ => True
  | .stop threadsOk _ _ => h.betweenPhases = true → threadsOk.head? = some true

/-- Every step of a run finds what it relies on. -/
def LandingsMeet : Landing → List LandingOp → Prop
  | _, [] => True
  | h, op :: ops => op.Meets h ∧ LandingsMeet (h.step op) ops

namespace Landing

/-- A segment of the seal between its phases. -/
def FrontSeg (h : Landing) (n : ℕ) : Prop :=
  ∃ j ∈ h.sealing.head?, j.landed = true ∧ n ∈ j.table.segs

/-- The live set and the queue: what is live is synced but for the seal between its phases; the
queue is in order, and what the store covers lies between what has landed and what has not; and a
table that is not live waits in the queue, or the queue has stopped. -/
structure Core (h : Landing) : Prop where
  live : ∀ n ∈ h.live, n ∈ h.synced ∨ h.FrontSeg n
  waiting : ∀ j ∈ h.sealing.tail, j.landed = false
  sorted : h.sealing.Pairwise (fun a b => a.table.endSeq ≤ b.table.endSeq)
  ahead : ∀ j ∈ h.sealing, j.landed = false → h.covered ≤ j.table.endSeq
  behind : ∀ j ∈ h.sealing, j.landed = true → j.table.endSeq ≤ h.covered
  segs : ∀ j ∈ h.sealing, j.table.segs ≠ []
  wals : ∀ j ∈ h.sealing, ∀ w ∈ j.wals, w.last ≤ j.table.endSeq
  tables : ∀ t ∈ h.tables, (∀ n ∈ t.segs, n ∈ h.live ∨ n ∈ h.replaced) ∨
    (h.covered ≤ t.endSeq ∧ (h.wedged = true ∨ ∃ j ∈ h.sealing, j.landed = false ∧ j.table = t))

/-- The slots and the log files: a file to remove is covered, or waits for the first landing; under
the pending shape the newest slot is synced and covers what the store does; and so will a slot owed
its sync once it has it. -/
structure Slots (h : Landing) : Prop where
  retiring : ∀ w ∈ h.retiring, w.last ≤ h.covered ∨ (h.pendingOn = false ∧ h.due = none ∧
    ∀ j ∈ h.sealing, j.landed = false ∧ w.last ≤ j.table.endSeq)
  newest : h.pendingOn = true → h.wedged = false →
    ∃ m, h.disk (manifestSlot h.seq) = some (m, true) ∧
    m.covered = h.covered ∧ ∀ n ∈ m.names, n ∈ h.synced ∨ h.FrontSeg n
  due : ∀ s, h.due = some s → h.slots = true ∧ h.pendingOn = false ∧ ∃ m b, h.disk s = some (m, b) ∧
    (∀ n ∈ m.names, n ∈ h.synced) ∧ ∀ w ∈ h.retiring, w.last ≤ m.covered
  unflagged : h.pendingOn = false → h.pending = []
  logged : ∀ e ∈ h.log, e.Good

/-- A manifest on the device that a log file may go behind. -/
def Covers (h : Landing) (bound : ℕ) : Prop :=
  ∃ s m, h.disk s = some (m, true) ∧ bound ≤ m.covered ∧ ∀ n ∈ m.names, n ∈ h.synced

variable {h h' : Landing}

lemma Core.congr (hc : h.Core) (h₁ : h'.sealing = h.sealing) (h₂ : h'.live = h.live)
    (h₃ : h'.covered = h.covered) (h₄ : h'.synced = h.synced) (h₅ : h'.replaced = h.replaced)
    (h₆ : h'.tables = h.tables) (h₇ : h'.wedged = h.wedged) : h'.Core := by
  obtain ⟨hlive, hwait, hsort, hahead, hbehind, hsegs, hwals, htables⟩ := hc
  refine ⟨?_, ?_, ?_, ?_, ?_, ?_, ?_, ?_⟩ <;> simp only [FrontSeg, h₁, h₂, h₃, h₄, h₅, h₆, h₇] <;>
    assumption

lemma goLive_covered {t : SealedTable} (hne : t.segs ≠ []) :
    (h.goLive t).covered = max h.covered t.endSeq := by
  have hfold : ∀ (l : List ℕ) (c : ℕ), l ≠ [] →
      l.foldl (fun c _ => max c t.endSeq) c = max c t.endSeq := by
    intro l
    induction l with
    | nil => exact fun _ hf => absurd rfl hf
    | cons x l ih =>
        intro c _
        cases l with
        | nil => rfl
        | cons y l => rw [List.foldl_cons, ih _ (by simp), max_assoc, max_self]
  exact hfold t.segs h.covered hne

/-- Log files removed behind a manifest that covers them. -/
lemma removed_good (hlog : ∀ e ∈ h.log, e.Good) (hcov : ∀ w ∈ h.retiring, h.Covers w.last) :
    ∀ e ∈ h.retireCovered.log, e.Good := by
  intro e he
  rcases List.mem_append.mp he with he | he
  · exact hlog e he
  · obtain ⟨w, hw, rfl⟩ := List.mem_map.mp he
    exact hcov w hw

/-- **What a manifest of the live set says** is so, with no seal between its phases. -/
lemma Core.naming_good (hc : h.Core) (hsync : ∀ n ∈ h.live, n ∈ h.synced) :
    (LandingEvent.wrote h.naming h.synced h.tables h.replaced).Good := by
  refine ⟨fun n hn _ => hsync n hn, fun t ht hlt n hn => ?_⟩
  rcases hc.tables t ht with hnamed | ⟨hle, -⟩
  · exact hnamed n hn
  · exact absurd hlt (not_lt.mpr hle)

/-- **What a pending manifest says** is so: the front seal's segments are flagged, and no table
behind it is covered. -/
lemma namingPending_good (hsync : ∀ n ∈ h.live, n ∈ h.synced) {t : SealedTable}
    (hne : t.segs ≠ []) (hfirst : ∀ t' ∈ h.tables, (∀ n ∈ t'.segs, n ∈ h.live ∨ n ∈ h.replaced) ∨
      t' = t ∨ (h.covered ≤ t'.endSeq ∧ t.endSeq ≤ t'.endSeq)) :
    (LandingEvent.wrote (h.namingPending t) h.synced h.tables h.replaced).Good := by
  refine ⟨fun n hn hnot => ?_, fun t' ht' hlt n hn => ?_⟩
  · rcases List.mem_append.mp hn with hn | hn
    · exact hsync n hn
    · exact absurd hn hnot
  · have hcov : (h.namingPending t).covered = max h.covered t.endSeq := goLive_covered hne
    rcases hfirst t' ht' with hnamed | rfl | ⟨hle, hle'⟩
    · exact (hnamed n hn).imp (List.mem_append_left _) id
    · exact Or.inl (List.mem_append_right _ hn)
    · rw [hcov] at hlt
      exact absurd hlt (not_lt.mpr (max_le hle hle'))

/-- A file to remove is covered where something has landed under the pending shape or with its sync
owed. -/
lemma Slots.covered_of (hs : h.Slots) (hor : h.pendingOn = true ∨ h.due.isSome = true) :
    ∀ w ∈ h.retiring, w.last ≤ h.covered := by
  intro w hw
  rcases hs.retiring w hw with hle | ⟨hoff, hnone, -⟩
  · exact hle
  · rcases hor with hon | hsome
    · exact absurd (hoff.symm.trans hon) (by decide)
    · exact absurd hsome (by simp [hnone])

lemma slots_of_pendingOn (hon : h.pendingOn = true) : h.slots = true :=
  (Bool.and_eq_true_iff.mp hon).2

/-- A manifest of the live set put in a slot, in doubt or not. -/
lemma put_logged (hc : h.Core) (hs : h.Slots) (hsync : ∀ n ∈ h.live, n ∈ h.synced) (s : Bool)
    (content : Option (Naming × Bool)) : ∀ e ∈ (h.put s h.naming content).log, e.Good := by
  intro e he
  rcases List.mem_append.mp he with he | he
  · exact hs.logged e he
  · rw [List.mem_singleton.mp he]
    exact hc.naming_good hsync

/-- A publish that failed. -/
lemma put_failed (hc : h.Core) (hs : h.Slots) (hsync : ∀ n ∈ h.live, n ∈ h.synced)
    (hdue : h.due = none) (hoff : h.pendingOn = true → h.wedged = true) (s : Bool)
    (content : Option (Naming × Bool)) :
    (h.put s h.naming content).Core ∧ (h.put s h.naming content).Slots := by
  refine ⟨hc.congr rfl rfl rfl rfl rfl rfl rfl, hs.retiring, ?_, ?_, hs.unflagged,
    put_logged hc hs hsync s content⟩
  · intro hon hwedged
    exact absurd ((hoff hon).symm.trans hwedged) (by decide)
  · intro s' hs'
    exact absurd (hdue.symm.trans hs') (by simp)

/-- **A publish** with no seal between its phases leaves the store in order, and where it succeeds a
manifest of the live set durable. -/
lemma publish_ok (hc : h.Core) (hs : h.Slots) (hsync : ∀ n ∈ h.live, n ∈ h.synced)
    {fate : PublishFate}
    (hfate : h.pendingOn = true ∧ h.wedged = false ∨ h.due.isSome = true → fate = .done) :
    (h.publish fate).1.Core ∧ (h.publish fate).1.Slots ∧
      (∀ w ∈ (h.publish fate).1.retiring, w ∈ h.retiring) ∧
      ((h.publish fate).2 = true → (h.publish fate).1.due = none ∧ (h.publish fate).1.pending = [] ∧
        (h.publish fate).1.Covers h.covered) := by
  have hfailed : fate ≠ .done → h.due = none ∧ (h.pendingOn = true → h.wedged = true) := by
    intro hne
    refine ⟨?_, fun hon => ?_⟩
    · cases hd : h.due with
      | none => rfl
      | some s => exact absurd (hfate (Or.inr (by rw [hd]; rfl))) hne
    · cases hw : h.wedged with
      | false => exact absurd (hfate (Or.inl ⟨hon, hw⟩)) hne
      | true => rfl
  cases fate with
  | writeFails =>
      obtain ⟨hdue, hoff⟩ := hfailed (by decide)
      obtain ⟨hc', hs'⟩ := put_failed hc hs hsync hdue hoff (h.slots && manifestSlot (h.seq + 1))
        (if h.slots then none else h.disk (h.slots && manifestSlot (h.seq + 1)))
      exact ⟨hc', hs', fun _ => id, fun hf => absurd hf (by simp [publish])⟩
  | syncFails =>
      obtain ⟨hdue, hoff⟩ := hfailed (by decide)
      obtain ⟨hc', hs'⟩ := put_failed hc hs hsync hdue hoff (h.slots && manifestSlot (h.seq + 1))
        (some (h.naming, false))
      exact ⟨hc', hs', fun _ => id, fun hf => absurd hf (by simp [publish])⟩
  | done =>
      set s := h.slots && manifestSlot (h.seq + 1) with hslot
      have hlog := put_logged hc hs hsync s (some (h.naming, true))
      have hdisk : (h.put s h.naming (some (h.naming, true))).disk s = some (h.naming, true) :=
        Function.update_self _ _ _
      have hnew : h.pendingOn = true →
          (h.put s h.naming (some (h.naming, true))).disk (manifestSlot (h.seq + 1))
            = some (h.naming, true) := by
        intro hon
        rw [hslot, slots_of_pendingOn hon, Bool.true_and] at hdisk ⊢
        exact hdisk
      cases hslots : h.slots with
      | false =>
          have hoff : h.pendingOn = false := by rw [pendingOn, hslots, Bool.and_false]
          have hdue : h.due = none := by
            cases hd : h.due with
            | none => rfl
            | some s' => exact absurd (hslots.symm.trans (hs.due s' hd).1) (by decide)
          have heq : h.publish .done = (h.put s h.naming (some (h.naming, true)), true) := by
            simp [publish, hslots, hslot]
          rw [heq]
          refine ⟨hc.congr rfl rfl rfl rfl rfl rfl rfl, ⟨hs.retiring, ?_, ?_, hs.unflagged, hlog⟩,
            fun _ => id, fun _ => ⟨hdue, hs.unflagged hoff, s, h.naming, hdisk, le_refl _,
              hsync⟩⟩
          · intro hon
            exact absurd (hoff.symm.trans hon) (by decide)
          · intro s' hs'
            exact absurd (hdue.symm.trans hs') (by simp)
      | true =>
          by_cases hret : h.pending ≠ [] ∨ h.due.isSome = true
          · have heq : h.publish .done = (({ h.put s h.naming (some (h.naming, true)) with
                due := none, pending := [] } : Landing).retireCovered, true) := by
              simp only [publish, ← hslot]
              rw [if_pos hslots, if_pos hret]
            have hcov : ∀ w ∈ h.retiring, w.last ≤ h.covered := by
              refine hs.covered_of (hret.imp (fun hne => ?_) id)
              cases hon : h.pendingOn with
              | false => exact absurd (hs.unflagged hon) hne
              | true => rfl
            rw [heq]
            refine ⟨hc.congr rfl rfl rfl rfl rfl rfl rfl, ⟨?_, ?_, ?_, fun _ => rfl, ?_⟩,
              fun _ hw => absurd hw List.not_mem_nil, fun _ => ⟨rfl, rfl, s, h.naming, hdisk, le_refl _, hsync⟩⟩
            · exact fun w hw => absurd hw List.not_mem_nil
            · exact fun hon _ => ⟨h.naming, hnew hon, rfl, fun n hn => Or.inl (hsync n hn)⟩
            · exact fun s' hs' => absurd hs' (by simp [retireCovered])
            · exact removed_good hlog fun w hw => ⟨s, h.naming, hdisk, hcov w hw, hsync⟩
          · obtain ⟨hpend, hdue⟩ := not_or.mp hret
            have heq : h.publish .done
                = ({ h.put s h.naming (some (h.naming, true)) with due := none }, true) := by
              simp only [publish, ← hslot]
              rw [if_pos hslots, if_neg hret]
            have hnone : h.due = none := by simpa using hdue
            rw [heq]
            refine ⟨hc.congr rfl rfl rfl rfl rfl rfl rfl, ⟨fun w hw => ?_, ?_, ?_, hs.unflagged, hlog⟩,
              fun _ => id, fun _ => ⟨rfl, not_not.mp hpend, s, h.naming, hdisk, le_refl _, hsync⟩⟩
            · exact (hs.retiring w hw).imp id fun ⟨hoff, _, hq⟩ => ⟨hoff, rfl, hq⟩
            · exact fun hon _ => ⟨h.naming, hnew hon, rfl, fun n hn => Or.inl (hsync n hn)⟩
            · exact fun s' hs' => absurd hs' (by simp)

/-- **A slot owed its sync** and given it is one its log files may go behind. -/
lemma syncOwedSlot_ok (hc : h.Core) (hs : h.Slots) (ok : Bool) :
    (h.syncOwedSlot ok).Core ∧ (h.syncOwedSlot ok).Slots := by
  cases hd : h.due with
  | none =>
      rw [syncOwedSlot, hd]
      exact ⟨hc, hs⟩
  | some s =>
      obtain ⟨-, hoff, m, b, hdisk, hnames, hcov⟩ := hs.due s hd
      have hret : ∀ w ∈ h.retiring, w.last ≤ h.covered := hs.covered_of (Or.inr (by rw [hd]; rfl))
      cases ok with
      | false =>
          have heq : h.syncOwedSlot false = { h with due := none } := by simp [syncOwedSlot, hd]
          rw [heq]
          exact ⟨hc.congr rfl rfl rfl rfl rfl rfl rfl, fun w hw => Or.inl (hret w hw), hs.newest,
            fun s' hs' => absurd hs' (by simp), hs.unflagged, hs.logged⟩
      | true =>
          have heq : h.syncOwedSlot true
              = (({ h with due := none } : Landing).syncSlot s).retireCovered := by
            simp [syncOwedSlot, hd]
          have hsynced : (({ h with due := none } : Landing).syncSlot s).disk s = some (m, true) := by
            simp [syncSlot, hdisk]
          rw [heq]
          refine ⟨hc.congr rfl rfl rfl rfl rfl rfl rfl, fun w hw => absurd hw List.not_mem_nil,
            fun hon => absurd (hoff.symm.trans hon) (by decide),
            fun s' hs' => absurd hs' (by simp [retireCovered, syncSlot]), hs.unflagged, ?_⟩
          exact removed_good hs.logged fun w hw => ⟨s, m, hsynced, hcov w hw, hnames⟩

/-- A slot written without its sync. -/
lemma putOwed_ok (hc : h.Core) (hs : h.Slots) (hsync : ∀ n ∈ h.live, n ∈ h.synced)
    (hslots : h.slots = true) (hoff : h.pendingOn = false)
    (hret : ∀ w ∈ h.retiring, w.last ≤ h.covered) : h.putOwed.Core ∧ h.putOwed.Slots := by
  refine ⟨hc.congr rfl rfl rfl rfl rfl rfl rfl, fun w hw => Or.inl (hret w hw),
    fun hon => absurd (hoff.symm.trans hon) (by decide), fun s' hs' => ?_, hs.unflagged,
    put_logged hc hs hsync (manifestSlot (h.seq + 1)) (some (h.naming, false))⟩
  have heq : manifestSlot (h.seq + 1) = s' := Option.some.inj hs'
  subst heq
  exact ⟨hslots, hoff, h.naming, false, Function.update_self _ _ _, hsync, hret⟩

/-- The log files of a seal that has landed, to be removed. -/
lemma slots_retiring (hs : h.Slots) (hret : ∀ w ∈ h.retiring, w.last ≤ h.covered)
    {wals : List ClosedWal} (hwals : ∀ w ∈ wals, w.last ≤ h.covered)
    (hdue : ∀ s m b, h.due = some s → h.disk s = some (m, b) → h.covered ≤ m.covered) :
    ({ h with retiring := h.retiring ++ wals } : Landing).Slots := by
  refine ⟨fun w hw => Or.inl ?_, hs.newest, fun s hs' => ?_, hs.unflagged, hs.logged⟩
  · exact (List.mem_append.mp hw).elim (hret w) (hwals w)
  · obtain ⟨hslots, hoff, m, b, hdisk, hnames, hcov⟩ := hs.due s hs'
    refine ⟨hslots, hoff, m, b, hdisk, hnames, fun w hw => ?_⟩
    exact (List.mem_append.mp hw).elim (hcov w) fun hw => (hwals w hw).trans (hdue s m b hs' hdisk)

/-- **The durable phase** of a seal whose segments are live and synced. -/
lemma landDurable_ok (hc : h.Core) (hs : h.Slots) (hsync : ∀ n ∈ h.live, n ∈ h.synced)
    (hret : ∀ w ∈ h.retiring, w.last ≤ h.covered) {wals : List ClosedWal}
    (hwals : ∀ w ∈ wals, w.last ≤ h.covered) {defer : Bool}
    (hdefer : defer = true → h.pendingOn = false) {fate : PublishFate}
    (hfate : h.pendingOn = true ∨ h.due.isSome = true → fate = .done) :
    (h.landDurable wals defer fate).Core ∧ (h.landDurable wals defer fate).Slots := by
  have hunsynced : (defer && h.slots) = true → h.slots = true → h.pendingOn = false →
      ∀ f : PublishFate, f ≠ .writeFails →
        (h.landDurable wals defer f).Core ∧ (h.landDurable wals defer f).Slots := by
    intro hdef hslots hoff f hf
    have hput : h.publishUnsynced f = (h.putOwed, true) := by
      cases f with
      | writeFails => exact absurd rfl hf
      | _ => rfl
    have heq : h.landDurable wals defer f
      = { h.putOwed with retiring := h.putOwed.retiring ++ wals } := by
      simp [landDurable, hoff, hdef, hput, putOwed]
    obtain ⟨hc', hs'⟩ := putOwed_ok hc hs hsync hslots hoff hret
    rw [heq]
    refine ⟨hc'.congr rfl rfl rfl rfl rfl rfl rfl,
      slots_retiring hs' hret hwals fun s m b hd hdisk => ?_⟩
    have hs'' : manifestSlot (h.seq + 1) = s := Option.some.inj hd
    subst hs''
    have hm : h.putOwed.disk (manifestSlot (h.seq + 1)) = some (h.naming, false) :=
      Function.update_self _ _ _
    rw [← (Prod.mk.inj (Option.some.inj (hm.symm.trans hdisk))).1]
    exact le_refl _
  by_cases hpend : (h.pendingOn && !h.pending.isEmpty) = true
  · obtain ⟨hon, hne⟩ := Bool.and_eq_true_iff.mp hpend
    have heq : h.landDurable wals defer fate = { h with retiring := h.retiring ++ wals } := by
      rw [landDurable, if_pos hpend]
      have hcond : ((!({ h with retiring := h.retiring ++ wals } : Landing).pendingOn ||
          h.pending.isEmpty) && h.due.isNone) = false := by
        have h₁ : ({ h with retiring := h.retiring ++ wals } : Landing).pendingOn = true := hon
        have h₂ : h.pending.isEmpty = false := by simpa using hne
        rw [h₁, h₂]
        rfl
      simp only [hcond, if_true, Bool.false_eq_true, if_false]
    rw [heq]
    refine ⟨hc.congr rfl rfl rfl rfl rfl rfl rfl, slots_retiring hs hret hwals fun s m b hd _ => ?_⟩
    exact absurd (hon.symm.trans (hs.due s hd).2.1) (by decide)
  · by_cases hdef : (defer && h.slots) = true
    · obtain ⟨hdefer', hslots⟩ := Bool.and_eq_true_iff.mp hdef
      have hoff := hdefer hdefer'
      cases fate with
      | writeFails =>
          have hdue : h.due = none := by
            cases hd : h.due with
            | none => rfl
            | some s => exact absurd (hfate (Or.inr (by rw [hd]; rfl))) (by decide)
          have heq : h.landDurable wals defer .writeFails
              = h.put (manifestSlot (h.seq + 1)) h.naming none := by
            simp [landDurable, hpend, hdef, publishUnsynced]
          rw [heq]
          exact put_failed hc hs hsync hdue (fun hon => absurd (hoff.symm.trans hon) (by decide)) _ _
      | syncFails => exact hunsynced hdef hslots hoff .syncFails (by decide)
      | done => exact hunsynced hdef hslots hoff .done (by decide)
    · obtain ⟨hc', hs', hsub, hdone⟩ := publish_ok hc hs hsync (h := h) fun hor =>
        hfate (hor.imp And.left id)
      cases hok : (h.publish fate).2 with
      | false =>
          have heq : h.landDurable wals defer fate = (h.publish fate).1 := by
            simp [landDurable, hpend, hdef, hok]
          rw [heq]
          exact ⟨hc', hs'⟩
      | true =>
          obtain ⟨hdue, hpending, s, m, hdisk, hcov, hnames⟩ := hdone hok
          have heq : h.landDurable wals defer fate = ({ (h.publish fate).1 with
              retiring := (h.publish fate).1.retiring ++ wals } : Landing).retireCovered := by
            simp [landDurable, hpend, hdef, hok, hdue, hpending]
          have hle : ∀ w ∈ (h.publish fate).1.retiring ++ wals, w.last ≤ h.covered := fun w hw =>
            (List.mem_append.mp hw).elim (fun hw => hret w (hsub w hw)) (hwals w)
          rw [heq]
          refine ⟨hc'.congr rfl rfl rfl rfl rfl rfl rfl, fun w hw => absurd hw List.not_mem_nil,
            hs'.newest, fun s' hs'' => absurd (hdue.symm.trans hs'') (by simp), hs'.unflagged, ?_⟩
          exact removed_good hs'.logged fun w hw => ⟨s, m, hdisk, (hle w hw).trans hcov, hnames⟩

/-! ## The queue -/

section Queue

variable {j : SealJob} {rest : List SealJob}

lemma frontSeg_of_waiting (hrest : ∀ j ∈ h.sealing, j.landed = false) (n : ℕ) : ¬ h.FrontSeg n := by
  rintro ⟨j, hj, hlanded, -⟩
  exact absurd ((hrest j (List.mem_of_mem_head? hj)).symm.trans hlanded) (by decide)

/-- With no seal between its phases, what is live is synced. -/
lemma Core.live_synced (hc : h.Core) (hbetween : h.betweenPhases = false) :
    ∀ n ∈ h.live, n ∈ h.synced := by
  intro n hn
  refine (hc.live n hn).resolve_right ?_
  rintro ⟨j, hj, hlanded, -⟩
  rw [betweenPhases, Option.mem_def.mp hj] at hbetween
  exact absurd (hbetween.symm.trans hlanded) (by decide)

/-- The tables that are not live behind a front that is to land. -/
lemma Core.first (hc : h.Core) (hq : h.sealing = j :: rest) (hwedged : h.wedged = false) :
    ∀ t ∈ h.tables, (∀ n ∈ t.segs, n ∈ h.live ∨ n ∈ h.replaced) ∨ t = j.table ∨
      (h.covered ≤ t.endSeq ∧ j.table.endSeq ≤ t.endSeq ∧ ∃ k ∈ rest, k.landed = false ∧
      k.table = t) := by
  intro t ht
  rcases hc.tables t ht with hlive | ⟨hle, hstop | ⟨k, hk, hkl, hkt⟩⟩
  · exact Or.inl hlive
  · exact absurd (hwedged.symm.trans hstop) (by decide)
  · rw [hq] at hk
    have hsorted := hc.sorted
    rw [hq, List.pairwise_cons] at hsorted
    rcases List.mem_cons.mp hk with rfl | hk
    · exact Or.inr (Or.inl hkt.symm)
    · exact Or.inr (Or.inr ⟨hle, hkt ▸ hsorted.1 k hk, k, hk, hkl, hkt⟩)

lemma Core.rest_waiting (hc : h.Core) (hq : h.sealing = j :: rest) :
    ∀ k ∈ rest, k.landed = false := by
  have h := hc.waiting
  rwa [hq] at h

/-- **The front lands**: its segments live and its sequence covered, between its phases or past
both. -/
lemma core_landed (hc : h.Core) (hq : h.sealing = j :: rest) (hj : j.landed = false)
    (hwedged : h.wedged = false) (hlive : h'.live = h.live ++ j.table.segs)
    (hcov : h'.covered = max h.covered j.table.endSeq) (hrep : h'.replaced = h.replaced)
    (htab : h'.tables = h.tables)
    (hor : (h'.sealing = { j with landed := true } :: rest ∧ h'.synced = h.synced ∧
        h'.wedged = h.wedged) ∨
      (h'.sealing = rest ∧ h'.synced = h.synced ++ j.table.segs)) : h'.Core := by
  have hwait := hc.rest_waiting hq
  have hsorted := hc.sorted
  rw [hq, List.pairwise_cons] at hsorted
  have hmem : ∀ k ∈ rest, k ∈ h.sealing := fun k hk => hq ▸ List.mem_cons_of_mem _ hk
  have hsync : ∀ n ∈ h.live, n ∈ h.synced := hc.live_synced (by rw [betweenPhases, hq]; exact hj)
  have hahead : ∀ k ∈ rest, h'.covered ≤ k.table.endSeq := fun k hk => by
    rw [hcov]
    exact max_le (hc.ahead k (hmem k hk) (hwait k hk)) (hsorted.1 k hk)
  have htables : ∀ t ∈ h'.tables, (∀ n ∈ t.segs, n ∈ h'.live ∨ n ∈ h'.replaced) ∨
      (h'.covered ≤ t.endSeq ∧ ∃ k ∈ rest, k.landed = false ∧ k.table = t) := by
    intro t ht
    rw [hlive, hrep, hcov]
    rcases hc.first hq hwedged t (htab ▸ ht) with hl | rfl | ⟨hle, hle', hk⟩
    · exact Or.inl fun n hn => (hl n hn).imp (List.mem_append_left _) id
    · exact Or.inl fun n hn => Or.inl (List.mem_append_right _ hn)
    · exact Or.inr ⟨max_le hle hle', hk⟩
  rcases hor with ⟨hseal, hsyn, -⟩ | ⟨hseal, hsyn⟩
  · refine ⟨?_, ?_, ?_, ?_, ?_, ?_, ?_, ?_⟩
    · intro n hn
      rw [hlive] at hn
      rcases List.mem_append.mp hn with hn | hn
      · exact Or.inl (hsyn ▸ hsync n hn)
      · exact Or.inr ⟨{ j with landed := true }, by rw [hseal]; rfl, rfl, hn⟩
    · rw [hseal]
      exact hwait
    · rw [hseal]
      exact List.pairwise_cons.mpr hsorted
    · intro k hk hkl
      rw [hseal] at hk
      rcases List.mem_cons.mp hk with rfl | hk
      · exact absurd hkl (by simp)
      · exact hahead k hk
    · intro k hk hkl
      rw [hseal] at hk
      rcases List.mem_cons.mp hk with rfl | hk
      · rw [hcov]
        exact le_max_right _ _
      · exact absurd ((hwait k hk).symm.trans hkl) (by decide)
    · intro k hk
      rw [hseal] at hk
      rcases List.mem_cons.mp hk with rfl | hk
      · exact hc.segs j (hq ▸ List.mem_cons_self)
      · exact hc.segs k (hmem k hk)
    · intro k hk
      rw [hseal] at hk
      rcases List.mem_cons.mp hk with rfl | hk
      · exact hc.wals j (hq ▸ List.mem_cons_self)
      · exact hc.wals k (hmem k hk)
    · intro t ht
      refine (htables t ht).imp id fun ⟨hle, k, hk, hkt⟩ => ⟨hle, Or.inr ⟨k, ?_, hkt⟩⟩
      rw [hseal]
      exact List.mem_cons_of_mem _ hk
  · refine ⟨?_, ?_, ?_, ?_, ?_, ?_, ?_, ?_⟩
    · intro n hn
      rw [hlive] at hn
      rw [hsyn]
      exact Or.inl ((List.mem_append.mp hn).elim (fun hn => List.mem_append_left _ (hsync n hn))
        (List.mem_append_right _))
    · rw [hseal]
      exact fun k hk => hwait k (List.mem_of_mem_tail hk)
    · rw [hseal]
      exact hsorted.2
    · rw [hseal]
      exact fun k hk _ => hahead k hk
    · rw [hseal]
      exact fun k hk hkl => absurd ((hwait k hk).symm.trans hkl) (by decide)
    · rw [hseal]
      exact fun k hk => hc.segs k (hmem k hk)
    · rw [hseal]
      exact fun k hk => hc.wals k (hmem k hk)
    · intro t ht
      refine (htables t ht).imp id fun ⟨hle, hk⟩ => ⟨hle, Or.inr ?_⟩
      rw [hseal]
      exact hk

/-- **The front leaves the queue** with nothing more live: landed and synced, or not landed and the
queue stopped. -/
lemma core_popped (hc : h.Core) (hq : h.sealing = j :: rest) (hseal : h'.sealing = rest)
    (hlive : h'.live = h.live) (hcov : h'.covered = h.covered) (hrep : h'.replaced = h.replaced)
    (htab : h'.tables = h.tables) (hsub : ∀ n ∈ h.synced, n ∈ h'.synced)
    (hor : (j.landed = true ∧ h'.wedged = h.wedged ∧ ∀ n ∈ j.table.segs, n ∈ h'.synced) ∨
      (j.landed = false ∧ h'.wedged = true)) : h'.Core := by
  have hwait := hc.rest_waiting hq
  have hsorted := hc.sorted
  rw [hq, List.pairwise_cons] at hsorted
  have hmem : ∀ k ∈ rest, k ∈ h.sealing := fun k hk => hq ▸ List.mem_cons_of_mem _ hk
  refine ⟨?_, ?_, ?_, ?_, ?_, ?_, ?_, ?_⟩
  · intro n hn
    rw [hlive] at hn
    refine Or.inl ?_
    rcases hc.live n hn with hn | ⟨k, hk, hkl, hnk⟩
    · exact hsub n hn
    · rw [hq] at hk
      have hjk : j = k := Option.some.inj hk
      subst hjk
      rcases hor with ⟨-, -, hsegs⟩ | ⟨hj, -⟩
      · exact hsegs n hnk
      · exact absurd (hj.symm.trans hkl) (by decide)
  · rw [hseal]
    exact fun k hk => hwait k (List.mem_of_mem_tail hk)
  · rw [hseal]
    exact hsorted.2
  · rw [hseal, hcov]
    exact fun k hk => hc.ahead k (hmem k hk)
  · rw [hseal, hcov]
    exact fun k hk => hc.behind k (hmem k hk)
  · rw [hseal]
    exact fun k hk => hc.segs k (hmem k hk)
  · rw [hseal]
    exact fun k hk => hc.wals k (hmem k hk)
  · intro t ht
    rw [hlive, hrep, hcov, hseal]
    refine (hc.tables t (htab ▸ ht)).imp id fun ⟨hle, hk⟩ => ⟨hle, ?_⟩
    rcases hor with ⟨hj, hwed, -⟩ | ⟨-, hwed⟩
    · rw [hwed]
      refine hk.imp id fun ⟨k, hk, hkl, hkt⟩ => ⟨k, ?_, hkl, hkt⟩
      rw [hq] at hk
      rcases List.mem_cons.mp hk with rfl | hk
      · exact absurd (hj.symm.trans hkl) (by decide)
      · exact hk
    · exact Or.inl hwed

end Queue

/-! ## Landings -/

section Land

variable {j : SealJob} {rest : List SealJob}

/-- A pending publish's event, for the front seal. -/
lemma Core.pending_logged (hc : h.Core) (hs : h.Slots) (hq : h.sealing = j :: rest)
    (hj : j.landed = false) (hwedged : h.wedged = false) {synced : List ℕ}
    (hsub : ∀ n ∈ h.synced, n ∈ synced) :
    ∀ e ∈ h.log ++ [.wrote (h.namingPending j.table) synced h.tables h.replaced], e.Good := by
  intro e he
  rcases List.mem_append.mp he with he | he
  · exact hs.logged e he
  · rw [List.mem_singleton.mp he]
    have hsync : ∀ n ∈ h.live, n ∈ h.synced := hc.live_synced (by rw [betweenPhases, hq]; exact hj)
    refine namingPending_good (h := { h with synced := synced }) (fun n hn => hsub n (hsync n hn))
      (hc.segs j (hq ▸ List.mem_cons_self)) fun t ht => ?_
    rcases hc.first hq hwedged t ht with hl | heq | ⟨hle, hle', -⟩
    · exact Or.inl hl
    · exact Or.inr (Or.inl heq)
    · exact Or.inr (Or.inr ⟨hle, hle'⟩)

/-- The slots once the queue has stopped at its front. -/
lemma slots_stopped (hs : h.Slots) (hq : h.sealing = j :: rest) (hseal : h'.sealing = rest)
    (hwedged : h'.wedged = true) (hon : h'.pendingOn = h.pendingOn) (hslots : h'.slots = h.slots)
    (hret : h'.retiring = h.retiring) (hdue : h'.due = h.due) (hpend : h'.pending = h.pending)
    (hcov : h.covered ≤ h'.covered) (hsub : ∀ n ∈ h.synced, n ∈ h'.synced)
    (hdisk : h.pendingOn = false → h'.disk = h.disk) (hlog : ∀ e ∈ h'.log, e.Good) : h'.Slots := by
  refine ⟨fun w hw => ?_, fun _ hf => absurd (hwedged.symm.trans hf) (by decide),
    fun s hd => ?_, ?_, hlog⟩
  · rw [hret] at hw
    refine (hs.retiring w hw).imp (fun hle => hle.trans hcov) fun ⟨hoff, hnone, hall⟩ => ?_
    refine ⟨hon.trans hoff, hdue.trans hnone, fun k hk => hall k ?_⟩
    rw [hseal] at hk
    exact hq ▸ List.mem_cons_of_mem _ hk
  · rw [hdue] at hd
    obtain ⟨hsl, hoff, m, b, hd', hnames, hcovered⟩ := hs.due s hd
    refine ⟨hslots.trans hsl, hon.trans hoff, m, b, by rw [hdisk hoff]; exact hd',
      fun n hn => hsub n (hnames n hn), fun w hw => hcovered w (hret ▸ hw)⟩
  · rw [hon, hpend]
    exact hs.unflagged

/-- The slots once the front's segments are live, past its readable phase or both. -/
lemma slots_landed (hc : h.Core) (hs : h.Slots) (hq : h.sealing = j :: rest) (hj : j.landed = false)
    (hwedged : h.wedged = false) {sealing : List SealJob} {synced : List ℕ}
    (hsub : ∀ n ∈ h.synced, n ∈ synced)
    (hor : sealing = { j with landed := true } :: rest ∨
      (sealing = rest ∧ ∀ n ∈ j.table.segs, n ∈ synced)) :
    ({ ({ h with synced := synced }.landReadable j.table .done).1 with sealing := sealing } :
      Landing).Slots ∧ ∀ w ∈ ({ h with synced := synced }.landReadable j.table .done).1.retiring,
        w.last ≤ max h.covered j.table.endSeq := by
  have hne := hc.segs j (hq ▸ List.mem_cons_self)
  have hsync : ∀ n ∈ h.live, n ∈ h.synced := hc.live_synced (by rw [betweenPhases, hq]; exact hj)
  have hcov : (h.goLive j.table).covered = max h.covered j.table.endSeq := goLive_covered hne
  have hwait : ∀ n, ¬ h.FrontSeg n := frontSeg_of_waiting fun k hk => by
    rw [hq] at hk
    rcases List.mem_cons.mp hk with rfl | hk
    · exact hj
    · exact hc.rest_waiting hq k hk
  set h₀ : Landing := { h with synced := synced } with hh₀
  cases hon : h.pendingOn with
  | true =>
      have hon₀ : h₀.pendingOn = true := hon
      set s := manifestSlot (h.seq + 1) with hslot
      set m := h.namingPending j.table with hm
      set h₁ : Landing := { ((h₀.put s m (some (m, false))).goLive j.table).syncSlot s with
        pending := j.table.segs } with hh₁
      have heq : h₀.landReadable j.table .done = (h₁.retireCovered, true) := by
        simp only [landReadable, hon₀, Bool.true_and, Bool.not_eq_true', List.isEmpty_eq_false_iff,
          ne_eq, hne, not_false_eq_true, if_true]
        rfl
      have hdisk : h₁.disk s = some (m, true) := by
        simp [hh₁, syncSlot, put, goLive]
      have hprev : h₁.disk (manifestSlot h.seq) = h.disk (manifestSlot h.seq) := by
        have hslots : manifestSlot h.seq ≠ s := by
          rw [hslot, manifestSlot, manifestSlot, ne_eq, decide_eq_decide]
          omega
        simp [hh₁, hh₀, syncSlot, put, goLive, Function.update_of_ne hslots]
      obtain ⟨x, hx, hxcov, hxnames⟩ := hs.newest hon hwedged
      have hlog : ∀ e ∈ h₁.retireCovered.log, e.Good := by
        refine removed_good (hc.pending_logged hs hq hj hwedged hsub) fun w hw => ?_
        refine ⟨_, x, hprev.trans hx, hxcov ▸ hs.covered_of (Or.inl hon) w hw, fun n hn => ?_⟩
        exact hsub n ((hxnames n hn).resolve_right (hwait n))
      rw [heq]
      refine ⟨⟨fun w hw => absurd hw List.not_mem_nil, fun _ _ => ⟨m, hdisk, rfl, fun n hn => ?_⟩,
        fun s' hd => ?_, fun hoff => absurd (hon.symm.trans hoff) (by decide), hlog⟩,
        fun w hw => absurd hw List.not_mem_nil⟩
      · rcases List.mem_append.mp hn with hn | hn
        · exact Or.inl (hsub n (hsync n hn))
        · rcases hor with hseal | ⟨-, hsegs⟩
          · exact Or.inr ⟨{ j with landed := true }, by subst hseal; rfl, rfl, hn⟩
          · exact Or.inl (hsegs n hn)
      · exact absurd (hon.symm.trans (hs.due s' hd).2.1) (by decide)
  | false =>
      have hon₀ : h₀.pendingOn = false := hon
      have heq : h₀.landReadable j.table .done = (h₀.goLive j.table, true) := by
        simp [landReadable, hon₀]
      have hret : ∀ w ∈ h.retiring, w.last ≤ max h.covered j.table.endSeq := by
        intro w hw
        rcases hs.retiring w hw with hle | ⟨-, -, hall⟩
        · exact hle.trans (le_max_left _ _)
        · exact (hall j (hq ▸ List.mem_cons_self)).2.trans (le_max_right _ _)
      rw [heq]
      refine ⟨⟨fun w hw => Or.inl (hcov ▸ hret w hw), fun hf => absurd (hon.symm.trans hf) (by decide),
        fun s' hd => ?_, fun _ => hs.unflagged hon, hs.logged⟩, hret⟩
      obtain ⟨hsl, hoff, m, b, hd', hnames, hcovered⟩ := hs.due s' hd
      exact ⟨hsl, hoff, m, b, hd', fun n hn => hsub n (hnames n hn), hcovered⟩

/-- What a readable landing moves, and what not. -/
lemma landReadable_done (h : Landing) (t : SealedTable) :
    (h.landReadable t .done).2 = true ∧ (h.landReadable t .done).1.live = h.live ++ t.segs ∧
      (h.landReadable t .done).1.covered = (h.goLive t).covered ∧
      (h.landReadable t .done).1.replaced = h.replaced ∧
      (h.landReadable t .done).1.tables = h.tables ∧ (h.landReadable t .done).1.synced = h.synced ∧
      (h.landReadable t .done).1.wedged = h.wedged ∧ (h.landReadable t .done).1.due = h.due ∧
      (h.landReadable t .done).1.pendingOn = h.pendingOn ∧
      (h.landReadable t .done).1.sealing = h.sealing := by
  simp only [landReadable]
  split_ifs <;> exact ⟨trivial, rfl, rfl, rfl, rfl, rfl, rfl, rfl, rfl, rfl⟩

/-- **The front's readable landing fails** and the queue stops: nothing of it is live, or all of it
is and its thread synced it. -/
lemma stopped_ok (hc : h.Core) (hs : h.Slots) (hq : h.sealing = j :: rest) (hj : j.landed = false)
    (hwedged : h.wedged = false) {fate : ReadableFate} (hfate : fate ≠ .done) {synced : List ℕ}
    (hsub : ∀ n ∈ h.synced, n ∈ synced) {final : List ℕ} (hsub' : ∀ n ∈ synced, n ∈ final)
    (hlate : fate = .late → final = h.synced ++ j.table.segs) :
    ({ ({ h with sealing := rest, synced := synced }.landReadable j.table fate).1 with
        sealing := rest, synced := final, wedged := true } : Landing).Core ∧
      ({ ({ h with sealing := rest, synced := synced }.landReadable j.table fate).1 with
        sealing := rest, synced := final, wedged := true } : Landing).Slots := by
  have hlog := hc.pending_logged hs hq hj hwedged hsub
  have hcov : (h.goLive j.table).covered = max h.covered j.table.endSeq :=
    goLive_covered (hc.segs j (hq ▸ List.mem_cons_self))
  have hall : ∀ n ∈ h.synced, n ∈ final := fun n hn => hsub' n (hsub n hn)
  set h₀ : Landing := { h with sealing := rest, synced := synced } with hh₀
  set s := manifestSlot (h.seq + 1) with hslot
  set m := h.namingPending j.table with hm
  -- the state the failure leaves is the one it began from, or that with the pending slot written
  have hbase : ∀ h₁ : Landing, h₁ = h₀ ∨ (h.pendingOn = true ∧ h₁ = h₀.put s m (some (m, false))) →
      ({ h₁ with sealing := rest, synced := final, wedged := true } : Landing).Core ∧
        ({ h₁ with sealing := rest, synced := final, wedged := true } : Landing).Slots := by
    rintro h₁ (rfl | ⟨hon, rfl⟩)
    · exact ⟨core_popped hc hq rfl rfl rfl rfl rfl hall (Or.inr ⟨hj, rfl⟩),
        slots_stopped hs hq rfl rfl rfl rfl rfl rfl rfl (le_refl _) hall (fun _ => rfl) hs.logged⟩
    · exact ⟨core_popped hc hq rfl rfl rfl rfl rfl hall (Or.inr ⟨hj, rfl⟩),
        slots_stopped hs hq rfl rfl rfl rfl rfl rfl rfl (le_refl _) hall
          (fun hoff => absurd (hon.symm.trans hoff) (by decide)) hlog⟩
  have hlive : ∀ h₁ : Landing, h₁ = h₀ ∨ (h.pendingOn = true ∧ h₁ = h₀.put s m (some (m, false))) →
      fate = .late →
      ({ h₁.goLive j.table with sealing := rest, synced := final, wedged := true } : Landing).Core ∧
        ({ h₁.goLive j.table with sealing := rest, synced := final, wedged := true } : Landing).Slots := by
    intro h₁ hor hf
    have hfinal := hlate hf
    rcases hor with rfl | ⟨hon, rfl⟩
    · exact ⟨core_landed hc hq hj hwedged rfl hcov rfl rfl (Or.inr ⟨rfl, hfinal⟩),
        slots_stopped hs hq rfl rfl rfl rfl rfl rfl rfl (hcov ▸ le_max_left _ _) hall (fun _ => rfl)
          hs.logged⟩
    · exact ⟨core_landed hc hq hj hwedged rfl hcov rfl rfl (Or.inr ⟨rfl, hfinal⟩),
        slots_stopped hs hq rfl rfl rfl rfl rfl rfl rfl (hcov ▸ le_max_left _ _) hall
          (fun hoff => absurd (hon.symm.trans hoff) (by decide)) hlog⟩
  have hput : (if (h₀.pendingOn && !j.table.segs.isEmpty) = true then h₀.put s m (some (m, false))
      else h₀) = h₀ ∨ (h.pendingOn = true ∧
        (if (h₀.pendingOn && !j.table.segs.isEmpty)
          = true then h₀.put s m (some (m, false)) else h₀) = h₀.put s m (some (m, false))) := by
    by_cases hp : (h₀.pendingOn && !j.table.segs.isEmpty) = true
    · rw [if_pos hp]
      exact Or.inr ⟨(Bool.and_eq_true_iff.mp hp).1, rfl⟩
    · rw [if_neg hp]
      exact Or.inl rfl
  cases fate with
  | done => exact absurd rfl hfate
  | early wrote =>
      cases wrote with
      | false => exact hbase h₀ (Or.inl rfl)
      | true => exact hbase _ hput
  | late => exact hlive _ hput rfl

lemma landReadable_failed {fate : ReadableFate} (hfate : fate ≠ .done) (t : SealedTable) :
    (h.landReadable t fate).2 = false := by
  cases fate with
  | done => exact absurd rfl hfate
  | early wrote => rfl
  | late => rfl

lemma landReadable_keeps {fate : ReadableFate} (hfate : fate ≠ .done) (t : SealedTable) :
    (h.landReadable t fate).1.sealing = h.sealing ∧
    (h.landReadable t fate).1.synced = h.synced := by
  cases fate with
  | done => exact absurd rfl hfate
  | early wrote =>
      simp only [landReadable]
      split_ifs <;> exact ⟨rfl, rfl⟩
  | late =>
      simp only [landReadable]
      split_ifs <;> exact ⟨rfl, rfl⟩

/-- A landing that failed, with the front out of the queue before it or after. -/
lemma landReadable_pop {fate : ReadableFate} (hfate : fate ≠ .done) (t : SealedTable)
    (threadOk : Bool) :
    ({ (h.landReadable t fate).1.joined t threadOk with sealing := rest, wedged := true } : Landing)
      = { ({ h with sealing := rest, synced := h.synced }.landReadable t fate).1 with
        sealing := rest, synced := if threadOk then h.synced ++ t.segs else h.synced, wedged := true } := by
  set h₀ : Landing := { h with sealing := rest, synced := h.synced } with hh₀
  by_cases hp : (h.pendingOn && !t.segs.isEmpty) = true
  · have hp₀ : (h₀.pendingOn && !t.segs.isEmpty) = true := hp
    cases fate with
    | done => exact absurd rfl hfate
    | early wrote =>
        simp only [landReadable, if_pos hp, if_pos hp₀]
        cases wrote <;> cases threadOk <;> rfl
    | late =>
        simp only [landReadable, if_pos hp, if_pos hp₀]
        cases threadOk <;> rfl
  · have hp₀ : ¬ (h₀.pendingOn && !t.segs.isEmpty) = true := hp
    cases fate with
    | done => exact absurd rfl hfate
    | early wrote =>
        simp only [landReadable, if_neg hp, if_neg hp₀]
        cases wrote <;> cases threadOk <;> rfl
    | late =>
        simp only [landReadable, if_neg hp, if_neg hp₀]
        cases threadOk <;> rfl

/-- **The front lands readable.** -/
lemma landFrontReadable_ok (hc : h.Core) (hs : h.Slots) {fate : ReadableFate} {threadOk : Bool}
    (hmeets : fate = .late → threadOk = true) :
    (h.landFrontReadable fate threadOk).Core ∧ (h.landFrontReadable fate threadOk).Slots := by
  cases hq : h.sealing with
  | nil =>
      rw [landFrontReadable, hq]
      exact ⟨hc, hs⟩
  | cons j rest =>
      by_cases hskip : (j.landed || h.wedged) = true
      · simp only [landFrontReadable, hq, if_pos hskip]
        exact ⟨hc, hs⟩
      · obtain ⟨hj, hwedged⟩ : j.landed = false ∧ h.wedged = false := by simpa using hskip
        have heq : h.landFrontReadable fate threadOk = if (h.landReadable j.table fate).2 then
            { (h.landReadable j.table fate).1 with sealing := { j with landed := true } :: rest }
            else { ((h.landReadable j.table fate).1.joined j.table threadOk) with
              sealing := rest, wedged := true } := by
          simp only [landFrontReadable, hq, if_neg hskip]
        rw [heq]
        by_cases hfate : fate = .done
        · subst hfate
          obtain ⟨hok, hlive, hcov, hrep, htab, hsyn, hwed, -, -, -⟩ := landReadable_done h j.table
          rw [if_pos hok]
          refine ⟨core_landed hc hq hj hwedged hlive (hcov.trans (goLive_covered (hc.segs j
            (hq ▸ List.mem_cons_self)))) hrep htab (Or.inl ⟨rfl, hsyn, hwed⟩), ?_⟩
          exact (slots_landed hc hs hq hj hwedged (fun _ => id) (Or.inl rfl)).1
        · rw [landReadable_failed hfate, if_neg (by decide), landReadable_pop hfate]
          refine stopped_ok hc hs hq hj hwedged hfate (fun _ => id) (fun n hn => ?_) fun hf => ?_
          · split_ifs
            · exact List.mem_append_left _ hn
            · exact hn
          · rw [if_pos (hmeets hf)]

/-- `land_front` with its thread's segments synced. -/
lemma landFront_eq (hq : h.sealing = j :: rest) (hwedged : h.wedged = false) (draining : Bool)
    (fate : ReadableFate) (pub : PublishFate) (h₀ : Landing)
    (hh₀ : h₀ = { h with sealing := rest, synced := h.synced ++ j.table.segs }) :
    h.landFront draining true fate pub
      = if (if j.landed then (h₀, true) else h₀.landReadable j.table fate).2 then
          (if j.landed then (h₀, true) else h₀.landReadable j.table fate).1.landDurable j.wals
            (draining && !h.flushWaits && !h.pendingOn && !j.walUnsynced) pub
        else { (if j.landed then (h₀, true) else h₀.landReadable j.table fate).1 with wedged := true } := by
  subst hh₀
  rw [landFront, hq]
  simp only [hwedged, Bool.false_eq_true, if_false]
  rfl

/-- **The front lands whole**, its thread joined. -/
lemma landFront_ok (hc : h.Core) (hs : h.Slots) {draining threadOk : Bool} {fate : ReadableFate}
    {pub : PublishFate} (hthread : h.betweenPhases = true → threadOk = true)
    (hpub : h.pendingOn = true ∨ h.due.isSome = true → pub = .done) :
    (h.landFront draining threadOk fate pub).Core ∧
    (h.landFront draining threadOk fate pub).Slots := by
  cases hq : h.sealing with
  | nil =>
      rw [landFront, hq]
      exact ⟨hc, hs⟩
  | cons j rest =>
      have hwait := hc.rest_waiting hq
      cases hwedged : h.wedged with
      | true =>
          simp only [landFront, hq, hwedged, if_true]
          exact ⟨hc, hs⟩
      | false =>
          set defer := draining && !h.flushWaits && !h.pendingOn && !j.walUnsynced with hdefer
          have hoff : defer = true → h.pendingOn = false := by
            intro hd
            simp only [hdefer, Bool.and_eq_true, Bool.not_eq_true'] at hd
            exact hd.1.2
          cases threadOk with
          | false =>
              have hj : j.landed = false := by
                cases hj : j.landed with
                | false => rfl
                | true => exact absurd (hthread (by rw [betweenPhases, hq]; exact hj)) (by decide)
              have heq : h.landFront draining false fate pub
                  = { h with sealing := rest, wedged := true } := by
                simp [landFront, hq, hwedged, hj, joined]
              rw [heq]
              exact ⟨core_popped hc hq rfl rfl rfl rfl rfl (fun _ => id) (Or.inr ⟨hj, rfl⟩),
                slots_stopped hs hq rfl rfl rfl rfl rfl rfl rfl (le_refl _) (fun _ => id)
                  (fun _ => rfl) hs.logged⟩
          | true =>
              set h₀ : Landing := { h with sealing := rest, synced := h.synced ++ j.table.segs } with hh₀
              have hsub : ∀ n ∈ h.synced, n ∈ h₀.synced := fun n hn => List.mem_append_left _ hn
              have hsegs : ∀ n ∈ j.table.segs, n ∈ h₀.synced := fun n hn => List.mem_append_right _ hn
              cases hj : j.landed with
              | true =>
                  have heq : h.landFront draining true fate pub = h₀.landDurable j.wals defer pub := by
                    rw [landFront_eq hq hwedged draining fate pub h₀ hh₀]
                    simp only [hj, if_true, ← hdefer]
                  have hc₀ : h₀.Core := core_popped hc hq rfl rfl rfl rfl rfl hsub
                    (Or.inl ⟨hj, rfl, hsegs⟩)
                  have hret : ∀ w ∈ h.retiring, w.last ≤ h.covered := by
                    intro w hw
                    rcases hs.retiring w hw with hle | ⟨-, -, hall⟩
                    · exact hle
                    · have := (hall j (hq ▸ List.mem_cons_self)).1
                      exact absurd (this.symm.trans hj) (by decide)
                  have hs₀ : h₀.Slots := by
                    refine ⟨fun w hw => Or.inl (hret w hw), fun hon hw => ?_, fun s hd => ?_,
                      hs.unflagged, hs.logged⟩
                    · obtain ⟨m, hdisk, hcov, hnames⟩ := hs.newest hon hw
                      refine ⟨m, hdisk, hcov, fun n hn => Or.inl ?_⟩
                      rcases hnames n hn with hn | ⟨k, hk, -, hnk⟩
                      · exact hsub n hn
                      · rw [hq] at hk
                        exact hsegs n (Option.some.inj hk ▸ hnk)
                    · obtain ⟨hsl, hoff, m, b, hdisk, hnames, hcov⟩ := hs.due s hd
                      exact ⟨hsl, hoff, m, b, hdisk, fun n hn => hsub n (hnames n hn), hcov⟩
                  have hwals : ∀ w ∈ j.wals, w.last ≤ h₀.covered := fun w hw =>
                    (hc.wals j (hq ▸ List.mem_cons_self) w hw).trans
                      (hc.behind j (hq ▸ List.mem_cons_self) hj)
                  have hsync : ∀ n ∈ h₀.live, n ∈ h₀.synced := fun n hn =>
                    (hc₀.live n hn).resolve_right (frontSeg_of_waiting hwait n)
                  rw [heq]
                  exact landDurable_ok hc₀ hs₀ hsync hret hwals hoff hpub
              | false =>
                  by_cases hfate : fate = .done
                  · subst hfate
                    obtain ⟨hok, hlive, hcov, hrep, htab, hsyn, hwed, hdue, hon, hseal⟩ :=
                      landReadable_done h₀ j.table
                    set h₁ := (h₀.landReadable j.table .done).1 with hh₁
                    have heq : h.landFront draining true .done pub = h₁.landDurable j.wals defer pub := by
                      rw [landFront_eq hq hwedged draining .done pub h₀ hh₀]
                      simp only [hj, Bool.false_eq_true, if_false, hok, if_true, ← hdefer, ← hh₁]
                    have hcov' : h₁.covered = max h.covered j.table.endSeq :=
                      hcov.trans (goLive_covered (hc.segs j (hq ▸ List.mem_cons_self)))
                    have hc₁ : h₁.Core := core_landed hc hq hj hwedged hlive hcov' hrep htab
                      (Or.inr ⟨hseal, hsyn⟩)
                    obtain ⟨hs₁, hret⟩ := slots_landed hc hs hq hj hwedged hsub (Or.inr ⟨rfl, hsegs⟩)
                    have hsame : ({ ({ h with synced := h₀.synced }.landReadable j.table .done).1 with
                        sealing := rest } : Landing) = h₁ := by
                      by_cases hp : (h.pendingOn && !j.table.segs.isEmpty) = true
                      · have hp₀ : (h₀.pendingOn && !j.table.segs.isEmpty) = true := hp
                        have hp' : (({ h with synced := h₀.synced } : Landing).pendingOn &&
                          !j.table.segs.isEmpty) = true := hp
                        simp only [hh₁, landReadable, if_pos hp₀, if_pos hp']
                        rfl
                      · have hp₀ : ¬ (h₀.pendingOn && !j.table.segs.isEmpty) = true := hp
                        have hp' : ¬ (({ h with synced := h₀.synced } : Landing).pendingOn &&
                          !j.table.segs.isEmpty) = true := hp
                        simp only [hh₁, landReadable, if_neg hp₀, if_neg hp']
                        rfl
                    rw [hsame] at hs₁
                    have hwals : ∀ w ∈ j.wals, w.last ≤ h₁.covered := fun w hw => by
                      rw [hcov']
                      exact (hc.wals j (hq ▸ List.mem_cons_self) w hw).trans (le_max_right _ _)
                    have hsync : ∀ n ∈ h₁.live, n ∈ h₁.synced := fun n hn =>
                      (hc₁.live n hn).resolve_right (frontSeg_of_waiting (hseal ▸ hwait) n)
                    rw [heq]
                    refine landDurable_ok hc₁ hs₁ hsync (fun w hw => ?_) hwals
                      (fun hd => hon.trans (hoff hd)) (by rw [hon, hdue]; exact hpub)
                    rw [hcov']
                    exact hret w (by rw [← hsame] at hw; exact hw)
                  · have hkeep := landReadable_keeps (h := h₀) hfate j.table
                    have heq : h.landFront draining true fate pub
                        = { (h₀.landReadable j.table fate).1 with
                            sealing := rest, synced := h.synced ++ j.table.segs, wedged := true } := by
                      rw [landFront_eq hq hwedged draining fate pub h₀ hh₀]
                      simp only [hj, Bool.false_eq_true, if_false, landReadable_failed hfate]
                      rw [hkeep.1, hkeep.2]
                    rw [heq]
                    exact stopped_ok hc hs hq hj hwedged hfate hsub (fun _ => id) (fun _ => rfl)

end Land

/-! ## Runs -/

section Runs

/-- **A merge, a piece merge or a promotion lands.** -/
lemma rewrite_ok (hc : h.Core) (hs : h.Slots) {ins outs : List ℕ} {fate : PublishFate}
    (hfate : h.pendingOn = true ∧ h.wedged = false ∨ h.due.isSome = true → fate = .done) :
    (h.rewrite ins outs fate).Core ∧ (h.rewrite ins outs fate).Slots := by
  cases hb : h.betweenPhases with
  | true =>
      rw [rewrite, if_pos hb]
      exact ⟨hc, hs⟩
  | false =>
      rw [rewrite, if_neg (by rw [hb]; decide)]
      have hsync := hc.live_synced hb
      set h₁ : Landing := { h with
        live := h.live.filter (· ∉ ins) ++ outs, synced := h.synced ++ outs,
        replaced := h.replaced ++ h.live.filter (· ∈ ins) } with hh₁
      have hsync₁ : ∀ n ∈ h₁.live, n ∈ h₁.synced := by
        intro n hn
        rcases List.mem_append.mp hn with hn | hn
        · exact List.mem_append_left _ (hsync n (List.mem_of_mem_filter hn))
        · exact List.mem_append_right _ hn
      have hc₁ : h₁.Core := by
        refine ⟨fun n hn => Or.inl (hsync₁ n hn), hc.waiting, hc.sorted, hc.ahead,
          hc.behind, hc.segs, hc.wals, fun t ht => (hc.tables t ht).imp (fun hall n hn => ?_) id⟩
        rcases hall n hn with hlive | hrep
        · by_cases hin : n ∈ ins
          · exact Or.inr (List.mem_append_right _ (List.mem_filter.mpr ⟨hlive, by simpa using hin⟩))
          · exact Or.inl (List.mem_append_left _ (List.mem_filter.mpr ⟨hlive, by simpa using hin⟩))
        · exact Or.inr (List.mem_append_left _ hrep)
      have hs₁ : h₁.Slots := by
        refine ⟨hs.retiring, fun hon hw => ?_, fun s hd => ?_, hs.unflagged, hs.logged⟩
        · obtain ⟨m, hdisk, hcov, hnames⟩ := hs.newest hon hw
          exact ⟨m, hdisk, hcov, fun n hn => (hnames n hn).imp (List.mem_append_left _) id⟩
        · obtain ⟨hsl, hoff, m, b, hdisk, hnames, hcov⟩ := hs.due s hd
          exact ⟨hsl, hoff, m, b, hdisk, fun n hn => List.mem_append_left _ (hnames n hn), hcov⟩
      obtain ⟨hc₂, hs₂, -⟩ := publish_ok hc₁ hs₁ hsync₁ hfate
      exact ⟨hc₂, hs₂⟩

/-- **The store is closed.** -/
lemma stop_ok (hc : h.Core) (hs : h.Slots) {threadsOk : List Bool} {fate : PublishFate} {ok : Bool}
    (hthread : h.betweenPhases = true → threadsOk.head? = some true) :
    (h.stop threadsOk fate ok).Core ∧ (h.stop threadsOk fate ok).Slots := by
  set segs :=
    (h.sealing.zip threadsOk).flatMap (fun r => if r.2 then r.1.table.segs else []) with hsegs
  set h₁ : Landing := { h with synced := h.synced ++ segs, sealing := [], wedged := true } with hh₁
  have hsync : ∀ n ∈ h₁.live, n ∈ h₁.synced := by
    intro n hn
    rcases hc.live n hn with hn | ⟨j, hj, hlanded, hnj⟩
    · exact List.mem_append_left _ hn
    · refine List.mem_append_right _ ?_
      have hbetween : h.betweenPhases = true := by
        rw [betweenPhases, Option.mem_def.mp hj]
        exact hlanded
      obtain ⟨rest, hq⟩ := List.head?_eq_some_iff.mp hj
      obtain ⟨oks, ht⟩ := List.head?_eq_some_iff.mp (hthread hbetween)
      rw [hsegs, hq, ht, List.zip_cons_cons, List.flatMap_cons]
      exact List.mem_append_left _ hnj
  have hc₁ : h₁.Core := by
    refine ⟨fun n hn => Or.inl (hsync n hn), fun _ hk => absurd hk List.not_mem_nil,
      List.Pairwise.nil, fun _ hk => absurd hk List.not_mem_nil,
      fun _ hk => absurd hk List.not_mem_nil,
      fun _ hk => absurd hk List.not_mem_nil, fun _ hk => absurd hk List.not_mem_nil,
      fun t ht => ?_⟩
    exact (hc.tables t ht).imp id fun ⟨hle, _⟩ => ⟨hle, Or.inl rfl⟩
  have hs₁ : h₁.Slots := by
    refine ⟨fun w hw => ?_, fun _ hf => absurd hf (by simp [hh₁]), fun s hd => ?_, hs.unflagged,
      hs.logged⟩
    · exact (hs.retiring w hw).imp id fun ⟨hoff, hnone, _⟩ =>
        ⟨hoff, hnone, fun _ hk => absurd hk List.not_mem_nil⟩
    · obtain ⟨hsl, hoff, m, b, hdisk, hnames, hcov⟩ := hs.due s hd
      exact ⟨hsl, hoff, m, b, hdisk, fun n hn => List.mem_append_left _ (hnames n hn), hcov⟩
  have hstop : h.stop threadsOk fate ok
      = (if h₁.pendingOn && !h₁.pending.isEmpty then (h₁.publish fate).1 else h₁).syncOwedSlot ok :=
      rfl
  rw [hstop]
  split_ifs with hpend
  · have hon : h₁.pendingOn = true := (Bool.and_eq_true_iff.mp hpend).1
    obtain ⟨hc₂, hs₂, -⟩ := @publish_ok h₁ hc₁ hs₁ hsync fate fun hor => by
      rcases hor with ⟨-, hw⟩ | hd
      · exact absurd hw (by simp [hh₁])
      · obtain ⟨s, hd⟩ := Option.isSome_iff_exists.mp hd
        exact absurd (hon.symm.trans (hs₁.due s hd).2.1) (by decide)
    exact syncOwedSlot_ok hc₂ hs₂ ok
  · exact syncOwedSlot_ok hc₁ hs₁ ok

/-- A table handed to a seal. -/
lemma hand_ok (hc : h.Core) (hs : h.Slots) {t : SealedTable} {wals : List ClosedWal}
    {unsynced : Bool} (hmeets : (LandingOp.hand t wals unsynced).Meets h) :
    (h.step (.hand t wals unsynced)).Core ∧ (h.step (.hand t wals unsynced)).Slots := by
  obtain ⟨hne, hcov, hafter, hwals, hret, -⟩ := hmeets
  have hfront : ∀ n, (h.step (.hand t wals unsynced)).FrontSeg n ↔ h.FrontSeg n := by
    intro n
    cases hq : h.sealing with
    | nil => simp [FrontSeg, step, hq]
    | cons k rest => simp [FrontSeg, step, hq]
  have hmem : ∀ k ∈ (h.step (.hand t wals unsynced)).sealing,
      k ∈ h.sealing ∨ k = ⟨t, wals, false, unsynced⟩ := fun k hk =>
    (List.mem_append.mp hk).imp id List.mem_singleton.mp
  refine ⟨⟨?_, ?_, ?_, ?_, ?_, ?_, ?_, ?_⟩, ?_, ?_, hs.due, hs.unflagged, hs.logged⟩
  · exact fun n hn => (hc.live n hn).imp id (hfront n).mpr
  · intro k hk
    cases hq : h.sealing with
    | nil => simp [step, hq] at hk
    | cons x rest =>
        have hk' : k ∈ rest ++ [⟨t, wals, false, unsynced⟩] := by simpa [step, hq] using hk
        rcases List.mem_append.mp hk' with hk | hk
        · exact hc.rest_waiting hq k hk
        · rw [List.mem_singleton.mp hk]
  · refine List.pairwise_append.mpr ⟨hc.sorted, List.pairwise_singleton _ _, fun a ha b hb => ?_⟩
    rw [List.mem_singleton.mp hb]
    exact hafter a ha
  · intro k hk hkl
    rcases hmem k hk with hk | rfl
    · exact hc.ahead k hk hkl
    · exact hcov
  · intro k hk hkl
    rcases hmem k hk with hk | rfl
    · exact hc.behind k hk hkl
    · exact absurd hkl (by simp)
  · intro k hk
    rcases hmem k hk with hk | rfl
    · exact hc.segs k hk
    · exact hne
  · intro k hk
    rcases hmem k hk with hk | rfl
    · exact hc.wals k hk
    · exact hwals
  · intro t' ht'
    rcases List.mem_append.mp ht' with ht' | ht'
    · refine (hc.tables t' ht').imp id fun ⟨hle, hor⟩ => ⟨hle, hor.imp id fun ⟨k, hk, hkt⟩ => ?_⟩
      exact ⟨k, List.mem_append_left _ hk, hkt⟩
    · rw [List.mem_singleton.mp ht']
      exact Or.inr ⟨hcov, Or.inr ⟨_, List.mem_append_right _ (List.mem_singleton_self _), rfl, rfl⟩⟩
  · intro w hw
    refine (hs.retiring w hw).imp id fun ⟨hoff, hnone, hall⟩ => ⟨hoff, hnone, fun k hk => ?_⟩
    rcases hmem k hk with hk | rfl
    · exact hall k hk
    · exact ⟨rfl, hret w hw⟩
  · intro hon hw
    obtain ⟨m, hdisk, hmcov, hnames⟩ := hs.newest hon hw
    exact ⟨m, hdisk, hmcov, fun n hn => (hnames n hn).imp id (hfront n).mpr⟩

/-- **One step** keeps the store in order. -/
lemma step_landing_ok (hc : h.Core) (hs : h.Slots) {op : LandingOp} (hmeets : op.Meets h) :
    (h.step op).Core ∧ (h.step op).Slots := by
  cases op with
  | hand t wals unsynced => exact hand_ok hc hs hmeets
  | landFrontReadable fate threadOk => exact landFrontReadable_ok hc hs hmeets
  | landFront draining threadOk fate pub => exact landFront_ok hc hs hmeets.1 hmeets.2
  | rewrite ins outs pub => exact rewrite_ok hc hs hmeets
  | syncOwed ok => exact syncOwedSlot_ok hc hs ok
  | stop threadsOk pub ok => exact stop_ok hc hs hmeets

/-- **A run** keeps the store in order. -/
lemma run_landing_ok (hc : h.Core) (hs : h.Slots) {ops : List LandingOp}
    (hmeets : LandingsMeet h ops) : (h.run ops).Slots := by
  induction ops generalizing h with
  | nil => exact hs
  | cons op ops ih =>
      obtain ⟨hc', hs'⟩ := step_landing_ok hc hs hmeets.1
      exact ih hc' hs' hmeets.2

lemma opened_ok (slots manifestPending flushWaits : Bool) (seq covered : ℕ) (names : List ℕ)
    (retiring : List ClosedWal)
    (hleft : (manifestPending && slots) = true → ∀ w ∈ retiring, w.last ≤ covered) :
    (opened slots manifestPending flushWaits seq covered names retiring).Core ∧
      (opened slots manifestPending flushWaits seq covered names retiring).Slots := by
  refine ⟨⟨fun n hn => Or.inl hn, fun _ hk => absurd hk List.not_mem_nil, List.Pairwise.nil,
    fun _ hk => absurd hk List.not_mem_nil, fun _ hk => absurd hk List.not_mem_nil,
    fun _ hk => absurd hk List.not_mem_nil, fun _ hk => absurd hk List.not_mem_nil,
    fun _ ht => absurd ht List.not_mem_nil⟩, fun w hw => ?_, fun hon _ => ?_,
    fun s hd => absurd hd (by simp [opened]), fun _ => rfl, fun _ he => absurd he List.not_mem_nil⟩
  · cases hp : (manifestPending && slots) with
    | true => exact Or.inl (hleft hp w hw)
    | false => exact Or.inr ⟨hp, rfl, fun _ hk => absurd hk List.not_mem_nil⟩
  · have hslots : slots = true := slots_of_pendingOn hon
    refine ⟨⟨covered, names, []⟩, ?_, rfl, fun n hn => Or.inl hn⟩
    simp [opened, hslots]

end Runs

end Landing

/-- **No manifest outruns the data it covers**, where every seal whose segments are live syncs them.
Over every interleaving of tables handed, readable and durable landings, failed landings, merges,
promotions, slots left unsynced and a close, under either shape: each manifest written names without
a flag only segments that are synced and covers no table but by its segments, and each log file
removed is behind a durable manifest that covers it and names only durable segments. -/
theorem landing_durable (slots manifestPending flushWaits : Bool) (seq covered : ℕ) (names : List ℕ)
    (retiring : List ClosedWal) (ops : List LandingOp)
    (hleft : (manifestPending && slots) = true → ∀ w ∈ retiring, w.last ≤ covered)
    (hmeets : LandingsMeet (.opened slots manifestPending flushWaits seq covered names retiring)
    ops) :
    ∀ e ∈ ((Landing.opened slots manifestPending flushWaits seq covered names retiring).run
      ops).log, e.Good := by
  obtain ⟨hc, hs⟩ := Landing.opened_ok slots manifestPending flushWaits seq covered names
    retiring hleft
  exact (Landing.run_landing_ok hc hs hmeets).logged

/-- Two seals under the pending shape: the second's readable landing removes the first's log file.
-/
theorem landing_durable_pending :
    let ops : List LandingOp := [.hand ⟨[1], 5⟩ [⟨0, 5⟩] false, .landFrontReadable .done true,
      .landFront false true .done .done, .hand ⟨[2], 9⟩ [⟨1, 9⟩] false,
      .landFrontReadable .done true]
    ((Landing.opened true true true 0 0 [] []).run ops).log.length = 3 ∧
      ∀ e ∈ ((Landing.opened true true true 0 0 [] []).run ops).log, e.Good := by
  refine ⟨by decide, landing_durable true true true 0 0 [] [] _ (fun _ w hw =>
    absurd hw List.not_mem_nil) ?_⟩
  refine ⟨by simp [LandingOp.Meets, Landing.opened], ⟨fun _ => rfl, ⟨fun _ => rfl, fun _ => rfl⟩,
    ?_, fun _ => rfl, trivial⟩⟩
  exact ⟨by decide, by decide, by decide, by decide, by decide, by decide⟩

/-- **A log file removed too early.**  A store opened with two log files holds the older one's
records in its table only.  Under the pending shape the first seal's readable landing, its manifest
durable, removes that file, while the segments that manifest flags are not synced: the only other
manifest covers nothing of it. -/
theorem landing_pending_early :
    ∃ e ∈ ((Landing.opened true true true 0 0 [] [⟨0, 5⟩]).run
      [.hand ⟨[1], 5⟩ [] false, .landFrontReadable .done true]).log, ¬ e.Good := by
  refine ⟨.removed ⟨0, 5⟩ _ [], List.mem_append_right _ (List.mem_singleton_self _), ?_⟩
  rintro ⟨s, m, hdisk, hcov, hnames⟩
  cases s with
  | false =>
      have hm : ⟨0, [], []⟩ = m := (Prod.mk.inj (Option.some.inj hdisk)).1
      subst hm
      exact absurd hcov (by decide)
  | true =>
      have hm : ⟨5, [1], [1]⟩ = m := (Prod.mk.inj (Option.some.inj hdisk)).1
      subst hm
      exact absurd (hnames 1 (List.mem_singleton_self 1)) List.not_mem_nil

end Supdb
