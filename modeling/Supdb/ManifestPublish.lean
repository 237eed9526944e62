import Supdb.Manifest

/-!
# Publishing a manifest

A store publishes its manifest under one of two **shapes**.  Under the slots, sequence `n` is
written in place into slot `n % 2` and synced, so that the one before it stands in the other slot
meanwhile.  Under the rename shape it is written to a temp name, synced and renamed over the first
slot, whatever its sequence.  A **history** is any sequence of opens, each under either shape,
publishes begun and completed, process ends and power losses; a write no sync has covered may be
there, not be there, or be torn.

* `ManifestHist.step` – one of them; `ManifestOp.Meets` – what the writers rely on.
* `publish_atomic` – where every slot written in place is the one the store's manifest does *not*
  stand in, and that one is synced, a crash at any point leaves the last publish completed, or one
  begun since.
* `publish_shapes_torn` – a store published by rename and then by slot: a crash leaves nothing to
  open.
-/

namespace Supdb

open StorageLib

/-! ## Slots and publishes -/

/-- `manifest_slot`: the slot of a sequence, `manifest` or `manifest.alt`. -/
def manifestSlot (seq : ℕ) : Bool := seq % 2 = 1

/-- A slot's file: what it holds, what else a crash may leave of it whole, and whether a crash may
tear it. -/
structure SlotFile where
  now : Bytes
  olds : List Bytes
  torn : Bool

/-- What a power loss leaves of a slot. -/
inductive SlotLoss where
  | keeps
  | reverts (i : ℕ)
  | tears (bytes : Bytes)

namespace SlotFile

/-- What a crash may leave whole. -/
def whole (f : SlotFile) : List Bytes := f.now :: f.olds

/-- Nothing of the file is in doubt. -/
def Synced (f : SlotFile) : Prop := f.olds = [] ∧ f.torn = false

/-- A slot written in place. -/
def overwrite (f : SlotFile) (data : Bytes) : SlotFile :=
  ⟨writeAt f.now 0 data, f.whole, true⟩

/-- A synced file renamed over the slot. -/
def replace (f : SlotFile) (data : Bytes) : SlotFile := ⟨data, f.whole, f.torn⟩

/-- The slot's sync, or for a rename the directory's. -/
def sync (f : SlotFile) : SlotFile := ⟨f.now, [], false⟩

/-- After a power loss. -/
def lose (f : SlotFile) : SlotLoss → SlotFile
  | .keeps => ⟨f.now, [], false⟩
  | .reverts i => ⟨f.olds[i]?.getD f.now, [], false⟩
  | .tears bytes => ⟨if f.torn then bytes else f.now, [], false⟩

end SlotFile

/-- A torn write fails its checksum. -/
def SlotLoss.Possible : SlotLoss → Prop
  | .tears bytes => standing bytes = none
  | _ => True

/-- The segment work's side: its shape, the sequence it is at, the slot the manifest of that
sequence stands in, and whether the last publish is still to be synced. -/
structure Publisher where
  slots : Bool
  seq : ℕ
  stands : Option Bool
  due : Bool

/-- A store's manifests over its life: the two slots, the process that has it open, the last publish
completed, and those begun since. -/
structure ManifestHist where
  slot : Bool → SlotFile
  proc : Option Publisher
  done : Option Manifest
  begun : List Manifest

/-- What happens: an open under a shape, told whether the pending segments it finds read back whole
and what it finds in a directory without a manifest; a publish begun, and its sync; a process gone;
and a power loss. -/
inductive ManifestOp where
  | opens (slots pendingWhole : Bool) (covered : ℕ) (names : List String)
  | publish (covered : ℕ) (names pending : List String)
  | complete
  | exit
  | powerLoss (loss : Bool → SlotLoss)

namespace ManifestHist

/-- A publish of sequence `seq` by a process under either shape: `manifest_write_slot_unsynced`, or
`manifest_write` as far as its rename. -/
def begins (h : ManifestHist) (slots : Bool) (seq covered : ℕ) (names pending : List String) :
    ManifestHist :=
  let pending := if slots then pending else []
  let data := manifestEncode seq covered names pending
  let s := if slots then manifestSlot seq else false
  let file := if slots then (h.slot s).overwrite data else (h.slot s).replace data
  { slot := Function.update h.slot s file, proc := some ⟨slots, seq, some s, true⟩, done := h.done,
    begun := h.begun ++ [⟨3, seq, covered, names, names.filter (· ∈ pending)⟩] }

/-- `Db::create`, its first manifest begun. -/
def create (slots : Bool) : ManifestHist :=
  begins ⟨fun _ => ⟨[], [], false⟩, none, none, []⟩ slots 0 0 [] []

/-- What the slots read as. -/
def readAll (h : ManifestHist) : Except String (List Manifest) :=
  manifestReadAll [(h.slot false).now, (h.slot true).now]

/-- The slot a manifest stands in. -/
def slotOf (h : ManifestHist) (m : Manifest) : Bool := standing (h.slot false).now ≠ some m

/-- The process an open starts, over the manifest it goes by. -/
def opened (h : ManifestHist) (slots : Bool) (m : Manifest) : ManifestHist :=
  { h with proc := some ⟨slots, m.seq, some (h.slotOf m), false⟩ }

/-- Whether an open passes the newest manifest over: its pending segments do not read back whole. -/
def skips (pendingWhole : Bool) : List Manifest → Bool
  | [] => false
  | m :: _ => m.pending ≠ [] ∧ ¬ pendingWhole

/-- `Db::open`, its manifest.  Where there is none it begins one, naming what the directory holds;
and under the slots, where the newest was passed over or has pending names, one that names them
durable. -/
def opens (h : ManifestHist) (slots pendingWhole : Bool) (covered : ℕ) (names : List String) :
    Except String ManifestHist := do
  let ms ← h.readAll
  let skipped := skips pendingWhole ms
  match (if skipped then ms.tail else ms) with
  | [] => .ok (h.begins slots 1 covered names [])
  | m :: _ =>
      .ok (if slots ∧ (skipped ∨ m.pending ≠ []) then h.begins slots (m.seq + 1) m.covered m.names []
        else h.opened slots m)

/-- The sync a publish waits for, done. -/
def complete (h : ManifestHist) : ManifestHist :=
  match h.proc with
  | some ⟨slots, seq, some s, true⟩ =>
      { slot := Function.update h.slot s (h.slot s).sync, proc := some ⟨slots, seq, some s, false⟩,
        done := h.begun.getLast?, begun := [] }
  | _ => h

/-- After a power loss. -/
def lose (h : ManifestHist) (loss : Bool → SlotLoss) : ManifestHist :=
  { h with slot := fun s => (h.slot s).lose (loss s), proc := none }

/-- An open, a publish, its completion, an exit or a power loss. -/
def step (h : ManifestHist) : ManifestOp → Except String ManifestHist
  | .opens slots pendingWhole covered names => h.opens slots pendingWhole covered names
  | .publish covered names pending =>
      .ok (match h.proc with
        | some p => h.begins p.slots (p.seq + 1) covered names pending
        | none => h)
  | .complete => .ok h.complete
  | .exit => .ok { h with proc := none }
  | .powerLoss loss => .ok (h.lose loss)

/-- Opens, publishes and losses of power in any order. -/
def run (h : ManifestHist) (ops : List ManifestOp) : Except String ManifestHist := ops.foldlM step h

/-- The last publish completed, and those begun since. -/
def recent (h : ManifestHist) : List Manifest := h.done.toList ++ h.begun

/-- A slot may be written in place: it is not the one the store's manifest stands in, and nothing of
that one is in doubt. -/
def Spare (h : ManifestHist) (seq : ℕ) (stands : Option Bool) : Prop :=
  ∀ s, stands = some s → s ≠ manifestSlot (seq + 1) ∧ (h.slot s).Synced

end ManifestHist

/-- What the writers can rely on.  A publish fits its fields, and one written in place has a spare
slot. An open that passes the newest manifest over finds the last publish completed, or one begun
since, in the other slot.  A torn write fails its checksum. -/
def ManifestOp.Meets (h : ManifestHist) : ManifestOp → Prop
  | .opens slots pendingWhole covered names =>
      ManifestFits 1 covered names [] ∧ ∀ ms, h.readAll = .ok ms →
        (ManifestHist.skips pendingWhole ms = true →
          ∃ m, ms.tail = [m] ∧ (h.done ≠ none → m ∈ h.recent)) ∧
        ∀ m, (if ManifestHist.skips pendingWhole ms then ms.tail else ms).head? = some m →
          slots = true → (ManifestHist.skips pendingWhole ms = true ∨ m.pending ≠ []) →
          ManifestFits (m.seq + 1) m.covered m.names [] ∧ h.Spare m.seq (some (h.slotOf m))
  | .publish covered names pending => ∀ p, h.proc = some p →
      ManifestFits (p.seq + 1) covered names (if p.slots then pending else []) ∧
        (p.slots = true → h.Spare p.seq p.stands)
  | .powerLoss loss => ∀ s, (loss s).Possible
  | _ => True

/-- Every step of a history finds what it relies on. -/
def ManifestsMeet : ManifestHist → List ManifestOp → Prop
  | _, [] => True
  | h, op :: ops => op.Meets h ∧ ∀ h', h.step op = .ok h' → ManifestsMeet h' ops

/-- **Crash-atomic**: once a publish has completed, whatever a power loss takes, the slots read, and
the newest manifest is the last publish completed or one begun since. -/
def ManifestHist.Atomic (h : ManifestHist) : Prop :=
  h.done ≠ none → ∀ loss : Bool → SlotLoss, (∀ s, (loss s).Possible) →
    ∃ m ms, (h.lose loss).readAll = .ok (m :: ms) ∧ m ∈ h.recent

/-! ## The invariant -/

/-- A slot may come to show a manifest. -/
def SlotFile.Shows (f : SlotFile) (m : Manifest) : Prop := ∃ b ∈ f.whole, standing b = some m

/-- A slot holds a manifest newer than all else a crash may leave of it, or nothing in doubt. -/
def SlotFile.Sound (f : SlotFile) : Prop :=
  (∃ m, standing f.now = some m ∧ ∀ m', f.Shows m' → m'.seq ≤ m.seq) ∨
    (standing f.now = none ∧ f.Synced)

/-- The slot a crash cannot take: all it may show is recent, and what the other may show is too, or
reads behind it. -/
def ManifestHist.Anchor (h : ManifestHist) (s : Bool) : Prop :=
  (h.slot s).torn = false ∧ (∀ b ∈ (h.slot s).whole, ∃ m ∈ h.recent, standing b = some m) ∧
    ∀ m m', (h.slot !s).Shows m → (h.slot s).Shows m' →
      m ∈ h.recent ∨ m.seq < m'.seq ∨ (m.seq = m'.seq ∧ s = false)

/-- What a process that has the store open knows: where the manifest of its sequence stands, and
that the other slot shows nothing newer than the next. -/
def ManifestHist.Knows (h : ManifestHist) (p : Publisher) : Prop :=
  match p.stands with
  | none => p.due = false ∧ ∀ s m, ¬ (h.slot s).Shows m
  | some s => ∃ m, standing (h.slot s).now = some m ∧ m.seq = p.seq ∧
      (h.done ≠ none → m ∈ h.recent) ∧
      (∀ m', (h.slot !s).Shows m' → m'.seq ≤ p.seq + 1) ∧
      (p.due = true → h.begun.getLast? = some m ∧
        ∀ m', (h.slot !s).Shows m' → m'.seq < p.seq ∨ (m'.seq = p.seq ∧ s = false))

/-- The invariant of a history. -/
structure ManifestHist.Ok (h : ManifestHist) : Prop where
  sound : ∀ s, (h.slot s).Sound
  pending : ∀ s m m', (h.slot s).Shows m → m.pending ≠ [] → (h.slot !s).Shows m' →
    m.seq ≤ m'.seq + 1
  anchor : h.done ≠ none → ∃ s, h.Anchor s
  proc : ∀ p, h.proc = some p → h.Knows p

namespace SlotFile

variable {f : SlotFile} {m : Manifest}

lemma shows_now (h : standing f.now = some m) : f.Shows m := ⟨f.now, List.mem_cons_self, h⟩

lemma Sound.le (hs : f.Sound) {m' : Manifest} (h : standing f.now = some m) (hm' : f.Shows m') :
    m'.seq ≤ m.seq := by
  rcases hs with ⟨x, hx, hle⟩ | ⟨hnone, -⟩
  · rw [hx] at h
    exact Option.some.inj h ▸ hle m' hm'
  · exact absurd (hnone.symm.trans h) (by simp)

lemma Synced.shows (hs : f.Synced) (h : f.Shows m) : standing f.now = some m := by
  obtain ⟨b, hb, hm⟩ := h
  rw [whole, hs.1] at hb
  rwa [List.mem_singleton.mp hb] at hm

lemma Sound.not_shows (hs : f.Sound) (hnone : standing f.now = none) : ¬ f.Shows m := by
  intro h
  rcases hs with ⟨x, hx, -⟩ | ⟨-, hsync⟩
  · exact absurd (hnone.symm.trans hx) (by simp)
  · exact absurd (hnone.symm.trans (hsync.shows h)) (by simp)

lemma shows_sync (h : f.sync.Shows m) : standing f.now = some m :=
  Synced.shows (f := f.sync) ⟨rfl, rfl⟩ h

/-- What a power loss leaves of a slot it may have left whole, or is torn. -/
lemma now_lose {loss : SlotLoss} (hposs : loss.Possible) :
    (f.lose loss).now ∈ f.whole ∨ (f.torn = true ∧ standing (f.lose loss).now = none) := by
  cases loss with
  | keeps => exact Or.inl List.mem_cons_self
  | reverts i =>
      refine Or.inl ?_
      cases hi : f.olds[i]? with
      | none => simp [lose, hi, whole]
      | some b => simpa [lose, hi, whole] using Or.inr (List.mem_of_getElem? hi)
  | tears bytes =>
      by_cases ht : f.torn = true
      · exact Or.inr ⟨ht, by rw [lose, if_pos ht]; exact hposs⟩
      · refine Or.inl ?_
        rw [lose, if_neg ht]
        exact List.mem_cons_self

lemma synced_lose (f : SlotFile) (loss : SlotLoss) : (f.lose loss).Synced := by
  cases loss <;> exact ⟨rfl, rfl⟩

lemma shows_of_lose {loss : SlotLoss} (hposs : loss.Possible) (h : (f.lose loss).Shows m) :
    f.Shows m := by
  have hnow := (f.synced_lose loss).shows h
  rcases now_lose hposs with hmem | ⟨-, hnone⟩
  · exact ⟨_, hmem, hnow⟩
  · exact absurd (hnone.symm.trans hnow) (by simp)

lemma sound_of_synced (h : f.Synced) : f.Sound := by
  cases hm : standing f.now with
  | none => exact Or.inr ⟨hm, h⟩
  | some m =>
      refine Or.inl ⟨m, hm, fun m' hm' => ?_⟩
      rw [Option.some.inj (hm.symm.trans (h.shows hm'))]

end SlotFile

/-! ## Steps -/

namespace ManifestHist

variable {h : ManifestHist}

/-- What reads newest where one slot's manifest is recent, and the other's is or reads behind it. -/
lemma newestOf_recent {R : List Manifest} {s : Bool} {x : Bool → Option Manifest} {m : Manifest}
    (hm : m ∈ R) (hx : x s = some m)
    (hother : ∀ m', x (!s) = some m' → m' ∈ R ∨ m'.seq < m.seq ∨ (m'.seq = m.seq ∧ s = false)) :
    ∃ n ∈ R, newestOf (x false) (x true) = some n := by
  cases s with
  | false =>
      rw [hx]
      cases hy : x true with
      | none => exact ⟨m, hm, rfl⟩
      | some y =>
          rw [newestOf]
          split_ifs with hle
          · exact ⟨m, hm, rfl⟩
          · refine ⟨y, ?_, rfl⟩
            rcases hother y hy with hR | hlt | ⟨heq, -⟩
            · exact hR
            · exact absurd (le_of_lt hlt) hle
            · exact absurd (le_of_eq heq) hle
  | true =>
      rw [hx]
      cases hy : x false with
      | none => exact ⟨m, hm, rfl⟩
      | some y =>
          rw [newestOf]
          split_ifs with hle
          · refine ⟨y, ?_, rfl⟩
            rcases hother y hy with hR | hlt | ⟨-, hs⟩
            · exact hR
            · exact absurd hle (not_le.mpr hlt)
            · exact absurd hs (by decide)
          · exact ⟨m, hm, rfl⟩

/-- The slot a crash cannot take is still that after it. -/
lemma Anchor.lose {s : Bool} (ha : h.Anchor s) {loss : Bool → SlotLoss}
    (hposs : ∀ s, (loss s).Possible) : (h.lose loss).Anchor s := by
  obtain ⟨htorn, hwhole, hother⟩ := ha
  have hnow : ((h.slot s).lose (loss s)).now ∈ (h.slot s).whole := by
    rcases SlotFile.now_lose (f := h.slot s) (hposs s) with hmem | ⟨ht, -⟩
    · exact hmem
    · exact absurd (htorn.symm.trans ht) (by decide)
  refine ⟨(SlotFile.synced_lose _ _).2, ?_, ?_⟩
  · intro b hb
    have hb' : b = ((h.slot s).lose (loss s)).now := by
      rw [SlotFile.whole] at hb
      have holds : ((h.lose loss).slot s).olds = [] := (SlotFile.synced_lose _ _).1
      rw [holds] at hb
      exact List.mem_singleton.mp hb
    exact hwhole b (hb' ▸ hnow)
  · intro m m' hm hm'
    exact hother m m' (SlotFile.shows_of_lose (hposs !s) hm) (SlotFile.shows_of_lose (hposs s) hm')

/-- The slots read, with a recent manifest first. -/
lemma Anchor.readAll {s : Bool} (ha : h.Anchor s) :
    ∃ m ∈ h.recent, newestOf (standing (h.slot false).now) (standing (h.slot true).now)
    = some m := by
  obtain ⟨-, hwhole, hother⟩ := ha
  obtain ⟨m, hm, hs⟩ := hwhole _ List.mem_cons_self
  exact newestOf_recent (x := fun s => standing (h.slot s).now) hm hs fun m' hm' =>
    hother m' m (SlotFile.shows_now hm') (SlotFile.shows_now hs)

/-- **A history in order is crash-atomic** where it stands. -/
lemma Ok.atomic (hok : h.Ok) : h.Atomic := by
  intro hdone loss hposs
  obtain ⟨s, ha⟩ := hok.anchor hdone
  obtain ⟨m, hm, hnew⟩ := (ha.lose hposs).readAll
  exact ⟨m, _, manifestReadAll_pair hnew, hm⟩

lemma ok_lose (hok : h.Ok) {loss : Bool → SlotLoss} (hposs : ∀ s, (loss s).Possible) :
    (h.lose loss).Ok where
  sound s := SlotFile.sound_of_synced (SlotFile.synced_lose _ _)
  pending s m m' hm hp hm' := hok.pending s m m' (SlotFile.shows_of_lose (hposs s) hm) hp
    (SlotFile.shows_of_lose (hposs !s) hm')
  anchor hdone := (hok.anchor hdone).imp fun _ ha => ha.lose hposs
  proc p hp := absurd hp (by simp [ManifestHist.lose])

lemma ok_exit (hok : h.Ok) : ({ h with proc := none } : ManifestHist).Ok :=
  ⟨hok.sound, hok.pending, hok.anchor, fun p hp => absurd hp (by simp)⟩

/-- **A publish completed** is what every crash leaves from then on. -/
lemma ok_complete (hok : h.Ok) : h.complete.Ok := by
  cases hp : h.proc with
  | none => rwa [complete, hp]
  | some p =>
      obtain ⟨slots, seq, stands, due⟩ := p
      cases hst : stands with
      | none => rwa [complete, hp, hst]
      | some s =>
          cases hd : due with
          | false => rwa [complete, hp, hst, hd]
          | true =>
              subst hst hd
              obtain ⟨m, hnow, hseq, -, hnext, hdue⟩ := hok.proc _ hp
              obtain ⟨hlast, hbehind⟩ := hdue rfl
              have hsame : h.complete.slot s = (h.slot s).sync := by simp [complete, hp]
              have hother : h.complete.slot (!s) = h.slot (!s) := by simp [complete, hp]
              have hrecent : h.complete.recent = [m] := by simp [recent, complete, hp, hlast]
              have hshows : ∀ m', (h.complete.slot s).Shows m' → m' = m := by
                intro m' hm'
                rw [hsame] at hm'
                exact Option.some.inj ((SlotFile.shows_sync hm').symm.trans hnow)
              have hsub : ∀ t m', (h.complete.slot t).Shows m' → (h.slot t).Shows m' := by
                intro t m' hm'
                rcases eq_or_ne t s with rfl | hne
                · rw [hshows m' hm']
                  exact SlotFile.shows_now hnow
                · rwa [Bool.eq_not_of_ne hne, hother, ← Bool.eq_not_of_ne hne] at hm'
              refine ⟨?_, ?_, ?_, ?_⟩
              · intro t
                rcases eq_or_ne t s with rfl | hne
                · rw [hsame]
                  exact SlotFile.sound_of_synced ⟨rfl, rfl⟩
                · rw [Bool.eq_not_of_ne hne, hother]
                  exact hok.sound _
              · exact fun t x y hx hpx hy => hok.pending t x y (hsub _ _ hx) hpx (hsub _ _ hy)
              · refine fun _ => ⟨s, by rw [hsame]; rfl, ?_, ?_⟩
                · intro b hb
                  rw [hsame, SlotFile.whole, SlotFile.sync, List.mem_singleton] at hb
                  exact ⟨m, by rw [hrecent]; exact List.mem_singleton_self m, hb ▸ hnow⟩
                · intro x y hx hy
                  rw [hshows y hy, hseq]
                  exact Or.inr (hbehind x (hsub _ _ hx))
              · intro p' hp'
                have heq : p' = ⟨slots, seq, some s, false⟩ := by
                  simpa [complete, hp] using hp'.symm
                subst heq
                refine ⟨m, by rw [hsame]; exact hnow, hseq, ?_, ?_, fun hf => absurd hf (by simp)⟩
                · rw [hrecent]
                  exact fun _ => List.mem_singleton_self m
                · exact fun m' hm' => hnext m' (hsub _ _ hm')

/-- The manifest a publish begins. -/
def published (slots : Bool) (seq covered : ℕ) (names pending : List String) : Manifest :=
  ⟨3, seq, covered, names, names.filter (· ∈ if slots then pending else [])⟩

section Begins

variable {slots : Bool} {seq covered : ℕ} {names pending : List String}

lemma standing_overwrite (f : SlotFile) (hfits : ManifestFits seq covered names pending) :
    standing (f.overwrite (manifestEncode seq covered names pending)).now
      = some ⟨3, seq, covered, names, names.filter (· ∈ pending)⟩ := by
  rw [SlotFile.overwrite, writeAt, List.take_zero, Nat.zero_sub, List.replicate_zero,
    List.nil_append, List.nil_append]
  exact standing_encode hfits _

lemma standing_replace (f : SlotFile) (hfits : ManifestFits seq covered names pending) :
    standing (f.replace (manifestEncode seq covered names pending)).now
      = some ⟨3, seq, covered, names, names.filter (· ∈ pending)⟩ := by
  have h := standing_encode hfits []
  rwa [List.append_nil] at h

/-- **A publish begun**: the slot it goes to shows its manifest too, or what it might have shown,
and the rest is as it was. -/
structure Begun (h h' : ManifestHist) (slots : Bool) (seq : ℕ) (s : Bool) (m : Manifest) :
    Prop where
  slot_eq : slots = true ∧ s = manifestSlot seq ∨ slots = false ∧ s = false
  now : standing (h'.slot s).now = some m
  whole : ∀ b ∈ (h'.slot s).whole, b = (h'.slot s).now ∨ b ∈ (h.slot s).whole
  torn : slots = false → (h'.slot s).torn = (h.slot s).torn
  other : h'.slot (!s) = h.slot (!s)
  proc : h'.proc = some ⟨slots, seq, some s, true⟩
  done : h'.done = h.done
  begun : h'.begun = h.begun ++ [m]

lemma begun_begins (h : ManifestHist) (pending : List String)
    (hfits : ManifestFits seq covered names (if slots then pending else [])) :
    ∃ s, Begun h (h.begins slots seq covered names pending) slots seq s
      (published slots seq covered names pending) := by
  cases slots with
  | true =>
      have hsame : (h.begins true seq covered names pending).slot (manifestSlot seq)
          = (h.slot (manifestSlot seq)).overwrite (manifestEncode seq covered names pending) :=
        Function.update_self _ _ _
      refine ⟨manifestSlot seq, Or.inl ⟨rfl, rfl⟩, ?_, ?_, fun hf => absurd hf (by decide),
        Function.update_of_ne (by simp) _ _, rfl, rfl, rfl⟩
      · rw [hsame]
        exact standing_overwrite _ hfits
      · rw [hsame]
        exact fun b hb => List.mem_cons.mp hb
  | false =>
      have hsame : (h.begins false seq covered names pending).slot false
          = (h.slot false).replace (manifestEncode seq covered names []) := by
        simp [begins]
      refine ⟨false, Or.inr ⟨rfl, rfl⟩, ?_, ?_, fun _ => by rw [hsame]; rfl, by simp [begins], rfl, rfl,
        rfl⟩
      · rw [hsame]
        exact standing_replace _ hfits
      · rw [hsame]
        exact fun b hb => List.mem_cons.mp hb

end Begins

namespace Begun

variable {h' : ManifestHist} {slots : Bool} {seq : ℕ} {s : Bool} {m : Manifest}

lemma shows (hb : Begun h h' slots seq s m) {m' : Manifest} (hm' : (h'.slot s).Shows m') :
    m' = m ∨ (h.slot s).Shows m' := by
  obtain ⟨b, hmem, hstand⟩ := hm'
  rcases hb.whole b hmem with rfl | hold
  · exact Or.inl (Option.some.inj (hstand.symm.trans hb.now))
  · exact Or.inr ⟨b, hold, hstand⟩

lemma recent (hb : Begun h h' slots seq s m) : h'.recent = h.recent ++ [m] := by
  rw [ManifestHist.recent, ManifestHist.recent, hb.done, hb.begun, List.append_assoc]

lemma mem_recent (hb : Begun h h' slots seq s m) : m ∈ h'.recent := by
  rw [hb.recent]
  exact List.mem_append_right _ (List.mem_singleton_self m)

lemma recent_mono (hb : Begun h h' slots seq s m) {m' : Manifest} (hm' : m' ∈ h.recent) :
    m' ∈ h'.recent := by
  rw [hb.recent]
  exact List.mem_append_left _ hm'

lemma other_of_ne (hb : Begun h h' slots seq s m) {t : Bool} (hne : t ≠ s) :
    h'.slot t = h.slot t := by
  rw [Bool.eq_not_of_ne hne]
  exact hb.other

lemma last (hb : Begun h h' slots seq s m) : h'.begun.getLast? = some m := by
  rw [hb.begun, List.getLast?_append, List.getLast?_singleton]
  rfl

/-- A slot written shows nothing newer than the new manifest, where it did not before. -/
lemma sound (hb : Begun h h' slots seq s m) (hok : h.Ok)
    (hle : ∀ m', (h.slot s).Shows m' → m'.seq ≤ m.seq) (t : Bool) : (h'.slot t).Sound := by
  rcases eq_or_ne t s with rfl | hne
  · refine Or.inl ⟨m, hb.now, fun m' hm' => ?_⟩
    rcases hb.shows hm' with rfl | hold
    · exact le_refl _
    · exact hle m' hold
  · rw [hb.other_of_ne hne]
    exact hok.sound t

/-- A slot the new manifest did not go to, synced and recent, is one a crash cannot take. -/
lemma anchor_other (hb : Begun h h' slots seq s m) (hok : h.Ok) (hdone : h.done ≠ none)
    {x : Manifest} (hsync : (h.slot !s).Synced) (hnow : standing (h.slot !s).now = some x)
    (hx : x ∈ h.recent) : h'.Anchor (!s) := by
  refine ⟨by rw [hb.other]; exact hsync.2, ?_, ?_⟩
  · intro b hmem
    rw [hb.other, SlotFile.whole, hsync.1, List.mem_singleton] at hmem
    exact ⟨x, hb.recent_mono hx, hmem ▸ hnow⟩
  · intro y z hy hz
    rw [Bool.not_not] at hy
    rw [hb.other] at hz
    rcases hb.shows hy with rfl | hold
    · exact Or.inl hb.mem_recent
    · obtain ⟨t, -, hwhole, hord⟩ := hok.anchor hdone
      rcases eq_or_ne t s with rfl | hne
      · obtain ⟨b, hmem, hstand⟩ := hold
        obtain ⟨y', hy', hyeq⟩ := hwhole b hmem
        exact Or.inl (hb.recent_mono (Option.some.inj (hyeq.symm.trans hstand) ▸ hy'))
      · have ht := Bool.eq_not_of_ne hne
        rcases hord y z (by rwa [ht, Bool.not_not]) (ht ▸ hz) with hrec | hord
        · exact Or.inl (hb.recent_mono hrec)
        · exact Or.inr (ht ▸ hord)

/-- A slot renamed over is still one a crash cannot take, if it was, and so is the other. -/
lemma anchor_renamed (hb : Begun h h' false seq s m) {t : Bool} (ha : h.Anchor t)
    (hle : ∀ m', (h.slot !s).Shows m' → m'.seq ≤ m.seq) : h'.Anchor t := by
  have hs : s = false := by
    rcases hb.slot_eq with ⟨hf, -⟩ | ⟨-, hs⟩
    · exact absurd hf (by decide)
    · exact hs
  obtain ⟨htorn, hwhole, hord⟩ := ha
  rcases eq_or_ne t s with rfl | hne
  · refine ⟨(hb.torn rfl).trans htorn, ?_, ?_⟩
    · intro b hmem
      rcases hb.whole b hmem with rfl | hold
      · exact ⟨m, hb.mem_recent, hb.now⟩
      · obtain ⟨x, hx, hstand⟩ := hwhole b hold
        exact ⟨x, hb.recent_mono hx, hstand⟩
    · intro y z hy hz
      rw [hb.other] at hy
      rcases hb.shows hz with rfl | hold
      · exact Or.inr ((Nat.lt_or_eq_of_le (hle y hy)).imp id (fun he => ⟨he, hs⟩))
      · exact (hord y z hy hold).imp hb.recent_mono id
  · have hsame := hb.other_of_ne hne
    have ht := Bool.eq_not_of_ne hne
    refine ⟨hsame ▸ htorn, ?_, ?_⟩
    · intro b hmem
      obtain ⟨x, hx, hstand⟩ := hwhole b (hsame ▸ hmem)
      exact ⟨x, hb.recent_mono hx, hstand⟩
    · intro y z hy hz
      rw [ht, Bool.not_not] at hy
      rw [hsame] at hz
      rcases hb.shows hy with rfl | hold
      · exact Or.inl hb.mem_recent
      · exact (hord y z (by rwa [ht, Bool.not_not]) hz).imp hb.recent_mono id

end Begun

section Begin

variable {slots : Bool} {seq covered : ℕ} {names pending : List String}

/-- A publish begun over slots that show nothing. -/
lemma ok_begins_first (hok : h.Ok) (hnone : ∀ s m, ¬ (h.slot s).Shows m)
    (hfits : ManifestFits seq covered names (if slots then pending else [])) :
    (h.begins slots seq covered names pending).Ok := by
  obtain ⟨s, hb⟩ := begun_begins h pending hfits
  have hall : ∀ m', ((h.begins slots seq covered names pending).slot (!s)).Shows m' → False := by
    intro m' hm'
    rw [hb.other] at hm'
    exact hnone _ _ hm'
  refine ⟨hb.sound hok (fun m' hm' => absurd hm' (hnone _ _)), ?_, ?_, ?_⟩
  · intro t x y hx _ hy
    rcases eq_or_ne t s with rfl | hne
    · exact (hall y hy).elim
    · exact (hall x (Bool.eq_not_of_ne hne ▸ hx)).elim
  · intro hdone
    rw [hb.done] at hdone
    obtain ⟨t, -, hwhole, -⟩ := hok.anchor hdone
    obtain ⟨x, -, hx⟩ := hwhole _ List.mem_cons_self
    exact absurd (SlotFile.shows_now hx) (hnone t x)
  · intro p hp
    rw [← Option.some.inj (hb.proc.symm.trans hp)]
    exact ⟨_, hb.now, rfl, fun _ => hb.mem_recent, fun m' hm' => (hall m' hm').elim,
      fun _ => ⟨hb.last, fun m' hm' => (hall m' hm').elim⟩⟩

/-- **A publish begun** by a process that knows where its manifest stands: under the slots into the
spare one, under the rename shape into the first. -/
lemma ok_begins (hok : h.Ok) {p : Publisher} {cur : Bool} (hstands : p.stands = some cur)
    (hknows : h.Knows p) (hspare : slots = true → h.Spare p.seq (some cur))
    (hfits : ManifestFits (p.seq + 1) covered names (if slots then pending else [])) :
    (h.begins slots (p.seq + 1) covered names pending).Ok := by
  obtain ⟨s, hb⟩ := begun_begins h pending hfits
  set h' := h.begins slots (p.seq + 1) covered names pending with hh'
  set m := published slots (p.seq + 1) covered names pending with hm
  have hseq : m.seq = p.seq + 1 := rfl
  rw [Knows, hstands] at hknows
  obtain ⟨x, hxnow, hxseq, hxmem, hnext, -⟩ := hknows
  -- nothing shown anywhere is newer than the new one
  have hle : ∀ t m', (h.slot t).Shows m' → m'.seq ≤ m.seq := by
    intro t m' hm'
    rcases eq_or_ne t cur with rfl | hne
    · have := (hok.sound t).le hxnow hm'
      omega
    · exact hnext m' (Bool.eq_not_of_ne hne ▸ hm')
  -- a slot written in place leaves the store's manifest in the other, alone
  have hcur : slots = true → (!s) = cur ∧ (h.slot cur).Synced := by
    intro hslots
    obtain ⟨hne, hsync⟩ := hspare hslots cur rfl
    rcases hb.slot_eq with ⟨-, hs⟩ | ⟨hf, -⟩
    · rw [hs]
      exact ⟨(Bool.eq_not_of_ne hne).symm, hsync⟩
    · exact absurd (hslots.symm.trans hf) (by decide)
  have hbehind : ∀ m', (h.slot !s).Shows m' → m'.seq < m.seq ∨ (m'.seq = m.seq ∧ s = false) := by
    intro m' hm'
    rcases hb.slot_eq with ⟨hslots, -⟩ | ⟨-, hs⟩
    · rw [(hcur hslots).1] at hm'
      have := (hok.sound cur).le hxnow hm'
      omega
    · exact (Nat.lt_or_eq_of_le (hle _ m' hm')).imp id (fun he => ⟨he, hs⟩)
  refine ⟨hb.sound hok (hle s), ?_, ?_, ?_⟩
  · intro t y z hy hpend hz
    rcases eq_or_ne t s with rfl | hne
    · rw [hb.other] at hz
      rcases hb.shows hy with rfl | hold
      · -- a name is pending only under the slots
        cases hslots : slots with
        | false => exact absurd (by simp [hm, published, hslots]) hpend
        | true =>
            obtain ⟨hother, hsync⟩ := hcur hslots
            rw [hother] at hz
            have hzx := Option.some.inj ((hsync.shows hz).symm.trans hxnow)
            rw [hzx]
            omega
      · exact hok.pending t y z hold hpend hz
    · have ht := Bool.eq_not_of_ne hne
      rw [hb.other_of_ne hne] at hy
      rw [ht, Bool.not_not] at hz
      rcases hb.shows hz with rfl | hold
      · exact (hle _ _ hy).trans (Nat.le_succ _)
      · exact hok.pending t y z hy hpend (by rwa [ht, Bool.not_not])
  · intro hdone
    rw [hb.done] at hdone
    cases hslots : slots with
    | true =>
        obtain ⟨hother, hsync⟩ := hcur hslots
        exact ⟨!s, hb.anchor_other hok hdone (hother ▸ hsync) (hother ▸ hxnow) (hxmem hdone)⟩
    | false =>
        obtain ⟨t, ha⟩ := hok.anchor hdone
        subst hslots
        exact ⟨t, hb.anchor_renamed ha (hle _)⟩
  · intro p' hp'
    rw [← Option.some.inj (hb.proc.symm.trans hp')]
    refine ⟨m, hb.now, rfl, fun _ => hb.mem_recent, fun m' hm' => ?_,
      fun _ => ⟨hb.last, fun m' hm' => ?_⟩⟩
    · rw [hb.other] at hm'
      exact (hle _ m' hm').trans (Nat.le_succ _)
    · rw [hb.other] at hm'
      exact hbehind m' hm'

end Begin

/-! ## Opens -/

section Opens

/-- A manifest one of the slots holds stands in the slot an open takes it to. -/
lemma standing_slotOf {m : Manifest}
    (hm : standing (h.slot false).now = some m ∨ standing (h.slot true).now = some m) :
    standing (h.slot (h.slotOf m)).now = some m := by
  by_cases hf : standing (h.slot false).now = some m
  · have hs : h.slotOf m = false := by simp [slotOf, hf]
    rw [hs]
    exact hf
  · have hs : h.slotOf m = true := by simp [slotOf, hf]
    rw [hs]
    exact hm.resolve_left hf

lemma newestOf_mem {x y : Option Manifest} {m : Manifest} (h : newestOf x y = some m) :
    (x = some m ∨ y = some m) ∧ ∀ m', x = some m' ∨ y = some m' → m'.seq ≤ m.seq := by
  cases x with
  | none => exact ⟨Or.inr h, fun m' hm' => by simp_all [newestOf]⟩
  | some a =>
      cases y with
      | none => exact ⟨Or.inl h, fun m' hm' => by simp_all [newestOf]⟩
      | some b =>
          rw [newestOf] at h
          split_ifs at h with hle <;>
            · refine ⟨by simp_all, ?_⟩
              rintro m' (hm' | hm') <;> simp_all <;> omega

lemma olderOf_mem {x y : Option Manifest} {m : Manifest} (h : olderOf x y = some m) :
    x = some m ∨ y = some m := by
  cases x with
  | none => exact absurd h (by simp [olderOf])
  | some a =>
      cases y with
      | none => exact absurd h (by simp [olderOf])
      | some b =>
          rw [olderOf] at h
          split_ifs at h with hle
          · exact Or.inr h
          · exact Or.inl h

/-- What an open's process knows of the manifest it goes by. -/
lemma knows_opened (hok : h.Ok) {slots : Bool} {m m₀ : Manifest}
    (hnew : newestOf (standing (h.slot false).now) (standing (h.slot true).now) = some m₀)
    (hm : standing (h.slot false).now = some m ∨ standing (h.slot true).now = some m)
    (hrec : h.done ≠ none → m ∈ h.recent) (hor : m = m₀ ∨ m₀.pending ≠ []) :
    h.Knows ⟨slots, m.seq, some (h.slotOf m), false⟩ := by
  have hstand := standing_slotOf hm
  obtain ⟨hmem₀, hmax⟩ := newestOf_mem hnew
  have hmax' : ∀ t m', standing (h.slot t).now = some m' → m'.seq ≤ m₀.seq := by
    intro t m' hm'
    cases t with
    | false => exact hmax m' (Or.inl hm')
    | true => exact hmax m' (Or.inr hm')
  refine ⟨m, hstand, rfl, hrec, fun m' hm' => ?_, fun hf => absurd hf (by simp)⟩
  -- the other slot's own manifest is the newest, or older than the one gone by
  rcases hok.sound (!(h.slotOf m)) with ⟨y, hy, hle⟩ | ⟨hnone, hsync⟩
  · refine (hle m' hm').trans ?_
    rcases hor with rfl | hpend
    · exact (hmax' _ y hy).trans (Nat.le_succ _)
    · rcases eq_or_ne y m₀ with rfl | hne
      · exact hok.pending _ y m (SlotFile.shows_now hy) hpend
          (by rw [Bool.not_not]; exact SlotFile.shows_now hstand)
      · -- then the newest stands beside it, and is the one gone by
        have hm₀ : standing (h.slot (h.slotOf m)).now = some m₀ := by
          have hany : ∃ t, standing (h.slot t).now = some m₀ :=
            hmem₀.elim (fun h => ⟨false, h⟩) (fun h => ⟨true, h⟩)
          obtain ⟨t, ht⟩ := hany
          rcases eq_or_ne t (h.slotOf m) with rfl | hne'
          · exact ht
          · rw [Bool.eq_not_of_ne hne', hy] at ht
            exact absurd (Option.some.inj ht) hne
        rw [Option.some.inj (hstand.symm.trans hm₀)]
        exact (hmax' _ y hy).trans (Nat.le_succ _)
  · exact absurd (hnone.symm.trans (hsync.shows hm')) (by simp)

lemma Ok.with_proc (hok : h.Ok) {p : Publisher} (hknows : h.Knows p) :
    ({ h with proc := some p } : ManifestHist).Ok :=
  ⟨hok.sound, hok.pending, hok.anchor, fun p' hp' => by
    rw [← Option.some.inj hp']
    exact hknows⟩

/-- **An open** leaves the manifests in order. -/
lemma ok_opens (hok : h.Ok) {slots pendingWhole : Bool} {covered : ℕ} {names : List String}
    (hmeets : (ManifestOp.opens slots pendingWhole covered names).Meets h) {h' : ManifestHist}
    (hopen : h.opens slots pendingWhole covered names = .ok h') : h'.Ok := by
  obtain ⟨hfits, hmeets⟩ := hmeets
  rw [opens] at hopen
  obtain ⟨ms, hread, hopen⟩ := except_bind_eq_ok.mp hopen
  obtain ⟨hskip, hpub⟩ := hmeets ms hread
  cases hnew : newestOf (standing (h.slot false).now) (standing (h.slot true).now) with
  | none =>
      have hboth : standing (h.slot false).now = none ∧ standing (h.slot true).now = none := by
        cases ha : standing (h.slot false).now with
        | none =>
            rw [ha] at hnew
            exact ⟨rfl, hnew⟩
        | some a => cases hb : standing (h.slot true).now <;> simp_all [newestOf]; split_ifs at hnew
      have hms : ms = [] := manifestReadAll_none hboth.1 hboth.2 hread
      subst hms
      rw [← Except.ok.inj hopen]
      refine ok_begins_first hok (fun s m => ?_) (by simpa using hfits)
      cases s with
      | false => exact (hok.sound false).not_shows hboth.1
      | true => exact (hok.sound true).not_shows hboth.2
  | some m₀ =>
      have hms : ms = m₀ :: (olderOf (standing (h.slot false).now) (standing (h.slot true).now)).toList :=
        Except.ok.inj (hread.symm.trans (manifestReadAll_pair hnew))
      -- the manifest the open goes by, newest or passed over to
      have htaken : ∃ m rest, (if skips pendingWhole ms then ms.tail else ms) = m :: rest ∧
          (standing (h.slot false).now = some m ∨ standing (h.slot true).now = some m) ∧
          (h.done ≠ none → m ∈ h.recent) ∧ (m = m₀ ∨ m₀.pending ≠ []) := by
        by_cases hs : skips pendingWhole ms = true
        · obtain ⟨m, htail, hrec⟩ := hskip hs
          have hpend : m₀.pending ≠ [] := by
            rw [hms] at hs
            exact (of_decide_eq_true hs).1
          refine ⟨m, [], by rw [if_pos hs, htail], olderOf_mem ?_, hrec, Or.inr hpend⟩
          rw [hms, List.tail_cons] at htail
          exact Option.toList_eq_singleton_iff.mp htail
        · refine ⟨m₀, _, by rw [if_neg hs, hms], (newestOf_mem hnew).1, fun hdone => ?_, Or.inl rfl⟩
          obtain ⟨s, ha⟩ := hok.anchor hdone
          obtain ⟨n, hn, hn'⟩ := ha.readAll
          exact Option.some.inj (hnew.symm.trans hn') ▸ hn
      obtain ⟨m, rest, htake, hstand, hrec, hor⟩ := htaken
      have hknows : h.Knows ⟨slots, m.seq, some (h.slotOf m), false⟩ :=
        knows_opened hok hnew hstand hrec hor
      simp only [htake] at hopen
      rw [← Except.ok.inj hopen]
      split_ifs with hwrite
      · obtain ⟨hfits', hspare⟩ := hpub m (by rw [htake]; rfl) hwrite.1 hwrite.2
        exact ok_begins (p := ⟨slots, m.seq, some (h.slotOf m), false⟩) hok rfl hknows
          (fun _ => hspare) (by simpa using hfits')
      · exact hok.with_proc hknows

end Opens

/-! ## Histories -/

/-- **One step** of a history leaves the manifests in order. -/
lemma step_manifest_ok (hok : h.Ok) {op : ManifestOp} (hmeets : op.Meets h) {h' : ManifestHist}
    (hstep : h.step op = .ok h') : h'.Ok := by
  cases op with
  | opens slots pendingWhole covered names => exact ok_opens hok hmeets hstep
  | publish covered names pending =>
      rw [← Except.ok.inj hstep]
      cases hp : h.proc with
      | none => exact hok
      | some p =>
          obtain ⟨hfits, hspare⟩ := hmeets p hp
          have hknows := hok.proc p hp
          cases hst : p.stands with
          | none =>
              rw [Knows, hst] at hknows
              exact ok_begins_first hok hknows.2 hfits
          | some cur =>
              exact ok_begins hok hst hknows (fun hs => hst ▸ hspare hs) hfits
  | complete =>
      rw [← Except.ok.inj hstep]
      exact ok_complete hok
  | exit =>
      rw [← Except.ok.inj hstep]
      exact ok_exit hok
  | powerLoss loss =>
      rw [← Except.ok.inj hstep]
      exact ok_lose hok hmeets

/-- **A history** leaves the manifests in order. -/
lemma run_manifest_ok (hok : h.Ok) {ops : List ManifestOp} (hmeets : ManifestsMeet h ops)
    {h' : ManifestHist} (hrun : h.run ops = .ok h') : h'.Ok := by
  induction ops generalizing h with
  | nil =>
      rw [← Except.ok.inj hrun]
      exact hok
  | cons op ops ih =>
      rw [run, List.foldlM_cons] at hrun
      obtain ⟨h₁, hstep, hrest⟩ := except_bind_eq_ok.mp hrun
      exact ih (step_manifest_ok hok hmeets.1 hstep) (hmeets.2 h₁ hstep) hrest

lemma create_ok (slots : Bool) : (create slots).Ok := by
  have hempty : ∀ m, ¬ (⟨[], [], false⟩ : SlotFile).Shows m := by
    rintro m ⟨b, hb, hm⟩
    rw [List.mem_singleton.mp hb] at hm
    exact absurd hm (by simp)
  change (begins ⟨fun _ => ⟨[], [], false⟩, none, none, []⟩ slots 0 0 [] []).Ok
  refine ok_begins_first ⟨fun s => ?_, fun s m m' hm => absurd hm (hempty m),
    fun hf => absurd rfl hf, fun p hp => absurd hp (by simp)⟩ (fun s m => hempty m) ?_
  · exact SlotFile.sound_of_synced ⟨rfl, rfl⟩
  · refine ⟨by decide, by decide, ?_, by simp, by decide⟩
    simp [manifestBody]

end ManifestHist

/-- **Manifest publishes are crash-atomic** where every slot written in place is spare.  In every
history of opens under either shape, publishes, process ends and power losses whose steps find what
they rely on, whatever a power loss takes at any point, the slots read, and the newest manifest is
the last publish completed or one begun since. -/
theorem publish_atomic (slots : Bool) (ops : List ManifestOp)
    (hmeets : ManifestsMeet (.create slots) ops) (h : ManifestHist)
    (hrun : (ManifestHist.create slots).run ops = .ok h) : h.Atomic :=
  (ManifestHist.run_manifest_ok (ManifestHist.create_ok slots) hmeets hrun).atomic

lemma manifestFits_empty {seq covered : ℕ} {pending : List String} (hseq : seq < 2 ^ 64)
    (hcovered : covered < 2 ^ 64) : ManifestFits seq covered [] pending :=
  ⟨hseq, hcovered, by simp [manifestBody], by simp, by simp⟩

/-- A store under the slots, a publish completed and the next begun. -/
theorem publish_atomic_begun : ∃ h : ManifestHist,
    (ManifestHist.create true).run [.complete, .publish 7 [] [], .complete, .publish 9 [] []]
      = .ok h ∧ h.Atomic := by
  refine ⟨_, rfl, publish_atomic true [.complete, .publish 7 [] [], .complete, .publish 9 [] []]
    ⟨trivial, ?_⟩ _ rfl⟩
  rintro _ ⟨⟩
  refine ⟨?_, ?_⟩
  · rintro _ ⟨⟩
    refine ⟨manifestFits_empty (by decide) (by decide), fun _ => ?_⟩
    rintro _ ⟨⟩
    exact ⟨by decide, rfl, rfl⟩
  rintro _ ⟨⟩
  refine ⟨trivial, ?_⟩
  rintro _ ⟨⟩
  refine ⟨?_, fun _ _ => trivial⟩
  rintro _ ⟨⟩
  refine ⟨manifestFits_empty (by decide) (by decide), fun _ => ?_⟩
  rintro _ ⟨⟩
  exact ⟨by decide, rfl, rfl⟩

/-- A history that ends with a publish completed and nothing to read after a power loss. -/
def ManifestHist.losesAll (loss : Bool → SlotLoss) : Except String ManifestHist → Bool
  | .error _ => false
  | .ok h => h.done.isSome && ((h.lose loss).readAll).toOption.isNone

lemma not_atomic_of_losesAll {r : Except String ManifestHist} {loss : Bool → SlotLoss}
    (hposs : ∀ s, (loss s).Possible) (hlost : ManifestHist.losesAll loss r = true) :
    ∃ h, r = .ok h ∧ ¬ h.Atomic := by
  cases r with
  | error e => exact absurd hlost (by simp [ManifestHist.losesAll])
  | ok h =>
      obtain ⟨hdone, hnone⟩ := Bool.and_eq_true_iff.mp hlost
      refine ⟨h, rfl, fun hatomic => ?_⟩
      obtain ⟨m, ms, hread, -⟩ := hatomic (by rintro hf; simp [hf] at hdone) loss hposs
      rw [hread] at hnone
      exact absurd hnone (by simp [Except.toOption])

/-- **And not where the shapes are mixed.**  A store made under the rename shape publishes sequence
1 over the first slot.  Opened under the slots, it publishes sequence 2 into the first slot too, in
place, while nothing stands in the second.  A crash that tears the write leaves no manifest to open
by, with one completed before it. -/
theorem publish_shapes_torn : ∃ h : ManifestHist,
    (ManifestHist.create false).run [.complete, .publish 0 [] [], .complete, .exit,
      .opens true true 0 [], .publish 0 [] []] = .ok h ∧ ¬ h.Atomic := by
  have htorn : ∀ s : Bool, ((fun _ => .tears [1] : Bool → SlotLoss) s).Possible := fun _ => rfl
  have hlost : ManifestHist.losesAll (fun _ => .tears [1])
      ((ManifestHist.create false).run [.complete,
      .publish 0 [] [], .complete, .exit, .opens true true 0 [], .publish 0 [] []]) = true := by
    decide +kernel
  exact not_atomic_of_losesAll htorn hlost

end Supdb
