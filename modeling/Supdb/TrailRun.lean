import Supdb.TrailCommits

/-!
# Every run keeps the trail

What the write path needs of a history is that each event **meets** what it finds: an append its
key's place, a commit a run that is not stranded, a batch its frames' limits and a rotation a live
file with frames where one before it is owed its sync.  Where every event does, the store is what
its trail says in every state the history reaches.

* `Event.Meets`, `History.MeetsAll` – what the events need.
* `exec_inv` – **an instruction**: the batch it writes, and what the rest of its call finds behind
  it.
* `step_inv`, `run_inv` – **an event**, and a history.
-/

namespace Supdb

open StorageLib

/-! ## Instructions -/

/-- What is staged behind an instruction. -/
def Instr.leaves (i : Instr) (staged : List WalRecord) : List WalRecord :=
  match i with
  | .commitLog _ => []
  | .commitDirect => []
  | _ => staged

/-- The batch an instruction writes, and its log. -/
def Instr.wrote (i : Instr) (staged : List WalRecord) (s' : Store) : Option Logged :=
  match i with
  | .commitLog _ => batchIn none staged
  | .commitDirect => batchIn (s'.direct.map (fun d => d.file.id)) staged
  | _ => none

/-- A file rotated away holds a frame, where one before it is owed its sync. -/
def Store.MayRotate (s : Store) : Prop := s.chain.owes = true → 8 < s.chain.wal.file.length

instance (s : Store) : Decidable s.MayRotate := inferInstanceAs (Decidable (_ → _))

/-- What an instruction needs: a batch's frames are within their limits, and a rotation may be made.
-/
def Instr.Meets (s : Store) : Instr → Prop
  | .commitLog _ => s.pending ≠ [] →
      (∀ r ∈ s.pending, r.bodyLen < 2 ^ 32) ∧ s.chain.wal.seq + (s.pending.length + 1) < 2 ^ 64
  | .rotateBySize =>
      ¬ (s.opts.sealRotatesWal ∨ s.chain.wal.file.length < s.opts.sealBytes) → s.MayRotate
  | .freeze => s.opts.sealRotatesWal → s.MayRotate
  | .handTail _ => s.opts.sealRotatesWal → s.MayRotate
  | _ => True

instance (s : Store) : (i : Instr) → Decidable (i.Meets s)
  | .commitLog _ => inferInstanceAs (Decidable (s.pending ≠ [] →
      (∀ r ∈ s.pending, r.bodyLen < 2 ^ 32) ∧ s.chain.wal.seq + (s.pending.length + 1) < 2 ^ 64))
  | .rotateBySize => inferInstanceAs (Decidable
      (¬ (s.opts.sealRotatesWal ∨ s.chain.wal.file.length < s.opts.sealBytes) → s.MayRotate))
  | .freeze => inferInstanceAs (Decidable (s.opts.sealRotatesWal → s.MayRotate))
  | .handTail _ => inferInstanceAs (Decidable (s.opts.sealRotatesWal → s.MayRotate))
  | .commit _ _ | .sealing _ | .sync _ | .commitDirect | .syncLog | .syncRun
  | .closeDirect _ | .syncBarrier => isTrue trivial

section Exec

variable {lz : Lz4} {s s' : Store} {t : Trail} {staged : List WalRecord} {rest more : List Instr}

lemma Fits.of_true {clean : Prop} (h : Fits s True rest) (hclean : clean) : Fits s clean rest :=
  h.mono (fun _ => hclean)

/-- A table frozen or handed, behind the rotation it may ask for. -/
lemma sealTable_inv (h : s.Inv [] t) (hordered : s.mem.isOrdered = false)
    (hhanded : s.handed = false) (hstranded : ¬ s.Stranded)
    (hrotate : s.opts.sealRotatesWal = true → s.MayRotate) {m : MemTable} {handed : Bool}
    (hm : m = .fresh ∧ handed = false ∨ m = s.mem ∧ handed = true) :
    ∃ t', Store.Inv { s.sealTable s.mem with mem := m, handed := handed } [] t' ∧
      Evolves s t none { s.sealTable s.mem with mem := m, handed := handed } t' := by
  by_cases hrot : s.opts.sealRotatesWal = true
  · obtain ⟨hr, hev⟩ := rotate_inv h (hrotate hrot)
    obtain ⟨hs, hev'⟩ := seal_inv hr hordered hhanded hstranded hm
    simp only [Store.sealTable, hrot, if_true]
    exact ⟨_, hs, hev.trans hev'⟩
  · obtain ⟨hs, hev⟩ := seal_inv h hordered hhanded hstranded hm
    simp only [Store.sealTable, hrot]
    exact ⟨_, hs, hev⟩

/-- What an instruction keeps: the store is what its trail says, with the batch it writes, and finds
what the rest of its call needs. -/
def Instr.Keeps (i : Instr) (staged : List WalRecord) (s : Store) (t : Trail) (s' : Store)
    (todo : List Instr) : Prop :=
  ∃ t', s'.Inv (i.leaves staged) t' ∧ Evolves s t (i.wrote staged s') s' t' ∧
    Fits s' (i.leaves staged = []) todo

/-- **How a call begins**: it takes the error the store owes it and does nothing else, or there is
none. -/
lemma exec_call (i : Instr) {go : Except String (Store × List Instr)} (h : s.Inv staged t)
    (hgo : s.pendingErr = true ∨ ¬ s.Stranded) (hleaves : i.leaves staged = staged)
    (hwrote : ∀ s' : Store, i.wrote staged s' = none)
    (hexec : (if s.pendingErr then .ok ({ s with pendingErr := false }, []) else go)
    = .ok (s', more)) :
    i.Keeps staged s t s' (more ++ []) ∨ (¬ s.Stranded ∧ go = .ok (s', more)) := by
  by_cases herr : s.pendingErr = true
  · rw [if_pos herr] at hexec
    obtain ⟨rfl, rfl⟩ := Prod.mk.inj (Except.ok.inj hexec)
    refine Or.inl ⟨t, ?_, ?_, trivial⟩
    · rw [hleaves]
      exact h.counted _ _
    · rw [hwrote]
      exact Evolves.refl rfl rfl rfl rfl rfl rfl rfl
  · rw [if_neg herr] at hexec
    exact Or.inr ⟨hgo.resolve_left herr, hexec⟩

/-- A commit leaves the trail as it is: what it writes comes with the instructions it asks for. -/
lemma exec_commit {seals fails : Bool} (h : s.Inv staged t)
    (hfits : Fits s (staged = []) (.commit seals fails :: rest))
    (hexec : s.exec lz (.commit seals fails) = .ok (s', more)) :
    Instr.Keeps (.commit seals fails) staged s t s' (more ++ rest) := by
  obtain ⟨hgo, rfl⟩ := hfits
  rcases exec_call (.commit seals fails) h hgo rfl (fun _ => rfl) hexec with hdone | ⟨hno, hexec⟩
  · exact hdone
  by_cases hhanded : s.handed = true
  · rw [if_pos hhanded] at hexec
    obtain ⟨rfl, rfl⟩ := Prod.mk.inj (Except.ok.inj hexec)
    exact ⟨t, h, Evolves.refl rfl rfl rfl rfl rfl rfl rfl, trivial⟩
  · rw [if_neg hhanded] at hexec
    have hhanded : s.handed = false := Bool.not_eq_true _ ▸ hhanded
    obtain ⟨rfl, rfl⟩ := Prod.mk.inj (Except.ok.inj hexec)
    refine ⟨t, h, Evolves.refl rfl rfl rfl rfl rfl rfl rfl, ?_⟩
    have htail : ∀ clean, Fits s clean (if seals = true then [.sealing fails] else []) := by
      intro clean
      split_ifs
      · exact ⟨Or.inr hno, rfl⟩
      · trivial
    rw [List.append_nil]
    cases hordered : s.mem.isOrdered with
    | true => exact ⟨⟨hordered, hhanded, hno⟩, htail _⟩
    | false => exact ⟨⟨hordered, hhanded, hno⟩, htail _⟩

/-- So does a seal as it begins, with the table its writes go to. -/
lemma exec_sealing {fails : Bool} (h : s.Inv staged t)
    (hfits : Fits s (staged = []) (.sealing fails :: rest))
    (hexec : s.exec lz (.sealing fails) = .ok (s', more)) :
    Instr.Keeps (.sealing fails) staged s t s' (more ++ rest) := by
  obtain ⟨hgo, rfl⟩ := hfits
  rcases exec_call (.sealing fails) h hgo rfl (fun _ => rfl) hexec with hdone | ⟨hno, hexec⟩
  · exact hdone
  obtain ⟨hgoes, hhanded⟩ := writesGo_inv h
  have hno : ¬ s.writesGo.Stranded := by
    have hsame : s.writesGo.tmps = s.tmps ∧ s.writesGo.sealing = s.sealing := by
      rw [Store.writesGo]
      split_ifs <;> exact ⟨rfl, rfl⟩
    rwa [Store.Stranded, hsame.1, hsame.2]
  obtain ⟨rfl, rfl⟩ := Prod.mk.inj (Except.ok.inj hexec)
  refine ⟨t, hgoes, writesGo_evolves s t, ?_⟩
  rw [List.append_nil]
  cases hordered : s.writesGo.mem.isOrdered with
  | true => exact ⟨⟨hordered, hhanded, hno⟩, ⟨trivial, hordered, hhanded, hno⟩, rfl⟩
  | false => exact ⟨⟨hordered, hhanded, hno⟩, ⟨trivial, hordered, hhanded, hno⟩, rfl⟩

/-- So does a sync; behind a table handed to a seal there is nothing staged to commit. -/
lemma exec_sync {hands : Bool} (h : s.Inv staged t)
    (hfits : Fits s (staged = []) (.sync hands :: rest))
    (hexec : s.exec lz (.sync hands) = .ok (s', more)) :
    Instr.Keeps (.sync hands) staged s t s' (more ++ rest) := by
  obtain ⟨hgo, rfl⟩ := hfits
  rcases exec_call (.sync hands) h hgo rfl (fun _ => rfl) hexec with hdone | ⟨hno, hexec⟩
  · exact hdone
  obtain ⟨rfl, rfl⟩ := Prod.mk.inj (Except.ok.inj hexec)
  refine ⟨t, h, Evolves.refl rfl rfl rfl rfl rfl rfl rfl, ?_⟩
  rw [List.append_nil]
  cases hhanded : s.handed with
  | true =>
      have hclean : staged = [] := by
        cases h.live with
        | hashed _ hh => exact absurd hhanded (by simp [hh])
        | ordered _ _ hh => exact absurd hhanded (by simp [hh])
        | handed _ _ _ _ _ hstaged => exact hstaged
        | stranded _ _ hh => exact absurd hhanded (by simp [hh])
      exact ⟨⟨hclean, hno⟩, rfl⟩
  | false =>
      cases hordered : s.mem.isOrdered with
      | true => exact ⟨⟨hordered, hhanded, hno⟩, ⟨trivial, hno⟩, rfl⟩
      | false => exact ⟨⟨hordered, hhanded, hno⟩, ⟨trivial, hno⟩, rfl⟩

lemma exec_commitLog {who : Committer} (h : s.Inv staged t)
    (hfits : Fits s (staged = []) (.commitLog who :: rest)) (hmeets : (Instr.commitLog who).Meets s)
    (hexec : s.exec lz (.commitLog who) = .ok (s', more)) :
    Instr.Keeps (.commitLog who) staged s t s' (more ++ rest) := by
  obtain ⟨⟨hordered, hhanded, hno⟩, hrest⟩ := hfits
  obtain ⟨u, hu, hev⟩ := commitLog_inv h hordered hhanded hno hmeets who
  obtain ⟨rfl, hmore⟩ := Prod.mk.inj (Except.ok.inj hexec)
  refine ⟨u, hu, hev, ?_⟩
  have hfits : Fits (s.commitLog who).1 True rest := hrest.congr rfl Iff.rfl rfl (fun _ => rfl)
  have hmore : more = [.syncLog] ∨ more = [] := by
    rw [← hmore]
    exact ite_eq_or_eq _ _ _
  rcases hmore with rfl | rfl
  · exact hfits.of_true rfl
  · exact hfits.of_true rfl

lemma exec_commitDirect (h : s.Inv staged t) (hfits : Fits s (staged = []) (.commitDirect :: rest))
    (hexec : s.exec lz .commitDirect = .ok (s', more)) :
    Instr.Keeps .commitDirect staged s t s' (more ++ rest) := by
  obtain ⟨⟨hordered, hhanded, hno⟩, hrest⟩ := hfits
  obtain ⟨u, hu, hev⟩ := commitDirect_inv h hordered hhanded hno hexec
  refine ⟨u, hu, hev, ?_⟩
  rcases commitDirect_cases hexec with ⟨-, rfl, rfl⟩ | ⟨-, file, file', next, -, -, rfl, rfl⟩
  · exact hrest.of_true rfl
  · have hfits : Fits { s with direct := some ⟨file', s.mem.entries.length⟩, nextSeg := next
                               unsynced := s.unsynced + 1 } True rest :=
      hrest.congr rfl Iff.rfl rfl (fun _ => rfl)
    split_ifs
    · exact hfits.of_true rfl
    · exact hfits.of_true rfl

/-- A turn of the log's sync writes no batch, and what was durable stays so. -/
lemma exec_syncLog (h : s.Inv staged t) (hfits : Fits s (staged = []) rest)
    (hexec : s.exec lz .syncLog = .ok (s', more)) :
    Instr.Keeps .syncLog staged s t s' (more ++ rest) := by
  obtain ⟨hlog, hdur⟩ := h.log.syncLog
  have hmore : s.syncLog.2 = [.syncLog] ∨ s.syncLog.2 = [] := by
    rw [Store.syncLog]
    split_ifs <;> simp
  have hsame : ∃ c n, s.syncLog.1 = { s with chain := c, dirUnsynced := false, unsynced := n } := by
    rw [Store.syncLog]
    split_ifs
    · exact ⟨_, s.unsynced, rfl⟩
    · exact ⟨_, s.unsynced, rfl⟩
    · exact ⟨_, 0, rfl⟩
  have hdone : s.syncLog = (s', more) := Except.ok.inj hexec
  obtain ⟨rfl, rfl⟩ : s.syncLog.1 = s' ∧ s.syncLog.2 = more := by simp [hdone]
  obtain ⟨c, n, hsame⟩ := hsame
  rw [hsame] at hlog hdur ⊢
  refine ⟨t, ⟨h.nonempty, h.segments, hlog, h.runs.congr rfl rfl rfl rfl,
    h.live.congr rfl rfl rfl rfl rfl rfl rfl rfl,
    h.keys.congr rfl (Or.inr ⟨rfl, fun h1 h2 => ⟨h1, h2⟩⟩)⟩,
    Evolves.of_le (by simp [Instr.wrote]) rfl rfl hdur (fun _ => le_refl _), ?_⟩
  have hfits : Fits { s with chain := c, dirUnsynced := false, unsynced := n } (staged = []) rest :=
    hfits.congr rfl Iff.rfl rfl (fun _ => rfl)
  rcases hmore with hmore | hmore
  · rw [hmore]
    exact hfits
  · rw [hmore]
    exact hfits

lemma exec_rotateBySize (h : s.Inv staged t) (hfits : Fits s (staged = []) rest)
    (hmeets : Instr.rotateBySize.Meets s) (hexec : s.exec lz .rotateBySize = .ok (s', more)) :
    Instr.Keeps .rotateBySize staged s t s' (more ++ rest) := by
  obtain ⟨rfl, rfl⟩ := Prod.mk.inj (Except.ok.inj hexec)
  by_cases hsize : s.opts.sealRotatesWal = true ∨ s.chain.wal.file.length < s.opts.sealBytes
  · rw [if_pos hsize]
    exact ⟨t, h, Evolves.refl rfl rfl rfl rfl rfl rfl rfl, hfits⟩
  · rw [if_neg hsize]
    obtain ⟨hr, hev⟩ := rotate_inv h (hmeets hsize)
    exact ⟨_, hr, hev, hfits.congr rfl Iff.rfl rfl (fun _ => rfl)⟩

lemma exec_freeze (h : s.Inv staged t) (hfits : Fits s (staged = []) (.freeze :: rest))
    (hmeets : Instr.freeze.Meets s) (hexec : s.exec lz .freeze = .ok (s', more)) :
    Instr.Keeps .freeze staged s t s' (more ++ rest) := by
  obtain ⟨⟨rfl, hordered, hhanded, hno⟩, rfl⟩ := hfits
  obtain ⟨rfl, rfl⟩ := Prod.mk.inj (Except.ok.inj hexec)
  by_cases hempty : s.mem.isEmpty = true
  · rw [if_pos hempty]
    exact ⟨t, h, Evolves.refl rfl rfl rfl rfl rfl rfl rfl, trivial⟩
  · rw [if_neg hempty]
    obtain ⟨u, hu, hev⟩ := sealTable_inv h hordered hhanded hno hmeets (Or.inl ⟨rfl, rfl⟩)
    have heq : ({ s with mem := .fresh }).sealTable s.mem
        = { s.sealTable s.mem with mem := .fresh, handed := false } := by
      simp only [Store.sealTable, Store.rotate, ← hhanded]
      split_ifs <;> rfl
    rw [heq]
    exact ⟨u, hu, hev, trivial⟩

/-- The tail's hand-over closes the run of an ordered table, or freezes a hashed one where it is. -/
lemma exec_handTail {hands : Bool} (h : s.Inv staged t) (hfits : Fits s (staged = []) (.handTail hands :: rest))
    (hmeets : (Instr.handTail hands).Meets s) (hexec : s.exec lz (.handTail hands) = .ok (s', more)) :
    Instr.Keeps (.handTail hands) staged s t s' (more ++ rest) := by
  obtain ⟨⟨rfl, hno⟩, rfl⟩ := hfits
  obtain ⟨rfl, rfl⟩ := Prod.mk.inj (Except.ok.inj hexec)
  have h0 := h.counted s.pendingErr 0
  have hev0 : Evolves s t none { s with pendingErr := s.pendingErr, unsynced := 0 } t :=
    Evolves.refl rfl rfl rfl rfl rfl rfl rfl
  split_ifs with hhand
  · obtain ⟨-, -, hhanded, -⟩ := hhand
    have hhanded : s.handed = false := Bool.not_eq_true _ ▸ hhanded
    rw [Store.handTail]
    cases hordered : s.mem.isOrdered with
    | true =>
        simp only [if_true]
        cases hdirect : s.direct with
        | none =>
            rw [hdirect] at h0 hev0
            exact ⟨t, h0, hev0, trivial⟩
        | some d =>
            obtain ⟨hs, hev⟩ := handRun_inv h0 hordered hhanded hno hdirect
            exact ⟨_, hs, hev0.trans hev, trivial⟩
    | false =>
        simp only [Bool.false_eq_true, if_false]
        obtain ⟨u, hu, hev⟩ := sealTable_inv h0 hordered hhanded hno hmeets (Or.inr ⟨rfl, rfl⟩)
        have heq : ∀ s : Store, ({ s.sealTable s.mem with handed := true } : Store)
            = { s.sealTable s.mem with mem := s.mem, handed := true } := by
          intro s
          simp only [Store.sealTable]
          split_ifs <;> rfl
        rw [heq]
        exact ⟨u, hu, hev0.trans hev, trivial⟩
  · exact ⟨t, h0, hev0, trivial⟩

/-- **An instruction** keeps the store what its trail says, writes the batch it writes, and leaves
the rest of its call what that needs. -/
lemma exec_inv {i : Instr} (h : s.Inv staged t) (hfits : Fits s (staged = []) (i :: rest))
    (hmeets : i.Meets s)
    (hexec : s.exec lz i = .ok (s', more)) : i.Keeps staged s t s' (more ++ rest) := by
  cases i with
  | commit seals fails => exact exec_commit h hfits hexec
  | sealing fails => exact exec_sealing h hfits hexec
  | sync hands => exact exec_sync h hfits hexec
  | commitLog who => exact exec_commitLog h hfits hmeets hexec
  | commitDirect => exact exec_commitDirect h hfits hexec
  | syncLog => exact exec_syncLog h hfits hexec
  | rotateBySize => exact exec_rotateBySize h hfits hmeets hexec
  | freeze => exact exec_freeze h hfits hmeets hexec
  | handTail hands => exact exec_handTail h hfits hmeets hexec
  | syncRun =>
      obtain ⟨u, hu, hev, -⟩ := syncRun_inv h
      obtain ⟨rfl, rfl⟩ := Prod.mk.inj (Except.ok.inj hexec)
      have hrest : Fits s (staged = []) rest := hfits
      exact ⟨u, hu, hev, hrest.congr rfl Iff.rfl rfl (fun _ => rfl)⟩
  | closeDirect fails =>
      obtain ⟨⟨rfl, hordered, hhanded, hno⟩, rfl⟩ := hfits
      obtain ⟨rfl, rfl⟩ := Prod.mk.inj (Except.ok.inj hexec)
      obtain ⟨u, hu, hev⟩ := closeDirect_inv h hordered hhanded hno fails
      exact ⟨u, hu, hev, trivial⟩
  | syncBarrier =>
      have hrest : Fits s (staged = []) rest := hfits
      obtain ⟨rfl, rfl⟩ := Prod.mk.inj (Except.ok.inj hexec)
      refine ⟨t, h, Evolves.refl rfl rfl rfl rfl rfl rfl rfl, ?_⟩
      split_ifs
      · exact hrest
      · exact hrest

end Exec

/-! ## Events -/

/-- What an event needs of the history it finds. -/
def Event.Meets (h : History) : Event → Prop
  | .append key value fails => h.idle = true → h.store.writesGo.MayAppend key value fails
  | .commit _ _ => h.idle = true → h.store.pendingErr = true ∨ ¬ h.store.Stranded
  | .sealing _ => h.idle = true → h.store.pendingErr = true ∨ ¬ h.store.Stranded
  | .sync _ => h.idle = true → h.store.pendingErr = true ∨ ¬ h.store.Stranded
  | .go => ∀ i ∈ h.todo.head?, i.Meets h.store
  | _ => True

instance (h : History) : (e : Event) → Decidable (e.Meets h)
  | .append key value fails =>
      inferInstanceAs (Decidable (h.idle = true → h.store.writesGo.MayAppend key value fails))
  | .commit _ _ =>
      inferInstanceAs (Decidable (h.idle = true → h.store.pendingErr = true ∨ ¬ h.store.Stranded))
  | .sealing _ =>
      inferInstanceAs (Decidable (h.idle = true → h.store.pendingErr = true ∨ ¬ h.store.Stranded))
  | .sync _ =>
      inferInstanceAs (Decidable (h.idle = true → h.store.pendingErr = true ∨ ¬ h.store.Stranded))
  | .go => inferInstanceAs (Decidable (∀ i ∈ h.todo.head?, i.Meets h.store))
  | .put _ _ _ | .delete _ _ | .land => isTrue trivial

/-- Every event of a history meets what it needs, in the state it finds. -/
def History.MeetsAll (lz : Lz4) (p : History → Event → Prop) (h : History) : List Event → Prop
  | [] => True
  | e :: es => p h e ∧
      match h.step lz e with
      | .ok h' => History.MeetsAll lz p h' es
      | .error _ => True

instance decidableMeetsAll (lz : Lz4) (p : History → Event → Prop) [∀ h e, Decidable (p h e)]
    (h : History) : (es : List Event) → Decidable (h.MeetsAll lz p es)
  | [] => isTrue trivial
  | e :: es =>
      have : Decidable (match h.step lz e with
          | .ok h' => History.MeetsAll lz p h' es
          | .error _ => True) :=
        match h.step lz e with
        | .ok h' => decidableMeetsAll lz p h' es
        | .error _ => isTrue trivial
      inferInstanceAs (Decidable (p h e ∧ _))

/-- The batch an event writes, and its log. -/
def Event.wrote (h h' : History) : Event → Option Logged
  | .go => h.todo.head?.bind (fun i => i.wrote h.staged h'.store)
  | _ => none

section Events

variable {lz : Lz4} {h h' : History} {t : Trail}

/-- The rest of a call behind a write: there is none. -/
lemma todo_of_idle (hidle : h.idle = true) : h.todo = [] := by
  rw [History.idle, Bool.and_eq_true, List.isEmpty_iff] at hidle
  exact hidle.1

/-- A write that the store takes. -/
lemma wrote_inv {s' : Store} {t' : Trail} {rs : List WalRecord} (h0 : h.Inv t)
    (hidle : h.idle = true) (hinv : s'.Inv (h.staged ++ rs) t')
    (hev : Evolves h.store t none s' t') : (h.wrote rs (some s')).Inv t' := by
  refine ⟨?_, hinv, ?_⟩
  · show h.committed = t'.batches
    rw [hev.batches, ← h0.batches]
    simp
  · show Fits s' _ h.todo
    rw [todo_of_idle hidle]
    trivial

/-- A call that has begun has done nothing yet. -/
lemma begun_inv {i : Instr} (h0 : h.Inv t) (hfits : Fits h.store (h.staged = []) [i]) :
    History.Inv { h with todo := [i] } t := ⟨h0.batches, h0.store, hfits⟩

/-- What the next instruction of a call does to the history. -/
lemma go_cons {i : Instr} {rest : List Instr} (htodo : h.todo = i :: rest)
    (hstep : h.go lz = .ok h') :
    ∃ more, h.store.exec lz i = .ok (h'.store, more) ∧ h'.todo = more ++ rest ∧
      h'.staged = i.leaves h.staged ∧
      h'.committed = h.committed ++ ((i.wrote h.staged h'.store).map Prod.snd).toList ∧
      Event.go.wrote h h' = i.wrote h.staged h'.store := by
  rw [History.go, htodo] at hstep
  obtain ⟨⟨s', more⟩, hexec, hstep⟩ := except_bind_eq_ok.mp hstep
  injection hstep with hstep
  subst hstep
  refine ⟨more, hexec, rfl, ?_, ?_, ?_⟩
  · cases i with
    | commitLog who => rfl
    | commitDirect => rfl
    | _ => rfl
  · have hnone : h.committed = h.committed ++ [] := by simp
    cases i with
    | commitLog who =>
        simp only [History.closeBatch, Instr.wrote, batchIn]
        split_ifs <;> simp
    | commitDirect =>
        simp only [History.closeBatch, Instr.wrote, batchIn]
        split_ifs <;> simp
    | _ => exact hnone
  · rw [Event.wrote, htodo]
    rfl

/-- The next instruction of the call under way. -/
lemma go_inv (h0 : h.Inv t) (hmeets : Event.go.Meets h) (hstep : h.go lz = .ok h') :
    ∃ t', h'.Inv t' ∧ Evolves h.store t (Event.go.wrote h h') h'.store t' := by
  cases htodo : h.todo with
  | nil =>
      rw [History.go, htodo] at hstep
      injection hstep with hstep
      subst hstep
      refine ⟨t, h0, ?_⟩
      rw [Event.wrote, htodo]
      exact Evolves.refl rfl rfl rfl rfl rfl rfl rfl
  | cons i rest =>
      obtain ⟨more, hexec, htodo', hstaged, hcommitted, hwrote⟩ := go_cons htodo hstep
      have hfits := h0.todo
      rw [htodo] at hfits
      have hi : i.Meets h.store := hmeets i (by rw [htodo]; rfl)
      obtain ⟨t', hinv, hev, hfits'⟩ := exec_inv h0.store hfits hi hexec
      refine ⟨t', ⟨?_, ?_, ?_⟩, ?_⟩
      · rw [hcommitted, hev.batches, h0.batches]
      · rw [hstaged]
        exact hinv
      · rw [hstaged, htodo']
        exact hfits'
      · rw [hwrote]
        exact hev

/-- **An event** keeps a store what its trail says. -/
lemma step_inv {e : Event} (h0 : h.Inv t) (hmeets : e.Meets h) (hstep : h.step lz e = .ok h') :
    ∃ t', h'.Inv t' ∧ Evolves h.store t (e.wrote h h') h'.store t' := by
  -- a call begins on an idle store, and on another nothing happens
  have hcall : ∀ g : History, (if h.idle = true then g else h) = h' →
      (h.idle = true → ∃ t', g.Inv t' ∧ Evolves h.store t none g.store t') →
      ∃ t', h'.Inv t' ∧ Evolves h.store t none h'.store t' := by
    intro g hg hgoes
    by_cases hidle : h.idle = true
    · rw [if_pos hidle] at hg
      exact hg ▸ hgoes hidle
    · rw [if_neg hidle] at hg
      exact hg ▸ ⟨t, h0, Evolves.refl rfl rfl rfl rfl rfl rfl rfl⟩
  cases e with
  | append key value fails =>
      refine hcall _ (Except.ok.inj hstep) (fun hidle => ?_)
      obtain ⟨t', hinv, hev⟩ := append_inv h0.store (hmeets hidle)
      exact ⟨t', wrote_inv h0 hidle hinv hev, hev⟩
  | put key value fails =>
      refine hcall _ (Except.ok.inj hstep) (fun hidle => ?_)
      cases hput : h.store.put key value fails with
      | none => exact ⟨t, ⟨h0.batches, h0.store, h0.todo⟩, Evolves.refl rfl rfl rfl rfl rfl rfl rfl⟩
      | some s' =>
          obtain ⟨t', hinv, hev⟩ := put_inv h0.store hput
          exact ⟨t', wrote_inv h0 hidle hinv hev, hev⟩
  | delete key fails =>
      refine hcall _ (Except.ok.inj hstep) (fun hidle => ?_)
      cases hdelete : h.store.delete key fails with
      | none => exact ⟨t, ⟨h0.batches, h0.store, h0.todo⟩, Evolves.refl rfl rfl rfl rfl rfl rfl rfl⟩
      | some s' =>
          obtain ⟨t', hinv, hev⟩ := delete_inv h0.store hdelete
          exact ⟨t', wrote_inv h0 hidle hinv hev, hev⟩
  | commit seals fails =>
      exact hcall _ (Except.ok.inj hstep) (fun hidle =>
        ⟨t, begun_inv h0 ⟨hmeets hidle, rfl⟩, Evolves.refl rfl rfl rfl rfl rfl rfl rfl⟩)
  | sealing fails =>
      exact hcall _ (Except.ok.inj hstep) (fun hidle =>
        ⟨t, begun_inv h0 ⟨hmeets hidle, rfl⟩, Evolves.refl rfl rfl rfl rfl rfl rfl rfl⟩)
  | sync hands =>
      exact hcall _ (Except.ok.inj hstep) (fun hidle =>
        ⟨t, begun_inv h0 ⟨hmeets hidle, rfl⟩, Evolves.refl rfl rfl rfl rfl rfl rfl rfl⟩)
  | go => exact go_inv h0 hmeets hstep
  | land =>
      injection hstep with hstep
      subst hstep
      obtain ⟨t', hinv, hev⟩ := land_inv h0.store
      refine ⟨t', ⟨?_, hinv, land_fits h0.store.runs h0.store.live h0.todo⟩, hev⟩
      show h.committed = t'.batches
      rw [hev.batches, ← h0.batches]
      simp

/-- A new store's trail. -/
def Trail.start : Trail := ⟨[], [], [], none, 0, [], ⟨0, []⟩, 0⟩

lemma start_inv (o : StoreOptions) : (History.start o).Inv .start := by
  have hnil : ∀ {p : Logged → Prop}, ∀ e ∈ Trail.start.hist, p e :=
    fun e he => absurd he List.not_mem_nil
  refine ⟨rfl, ⟨hnil, fun k => rfl, ⟨Chain.create_ok, ?_, rfl, le_refl _, rfl, rfl, trivial⟩,
    ⟨rfl, ?_, ?_, ?_, ?_, ?_⟩, .hashed rfl rfl rfl rfl rfl, ⟨?_, ?_, ?_, ?_, ?_⟩⟩, trivial⟩
  · exact List.pairwise_singleton _ _
  · exact List.Pairwise.nil
  · exact fun r hr => absurd hr List.not_mem_nil
  · exact fun r hr => absurd hr List.not_mem_nil
  · exact fun r hr => absurd hr List.not_mem_nil
  · exact fun e he => absurd he List.not_mem_nil
  · exact List.Pairwise.nil
  · exact fun b hb => absurd hb List.not_mem_nil
  · exact fun r hr => absurd hr List.not_mem_nil
  · exact List.Pairwise.nil
  · exact fun _ _ a ha => absurd ha List.not_mem_nil

/-- **An invariant of the steps** is one of every history: with the trail, and with anything else
each step keeps. -/
lemma run_inv {p : History → Event → Prop} {q : History → Trail → Prop} {es : List Event}
    (hstep : ∀ {h h' : History} {t : Trail} {e : Event}, h.Inv t → q h t → p h e → h.step lz e
      = .ok h' → ∃ t', h'.Inv t' ∧ q h' t')
    (h0 : h.Inv t) (hq : q h t) (hall : h.MeetsAll lz p es) (hrun : h.run lz es = .ok h') :
    ∃ t', h'.Inv t' ∧ q h' t' := by
  induction es generalizing h t with
  | nil =>
      injection hrun with hrun
      subst hrun
      exact ⟨t, h0, hq⟩
  | cons e es ih =>
      obtain ⟨h₁, h1, hrun⟩ := except_bind_eq_ok.mp hrun
      obtain ⟨hp, hall⟩ := hall
      rw [h1] at hall
      obtain ⟨t₁, hinv, hq₁⟩ := hstep h0 hq hp h1
      exact ih hinv hq₁ hall hrun

end Events

end Supdb
