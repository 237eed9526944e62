import Supdb.Lib.SeqLock

/-!
# The lent upkeep

A store's upkeep is the writer's, and it lends it to a thread.  At a commit the writer puts the
upkeep into a cell and names the commit; the thread takes it out, brings it to the commit last named
in a *pass*, and puts it back; and the writer takes it back whenever something of its own needs it,
waiting only while a pass is in flight.  Who holds the upkeep is one word of four bits, and every
hand-over is one operation on it.

* `UpkeepTo`, `SeqTo` – a commit, named by a sequence lock of its words: **`seqTo_atomic`** – a load
  gives the commit named last, whole.
* `LendWriter`, `LendThread` – where the two are in the code, between one load, store or exchange
  and the next.
* `Lend.step` – one of them, `Lend.run` any of them in any order.  A debug assertion or an `expect`
  that does not hold leaves its side `failed`.
* **`Lend.Ok`** – the invariant; `Lend.Ok.step` keeps it.
* **`lend_safe`** – any run.
-/

namespace Supdb

open StorageLib

/-! ## The commit named -/

/-- `UpkeepTo`: a commit the upkeep is to be brought to. -/
structure UpkeepTo where
  gen : ℕ
  log : ℕ
  len : ℕ
  wm : ℕ
  force : Bool
  lent : ℕ
  batch : ℕ
  cap : ℕ
  big : ℕ
  lives : ℕ
  deriving DecidableEq, Repr

/-- The words a commit is stored as, in the order of the stores. -/
def UpkeepTo.words (t : UpkeepTo) : List ℕ :=
  [t.gen, t.log, t.len, t.wm, t.force.toNat, t.lent, t.lives, t.batch, t.cap, t.big]

/-- A commit of its words. -/
def UpkeepTo.ofWords : List ℕ → Option UpkeepTo
  | [gen, log, len, wm, force, lent, lives, batch, cap, big] =>
      some { gen := gen, log := log, len := len, wm := wm, force := force != 0, lent := lent, batch := batch, cap := cap,
             big := big, lives := lives }
  | _ => none

lemma UpkeepTo.ofWords_words (t : UpkeepTo) : UpkeepTo.ofWords t.words = some t := by
  obtain ⟨gen, log, len, wm, force, lent, batch, cap, big, lives⟩ := t
  cases force with
  | true => rfl
  | false => rfl

/-- **Every load of the commit gives one whole**, however its words and those of the stores come: a
commit that was stored, and of those the last. -/
theorem seqTo_atomic (t : UpkeepTo) (ops : List (SeqOp ℕ)) {s : SeqLock ℕ} {es : List (SeqEvent ℕ)}
    (hs : (SeqLock.new t.words).run ops = some (s, es))
    (hset : ∀ w, .set w ∈ es → ∃ u : UpkeepTo, w = u.words) :
    SeqLock.Atomic t.words es ∧ ∀ r w, .got r w ∈ es → ∃ u, UpkeepTo.ofWords w = some u := by
  have hatomic : SeqLock.Atomic t.words es := SeqLock.run_atomic (SeqLock.ok_new t.words) hs
  refine ⟨hatomic, ?_⟩
  intro r w hgot
  rcases hatomic.got_mem hgot with rfl | hmem
  · exact ⟨t, UpkeepTo.ofWords_words t⟩
  · obtain ⟨u, rfl⟩ := hset w hmem
    exact ⟨u, UpkeepTo.ofWords_words u⟩

/-- A commit stored while a reader looks, and loaded once its words are there. -/
def seqStored (u : UpkeepTo) : List (SeqOp ℕ) :=
  [.store u.words, .load 0, .read 0, .openUp, .put, .put, .put, .put, .put, .put, .put, .put, .put,
   .put, .close, .read 0, .read 0, .read 0, .read 0, .read 0, .read 0, .read 0, .read 0, .read 0,
   .check 0,
   .load 0, .read 0, .read 0, .read 0, .read 0, .read 0, .read 0, .read 0, .read 0, .read 0,
   .read 0, .check 0]

theorem seqTo_atomic_stored : ∃ t u : UpkeepTo, t ≠ u ∧
    ∃ s es, (SeqLock.new t.words).run (seqStored u) = some (s, es) ∧
    SeqEvent.got 0 u.words ∈ es ∧ SeqLock.Atomic t.words es ∧ ∀ r w, .got r w ∈ es →
    ∃ v, UpkeepTo.ofWords w = some v := by
  let t : UpkeepTo := ⟨0, 0, 0, 0, false, 0, 0, 0, 0, 0⟩
  let u : UpkeepTo := ⟨1, 2, 3, 4, true, 5, 6, 7, 8, 9⟩
  have hes : ((SeqLock.new t.words).run (seqStored u)).map Prod.snd
    = some [.set u.words, .got 0 u.words] := by
    decide +kernel
  obtain ⟨⟨s, _⟩, hs, rfl⟩ := Option.map_eq_some_iff.mp hes
  refine ⟨t, u, by decide, s, _, hs, by simp, seqTo_atomic t (seqStored u) hs (fun w hw => ?_)⟩
  simp only [List.mem_cons, SeqEvent.set.injEq, reduceCtorEq, List.not_mem_nil, or_false] at hw
  exact ⟨u, hw⟩

/-! ## The word, and the two sides -/

/-- The word: `LEND_LENT`, `LEND_BUSY`, `LEND_WANT` and `LEND_POSTED`. -/
structure LendWord where
  lent : Bool
  busy : Bool
  want : Bool
  posted : Bool
  deriving DecidableEq, Repr

/-- No bit set: the upkeep is the writer's. -/
def LendWord.home : LendWord := ⟨false, false, false, false⟩

/-- `LEND_LENT | LEND_POSTED`. -/
def LendWord.due : LendWord := ⟨true, false, false, true⟩

/-- `LEND_LENT | LEND_BUSY`. -/
def LendWord.out : LendWord := ⟨true, true, false, false⟩

/-- `caught_up_or_home`'s `done`. -/
def LendWord.done (w : LendWord) : Bool := !w.busy && (!w.posted || !w.lent)

/-- A thread that waits: the writer's, or another that asked to be woken at the end of a pass. -/
inductive LendWaiter where
  | writer
  | other (n : ℕ)
  deriving DecidableEq, Repr

/-- Where the writer is.  It holds the upkeep (`home`); in `lend`, it is about to fill the cell, to
store the commit, to store the word; it is without the upkeep (`away`); in `post`, about to store
the commit, to set the bit; in `take_back`, about to load the word, to exchange the word it loaded,
to look for a panic, to drop the waiter, to empty the cell, or, of a pass in flight, to name itself,
to ask, or parked. -/
inductive LendWriter (F : Type) where
  | home (fs : F)
  | filling (fs : F)
  | naming
  | lending
  | away
  | renaming
  | posting
  | looking
  | taking (w : LendWord)
  | raising
  | raised
  | dropping
  | emptying
  | waiting
  | asking
  | parked
  | failed

/-- Where the thread is.  Between passes (`idle`); in `take_out`, about to exchange the word, to
empty the cell, to load the commit; in a pass to the commit numbered `n`; about to post again what
the pass was cut short of; in `put_back`, about to fill the cell, to keep the pass's error, its
panic, to clear its bit, to take the waiter, to wake it. -/
inductive LendThread (F E P : Type) where
  | idle
  | starting
  | emptying
  | naming (fs : F)
  | passing (fs : F) (n : ℕ)
  | reposting (fs : F) (n : ℕ) (err : Option E)
  | filling (fs : F) (err : Option E) (panic : Option P)
  | keeping (err : Option E) (panic : Option P)
  | panicking (panic : Option P)
  | releasing
  | calling
  | waking (w : Option LendWaiter)
  | stopped
  | failed

/-- `Lend`, and the two sides.  The commits stored are numbered; `named` is the last the word was
told of, `settled` the one the last pass that was not cut short was brought to; `displaced` says
another thread took the writer's place as the waiter, and `token` that the writer was woken. -/
structure Lend (F E P : Type) where
  word : LendWord
  cell : Option F
  waiter : Option LendWaiter
  err : Option E
  panic : Option P
  writer : LendWriter F
  thread : LendThread F E P
  stored : ℕ
  named : ℕ
  settled : ℕ
  displaced : Bool
  token : Bool

/-- How a pass ends: with the upkeep, whether it ran and whether it ran to the commit, and its
error; or in a panic, which leaves the upkeep where the pass put it. -/
inductive LendPass (F E P : Type) where
  | ended (fs : F) (ran whole : Bool) (err : Option E)
  | panicked (fs : F) (p : P)

/-- One step of a side: a load, a store or an exchange, or a call begun.  `hold` and `watch` are
`caught_up_or_home` of the writer and of any other thread, where it names itself; its loads change
nothing. -/
inductive LendOp (F E P : Type) where
  | lend
  | fillCell
  | storeTo
  | storeWord
  | post
  | postWord
  | takeBack
  | look
  | take
  | raise
  | dropWaiter
  | emptyCell
  | nameWaiter
  | ask
  | wakeUp
  | takeErr
  | hold
  | watch (n : ℕ)
  | peek
  | begin
  | takeOut
  | loadTo
  | pass (p : LendPass F E P)
  | repost
  | putCell
  | keepErr
  | keepPanic
  | release
  | callWaiter
  | unpark
  | stop

namespace Lend

variable {F E P : Type}

/-- The upkeep home, and nothing named. -/
def new (fs : F) : Lend F E P :=
  { word := .home, cell := none, waiter := none, err := none, panic := none, writer := .home fs, thread := .idle,
    stored := 0, named := 0, settled := 0, displaced := false, token := false }

/-- One step; `none` where its side is not at it. -/
def step (s : Lend F E P) : LendOp F E P → Option (Lend F E P)
  -- `lend`
  | .lend =>
      match s.writer with
      | .home fs => some { s with writer := if s.word = .home then .filling fs else .failed }
      | _ => none
  | .fillCell =>
      match s.writer with
      | .filling fs => some { s with cell := some fs, writer := .naming }
      | _ => none
  | .storeTo =>
      match s.writer with
      | .naming => some { s with stored := s.stored + 1, writer := .lending }
      | .renaming => some { s with stored := s.stored + 1, writer := .posting }
      | _ => none
  | .storeWord =>
      match s.writer with
      | .lending => some { s with word := .due, named := s.stored, writer := .away }
      | _ => none
  -- `post`
  | .post =>
      match s.writer with
      | .away => some { s with writer := .renaming }
      | _ => none
  | .postWord =>
      match s.writer with
      | .posting => some { s with word := { s.word with posted := true }, named := s.stored, writer := .away }
      | _ => none
  -- `take_back`
  | .takeBack =>
      match s.writer with
      | .away => some { s with writer := .looking }
      | _ => none
  | .look =>
      match s.writer with
      | .looking =>
          some { s with writer := if s.word.lent = false then .failed
                                  else if s.word.busy then .waiting else .taking s.word }
      | _ => none
  | .take =>
      match s.writer with
      | .taking w =>
          some
            (if s.word = w then { s with word := .home, writer := .raising }
            else { s with writer := .looking })
      | _ => none
  | .raise =>
      match s.writer with
      | .raising => some { s with panic := none, writer := if s.panic.isSome then .raised else .dropping }
      | _ => none
  | .dropWaiter =>
      match s.writer with
      | .dropping => some { s with waiter := none, writer := .emptying }
      | _ => none
  | .emptyCell =>
      match s.writer with
      | .emptying =>
          some (match s.cell with
            | some fs => { s with cell := none, writer := .home fs }
            | none => { s with writer := .failed })
      | _ => none
  | .nameWaiter =>
      match s.writer with
      | .waiting => some { s with waiter := some .writer, displaced := false, writer := .asking }
      | _ => none
  | .ask =>
      match s.writer with
      | .asking =>
          some { s with word := { s.word with want := true }, writer := if s.word.busy then .parked else .looking }
      | _ => none
  | .wakeUp =>
      match s.writer with
      | .parked => some { s with token := false, writer := .looking }
      | _ => none
  | .takeErr =>
      match s.writer with
      | .home _ => some { s with err := none }
      | .away => some { s with err := none }
      | _ => none
  | .hold =>
      match s.writer with
      | .home _ => some { s with waiter := some .writer }
      | .away => some { s with waiter := some .writer }
      | _ => none
  | .watch n => some { s with waiter := some (.other n), displaced := true }
  -- `take_out`
  | .peek =>
      match s.thread with
      | .idle => some (if s.word = .due then { s with thread := .starting } else s)
      | _ => none
  | .begin =>
      match s.thread with
      | .starting =>
          some
            (if s.word = .due then { s with word := .out, thread := .emptying }
            else { s with thread := .idle })
      | _ => none
  | .takeOut =>
      match s.thread with
      | .emptying =>
          some (match s.cell with
            | some fs => { s with cell := none, thread := .naming fs }
            | none => { s with thread := .failed })
      | _ => none
  | .loadTo =>
      match s.thread with
      | .naming fs => some { s with thread := .passing fs s.stored }
      | _ => none
  -- a pass, and what `keep_upkeep` makes of it
  | .pass p =>
      match s.thread with
      | .passing _ n =>
          match p with
          | .ended fs ran whole err =>
              some (if ran && !whole then { s with thread := .reposting fs n err }
                    else { s with thread := .filling fs err none, settled := n })
          | .panicked fs p => some { s with thread := .filling fs none (some p), settled := n }
      | _ => none
  | .repost =>
      match s.thread with
      | .reposting fs _ err => some { s with word := { s.word with posted := true }, thread := .filling fs err none }
      | _ => none
  -- `put_back`
  | .putCell =>
      match s.thread with
      | .filling fs err panic => some { s with cell := some fs, thread := .keeping err panic }
      | _ => none
  | .keepErr =>
      match s.thread with
      | .keeping err panic => some { s with err := s.err.or err, thread := .panicking panic }
      | _ => none
  | .keepPanic =>
      match s.thread with
      | .panicking panic => some { s with panic := panic.or s.panic, thread := .releasing }
      | _ => none
  | .release =>
      match s.thread with
      | .releasing => some { s with word := { s.word with busy := false }, thread := .calling }
      | _ => none
  | .callWaiter =>
      match s.thread with
      | .calling => some { s with waiter := none, thread := .waking s.waiter }
      | _ => none
  | .unpark =>
      match s.thread with
      | .waking w => some { s with token := s.token || decide (w = some .writer), thread := .idle }
      | _ => none
  | .stop =>
      match s.thread with
      | .idle => some { s with thread := .stopped }
      | _ => none

/-- Accesses of the writer and the thread, interleaved. -/
def run (s : Lend F E P) (ops : List (LendOp F E P)) : Option (Lend F E P) := ops.foldlM step s

end Lend

/-! ## The invariant -/

/-- The upkeep is lent. -/
def LendWriter.lent {F : Type} : LendWriter F → Bool
  | .away | .renaming | .posting | .looking | .taking _ | .waiting | .asking | .parked => true
  | _ => false

/-- The writer is taking the upkeep back, and has not yet. -/
def LendWriter.takes {F : Type} : LendWriter F → Bool
  | .looking | .taking _ | .waiting | .asking | .parked => true
  | _ => false

/-- The writer holds the upkeep. -/
def LendWriter.holds {F : Type} : LendWriter F → Bool
  | .home _ | .filling _ => true
  | _ => false

/-- The writer's next step reaches the cell. -/
def LendWriter.atCell {F : Type} : LendWriter F → Bool
  | .filling _ | .emptying => true
  | _ => false

/-- A commit is stored that the word is not told of. -/
def LendWriter.untold {F : Type} : LendWriter F → Bool
  | .lending | .posting => true
  | _ => false

/-- The thread has the upkeep, in the cell or out of it. -/
def LendThread.busy {F E P : Type} : LendThread F E P → Bool
  | .emptying | .naming _ | .passing _ _ | .reposting _ _ _ | .filling _ _ _ | .keeping _
    _ | .panicking _
  | .releasing => true
  | _ => false

/-- The thread holds the upkeep. -/
def LendThread.holds {F E P : Type} : LendThread F E P → Bool
  | .naming _ | .passing _ _ | .reposting _ _ _ | .filling _ _ _ => true
  | _ => false

/-- The thread's next step reaches the cell. -/
def LendThread.atCell {F E P : Type} : LendThread F E P → Bool
  | .emptying | .filling _ _ _ => true
  | _ => false

/-- The commit the thread's pass is brought to, or will be. -/
def LendThread.brings {F E P : Type} (stored settled : ℕ) : LendThread F E P → ℕ
  | .emptying | .naming _ => stored
  | .passing _ n | .reposting _ n _ => n
  | _ => settled

/-- No check failed, and the word to be exchanged shows no pass. -/
def LendWriter.Fine {F : Type} : LendWriter F → Prop
  | .failed => False
  | .taking w => w.busy = false
  | _ => True

/-- A place that says what the other says of the upkeep, and takes it back where that does. -/
def LendWriter.Beside {F : Type} (w w' : LendWriter F) : Prop :=
  w'.lent = w.lent ∧ w'.holds = w.holds ∧ w'.untold = w.untold ∧
    (w.takes = true → w'.takes = true) ∧ w'.Fine

/-- A place that says what the other says of the upkeep. -/
def LendThread.Beside {F E P : Type} (t t' : LendThread F E P) : Prop :=
  t'.busy = t.busy ∧ t'.holds = t.holds ∧ t' ≠ .failed

namespace Lend

variable {F E P : Type}

/-- Whoever waits is the writer, or it is being woken or was, or another has its place. -/
def Waited (s : Lend F E P) : Prop :=
  s.waiter = some .writer ∨ s.thread = .waking (some .writer) ∨ s.token = true ∨ s.displaced = true

/-- **No wake is lost**: a writer that asks or is parked has named itself, and a pass is still to
end that finds it. -/
def Awaited (s : Lend F E P) : Prop :=
  (s.writer = .asking → s.Waited) ∧
    (s.writer = .parked → s.Waited ∧
      (s.waiter = some .writer → s.word.busy = true ∨ s.thread = .calling ∨ s.displaced = true))

/-- **The invariant**: where the upkeep is, and what each side has seen of it. -/
structure Ok (s : Lend F E P) : Prop where
  lent : s.word.lent = s.writer.lent
  busy : s.word.busy = s.thread.busy
  flight : s.word.busy = true → s.word.lent = true
  want : s.word.want = true → s.writer.takes = true
  posted : s.word.posted = true → s.word.lent = true
  cell : s.cell.isSome = (!s.writer.holds && !s.thread.holds)
  fine : s.writer.Fine ∧ s.thread ≠ .failed
  named : s.stored = s.named + s.writer.untold.toNat
  settled : s.word.lent = true → s.word.posted = true ∨ s.named ≤ s.thread.brings s.stored s.settled
  awaited : s.Awaited

lemma ok_new (fs : F) : Ok (new fs : Lend F E P) := by
  refine ⟨rfl, rfl, ?_, ?_, ?_, rfl, ?_, rfl, ?_, ?_⟩
  all_goals simp [new, LendWord.home, LendWriter.Fine, Awaited]

/-! ## What the places say of each other -/

/-- What the thread holds it has. -/
lemma busy_of_holds {t : LendThread F E P} (h : t.holds = true) : t.busy = true := by
  cases t <;> simp_all [LendThread.holds, LendThread.busy]

lemma lent_of_takes {w : LendWriter F} (h : w.takes = true) : w.lent = true := by
  cases w <;> simp_all [LendWriter.takes, LendWriter.lent]

/-- Between passes what was settled last stands. -/
lemma brings_of_idle {t : LendThread F E P} (h : t.busy = false) {stored settled : ℕ} :
    t.brings stored settled = settled := by
  cases t <;> simp_all [LendThread.brings, LendThread.busy]

/-- While the upkeep is home no bit is set. -/
lemma Ok.word_home {s : Lend F E P} (h : s.Ok) (hl : s.writer.lent = false) : s.word = .home := by
  have hlent : s.word.lent = false := h.lent.trans hl
  have hbusy : s.word.busy = false := by
    rw [← Bool.not_eq_true]
    intro hb
    simp [h.flight hb] at hlent
  have hwant : s.word.want = false := by
    rw [← Bool.not_eq_true]
    intro hw
    simp [lent_of_takes (h.want hw)] at hl
  have hposted : s.word.posted = false := by
    rw [← Bool.not_eq_true]
    intro hp
    simp [h.posted hp] at hlent
  cases hs : s.word
  simp_all [LendWord.home]

/-- The thread has nothing while no pass is in flight. -/
lemma Ok.thread_empty {s : Lend F E P} (h : s.Ok) (hb : s.word.busy = false) :
    s.thread.holds = false := by
  rw [← Bool.not_eq_true]
  intro hh
  have := busy_of_holds hh
  simp [← h.busy, hb] at this

/-- The writer has nothing while a pass is in flight. -/
lemma Ok.writer_empty {s : Lend F E P} (h : s.Ok) (hl : s.word.lent = true) :
    s.writer.holds = false := by
  rw [h.lent] at hl
  cases hw : s.writer <;> simp_all [LendWriter.lent, LendWriter.holds]

/-! ## A step -/

lemma Awaited.congr {s s' : Lend F E P} (h : s.Awaited) (hw : s'.writer = s.writer)
    (hwaiter : s'.waiter = s.waiter) (htoken : s'.token = s.token)
    (hdisp : s'.displaced = s.displaced) (hb : s.word.busy = true → s'.word.busy = true)
    (ht : s.thread ≠ .calling ∧ (∀ w, s.thread ≠ .waking w) ∨ s'.thread = s.thread) :
    s'.Awaited := by
  unfold Awaited Waited at h ⊢
  rw [hw, hwaiter, htoken, hdisp]
  rcases ht with ⟨hc, hk⟩ | ht
  · refine ⟨fun ha => ?_, fun hp => ?_⟩
    · rcases h.1 ha with h1 | h1 | h1
      · exact Or.inl h1
      · exact absurd h1 (hk _)
      · exact Or.inr (Or.inr h1)
    · obtain ⟨h1, h2⟩ := h.2 hp
      refine ⟨?_, fun hwr => ?_⟩
      · rcases h1 with h1 | h1 | h1
        · exact Or.inl h1
        · exact absurd h1 (hk _)
        · exact Or.inr (Or.inr h1)
      · rcases h2 hwr with h2 | h2 | h2
        · exact Or.inl (hb h2)
        · exact absurd h2 hc
        · exact Or.inr (Or.inr h2)
  · rw [ht]
    refine ⟨h.1, fun hp => ?_⟩
    obtain ⟨h1, h2⟩ := h.2 hp
    refine ⟨h1, fun hwr => ?_⟩
    rcases h2 hwr with h2 | h2
    · exact Or.inl (hb h2)
    · exact Or.inr h2

/-- A writer that neither asks nor is parked waits for nothing. -/
lemma awaited_of_writer {s : Lend F E P} (ha : s.writer ≠ .asking) (hp : s.writer ≠ .parked) :
    s.Awaited :=
  ⟨fun h => absurd h ha, fun h => absurd h hp⟩

/-- **The writer moves** within one of its calls, or into one: nothing it shares with the thread is
touched. -/
lemma Ok.writerAt {s s' : Lend F E P} (h : s.Ok) (hb : s.writer.Beside s'.writer)
    (hsame : s'.word = s.word ∧ s'.cell = s.cell ∧ s'.thread = s.thread ∧ s'.stored = s.stored ∧
      s'.named = s.named ∧ s'.settled = s.settled) (haw : s'.Awaited) : s'.Ok := by
  obtain ⟨hl, hh, hu, ht, hf⟩ := hb
  obtain ⟨hword, hcell, hthread, hstored, hnamed, hsettled⟩ := hsame
  refine ⟨?_, ?_, ?_, ?_, ?_, ?_, ⟨hf, ?_⟩, ?_, ?_, haw⟩
  · rw [hword, hl, h.lent]
  · rw [hword, hthread, h.busy]
  · rw [hword]
    exact h.flight
  · rw [hword]
    exact fun hw => ht (h.want hw)
  · rw [hword]
    exact h.posted
  · rw [hcell, hthread, hh, h.cell]
  · rw [hthread]
    exact h.fine.2
  · rw [hstored, hnamed, hu, h.named]
  · rw [hword, hthread, hstored, hnamed, hsettled]
    exact h.settled

/-- **The thread moves** within a pass or between two. -/
lemma Ok.threadAt {s s' : Lend F E P} (h : s.Ok) (hb : s.thread.Beside s'.thread)
    (hsame : s'.word = s.word ∧ s'.cell = s.cell ∧ s'.writer = s.writer ∧ s'.stored = s.stored ∧
    s'.named = s.named)
    (hbr : s.thread.brings s.stored s.settled ≤ s'.thread.brings s'.stored s'.settled)
    (haw : s'.Awaited) : s'.Ok := by
  obtain ⟨hbusy, hh, hf⟩ := hb
  obtain ⟨hword, hcell, hwriter, hstored, hnamed⟩ := hsame
  refine ⟨?_, ?_, ?_, ?_, ?_, ?_, ⟨?_, hf⟩, ?_, ?_, haw⟩
  · rw [hword, hwriter, h.lent]
  · rw [hword, hbusy, h.busy]
  · rw [hword]
    exact h.flight
  · rw [hword, hwriter]
    exact h.want
  · rw [hword]
    exact h.posted
  · rw [hcell, hwriter, hh, h.cell]
  · rw [hwriter]
    exact h.fine.1
  · rw [hstored, hnamed, hwriter, h.named]
  · rw [hword, hnamed]
    intro hl
    rcases h.settled hl with hp | hs
    · exact Or.inl hp
    · exact Or.inr (le_trans hs hbr)

/-- The writer's next place, where nothing is waited for there. -/
lemma Ok.writerTo {s s' : Lend F E P} (h : s.Ok) {w : LendWriter F} (hw : s.writer = w)
    (hb : w.Beside s'.writer)
    (hsame : s'.word = s.word ∧ s'.cell = s.cell ∧ s'.thread = s.thread ∧ s'.stored = s.stored ∧
      s'.named = s.named ∧
      s'.settled = s.settled) (hask : s'.writer ≠ .asking ∧ s'.writer ≠ .parked) : s'.Ok := by
  subst hw
  exact h.writerAt hb hsame (awaited_of_writer hask.1 hask.2)

/-- The thread's next place, where no one is to be woken yet. -/
lemma Ok.threadTo {s s' : Lend F E P} (h : s.Ok) {t : LendThread F E P} (ht : s.thread = t) (hb : t.Beside s'.thread)
    (hsame : s'.word = s.word ∧ s'.cell = s.cell ∧ s'.writer = s.writer ∧ s'.stored = s.stored ∧ s'.named = s.named)
    (hwait : s'.waiter = s.waiter ∧ s'.token = s.token ∧ s'.displaced = s.displaced)
    (hbr : t.brings s.stored s.settled ≤ s'.thread.brings s'.stored s'.settled)
    (hquiet : t ≠ .calling ∧ ∀ w, t ≠ .waking w) : s'.Ok := by
  subst ht
  refine h.threadAt hb hsame hbr ?_
  exact h.awaited.congr hsame.2.2.1 hwait.1 hwait.2.1 hwait.2.2 (by rw [hsame.1]; exact id)
    (Or.inl hquiet)

/-! ### The writer's side -/

lemma Ok.lend {s s' : Lend F E P} (h : s.Ok) (hs : s.step .lend = some s') : s'.Ok := by
  delta step at hs
  dsimp only at hs
  split at hs
  · next fs hw =>
      cases hs
      have hword : s.word = .home := h.word_home (by rw [hw]; rfl)
      rw [if_pos hword]
      exact h.writerTo hw ⟨rfl, rfl, rfl, id, trivial⟩ ⟨rfl, rfl, rfl, rfl, rfl, rfl⟩ (by simp)
  · cases hs

/-- The cell is filled while no bit is set. -/
lemma Ok.fillCell {s s' : Lend F E P} (h : s.Ok) (hs : s.step .fillCell = some s') : s'.Ok := by
  delta step at hs
  dsimp only at hs
  split at hs
  · next fs hw =>
      cases hs
      have hword : s.word = .home := h.word_home (by rw [hw]; rfl)
      have hthread : s.thread.holds = false := h.thread_empty (by rw [hword]; rfl)
      have hn := h.named
      rw [hw] at hn
      refine ⟨?_, h.busy, h.flight, ?_, h.posted, ?_, ⟨trivial, h.fine.2⟩, hn, h.settled,
        awaited_of_writer (by simp) (by simp)⟩
      · rw [hword]
        rfl
      · rw [hword]
        simp [LendWord.home]
      · simp [LendWriter.holds, hthread]
  · cases hs

/-- A commit stored is newer than any a pass is to be brought to. -/
lemma brings_le (t : LendThread F E P) (stored settled : ℕ) :
    t.brings stored settled ≤ t.brings (stored + 1) settled := by
  cases t <;> simp [LendThread.brings]

lemma Ok.storeTo {s s' : Lend F E P} (h : s.Ok) (hs : s.step .storeTo = some s') : s'.Ok := by
  have hsettled : ∀ l, s.word.lent = l → l = true →
      s.word.posted = true ∨ s.named ≤ s.thread.brings (s.stored + 1) s.settled := by
    intro l hl htrue
    rcases h.settled (hl.trans htrue) with hp | hle
    · exact Or.inl hp
    · exact Or.inr (le_trans hle (brings_le _ _ _))
  have hn := h.named
  have hl := h.lent
  have hc := h.cell
  have hwant := h.want
  delta step at hs
  dsimp only at hs
  split at hs
  · next hw =>
      cases hs
      rw [hw] at hn hl hc hwant
      refine ⟨hl, h.busy, h.flight, hwant, h.posted, hc, ⟨trivial, h.fine.2⟩, ?_, hsettled _ rfl,
        awaited_of_writer (by simp) (by simp)⟩
      simpa [LendWriter.untold] using hn
  · next hw =>
      cases hs
      rw [hw] at hn hl hc hwant
      refine ⟨hl, h.busy, h.flight, hwant, h.posted, hc, ⟨trivial, h.fine.2⟩, ?_, hsettled _ rfl,
        awaited_of_writer (by simp) (by simp)⟩
      simpa [LendWriter.untold] using hn
  · cases hs

/-- The upkeep lent. -/
lemma Ok.storeWord {s s' : Lend F E P} (h : s.Ok) (hs : s.step .storeWord = some s') : s'.Ok := by
  delta step at hs
  dsimp only at hs
  split at hs
  · next hw =>
      cases hs
      have hword : s.word = .home := h.word_home (by rw [hw]; rfl)
      have hbusy := h.busy
      have hc := h.cell
      rw [hword] at hbusy
      rw [hw] at hc
      exact ⟨rfl, hbusy, by simp [LendWord.due], by simp [LendWord.due], by simp [LendWord.due], hc,
        ⟨trivial, h.fine.2⟩, rfl, fun _ => Or.inl rfl, awaited_of_writer (by simp) (by simp)⟩
  · cases hs

lemma Ok.post {s s' : Lend F E P} (h : s.Ok) (hs : s.step .post = some s') : s'.Ok := by
  delta step at hs
  dsimp only at hs
  split at hs
  · next hw =>
      cases hs
      exact h.writerTo hw ⟨rfl, rfl, rfl, id, trivial⟩ ⟨rfl, rfl, rfl, rfl, rfl, rfl⟩ (by simp)
  · cases hs

/-- A later commit named. -/
lemma Ok.postWord {s s' : Lend F E P} (h : s.Ok) (hs : s.step .postWord = some s') : s'.Ok := by
  delta step at hs
  dsimp only at hs
  split at hs
  · next hw =>
      cases hs
      have hlent : s.word.lent = true := by
        rw [h.lent, hw]
        rfl
      have hc := h.cell
      have hwant := h.want
      rw [hw] at hc hwant
      exact ⟨hlent, h.busy, h.flight, hwant, fun _ => hlent, hc, ⟨trivial, h.fine.2⟩, rfl,
        fun _ => Or.inl rfl, awaited_of_writer (by simp) (by simp)⟩
  · cases hs

lemma Ok.takeBack {s s' : Lend F E P} (h : s.Ok) (hs : s.step .takeBack = some s') : s'.Ok := by
  delta step at hs
  dsimp only at hs
  split at hs
  · next hw =>
      cases hs
      exact h.writerTo hw ⟨rfl, rfl, rfl, fun _ => rfl, trivial⟩ ⟨rfl, rfl, rfl, rfl, rfl, rfl⟩ (by simp)
  · cases hs

lemma Ok.look {s s' : Lend F E P} (h : s.Ok) (hs : s.step .look = some s') : s'.Ok := by
  delta step at hs
  dsimp only at hs
  split at hs
  · next hw =>
      cases hs
      have hlent : s.word.lent = true := by
        rw [h.lent, hw]
        rfl
      rw [if_neg (by simp [hlent])]
      split
      · exact h.writerTo hw ⟨rfl, rfl, rfl, fun _ => rfl, trivial⟩ ⟨rfl, rfl, rfl, rfl, rfl, rfl⟩ (by simp)
      · next hbusy =>
          exact h.writerTo hw ⟨rfl, rfl, rfl, fun _ => rfl, (Bool.not_eq_true _).mp hbusy⟩
            ⟨rfl, rfl, rfl, rfl, rfl, rfl⟩ (by simp)
  · cases hs

/-- **The upkeep taken**: the word shows no pass, and is cleared with whatever commit no pass has
begun on. -/
lemma Ok.take {s s' : Lend F E P} (h : s.Ok) (hs : s.step .take = some s') : s'.Ok := by
  delta step at hs
  dsimp only at hs
  split at hs
  · next w hw =>
      cases hs
      have hc := h.cell
      have hn := h.named
      have hfine := h.fine.1
      rw [hw] at hc hn hfine
      split
      · next heq =>
          have hthread : s.thread.busy = false := by
            rw [← h.busy, heq]
            exact hfine
          exact ⟨rfl, hthread.symm, by simp [LendWord.home], by simp [LendWord.home], by simp [LendWord.home], hc,
            ⟨trivial, h.fine.2⟩, hn, by simp [LendWord.home], awaited_of_writer (by simp) (by simp)⟩
      · exact h.writerTo hw ⟨rfl, rfl, rfl, fun _ => rfl, trivial⟩ ⟨rfl, rfl, rfl, rfl, rfl, rfl⟩ (by simp)
  · cases hs

lemma Ok.raise {s s' : Lend F E P} (h : s.Ok) (hs : s.step .raise = some s') : s'.Ok := by
  delta step at hs
  dsimp only at hs
  split at hs
  · next hw =>
      cases hs
      split
      · exact h.writerTo hw ⟨rfl, rfl, rfl, id, trivial⟩ ⟨rfl, rfl, rfl, rfl, rfl, rfl⟩ (by simp)
      · exact h.writerTo hw ⟨rfl, rfl, rfl, id, trivial⟩ ⟨rfl, rfl, rfl, rfl, rfl, rfl⟩ (by simp)
  · cases hs

lemma Ok.dropWaiter {s s' : Lend F E P} (h : s.Ok) (hs : s.step .dropWaiter = some s') : s'.Ok := by
  delta step at hs
  dsimp only at hs
  split at hs
  · next hw =>
      cases hs
      exact h.writerTo hw ⟨rfl, rfl, rfl, id, trivial⟩ ⟨rfl, rfl, rfl, rfl, rfl, rfl⟩ (by simp)
  · cases hs

/-- **The cell holds the upkeep the writer expects**, and the writer has it. -/
lemma Ok.emptyCell {s s' : Lend F E P} (h : s.Ok) (hs : s.step .emptyCell = some s') : s'.Ok := by
  delta step at hs
  dsimp only at hs
  split at hs
  · next hw =>
      cases hs
      have hword : s.word = .home := h.word_home (by rw [hw]; rfl)
      have hthread : s.thread.holds = false := h.thread_empty (by rw [hword]; rfl)
      have hc := h.cell
      have hn := h.named
      rw [hw] at hc hn
      rw [hthread] at hc
      split
      · refine ⟨?_, h.busy, h.flight, ?_, h.posted, rfl, ⟨trivial, h.fine.2⟩, hn, h.settled,
          awaited_of_writer (by simp) (by simp)⟩
        · rw [hword]
          rfl
        · rw [hword]
          simp [LendWord.home]
      · next hnone =>
          rw [hnone] at hc
          simp [LendWriter.holds] at hc
  · cases hs

/-- The writer names itself before it asks. -/
lemma Ok.nameWaiter {s s' : Lend F E P} (h : s.Ok) (hs : s.step .nameWaiter = some s') : s'.Ok := by
  delta step at hs
  dsimp only at hs
  split at hs
  · next hw =>
      cases hs
      refine h.writerAt ?_ ⟨rfl, rfl, rfl, rfl, rfl, rfl⟩ ⟨fun _ => Or.inl rfl, by simp⟩
      rw [hw]
      exact ⟨rfl, rfl, rfl, fun _ => rfl, trivial⟩
  · cases hs

/-- **The ask**: a pass that ends after it finds the writer named, and one that ended before shows
as no pass. -/
lemma Ok.ask {s s' : Lend F E P} (h : s.Ok) (hs : s.step .ask = some s') : s'.Ok := by
  delta step at hs
  dsimp only at hs
  split at hs
  · next hw =>
      cases hs
      have hlent : s.word.lent = true := by
        rw [h.lent, hw]
        rfl
      have hc := h.cell
      have hn := h.named
      have hwaited := h.awaited.1 hw
      rw [hw] at hc hn
      split
      · next hbusy =>
          exact ⟨hlent, h.busy, h.flight, fun _ => rfl, h.posted, hc, ⟨trivial, h.fine.2⟩, hn,
            h.settled, ⟨by simp, fun _ => ⟨hwaited, fun _ => Or.inl hbusy⟩⟩⟩
      · exact ⟨hlent, h.busy, h.flight, fun _ => rfl, h.posted, hc, ⟨trivial, h.fine.2⟩, hn,
          h.settled, awaited_of_writer (by simp) (by simp)⟩
  · cases hs

lemma Ok.wakeUp {s s' : Lend F E P} (h : s.Ok) (hs : s.step .wakeUp = some s') : s'.Ok := by
  delta step at hs
  dsimp only at hs
  split at hs
  · next hw =>
      cases hs
      exact h.writerTo hw ⟨rfl, rfl, rfl, fun _ => rfl, trivial⟩ ⟨rfl, rfl, rfl, rfl, rfl, rfl⟩ (by simp)
  · cases hs

lemma beside_refl {w : LendWriter F} (h : w.Fine) : w.Beside w := ⟨rfl, rfl, rfl, id, h⟩

lemma Ok.takeErr {s s' : Lend F E P} (h : s.Ok) (hs : s.step .takeErr = some s') : s'.Ok := by
  delta step at hs
  dsimp only at hs
  split at hs
  · cases hs
    exact h.writerAt (beside_refl h.fine.1) ⟨rfl, rfl, rfl, rfl, rfl, rfl⟩ h.awaited
  · cases hs
    exact h.writerAt (beside_refl h.fine.1) ⟨rfl, rfl, rfl, rfl, rfl, rfl⟩ h.awaited
  · cases hs

lemma Ok.hold {s s' : Lend F E P} (h : s.Ok) (hs : s.step .hold = some s') : s'.Ok := by
  delta step at hs
  dsimp only at hs
  split at hs
  · next fs hw =>
      cases hs
      exact h.writerAt (beside_refl h.fine.1) ⟨rfl, rfl, rfl, rfl, rfl, rfl⟩
        (awaited_of_writer (by simp [hw]) (by simp [hw]))
  · next hw =>
      cases hs
      exact h.writerAt (beside_refl h.fine.1) ⟨rfl, rfl, rfl, rfl, rfl, rfl⟩
        (awaited_of_writer (by simp [hw]) (by simp [hw]))
  · cases hs

/-- Any other thread may name itself, and the writer is displaced. -/
lemma Ok.watch {s s' : Lend F E P} (h : s.Ok) (n : ℕ) (hs : s.step (.watch n) = some s') :
    s'.Ok := by
  cases hs
  have hwaited : Waited { s with waiter := some (.other n), displaced := true } :=
    Or.inr (Or.inr (Or.inr rfl))
  exact h.writerAt (beside_refl h.fine.1) ⟨rfl, rfl, rfl, rfl, rfl, rfl⟩
    ⟨fun _ => hwaited, fun _ => ⟨hwaited, fun _ => Or.inr (Or.inr rfl)⟩⟩

/-! ### The thread's side -/

lemma Ok.peek {s s' : Lend F E P} (h : s.Ok) (hs : s.step .peek = some s') : s'.Ok := by
  delta step at hs
  dsimp only at hs
  split at hs
  · next ht =>
      cases hs
      split
      · exact h.threadTo ht ⟨rfl, rfl, by simp⟩ ⟨rfl, rfl, rfl, rfl, rfl⟩ ⟨rfl, rfl, rfl⟩ (le_refl _) (by simp)
      · exact h
  · cases hs

/-- **A pass begins** where the word shows a commit named and neither a pass nor a writer that wants
the upkeep. -/
lemma Ok.begin {s s' : Lend F E P} (h : s.Ok) (hs : s.step .begin = some s') : s'.Ok := by
  delta step at hs
  dsimp only at hs
  split at hs
  · next ht =>
      cases hs
      split
      · next hdue =>
          have hlent : s.writer.lent = true := by
            rw [← h.lent, hdue]
            rfl
          have hc := h.cell
          rw [ht] at hc
          refine ⟨hlent.symm, rfl,
            fun _ => rfl, by simp [LendWord.out], by simp [LendWord.out], hc, ⟨h.fine.1, by simp⟩,
            h.named, ?_, h.awaited.congr rfl rfl rfl rfl (fun _ => rfl) (Or.inl (by simp [ht]))⟩
          intro _
          right
          show s.named ≤ s.stored
          rw [h.named]
          exact Nat.le_add_right _ _
      · exact h.threadTo ht ⟨rfl, rfl, by simp⟩ ⟨rfl, rfl, rfl, rfl, rfl⟩ ⟨rfl, rfl, rfl⟩ (le_refl _) (by simp)
  · cases hs

/-- **The cell holds the upkeep the thread expects**, and the thread has it. -/
lemma Ok.takeOut {s s' : Lend F E P} (h : s.Ok) (hs : s.step .takeOut = some s') : s'.Ok := by
  delta step at hs
  dsimp only at hs
  split at hs
  · next ht =>
      cases hs
      have hbusy : s.word.busy = true := by
        rw [h.busy, ht]
        rfl
      have hwriter : s.writer.holds = false := h.writer_empty (h.flight hbusy)
      have hc := h.cell
      have hset := h.settled
      rw [ht, hwriter] at hc
      rw [ht] at hset
      split
      · refine ⟨h.lent, hbusy, h.flight, h.want, h.posted, ?_, ⟨h.fine.1, by simp⟩, h.named, hset,
          h.awaited.congr rfl rfl rfl rfl id (Or.inl (by simp [ht]))⟩
        simp [hwriter, LendThread.holds]
      · next hnone =>
          rw [hnone] at hc
          simp [LendThread.holds] at hc
  · cases hs

/-- The commit loaded is the one the pass was begun for, or a later one. -/
lemma Ok.loadTo {s s' : Lend F E P} (h : s.Ok) (hs : s.step .loadTo = some s') : s'.Ok := by
  delta step at hs
  dsimp only at hs
  split at hs
  · next fs ht =>
      cases hs
      exact h.threadTo ht ⟨rfl, rfl, by simp⟩ ⟨rfl, rfl, rfl, rfl, rfl⟩ ⟨rfl, rfl, rfl⟩ (le_refl _) (by simp)
  · cases hs

/-- A pass ends: short, and its commit is posted again; or not, and its commit is settled. -/
lemma Ok.pass {s s' : Lend F E P} (h : s.Ok) (p : LendPass F E P)
    (hs : s.step (.pass p) = some s') : s'.Ok := by
  delta step at hs
  dsimp only at hs
  split at hs
  · next fs0 n ht =>
      split at hs
      · cases hs
        split
        · exact h.threadTo ht ⟨rfl, rfl, by simp⟩ ⟨rfl, rfl, rfl, rfl, rfl⟩ ⟨rfl, rfl, rfl⟩ (le_refl _) (by simp)
        · exact h.threadTo ht ⟨rfl, rfl, by simp⟩ ⟨rfl, rfl, rfl, rfl, rfl⟩ ⟨rfl, rfl, rfl⟩ (le_refl _) (by simp)
      · cases hs
        exact h.threadTo ht ⟨rfl, rfl, by simp⟩ ⟨rfl, rfl, rfl, rfl, rfl⟩ ⟨rfl, rfl, rfl⟩ (le_refl _) (by simp)
  · cases hs

/-- What a pass was cut short of is posted while the word still names the thread. -/
lemma Ok.repost {s s' : Lend F E P} (h : s.Ok) (hs : s.step .repost = some s') : s'.Ok := by
  delta step at hs
  dsimp only at hs
  split at hs
  · next fs n err ht =>
      cases hs
      have hbusy : s.word.busy = true := by
        rw [h.busy, ht]
        rfl
      have hc := h.cell
      rw [ht] at hc
      exact ⟨h.lent, hbusy, h.flight, h.want, fun _ => h.flight hbusy, hc, ⟨h.fine.1, by simp⟩, h.named,
        fun _ => Or.inl rfl, h.awaited.congr rfl rfl rfl rfl id (Or.inl (by simp [ht]))⟩
  · cases hs

/-- The upkeep put back into a cell that holds none. -/
lemma Ok.putCell {s s' : Lend F E P} (h : s.Ok) (hs : s.step .putCell = some s') : s'.Ok := by
  delta step at hs
  dsimp only at hs
  split at hs
  · next fs err panic ht =>
      cases hs
      have hbusy : s.word.busy = true := by
        rw [h.busy, ht]
        rfl
      have hwriter : s.writer.holds = false := h.writer_empty (h.flight hbusy)
      have hset := h.settled
      rw [ht] at hset
      refine ⟨h.lent, hbusy, h.flight, h.want, h.posted, ?_, ⟨h.fine.1, by simp⟩, h.named, hset,
        h.awaited.congr rfl rfl rfl rfl id (Or.inl (by simp [ht]))⟩
      simp [hwriter, LendThread.holds]
  · cases hs

lemma Ok.keepErr {s s' : Lend F E P} (h : s.Ok) (hs : s.step .keepErr = some s') : s'.Ok := by
  delta step at hs
  dsimp only at hs
  split at hs
  · next err panic ht =>
      cases hs
      exact h.threadTo ht ⟨rfl, rfl, by simp⟩ ⟨rfl, rfl, rfl, rfl, rfl⟩ ⟨rfl, rfl, rfl⟩ (le_refl _) (by simp)
  · cases hs

lemma Ok.keepPanic {s s' : Lend F E P} (h : s.Ok) (hs : s.step .keepPanic = some s') : s'.Ok := by
  delta step at hs
  dsimp only at hs
  split at hs
  · next panic ht =>
      cases hs
      exact h.threadTo ht ⟨rfl, rfl, by simp⟩ ⟨rfl, rfl, rfl, rfl, rfl⟩ ⟨rfl, rfl, rfl⟩ (le_refl _) (by simp)
  · cases hs

/-- **The pass is over**: whoever waits is to be woken next. -/
lemma Ok.release {s s' : Lend F E P} (h : s.Ok) (hs : s.step .release = some s') : s'.Ok := by
  delta step at hs
  dsimp only at hs
  split at hs
  · next ht =>
      cases hs
      have hc := h.cell
      have hset := h.settled
      have hawaited := h.awaited
      rw [ht] at hc hset
      refine ⟨h.lent, rfl, by simp, h.want, h.posted, hc, ⟨h.fine.1, by simp⟩, h.named, hset, ?_, ?_⟩
      · intro ha
        rcases hawaited.1 ha with hw | hw | hw
        · exact Or.inl hw
        · simp [ht] at hw
        · exact Or.inr (Or.inr hw)
      · intro hp
        refine ⟨?_, fun _ => Or.inr (Or.inl rfl)⟩
        rcases (hawaited.2 hp).1 with hw | hw | hw
        · exact Or.inl hw
        · simp [ht] at hw
        · exact Or.inr (Or.inr hw)
  · cases hs

/-- The waiter taken is the one woken. -/
lemma Ok.callWaiter {s s' : Lend F E P} (h : s.Ok) (hs : s.step .callWaiter = some s') : s'.Ok := by
  delta step at hs
  dsimp only at hs
  split at hs
  · next ht =>
      cases hs
      have hwaited : s.Waited → Waited { s with waiter := none, thread := .waking s.waiter } := by
        rintro (hw | hw | hw)
        · exact Or.inr (Or.inl (by rw [hw]))
        · simp [ht] at hw
        · exact Or.inr (Or.inr hw)
      refine h.threadAt ?_ ⟨rfl, rfl, rfl, rfl, rfl⟩ ?_ ⟨fun ha => hwaited (h.awaited.1 ha), fun hp => ?_⟩
      · rw [ht]
        exact ⟨rfl, rfl, by simp⟩
      · rw [ht]
        exact le_refl _
      · exact ⟨hwaited (h.awaited.2 hp).1, by simp⟩
  · cases hs

/-- The writer woken has its token. -/
lemma Ok.unpark {s s' : Lend F E P} (h : s.Ok) (hs : s.step .unpark = some s') : s'.Ok := by
  delta step at hs
  dsimp only at hs
  split at hs
  · next w ht =>
      cases hs
      have hwaited : s.Waited → Waited { s with token := s.token || decide (w = some .writer), thread := .idle } := by
        rintro (hw | hw | hw | hw)
        · exact Or.inl hw
        · rw [ht] at hw
          cases hw
          exact Or.inr (Or.inr (Or.inl (by simp)))
        · exact Or.inr (Or.inr (Or.inl (by simp [hw])))
        · exact Or.inr (Or.inr (Or.inr hw))
      refine h.threadAt ?_ ⟨rfl, rfl, rfl, rfl, rfl⟩ ?_ ⟨fun ha => hwaited (h.awaited.1 ha), fun hp => ?_⟩
      · rw [ht]
        exact ⟨rfl, rfl, by simp⟩
      · rw [ht]
        exact le_refl _
      · refine ⟨hwaited (h.awaited.2 hp).1, fun hwr => ?_⟩
        rcases (h.awaited.2 hp).2 hwr with hb | hc | hd
        · exact Or.inl hb
        · simp [ht] at hc
        · exact Or.inr (Or.inr hd)
  · cases hs

lemma Ok.stop {s s' : Lend F E P} (h : s.Ok) (hs : s.step .stop = some s') : s'.Ok := by
  delta step at hs
  dsimp only at hs
  split at hs
  · next ht =>
      cases hs
      exact h.threadTo ht ⟨rfl, rfl, by simp⟩ ⟨rfl, rfl, rfl, rfl, rfl⟩ ⟨rfl, rfl, rfl⟩ (le_refl _) (by simp)
  · cases hs

/-- **A step keeps the invariant.** -/
theorem Ok.step {s s' : Lend F E P} {op : LendOp F E P} (h : s.Ok) (hs : s.step op = some s') :
    s'.Ok := by
  cases op with
  | lend => exact h.lend hs
  | fillCell => exact h.fillCell hs
  | storeTo => exact h.storeTo hs
  | storeWord => exact h.storeWord hs
  | post => exact h.post hs
  | postWord => exact h.postWord hs
  | takeBack => exact h.takeBack hs
  | look => exact h.look hs
  | take => exact h.take hs
  | raise => exact h.raise hs
  | dropWaiter => exact h.dropWaiter hs
  | emptyCell => exact h.emptyCell hs
  | nameWaiter => exact h.nameWaiter hs
  | ask => exact h.ask hs
  | wakeUp => exact h.wakeUp hs
  | takeErr => exact h.takeErr hs
  | hold => exact h.hold hs
  | watch n => exact h.watch n hs
  | peek => exact h.peek hs
  | begin => exact h.begin hs
  | takeOut => exact h.takeOut hs
  | loadTo => exact h.loadTo hs
  | pass p => exact h.pass p hs
  | repost => exact h.repost hs
  | putCell => exact h.putCell hs
  | keepErr => exact h.keepErr hs
  | keepPanic => exact h.keepPanic hs
  | release => exact h.release hs
  | callWaiter => exact h.callWaiter hs
  | unpark => exact h.unpark hs
  | stop => exact h.stop hs

/-- Any steps keep it. -/
theorem Ok.run {s s' : Lend F E P} {ops : List (LendOp F E P)} (h : s.Ok)
    (hs : s.run ops = some s') : s'.Ok := by
  induction ops generalizing s with
  | nil =>
      cases hs
      exact h
  | cons op ops ih =>
      simp only [Lend.run, List.foldlM_cons, Option.bind_eq_bind, Option.bind_eq_some_iff] at hs
      obtain ⟨s1, h1, h2⟩ := hs
      exact ih (h.step h1) h2

/-! ## Any run -/

/-- **What is asked of the lent upkeep.** -/
structure Safe (s : Lend F E P) : Prop where
  /-- One of the writer, the cell and the thread has it. -/
  holder : s.writer.holds.toNat + s.cell.isSome.toNat + s.thread.holds.toNat = 1
  /-- The word says which: not lent, it is not the thread; lent, it is not the writer; and lent with
  no pass in flight, it is the cell. -/
  notLent : s.word.lent = false → s.thread.holds = false
  lent : s.word.lent = true → s.writer.holds = false
  resting : s.word.lent = true → s.word.busy = false → s.cell.isSome = true
  /-- The cell is reached by the side the word names. -/
  writerCell : s.writer.atCell = true → s.word = .home
  threadCell : s.thread.atCell = true → s.word.lent = true ∧ s.word.busy = true
  /-- No check of either side fails. -/
  fine : s.writer ≠ .failed ∧ s.thread ≠ .failed
  /-- Where the word says that the thread has caught up, a pass not cut short was brought to the
  last commit named, or to a later one. -/
  settled : s.word.lent = true → s.word.done = true → s.named ≤ s.settled
  /-- A parked writer is woken, unless another took its place. -/
  awake : s.writer = .parked → s.word.busy = true ∨ s.thread = .calling ∨
    s.thread = .waking (some .writer) ∨ s.token = true ∨ s.displaced = true

/-- **A writer that wants the upkeep is next**: no pass begins before it has taken it. -/
def Wanted (s : Lend F E P) : Prop :=
  s.word.want = true → ∀ op s', s.step op = some s' →
    (s'.thread = .emptying → s.thread = .emptying) ∧ (s'.word.want = true ∨ s'.writer = .raising)

/-- **The writer waits for a pass in flight and nothing else**: it has what the cell holds five
steps after it looks. -/
def Prompt (s : Lend F E P) : Prop :=
  s.writer = .looking → s.word.busy = false → s.panic = none →
    ∃ s' fs, s.run [.look, .take, .raise, .dropWaiter, .emptyCell] = some s' ∧ s.cell = some fs ∧
    s'.writer = .home fs

lemma Ok.holder {s : Lend F E P} (h : s.Ok) :
    s.writer.holds.toNat + s.cell.isSome.toNat + s.thread.holds.toNat = 1 := by
  rw [h.cell]
  cases hb : s.word.busy with
  | true =>
      rw [h.writer_empty (h.flight hb)]
      cases s.thread.holds <;> rfl
  | false =>
      rw [h.thread_empty hb]
      cases s.writer.holds <;> rfl

lemma Ok.safe {s : Lend F E P} (h : s.Ok) : s.Safe := by
  refine ⟨h.holder, ?_, h.writer_empty, ?_, ?_, ?_, ⟨?_, h.fine.2⟩, ?_, ?_⟩
  · intro hl
    refine h.thread_empty (Bool.eq_false_iff.mpr fun hb => ?_)
    exact absurd ((h.flight hb).symm.trans hl) (by simp)
  · intro hl hb
    rw [h.cell, h.writer_empty hl, h.thread_empty hb]
    rfl
  · intro hc
    refine h.word_home ?_
    cases hw : s.writer <;> simp_all [LendWriter.atCell, LendWriter.lent]
  · intro hc
    have hb : s.word.busy = true := by
      rw [h.busy]
      cases ht : s.thread <;> simp_all [LendThread.atCell, LendThread.busy]
    exact ⟨h.flight hb, hb⟩
  · intro hf
    have := h.fine.1
    rw [hf] at this
    exact this
  · intro hl hd
    have hidle : s.word.busy = false ∧ s.word.posted = false := by
      simpa [LendWord.done, hl] using hd
    have hset := h.settled hl
    have hbusy := h.busy
    rw [hidle.1] at hbusy
    rw [hidle.2] at hset
    rw [brings_of_idle hbusy.symm] at hset
    simpa using hset
  · intro hp
    obtain ⟨hw | hw | hw | hw, hfound⟩ := h.awaited.2 hp
    · rcases hfound hw with hb | hc | hd
      · exact Or.inl hb
      · exact Or.inr (Or.inl hc)
      · exact Or.inr (Or.inr (Or.inr (Or.inr hd)))
    · exact Or.inr (Or.inr (Or.inl hw))
    · exact Or.inr (Or.inr (Or.inr (Or.inl hw)))
    · exact Or.inr (Or.inr (Or.inr (Or.inr hw)))

lemma Ok.prompt {s : Lend F E P} (h : s.Ok) : s.Prompt := by
  intro hw hb hp
  have hlent : s.word.lent = true := by
    rw [h.lent, hw]
    rfl
  have hc := h.cell
  rw [hw, h.thread_empty hb] at hc
  obtain ⟨fs, hfs⟩ := Option.isSome_iff_exists.mp hc
  have hlook : s.step .look = some { s with writer := .taking s.word } := by
    simp only [Lend.step, hw, hlent, hb]
    rfl
  have htake : Lend.step { s with writer := .taking s.word } .take
    = some { s with word := .home, writer := .raising } :=
    congrArg some (if_pos rfl)
  have hraise : Lend.step { s with word := .home, writer := .raising } .raise =
      some { s with word := .home, writer := .dropping } := by
    simp only [Lend.step, hp]
    rfl
  refine ⟨{ s with word := .home, cell := none, waiter := none, writer := .home fs }, fs, ?_,
    hfs, rfl⟩
  simp only [Lend.run, List.foldlM_cons, List.foldlM_nil, hlook, htake, hraise, Option.bind_eq_bind,
    Option.bind_some]
  simp only [Lend.step, hfs]
  rfl

lemma Ok.wanted {s : Lend F E P} (h : s.Ok) : s.Wanted := by
  intro hwant op s' hs
  have htakes := h.want hwant
  cases op with
  | storeWord =>
      simp only [Lend.step] at hs
      split at hs
      · next hw =>
          rw [hw] at htakes
          cases htakes
      · cases hs
  | take =>
      simp only [Lend.step] at hs
      split at hs
      · cases hs
        split
        · exact ⟨id, Or.inr rfl⟩
        · exact ⟨id, Or.inl hwant⟩
      · cases hs
  | begin =>
      simp only [Lend.step] at hs
      split at hs
      · cases hs
        split
        · next hdue =>
            rw [hdue] at hwant
            cases hwant
        · exact ⟨by simp, Or.inl hwant⟩
      · cases hs
  | _ =>
      -- Of the others, none clears the bit and none begins a pass.
      simp only [Lend.step] at hs
      repeat' split at hs
      all_goals cases hs
      all_goals simp_all

end Lend

/-- **The lent upkeep is safe in every interleaving.**  Whatever the order of the steps of the
writer, of the thread and of those that watch, and whatever the passes end in: one side holds the
upkeep, and the word says which (`Lend.Safe`); a writer that wants it back is not passed over
(`Lend.Wanted`); and it waits for the pass in flight and nothing else (`Lend.Prompt`). -/
theorem lend_safe {F E P : Type} (fs : F) (ops : List (LendOp F E P)) {s : Lend F E P}
    (hs : (Lend.new fs).run ops = some s) : s.Safe ∧ s.Wanted ∧ s.Prompt := by
  have h : s.Ok := (Lend.ok_new fs).run hs
  exact ⟨h.safe, h.wanted, h.prompt⟩

/-- A commit lent and one named while the first is passed; the pass is cut short, and the writer,
which asked for the upkeep meanwhile, is woken. -/
def lendAsked : List (LendOp ℕ ℕ ℕ) :=
  [.lend, .fillCell, .storeTo, .storeWord, .peek, .begin, .takeOut, .loadTo, .post, .storeTo,
   .postWord, .takeBack, .look, .nameWaiter, .ask, .pass (.ended 6 true false none), .repost,
   .putCell, .keepErr, .keepPanic, .release, .callWaiter, .unpark, .wakeUp]

theorem lend_safe_asked : ∃ s, (Lend.new 5).run lendAsked = some s ∧ s.Safe ∧ s.Wanted ∧
    s.Prompt := by
  have hrun : (Lend.new 5).run lendAsked = some
      { word := ⟨true, false, true, true⟩, cell := some 6, waiter := none, err := none, panic := none, writer := .looking,
        thread := .idle, stored := 2, named := 2, settled := 0, displaced := false, token := false } := rfl
  exact ⟨_, hrun, lend_safe 5 lendAsked hrun⟩

end Supdb
