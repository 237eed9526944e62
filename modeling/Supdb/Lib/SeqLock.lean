import Mathlib.Order.Nat

/-!
# Sequence locks

A value of several words, stored by one writer and taken by any number of readers, none of whom
waits for another.  The writer makes a count odd, stores the words one after another, and makes it
even again; a reader takes the words only between two equal even counts, and begins again where it
finds anything else.

A word is stored and loaded whole, and the steps of the writer and of the readers come in any
order.  What a reader is given is then never torn: the lock is an **atomic register**, set when the
writer closes and read when a reader's last look at the count succeeds.

* `SeqLock.step`, `SeqLock.run` – steps in any order, and what is seen of them from outside: a value
  **set**, a value a reader **got**.
* `SeqLock.Ok` – the invariant: the words are the value last set while the count is even, and what a
  reader has taken under the count as it stands is the front of it.
* **`SeqLock.run_atomic`** – of any run, every value got is the one last set.
-/

namespace StorageLib

/-- The writer: between stores; with the count loaded; or storing the words, some done. -/
inductive SeqWriter (W : Type) where
  | idle
  | opening (v : List W) (n : ℕ)
  | storing (v : List W) (n i : ℕ)

/-- A reader: between loads, or with a count it found even and the words it took since. -/
inductive SeqReader (W : Type) where
  | idle
  | reading (n : ℕ) (got : List W)

/-- The lock, its writer and its readers by number.  The count does not wrap. -/
structure SeqLock (W : Type) where
  seq : ℕ
  words : List W
  writer : SeqWriter W
  readers : ℕ → SeqReader W

/-- One step: of the writer, a store begun with its load of the count, the count made odd, a word
stored, the count made even; of a reader, the count loaded, a word loaded, and the count looked at
again. -/
inductive SeqOp (W : Type) where
  | store (v : List W)
  | openUp
  | put
  | close
  | load (r : ℕ)
  | read (r : ℕ)
  | check (r : ℕ)

/-- What is seen from outside. -/
inductive SeqEvent (W : Type) where
  | set (v : List W)
  | got (r : ℕ) (v : List W)
  deriving DecidableEq

namespace SeqLock

variable {W : Type}

/-- A lock that holds a value. -/
def new (v : List W) : SeqLock W := ⟨0, v, .idle, fun _ => .idle⟩

/-- One step and what is seen of it; `none` where its thread is not at it. -/
def step (s : SeqLock W) : SeqOp W → Option (SeqLock W × Option (SeqEvent W))
  | .store v =>
      match s.writer with
      | .idle => if v.length = s.words.length then some ({ s with writer := .opening v s.seq }, none) else none
      | _ => none
  | .openUp =>
      match s.writer with
      | .opening v n => some ({ s with seq := n + 1, writer := .storing v n 0 }, none)
      | _ => none
  | .put =>
      match s.writer with
      | .storing v n i =>
          (v[i]?).map (fun w => ({ s with words := s.words.set i w, writer := .storing v n (i + 1) }, none))
      | _ => none
  | .close =>
      match s.writer with
      | .storing v n i => if i = v.length then some ({ s with seq := n + 2, writer := .idle }, some (.set v)) else none
      | _ => none
  | .load r =>
      match s.readers r with
      | .idle =>
          if s.seq % 2 = 0 then some ({ s with readers := Function.update s.readers r (.reading s.seq []) }, none)
          else some (s, none)
      | _ => none
  | .read r =>
      match s.readers r with
      | .reading n got =>
          (s.words[got.length]?).map
            (fun w => ({ s with readers := Function.update s.readers r (.reading n (got ++ [w])) }, none))
      | _ => none
  | .check r =>
      match s.readers r with
      | .reading n got =>
          if got.length = s.words.length then
            some ({ s with readers := Function.update s.readers r .idle },
              if s.seq = n then some (.got r got) else none)
          else none
      | _ => none

/-- Steps one after another, and what is seen of them. -/
def run (s : SeqLock W) : List (SeqOp W) → Option (SeqLock W × List (SeqEvent W))
  | [] => some (s, [])
  | op :: ops => do
      let (s, e) ← s.step op
      let (s, es) ← run s ops
      some (s, e.toList ++ es)

/-- **An atomic register** that holds `v`: what is got is what was set last. -/
def Atomic (v : List W) : List (SeqEvent W) → Prop
  | [] => True
  | .set w :: es => Atomic w es
  | .got _ w :: es => w = v ∧ Atomic v es

/-- What is got is what was there or was set. -/
lemma Atomic.got_mem {v : List W} {es : List (SeqEvent W)} (h : Atomic v es) {r : ℕ} {w : List W}
    (hw : .got r w ∈ es) : w = v ∨ .set w ∈ es := by
  induction es generalizing v with
  | nil => cases hw
  | cons e es ih =>
      cases e with
      | set u =>
          have hw' : .got r w ∈ es := by simpa using hw
          rcases ih h hw' with rfl | hmem
          · exact Or.inr (List.mem_cons_self)
          · exact Or.inr (List.mem_cons_of_mem _ hmem)
      | got r' u =>
          rcases List.mem_cons.mp hw with heq | hw'
          · cases heq
            exact Or.inl h.1
          · rcases ih h.2 hw' with rfl | hmem
            · exact Or.inl rfl
            · exact Or.inr (List.mem_cons_of_mem _ hmem)

/-- What a writer's place says of the count and the words, `v` the value last set. -/
def WriterOk (s : SeqLock W) (v : List W) : Prop :=
  match s.writer with
  | .idle => s.seq % 2 = 0 ∧ s.words = v
  | .opening w n => s.seq = n ∧ n % 2 = 0 ∧ s.words = v ∧ w.length = v.length
  | .storing w n i =>
      s.seq = n + 1 ∧ n % 2 = 0 ∧ w.length = v.length ∧ i ≤ w.length ∧ s.words.take i = w.take i

/-- **The invariant**, `v` the value last set. -/
structure Ok (s : SeqLock W) (v : List W) : Prop where
  width : s.words.length = v.length
  writer : s.WriterOk v
  readers : ∀ r n got, s.readers r = .reading n got →
    n % 2 = 0 ∧ n ≤ s.seq ∧ (s.seq = n → got = v.take got.length)

lemma ok_new (v : List W) : (new v).Ok v := by
  refine ⟨rfl, ⟨rfl, rfl⟩, ?_⟩
  intro r n got h
  cases h

/-- While the count is even the words are the value last set. -/
lemma Ok.words_eq {s : SeqLock W} {v : List W} (h : s.Ok v) (heven : s.seq % 2 = 0) :
    s.words = v := by
  have hw := h.writer
  unfold WriterOk at hw
  split at hw
  · exact hw.2
  · exact hw.2.2.1
  · omega

/-- The writer's next place, with the count no lower: what readers took stands where the count does,
and is of no count to come. -/
lemma Ok.moveWriter {s : SeqLock W} {v v' : List W} (h : s.Ok v) {seq : ℕ} {words : List W}
    {writer : SeqWriter W} (hseq : s.seq ≤ seq) (hsame : seq % 2 = 0 → s.seq = seq ∧ v' = v)
    (hwidth : words.length = v'.length)
    (hw : WriterOk { s with seq := seq, words := words, writer := writer } v') :
    Ok { s with seq := seq, words := words, writer := writer } v' := by
  refine ⟨hwidth, hw, ?_⟩
  intro r n got hr
  obtain ⟨hn, hle, htake⟩ := h.readers r n got hr
  refine ⟨hn, le_trans hle hseq, ?_⟩
  intro heq
  have hcount : seq = n := heq
  obtain ⟨hs, rfl⟩ := hsame (by omega)
  exact htake (hs.trans hcount)

/-- A reader's next place. -/
lemma Ok.moveReader {s : SeqLock W} {v : List W} (h : s.Ok v) (r : ℕ) {x : SeqReader W}
    (hx : ∀ n got, x = .reading n got → n % 2 = 0 ∧ n ≤ s.seq ∧
    (s.seq = n → got = v.take got.length)) :
    Ok { s with readers := Function.update s.readers r x } v := by
  refine ⟨h.width, h.writer, ?_⟩
  intro r' n got hr
  rcases eq_or_ne r' r with rfl | hne
  · exact hx n got (by simpa using hr)
  · exact h.readers r' n got (by simpa [Function.update_of_ne hne] using hr)

/-- The value last set, after a step. -/
def after (v : List W) : Option (SeqEvent W) → List W
  | some (.set w) => w
  | _ => v

lemma Ok.store {s s' : SeqLock W} {v w : List W} {e : Option (SeqEvent W)} (h : s.Ok v)
    (hs : s.step (.store w) = some (s', e)) : e = none ∧ s'.Ok v := by
  have hw := h.writer
  unfold WriterOk at hw
  simp only [step] at hs
  split at hs
  · next hidle =>
      rw [hidle] at hw
      split at hs
      · next hlen =>
          cases hs
          refine ⟨rfl, h.moveWriter (le_refl _) (fun _ => ⟨rfl, rfl⟩) h.width ?_⟩
          exact ⟨rfl, hw.1, hw.2, hlen.trans h.width⟩
      · cases hs
  · cases hs

lemma Ok.openUp {s s' : SeqLock W} {v : List W} {e : Option (SeqEvent W)} (h : s.Ok v)
    (hs : s.step .openUp = some (s', e)) : e = none ∧ s'.Ok v := by
  have hw := h.writer
  unfold WriterOk at hw
  simp only [step] at hs
  split at hs
  · next w n hopen =>
      rw [hopen] at hw
      obtain ⟨hseq, heven, hwords, hlen⟩ := hw
      cases hs
      refine ⟨rfl, h.moveWriter (by omega) (fun hodd => by omega) h.width ?_⟩
      exact ⟨rfl, heven, hlen, Nat.zero_le _, rfl⟩
  · cases hs

lemma Ok.put {s s' : SeqLock W} {v : List W} {e : Option (SeqEvent W)} (h : s.Ok v)
    (hs : s.step .put = some (s', e)) : e = none ∧ s'.Ok v := by
  have hw := h.writer
  unfold WriterOk at hw
  simp only [step] at hs
  split at hs
  · next w n i hstore =>
      rw [hstore] at hw
      obtain ⟨hseq, heven, hlen, hi, htake⟩ := hw
      rw [Option.map_eq_some_iff] at hs
      obtain ⟨x, hx, heq⟩ := hs
      cases heq
      obtain ⟨hlt, rfl⟩ := List.getElem?_eq_some_iff.mp hx
      have hwidth := h.width
      refine ⟨rfl, h.moveWriter (le_refl _) (fun hodd => by omega) (by simpa using hwidth) ?_⟩
      refine ⟨hseq, heven, hlen, hlt, ?_⟩
      show (s.words.set i w[i]).take (i + 1) = w.take (i + 1)
      have hset : i < (s.words.set i w[i]).length := by
        rw [List.length_set]
        omega
      rw [List.take_succ_eq_append_getElem hset, List.take_succ_eq_append_getElem hlt,
        List.getElem_set_self, List.take_set_of_le (le_refl i), htake]
  · cases hs

lemma Ok.close {s s' : SeqLock W} {v : List W} {e : Option (SeqEvent W)} (h : s.Ok v)
    (hs : s.step .close = some (s', e)) : ∃ w, e = some (.set w) ∧ s'.Ok w := by
  have hw := h.writer
  unfold WriterOk at hw
  simp only [step] at hs
  split at hs
  · next w n i hstore =>
      rw [hstore] at hw
      obtain ⟨hseq, heven, hlen, hi, htake⟩ := hw
      split at hs
      · next hend =>
          cases hs
          have hwords : s.words = w := by
            have hwidth := h.width
            rw [hend, List.take_length, List.take_of_length_le (by omega)] at htake
            exact htake
          have hlow : ∀ r m got, s.readers r = .reading m got → m < n + 2 := by
            intro r m got hr
            have := (h.readers r m got hr).2.1
            omega
          refine ⟨w, rfl, ?_, ?_, ?_⟩
          · exact congrArg List.length hwords
          · exact ⟨by simpa using heven, hwords⟩
          · intro r m got hr
            have hlt := hlow r m got hr
            refine ⟨(h.readers r m got hr).1, le_of_lt hlt, ?_⟩
            intro heq
            exact absurd heq (ne_of_gt hlt)
      · cases hs
  · cases hs

lemma Ok.load {s s' : SeqLock W} {v : List W} {r : ℕ} {e : Option (SeqEvent W)} (h : s.Ok v)
    (hs : s.step (.load r) = some (s', e)) : e = none ∧ s'.Ok v := by
  simp only [step] at hs
  split at hs
  · split at hs
    · next heven =>
        cases hs
        refine ⟨rfl, h.moveReader r ?_⟩
        intro n got hx
        cases hx
        exact ⟨heven, le_refl _, fun _ => rfl⟩
    · cases hs
      exact ⟨rfl, h⟩
  · cases hs

/-- A word read under a count that still stands is a word of the value last set. -/
lemma Ok.read {s s' : SeqLock W} {v : List W} {r : ℕ} {e : Option (SeqEvent W)} (h : s.Ok v)
    (hs : s.step (.read r) = some (s', e)) : e = none ∧ s'.Ok v := by
  simp only [step] at hs
  split at hs
  · next n got hr =>
      rw [Option.map_eq_some_iff] at hs
      obtain ⟨x, hx, heq⟩ := hs
      cases heq
      obtain ⟨hn, hle, htake⟩ := h.readers r n got hr
      refine ⟨rfl, h.moveReader r ?_⟩
      intro m got' hm
      cases hm
      refine ⟨hn, hle, ?_⟩
      intro hseq
      rw [h.words_eq (by omega)] at hx
      obtain ⟨hlt, rfl⟩ := List.getElem?_eq_some_iff.mp hx
      rw [List.length_append, List.length_singleton, List.take_succ_eq_append_getElem hlt, ← htake hseq]
  · cases hs

/-- **What a reader is given is the value last set.** -/
lemma Ok.check {s s' : SeqLock W} {v : List W} {r : ℕ} {e : Option (SeqEvent W)} (h : s.Ok v)
    (hs : s.step (.check r) = some (s', e)) : (e = none ∨ e = some (.got r v)) ∧ s'.Ok v := by
  simp only [step] at hs
  split at hs
  · next n got hr =>
      obtain ⟨hn, hle, htake⟩ := h.readers r n got hr
      split at hs
      · next hlen =>
          have hidle : Ok { s with readers := Function.update s.readers r .idle } v :=
            h.moveReader r (by intro m got' hm; cases hm)
          cases hs
          refine ⟨?_, hidle⟩
          split
          · next hseq =>
              right
              rw [htake hseq, hlen, h.width, List.take_length]
          · exact Or.inl rfl
      · cases hs
  · cases hs

/-- **A step keeps the invariant**, of the value set where it is the one that sets, and gives the
value last set. -/
theorem Ok.step {s s' : SeqLock W} {v : List W} {op : SeqOp W} {e : Option (SeqEvent W)}
    (h : s.Ok v)
    (hs : s.step op = some (s', e)) : s'.Ok (after v e) ∧ ∀ r w, e = some (.got r w) → w = v := by
  cases op with
  | store w =>
      obtain ⟨rfl, hok⟩ := h.store hs
      exact ⟨hok, by simp⟩
  | openUp =>
      obtain ⟨rfl, hok⟩ := h.openUp hs
      exact ⟨hok, by simp⟩
  | put =>
      obtain ⟨rfl, hok⟩ := h.put hs
      exact ⟨hok, by simp⟩
  | close =>
      obtain ⟨w, rfl, hok⟩ := h.close hs
      exact ⟨hok, by simp⟩
  | load r =>
      obtain ⟨rfl, hok⟩ := h.load hs
      exact ⟨hok, by simp⟩
  | read r =>
      obtain ⟨rfl, hok⟩ := h.read hs
      exact ⟨hok, by simp⟩
  | check r =>
      obtain ⟨rfl | rfl, hok⟩ := h.check hs
      · exact ⟨hok, by simp⟩
      · exact ⟨hok, by simp⟩

/-- **Of any run, every value got is the one last set.** -/
theorem run_atomic {s s' : SeqLock W} {v : List W} {ops : List (SeqOp W)} {es : List (SeqEvent W)}
    (h : s.Ok v) (hs : s.run ops = some (s', es)) : Atomic v es := by
  induction ops generalizing s v es with
  | nil =>
      cases hs
      trivial
  | cons op ops ih =>
      simp only [run, Option.bind_eq_bind, Option.bind_eq_some_iff] at hs
      obtain ⟨⟨s1, e⟩, h1, ⟨s2, es'⟩, h2, heq⟩ := hs
      cases heq
      obtain ⟨hok, hgot⟩ := h.step h1
      have ht := ih hok h2
      cases e with
      | none => exact ht
      | some e =>
          cases e with
          | set w => exact ht
          | got r w => exact ⟨hgot r w rfl, ht⟩

end SeqLock

end StorageLib
