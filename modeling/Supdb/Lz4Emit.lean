import Supdb.Lz4Encode

/-!
# Emitted sequences decode to their input

What a parse must give for its block to be lossless, and that it is enough.

* **`Repeats input p off ml`** – a match: the `ml` bytes at `p` are the bytes `off` back, which are
  there and in an offset's reach.
* **`Chains input pos qs`** – sequences that follow one another from `pos`, each with its run and
  its match.
* `blockBytes` – the block they are written as; `emitFrom_spec` says `emit` writes it, inside any
  output of `maxOutput` bytes.
* **`blockFrom_blockBytes`** – the block says the input, from any sequence's start on.
-/

namespace Supdb

open StorageLib

/-! ## Length bytes -/

/-- The length bytes of a field of `k`. -/
def lenBytes (k : ℕ) : Bytes :=
  if k < 15 then [] else List.replicate ((k - 15) / 255) 255 ++ [UInt8.ofNat ((k - 15) % 255)]

lemma length_lenBytes (k : ℕ) : (lenBytes k).length = ext k := by
  rw [lenBytes, ext]
  split
  · rfl
  · rw [List.length_append, List.length_replicate, List.length_singleton, Nat.add_comm]

/-- A length under 255 ends the bytes; a byte of 255 goes on. -/
lemma varLenLoop_lenBytes (m : ℕ) {r : ℕ} (hr : r < 255) (post : Bytes) :
    ∀ (pre : Bytes) (n : ℕ),
      varLenLoop (pre ++ (List.replicate m 255 ++ [UInt8.ofNat r]) ++ post) n pre.length
        = some (n + (255 * m + r), pre.length + (m + 1)) := by
  induction m with
  | zero =>
      intro pre n
      have hr' : (UInt8.ofNat r).toNat = r := by rw [UInt8.toNat_ofNat']; omega
      have hne : UInt8.ofNat r ≠ 255 := by
        intro hc
        rw [hc] at hr'
        have : (255 : UInt8).toNat = 255 := rfl
        omega
      rw [varLenLoop, dif_pos (by simp)]
      simp [hne, hr']
  | succ m ih =>
      intro pre n
      have h := ih (pre ++ [255]) (n + 255)
      rw [varLenLoop, dif_pos (by simp)]
      have hsrc : pre ++ (List.replicate (m + 1) 255 ++ [UInt8.ofNat r]) ++ post
          = pre ++ [255] ++ (List.replicate m 255 ++ [UInt8.ofNat r]) ++ post := by
        rw [List.replicate_succ]
        simp
      simp only [hsrc]
      rw [if_pos (by simp)]
      rw [List.length_append, List.length_singleton] at h
      rw [h]
      congr 2
      · omega
      · omega

/-- **A length round-trips** through its nibble and its length bytes. -/
lemma runLen_lenBytes (pre post : Bytes) (k : ℕ) :
    runLen (pre ++ lenBytes k ++ post) (min k 15) pre.length
    = some (k, pre.length + (lenBytes k).length) := by
  rcases Nat.lt_or_ge k 15 with hk | hk
  · rw [runLen_short (by omega), lenBytes, if_pos hk]
    congr 2
    omega
  · have hmod := Nat.div_add_mod (k - 15) 255
    have hlt := Nat.mod_lt (k - 15) (show 0 < 255 by omega)
    rw [runLen_long (by omega), lenBytes, if_neg (by omega), varLen, varLenLoop_lenBytes _ hlt,
      Option.map_some]
    simp only [List.length_append, List.length_replicate, List.length_singleton]
    congr 2
    omega

/-! ## Writing -/

section Writing

variable {w out : Bytes} {room : ℕ}

lemma putAt_spec (h : Written w out room) {x : Bytes} (hroom : w.length + x.length ≤ room) :
    ∃ out', putAt out w.length x = some out' ∧ Written (w ++ x) out' room := by
  rw [putAt, if_pos (by rw [h.length]; exact hroom)]
  exact ⟨_, rfl, h.overwritten hroom⟩

lemma putLenLoop_spec (r : ℕ) :
    ∀ {w out : Bytes}, Written w out room → w.length + (r / 255 + 1) ≤ room →
      ∃ out', putLenLoop out w.length r = some (out', w.length + (r / 255 + 1))
        ∧ Written (w ++ (List.replicate (r / 255) 255 ++ [UInt8.ofNat (r % 255)])) out' room := by
  induction r using Nat.strong_induction_on with
  | _ r ih =>
      intro w out h hroom
      rw [putLenLoop]
      split
      · rename_i hr
        have hdiv : r / 255 = (r - 255) / 255 + 1 := by omega
        have hmod : r % 255 = (r - 255) % 255 := by omega
        obtain ⟨out1, he1, h1⟩ := putAt_spec (x := [255]) h (by rw [List.length_singleton]; omega)
        have hlen : (w ++ [(255 : UInt8)]).length = w.length + 1 := by rw [List.length_append, List.length_singleton]
        obtain ⟨out2, he2, h2⟩ := ih (r - 255) (by omega) h1 (by omega)
        rw [hlen] at he2
        rw [he1]
        simp only
        rw [he2, hdiv, hmod, List.replicate_succ]
        refine ⟨out2, by congr 2; omega, ?_⟩
        rw [List.cons_append, ← List.singleton_append, ← List.append_assoc]
        exact h2
      · rename_i hr
        have hdiv : r / 255 = 0 := by omega
        have hmod : r % 255 = r := by omega
        obtain ⟨out1, he1, h1⟩ := putAt_spec (x := [UInt8.ofNat r]) h (by rw [List.length_singleton]; omega)
        rw [he1, hdiv, hmod]
        exact ⟨out1, rfl, h1⟩

lemma putLen_spec (h : Written w out room) {k : ℕ} (hroom : w.length + (lenBytes k).length ≤ room) :
    ∃ out', putLen out w.length k = some (out', (w ++ lenBytes k).length) ∧
    Written (w ++ lenBytes k) out' room := by
  rw [length_lenBytes] at hroom
  rw [List.length_append, length_lenBytes, putLen, lenBytes, ext]
  rw [ext] at hroom
  split
  · rw [List.append_nil]
    exact ⟨out, rfl, h⟩
  · rename_i hk
    rw [if_neg hk] at hroom
    rw [Nat.add_comm 1]
    exact putLenLoop_spec (k - 15) h (by omega)

end Writing

/-! ## Sequences -/

/-- A match in the input: `ml` bytes at `p` that are the bytes `off` back. -/
structure Repeats (input : Bytes) (p off ml : ℕ) : Prop where
  pos : 0 < off
  behind : off ≤ p
  reach : off ≤ MAX_DISTANCE
  least : MINMATCH ≤ ml
  inside : p + ml ≤ input.length
  same : ∀ i, i < ml → input[p + i]? = input[p + i - off]?

/-- Sequences that follow one another from `pos`, each with its run and its match. -/
def Chains (input : Bytes) : ℕ → List Seq → Prop
  | pos, [] => pos ≤ input.length
  | pos, q :: qs =>
      q.litAt = pos ∧ Repeats input (pos + q.lit) q.off q.ml ∧ Chains input (pos + q.lit + q.ml) qs

/-- The token of a sequence. -/
def tokenOf (lit more : ℕ) : UInt8 := UInt8.ofNat (min lit 15 * 16 + min more 15)

lemma tokenOf_spec (lit more : ℕ) :
    (tokenOf lit more).toNat / 16 = min lit 15 ∧ (tokenOf lit more).toNat % 16 = min more 15 := by
  rw [tokenOf, UInt8.toNat_ofNat']
  omega

/-- A sequence as it is written, the run being `lits`. -/
def seqBytes (lits : Bytes) (off ml : ℕ) : Bytes :=
  tokenOf lits.length (ml - MINMATCH) ::
    (lenBytes lits.length ++ lits ++ leBytes 2 off ++ lenBytes (ml - MINMATCH))

/-- The last run as it is written. -/
def lastBytes (lits : Bytes) : Bytes := tokenOf lits.length 0 :: (lenBytes lits.length ++ lits)

/-- The block of sequences from `pos` on. -/
def blockBytes (input : Bytes) : ℕ → List Seq → Bytes
  | pos, [] => lastBytes (slice input pos input.length)
  | pos, q :: qs =>
      seqBytes (slice input pos (pos + q.lit)) q.off q.ml ++ blockBytes input (pos + q.lit + q.ml) qs

/-- **A repeat is what a reference appends.** -/
lemma Repeats.extendBack_take {input : Bytes} {p off ml : ℕ} (h : Repeats input p off ml) :
    extendBack (input.take p) off ml = input.take (p + ml) := by
  have hin := h.inside
  have hpos := h.pos
  have hbehind := h.behind
  have hsame := h.same
  clear h
  induction ml with
  | zero => rfl
  | succ ml ih =>
      have hml := ih (by omega) (fun i hi => hsame i (by omega))
      have hlen : (input.take (p + ml)).length = p + ml := by rw [List.length_take]; omega
      rw [extendBack, hml]
      simp only [hlen]
      rw [List.getElem?_take, if_pos (by omega), ← hsame ml (Nat.lt_succ_self ml), ← Nat.add_assoc, List.take_add_one]

section Decoding

variable {input : Bytes} {pos : ℕ}

lemma take_append_slice (l : Bytes) {a b : ℕ} (h : a ≤ b) : l.take a ++ slice l a b = l.take b := by
  have h0 : ∀ c, slice l 0 c = l.take c := fun c => List.drop_zero
  rw [← h0 a, slice_append_slice l (Nat.zero_le a) h, h0]

/-- A run decodes to itself, its token in front. -/
lemma runLen_token {pre post : Bytes} (lits : Bytes) (t : UInt8)
    (ht : t.toNat / 16 = min lits.length 15) :
    runLen (pre ++ t :: (lenBytes lits.length ++ post)) (t.toNat / 16) (pre.length + 1)
      = some (lits.length, pre.length + 1 + (lenBytes lits.length).length) := by
  have h := runLen_lenBytes (pre ++ [t]) post lits.length
  rw [List.length_append, List.length_singleton] at h
  rw [ht, ← h]
  congr 1
  simp

/-- **A sequence's token and its run**, read back where they stand in a block. -/
lemma sequence_run {src pre post lits : Bytes} {t : UInt8} (ht : t.toNat / 16 = min lits.length 15)
    (hsrc : src = (pre ++ t :: lenBytes lits.length) ++ (lits ++ post)) :
    src[pre.length]? = some t ∧
      (pre ++ t :: lenBytes lits.length).length = pre.length + 1 + (lenBytes lits.length).length ∧
      runLen src (t.toNat / 16) (pre.length + 1)
        = some (lits.length, pre.length + 1 + (lenBytes lits.length).length) ∧
      slice src (pre.length + 1 + (lenBytes lits.length).length)
        (pre.length + 1 + (lenBytes lits.length).length + lits.length) = lits := by
  have hsrc' : src = pre ++ t :: (lenBytes lits.length ++ (lits ++ post)) := by
    rw [hsrc, List.append_assoc, List.cons_append]
  have hlen : (pre ++ t :: lenBytes lits.length).length
    = pre.length + 1 + (lenBytes lits.length).length := by
    rw [List.length_append, List.length_cons]
    omega
  refine ⟨?_, hlen, ?_, ?_⟩
  · rw [hsrc', List.getElem?_append_right (le_refl _), Nat.sub_self]
    rfl
  · rw [hsrc']
    exact runLen_token lits t ht
  · rw [hsrc]
    exact slice_append_mid hlen.symm (congrArg (· + lits.length) hlen.symm)

/-- **A sequence decodes to its run and its match.** -/
lemma sequenceAt_seqBytes {q : Seq} (h : Repeats input (pos + q.lit) q.off q.ml)
    (pre post : Bytes) :
    sequenceAt (pre ++ seqBytes (slice input pos (pos + q.lit)) q.off q.ml ++ post) input.length
        pre.length (input.take pos)
      = some (false, (pre ++ seqBytes (slice input pos (pos + q.lit)) q.off q.ml).length,
          input.take (pos + q.lit + q.ml)) := by
  have hin := h.inside
  have hleast := h.least
  have hlits : (slice input pos (pos + q.lit)).length = q.lit := by
    rw [length_slice_of_le (by omega)]; omega
  have htake := take_append_slice input (show pos ≤ pos + q.lit by omega)
  set lits := slice input pos (pos + q.lit) with hlitsdef
  obtain ⟨htok1, htok2⟩ := tokenOf_spec lits.length (q.ml - MINMATCH)
  set t := tokenOf lits.length (q.ml - MINMATCH) with ht
  set src := pre ++ seqBytes lits q.off q.ml ++ post with hsrc
  -- the block cut at its token, behind its run and behind its offset
  have hsrc1 :
    src
    =
    pre ++
    t ::
    (lenBytes lits.length ++ (lits ++ leBytes 2 q.off ++ lenBytes (q.ml - MINMATCH) ++ post)) := by
    rw [hsrc, seqBytes]
    simp [ht]
  have hsrc2 : src = (pre ++ t :: lenBytes lits.length)
      ++ (lits ++ (leBytes 2 q.off ++ lenBytes (q.ml - MINMATCH) ++ post)) := by
    rw [hsrc1]
    simp
  have hsrc3 : src = (pre ++ t :: lenBytes lits.length ++ lits)
      ++ (leBytes 2 q.off ++ (lenBytes (q.ml - MINMATCH) ++ post)) := by
    rw [hsrc1]
    simp
  have hsrc4 : src = (pre ++ t :: lenBytes lits.length ++ lits ++ leBytes 2 q.off) ++
      lenBytes (q.ml - MINMATCH) ++ post := by
    rw [hsrc1]
    simp
  obtain ⟨hget, hlen1, hrun, hsl⟩ := sequence_run htok1 hsrc2
  have hlen2 : (pre ++ t :: lenBytes lits.length ++ lits).length
      = pre.length + 1 + (lenBytes lits.length).length + lits.length := by
    rw [List.length_append, hlen1]
  have hfit : pre.length + 1 + (lenBytes lits.length).length + lits.length + 2 ≤ src.length := by
    rw [hsrc4, List.length_append, List.length_append, List.length_append, hlen2, length_leBytes]
    omega
  have hword : readWord 2 src (pre.length + 1 + (lenBytes lits.length).length + lits.length)
    = some q.off := by
    rw [hsrc3]
    refine readWord_append_mid hlen2.symm ?_
    have hreach := h.reach
    rw [MAX_DISTANCE] at hreach
    omega
  have hml := runLen_lenBytes (pre ++ t :: lenBytes lits.length ++ lits ++ leBytes 2 q.off) post
    (q.ml - MINMATCH)
  rw [← hsrc4, ← htok2, List.length_append, hlen2, length_leBytes] at hml
  have hout : (input.take (pos + q.lit)).length = pos + q.lit := by rw [List.length_take]; omega
  rw [sequenceAt, hget]
  simp only [hrun]
  rw [if_pos ⟨by omega, by rw [List.length_take]; omega⟩, hsl, htake, matchAt,
    if_neg (by omega), hword]
  simp only
  rw [if_neg (by have := h.pos; have := h.behind; omega), hml]
  simp only
  rw [Nat.sub_add_cancel hleast, if_pos (by omega), h.extendBack_take]
  simp only [Option.some.injEq, Prod.mk.injEq, true_and, and_true]
  rw [seqBytes, ← ht]
  simp only [List.length_append, List.length_cons, length_leBytes]
  omega

/-- The last run decodes to the rest of the input. -/
lemma sequenceAt_lastBytes (hpos : pos ≤ input.length) (pre : Bytes) :
    sequenceAt (pre ++ lastBytes (slice input pos input.length)) input.length pre.length
      (input.take pos)
      = some (true, (pre ++ lastBytes (slice input pos input.length)).length, input) := by
  have hlits : (slice input pos input.length).length = input.length - pos :=
    length_slice_of_le (le_refl _)
  have htake := take_append_slice input hpos
  rw [List.take_length] at htake
  set lits := slice input pos input.length with hlitsdef
  obtain ⟨htok1, -⟩ := tokenOf_spec lits.length 0
  set t := tokenOf lits.length 0 with ht
  set src := pre ++ lastBytes lits with hsrc
  have hsrc2 : src = (pre ++ t :: lenBytes lits.length) ++ (lits ++ []) := by
    rw [hsrc, lastBytes]
    simp [ht]
  obtain ⟨hget, hlen1, hrun, hsl⟩ := sequence_run htok1 hsrc2
  have hlen : src.length = pre.length + 1 + (lenBytes lits.length).length + lits.length := by
    rw [hsrc2, List.append_nil, List.length_append, hlen1]
  rw [sequenceAt, hget]
  simp only [hrun]
  rw [if_pos ⟨by omega, by rw [List.length_take]; omega⟩, hsl, htake, matchAt,
    if_pos hlen.symm, hlen]

/-- **The block of sequences that follow one another says the input**, from any of them on. -/
lemma blockFrom_blockBytes {qs : List Seq} :
    ∀ {pos : ℕ} (pre : Bytes), Chains input pos qs →
      blockFrom (pre ++ blockBytes input pos qs) input.length pre.length (input.take pos)
      = some input := by
  induction qs with
  | nil =>
      intro pos pre h
      rw [blockFrom_of_lt (by rw [blockBytes, lastBytes, List.length_append, List.length_cons]; omega), blockBytes,
        sequenceAt_lastBytes h]
      rfl
  | cons q qs ih =>
      intro pos pre h
      obtain ⟨-, hrep, hrest⟩ := h
      rw [blockFrom_of_lt (by rw [blockBytes, seqBytes]; simp), blockBytes, ← List.append_assoc,
        sequenceAt_seqBytes hrep]
      exact ih _ hrest

end Decoding

/-! ## The bound -/

/-- A run's length bytes, against its literals. -/
lemma ext_le (k : ℕ) : ext k ≤ 1 + k / 255 := by
  rw [ext]
  split
  · omega
  · have := Nat.div_le_div_right (c := 255) (Nat.sub_le k 15)
    omega

/-- A match's offset and its length bytes are fewer than the bytes it covers, by the two a token and
a run's first length byte can cost. -/
lemma ext_match_le {ml : ℕ} (h : MINMATCH ≤ ml) : ext (ml - MINMATCH) + 4 ≤ ml := by
  rw [MINMATCH] at *
  rw [ext]
  split
  · omega
  · have := Nat.div_mul_le_self (ml - 4 - 15) 255
    omega

lemma length_blockBytes {input : Bytes} {qs : List Seq} :
    ∀ {pos : ℕ}, Chains input pos qs →
      (blockBytes input pos qs).length ≤ (input.length - pos) + (input.length - pos) / 255 + 2 := by
  induction qs with
  | nil =>
      intro pos h
      have hlits : (slice input pos input.length).length = input.length - pos := length_slice_of_le (le_refl _)
      have hext := ext_le (input.length - pos)
      rw [blockBytes, lastBytes, List.length_cons, List.length_append, length_lenBytes, hlits]
      omega
  | cons q qs ih =>
      intro pos h
      obtain ⟨-, hrep, hrest⟩ := h
      have hin := hrep.inside
      have hle := ih hrest
      have hlits : (slice input pos (pos + q.lit)).length = q.lit := by rw [length_slice_of_le (by omega)]; omega
      have hext := ext_le q.lit
      have hmatch := ext_match_le hrep.least
      have hdiv : q.lit / 255 + (input.length - (pos + q.lit + q.ml)) / 255 ≤ (input.length - pos) / 255 := by
        exact Nat.div_add_div_le_add_div.trans (Nat.div_le_div_right (by omega))
      rw [blockBytes, seqBytes]
      simp only [List.length_append, List.length_cons, length_lenBytes, hlits, length_leBytes]
      omega

/-! ## What `emit` writes -/

section Emitting

variable {input w out : Bytes} {room : ℕ}

lemma emitLast_spec {pos : ℕ} (h : Written w out room) (hpos : pos ≤ input.length)
    (hroom : (w ++ blockBytes input pos []).length ≤ room) :
    ∃ out', emitLast input out w.length pos = some ((w ++ blockBytes input pos []).length, out')
      ∧ Written (w ++ blockBytes input pos []) out' room := by
  have hlits : (slice input pos input.length).length = input.length - pos :=
    length_slice_of_le (le_refl _)
  have hrange : getRange input pos input.length = some (slice input pos input.length) :=
    if_pos ⟨hpos, le_refl _⟩
  rw [blockBytes, lastBytes] at *
  rw [List.length_append, List.length_cons, List.length_append, hlits] at hroom
  rw [emitLast, checkedSub_of_le hpos, hrange, ← hlits]
  rw [← hlits] at hroom
  generalize slice input pos input.length = lits at hroom ⊢
  have htok : UInt8.ofNat (min lits.length 15 * 16) = tokenOf lits.length 0 := by
    rw [tokenOf, Nat.zero_min, Nat.add_zero]
  obtain ⟨o1, he1, h1⟩ :=
    putAt_spec (x := [tokenOf lits.length 0]) h (by rw [List.length_singleton]; omega)
  have hl1 : (w ++ [tokenOf lits.length 0]).length = w.length + 1 := by
    rw [List.length_append, List.length_singleton]
  obtain ⟨o2, he2, h2⟩ := putLen_spec (k := lits.length) h1 (by omega)
  have hl2 : (w ++ [tokenOf lits.length 0] ++ lenBytes lits.length).length
      = w.length + 1 + (lenBytes lits.length).length := by
    rw [List.length_append, hl1]
  obtain ⟨o3, he3, h3⟩ := putAt_spec (x := lits) h2 (by omega)
  rw [hl1] at he2
  simp only [Option.bind_eq_bind, Option.bind_some, htok, he1, he2, he3]
  have hw : w ++ tokenOf lits.length 0 :: (lenBytes lits.length ++ lits)
      = w ++ [tokenOf lits.length 0] ++ lenBytes lits.length ++ lits := by
    simp
  rw [hw, ← List.length_append]
  exact ⟨o3, rfl, h3⟩

/-- **`emit` writes the block** of sequences that follow one another, and every index it forms is
inside an output that has room for it. -/
lemma emitFrom_spec {qs : List Seq} :
    ∀ {pos : ℕ} {w out : Bytes}, Written w out room → Chains input pos qs →
      (w ++ blockBytes input pos qs).length ≤ room →
      ∃ out', emitFrom input qs out w.length pos = some ((w ++ blockBytes input pos qs).length, out')
        ∧ Written (w ++ blockBytes input pos qs) out' room := by
  induction qs with
  | nil =>
      intro pos w out h hch hroom
      exact emitLast_spec h hch hroom
  | cons q qs ih =>
      intro pos w out h hch hroom
      obtain ⟨hat, hrep, hrest⟩ := hch
      have hin := hrep.inside
      have hlits : (slice input pos (pos + q.lit)).length = q.lit := by rw [length_slice_of_le (by omega)]; omega
      have hrange : getRange input pos (pos + q.lit) = some (slice input pos (pos + q.lit)) :=
        if_pos ⟨by omega, by omega⟩
      rw [emitFrom, hat, checkedSub_of_le hrep.least, hrange]
      rw [blockBytes] at *
      have hseq : seqBytes (slice input pos (pos + q.lit)) q.off q.ml
          = [tokenOf q.lit (q.ml - MINMATCH)] ++ lenBytes q.lit ++ slice input pos (pos + q.lit)
            ++ leBytes 2 q.off ++ lenBytes (q.ml - MINMATCH) := by
        rw [seqBytes, hlits]
        simp
      rw [hseq] at hroom ⊢
      simp only [List.length_append, List.length_singleton, hlits, length_leBytes] at hroom
      generalize slice input pos (pos + q.lit) = lits at hlits hroom ⊢
      obtain ⟨o1, he1, h1⟩ :=
        putAt_spec (x := [tokenOf q.lit (q.ml - MINMATCH)]) h (by rw [List.length_singleton]; omega)
      obtain ⟨o2, he2, h2⟩ :=
        putLen_spec (k := q.lit) h1
        (by simp only [List.length_append, List.length_singleton]; omega)
      obtain ⟨o3, he3, h3⟩ :=
        putAt_spec (x := lits) h2 (by simp only [List.length_append, List.length_singleton, hlits]; omega)
      obtain ⟨o4, he4, h4⟩ :=
        putAt_spec (x := leBytes 2 q.off) h3
          (by simp only [List.length_append, List.length_singleton, hlits, length_leBytes]; omega)
      obtain ⟨o5, he5, h5⟩ :=
        putLen_spec (k := q.ml - MINMATCH) h4
          (by simp only [List.length_append, List.length_singleton, hlits, length_leBytes]; omega)
      obtain ⟨o6, he6, h6⟩ := ih h5 hrest
        (by simp only [List.length_append, List.length_singleton, hlits, length_leBytes]; omega)
      simp only [List.length_append, List.length_singleton, hlits, length_leBytes] at he2 he3 he4 he5 he6
      rw [tokenOf] at *
      simp only [Option.bind_eq_bind, Option.bind_some, he1, he2, he3, he4, he5, he6]
      refine ⟨o6, ?_, ?_⟩
      · simp only [List.length_append, List.length_singleton, hlits, length_leBytes, Nat.add_assoc]
      · simp only [List.append_assoc] at h6 ⊢
        exact h6

end Emitting

end Supdb
