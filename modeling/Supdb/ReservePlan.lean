import Supdb.Reserve

/-!
# What the reserve planner answers

A planner's state is a sum over the keys it was given, and its answer four functions of that sum.

* `cutAll_le_worst` – no cut gives more blocks than `worstBlocks`.
* `Planned` – what a planner holds after some keys, kept by each key (`Planned.push`) and so by all
  (`planned_foldl`).
* `forLengthsAs_eq` – what the planner answers over a list of keys, piece by piece.
-/

namespace Supdb.Reserve

open StorageLib Flatindex

/-! ## Counting blocks -/

section Cut

variable {blockSize maxRun : ℕ}

/-- The blocks closed or begun, against the runs cut and the bytes in them. -/
structure CutOk (blockSize maxRun count total : ℕ) (st : ℕ × ℕ) : Prop where
  below : st.1 ≠ 0 → st.1 < blockSize
  byCount : lastBlock st ≤ count
  byBytes : maxRun < blockSize → st.2 * (blockSize - maxRun) + st.1 ≤ total

lemma cutOk_start : CutOk blockSize maxRun 0 0 (0, 0) :=
  ⟨fun h => absurd rfl h, le_refl 0, fun _ => by simp⟩

/-- One run, in the three ways the cut can take it. -/
lemma cut_cases {staged n : ℕ} (hbelow : staged ≠ 0 → staged < blockSize)
    (hsize : blockSize < 2 ^ 64) (hn : n < 2 ^ 64) :
    (staged ≠ 0 ∧ blockSize - staged < n ∧ cut staged n blockSize =
      if blockSize ≤ n then (0, 2) else (n, 1)) ∨
    ((staged = 0 ∨ n ≤ blockSize - staged) ∧ cut staged n blockSize =
      if blockSize ≤ staged + n then (0, 1) else (staged + n, 0)) := by
  by_cases h : staged ≠ 0 ∧ blockSize - staged < n
  · refine Or.inl ⟨h.1, h.2, ?_⟩
    simp only [cut, if_pos h]
    rw [Nat.zero_add, min_eq_left (by omega)]
  · refine Or.inr ⟨by omega, ?_⟩
    have hsum : staged + n ≤ 2 ^ 64 - 1 := by
      by_cases h0 : staged = 0
      · omega
      · have hfits := not_lt.mp (fun hlt => h ⟨h0, hlt⟩)
        have hlt := hbelow h0
        omega
    simp only [cut, if_neg h]
    rw [min_eq_left hsum]

/-- A run cut keeps the counts. -/
lemma CutOk.step {count total n : ℕ} {st : ℕ × ℕ} (h : CutOk blockSize maxRun count total st)
    (hsize : blockSize < 2 ^ 64) (hle : n ≤ maxRun) (hn : n < 2 ^ 64) :
    CutOk blockSize maxRun (count + 1) (total + n)
      ((cut st.1 n blockSize).1, st.2 + (cut st.1 n blockSize).2) := by
  obtain ⟨staged, closed⟩ := st
  have hcount := h.byCount
  have hbelow := h.below
  simp only [lastBlock] at hcount hbelow
  rcases cut_cases hbelow hsize hn with ⟨hne, hover, heq⟩ | ⟨hfits, heq⟩
  · rw [if_pos hne] at hcount
    have hlt : staged < blockSize := hbelow hne
    have hbytes : maxRun < blockSize →
        (closed + 1) * (blockSize - maxRun) ≤ total := by
      intro hmax
      have hb := h.byBytes hmax
      rw [Nat.add_mul, Nat.one_mul]
      simp only at hb
      omega
    rw [heq]
    split_ifs with hfull
    · refine ⟨fun h0 => absurd rfl h0, by simp [lastBlock]; omega, fun hmax => ?_⟩
      exact absurd hmax (by omega)
    · refine ⟨fun _ => by simp only; omega, ?_, fun hmax => ?_⟩
      · simp only [lastBlock]
        split_ifs <;> omega
      · have hb := hbytes hmax
        simp only
        omega
  · rw [heq]
    split_ifs with hfull
    · refine ⟨fun h0 => absurd rfl h0, ?_, fun hmax => ?_⟩
      · simp only [lastBlock, ne_eq, not_true_eq_false, if_false]
        split_ifs at hcount <;> omega
      · have hb := h.byBytes hmax
        simp only at hb ⊢
        rw [Nat.add_mul, Nat.one_mul]
        omega
    · refine ⟨fun _ => by simp only; omega, ?_, fun hmax => ?_⟩
      · simp only [lastBlock]
        split_ifs at hcount ⊢ <;> omega
      · have hb := h.byBytes hmax
        simp only [Nat.add_zero] at hb ⊢
        omega

/-- The counts after any runs. -/
lemma CutOk.run {count total : ℕ} {st : ℕ × ℕ} (runs : List ℕ)
    (h : CutOk blockSize maxRun count total st) (hle : ∀ r ∈ runs, r ≤ maxRun)
    (hsize : blockSize < 2 ^ 64) (hmax : maxRun < 2 ^ 64) :
    CutOk blockSize maxRun (count + runs.length) (total + runs.sum) (cutAll blockSize st runs) := by
  induction runs generalizing count total st with
  | nil => simpa [cutAll] using h
  | cons r rs ih =>
      have hr := hle r (List.mem_cons_self ..)
      have hrest := ih (h.step hsize hr (by omega)) (fun x hx => hle x (List.mem_cons_of_mem _ hx))
      rw [List.length_cons, List.sum_cons]
      rw [show count + (rs.length + 1) = count + 1 + rs.length by omega, ← Nat.add_assoc]
      exact hrest

/-- No cut of runs of these totals gives more blocks than the worst one. -/
lemma cutAll_le_worst {runs : List ℕ} {n total : ℕ} (hn : runs.length ≤ n) (hsum : runs.sum ≤ total)
    (hle : ∀ r ∈ runs, r ≤ maxRun) (hsize : blockSize < 2 ^ 64) (hmax : maxRun < 2 ^ 64) :
    blocksFor runs blockSize ≤ worstBlocks n maxRun total blockSize := by
  have hok := cutOk_start.run runs hle hsize hmax
  rw [Nat.zero_add, Nat.zero_add] at hok
  have hcount : blocksFor runs blockSize ≤ n := hok.byCount.trans hn
  rw [worstBlocks]
  split_ifs with hbig
  · exact hcount
  · refine le_min ?_ hcount
    have hbytes := hok.byBytes (not_le.mp hbig)
    have hpos : 0 < blockSize - maxRun := by omega
    rw [divCeil, Nat.le_div_iff_mul_le hpos, blocksFor, lastBlock, Nat.add_mul]
    split_ifs with h0 <;> omega

end Cut

/-! ## What a planner holds -/

/-- Whether a run goes into its record. -/
def goesInline (inlineMax runLen : ℕ) : Bool := 0 < inlineMax ∧ runLen ≤ inlineMax

/-- The records' bytes. -/
def recordBytesOf (inlineMax : ℕ) (compact : Bool) (keys : List (ℕ × ℕ)) : ℕ :=
  (keys.map (fun k => segmentRecordLen k.1 k.2 (goesInline inlineMax k.2) compact)).sum

/-- The runs that reach a block. -/
def blockRuns (inlineMax : ℕ) (keys : List (ℕ × ℕ)) : List ℕ :=
  (keys.filter (fun k => !goesInline inlineMax k.2)).map Prod.snd

/-- The bytes of the keys the fence samples. -/
def fenceBlobOf (target : ℕ+) (keys : List (ℕ × ℕ)) : ℕ :=
  let stride := fenceStride target keys.length
  ((List.range (divCeil keys.length stride)).map
    (fun i => ((keys[i * stride]?).map Prod.fst).getD 0)).sum

/-- What a planner holds after the keys of `keys`. -/
structure Planned (blockSize inlineMax : ℕ) (compact : Bool) (keys : List (ℕ × ℕ)) (p : Planner) :
    Prop where
  size : p.blockSize = blockSize
  limit : p.inlineMax = inlineMax
  form : p.compact = compact
  spacing : p.sampleStride = FENCE_MIN_STRIDE
  count : p.keys = keys.length
  bytes : p.recBytes = recordBytesOf inlineMax compact keys
  cuts : (p.staged, p.blocks) = cutAll blockSize (0, 0) (blockRuns inlineMax keys)
  samples : ∀ j, p.sampled[j]? = (keys[FENCE_MIN_STRIDE * j]?).map Prod.fst
  sized : ∀ k ∈ keys, k.1 ≤ 65535 ∧ k.2 ≤ MAX_RUN

lemma blockTableLen_mono {a b : ℕ} (h : a ≤ b) : blockTableLen a ≤ blockTableLen b := by
  simp only [blockTableLen, BLK_HEADER, BLK_ENTRY, CRC_ROW, MAX_CHUNK_CRCS]
  omega

section Planned

variable {target : ℕ+} {blockSize inlineMax : ℕ} {compact : Bool} {keys : List (ℕ × ℕ)}

/-- The smallest stride. -/
lemma fenceStride_zero : fenceStride target 0 = FENCE_MIN_STRIDE := by
  have hzero : divCeil 0 target = 0 := by
    rw [divCeil]
    exact Nat.div_eq_of_lt (by have := target.pos; omega)
  rw [fenceStride, hzero, Nat.zero_max]
  decide

lemma planned_new :
    Planned blockSize inlineMax compact []
      ((Planner.new target blockSize inlineMax).compactRecords compact) :=
  { size := rfl, limit := rfl, form := rfl, spacing := fenceStride_zero, count := rfl, bytes := rfl
    cuts := rfl, samples := fun j => by simp [Planner.new, Planner.compactRecords]
    sized := fun k hk => absurd hk List.not_mem_nil }

/-- The state behind a key the planner takes. -/
def Planner.taken (p : Planner) (klen run : ℕ) : Planner :=
  { p with
    sampled := if p.keys % p.sampleStride = 0 then p.sampled ++ [klen] else p.sampled
    recBytes := p.recBytes + segmentRecordLen klen run (p.inlines run) p.compact
    staged := if p.inlines run then p.staged else (cut p.staged run p.blockSize).1
    blocks := p.blocks + if p.inlines run then 0 else (cut p.staged run p.blockSize).2
    keys := p.keys + 1 }

/-- A planner that answers has taken every key, and one that has refused a key never answers. -/
lemma Planner.push_cases {p : Planner} {klen run : ℕ} (h : (p.push klen run).viable = true) :
    p.viable = true ∧ klen ≤ 65535 ∧ run ≤ MAX_RUN ∧ p.push klen run = p.taken klen run := by
  rw [Planner.push] at h ⊢
  by_cases hbad : 65535 < klen ∨ MAX_RUN < run
  · rw [if_pos hbad] at h
    exact absurd h Bool.false_ne_true
  · rw [if_neg hbad] at h ⊢
    by_cases hsum : p.recBytes + segmentRecordLen klen run (p.inlines run) p.compact < 2 ^ 64
    · simp only [checked, if_pos hsum] at h ⊢
      refine ⟨h, by omega, by omega, ?_⟩
      · cases hin : p.inlines run <;> simp [taken, hin]
    · simp only [checked, if_neg hsum] at h
      exact absurd h Bool.false_ne_true

/-- A sample is kept at every sixteenth key. -/
lemma samples_append {sampled : List ℕ} (k : ℕ × ℕ)
    (h : ∀ j, sampled[j]? = (keys[16 * j]?).map Prod.fst) (j : ℕ) :
    (if keys.length % 16 = 0 then sampled ++ [k.1] else sampled)[j]? =
      ((keys ++ [k])[16 * j]?).map Prod.fst := by
  have hlen : ∀ i, sampled.length ≤ i ↔ keys.length ≤ 16 * i := by
    intro i
    rw [← List.getElem?_eq_none_iff, h, Option.map_eq_none_iff, List.getElem?_eq_none_iff]
  have hat := hlen j
  rcases lt_trichotomy (16 * j) keys.length with hlt | heq | hgt
  · rw [List.getElem?_append_left hlt, ← h]
    by_cases hdiv : keys.length % 16 = 0
    · rw [if_pos hdiv]
      exact List.getElem?_append_left (by omega)
    · rw [if_neg hdiv]
  · have hbefore := hlen (j - 1)
    have hj : sampled.length = j := by omega
    rw [if_pos (by omega), heq, List.getElem?_append_right (by omega), hj, Nat.sub_self,
      List.getElem?_append_right (by omega), Nat.sub_self]
    rfl
  · have hlast := hlen (keys.length / 16)
    have hend : (keys ++ [k])[16 * j]? = none := by
      rw [List.getElem?_eq_none_iff, List.length_append, List.length_singleton]
      omega
    rw [hend, Option.map_none, List.getElem?_eq_none_iff]
    by_cases hdiv : keys.length % 16 = 0
    · rw [if_pos hdiv, List.length_append, List.length_singleton]
      omega
    · rw [if_neg hdiv]
      omega

/-- One key more. -/
lemma Planned.push {p : Planner} (h : Planned blockSize inlineMax compact keys p) (k : ℕ × ℕ)
    (hv : (p.push k.1 k.2).viable = true) :
    Planned blockSize inlineMax compact (keys ++ [k]) (p.push k.1 k.2) := by
  obtain ⟨-, hklen, hrun, heq⟩ := Planner.push_cases hv
  have hin : p.inlines k.2 = goesInline inlineMax k.2 := by rw [← h.limit]; rfl
  rw [heq]
  refine
    { size := h.size, limit := h.limit, form := h.form, spacing := h.spacing, count := ?_
      bytes := ?_, cuts := ?_, samples := ?_, sized := ?_ }
  · simp only [Planner.taken, h.count, List.length_append, List.length_singleton]
  · simp only [Planner.taken, h.bytes, hin, h.form, recordBytesOf, List.map_append, List.map_cons,
      List.map_nil, List.sum_append, List.sum_singleton]
  · have hcuts := h.cuts
    simp only [Planner.taken, hin, h.size, blockRuns, List.filter_append, List.map_append]
    rw [cutAll, List.foldl_append]
    rw [cutAll, blockRuns] at hcuts
    rw [← hcuts]
    cases hgo : goesInline inlineMax k.2 <;> simp [hgo]
  · intro j
    simp only [Planner.taken, h.count, h.spacing]
    exact samples_append k h.samples j
  · intro x hx
    rcases List.mem_append.mp hx with hx | hx
    · exact h.sized x hx
    · rw [List.mem_singleton.mp hx]
      exact ⟨hklen, hrun⟩

/-- A planner's state after every key, where it still answers. -/
lemma planned_foldl (hv : (keys.foldl (fun p k => Planner.push p k.1 k.2)
      ((Planner.new target blockSize inlineMax).compactRecords compact)).viable = true) :
    Planned blockSize inlineMax compact keys
      (keys.foldl (fun p k => Planner.push p k.1 k.2)
        ((Planner.new target blockSize inlineMax).compactRecords compact)) := by
  induction keys using List.reverseRecOn with
  | nil => exact planned_new
  | append_singleton ks k ih =>
      rw [List.foldl_append, List.foldl_cons, List.foldl_nil] at hv ⊢
      exact (ih (Planner.push_cases hv).1).push k hv

/-! ## What a planner answers -/

/-- Where the planned section's fence starts. -/
def fenceAt (n : ℕ) : ℕ := HEADER + (hashCapFor n).getD 0 * SLOT + n * 4

/-- Where its records start, behind a fence of samples `blobLen` bytes long together. -/
def recordsAt (target : ℕ+) (n blobLen : ℕ) : ℕ :=
  let fenceN := divCeil n (fenceStride target n)
  alignUp (fenceAt n + (if fenceN = 0 then 0 else (fenceN + 1) * 4) + blobLen) REC_ALIGN

/-- The planned section's length. -/
def sectionLen (target : ℕ+) (inlineMax : ℕ) (compact : Bool) (keys : List (ℕ × ℕ)) : ℕ :=
  recordsAt target keys.length (fenceBlobOf target keys) + recordBytesOf inlineMax compact keys

/-- The pages a section of some length reaches into at its worst alignment. -/
def pages (len : ℕ) : ℕ := pieceCount len PIECE_SHIFT (2 ^ PIECE_SHIFT - 1)

/-- What a planner answers after the keys of `keys`, with the blocks they are cut into. -/
def piecesOf (target : ℕ+) (inlineMax : ℕ) (compact : Bool) (keys : List (ℕ × ℕ)) (blocks : ℕ) :
    Pieces :=
  { table := blockTableLen blocks
    row := pages (sectionLen target inlineMax compact keys) * 4
    fence := if divCeil keys.length (fenceStride target keys.length) = 0 then 0
      else recordsAt target keys.length (fenceBlobOf target keys) - fenceAt keys.length
    directory := keys.length * 4 }

/-- Every stride is a multiple of the smallest. -/
lemma minStride_dvd (n : ℕ) : FENCE_MIN_STRIDE ∣ fenceStride target n := by
  have hmin : Nat.clog 2 FENCE_MIN_STRIDE ≤ Nat.clog 2 (max (divCeil n target) FENCE_MIN_STRIDE) :=
    Nat.clog_mono_right 2 (le_max_right _ _)
  have h16 : FENCE_MIN_STRIDE = 2 ^ Nat.clog 2 FENCE_MIN_STRIDE := by decide
  rw [fenceStride]
  nth_rewrite 1 [h16]
  exact pow_dvd_pow 2 hmin

/-- A checked sum is the sum. -/
lemma foldlM_checked {f : ℕ → Option ℕ} (is : List ℕ) {a b : ℕ}
    (h : is.foldlM (fun len i => (f i).bind (fun l => checked (len + l))) a = some b) :
    b = a + (is.map (fun i => (f i).getD 0)).sum := by
  induction is generalizing a with
  | nil => simpa using h.symm
  | cons i is ih =>
      rw [List.foldlM_cons] at h
      obtain ⟨c, hc, hrest⟩ := Option.bind_eq_some_iff.mp h
      obtain ⟨l, hl, hsum⟩ := Option.bind_eq_some_iff.mp hc
      have hcl : a + l = c := by
        rw [checked] at hsum
        split_ifs at hsum
        exact Option.some.inj hsum
      rw [ih hrest, ← hcl, List.map_cons, List.sum_cons, hl, Option.getD_some, Nat.add_assoc]

/-- The fence's bytes are those of the keys it samples. -/
lemma Planned.fenceBlobLen {p : Planner} (h : Planned blockSize inlineMax compact keys p) {len : ℕ}
    (hlen : p.fenceBlobLen (fenceStride target keys.length)
      (divCeil keys.length (fenceStride target keys.length)) = some len) :
    len = fenceBlobOf target keys := by
  have hsum := foldlM_checked _ hlen
  rw [hsum, Nat.zero_add, fenceBlobOf]
  congr 2
  funext i
  have hdvd : FENCE_MIN_STRIDE ∣ i * fenceStride target keys.length :=
    (minStride_dvd _).mul_left i
  rw [h.samples, h.spacing, Nat.mul_div_cancel' hdvd]

/-- A planner's answer, piece by piece. -/
lemma Planned.finish {p : Planner} (h : Planned blockSize inlineMax compact keys p) {r : Pieces}
    (hr : p.finish target = some r) :
    r = piecesOf target inlineMax compact keys (blocksFor (blockRuns inlineMax keys) blockSize) ∧
      recordBytesOf inlineMax compact keys ≤ MAX_RECS := by
  have hv : ¬ ¬ p.viable = true := fun hv => by
    rw [Planner.finish, if_pos hv] at hr
    exact absurd hr (Option.some_ne_none r).symm
  rw [Planner.finish, if_neg hv] at hr
  obtain ⟨len, hlen, hr⟩ := Option.bind_eq_some_iff.mp hr
  rw [h.count] at hlen hr
  have hblob := h.fenceBlobLen hlen
  obtain ⟨⟨t, recsOff⟩, hlay, hr⟩ := Option.bind_eq_some_iff.mp hr
  have hrecs : ¬ MAX_RECS < p.recBytes := fun hrecs => by
    rw [sectionLayout, if_pos hrecs] at hlay
    exact absurd hlay (Option.some_ne_none _).symm
  rw [sectionLayout, if_neg hrecs] at hlay
  obtain ⟨cap, hcap, hlay⟩ := Option.bind_eq_some_iff.mp hlay
  cases hlay
  have hcuts := h.cuts
  refine ⟨?_, by rw [← h.bytes]; exact not_lt.mp hrecs⟩
  rw [← Option.some.inj hr, piecesOf, blocksFor, ← hcuts, lastBlock, sectionLen, recordsAt, fenceAt,
    hcap, ← hblob, pages, ← h.bytes]
  rfl

/-- A planner that answers over a list of keys has taken them all. -/
lemma planned_of_forLengthsAs {r : Pieces}
    (h : forLengthsAs target keys blockSize inlineMax compact = some r) :
    Planned blockSize inlineMax compact keys (keys.foldl (fun p k => Planner.push p k.1 k.2)
      ((Planner.new target blockSize inlineMax).compactRecords compact)) := by
  refine planned_foldl ?_
  by_contra hno
  rw [forLengthsAs, Planner.finish, if_pos hno] at h
  exact absurd h (Option.some_ne_none r).symm

/-- What the planner answers over a list of keys. -/
lemma forLengthsAs_eq {r : Pieces}
    (h : forLengthsAs target keys blockSize inlineMax compact = some r) :
    r = piecesOf target inlineMax compact keys (blocksFor (blockRuns inlineMax keys) blockSize) ∧
      recordBytesOf inlineMax compact keys ≤ MAX_RECS ∧ ∀ k ∈ keys, k.1 ≤ 65535 ∧
      k.2 ≤ MAX_RUN := by
  have hp := planned_of_forLengthsAs h
  obtain ⟨heq, hrecs⟩ := hp.finish h
  exact ⟨heq, hrecs, hp.sized⟩

end Planned

end Supdb.Reserve
