import Supdb.ReservePlan

/-!
# When the planner's bound is one

`fromTotals` sizes a reserve from totals, every key as long as the longest and every run the mean
one.  Against the planner over the keys themselves its **fence** and its **directory** are never
short.  Its **table** counts the blocks that runs of these totals can be cut into, but it takes that
count only where it is above the mean runs cut evenly, and a mean run that goes inline is in no
block of the plan: the table is short where the mean goes inline, a longer run does not, and the
even cut hides the count (`BlocksHidden`).  Its **row** counts the pages of a section whose every
record holds the longest key and the mean run.  Some runs that go inline, and some that do not, can
take more bytes than as many of the mean; the bound makes up for it with the longest key in place of
each, and with what its own section leaves of its last page, and is short where that is not enough
(`RunsFit`).

* `fromTotals_covers_iff` – the bound is one exactly where neither happens.
* `fromTotals_covers_of_no_inline` – and so always where nothing goes inline.
-/

namespace Supdb.Reserve

open StorageLib Flatindex

/-! ## The bound -/

/-- The largest of some lengths. -/
def longest (lens : List ℕ) : ℕ := lens.foldr max 0

/-- The keys the bound is taken over: as many, each the longest, with the mean run. -/
def meanKeys (keys : List (ℕ × ℕ)) : List (ℕ × ℕ) :=
  List.replicate keys.length (longest (keys.map Prod.fst),
    perKeyRun keys.length (longest (keys.map Prod.snd)) (keys.map Prod.snd).sum)

/-- The bound's answer for a list's own totals. -/
def boundOf (target : ℕ+) (keys : List (ℕ × ℕ)) (blockSize inlineMax : ℕ) : Option Pieces :=
  fromTotals target keys.length (longest (keys.map Prod.fst)) (longest (keys.map Prod.snd))
    (keys.map Prod.snd).sum blockSize inlineMax

/-- The worst count of blocks is not taken, the mean run is in no block, and a run is in one. -/
def BlocksHidden (keys : List (ℕ × ℕ)) (blockSize inlineMax : ℕ) : Prop :=
  let run := perKeyRun keys.length (longest (keys.map Prod.snd)) (keys.map Prod.snd).sum
  goesInline inlineMax run = true ∧ inlineMax < longest (keys.map Prod.snd) ∧
    worstBlocks keys.length (longest (keys.map Prod.snd)) (keys.map Prod.snd).sum blockSize ≤
      blocksFor (List.replicate keys.length run) blockSize

/-- What a record has behind its key: the compact word or the extent, and the run where it goes
inline. -/
def behindKey (inlineMax : ℕ) (compact : Bool) (run : ℕ) : ℕ :=
  if goesInline inlineMax run then
    (if compact ∧ run < COMPACT_RUN then 4 else EXT_BYTES) + alignUp run REC_ALIGN
  else EXT_BYTES

/-- What the keys' records leave where each is as long as the longest key's. -/
def keySlack (keys : List (ℕ × ℕ)) : ℕ :=
  (keys.map (fun k => alignUp (4 + longest (keys.map Prod.fst)) REC_ALIGN -
    alignUp (4 + k.1) REC_ALIGN)).sum

/-- What the keys the fence samples leave where each is the longest. -/
def fenceSlack (target : ℕ+) (keys : List (ℕ × ℕ)) : ℕ :=
  alignUp (divCeil keys.length (fenceStride target keys.length) * longest (keys.map Prod.fst))
    REC_ALIGN - alignUp (fenceBlobOf target keys) REC_ALIGN

/-- The bytes of a section of `n` keys before its fence's samples: its header, slots and directory,
and where the samples lie. -/
def headLen (target : ℕ+) (n : ℕ) : ℕ :=
  let fenceN := divCeil n (fenceStride target n)
  HEADER + (hashCapFor n).getD 0 * SLOT + n * 4 + (if fenceN = 0 then 0 else (fenceN + 1) * 4)

/-- A section of `n` keys of `klen` bytes with a run of `run` bytes each. -/
def evenLen (target : ℕ+) (inlineMax n klen run : ℕ) : ℕ :=
  headLen target n + alignUp (divCeil n (fenceStride target n) * klen) REC_ALIGN +
    n * (alignUp (4 + klen) REC_ALIGN + behindKey inlineMax false run)

/-- What is left of its last page by `len` bytes that begin at a page's last byte. -/
def pageRoom (len : ℕ) : ℕ := 2 ^ PIECE_SHIFT - 1 - (len + 2 ^ PIECE_SHIFT - 2) % 2 ^ PIECE_SHIFT

/-- The bytes behind the keys are no more than as many of the mean run, with what the longest key in
place of each leaves in the records and in the fence, and what is left of the last page. -/
def RunsFit (target : ℕ+) (keys : List (ℕ × ℕ)) (inlineMax : ℕ) (compact : Bool) : Prop :=
  let klen := longest (keys.map Prod.fst)
  let run := perKeyRun keys.length (longest (keys.map Prod.snd)) (keys.map Prod.snd).sum
  (keys.map (fun k => behindKey inlineMax compact k.2)).sum ≤
    keys.length * behindKey inlineMax false run + keySlack keys + fenceSlack target keys +
      pageRoom (evenLen target inlineMax keys.length klen run)

/-- No piece of `r` is longer than `s`'s, nor is the reserve that holds them. -/
structure Pieces.Within (r s : Pieces) : Prop where
  table : r.table ≤ s.table
  row : r.row ≤ s.row
  fence : r.fence ≤ s.fence
  directory : r.directory ≤ s.directory
  bytes : r.bytes ≤ s.bytes

/-- Pieces that are no longer take no more room. -/
lemma bytes_mono {r s : Pieces} (ht : r.table ≤ s.table) (hr : r.row ≤ s.row)
    (hf : r.fence ≤ s.fence) (hd : r.directory ≤ s.directory) : r.bytes ≤ s.bytes := by
  have h0 : alignUp r.table 8 ≤ alignUp s.table 8 := alignUp_mono ht 8
  have h1 : alignUp (alignUp r.table 8 + r.row) 8 ≤ alignUp (alignUp s.table 8 + s.row) 8 :=
    alignUp_mono (Nat.add_le_add h0 hr) 8
  have h2 := alignUp_mono (Nat.add_le_add h1 hf) 8
  exact max_le_max (Nat.add_le_add h2 hd) (Nat.add_le_add_right ht 8)

lemma le_longest {lens : List ℕ} {l : ℕ} (h : l ∈ lens) : l ≤ longest lens := by
  induction lens with
  | nil => exact absurd h List.not_mem_nil
  | cons x xs ih =>
      rw [longest, List.foldr_cons]
      rcases List.mem_cons.mp h with rfl | h
      · exact le_max_left _ _
      · exact (ih h).trans (le_max_right _ _)

lemma exists_lt_of_lt_longest {lens : List ℕ} {m : ℕ} (h : m < longest lens) :
    ∃ l ∈ lens, m < l := by
  induction lens with
  | nil => exact absurd h (Nat.not_lt_zero m)
  | cons x xs ih =>
      rw [longest, List.foldr_cons] at h
      rcases lt_max_iff.mp h with h | h
      · exact ⟨x, List.mem_cons_self .., h⟩
      · obtain ⟨l, hl, hlt⟩ := ih h
        exact ⟨l, List.mem_cons_of_mem _ hl, hlt⟩

/-- A run cut never takes a block back, and a run with bytes is in one. -/
lemma lastBlock_cut (st : ℕ × ℕ) (n blockSize : ℕ) :
    lastBlock st ≤ lastBlock ((cut st.1 n blockSize).1, st.2 + (cut st.1 n blockSize).2) ∧
      (0 < n → 0 < lastBlock ((cut st.1 n blockSize).1, st.2 + (cut st.1 n blockSize).2)) := by
  obtain ⟨staged, closed⟩ := st
  by_cases hover : staged ≠ 0 ∧ blockSize - staged < n
  · simp only [cut, if_pos hover, lastBlock]
    by_cases hfull : blockSize ≤ min (0 + n) (2 ^ 64 - 1)
    · rw [if_pos hfull]
      exact ⟨by simp [hover.1], fun _ => by simp⟩
    · rw [if_neg hfull]
      exact ⟨by simp [hover.1], fun _ => by simp⟩
  · simp only [cut, if_neg hover, lastBlock]
    by_cases hfull : blockSize ≤ min (staged + n) (2 ^ 64 - 1)
    · rw [if_pos hfull]
      refine ⟨?_, fun _ => by simp⟩
      split_ifs <;> omega
    · rw [if_neg hfull]
      refine ⟨?_, fun hn => ?_⟩
      · split_ifs <;> omega
      · rw [if_pos (by omega)]
        omega

/-- A cut that gives no block was given no bytes. -/
lemma cutAll_pos {blockSize : ℕ} (runs : List ℕ) (st : ℕ × ℕ)
    (h : 0 < lastBlock st ∨ ∃ r ∈ runs, 0 < r) : 0 < lastBlock (cutAll blockSize st runs) := by
  induction runs generalizing st with
  | nil => exact h.resolve_right (fun ⟨_, hr, _⟩ => absurd hr List.not_mem_nil)
  | cons r rs ih =>
      have hstep := lastBlock_cut st r blockSize
      refine ih _ ?_
      rcases h with h | ⟨x, hx, hpos⟩
      · exact Or.inl (lt_of_lt_of_le h hstep.1)
      · rcases List.mem_cons.mp hx with rfl | hx
        · exact Or.inl (hstep.2 hpos)
        · exact Or.inr ⟨x, hx, hpos⟩

section Bound

variable {target : ℕ+} {blockSize inlineMax : ℕ} {compact : Bool} {keys : List (ℕ × ℕ)}

/-- The blocks the bound counts. -/
def boundBlocks (keys : List (ℕ × ℕ)) (blockSize inlineMax : ℕ) : ℕ :=
  let run := perKeyRun keys.length (longest (keys.map Prod.snd)) (keys.map Prod.snd).sum
  let worst := worstBlocks keys.length (longest (keys.map Prod.snd))
    (keys.map Prod.snd).sum blockSize
  if blocksFor (List.replicate keys.length run) blockSize < worst then worst
  else blocksFor (blockRuns inlineMax (meanKeys keys)) blockSize

/-- The bound, piece by piece. -/
lemma boundOf_eq {b : Pieces} (h : boundOf target keys blockSize inlineMax = some b) :
    b = piecesOf target inlineMax false (meanKeys keys) (boundBlocks keys blockSize inlineMax) := by
  rw [boundOf, fromTotals] at h
  by_cases h0 : keys.length = 0
  · rw [if_pos h0] at h
    obtain rfl := List.length_eq_zero_iff.mp h0
    rw [(forLengthsAs_eq h).1]
    have hworst : worstBlocks 0 0 0 blockSize = 0 := by
      rw [worstBlocks]
      split_ifs
      · rfl
      · exact Nat.min_zero _
    simp only [boundBlocks, meanKeys, List.length_nil, List.map_nil, longest, List.foldr_nil,
      List.sum_nil, hworst, List.replicate_zero, Nat.not_lt_zero, if_false, piecesOf, sectionLen,
      recordBytesOf]
  · rw [if_neg h0] at h
    obtain ⟨need, hneed, h⟩ := Option.bind_eq_some_iff.mp h
    rw [← Option.some.inj h, (forLengthsAs_eq hneed).1, boundBlocks]
    simp only [meanKeys]
    split_ifs <;> rfl

/-- The mean run is in no block where it goes inline. -/
lemma blockRuns_meanKeys :
    blockRuns inlineMax (meanKeys keys) =
      if goesInline inlineMax (perKeyRun keys.length (longest (keys.map Prod.snd))
        (keys.map Prod.snd).sum) = true then []
      else List.replicate keys.length (perKeyRun keys.length (longest (keys.map Prod.snd))
        (keys.map Prod.snd).sum) := by
  rw [blockRuns, meanKeys, List.filter_replicate]
  cases goesInline inlineMax (perKeyRun keys.length (longest (keys.map Prod.snd))
    (keys.map Prod.snd).sum) <;> simp

/-- The keys' blocks are no more than the worst count. -/
lemma blocks_le_worst (hsize : blockSize < 2 ^ 64) (hsized : ∀ k ∈ keys, k.2 ≤ MAX_RUN) :
    blocksFor (blockRuns inlineMax keys) blockSize ≤
      worstBlocks keys.length (longest (keys.map Prod.snd)) (keys.map Prod.snd).sum blockSize := by
  have hsub : (blockRuns inlineMax keys).Sublist (keys.map Prod.snd) :=
    List.filter_sublist.map Prod.snd
  have hmax : longest (keys.map Prod.snd) < 2 ^ 64 := by
    by_contra hbig
    obtain ⟨l, hl, hlt⟩ := exists_lt_of_lt_longest (lt_of_lt_of_le (by decide : MAX_RUN < 2 ^ 64)
      (not_lt.mp hbig))
    obtain ⟨k, hk, rfl⟩ := List.mem_map.mp hl
    exact absurd (hsized k hk) (not_le.mpr hlt)
  refine cutAll_le_worst ?_ (hsub.sum_le_sum fun _ _ => Nat.zero_le _)
    (fun r hr => le_longest (hsub.subset hr)) hsize hmax
  rw [← List.length_map Prod.snd]
  exact hsub.length_le

/-- The bound counts every block exactly where none is hidden from it. -/
lemma blocks_le_bound_iff (hsize : blockSize < 2 ^ 64) (hsized : ∀ k ∈ keys, k.2 ≤ MAX_RUN) :
    blocksFor (blockRuns inlineMax keys) blockSize ≤ boundBlocks keys blockSize inlineMax ↔
      ¬ BlocksHidden keys blockSize inlineMax := by
  have hworst := @blocks_le_worst _ inlineMax _ hsize hsized
  simp only [boundBlocks, BlocksHidden, blockRuns_meanKeys]
  set run := perKeyRun keys.length (longest (keys.map Prod.snd)) (keys.map Prod.snd).sum
  set worst := worstBlocks keys.length (longest (keys.map Prod.snd)) (keys.map Prod.snd).sum
    blockSize
  by_cases heven : blocksFor (List.replicate keys.length run) blockSize < worst
  · rw [if_pos heven]
    exact ⟨fun _ hhid => absurd hhid.2.2 (not_le.mpr heven), fun _ => hworst⟩
  · rw [if_neg heven]
    have hle := not_lt.mp heven
    by_cases hin : goesInline inlineMax run = true
    · rw [if_pos hin]
      constructor
      · intro hzero hhid
        obtain ⟨l, hl, hlt⟩ := exists_lt_of_lt_longest hhid.2.1
        obtain ⟨k, hk, rfl⟩ := List.mem_map.mp hl
        have hmem : k.2 ∈ blockRuns inlineMax keys := by
          refine List.mem_map.mpr ⟨k, List.mem_filter.mpr ⟨hk, ?_⟩, rfl⟩
          simp [goesInline]
          omega
        have hpos := @cutAll_pos blockSize _ (0, 0) (Or.inr ⟨k.2, hmem, by omega⟩)
        exact absurd hzero (not_le.mpr hpos)
      · intro hno
        have hmax : longest (keys.map Prod.snd) ≤ inlineMax :=
          not_lt.mp (fun hlt => hno ⟨hin, hlt, hle⟩)
        have hpos : 0 < inlineMax := by simp [goesInline] at hin; omega
        have hnil : blockRuns inlineMax keys = [] := by
          rw [blockRuns, List.map_eq_nil_iff, List.filter_eq_nil_iff]
          intro k hk
          have := (le_longest (List.mem_map_of_mem (f := Prod.snd) hk)).trans hmax
          simp [goesInline, hpos, this]
        rw [hnil]
    · rw [if_neg hin]
      exact ⟨fun _ hhid => hin hhid.1, fun _ => hworst.trans hle⟩

/-- A key the fence samples is one of the keys. -/
lemma sample_lt {i : ℕ} (hi : i < divCeil keys.length (fenceStride target keys.length)) :
    i * fenceStride target keys.length < keys.length := by
  have hpos := fenceStride_pos target keys.length
  rw [divCeil] at hi
  have := (Nat.le_div_iff_mul_le hpos).mp hi
  rw [Nat.succ_mul] at this
  omega

lemma length_meanKeys : (meanKeys keys).length = keys.length := List.length_replicate ..

/-- The bound's fence samples the longest key each time. -/
lemma fenceBlobOf_meanKeys : fenceBlobOf target (meanKeys keys) =
    divCeil keys.length (fenceStride target keys.length) * longest (keys.map Prod.fst) := by
  have hsample : ∀ i ∈ List.range (divCeil keys.length (fenceStride target keys.length)),
      (((meanKeys keys)[i * fenceStride target keys.length]?).map Prod.fst).getD 0 =
        longest (keys.map Prod.fst) := by
    intro i hi
    rw [meanKeys, List.getElem?_replicate, if_pos (sample_lt (List.mem_range.mp hi))]
    rfl
  simp only [fenceBlobOf, length_meanKeys]
  rw [List.map_congr_left hsample, List.map_const', List.sum_replicate, List.length_range,
    smul_eq_mul]

/-- The longest key's samples are the longest fence. -/
lemma fenceBlobOf_le : fenceBlobOf target keys ≤ fenceBlobOf target (meanKeys keys) := by
  rw [fenceBlobOf_meanKeys]
  simp only [fenceBlobOf]
  refine (List.sum_le_card_nsmul _ (longest (keys.map Prod.fst)) fun l hl => ?_).trans_eq ?_
  · obtain ⟨i, hi, rfl⟩ := List.mem_map.mp hl
    rw [List.getElem?_eq_getElem (sample_lt (List.mem_range.mp hi))]
    exact le_longest (List.mem_map_of_mem (f := Prod.fst) (List.getElem_mem _))
  · rw [List.length_map, List.length_range, smul_eq_mul]

/-- So the bound's records start no earlier. -/
lemma recordsAt_le : recordsAt target keys.length (fenceBlobOf target keys) ≤
    recordsAt target keys.length (fenceBlobOf target (meanKeys keys)) :=
  alignUp_mono (Nat.add_le_add_left fenceBlobOf_le _) REC_ALIGN

lemma blockTableLen_le_iff {a b : ℕ} : blockTableLen a ≤ blockTableLen b ↔ a ≤ b := by
  simp only [blockTableLen, BLK_HEADER, BLK_ENTRY, CRC_ROW, MAX_CHUNK_CRCS]
  omega

/-- A section reaches into no more pages than another where it is longer by no more than the other
leaves of its last page. -/
lemma pages_le_iff {a b : ℕ} : pages a ≤ pages b ↔ a ≤ b + pageRoom b := by
  simp only [pages, pageRoom, pieceCount, divCeil, PIECE_SHIFT]
  omega

lemma segmentRecordLen_eq (klen run : ℕ) :
    segmentRecordLen klen run (goesInline inlineMax run) compact =
      alignUp (4 + klen) REC_ALIGN + behindKey inlineMax compact run := by
  rw [segmentRecordLen, behindKey]
  have hnil : alignUp 0 REC_ALIGN = 0 := rfl
  cases hin : goesInline inlineMax run
  · simp [recordLenTail, recordLen, hnil]
  · by_cases hform : compact = true ∧ run < COMPACT_RUN
    · simp [hform, Flatindex.recordLenCompact, Nat.add_assoc]
    · rw [if_neg (by simpa using hform)]
      simp [hform, recordLenTail, recordLen, Nat.add_assoc]

/-- A section, in its parts. -/
lemma sectionLen_eq : sectionLen target inlineMax compact keys =
    headLen target keys.length + alignUp (fenceBlobOf target keys) REC_ALIGN +
      ((keys.map (fun k => alignUp (4 + k.1) REC_ALIGN)).sum +
        (keys.map (fun k => behindKey inlineMax compact k.2)).sum) := by
  have hdvd : REC_ALIGN ∣ headLen target keys.length := by
    have hslot : REC_ALIGN ∣ (hashCapFor keys.length).getD 0 * SLOT :=
      Dvd.dvd.mul_left (by decide) _
    have hdir : REC_ALIGN ∣ keys.length * 4 := Dvd.intro_left _ rfl
    refine ((((by decide : REC_ALIGN ∣ HEADER).add hslot).add hdir).add ?_)
    split_ifs
    · exact dvd_zero _
    · exact Dvd.intro_left _ rfl
  rw [sectionLen, recordsAt, fenceAt, recordBytesOf]
  simp only [segmentRecordLen_eq, List.sum_map_add]
  congr 1
  exact alignUp_add (by decide) hdvd

lemma sum_keySlack : (keys.map (fun k => alignUp (4 + k.1) REC_ALIGN)).sum + keySlack keys =
    keys.length * alignUp (4 + longest (keys.map Prod.fst)) REC_ALIGN := by
  rw [keySlack, ← List.sum_map_add]
  have hk : ∀ k ∈ keys,
      alignUp (4 + k.1) REC_ALIGN + (alignUp (4 + longest (keys.map Prod.fst)) REC_ALIGN -
      alignUp (4 + k.1) REC_ALIGN) = alignUp (4 + longest (keys.map Prod.fst)) REC_ALIGN := by
    intro k hk
    have hle : 4 + k.1 ≤ 4 + longest (keys.map Prod.fst) :=
      Nat.add_le_add_left (le_longest (List.mem_map_of_mem (f := Prod.fst) hk)) 4
    exact Nat.add_sub_cancel' (alignUp_mono hle REC_ALIGN)
  rw [List.map_congr_left hk, List.map_const', List.sum_replicate, smul_eq_mul]

/-- Keys of one length and runs of one length make an even section. -/
lemma sectionLen_meanKeys : sectionLen target inlineMax false (meanKeys keys) =
    evenLen target inlineMax keys.length (longest (keys.map Prod.fst))
      (perKeyRun keys.length (longest (keys.map Prod.snd)) (keys.map Prod.snd).sum) := by
  rw [sectionLen_eq, length_meanKeys, fenceBlobOf_meanKeys, evenLen]
  simp only [meanKeys, List.map_replicate, List.sum_replicate, smul_eq_mul, Nat.mul_add]

/-- A section, its slack and the mean runs' bytes are the bound's section and the runs' bytes. -/
lemma sectionLen_add : sectionLen target inlineMax compact keys + keySlack keys +
      fenceSlack target keys + keys.length * behindKey inlineMax false
        (perKeyRun keys.length (longest (keys.map Prod.snd)) (keys.map Prod.snd).sum) =
    sectionLen target inlineMax false (meanKeys keys) +
      (keys.map (fun k => behindKey inlineMax compact k.2)).sum := by
  have hkeys := @sum_keySlack keys
  have hfence : alignUp (fenceBlobOf target keys) REC_ALIGN + fenceSlack target keys =
      alignUp (divCeil keys.length (fenceStride target keys.length) * longest (keys.map Prod.fst))
        REC_ALIGN := by
    have hle := alignUp_mono (@fenceBlobOf_le target keys) REC_ALIGN
    rw [fenceBlobOf_meanKeys] at hle
    exact Nat.add_sub_cancel' hle
  rw [sectionLen_meanKeys, sectionLen_eq, evenLen, Nat.mul_add, ← hkeys, ← hfence]
  omega

/-- The bound's section covers the pages of the keys' own exactly where the runs fit. -/
lemma pages_le_bound_iff : pages (sectionLen target inlineMax compact keys) ≤
    pages (sectionLen target inlineMax false (meanKeys keys)) ↔
      RunsFit target keys inlineMax compact := by
  have hsum := @sectionLen_add target inlineMax compact keys
  rw [pages_le_iff, RunsFit, ← sectionLen_meanKeys]
  omega

/-- The bound holds, piece by piece, exactly where no block is hidden from it and the runs fit the
records of the mean. -/
theorem fromTotals_covers_iff {b r : Pieces} (hsize : blockSize < 2 ^ 64)
    (hb : boundOf target keys blockSize inlineMax = some b)
    (hr : forLengthsAs target keys blockSize inlineMax compact = some r) :
    r.Within b ↔
      ¬ BlocksHidden keys blockSize inlineMax ∧ RunsFit target keys inlineMax compact := by
  obtain ⟨rfl, -, hsized⟩ := forLengthsAs_eq hr
  have hblocks := @blocks_le_bound_iff _ inlineMax _ hsize (fun k hk => (hsized k hk).2)
  rw [boundOf_eq hb]
  constructor
  · intro h
    have hrow : pages _ * 4 ≤ pages _ * 4 := h.row
    exact ⟨hblocks.mp (blockTableLen_le_iff.mp h.table),
      pages_le_bound_iff.mp (Nat.le_of_mul_le_mul_right hrow (by omega))⟩
  · rintro ⟨hshown, hruns⟩
    have hpages := pages_le_bound_iff.mpr hruns
    have htable := blockTableLen_le_iff.mpr (hblocks.mpr hshown)
    have hrow := Nat.mul_le_mul_right 4 hpages
    have hfence : (piecesOf target inlineMax compact keys
        (blocksFor (blockRuns inlineMax keys) blockSize)).fence ≤
        (piecesOf target inlineMax false (meanKeys keys) (boundBlocks keys blockSize inlineMax)).fence := by
      simp only [piecesOf, length_meanKeys]
      split_ifs
      · exact le_refl 0
      · exact Nat.sub_le_sub_right recordsAt_le _
    have hdir : (piecesOf target inlineMax compact keys
        (blocksFor (blockRuns inlineMax keys) blockSize)).directory ≤
        (piecesOf target inlineMax false (meanKeys keys)
          (boundBlocks keys blockSize inlineMax)).directory := by
      simp only [piecesOf, length_meanKeys, le_refl]
    exact ⟨htable, hrow, hfence, hdir, bytes_mono htable hrow hfence hdir⟩

/-- Where nothing goes inline the bound always holds. -/
theorem fromTotals_covers_of_no_inline {b r : Pieces} (hsize : blockSize < 2 ^ 64)
    (hb : boundOf target keys blockSize 0 = some b)
    (hr : forLengthsAs target keys blockSize 0 compact = some r) : r.Within b := by
  have hout : ∀ c run, behindKey 0 c run = EXT_BYTES := fun c run => by simp [behindKey, goesInline]
  refine (fromTotals_covers_iff hsize hb hr).mpr ⟨fun hhid => ?_, ?_⟩
  · exact absurd hhid.1 (by simp [goesInline])
  · simp only [RunsFit, hout, List.map_const', List.sum_replicate, smul_eq_mul]
    omega

end Bound

/-- Nineteen runs of a byte and one of a thousand: their mean goes inline, and the long run is in a
block. -/
def unevenKeys : List (ℕ × ℕ) := List.replicate 19 (4, 1) ++ [(4, 1000)]

/-- The bound of such keys leaves their block out. -/
theorem fromTotals_short :
    ¬ ∀ (target : ℕ+) (keys : List (ℕ × ℕ)) (blockSize inlineMax : ℕ) (compact : Bool)
      (b r : Pieces), blockSize < 2 ^ 64 → boundOf target keys blockSize inlineMax = some b →
      forLengthsAs target keys blockSize inlineMax compact = some r → r.Within b := by
  intro hall
  have hb : boundOf 16384 unevenKeys 65536 100 = some ⟨16, 8, 20, 80⟩ := by decide +kernel
  have hr : forLengthsAs 16384 unevenKeys 65536 100 true = some ⟨112, 8, 20, 80⟩ := by
    decide +kernel
  have hwithin := hall 16384 unevenKeys 65536 100 true _ _ (by decide) hb hr
  exact absurd hwithin.table (by decide)

/-- Where a block holds no more than the longest run, the same keys are covered: the bound takes a
block for each. -/
theorem fromTotals_covers_uneven :
    (⟨112, 8, 20, 80⟩ : Pieces).Within ⟨1936, 8, 20, 80⟩ := by
  have hb : boundOf 16384 unevenKeys 1000 100 = some ⟨1936, 8, 20, 80⟩ := by decide +kernel
  have hr : forLengthsAs 16384 unevenKeys 1000 100 true = some ⟨112, 8, 20, 80⟩ := by
    decide +kernel
  refine (fromTotals_covers_iff (by decide) hb hr).mpr ⟨fun hhid => ?_, ?_⟩
  · exact absurd hhid.2.2 (by decide)
  · rw [RunsFit]
    decide +kernel

end Supdb.Reserve
