import Supdb.FlatTrap
import Supdb.FlatLookup

/-!
# A damaged key section

A key section is read out of a file, so every word of it can be anything.  What has to hold then is
that damage costs an answer and never the process, and that damage to the *fence* – which only
narrows a search – does not cost even that.

* `parsed_of_parse` – what `parse` checks is what the reads rely on (`Parsed`).
* `parseRun_eq`, `lookupFullRun_eq`, `atFullRun_eq`, `keyAtRun_eq`, `seekWithRun_eq` – over the
  words of a machine, and over a section a machine can hold, the functions compute what they do over
  `ℕ`.
* **`parse_never_traps_iff`** – `parse` and every read behind it end without a trap exactly where
  the end of the two reserved directories, the one sum of the header left unchecked, stays a word.
* **`seek_ignores_fence`** – two probes of the records settle a seek, so a fence of arbitrary bytes
  changes no answer.
-/

namespace Supdb

open StorageLib Flatindex Run

namespace FlatIndex

/-! ## The header -/

/-- A word of the header. -/
def headerWord (sec : Bytes) (p : ℕ) : ℕ := (readWord 8 sec p).getD 0

/-- **The one sum of `parse` that is not checked.**  A section whose header reaches it, reserving
two directories (`dirCap`, word 144) that the word publishing the live one (152) does not
contradict, and so many entries that behind the first directory (80) they leave the machine's word.
-/
structure DirEndOverflows (sec : Bytes) : Prop where
  flat : isFlat sec
  long : 160 ≤ sec.length
  cap : (headerWord sec 64).isPowerOfTwo
  hash : headerWord sec 72 + headerWord sec 64 * SLOT < 2 ^ 64
  reserved : headerWord sec 144 ≠ 0
  live : headerWord sec 152 >>> 32 = headerWord sec 80
  few : headerWord sec 152 &&& 0xffffffff ≤ headerWord sec 144
  fits : headerWord sec 144 * 8 < 2 ^ 64
  wraps : 2 ^ 64 ≤ headerWord sec 80 + headerWord sec 144 * 8

variable {sec : Bytes}

lemma headerWord_eq {p w : ℕ} (h : readWord 8 sec p = some w) : headerWord sec p = w := by
  rw [headerWord, h, Option.getD_some]

lemma parseFenceRun_eq (nkeys fenceOffsOff fenceN fenceStride : ℕ)
    (regions : List (ℕ × ℕ)) :
    parseFenceRun sec nkeys fenceOffsOff fenceN fenceStride regions
      = ofOption (parseFence sec nkeys fenceOffsOff fenceN fenceStride regions) := by
  rw [parseFenceRun, parseFence]
  by_cases hnone : fenceN = 0 ∨ fenceStride = 0 ∨ nkeys < fenceN
  · rw [if_pos hnone, if_pos hnone]
    rfl
  rw [if_neg hnone, if_neg hnone]
  by_cases hceil : fenceN ≠ divCeil nkeys fenceStride
  · rw [if_pos hceil, if_pos hceil]
    rfl
  rw [if_neg hceil, if_neg hceil]
  by_cases hn : fenceN + 1 < 2 ^ 64
  · rw [ofOption_checked hn, ok_bind]
    refine ofOption_bind_eq ?_
    intro len hl
    refine ofOption_bind_eq ?_
    intro offsEnd hend
    by_cases hout : fenceOffsOff < HEADER ∨ sec.length < offsEnd
    · rw [if_pos hout, if_pos hout]
      rfl
    rw [if_neg hout, if_neg hout]
    refine ofOption_bind_eq ?_
    intro offs hoffs
    have hfour : (fenceN + 1) * 4 < 2 ^ 64 := by
      rw [checked] at hl
      by_contra hbig
      rw [if_neg hbig] at hl
      exact absurd hl (by simp)
    rw [mulU_eq (by omega), ok_bind, rdWord_eq offs (by omega)]
    refine ofOption_bind_eq ?_
    intro blobLen hblob
    refine ofOption_bind_eq ?_
    intro blobEnd hblobEnd
    split_ifs
    · rfl
    · rfl
    · rfl
  · have hbig : ¬ (fenceN + 1) * 4 < 2 ^ 64 := by omega
    rw [checked, if_neg hn, checked, if_neg hbig]
    rfl

/-- The live directory is one of the two reserved, and no longer than either. -/
lemma liveDir_eq_some {dirBase nkeys dirCap dirState dirOff n : ℕ}
    (h : liveDir dirBase nkeys dirCap dirState = some (dirOff, n)) :
    dirCap = 0 ∧ dirOff = dirBase ∧ n = nkeys ∨
      dirCap ≠ 0 ∧ dirOff = dirState >>> 32 ∧ n = dirState &&& 0xffffffff ∧ n ≤ dirCap ∧
        (dirOff = dirBase ∨ dirOff = dirBase + dirCap * 4) := by
  rw [liveDir] at h
  by_cases h0 : dirCap = 0
  · rw [if_pos h0, Option.some_inj, Prod.mk.injEq] at h
    exact Or.inl ⟨h0, h.1.symm, h.2.symm⟩
  · rw [if_neg h0] at h
    simp only [checked, Option.bind_eq_bind, Option.bind_eq_some_iff] at h
    obtain ⟨four, hfour, second, hsecond, h⟩ := h
    split_ifs at hfour hsecond h with h1 h2 h3
    simp only [Option.some_inj, Prod.mk.injEq] at hfour hsecond h
    exact Or.inr ⟨h0, h.1.symm, h.2.symm, by omega, by omega⟩

/-- Behind the live directory's offset the end of the two reserved is a word, or the header is one
whose sum leaves it. -/
lemma dirEnd_fits {nkeys dirOff n : ℕ} (hflat : isFlat sec) (hlong : 160 ≤ sec.length)
    (hcap : (headerWord sec 64).isPowerOfTwo)
    (hhash : headerWord sec 72 + headerWord sec 64 * SLOT < 2 ^ 64) (hres : headerWord sec 144 ≠ 0)
    (hlive : liveDir (headerWord sec 80) nkeys (headerWord sec 144) (headerWord sec 152)
    = some (dirOff, n)) (hfits : headerWord sec 144 * 8 < 2 ^ 64) (hno : ¬ DirEndOverflows sec) :
    headerWord sec 80 + headerWord sec 144 * 8 < 2 ^ 64 := by
  by_contra hover
  rcases liveDir_eq_some hlive with ⟨h0, -, -⟩ | ⟨-, hoff, hn, hle, hdir⟩
  · exact hres h0
  have hstate : headerWord sec 152 < 256 ^ 8 := by
    rw [headerWord_eq (readWord_of_le (by omega : 152 + 8 ≤ sec.length))]
    exact leNat_slice_lt sec le_rfl
  have hoff32 : dirOff < 2 ^ 32 := by
    rw [hoff, Nat.shiftRight_eq_div_pow]
    omega
  rcases hdir with hfirst | hsecond
  · exact hno ⟨hflat, hlong, hcap, hhash, hres, by omega, by omega, hfits, by omega⟩
  · omega

lemma checked_eq_some {n m : ℕ} : checked n = some m ↔ n < 2 ^ 64 ∧ n = m := by
  rw [checked]
  split_ifs with h
  · rw [Option.some_inj]
    exact ⟨fun hn => ⟨h, hn⟩, fun hn => hn.2⟩
  · exact ⟨fun hn => absurd hn (by simp), fun hn => absurd hn.1 h⟩

/-- **The header is read as `parse` reads it**, wherever the one unchecked sum stays a word. -/
lemma parseRun_eq (hno : ¬ DirEndOverflows sec) :
    parseRun sec = ofOption (parse sec) := by
  rw [parseRun, parse]
  by_cases hflat : isFlat sec
  swap
  · rw [if_pos hflat, if_pos hflat]
    rfl
  have hflat' : ¬ ¬ isFlat sec := not_not_intro hflat
  rw [if_neg hflat', if_neg hflat']
  refine rdWord_bind_eq (by norm_num) fun generation _ => ?_
  refine rdWord_bind_eq (by norm_num) fun prevGen _ => ?_
  refine rdWord_bind_eq (by norm_num) fun prevTs _ => ?_
  refine rdWord_bind_eq (by norm_num) fun prevOff _ => ?_
  refine rdWord_bind_eq (by norm_num) fun prevStored _ => ?_
  refine rdWord_bind_eq (by norm_num) fun prevUnc _ => ?_
  refine rdWord_bind_eq (by norm_num) fun nkeys _ => ?_
  refine rdWord_bind_eq (by norm_num) fun hashCap hhashCap => ?_
  refine rdWord_bind_eq (by norm_num) fun hashOff hhashOff => ?_
  refine rdWord_bind_eq (by norm_num) fun dirBase hdirBase => ?_
  refine rdWord_bind_eq (by norm_num) fun recsOff _ => ?_
  refine rdWord_bind_eq (by norm_num) fun recsLen _ => ?_
  refine rdWord_bind_eq (by norm_num) fun recsCap _ => ?_
  refine rdWord_bind_eq (by norm_num) fun bump _ => ?_
  rw [clampU_eq (le_max_right _ _), ok_bind]
  refine rdWord_bind_eq (by norm_num) fun fenceOffsOff _ => ?_
  refine rdWord_bind_eq (by norm_num) fun fenceN _ => ?_
  refine rdWord_bind_eq (by norm_num) fun fenceStride _ => ?_
  refine rdWord_bind_eq (by norm_num) fun dirCap hdirCap => ?_
  refine rdWord_bind_eq (by norm_num) fun dirState hdirState => ?_
  by_cases hpow : hashCap = 0 ∨ ¬ hashCap.isPowerOfTwo
  · rw [if_pos hpow, if_pos hpow]
    rfl
  rw [if_neg hpow, if_neg hpow]
  refine ofOption_bind_eq ?_
  rintro ⟨dirOff, n⟩ hlive
  dsimp only
  refine ofOption_bind_eq fun hashLen hhashLen => ?_
  refine ofOption_bind_eq fun hashEnd hhashEnd => ?_
  by_cases h0 : dirCap = 0
  case' pos =>
    rw [if_pos h0, if_pos h0]
    refine ofOption_bind_eq fun len _ => ?_
    refine ofOption_bind_eq fun dirEnd _ => ?_
  case' neg =>
    rw [if_neg h0, if_neg h0]
    by_cases hfits : dirCap * 8 < 2 ^ 64
    swap
    · rw [checked, if_neg hfits]
      rfl
    have hsum : dirBase + dirCap * 8 < 2 ^ 64 := by
      obtain ⟨-, rfl⟩ := checked_eq_some.mp hhashLen
      obtain ⟨hfit, -⟩ := checked_eq_some.mp hhashEnd
      have hpow' : hashCap.isPowerOfTwo := not_not.mp (not_or.mp hpow).2
      rw [← headerWord_eq hhashCap, ← headerWord_eq hhashOff] at hfit
      rw [← headerWord_eq hhashCap] at hpow'
      rw [← headerWord_eq hdirBase, ← headerWord_eq hdirCap, ← headerWord_eq hdirState] at hlive
      rw [← headerWord_eq hdirCap] at h0 hfits
      rw [← headerWord_eq hdirBase, ← headerWord_eq hdirCap]
      exact dirEnd_fits hflat (le_of_readWord hdirState) hpow' hfit h0 hlive hfits hno
    have hchecked : checked (dirCap * 8) = some (dirCap * 8) := if_pos hfits
    rw [hchecked, ofOption_some, ok_bind, addU_eq hsum, ok_bind, Option.map_some,
      Nat.mod_eq_of_lt hsum, some_bind_eq]
    generalize dirBase + dirCap * 8 = dirEnd
  -- what follows is the same whatever the directory's end was computed from
  all_goals
    refine ofOption_bind_eq fun recsEnd _ => ?_
    by_cases hout : [(hashOff, hashEnd), (dirOff, dirEnd), (recsOff, recsEnd)].any
        (fun r => r.1 < HEADER ∨ sec.length < r.2 ∨ r.2 < r.1)
    · rw [if_pos hout, if_pos hout]
      rfl
    rw [if_neg hout, if_neg hout]
    by_cases hover : overlaps (hashOff, hashEnd) (dirOff, dirEnd) ∨
        overlaps (hashOff, hashEnd) (recsOff, recsEnd) ∨ overlaps (dirOff, dirEnd) (recsOff, recsEnd)
    · rw [if_pos hover, if_pos hover]
      rfl
    rw [if_neg hover, if_neg hover]
    by_cases hfull : hashCap < n
    · rw [if_pos hfull, if_pos hfull]
      rfl
    rw [if_neg hfull, if_neg hfull, parseFenceRun_eq, attempt_ofOption, ok_bind]
    generalize (parseFence sec n fenceOffsOff fenceN fenceStride
      [(hashOff, hashEnd), (dirOff, dirEnd), (recsOff, recsEnd)]).getD ((0, 0), (0, 0), 0, 0)
      = fence
    refine ofOption_bind_eq fun row _ => ?_
    cases row with
    | none =>
      dsimp only
      rw [ok_bind, subU_eq (by omega), ok_bind]
      rfl
    | some row =>
      obtain ⟨off, shift⟩ := row
      dsimp only
      by_cases hrow : off < HEADER ∨ sec.length < off
      · rw [if_pos hrow, if_pos hrow]
        rfl
      · rw [if_neg hrow, if_neg hrow, ok_bind, subU_eq (by omega), ok_bind]
        rfl

lemma rdWord_bind_ok {α : Type} {p : ℕ} {f : ℕ → Run Unit α} (h : p + 8 ≤ sec.length)
    (hp : p < 2 ^ 63) : (rdWord 8 sec p >>= f) = f (headerWord sec p) := by
  rw [rdWord_eq sec (by omega), readWord_of_le h, ofOption_some, ok_bind,
    headerWord_eq (readWord_of_le h)]

/-- A header that overflows the sum ends the process. -/
lemma parseRun_overflows (h : DirEndOverflows sec) : parseRun sec = trap .overflow := by
  have hlong := h.long
  have hcap : ¬ (headerWord sec 64 = 0 ∨ ¬ (headerWord sec 64).isPowerOfTwo) := by
    rintro (h0 | hp)
    · obtain ⟨k, hk⟩ := h.cap
      have := Nat.two_pow_pos k
      omega
    · exact hp h.cap
  have hstate : headerWord sec 152 < 256 ^ 8 := by
    rw [headerWord_eq (readWord_of_le (by omega : 152 + 8 ≤ sec.length))]
    exact leNat_slice_lt sec le_rfl
  have hbase : headerWord sec 80 < 2 ^ 32 := by
    rw [← h.live, Nat.shiftRight_eq_div_pow]
    omega
  have hfits := h.fits
  have hlive : liveDir (headerWord sec 80) (headerWord sec 56) (headerWord sec 144)
      (headerWord sec 152) = some (headerWord sec 80, headerWord sec 152 &&& 0xffffffff) := by
    have hfour : checked (headerWord sec 144 * 4) = some (headerWord sec 144 * 4) :=
      checked_eq_some.mpr ⟨by omega, rfl⟩
    have hsecond : checked (headerWord sec 80 + headerWord sec 144 * 4)
        = some (headerWord sec 80 + headerWord sec 144 * 4) := checked_eq_some.mpr ⟨by omega, rfl⟩
    have hok : ¬ ((headerWord sec 80 ≠ headerWord sec 80 ∧
        headerWord sec 80 ≠ headerWord sec 80 + headerWord sec 144 * 4) ∨
        headerWord sec 144 < headerWord sec 152 &&& 0xffffffff) := by
      have := h.few
      omega
    rw [liveDir, if_neg h.reserved, hfour, some_bind_eq, hsecond, some_bind_eq, h.live, if_neg hok]
  have hhash := h.hash
  rw [parseRun, if_neg (not_not_intro h.flat)]
  iterate 14 refine (rdWord_bind_ok (by omega) (by norm_num)).trans ?_
  rw [clampU_eq (le_max_right _ _), ok_bind]
  iterate 5 refine (rdWord_bind_ok (by omega) (by norm_num)).trans ?_
  rw [if_neg hcap, hlive, ofOption_some, ok_bind]
  dsimp only
  rw [ofOption_checked (by omega), ok_bind, ofOption_checked hhash, ok_bind, if_neg h.reserved,
    ofOption_checked hfits, ok_bind, addU_trap (not_lt.mpr h.wraps), trap_bind]

/-! ## What `parse` hands out -/

/-- What the reads of an index rely on: regions inside the section, a table of a power of two of
slots that fill its region, no more keys than slots, and a fence, where there is one, whose stride
cuts the keys into its entries. -/
structure Parsed (sec : Bytes) (fi : FlatIndex) : Prop where
  hash : fi.hash.2 = fi.hash.1 + fi.hashCap * SLOT ∧ fi.hash.2 ≤ sec.length
  dir : fi.dir.1 ≤ sec.length
  mask : fi.mask = fi.hashCap - 1
  cap : fi.hashCap.isPowerOfTwo
  few : fi.nkeys ≤ fi.hashCap
  fence : fi.fenceN = 0 ∨ fi.fenceN = divCeil fi.nkeys fi.fenceStride ∧ 0 < fi.fenceStride ∧
    fi.fenceStride < 2 ^ 64 ∧ fi.fenceN ≤ fi.nkeys

lemma parseFence_eq_some {nkeys fenceOffsOff fenceN fenceStride : ℕ} {regions : List (ℕ × ℕ)}
    {r : (ℕ × ℕ) × (ℕ × ℕ) × ℕ × ℕ}
    (h : parseFence sec nkeys fenceOffsOff fenceN fenceStride regions = some r) :
    r.2.2 = (fenceN, fenceStride) ∧ fenceN = divCeil nkeys fenceStride ∧ 0 < fenceStride ∧
    fenceN ≤ nkeys := by
  rw [parseFence] at h
  split_ifs at h with h1 h2
  simp only [Option.bind_eq_bind, Option.bind_eq_some_iff] at h
  obtain ⟨len, -, offsEnd, -, h⟩ := h
  split_ifs at h with h3
  simp only [Option.bind_eq_some_iff] at h
  obtain ⟨offs, -, blobLen, -, blobEnd, -, h⟩ := h
  split_ifs at h with h4 h5
  rw [Option.some_inj] at h
  rw [← h]
  exact ⟨rfl, not_not.mp h2, by omega, by omega⟩

lemma parseFence_getD (sec : Bytes) (nkeys fenceOffsOff fenceN fenceStride : ℕ)
    (hword : fenceStride < 256 ^ 8) (regions : List (ℕ × ℕ)) :
    let f := (parseFence sec nkeys fenceOffsOff fenceN fenceStride regions).getD
      ((0, 0), (0, 0), 0, 0)
    f.2.2.1 = 0 ∨ f.2.2.1 = divCeil nkeys f.2.2.2 ∧ 0 < f.2.2.2 ∧ f.2.2.2 < 2 ^ 64 ∧
      f.2.2.1 ≤ nkeys := by
  cases h : parseFence sec nkeys fenceOffsOff fenceN fenceStride regions with
  | none => exact Or.inl rfl
  | some r =>
      obtain ⟨hr, hceil, hpos, hle⟩ := parseFence_eq_some h
      rw [Option.getD_some]
      dsimp only
      rw [hr]
      exact Or.inr ⟨hceil, hpos, by omega, hle⟩

/-- What holds of every value a reader's continuation gives holds of the reader's. -/
lemma of_bind_eq_some {α β : Type} {x : Option α} {f : α → Option β} {P : β → Prop}
    (h : ∀ a, x = some a → ∀ r, f a = some r → P r) : ∀ r, (x >>= f) = some r → P r := by
  cases x with
  | none => exact fun r hr => absurd hr (by simp)
  | some a => exact h a rfl

lemma parsed_of_parse : ∀ fi, parse sec = some fi → Parsed sec fi := by
  rw [parse]
  by_cases hflat : isFlat sec
  swap
  · rw [if_pos hflat]
    exact fun fi hfi => absurd hfi (by simp)
  rw [if_neg (not_not_intro hflat)]
  iterate 6 refine of_bind_eq_some fun _ _ => ?_
  refine of_bind_eq_some fun nkeys _ => ?_
  refine of_bind_eq_some fun hashCap _ => ?_
  refine of_bind_eq_some fun hashOff _ => ?_
  refine of_bind_eq_some fun dirBase _ => ?_
  refine of_bind_eq_some fun recsOff _ => ?_
  iterate 3 refine of_bind_eq_some fun _ _ => ?_
  refine of_bind_eq_some fun fenceOffsOff _ => ?_
  refine of_bind_eq_some fun fenceN _ => ?_
  refine of_bind_eq_some fun fenceStride hstride => ?_
  refine of_bind_eq_some fun dirCap _ => ?_
  refine of_bind_eq_some fun dirState _ => ?_
  by_cases hpow : hashCap = 0 ∨ ¬ hashCap.isPowerOfTwo
  · rw [if_pos hpow]
    exact fun fi hfi => absurd hfi (by simp)
  rw [if_neg hpow]
  refine of_bind_eq_some ?_
  rintro ⟨dirOff, n⟩ hlive
  refine of_bind_eq_some fun hashLen hhashLen => ?_
  refine of_bind_eq_some fun hashEnd hhashEnd => ?_
  obtain ⟨-, rfl⟩ := checked_eq_some.mp hhashLen
  obtain ⟨-, rfl⟩ := checked_eq_some.mp hhashEnd
  by_cases h0 : dirCap = 0
  case' pos =>
    rw [if_pos h0]
    refine of_bind_eq_some fun len _ => ?_
  case' neg => rw [if_neg h0]
  all_goals
    refine of_bind_eq_some fun dirEnd _ => ?_
    refine of_bind_eq_some fun recsEnd _ => ?_
    dsimp only
    by_cases hout : [(hashOff, hashOff + hashCap * SLOT), (dirOff, dirEnd), (recsOff, recsEnd)].any
        (fun r => r.1 < HEADER ∨ sec.length < r.2 ∨ r.2 < r.1)
    · rw [if_pos hout]
      exact fun fi hfi => absurd hfi (by simp)
    rw [if_neg hout]
    by_cases hover : overlaps (hashOff, hashOff + hashCap * SLOT) (dirOff, dirEnd) ∨
        overlaps (hashOff, hashOff + hashCap * SLOT) (recsOff, recsEnd) ∨
          overlaps (dirOff, dirEnd) (recsOff, recsEnd)
    · rw [if_pos hover]
      exact fun fi hfi => absurd hfi (by simp)
    rw [if_neg hover]
    by_cases hfull : hashCap < n
    · rw [if_pos hfull]
      exact fun fi hfi => absurd hfi (by simp)
    rw [if_neg hfull]
    have hfence := parseFence_getD sec n fenceOffsOff fenceN fenceStride (readWord_lt hstride)
      [(hashOff, hashOff + hashCap * SLOT), (dirOff, dirEnd), (recsOff, recsEnd)]
    generalize (parseFence sec n fenceOffsOff fenceN fenceStride
      [(hashOff, hashOff + hashCap * SLOT), (dirOff, dirEnd), (recsOff, recsEnd)]).getD
        ((0, 0), (0, 0), 0, 0) = fence at hfence
    simp only [List.any_cons, List.any_nil, Bool.or_eq_true, decide_eq_true_eq, not_or] at hout
    have hcap : hashCap.isPowerOfTwo := not_not.mp (not_or.mp hpow).2
    refine of_bind_eq_some fun row _ => ?_
    have hparsed : ∀ fi : FlatIndex, fi.hash = (hashOff, hashOff + hashCap * SLOT) →
        fi.dir = (dirOff, dirEnd) → fi.hashCap = hashCap → fi.mask = hashCap - 1 → fi.nkeys = n →
        fi.fenceN = fence.2.2.1 → fi.fenceStride = fence.2.2.2 → Parsed sec fi := by
      intro fi e1 e2 e3 e4 e5 e6 e7
      refine ⟨?_, ?_, by rw [e4, e3], by rw [e3]; exact hcap, by omega, by rw [e5, e6, e7]; exact hfence⟩
      · rw [e1, e3]
        exact ⟨rfl, by omega⟩
      · rw [e2]
        dsimp only
        omega
    cases row with
    | none =>
      intro fi hfi
      simp only [Option.some.injEq, some_bind_eq] at hfi
      rw [← hfi]
      exact hparsed _ rfl rfl rfl rfl rfl rfl rfl
    | some row =>
      obtain ⟨off, shift⟩ := row
      dsimp only
      by_cases hrow : off < HEADER ∨ sec.length < off
      · rw [if_pos hrow]
        exact fun fi hfi => absurd hfi (by simp)
      · rw [if_neg hrow]
        intro fi hfi
        simp only [Option.some.injEq, some_bind_eq] at hfi
        rw [← hfi]
        exact hparsed _ rfl rfl rfl rfl rfl rfl rfl

/-! ## The reads -/

section Reads

variable {fi : FlatIndex} {base : ℕ}

lemma length_region {r : ℕ × ℕ} {x : Bytes} (h : region sec r = some x) :
    x.length = r.2 - r.1 ∧ r.2 ≤ sec.length := by
  obtain ⟨-, hle, hx⟩ := getRange_eq_some.mp h
  rw [← hx, length_slice_of_le hle]
  exact ⟨rfl, hle⟩

lemma recordFullRun_eq (hlen : sec.length < 2 ^ 63) {off : ℕ} (hoff : off < 2 ^ 63) :
    recordFullRun base fi sec off = ofOption (recordFull base fi sec off) := by
  refine ofOption_bind_eq fun recs hrecs => ?_
  have hl := length_region hrecs
  rw [parseRecordRun_eq _ (by omega) hoff, ofOption_map]

lemma slotRecordRun_eq (hlen : sec.length < 2 ^ 63) (key : Bytes) (tag packed : ℕ) :
    slotRecordRun base fi sec key tag packed = ok (slotRecord base fi sec key tag packed) := by
  have hoff : packed &&& 0x00ffffffffffffff < 2 ^ 63 :=
    lt_of_le_of_lt Nat.and_le_right (by norm_num)
  rw [slotRecordRun, slotRecord, recordFullRun_eq hlen hoff, attempt_ofOption, ok_bind]
  generalize recordFull base fi sec (packed &&& 0x00ffffffffffffff) = r
  split_ifs
  · cases r with
    | none => rfl
    | some r => rfl
  · rfl

lemma and_mask_lt (hp : Parsed sec fi) (s : ℕ) : s &&& fi.mask < fi.hashCap := by
  obtain ⟨k, hk⟩ := hp.cap
  have hpos := Nat.two_pow_pos k
  have hle : s &&& fi.mask ≤ fi.mask := Nat.and_le_right
  have := hp.mask
  omega

/-- **The probe** answers as the probe of `lookup_full` does, from a slot inside the table. -/
lemma probeRun_eq (hp : Parsed sec fi) (hlen : sec.length < 2 ^ 63) (hash key : Bytes)
    (tag fuel : ℕ) {s : ℕ} (hs : s < fi.hashCap) :
    ∃ x : Option (ℕ × List Ext × Bytes), probeRun base fi sec hash key tag fuel s = ofOption x ∧
      x.map Prod.snd = lookupLoop base fi sec hash key tag fuel s ∧
      ∀ r, x = some r → r.1 < hash.length := by
  have hsize : fi.hashCap * 8 ≤ sec.length := by
    have := hp.hash
    rw [SLOT] at this
    omega
  induction fuel generalizing s with
  | zero => exact ⟨none, rfl, rfl, fun r hr => absurd hr (by simp)⟩
  | succ fuel ih =>
      have hpos : s * SLOT < 2 ^ 63 := by
        rw [SLOT]
        omega
      rw [probeRun, lookupLoop, mulU_eq (by omega), ok_bind, rdWord_eq hash (by omega)]
      cases hword : readWord 8 hash (s * SLOT) with
      | none => exact ⟨none, rfl, rfl, fun r hr => absurd hr (by simp)⟩
      | some packed =>
          have hin := le_of_readWord hword
          rw [ofOption_some, ok_bind, some_bind_eq]
          by_cases h0 : packed = 0
          · rw [if_pos h0, if_pos h0]
            exact ⟨none, rfl, rfl, fun r hr => absurd hr (by simp)⟩
          rw [if_neg h0, if_neg h0, slotRecordRun_eq hlen, ok_bind]
          cases slotRecord base fi sec key tag packed with
          | none =>
              obtain ⟨x, hx⟩ := ih (and_mask_lt hp (s + 1))
              rw [addU_eq (by omega), ok_bind]
              exact ⟨x, hx⟩
          | some r =>
              refine ⟨some (s * SLOT, r), rfl, rfl, ?_⟩
              intro r' hr'
              rw [← Option.some.inj hr']
              dsimp only
              omega

lemma lookupFullRun_eq (hp : Parsed sec fi) (hlen : sec.length < 2 ^ 63) (key : Bytes)
    (hashOf : Bytes → UInt64) :
    lookupFullRun base fi sec key hashOf
      = ofOption (lookupFull base fi sec key fun k => (hashOf k).toNat) := by
  refine ofOption_bind_eq fun hash hhash => ?_
  obtain ⟨x, hx, hsnd, -⟩ := probeRun_eq hp hlen hash key (tagOf (hashOf key).toNat) fi.hashCap
    (and_mask_lt hp (hashOf key).toNat)
  rw [← hsnd, ofOption_map, ← hx]

lemma slotOfRun_safe (hp : Parsed sec fi) (hlen : sec.length < 2 ^ 63) (key : Bytes)
    (hashOf : Bytes → UInt64) : (slotOfRun base fi sec key hashOf).Safe := by
  rw [slotOfRun]
  cases hhash : region sec fi.hash with
  | none => trivial
  | some hash =>
      obtain ⟨x, hx, -, hin⟩ := probeRun_eq hp hlen hash key (tagOf (hashOf key).toNat) fi.hashCap
        (and_mask_lt hp (hashOf key).toNat)
      have hl := length_region hhash
      rw [ofOption_some, ok_bind]
      dsimp only
      rw [hx]
      cases x with
      | none => trivial
      | some r =>
          have := hin r rfl
          rw [ofOption_some, ok_bind, addU_eq (by omega)]
          trivial

lemma atFullRun_eq (hp : Parsed sec fi) (hlen : sec.length < 2 ^ 63) (rank : ℕ) :
    atFullRun base fi sec rank = ofOption (atFull base fi sec rank) := by
  have hsize := hp.hash
  have hfew := hp.few
  rw [SLOT] at hsize
  refine ofOption_bind_eq fun recs hrecs => ?_
  refine ofOption_bind_eq fun dir hdir => ?_
  have hl := length_region hrecs
  split_ifs with hrank
  · rfl
  · rw [mulU_eq (by omega), ok_bind]
    refine rdWord_bind_eq (by omega) fun off hoff => ?_
    have := readWord_lt hoff
    rw [parseRecordRun_eq _ (by omega) (by omega), ofOption_map]

lemma keyAtRun_eq (hp : Parsed sec fi) (hlen : sec.length < 2 ^ 63) (rank : ℕ) :
    keyAtRun fi sec rank = ofOption (keyAt fi sec rank) := by
  have hsize := hp.hash
  have hfew := hp.few
  rw [SLOT] at hsize
  rw [keyAtRun, keyAt]
  split_ifs with hrank
  · rfl
  · refine ofOption_bind_eq fun recs _ => ?_
    refine ofOption_bind_eq fun dir _ => ?_
    rw [mulU_eq (by omega), ok_bind]
    refine rdWord_bind_eq (by omega) fun off hoff => ?_
    have := readWord_lt hoff
    exact recordKeyRun_eq (by omega)

lemma fenceKeyRun_eq (hp : Parsed sec fi) (hlen : sec.length < 2 ^ 63) (i : ℕ) :
    fenceKeyRun fi sec i = ofOption (fenceKey fi sec i) := by
  have hsize := hp.hash
  have hfew := hp.few
  rw [SLOT] at hsize
  rw [fenceKeyRun, fenceKey]
  split_ifs with hi
  · rfl
  · have hle : fi.fenceN ≤ fi.nkeys := by
      rcases hp.fence with h0 | ⟨-, -, -, hle⟩
      · omega
      · exact hle
    refine ofOption_bind_eq fun offs _ => ?_
    rw [mulU_eq (by omega), ok_bind]
    refine rdWord_bind_eq (by omega) fun a _ => ?_
    rw [addU_eq (by omega), ok_bind, mulU_eq (by omega), ok_bind]
    refine rdWord_bind_eq (by omega) fun b _ => ?_
    split_ifs
    · rfl
    · exact ofOption_bind_eq fun blob _ => rfl

lemma fenceLoopRun_eq (hp : Parsed sec fi) (hlen : sec.length < 2 ^ 63) (key : Bytes) (lo hi : ℕ)
    (hhi : hi < 2 ^ 63) :
    fenceLoopRun fi sec key lo hi
      = ok (partitionPoint (fun mid => isLess (fenceKey fi sec mid) key) lo hi) := by
  fun_induction partitionPoint (fun mid => isLess (fenceKey fi sec mid) key) lo hi with
  | case1 lo hi hlt hmid ih =>
      rw [fenceLoopRun, if_pos hlt, addU_eq (by omega), ok_bind, fenceKeyRun_eq hp hlen,
        attempt_ofOption, ok_bind, if_pos hmid, addU_eq (by omega), ok_bind]
      exact ih hhi
  | case2 lo hi hlt hmid ih =>
      rw [fenceLoopRun, if_pos hlt, addU_eq (by omega), ok_bind, fenceKeyRun_eq hp hlen,
        attempt_ofOption, ok_bind, if_neg hmid]
      exact ih (by omega)
  | case3 lo hi hge => rw [fenceLoopRun, if_neg hge]

lemma searchRun_eq (hp : Parsed sec fi) (hlen : sec.length < 2 ^ 63) (key : Bytes) (lo hi : ℕ)
    (hhi : hi < 2 ^ 63) : searchRun fi sec key lo hi = ok (search fi sec key lo hi) := by
  rw [search]
  fun_induction partitionPoint (fun mid => isLess (keyAt fi sec mid) key) lo hi with
  | case1 lo hi hlt hmid ih =>
      have hm : lo + (hi - lo) / 2 = (lo + hi) / 2 := by omega
      rw [searchRun, if_pos hlt, subU_eq (by omega), ok_bind, addU_eq (by omega), ok_bind, hm,
        keyAtRun_eq hp hlen, attempt_ofOption, ok_bind, if_pos hmid, addU_eq (by omega), ok_bind]
      exact ih hhi
  | case2 lo hi hlt hmid ih =>
      have hm : lo + (hi - lo) / 2 = (lo + hi) / 2 := by omega
      rw [searchRun, if_pos hlt, subU_eq (by omega), ok_bind, addU_eq (by omega), ok_bind, hm,
        keyAtRun_eq hp hlen, attempt_ofOption, ok_bind, if_neg hmid]
      exact ih (by omega)
  | case3 lo hi hge => rw [searchRun, if_neg hge]

/-- The entries before the last one sample ranks that keys have. -/
lemma fence_before_lt (hp : Parsed sec fi) {lo : ℕ} (hlo : lo ≤ fi.fenceN) :
    (lo - 1) * fi.fenceStride ≤ fi.nkeys := by
  rcases hp.fence with h0 | ⟨hceil, hpos, -, hle⟩
  · have : lo - 1 = 0 := by omega
    rw [this, Nat.zero_mul]
    exact Nat.zero_le _
  · have hmul : fi.fenceN * fi.fenceStride ≤ fi.nkeys + fi.fenceStride - 1 := by
      conv_lhs => rw [hceil]
      exact Nat.div_mul_le_self _ _
    have hlast : (lo - 1) * fi.fenceStride ≤ (fi.fenceN - 1) * fi.fenceStride :=
      Nat.mul_le_mul_right _ (by omega)
    rw [Nat.sub_mul (fi.fenceN)] at hlast
    omega

/-- A fence of one entry reaches any stride; one of more has a stride no longer than the keys. -/
lemma fence_span_lt (hp : Parsed sec fi) (hlen : sec.length < 2 ^ 63) {lo : ℕ}
    (hlo : lo ≤ fi.fenceN) : lo * fi.fenceStride < 2 ^ 64 := by
  have hsize := hp.hash
  have hfew := hp.few
  rw [SLOT] at hsize
  have hle : lo * fi.fenceStride ≤ fi.fenceN * fi.fenceStride := Nat.mul_le_mul_right _ hlo
  rcases hp.fence with h0 | ⟨hceil, hpos, hword, hn⟩
  · rw [h0, Nat.zero_mul] at hle
    omega
  · rcases le_or_gt fi.fenceStride fi.nkeys with hshort | hlong
    · have hmul : fi.fenceN * fi.fenceStride ≤ fi.nkeys + fi.fenceStride - 1 := by
        conv_lhs => rw [hceil]
        exact Nat.div_mul_le_self _ _
      omega
    · have hone : fi.fenceN ≤ 1 := by
        rw [hceil, divCeil]
        exact Nat.le_of_lt_succ ((Nat.div_lt_iff_lt_mul hpos).mpr (by omega))
      have : fi.fenceN * fi.fenceStride ≤ 1 * fi.fenceStride := Nat.mul_le_mul_right _ hone
      omega

lemma partitionPoint_le (p : ℕ → Bool) {lo hi : ℕ} (h : lo ≤ hi) : partitionPoint p lo hi ≤ hi := by
  fun_induction partitionPoint p lo hi with
  | case1 lo hi hlt hmid ih => exact ih (by omega)
  | case2 lo hi hlt hmid ih => exact (ih (by omega)).trans (by omega)
  | case3 lo hi hge => exact h

lemma fenceWindowRun_eq (hp : Parsed sec fi) (hlen : sec.length < 2 ^ 63) (key : Bytes) :
    fenceWindowRun fi sec key = ok (fenceWindow fi sec key) ∧
      (fenceWindow fi sec key).2 ≤ fi.nkeys := by
  rw [fenceWindowRun, fenceWindow]
  split_ifs with hnone
  · exact ⟨rfl, le_rfl⟩
  · have hle : fi.fenceN ≤ fi.nkeys := by
      rcases hp.fence with h0 | ⟨-, -, -, hle⟩
      · omega
      · exact hle
    have hsize := hp.hash
    have hfew := hp.few
    rw [SLOT] at hsize
    rw [fenceLoopRun_eq hp hlen key 0 fi.fenceN (by omega), ok_bind]
    have hlo := partitionPoint_le (fun mid => isLess (fenceKey fi sec mid) key)
      (Nat.zero_le fi.fenceN)
    generalize partitionPoint (fun mid => isLess (fenceKey fi sec mid) key) 0 fi.fenceN = lo at hlo
    have hbefore := fence_before_lt hp hlo
    have hspan := fence_span_lt hp hlen hlo
    rw [mulU_eq (by omega), ok_bind, mulU_eq hspan, ok_bind]
    exact ⟨rfl, max_le (min_le_right _ _) hbefore⟩

/-- Whether a rank's key is not below the key asked for, on the code's side. -/
lemma notBelow_eq (n r : ℕ) (found : Option Bytes) (key : Bytes) :
    (if r < n then
        match found with
        | some k => ok (decide (¬ k < key))
        | none => ok false
      else ok true : Run Unit Bool) =
      ok (if r < n then
        match found with
        | some k => decide (¬ k < key)
        | none => false
      else true) := by
  split_ifs
  · cases found with
    | none => rfl
    | some k => rfl
  · rfl

lemma bracketsRun_eq (hp : Parsed sec fi) (hlen : sec.length < 2 ^ 63) (key : Bytes) (r : ℕ) :
    bracketsRun fi sec key r = ok (brackets fi sec key r) := by
  rw [bracketsRun, brackets, keyAtRun_eq hp hlen r, attempt_ofOption, ok_bind]
  by_cases hout : fi.nkeys < r
  · rw [if_pos hout, if_pos hout]
  rw [if_neg hout, if_neg hout]
  by_cases hpos : 0 < r
  · rw [if_pos hpos, subU_eq (by omega), ok_bind, keyAtRun_eq hp hlen, attempt_ofOption,
      ok_bind, ok_bind]
    dsimp only
    by_cases hless : isLess (keyAt fi sec (r - 1)) key
    · have hno : ¬ (0 < r ∧ ¬ isLess (keyAt fi sec (r - 1)) key) := fun h => h.2 hless
      rw [if_neg (not_not_intro hless), if_neg hno]
      exact notBelow_eq _ _ _ _
    · rw [if_pos hless, if_pos ⟨hpos, hless⟩]
  · rw [if_neg hpos, ok_bind]
    dsimp only
    have hno : ¬ (0 < r ∧ ¬ isLess (keyAt fi sec (r - 1)) key) := fun h => hpos h.1
    rw [if_neg (not_not_intro rfl), if_neg hno]
    exact notBelow_eq _ _ _ _

lemma seekWithRun_eq (hp : Parsed sec fi) (hlen : sec.length < 2 ^ 63) (key : Bytes)
    (fence : Bool) : seekWithRun fi sec key fence = ok (seekWith fi sec key fence) := by
  have hsize := hp.hash
  have hfew := hp.few
  rw [SLOT] at hsize
  have hall := searchRun_eq hp hlen key 0 fi.nkeys (by omega)
  rw [seekWithRun, seekWith]
  split_ifs with hf
  · obtain ⟨hw, hhi⟩ := fenceWindowRun_eq hp hlen key
    rw [hw, ok_bind]
    dsimp only
    rw [searchRun_eq hp hlen key _ _ (by omega), ok_bind, bracketsRun_eq hp hlen, ok_bind, hall]
    split_ifs
    · rfl
    · rfl
  · exact hall

lemma dirSlotOfRun_safe (hp : Parsed sec fi) (hlen : sec.length < 2 ^ 63) (key : Bytes) :
    (dirSlotOfRun fi sec key).Safe := by
  have hsize := hp.hash
  have hfew := hp.few
  have hdir := hp.dir
  rw [SLOT] at hsize
  rw [dirSlotOfRun, seekWithRun_eq hp hlen, ok_bind, keyAtRun_eq hp hlen]
  split_ifs with hrank
  · trivial
  · cases keyAt fi sec (fi.seekWith sec key true) with
    | none => trivial
    | some k =>
        rw [ofOption_some, ok_bind]
        split_ifs
        · trivial
        · rw [mulU_eq (by omega), ok_bind, addU_eq (by omega)]
          trivial

end Reads

/-! ## Damage costs an answer -/

/-- Every read of a section through the index parsed from it, whatever the key and the rank. -/
def ReadsSafe (base : ℕ) (sec : Bytes) (fi : FlatIndex) : Prop :=
  ∀ (key : Bytes) (hashOf : Bytes → UInt64) (rank : ℕ) (fence : Bool),
    (lookupFullRun base fi sec key hashOf).Safe ∧ (atFullRun base fi sec rank).Safe ∧
    (keyAtRun fi sec rank).Safe ∧ (seekWithRun fi sec key fence).Safe ∧
    (slotOfRun base fi sec key hashOf).Safe ∧ (dirSlotOfRun fi sec key).Safe

lemma readsSafe_of_parsed (base : ℕ) {fi : FlatIndex} (hp : Parsed sec fi)
    (hlen : sec.length < 2 ^ 63) : ReadsSafe base sec fi := by
  intro key hashOf rank fence
  refine ⟨?_, ?_, ?_, ?_, slotOfRun_safe hp hlen key hashOf, dirSlotOfRun_safe hp hlen key⟩
  · rw [lookupFullRun_eq hp hlen]
    exact ofOption_safe _
  · rw [atFullRun_eq hp hlen]
    exact ofOption_safe _
  · rw [keyAtRun_eq hp hlen]
    exact ofOption_safe _
  · rw [seekWithRun_eq hp hlen]
    trivial

/-- **A damaged key section costs an answer, unless its header overflows one sum.**  Whatever the
bytes, `parse` ends without a trap, and so does every read through the index it hands out, exactly
where the sum that ends the directories' region stays a word.  (No slice is longer than a signed
word counts.) -/
theorem parse_never_traps_iff (base : ℕ) (sec : Bytes) (hlen : sec.length < 2 ^ 63) :
    ((parseRun sec).Safe ∧ ∀ fi, parseRun sec = ok fi → ReadsSafe base sec fi)
      ↔ ¬ DirEndOverflows sec := by
  constructor
  · rintro ⟨hsafe, -⟩ hover
    rw [parseRun_overflows hover] at hsafe
    exact hsafe
  · intro hno
    rw [parseRun_eq hno]
    refine ⟨ofOption_safe _, ?_⟩
    intro fi hfi
    exact readsSafe_of_parsed base (parsed_of_parse fi (ofOption_eq_ok.mp hfi)) hlen

/-- A header of two directories at byte 192 with room for `2 ^ 61 - 1` entries each. -/
def overflowingSection : Bytes :=
  headerBytes [0, 0, 0, 0, 0, 0, 0, 1, 192, 192, 192, 0, 0, 0, 0, 0, 0, 2 ^ 61 - 1, 192 * 2 ^ 32]

/-- The sum overflows on it. -/
theorem parse_overflows :
    ¬ ((parseRun overflowingSection).Safe ∧
      ∀ fi, parseRun overflowingSection = ok fi → ReadsSafe 0 overflowingSection fi) := by
  have hover : DirEndOverflows overflowingSection :=
    ⟨by decide +kernel, by decide +kernel, by decide +kernel, by decide +kernel, by decide +kernel,
      by decide +kernel, by decide +kernel, by decide +kernel, by decide +kernel⟩
  refine mt And.left ?_
  rw [parseRun_overflows hover]
  exact not_safe_trap _

/-- Two keys, `1` and `2`, and two directories, the second live; its second entry is damaged. -/
def damagedDirSection : Bytes :=
  headerBytes [0, 0, 0, 0, 0, 0, 2, 2, 224, 208, 192, 16, 16, 16, 0, 0, 0, 2, 216 * 2 ^ 32 + 2] ++
    [1, 0, 0, 0, 1, 0, 0, 0, 1, 0, 0, 0, 2, 0, 0, 0] ++ [0, 0, 0, 0, 8, 0, 0, 0] ++
    [0, 0, 0, 0, 255, 255, 255, 255] ++ List.replicate 16 0

/-- It parses, its first key is read and its second is not, and no read of it traps. -/
theorem parse_never_traps_damagedDir : ∃ fi, parseRun damagedDirSection = ok fi ∧
    fi.keyAt damagedDirSection 0 = some [1] ∧ fi.keyAt damagedDirSection 1 = none ∧
    ReadsSafe 0 damagedDirSection fi := by
  have hlen : damagedDirSection.length < 2 ^ 63 := by decide +kernel
  have hends : headerWord damagedDirSection 80 + headerWord damagedDirSection 144 * 8 < 2 ^ 64 := by
    decide +kernel
  have hno : ¬ DirEndOverflows damagedDirSection :=
    fun hover => absurd hover.wraps (not_le_of_gt hends)
  have hread : (parse damagedDirSection).map (fun fi =>
      (fi.keyAt damagedDirSection 0, fi.keyAt damagedDirSection 1)) = some (some [1], none) := by decide +kernel
  obtain ⟨fi, hparse, hkeys⟩ := Option.map_eq_some_iff.mp hread
  have hrun : parseRun damagedDirSection = ok fi := by
    rw [parseRun_eq hno, hparse]
    rfl
  obtain ⟨hfirst, hsecond⟩ := Prod.mk.inj hkeys
  exact ⟨fi, hrun, hfirst, hsecond,
    ((parse_never_traps_iff 0 damagedDirSection hlen).mpr hno).2 fi hrun⟩

/-! ## A damaged fence changes no answer -/

section Fence

variable {fi : FlatIndex} {keys : List Bytes}

/-- The directory and the records hold `keys`, by rank.  Nothing is said of the fence. -/
structure HoldsKeys (fi : FlatIndex) (sec : Bytes) (keys : List Bytes) : Prop where
  nkeys : fi.nkeys = keys.length
  keyAt : ∀ (i : ℕ) (h : i < keys.length), fi.keyAt sec i = some keys[i]

/-- The number of keys below `q`. -/
def keysBelow (keys : List Bytes) (q : Bytes) : ℕ := (keys.filter (· < q)).length

lemma keysBelow_le (q : Bytes) : keysBelow keys q ≤ keys.length :=
  List.length_filter_le _ _

lemma getElem_lt_iff (hsorted : keys.Pairwise (· < ·)) (q : Bytes) (i : ℕ) (hi : i < keys.length) :
    keys[i] < q ↔ i < keysBelow keys q :=
  lt_iff_lt_length_filter hsorted (fun _ => decide_eq_true_iff) i hi

lemma isLess_keyAt (hk : HoldsKeys fi sec keys) (hsorted : keys.Pairwise (· < ·))
    (q : Bytes) {i : ℕ}
    (hi : i < keys.length) : isLess (fi.keyAt sec i) q = true ↔ i < keysBelow keys q := by
  rw [hk.keyAt i hi, isLess, decide_eq_true_iff]
  exact getElem_lt_iff hsorted q i hi

/-- The search without the fence. -/
lemma search_all (hk : HoldsKeys fi sec keys) (hsorted : keys.Pairwise (· < ·)) (q : Bytes) :
    fi.search sec q 0 fi.nkeys = keysBelow keys q := by
  rw [hk.nkeys]
  exact partitionPoint_eq (Nat.zero_le _) (keysBelow_le q) fun i _ hi =>
    isLess_keyAt hk hsorted q hi

/-- **Two probes settle an answer.**  A rank whose key is not below `q`, behind one whose key is, is
the number of keys below `q`, wherever it came from. -/
lemma eq_of_brackets (hk : HoldsKeys fi sec keys) (hsorted : keys.Pairwise (· < ·))
    {q : Bytes} {r : ℕ} (h : fi.brackets sec q r) : r = keysBelow keys q := by
  rw [brackets, hk.nkeys] at h
  split_ifs at h with hout hbelow hat
  · -- both probes: the key before `r` and the key at `r`
    have hlow : ¬ r < keysBelow keys q := by
      rw [hk.keyAt r hat] at h
      rw [← getElem_lt_iff hsorted q r hat]
      simpa using h
    rcases Nat.eq_zero_or_pos r with h0 | hpos
    · omega
    · have hless : isLess (fi.keyAt sec (r - 1)) q = true := by
        by_contra hno
        exact hbelow ⟨hpos, hno⟩
      have := (isLess_keyAt hk hsorted q (by omega)).mp hless
      omega
  · -- past the last key: only the key before `r` is asked
    have hle : keysBelow keys q ≤ keys.length := keysBelow_le q
    rcases Nat.eq_zero_or_pos r with h0 | hpos
    · omega
    · have hless : isLess (fi.keyAt sec (r - 1)) q = true := by
        by_contra hno
        exact hbelow ⟨hpos, hno⟩
      have := (isLess_keyAt hk hsorted q (by omega)).mp hless
      omega

lemma seekWith_eq (hk : HoldsKeys fi sec keys) (hsorted : keys.Pairwise (· < ·)) (q : Bytes)
    (fence : Bool) : fi.seekWith sec q fence = keysBelow keys q := by
  have hall := search_all hk hsorted q
  rw [seekWith]
  split_ifs with hf
  · dsimp only
    split_ifs with hb
    · exact eq_of_brackets hk hsorted hb
    · exact hall
  · exact hall

/-- **A damaged fence changes no answer.**  Whatever a parsed section's fence says, a seek by way of
it and a seek without it end, and end with the number of keys below the bound. -/
theorem seek_ignores_fence (hlen : sec.length < 2 ^ 63) (hparse : parse sec = some fi)
    (hkeys : HoldsKeys fi sec keys) (hsorted : keys.Pairwise (· < ·)) (q : Bytes) :
    seekWithRun fi sec q true = ok (keysBelow keys q) ∧
      seekWithRun fi sec q false = ok (keysBelow keys q) := by
  have hp := parsed_of_parse fi hparse
  rw [seekWithRun_eq hp hlen, seekWithRun_eq hp hlen, seekWith_eq hkeys hsorted,
    seekWith_eq hkeys hsorted]
  exact ⟨rfl, rfl⟩

/-- Two records, with the keys `1` and `2`, and a fence of stride one whose entries are `9` and the
empty key. -/
def damagedFenceSection : Bytes :=
  headerBytes [0, 0, 0, 0, 0, 0, 2, 2, 216, 208, 192, 16, 16, 16, 232, 2, 1, 0, 0] ++
    [1, 0, 0, 0, 1, 0, 0, 0, 1, 0, 0, 0, 2, 0, 0, 0] ++ [0, 0, 0, 0, 8, 0, 0, 0] ++
    List.replicate 16 0 ++ [0, 0, 0, 0, 1, 0, 0, 0, 1, 0, 0, 0, 9]

/-- The seeks of that section. -/
theorem seek_ignores_fence_run :
    ∃ fi, parse damagedFenceSection = some fi ∧ fi.fenceN = 2 ∧
      fi.fenceKey damagedFenceSection 0 = some [9] ∧
      seekWithRun fi damagedFenceSection [2] true = ok 1 ∧
      seekWithRun fi damagedFenceSection [2] false = ok 1 := by
  have hread : (parse damagedFenceSection).map (fun fi => ([fi.nkeys, fi.fenceN],
      [fi.keyAt damagedFenceSection 0, fi.keyAt damagedFenceSection 1,
      fi.fenceKey damagedFenceSection 0]))
      = some ([2, 2], [some [1], some [2], some [9]]) := by decide +kernel
  cases hparse : parse damagedFenceSection with
  | none =>
      rw [hparse] at hread
      exact absurd hread (by simp)
  | some fi =>
      rw [hparse, Option.map_some, Option.some_inj] at hread
      simp only [Prod.mk.injEq, List.cons.injEq, and_true] at hread
      obtain ⟨⟨h0, h3⟩, h1, h2, h4⟩ := hread
      have hkeys : HoldsKeys fi damagedFenceSection [[1], [2]] := by
        refine ⟨h0, ?_⟩
        intro i hi
        match i, hi with
        | 0, _ => exact h1
        | 1, _ => exact h2
      have hseek := seek_ignores_fence (by decide +kernel) hparse hkeys (by decide) [2]
      have hbelow : keysBelow [[1], [2]] [2] = 1 := by decide
      rw [hbelow] at hseek
      exact ⟨fi, rfl, h3, h4, hseek⟩

end Fence

end FlatIndex

end Supdb
