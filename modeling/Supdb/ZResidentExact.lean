import Supdb.ZResident

/-!
# The resident part is read back, and nothing else is

A fence that tiles its partition comes back from its resident part with the filter, its search tree
apart, which is built in memory and not stored.  Whatever bytes a reader is given, under whatever
trailer, it ends without a trap, and a fence it returns tiles the partition the trailer names.
-/

namespace Supdb

open StorageLib

/-- A scan of neighbours finds none that fails where all are related. -/
lemma zip_tail_any {α : Type} {r : α → α → Prop} (p : α × α → Bool)
    (hp : ∀ a b, p (a, b) = false ↔ r a b)
    (l : List α) : (l.zip l.tail).any p = false ↔ l.IsChain r := by
  induction l with
  | nil => simp
  | cons a l ih =>
      cases l with
      | nil => simp
      | cons b l =>
          rw [List.tail_cons, List.zip_cons_cons, List.any_cons, Bool.or_eq_false_iff, hp, List.isChain_cons_cons]
          exact and_congr_right fun _ => ih

namespace ZFence

lemma notAscending_iff (ws : List UInt32) : notAscending ws = false ↔ ws.Pairwise (· < ·) := by
  rw [notAscending, zip_tail_any (r := (· < ·)) _ (fun a b => by simp), List.isChain_iff_pairwise]

/-- The pages of the entries that have one. -/
def heldPages (page : List UInt32) : List UInt32 := page.filter (· ≠ ZNOPAGE)

/-- **The entries tile a partition** of `nkeys` keys held by `nPages` pages: the first begins at
rank zero, first ranks and keys ascend and every first rank is a key's, the pages held ascend, and
are all the pages. -/
structure Tiles (f : ZFence) (ks : List Bytes) (nkeys nPages : ℕ) : Prop where
  empty : ks = [] ↔ nkeys = 0
  starts : ∀ r ∈ f.firstRank.head?, r = 0
  ranks : f.firstRank.Pairwise (· < ·)
  within : ∀ r ∈ f.firstRank, r.toNat < nkeys
  keys : ks.Pairwise (· < ·)
  pages : (heldPages f.page).Pairwise (· < ·)
  known : ∀ p ∈ heldPages f.page, p.toNat < nPages
  used : (heldPages f.page).length = nPages

section Tiling

variable {f : ZFence} {ks : List Bytes}

/-- The check of the keys: every neighbour pair of them. -/
lemma Holds.checkKeys_eq (h : f.Holds ks) {s n : ℕ} (hs : 1 ≤ s) (hn : s + n ≤ ks.length) :
    f.checkKeys (List.range' s n) = if ∀ i, s ≤ i → i < s + n →
    ks.getD (i - 1) [] < ks.getD i [] then .ok ()
      else .err (.tiling "keys do not increase") := by
  induction n generalizing s with
  | zero =>
      rw [if_pos (fun i h1 h2 => by omega)]
      rfl
  | succ n ih =>
      have hprev : f.key (s - 1) = some (ks.getD (s - 1) []) := by
        rw [h.key_lt (by omega), List.getD_eq_getElem]
      have hcur : f.key s = some (ks.getD s []) := by
        rw [h.key_lt (by omega), List.getD_eq_getElem]
      rw [List.range'_succ, checkKeys, hprev, hcur]
      simp only [orTrap, Run.ok_bind]
      by_cases hle : ks.getD s [] ≤ ks.getD (s - 1) []
      · rw [if_pos hle, if_neg]
        intro hall
        exact absurd (hall s le_rfl (by omega)) (not_lt_of_ge hle)
      · rw [if_neg hle, ih (by omega) (by omega)]
        refine if_congr ?_ rfl rfl
        constructor
        · intro hall i h1 h2
          rcases Nat.eq_or_lt_of_le h1 with rfl | hlt
          · exact not_le.mp hle
          · exact hall i hlt (by omega)
        · intro hall i h1 h2
          exact hall i (by omega) (by omega)

/-- Neighbours in order are all in order. -/
lemma pairwise_of_neighbours {ks : List Bytes} :
    (∀ i, 1 ≤ i → i < 1 + (ks.length - 1) → ks.getD (i - 1) [] < ks.getD i []) ↔
    ks.Pairwise (· < ·) := by
  rw [← List.isChain_iff_pairwise, List.isChain_iff_getElem]
  constructor
  · intro h i hi
    have := h (i + 1) (by omega) (by omega)
    rwa [Nat.add_sub_cancel, List.getD_eq_getElem _ _ (by omega),
      List.getD_eq_getElem _ _ hi] at this
  · intro h i h1 h2
    have := h (i - 1) (by omega)
    rw [List.getD_eq_getElem _ _ (by omega), List.getD_eq_getElem _ _ (by omega)]
    simpa only [Nat.sub_add_cancel h1] using this

/-- The check of the pages ends without a trap. -/
lemma checkPages_safe (nPages : ℕ) (ps : List UInt32) (last : Option UInt32) (held : ℕ) :
    (checkPages nPages ps last held).Safe := by
  induction ps generalizing last held with
  | nil => trivial
  | cons p ps ih =>
      rw [checkPages]
      split_ifs
      · exact ih last held
      · trivial
      · trivial
      · exact ih _ _

/-- **What it counts**, and when it does. -/
lemma checkPages_iff (nPages : ℕ) (ps : List UInt32) (last : Option UInt32) (held m : ℕ) :
    checkPages nPages ps last held = .ok m ↔ (heldPages ps).Pairwise (· < ·) ∧
      (∀ p ∈ heldPages ps, p.toNat < nPages) ∧ (∀ l ∈ last, ∀ p ∈ heldPages ps, l < p) ∧
      m = held + (heldPages ps).length := by
  induction ps generalizing last held with
  | nil =>
      simp [checkPages, heldPages, eq_comm]
  | cons p ps ih =>
      rw [checkPages]
      by_cases hno : p = ZNOPAGE
      · have hheld : heldPages (p :: ps) = heldPages ps := by
          rw [heldPages, List.filter_cons_of_neg (by simpa using hno)]
          rfl
        rw [if_pos hno, hheld]
        exact ih last held
      have hheld : heldPages (p :: ps) = p :: heldPages ps := by
        rw [heldPages, List.filter_cons_of_pos (by simpa using hno)]
        rfl
      rw [if_neg hno, hheld, List.pairwise_cons, List.length_cons]
      split_ifs with hpast hlast
      · refine iff_of_false (by simp) ?_
        rintro ⟨-, hall, -⟩
        exact absurd (hall p (List.mem_cons_self ..)) (not_lt_of_ge hpast)
      · refine iff_of_false (by simp) ?_
        rintro ⟨-, -, hall, -⟩
        cases last with
        | none => cases hlast
        | some l => exact absurd (hall l rfl p (List.mem_cons_self ..)) (UInt32.not_lt.mpr (of_decide_eq_true hlast))
      · rw [ih]
        have hprev : ∀ l ∈ last, l < p := by
          rintro l rfl
          by_contra hle
          exact hlast (decide_eq_true (UInt32.not_lt.mp hle))
        constructor
        · rintro ⟨h1, h2, h3, h4⟩
          refine ⟨⟨fun q hq => h3 p rfl q hq, h1⟩, ?_, ?_, by omega⟩
          · intro q hq
            rcases List.mem_cons.mp hq with rfl | hq
            · exact not_le.mp hpast
            · exact h2 q hq
          · intro l hl q hq
            rcases List.mem_cons.mp hq with rfl | hq
            · exact hprev l hl
            · exact UInt32.lt_trans (hprev l hl) (h3 p rfl q hq)
        · rintro ⟨⟨h0, h1⟩, h2, h3, h4⟩
          refine ⟨h1, fun q hq => h2 q (List.mem_cons_of_mem _ hq), ?_, by omega⟩
          intro l hl q hq
          rw [Option.mem_some_iff] at hl
          rw [← hl]
          exact h0 q hq

/-- **The check of the tiling is exact**, and never traps. -/
lemma Holds.checkTiling_iff (h : f.Holds ks) (nkeys nPages : ℕ) :
    (f.checkTiling nkeys nPages).Safe ∧
    (f.checkTiling nkeys nPages = .ok () ↔ f.Tiles ks nkeys nPages) := by
  have hlen := h.len
  have hranks := h.ranks
  rw [checkTiling, hlen]
  by_cases h0 : nkeys = 0
  · have hnone : ks = [] → f.firstRank = [] ∧ heldPages f.page = [] := by
      rintro rfl
      rw [heldPages, List.length_eq_zero_iff.mp h.pages]
      exact ⟨List.length_eq_zero_iff.mp hranks, rfl⟩
    rw [if_pos h0]
    split_ifs with hempty
    · refine ⟨trivial, iff_of_true rfl ?_⟩
      have hnil : ks = [] := List.length_eq_zero_iff.mp hempty.1
      obtain ⟨hr, hp⟩ := hnone hnil
      refine ⟨iff_of_true hnil h0, ?_, ?_, ?_, ?_, ?_, ?_, ?_⟩
      · simp [hr]
      · simp [hr]
      · simp [hr]
      · simp [hnil]
      · simp [hp]
      · simp [hp]
      · rw [hp, hempty.2]
        rfl
    · refine ⟨trivial, iff_of_false (by simp) ?_⟩
      intro ht
      have hnil := ht.empty.mpr h0
      have hused := ht.used
      rw [(hnone hnil).2] at hused
      exact hempty ⟨by rw [hnil]; rfl, hused.symm⟩
  rw [if_neg h0]
  by_cases he : ks.length = 0
  · rw [if_pos he]
    refine ⟨trivial, iff_of_false (by simp) ?_⟩
    intro ht
    exact h0 (ht.empty.mp (List.length_eq_zero_iff.mp he))
  have hpos : 0 < f.firstRank.length := by omega
  rw [if_neg he, Run.index_eq hpos, Run.ok_bind]
  by_cases hfirst : f.firstRank[0] = 0
  swap
  · rw [if_pos hfirst]
    refine ⟨trivial, iff_of_false (by simp) ?_⟩
    intro ht
    exact hfirst (ht.starts _ (by rw [List.head?_eq_getElem?, List.getElem?_eq_getElem hpos]; rfl))
  rw [if_neg (not_not_intro hfirst)]
  by_cases hasc : notAscending f.firstRank = true
  · rw [if_pos hasc]
    refine ⟨trivial, iff_of_false (by simp) ?_⟩
    intro ht
    rw [(notAscending_iff _).mpr ht.ranks] at hasc
    cases hasc
  have hranksAsc := (notAscending_iff _).mp (Bool.eq_false_iff.mpr hasc)
  have hlast : ks.length - 1 < f.firstRank.length := by omega
  rw [if_neg hasc, Run.index_eq hlast, Run.ok_bind]
  by_cases hpast : nkeys ≤ f.firstRank[ks.length - 1].toNat
  · rw [if_pos hpast]
    refine ⟨trivial, iff_of_false (by simp) ?_⟩
    intro ht
    exact absurd (ht.within _ (List.getElem_mem hlast)) (not_lt_of_ge hpast)
  rw [if_neg hpast, h.checkKeys_eq le_rfl (by omega)]
  by_cases hkeys : ks.Pairwise (· < ·)
  swap
  · rw [if_neg (fun hall => hkeys (pairwise_of_neighbours.mp hall))]
    exact ⟨trivial, iff_of_false (by simp) (fun ht => hkeys ht.keys)⟩
  rw [if_pos (pairwise_of_neighbours.mpr hkeys), Run.ok_bind]
  have hwithin : ∀ r ∈ f.firstRank, r.toNat < nkeys := by
    intro r hr
    obtain ⟨i, hi, rfl⟩ := List.mem_iff_getElem.mp hr
    rcases Nat.eq_or_lt_of_le (by omega : i ≤ ks.length - 1) with rfl | hlt
    · exact not_le.mp hpast
    · have hle := UInt32.lt_iff_toNat_lt.mp (List.pairwise_iff_getElem.mp hranksAsc i (ks.length - 1) hi hlast hlt)
      omega
  have hiff := checkPages_iff nPages f.page none 0
  cases hheld : checkPages nPages f.page none 0 with
  | trap t =>
      have hsafe := checkPages_safe nPages f.page none 0
      rw [hheld] at hsafe
      exact absurd hsafe (Run.not_safe_trap t)
  | err e =>
      refine ⟨trivial, iff_of_false (by simp) ?_⟩
      intro ht
      have hok := (hiff (heldPages f.page).length).mpr ⟨ht.pages, ht.known, by simp, by omega⟩
      rw [hheld] at hok
      cases hok
  | ok held =>
      obtain ⟨h1, h2, -, h3⟩ := (hiff held).mp hheld
      rw [Run.ok_bind]
      by_cases hused : held = nPages
      swap
      · rw [if_pos hused]
        refine ⟨trivial, iff_of_false (by simp) (fun ht => hused ?_)⟩
        have := ht.used
        omega
      rw [if_neg (not_not_intro hused)]
      refine ⟨trivial, iff_of_true rfl ?_⟩
      refine ⟨iff_of_false (by rintro rfl; exact he rfl) h0, ?_, hranksAsc, hwithin, hkeys, h1, h2, by omega⟩
      intro r hr
      rw [List.head?_eq_getElem?, List.getElem?_eq_getElem hpos, Option.mem_def, Option.some.injEq] at hr
      rw [← hr, hfirst]

end Tiling

/-! ## What a reader is given -/

/-- The words of a region, where it has them. -/
def wordsAt (region : Bytes) (p n : ℕ) : List UInt32 :=
  (List.range n).map (fun i => UInt32.ofNat (u32At (slice region p (p + 4 * n)) (4 * i)))

lemma words_eq {region : Bytes} {p n : ℕ} (h : p + 4 * n ≤ region.length)
    (hlen : region.length < 2 ^ 64) : words region p n = .ok (wordsAt region p n) := by
  rw [words, Run.mulU_eq (by omega), Run.ok_bind, Run.addU_eq (by omega), Run.ok_bind,
    Run.cut_eq (by omega) h, Run.ok_bind, wordsAt]

lemma length_wordsAt (region : Bytes) (p n : ℕ) : (wordsAt region p n).length = n := by
  rw [wordsAt, List.length_map, List.length_range]

/-- Offsets that run from zero to the blob's length cut it into keys. -/
lemma holds_of_offsets {f : ZFence} {e : ℕ} (hranks : f.firstRank.length = e)
    (hpages : f.page.length = e) (hoffs : f.keyOff.length = e + 1) (hfirst : f.keyOff[0]? = some 0)
    (hlast : (f.keyOff[e]?).map UInt32.toNat = some f.keys.length)
    (hchain : f.keyOff.IsChain (fun a b => ¬ b < a)) : ∃ ks, f.Holds ks ∧ ks.length = e := by
  set off : ℕ → ℕ := fun i => (f.keyOff.getD i 0).toNat with hoff
  have hread : ∀ i ≤ e, f.keyOff[i]? = some (f.keyOff.getD i 0) := by
    intro i hi
    rw [List.getElem?_eq_getElem (by omega), List.getD_eq_getElem]
  have hmono : ∀ i < e, off i ≤ off (i + 1) := by
    intro i hi
    have := List.isChain_iff_getElem.mp hchain i (by omega)
    rw [hoff]
    dsimp only
    rw [List.getD_eq_getElem _ _ (by omega), List.getD_eq_getElem _ _ (by omega)]
    exact UInt32.le_iff_toNat_le.mp (UInt32.not_lt.mp this)
  have hend : off e = f.keys.length := by
    rw [hread e le_rfl, Option.map_some, Option.some.injEq] at hlast
    exact hlast
  have hle : ∀ d i, i + d = e → off i ≤ f.keys.length := by
    intro d
    induction d with
    | zero =>
        intro i hi
        rw [← hend, ← hi, Nat.add_zero]
    | succ d ih =>
        intro i hi
        exact (hmono i (by omega)).trans (ih (i + 1) (by omega))
  have hzero : off 0 = 0 := by
    rw [hread 0 (Nat.zero_le _), Option.some.injEq] at hfirst
    rw [hoff]
    dsimp only
    rw [hfirst]
    rfl
  set ks : List Bytes := (List.range e).map (fun i => slice f.keys (off i) (off (i + 1))) with hks
  have hlen : ks.length = e := by rw [hks, List.length_map, List.length_range]
  -- the first keys laid end to end are the blob up to their offset
  have htake : ∀ i ≤ e, (ks.take i).flatten = f.keys.take (off i) := by
    intro i
    induction i with
    | zero =>
        intro _
        rw [hzero, List.take_zero, List.take_zero, List.flatten_nil]
    | succ i ih =>
        intro hi
        have hget : ks[i]? = some (slice f.keys (off i) (off (i + 1))) := by
          rw [hks, List.getElem?_map, List.getElem?_range (by omega), Option.map_some]
        rw [List.take_add_one, hget, List.flatten_append, ih (by omega)]
        have hsplit := slice_append_slice f.keys (Nat.zero_le (off i)) (hmono i (by omega))
        simpa [slice] using hsplit
  refine ⟨ks, ⟨by omega, by omega, ?_, ?_, ?_⟩, hlen⟩
  · refine List.ext_getElem? ?_
    intro i
    rw [List.getElem?_map, List.getElem?_map, hlen]
    by_cases hi : i < e + 1
    · rw [hread i (by omega), List.getElem?_range hi, Option.map_some, Option.map_some,
        htake i (by omega), List.length_take, min_eq_left (hle (e - i) i (by omega))]
    · rw [List.getElem?_eq_none (by omega), List.getElem?_eq_none (by rw [List.length_range]; omega)]
      rfl
  · have hall := htake e le_rfl
    rw [hend, List.take_length, List.take_of_length_le hlen.le] at hall
    exact hall.symm
  · have hall := htake e le_rfl
    rw [hend, List.take_length, List.take_of_length_le hlen.le] at hall
    rw [hall, ← hend]
    exact (f.keyOff.getD e 0).toNat_lt

/-- The filter's checks do not trap, and leave the entries inside the region. -/
lemma filterOf_post {region : Bytes} {t : Trailer} {resLen bEnd : ℕ} (hlen : region.length = resLen)
    (hres : resLen < 2 ^ 64) (hend : bEnd + 8 ≤ 2 ^ 64) :
    (filterOf region t resLen bEnd).Post (fun _ => bEnd ≤ resLen) := by
  rw [filterOf]
  by_cases hfilter : t.filter = true
  · rw [if_pos hfilter]
    have hup := alignUp_lt bEnd (a := 8) (by norm_num)
    have hge := le_alignUp bEnd (a := 8) (by norm_num)
    rw [nextMultipleOf, if_pos (by omega), Run.ok_bind]
    dsimp only
    split_ifs with hover hplace
    · trivial
    · trivial
    · have hstart : alignUp bEnd 8 ≤ resLen := by
        by_contra hgt
        refine hplace (Or.inr (Or.inr ?_))
        rintro ⟨-, heq⟩
        omega
      rw [Run.cut_eq hge (by omega), Run.ok_bind]
      split_ifs with hpad
      · trivial
      · rw [Run.cut_eq (by omega) le_rfl]
        exact hge.trans hstart
  · rw [if_neg hfilter]
    split_ifs with hplace
    · trivial
    · by_contra hgt
      exact hplace (Or.inr (Or.inr (fun heq => hgt heq.ge)))

/-- The offsets' check. -/
lemma checkOffsets_post {keyOff : List UInt32} {e keysLen : ℕ} (hlen : keyOff.length = e + 1) :
    (checkOffsets keyOff e keysLen).Post (fun _ => keyOff[0]? = some 0 ∧
      (keyOff[e]?).map UInt32.toNat = some keysLen ∧ keyOff.IsChain (fun a b => ¬ b < a)) := by
  have h0 : 0 < keyOff.length := by omega
  have he : e < keyOff.length := by omega
  rw [checkOffsets, Run.index_eq h0, Run.ok_bind, Run.index_eq he, Run.ok_bind]
  split_ifs with hbad
  · trivial
  · rw [not_or, not_or, not_not, not_not, Bool.not_eq_true] at hbad
    refine ⟨by rw [List.getElem?_eq_getElem h0, hbad.1], by rw [List.getElem?_eq_getElem he,
      Option.map_some, hbad.2.1], ?_⟩
    exact (zip_tail_any _ (fun a b => by simp) keyOff).mp hbad.2.2

/-- **Reading the resident part never traps, and a fence it gives tiles the keys.** -/
theorem decodeResident_post (res : Bytes) (t : Trailer) :
    (decodeResident res t).Post (fun r => ∃ ks, r.1.Holds ks ∧
    r.1.Tiles ks t.nkeys.toNat t.nPages.toNat) := by
  rw [decodeResident]
  dsimp only
  cases hregion : getRange res 0 t.resLen.toNat with
  | none => trivial
  | some region =>
      obtain ⟨-, hin, hslice⟩ := getRange_eq_some.mp hregion
      have hlen : region.length = t.resLen.toNat := by rw [← hslice, length_slice_of_le hin, Nat.sub_zero]
      have hres : t.resLen.toNat < 2 ^ 64 := t.resLen.isLt
      dsimp only
      split_ifs with hcrc he hk
      · trivial
      · trivial
      · trivial
      rw [entriesEnd, if_pos (by omega)]
      dsimp only
      refine (filterOf_post hlen hres (by omega)).bind fun filter hend => ?_
      rw [Run.mulU_eq (by omega), Run.ok_bind, Run.addU_eq (by omega), Run.ok_bind,
        words_eq (by omega) (by omega), Run.ok_bind]
      refine (checkOffsets_post (length_wordsAt _ _ _)).bind fun _ hoffs => ?_
      rw [words_eq (by omega) (by omega), Run.ok_bind, Run.mulU_eq (by omega), Run.ok_bind,
        words_eq (by omega) (by omega), Run.ok_bind, Run.mulU_eq (by omega), Run.ok_bind,
        Run.addU_eq (by omega), Run.ok_bind, Run.cut_eq (by omega) (by omega), Run.ok_bind]
      obtain ⟨hfirst, hlast, hchain⟩ := hoffs
      have hkeys : (slice region (12 * t.nEntries.toNat + 4) (12 * t.nEntries.toNat + 4 + t.keysLen.toNat)).length
          = t.keysLen.toNat := by
        rw [length_slice_of_le (by omega), Nat.add_sub_cancel_left]
      set fence : ZFence := { firstRank := wordsAt region 0 t.nEntries.toNat
                              page := wordsAt region (4 * t.nEntries.toNat) t.nEntries.toNat
                              keyOff := wordsAt region (8 * t.nEntries.toNat) (t.nEntries.toNat + 1)
                              keys := slice region (12 * t.nEntries.toNat + 4)
                                (12 * t.nEntries.toNat + 4 + t.keysLen.toNat)
                              probe := [], probePos := [], shared := [] } with hfence
      obtain ⟨ks, hholds, -⟩ : ∃ ks, fence.Holds ks ∧ ks.length = t.nEntries.toNat :=
        holds_of_offsets (length_wordsAt _ _ _) (length_wordsAt _ _ _) (length_wordsAt _ _ _) hfirst
          (by rw [hfence, hkeys]; exact hlast) hchain
      obtain ⟨hsafe, hiff⟩ := hholds.checkTiling_iff t.nkeys.toNat t.nPages.toNat
      cases hcheck : fence.checkTiling t.nkeys.toNat t.nPages.toNat with
      | ok u => exact ⟨ks, hholds, hiff.mp hcheck⟩
      | err e => trivial
      | trap tr =>
          rw [hcheck] at hsafe
          exact hsafe

/-! ## The round trip -/

lemma two_mul_long_le (ks : List Bytes) :
    2 * (ks.filter (fun k => 2 ≤ k.length)).length ≤ ks.flatten.length := by
  induction ks with
  | nil => simp
  | cons k ks ih =>
      rw [List.flatten_cons, List.length_append]
      by_cases hk : 2 ≤ k.length
      · rw [List.filter_cons_of_pos (by simpa using hk), List.length_cons]
        omega
      · rw [List.filter_cons_of_neg (by simpa using hk)]
        omega

/-- A fence whose key blob has 32-bit offsets has fewer than `2^32` entries: all its keys but 257
take two bytes. -/
lemma length_lt_of_fits {ks : List Bytes} (hsorted : ks.Pairwise (· < ·))
    (hfits : ks.flatten.length < 2 ^ 32) : ks.length < 2 ^ 32 := by
  have hlong := two_mul_long_le ks
  have hshort : (ks.filter (fun k => ¬ 2 ≤ k.length)).length ≤ 257 := by
    have hsub : ks.filter (fun k => ¬ 2 ≤ k.length) ⊆ [] :: (List.range 256).map
      (fun i => [UInt8.ofNat i]) := by
      intro k hk
      have hlen := (List.mem_filter.mp hk).2
      cases k with
      | nil => exact List.mem_cons_self ..
      | cons b k =>
          have hnil : k = [] := by
            rw [← List.length_eq_zero_iff]
            simp only [List.length_cons, decide_eq_true_eq] at hlen
            omega
          refine List.mem_cons_of_mem _ (List.mem_map.mpr ⟨b.toNat, List.mem_range.mpr b.toNat_lt, ?_⟩)
          rw [hnil, UInt8.ofNat_toNat]
    have hnodup : (ks.filter (fun k => ¬ 2 ≤ k.length)).Nodup :=
      (hsorted.imp (fun hlt => ne_of_lt hlt)).sublist List.filter_sublist
    have hle := (List.subperm_of_subset hnodup hsub).length_le
    rwa [List.length_cons, List.length_map, List.length_range] at hle
  have hsplit := List.length_eq_length_filter_add (l := ks) (fun k => decide (2 ≤ k.length))
  simp only [← decide_not] at hsplit
  omega

/-- Words stored one after another. -/
def wordBytes (ws : List UInt32) : Bytes := ws.flatMap (fun w => leBytes 4 w.toNat)

lemma wordBytes_eq (ws : List UInt32) :
    wordBytes ws = (ws.map UInt32.toNat).flatMap (leBytes 4) := by
  rw [wordBytes, List.flatMap_map]

lemma length_wordBytes (ws : List UInt32) : (wordBytes ws).length = 4 * ws.length := by
  rw [wordBytes_eq, length_flatMap_leBytes, List.length_map, mul_comm]

lemma u32At_of_readWord {buf : Bytes} {p v : ℕ} (h : readWord 4 buf p = some v) :
    u32At buf p = v := by
  rw [readWord] at h
  obtain ⟨x, hx, rfl⟩ := Option.map_eq_some_iff.mp h
  rw [u32At, (getRange_eq_some.mp hx).2.2]

/-- Words stored in a region are read from it. -/
lemma wordsAt_wordBytes {pre post : Bytes} {ws : List UInt32} {p : ℕ} (hp : p = pre.length) :
    wordsAt (pre ++ (wordBytes ws ++ post)) p ws.length = ws := by
  have hslice : slice (pre ++ (wordBytes ws ++ post)) p (p + 4 * ws.length) = wordBytes ws :=
    slice_append_mid hp (by rw [length_wordBytes, hp])
  rw [wordsAt, hslice]
  refine List.ext_getElem? ?_
  intro i
  rw [List.getElem?_map]
  by_cases hi : i < ws.length
  · have hlt : ∀ w ∈ ws.map UInt32.toNat, w < 256 ^ 4 := by
      intro w hw
      obtain ⟨x, -, rfl⟩ := List.mem_map.mp hw
      exact x.toNat_lt
    have hread := readWord_flatMap (by norm_num : 0 < 4) (ws.map UInt32.toNat) hlt i
    rw [← wordBytes_eq, List.getElem?_map, List.getElem?_eq_getElem hi, Option.map_some,
      mul_comm] at hread
    rw [List.getElem?_range hi, Option.map_some, u32At_of_readWord hread,
      List.getElem?_eq_getElem hi, UInt32.ofNat_toNat]
  · rw [List.getElem?_eq_none (by rw [List.length_range]; omega), List.getElem?_eq_none (by omega)]
    rfl

/-- The trailer records the resident part's facts. -/
structure Records (t : Trailer) (f : ZFence) (facts : ResidentFacts) : Prop where
  entries : t.nEntries = BitVec.ofNat 64 f.len
  resLen : t.resLen = facts.resLen
  keysLen : t.keysLen = facts.keysLen
  filterOff : t.filterOff = facts.filterOff
  filterBlocks : t.filterBlocks = facts.filterBlocks
  resCrc : t.resCrc = facts.resCrc
  filter : t.filter = decide (facts.filterBlocks ≠ 0)

section RoundTrip

variable {f : ZFence} {ks : List Bytes}

lemma entryBytes_eq (f : ZFence) :
    f.entryBytes = wordBytes f.firstRank ++
    (wordBytes f.page ++ (wordBytes f.keyOff ++ f.keys)) := by
  rw [entryBytes, List.flatMap_append, List.flatMap_append, ← wordBytes, ← wordBytes, ← wordBytes,
    List.append_assoc, List.append_assoc]

lemma Holds.length_keyOff (h : f.Holds ks) : f.keyOff.length = ks.length + 1 := by
  have := congrArg List.length h.offs
  rwa [List.length_map, List.length_map, List.length_range] at this

lemma Holds.length_entryBytes (h : f.Holds ks) :
    f.entryBytes.length = 12 * ks.length + 4 + f.keys.length := by
  have hranks := h.ranks
  have hpages := h.pages
  have hoffs := h.length_keyOff
  rw [entryBytes_eq]
  simp only [List.length_append, length_wordBytes]
  omega

/-- The columns and the keys are read where they were written, whatever follows them. -/
lemma Holds.columns (h : f.Holds ks) (tail : Bytes) :
    wordsAt (f.entryBytes ++ tail) 0 ks.length = f.firstRank ∧
    wordsAt (f.entryBytes ++ tail) (4 * ks.length) ks.length = f.page ∧
    wordsAt (f.entryBytes ++ tail) (8 * ks.length) (ks.length + 1) = f.keyOff ∧
    slice (f.entryBytes ++ tail) (12 * ks.length + 4) (12 * ks.length + 4 + f.keys.length)
    = f.keys := by
  have hranks := h.ranks
  have hpages := h.pages
  have hoffs := h.length_keyOff
  have hr := length_wordBytes f.firstRank
  have hp := length_wordBytes f.page
  have ho := length_wordBytes f.keyOff
  rw [entryBytes_eq]
  refine ⟨?_, ?_, ?_, ?_⟩
  · rw [List.append_assoc, ← List.nil_append (wordBytes f.firstRank ++ _), ← hranks]
    exact wordsAt_wordBytes rfl
  · rw [List.append_assoc, List.append_assoc, ← hpages]
    exact wordsAt_wordBytes (by omega)
  · rw [← hoffs]
    have hsplit : wordBytes f.firstRank ++ (wordBytes f.page ++ (wordBytes f.keyOff ++ f.keys)) ++ tail
        = (wordBytes f.firstRank ++ wordBytes f.page) ++ (wordBytes f.keyOff ++ (f.keys ++ tail)) := by
      simp only [List.append_assoc]
    rw [hsplit]
    exact wordsAt_wordBytes (by rw [List.length_append]; omega)
  · have hsplit : wordBytes f.firstRank ++ (wordBytes f.page ++ (wordBytes f.keyOff ++ f.keys)) ++ tail
        = (wordBytes f.firstRank ++ (wordBytes f.page ++ wordBytes f.keyOff)) ++ (f.keys ++ tail) := by
      simp only [List.append_assoc]
    have hpre : (wordBytes f.firstRank ++ (wordBytes f.page ++ wordBytes f.keyOff)).length
      = 12 * ks.length + 4 := by
      rw [List.length_append, List.length_append]
      omega
    rw [hsplit]
    exact slice_append_mid hpre.symm (by rw [hpre])

/-- The offsets run as the check wants them. -/
lemma Holds.checkOffsets_eq (h : f.Holds ks) : checkOffsets f.keyOff ks.length f.keys.length
    = .ok () := by
  have hlen := h.length_keyOff
  have hread : ∀ (i : ℕ) (hi : i < f.keyOff.length), f.keyOff[i].toNat
    = (ks.take i).flatten.length := by
    intro i hi
    have hcol := congrArg (fun l => l[i]?) h.offs
    simp only [List.getElem?_map] at hcol
    rw [List.getElem?_eq_getElem hi, List.getElem?_range (by omega), Option.map_some,
      Option.map_some, Option.some.injEq] at hcol
    exact hcol
  have h0 : 0 < f.keyOff.length := by omega
  have he : ks.length < f.keyOff.length := by omega
  rw [checkOffsets, Run.index_eq h0, Run.ok_bind, Run.index_eq he, Run.ok_bind, if_neg]
  rw [not_or, not_or, not_not, not_not, Bool.not_eq_true]
  refine ⟨?_, ?_, ?_⟩
  · refine UInt32.toNat_inj.mp ?_
    rw [hread 0 h0, List.take_zero]
    rfl
  · rw [hread _ he, List.take_length, h.blob]
  · refine (zip_tail_any (r := fun a b => ¬ b < a) _ (fun a b => by simp) f.keyOff).mpr ?_
    refine List.isChain_iff_getElem.mpr ?_
    intro i hi
    rw [UInt32.lt_iff_toNat_lt, hread, hread, not_lt, List.take_add_one, List.flatten_append,
      List.length_append]
    exact Nat.le_add_right _ _

/-- The filter is read where it was written. -/
lemma filterOf_withFilter {entries filter out : Bytes} {off blocks resLen : ℕ} {t : Trailer}
    (hwith : withFilter entries filter = (out, off, blocks)) (hwhole : 64 ∣ filter.length)
    (hfits : out.length < 2 ^ 64) (hres : resLen = out.length) (hoff : t.filterOff.toNat = off)
    (hblocks : t.filterBlocks.toNat = blocks) (hflag : t.filter = decide (blocks ≠ 0)) :
    ∃ tail, out = entries ++ tail ∧ filterOf out t resLen entries.length = .ok filter := by
  subst hres
  rw [withFilter] at hwith
  by_cases hnil : filter = []
  · rw [if_pos hnil, Prod.mk.injEq, Prod.mk.injEq] at hwith
    obtain ⟨rfl, rfl, rfl⟩ := hwith
    refine ⟨[], (List.append_nil _).symm, ?_⟩
    have hoff0 : t.filterOff = 0 := BitVec.eq_of_toNat_eq hoff
    have hblocks0 : t.filterBlocks = 0 := BitVec.eq_of_toNat_eq hblocks
    rw [filterOf, if_neg (by rw [hflag]; simp), if_neg (by simp [hoff0, hblocks0]), hnil]
  · rw [if_neg hnil] at hwith
    simp only [Prod.mk.injEq] at hwith
    obtain ⟨rfl, rfl, rfl⟩ := hwith
    have hpos : 0 < filter.length := List.length_pos_iff.mpr hnil
    have hmul : filter.length / 64 * 64 = filter.length := Nat.div_mul_cancel hwhole
    have hblk : filter.length / 64 ≠ 0 := by omega
    have hpadlen := length_padding entries.length (a := 8) (by norm_num)
    have hstart : (entries ++ padding entries.length 8).length = alignUp entries.length 8 := by
      rw [List.length_append, hpadlen]
    have hup := le_alignUp entries.length (a := 8) (by norm_num)
    have hall : (entries ++ padding entries.length 8 ++ filter).length
        = alignUp entries.length 8 + filter.length := by rw [List.length_append, hstart]
    rw [hstart] at hoff
    rw [hall] at hfits
    refine ⟨padding entries.length 8 ++ filter, List.append_assoc .., ?_⟩
    rw [filterOf, hflag, if_pos (by simpa using hblk), nextMultipleOf, if_pos (by omega),
      Run.ok_bind]
    dsimp only
    rw [hblocks, hoff, hmul, hall, if_neg (by omega), if_neg (by omega), Run.cut_eq hup (by omega),
      Run.ok_bind, if_neg, Run.cut_eq (by omega) hall.ge]
    · congr 1
      rw [← hall, slice, List.take_length, ← hstart, List.drop_left]
    · rw [List.append_assoc, slice_append_mid rfl hpadlen.symm, padding]
      simp

/-- How much longer the filter makes the entries. -/
lemma withFilter_bounds {entries filter out : Bytes} {off blocks : ℕ}
    (hwith : withFilter entries filter = (out, off, blocks)) :
    out.length ≤ entries.length + 8 + filter.length ∧ off ≤ entries.length + 8 ∧
    blocks ≤ filter.length := by
  rw [withFilter] at hwith
  by_cases hnil : filter = []
  · rw [if_pos hnil, Prod.mk.injEq, Prod.mk.injEq] at hwith
    obtain ⟨rfl, rfl, rfl⟩ := hwith
    omega
  · rw [if_neg hnil] at hwith
    simp only [Prod.mk.injEq] at hwith
    obtain ⟨rfl, rfl, rfl⟩ := hwith
    have hpadlen := length_padding entries.length (a := 8) (by norm_num)
    have hup := alignUp_lt entries.length (a := 8) (by norm_num)
    rw [List.length_append, List.length_append]
    omega

/-- **The resident part is read back**: the fence and the filter, under any trailer that records its
facts. -/
theorem decodeResident_encodeResident (h : f.Holds ks) {filter out : Bytes} {facts : ResidentFacts}
    {t : Trailer} (henc : f.encodeResident filter = .ok (out, facts)) (hrec : Records t f facts)
    (htiles : f.checkTiling t.nkeys.toNat t.nPages.toNat = .ok ()) :
    decodeResident out t = .ok (f.bare, filter) := by
  rw [encodeResident] at henc
  split_ifs at henc with hwhole hroom
  rcases hwith : withFilter f.entryBytes filter with ⟨body, off, blocks⟩
  rw [hwith, Run.ok.injEq, Prod.mk.injEq] at henc
  obtain ⟨rfl, rfl⟩ := henc
  obtain ⟨hbody, hoffLe, hblocksLe⟩ := withFilter_bounds hwith
  have hentries := h.length_entryBytes
  have hkeysLt : f.keys.length < 2 ^ 32 := by
    rw [h.blob]
    exact h.fits
  have hlen := h.len
  rw [not_lt, ALLOC_MAX, ZPAGE, hlen] at hroom
  have hfew : ks.length < 2 ^ 32 :=
    length_lt_of_fits ((h.checkTiling_iff _ _).2.mp htiles).keys h.fits
  -- the facts as the numbers they are of
  have hword : ∀ {v : ℕ}, v < 2 ^ 64 → (BitVec.ofNat 64 v).toNat = v := by
    intro v hv
    rw [BitVec.toNat_ofNat, Nat.mod_eq_of_lt hv]
  have hresLen : t.resLen.toNat = body.length := by rw [hrec.resLen, hword (by omega)]
  have hnEntries : t.nEntries.toNat = ks.length := by rw [hrec.entries, hlen, hword (by omega)]
  have hkeysLen : t.keysLen.toNat = f.keys.length := by rw [hrec.keysLen, hword (by omega)]
  have hoffN : t.filterOff.toNat = off := by rw [hrec.filterOff, hword (by omega)]
  have hblocksN : t.filterBlocks.toNat = blocks := by rw [hrec.filterBlocks, hword (by omega)]
  have hflag : t.filter = decide (blocks ≠ 0) := by
    rw [hrec.filter]
    refine decide_eq_decide.mpr (not_congr ?_)
    rw [← BitVec.toNat_inj, hword (by omega)]
    rfl
  obtain ⟨tail, htail, hfilter⟩ :=
    filterOf_withFilter hwith hwhole (by omega) hresLen hoffN hblocksN hflag
  have hregion : getRange (body ++ padding body.length ZPAGE) 0 t.resLen.toNat = some body := by
    rw [hresLen]
    exact @getRange_append_mid _ [] _ _ _ _ rfl (Nat.zero_add _).symm
  have hin : 12 * ks.length + 4 + f.keys.length ≤ body.length := by
    rw [htail, List.length_append, hentries]
    omega
  have hall : body.length < 2 ^ 64 := by omega
  obtain ⟨hranks, hpages, hoffs, hkeys⟩ := h.columns tail
  rw [← htail] at hranks hpages hoffs hkeys
  have hbare : f.bare.checkTiling t.nkeys.toNat t.nPages.toNat = .ok () := by
    have ht := (h.checkTiling_iff _ _).2.mp htiles
    exact (h.bare.checkTiling_iff _ _).2.mpr
      ⟨ht.empty, ht.starts, ht.ranks, ht.within, ht.keys, ht.pages, ht.known, ht.used⟩
  rw [decodeResident]
  dsimp only
  rw [hregion]
  dsimp only
  rw [hrec.resCrc, if_neg (not_not_intro rfl), hnEntries, if_neg (by omega), hkeysLen,
    if_neg (by omega), entriesEnd, if_pos (by omega)]
  dsimp only
  rw [← hentries, hfilter, Run.ok_bind, Run.mulU_eq (by omega), Run.ok_bind, Run.addU_eq (by omega),
    Run.ok_bind, words_eq (by omega) hall, hoffs, Run.ok_bind, h.checkOffsets_eq, Run.ok_bind,
    words_eq (by omega) hall, hranks, Run.ok_bind, Run.mulU_eq (by omega), Run.ok_bind,
    words_eq (by omega) hall, hpages, Run.ok_bind, Run.mulU_eq (by omega),
    Run.ok_bind, Run.addU_eq (by omega), Run.ok_bind, hentries, Run.cut_eq (by omega) hin, hkeys,
    Run.ok_bind]
  change (f.bare.checkTiling t.nkeys.toNat t.nPages.toNat >>= fun _ => Run.ok (f.bare, filter)) = _
  rw [hbare, Run.ok_bind]

end RoundTrip

/-- **The resident part and the trailer are read back, and what is read is checked.**  A fence that
tiles its partition comes back from its resident part with the filter, under any trailer that
records its facts, as its entries: its search tree is not stored.  A trailer is read back where, and
only where, its fields nest.  Whatever bytes and trailer a reader has, it does not trap, and a fence
it returns tiles the partition the trailer names. -/
theorem resident_exact :
    (∀ (f : ZFence) (ks : List Bytes), f.Holds ks → ∀ (filter : Bytes), 64 ∣ filter.length →
      12 * f.len + 4 + f.keys.length + filter.length + ZPAGE ≤ ALLOC_MAX →
      ∃ out facts, f.encodeResident filter = .ok (out, facts) ∧
        ∀ t, Records t f facts → f.checkTiling t.nkeys.toNat t.nPages.toNat = .ok () →
          decodeResident out t = .ok (f.bare, filter)) ∧
    (∀ t : Trailer, Trailer.decode t.encode = .ok t ↔ t.Nests) ∧
    ∀ (res : Bytes) (t : Trailer), (decodeResident res t).Safe ∧
      ∀ f filter, decodeResident res t = .ok (f, filter) →
        f.checkTiling t.nkeys.toNat t.nPages.toNat = .ok () ∧
        ∃ ks, f.Holds ks ∧ f.Tiles ks t.nkeys.toNat t.nPages.toNat := by
  refine ⟨?_, Trailer.decode_encode, ?_⟩
  · intro f ks h filter hwhole hroom
    rcases hwith : withFilter f.entryBytes filter with ⟨body, off, blocks⟩
    have henc : ∃ out facts, f.encodeResident filter = .ok (out, facts) := by
      rw [encodeResident, if_neg (not_not_intro hwhole), if_neg (not_lt.mpr hroom), hwith]
      exact ⟨_, _, rfl⟩
    obtain ⟨out, facts, henc⟩ := henc
    exact ⟨out, facts, henc, fun t hrec htiles => decodeResident_encodeResident h henc hrec htiles⟩
  · intro res t
    have hpost := decodeResident_post res t
    refine ⟨hpost.safe, ?_⟩
    intro f filter hok
    obtain ⟨ks, hholds, htiles⟩ := hpost.of_eq_ok hok
    exact ⟨(hholds.checkTiling_iff _ _).2.mpr htiles, ks, hholds, htiles⟩

/-- A trailer that records the facts of a fence of three entries over eight keys and three pages. -/
def tiedTrailer (facts : ResidentFacts) : Trailer where
  nPages := 3
  nEntries := 3
  nkeys := 8
  resOff := 12288
  resLen := facts.resLen
  keysLen := facts.keysLen
  filterOff := facts.filterOff
  filterBlocks := facts.filterBlocks
  resCrc := facts.resCrc
  filter := facts.filterBlocks ≠ 0
  totalUlen := 0
  segRecsLen := 0
  segCrcOff := 0
  segKeyOff := 0
  segHashCap := 0
  segFileLen := 0
  segTimestamp := 0
  segGeneration := 0
  segRowCrc := 0
  recVersion := 0
  recMagic := 0
  segId := 0
  segEndSeq := 0
  bloomProbes := 1
  bloomSig := 0
  bloomBitsPerKey := 1

/-- The fence of `searches_agree_tied` read back, with a block of filter. -/
theorem resident_exact_tied : ∃ out facts,
    tiedFence.encodeResident (List.replicate 64 1) = .ok (out, facts) ∧
    decodeResident out (tiedTrailer facts) = .ok (tiedFence.bare, List.replicate 64 1) := by
  obtain ⟨out, facts, henc, hdec⟩ := resident_exact.1 tiedFence [[], [1], [1, 0]]
    ⟨rfl, rfl, by decide, rfl, by decide⟩ (List.replicate 64 1) (by decide) (by decide)
  have htiles : tiedFence.checkTiling 8 3 = .ok () := by decide
  exact ⟨out, facts, henc, hdec (tiedTrailer facts) ⟨rfl, rfl, rfl, rfl, rfl, rfl, rfl⟩ htiles⟩

/-- The same fence with the tree `index` builds over it. -/
def indexedFence : ZFence :=
  { tiedFence with probe := [0, 0, 0, 0, 0, 0, 0, 0], probePos := [0, 1, 0, 2], shared := [1] }

example : tiedFence.index = some indexedFence := by decide +kernel

/-- A fence with a search tree does not come back as it was: the tree is not stored. -/
theorem resident_drops_tree : ¬ ∀ (f : ZFence) (ks : List Bytes) (filter out : Bytes)
    (facts : ResidentFacts) (t : Trailer), f.Holds ks → f.encodeResident filter = .ok (out, facts) →
    Records t f facts →
    f.checkTiling t.nkeys.toNat t.nPages.toNat = .ok () →
    decodeResident out t = .ok (f, filter) := by
  intro hall
  have h : indexedFence.Holds [[], [1], [1, 0]] := ⟨rfl, rfl, by decide, rfl, by decide⟩
  rcases hwith : withFilter indexedFence.entryBytes [] with ⟨body, off, blocks⟩
  have henc : ∃ out facts, indexedFence.encodeResident [] = .ok (out, facts) := by
    rw [encodeResident, if_neg (by decide), if_neg (by decide), hwith]
    exact ⟨_, _, rfl⟩
  obtain ⟨out, facts, henc⟩ := henc
  have hrec : Records (tiedTrailer facts) indexedFence facts := ⟨rfl, rfl, rfl, rfl, rfl, rfl, rfl⟩
  have htiles : indexedFence.checkTiling 8 3 = .ok () := by decide
  have hback := hall indexedFence _ [] out facts _ h henc hrec htiles
  rw [decodeResident_encodeResident h henc hrec htiles, Run.ok.injEq, Prod.mk.injEq] at hback
  exact absurd hback.1 (by decide)

end ZFence

end Supdb
