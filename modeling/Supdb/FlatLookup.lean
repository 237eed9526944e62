import Supdb.FlatIndex

/-!
# What the flat index answers

A `FlatView` is a section whose regions hold a list of entries: every record is where the directory
says, every key's slot word is reached from its home slot, and the fence samples the keys.  Whoever
laid the section out, the three lookups then answer from the list.

* `FlatView.lookupFull` – a key's extents and tail, and nothing for a key that is not listed.
* `FlatView.atFull` – the record of a rank.
* `FlatView.seekWith` – the number of keys below a bound, with the fence or without.
-/

namespace Supdb

open StorageLib Flatindex

/-- A key, its extents and its inline tail. -/
structure FlatEntry where
  key : Bytes
  exts : List Ext
  tail : Bytes
  deriving DecidableEq, Repr

/-! ## Slot words -/

section SlotWords

variable {h off : ℕ}

lemma tagOf_lt (h : ℕ) : tagOf h < 2 ^ 8 :=
  Nat.and_lt_two_pow _ (by norm_num)

lemma tagOf_ne_zero (h : ℕ) : tagOf h ≠ 0 := by
  have hbit : (tagOf h).testBit 0 = true := by
    rw [tagOf, Nat.testBit_and, Nat.testBit_or]
    simp
  intro hz
  rw [hz] at hbit
  exact absurd hbit (by simp)

lemma slotWord_eq (hoff : off < 2 ^ 56) : slotWord h off = tagOf h * 2 ^ 56 + off := by
  rw [slotWord, Nat.shiftLeft_eq, Nat.mul_comm, Nat.two_pow_add_eq_or_of_lt hoff]

lemma slotWord_tag (hoff : off < 2 ^ 56) : slotWord h off >>> 56 = tagOf h := by
  rw [slotWord_eq hoff, Nat.shiftRight_eq_div_pow]
  omega

lemma slotWord_off (hoff : off < 2 ^ 56) : slotWord h off &&& 0x00ffffffffffffff = off := by
  have hmask : (0x00ffffffffffffff : ℕ) = 2 ^ 56 - 1 := by norm_num
  rw [hmask, Nat.and_two_pow_sub_one_eq_mod, slotWord_eq hoff]
  omega

lemma slotWord_ne_zero (hoff : off < 2 ^ 56) : slotWord h off ≠ 0 := by
  have := tagOf_ne_zero h
  rw [slotWord_eq hoff]
  omega

lemma slotWord_lt (hoff : off < 2 ^ 56) : slotWord h off < 2 ^ 64 := by
  have := tagOf_lt h
  rw [slotWord_eq hoff]
  omega

end SlotWords

/-! ## A section that holds a list of entries -/

/-- A section at address `base` holding `entries`, its keys hashed by `hashOf`. -/
structure FlatView (base : ℕ) (fi : FlatIndex) (sec : Bytes) (entries : List FlatEntry)
    (hashOf : Bytes → ℕ) where
  recs : Bytes
  offs : List ℕ
  slots : List ℕ
  /-- The table has `2 ^ bits` slots. -/
  bits : ℕ
  nkeys : fi.nkeys = entries.length
  recsRegion : FlatIndex.region sec fi.recs = some recs
  dirRegion : FlatIndex.region sec fi.dir = some (offs.flatMap (leBytes 4))
  offsLen : offs.length = entries.length
  offsFit : ∀ o ∈ offs, o < 2 ^ 32
  record : ∀ i (hi : i < entries.length) (ho : i < offs.length),
    ∃ len, parseRecord (base + fi.recs.1) recs offs[i]
      = some (entries[i].key, entries[i].exts, entries[i].tail, len)
  recordKey : ∀ i (hi : i < entries.length) (ho : i < offs.length),
    FlatIndex.recordKey recs offs[i] = some entries[i].key
  hashRegion : FlatIndex.region sec fi.hash = some (slots.flatMap (leBytes 8))
  slotsLen : slots.length = 2 ^ bits
  cap : fi.hashCap = 2 ^ bits
  mask : fi.mask = 2 ^ bits - 1
  slotsOf : ∀ x ∈ slots, x = 0 ∨ ∃ i, ∃ (hi : i < entries.length) (ho : i < offs.length),
    x = slotWord (hashOf entries[i].key) offs[i]
  reaches : ∀ i (hi : i < entries.length) (ho : i < offs.length),
    Reaches 0 slots (hashOf entries[i].key % 2 ^ bits) (slotWord (hashOf entries[i].key) offs[i])
  fence : fi.fenceN = 0 ∨ 0 < fi.fenceStride ∧
    fi.fenceN = divCeil entries.length fi.fenceStride ∧
      ∀ i < fi.fenceN, ∃ hi : i * fi.fenceStride < entries.length,
        fi.fenceKey sec i = some entries[i * fi.fenceStride].key

namespace FlatView

variable {base : ℕ} {fi : FlatIndex} {sec : Bytes} {entries : List FlatEntry}
  {hashOf : Bytes → ℕ}

lemma readWord_dir (v : FlatView base fi sec entries hashOf) (r : ℕ) :
    readWord 4 (v.offs.flatMap (leBytes 4)) (r * 4) = v.offs[r]? :=
  readWord_flatMap (by norm_num) v.offs (fun o ho => lt_of_lt_of_le (v.offsFit o ho) (by norm_num))
    r

/-! ## By rank -/

/-- **The record of a rank** is the entry of that rank. -/
lemma atFull (v : FlatView base fi sec entries hashOf) (r : ℕ) :
    fi.atFull base sec r = entries[r]?.map (fun e => (e.key, e.exts, e.tail)) := by
  rw [FlatIndex.atFull, v.recsRegion, v.dirRegion]
  simp only [Option.bind_eq_bind, Option.bind_some, v.nkeys]
  by_cases hr : r < entries.length
  · have ho : r < v.offs.length := by rw [v.offsLen]; exact hr
    obtain ⟨len, hparse⟩ := v.record r hr ho
    rw [if_neg (by omega), v.readWord_dir, List.getElem?_eq_getElem ho, Option.bind_some, hparse,
      List.getElem?_eq_getElem hr]
    rfl
  · rw [if_pos (by omega), List.getElem?_eq_none (by omega)]
    rfl

lemma keyAt (v : FlatView base fi sec entries hashOf) (r : ℕ) :
    fi.keyAt sec r = entries[r]?.map FlatEntry.key := by
  rw [FlatIndex.keyAt, v.nkeys]
  by_cases hr : r < entries.length
  · have ho : r < v.offs.length := by rw [v.offsLen]; exact hr
    rw [if_neg (by omega), v.recsRegion, v.dirRegion]
    simp only [Option.bind_eq_bind, Option.bind_some]
    rw [v.readWord_dir, List.getElem?_eq_getElem ho, Option.bind_some, v.recordKey r hr ho,
      List.getElem?_eq_getElem hr]
    rfl
  · rw [if_pos (by omega), List.getElem?_eq_none (by omega)]
    rfl

/-! ## By hash -/

lemma and_mask (v : FlatView base fi sec entries hashOf) (s : ℕ) :
    s &&& fi.mask = s % v.slots.length := by
  rw [v.mask, v.slotsLen, Nat.and_two_pow_sub_one_eq_mod]

lemma slots_lt (v : FlatView base fi sec entries hashOf) : ∀ w ∈ v.slots, w < 256 ^ 8 := by
  intro w hw
  rcases v.slotsOf w hw with rfl | ⟨i, hi, ho, rfl⟩
  · norm_num
  · have := slotWord_lt (h := hashOf entries[i].key)
      (lt_of_lt_of_le (v.offsFit _ (List.getElem_mem ho)) (by norm_num : 2 ^ 32 ≤ 2 ^ 56))
    omega

/-- The probe over the region's bytes is the probe over its slots. -/
lemma lookupLoop_eq (v : FlatView base fi sec entries hashOf) (key : Bytes) (tag fuel s : ℕ) :
    fi.lookupLoop base sec (v.slots.flatMap (leBytes 8)) key tag fuel s
      = probe 0 (fi.slotRecord base sec key tag) (fun s => (s + 1) &&& fi.mask) v.slots fuel s := by
  induction fuel generalizing s with
  | zero => rfl
  | succ fuel ih =>
      rw [FlatIndex.lookupLoop, probe, SLOT, readWord_flatMap (by norm_num) v.slots v.slots_lt]
      cases v.slots[s]? with
      | none => rfl
      | some x =>
          simp only [Option.bind_eq_bind, Option.bind_some]
          split_ifs with hx
          · rfl
          · cases fi.slotRecord base sec key tag x with
            | some r => rfl
            | none => exact ih _

/-- A slot answers for its own key and no other. -/
lemma slotRecord_slotWord (v : FlatView base fi sec entries hashOf) (key : Bytes) (i : ℕ)
    (hi : i < entries.length) (ho : i < v.offs.length) :
    fi.slotRecord base sec key (tagOf (hashOf key)) (slotWord (hashOf entries[i].key) v.offs[i])
      = if entries[i].key = key then some (entries[i].exts, entries[i].tail) else none := by
  have hoff : v.offs[i] < 2 ^ 56 :=
    lt_of_lt_of_le (v.offsFit _ (List.getElem_mem ho)) (by norm_num)
  obtain ⟨len, hparse⟩ := v.record i hi ho
  rw [FlatIndex.slotRecord, slotWord_tag hoff, slotWord_off hoff, FlatIndex.recordFull,
    v.recsRegion]
  simp only [Option.bind_eq_bind, Option.bind_some, hparse, Option.map_some]
  by_cases hkey : entries[i].key = key
  · rw [if_pos (by rw [hkey]), if_pos hkey]
  · rw [if_neg hkey]
    split_ifs <;> rfl

/-- **A key's extents and tail**, and nothing for a key that is not listed. -/
lemma lookupFull (v : FlatView base fi sec entries hashOf)
    (hsorted : (entries.map FlatEntry.key).Pairwise (· < ·)) (q : Bytes) :
    fi.lookupFull base sec q hashOf
      = (entries.find? (fun e => e.key = q)).map (fun e => (e.exts, e.tail)) := by
  rw [FlatIndex.lookupFull, v.hashRegion]
  simp only [Option.bind_eq_bind, Option.bind_some]
  rw [v.lookupLoop_eq, v.cap, ← v.slotsLen]
  cases hfind : entries.find? (fun e => e.key = q) with
  | none =>
      have hnot : ∀ e ∈ entries, e.key ≠ q := by
        intro e he
        simpa using List.find?_eq_none.mp hfind e he
      refine probe_eq_none _ _ ?_
      intro x hx hx0
      rcases v.slotsOf x hx with rfl | ⟨i, hi, ho, rfl⟩
      · exact absurd rfl hx0
      · rw [v.slotRecord_slotWord q i hi ho, if_neg (hnot _ (List.getElem_mem hi))]
  | some e =>
      obtain ⟨i, hi, hget⟩ := List.mem_iff_getElem.mp (List.mem_of_find?_eq_some hfind)
      have hq : entries[i].key = q := by
        rw [hget]
        simpa using List.find?_some hfind
      have ho : i < v.offs.length := by rw [v.offsLen]; exact hi
      have hoff : v.offs[i] < 2 ^ 56 :=
        lt_of_lt_of_le (v.offsFit _ (List.getElem_mem ho)) (by norm_num)
      have hpos : 0 < v.slots.length := by rw [v.slotsLen]; exact Nat.two_pow_pos _
      have hnext : ∀ s, (fun s => (s + 1) &&& fi.mask) s = (s + 1) % v.slots.length :=
        fun s => v.and_mask (s + 1)
      have hreach := v.reaches i hi ho
      rw [← v.slotsLen] at hreach
      rw [v.and_mask, ← hq]
      refine probe_eq_some hnext (Nat.mod_lt _ hpos) hreach (slotWord_ne_zero hoff) ?_ ?_
      · rw [v.slotRecord_slotWord entries[i].key i hi ho, if_pos rfl, hget]
      · -- another slot's record has another key, the keys being distinct
        intro x hx hx0 hne
        rcases v.slotsOf x hx with rfl | ⟨j, hj, hoj, rfl⟩
        · exact absurd rfl hx0
        · rw [v.slotRecord_slotWord entries[i].key j hj hoj, if_neg]
          intro hkj
          have hij : i = j := by
            have hnodup : (entries.map FlatEntry.key).Nodup := hsorted.imp (fun h => h.ne)
            have hi' : i < (entries.map FlatEntry.key).length := by simpa using hi
            have hj' : j < (entries.map FlatEntry.key).length := by simpa using hj
            have hkeys : (entries.map FlatEntry.key)[i] = (entries.map FlatEntry.key)[j] := by
              rw [List.getElem_map, List.getElem_map, hkj]
            exact (List.Nodup.getElem_inj_iff hnodup).mp hkeys
          subst hij
          exact hne rfl

/-! ## By order -/

/-- The number of keys below `q`. -/
def below (entries : List FlatEntry) (q : Bytes) : ℕ :=
  ((entries.map FlatEntry.key).filter (· < q)).length

lemma below_le (q : Bytes) : below entries q ≤ entries.length := by
  have := List.length_filter_le (fun k => decide (k < q)) (entries.map FlatEntry.key)
  rwa [List.length_map] at this

lemma isLess_iff (hsorted : (entries.map FlatEntry.key).Pairwise (· < ·)) (q : Bytes) (i : ℕ)
    (hi : i < entries.length) :
    FlatIndex.isLess (some entries[i].key) q = true ↔ i < below entries q := by
  have hlt := lt_iff_lt_length_filter hsorted (q := q) (p := fun k => decide (k < q))
    (fun k => decide_eq_true_iff) i (by simpa using hi)
  rw [List.getElem_map] at hlt
  rw [FlatIndex.isLess, decide_eq_true_iff]
  exact hlt

/-- The halving over the records finds the rank, in any range that holds it. -/
lemma search (v : FlatView base fi sec entries hashOf)
    (hsorted : (entries.map FlatEntry.key).Pairwise (· < ·)) (q : Bytes) {lo hi : ℕ}
    (hlo : lo ≤ below entries q) (hhi : below entries q ≤ hi) (hn : hi ≤ entries.length) :
    fi.search sec q lo hi = below entries q := by
  refine partitionPoint_eq hlo hhi ?_
  intro i _ hi'
  rw [v.keyAt, List.getElem?_eq_getElem (by omega), Option.map_some]
  exact isLess_iff hsorted q i (by omega)

/-- The window the fence narrows to holds the rank. -/
lemma fenceWindow (v : FlatView base fi sec entries hashOf)
    (hsorted : (entries.map FlatEntry.key).Pairwise (· < ·)) (q : Bytes) (hf : 0 < fi.fenceN) :
    (fi.fenceWindow sec q).1 ≤ below entries q ∧ below entries q ≤ (fi.fenceWindow sec q).2 ∧
      (fi.fenceWindow sec q).2 ≤ entries.length := by
  rcases v.fence with h0 | ⟨hstride, hn, hkeys⟩
  · omega
  set stride := fi.fenceStride with hs
  set t := below entries q with ht
  have htn : t ≤ entries.length := below_le q
  have hceil : ∀ i, i < divCeil t stride ↔ i * stride < t := by
    intro i
    rw [divCeil, Nat.lt_iff_add_one_le, Nat.le_div_iff_mul_le hstride, Nat.add_mul]
    omega
  -- the fence entries below the key are those that sample a rank below the answer
  have hlo : partitionPoint (fun mid => FlatIndex.isLess (fi.fenceKey sec mid) q) 0 fi.fenceN
      = divCeil t stride := by
    refine partitionPoint_eq (Nat.zero_le _) ?_ ?_
    · rw [hn]
      exact Nat.div_le_div_right (by omega)
    · intro i _ hi
      obtain ⟨hi', hkey⟩ := hkeys i hi
      rw [hkey, isLess_iff hsorted q _ hi', hceil]
  have hne : ¬ (fi.fenceN = 0 ∨ stride = 0) := by omega
  rw [FlatIndex.fenceWindow, ← hs, if_neg hne, hlo, v.nkeys]
  set lo := divCeil t stride with hlo'
  have hup : t ≤ lo * stride := by
    have := (hceil lo).not.mp (lt_irrefl _)
    omega
  have hstart : (lo - 1) * stride ≤ t := by
    rcases Nat.eq_zero_or_pos lo with h0 | hpos
    · simp [h0]
    · exact ((hceil (lo - 1)).mp (by omega)).le
  dsimp only
  refine ⟨hstart, ?_, ?_⟩
  · exact le_max_of_le_left (le_min hup htn)
  · exact max_le (min_le_right _ _) (hstart.trans htn)

/-- **The rank of the first key not below `q`**, by way of the fence or not. -/
lemma seekWith (v : FlatView base fi sec entries hashOf)
    (hsorted : (entries.map FlatEntry.key).Pairwise (· < ·)) (q : Bytes) (fence : Bool) :
    fi.seekWith sec q fence = below entries q := by
  have hall : fi.search sec q 0 fi.nkeys = below entries q := by
    rw [v.nkeys]
    exact v.search hsorted q (Nat.zero_le _) (below_le q) (le_refl _)
  rw [FlatIndex.seekWith]
  split_ifs with hf
  · obtain ⟨h1, h2, h3⟩ := v.fenceWindow hsorted q hf.2
    have hwindow := v.search hsorted q h1 h2 h3
    dsimp only
    split_ifs
    · exact hwindow
    · exact hall
  · exact hall

end FlatView

end Supdb
