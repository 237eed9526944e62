import Supdb.FlatLookup

/-!
# What the trailer writes

`streamTrailer` over records streamed in key order lays out a section that `FlatIndex.parse` accepts
and that holds the records' entries.

* **The hash table** – `hashCapFor` leaves an empty slot, so every placement ends, and the lookahead
  fill places what the plain one does.
* **The fence** – entry `i` is the key of rank `i * stride`.
* **The header** – every word is read back, and the regions it names lie apart.
-/

namespace Supdb

open StorageLib Flatindex

/-! ## The hash table -/

lemma doubleTo_spec {want : ℕ} (hwant : want ≤ 2 ^ 33) (m k : ℕ) (hm : k + m = 33) :
    ∃ j, k ≤ j ∧ j ≤ 33 ∧ doubleTo want k = some (2 ^ j) ∧ want ≤ 2 ^ j := by
  induction m generalizing k with
  | zero =>
      have hk : k = 33 := by omega
      refine ⟨k, le_refl _, by omega, ?_, by rw [hk]; exact hwant⟩
      rw [doubleTo, if_neg (by rw [hk]; omega)]
  | succ m ih =>
      rw [doubleTo]
      split_ifs with h1 h2
      · have hlt : 2 ^ k * 2 < 2 ^ 64 := by
          rw [← pow_succ]
          exact Nat.pow_lt_pow_right (by norm_num) (by omega)
        omega
      · obtain ⟨j, hj, hj33, hd, hle⟩ := ih (k + 1) (by omega)
        exact ⟨j, by omega, hj33, hd, hle⟩
      · exact ⟨k, le_refl _, by omega, rfl, by omega⟩

/-- The table is a power of two and has more slots than keys. -/
lemma hashCapFor_spec {n : ℕ} (hn : n < 2 ^ 32) :
    ∃ k, hashCapFor n = some (2 ^ k) ∧ k ≤ 33 ∧ n < 2 ^ k := by
  have hwant : divCeil (n * HASH_LOAD_DEN) HASH_LOAD_NUM ≤ 2 ^ 33 := by
    simp only [divCeil, HASH_LOAD_DEN, HASH_LOAD_NUM]
    omega
  obtain ⟨j, -, hj, hd, hle⟩ := doubleTo_spec hwant 33 0 rfl
  have hn' : n ≤ 2 ^ j ∧ (0 < n → n < 2 ^ j) := by
    simp only [divCeil, HASH_LOAD_DEN, HASH_LOAD_NUM] at hle
    omega
  have hover : ¬ 2 ^ 64 ≤ n * HASH_LOAD_DEN := by
    simp only [HASH_LOAD_DEN]
    omega
  have h16 : (16 : ℕ) = 2 ^ 4 := by norm_num
  have hmax : max (2 ^ j) 16 = 2 ^ max j 4 := by
    rw [h16]
    rcases le_total j 4 with h | h
    · rw [max_eq_right h, max_eq_right (Nat.pow_le_pow_right (by norm_num) h)]
    · rw [max_eq_left h, max_eq_left (Nat.pow_le_pow_right (by norm_num) h)]
  refine ⟨max j 4, ?_, by omega, ?_⟩
  · rw [hashCapFor, if_neg hover, hd, Option.map_some, hmax]
  · rw [← hmax]
    omega

section Fill

variable {n mask : ℕ} {keyed : ℕ → ℕ × ℕ}

/-- The plain fill, as placements from home slots. -/
lemma foldlM_placeSlot (is : List ℕ) (t : List ℕ) :
    is.foldlM (fun t i => placeSlot t mask (keyed i)) t
      = placeAll 0 (fun s => (s + 1) &&& mask)
          (is.map (fun i => ((keyed i).1 &&& mask, slotWord (keyed i).1 (keyed i).2))) t := by
  induction is generalizing t with
  | nil => rfl
  | cons i is ih =>
      rw [List.foldlM_cons, List.map_cons, placeAll, placeSlot]
      exact congrArg _ (funext ih)

/-- What the ring of a lookahead fill holds before turn `i`: the keys of the next turns. -/
def RingAt (n : ℕ) (keyed : ℕ → ℕ × ℕ) (i : ℕ) (ring : List (ℕ × ℕ)) : Prop :=
  ring.length = FILL_AHEAD ∧
    ∀ k, i ≤ k → k < i + FILL_AHEAD → k < n → ring.getD (k % FILL_AHEAD) (0, 0) = keyed k

lemma ringAt_step {i : ℕ} {ring : List (ℕ × ℕ)} (h : RingAt n keyed i ring) :
    RingAt n keyed (i + 1) (if i + FILL_AHEAD < n
      then ring.set (i % FILL_AHEAD) (keyed (i + FILL_AHEAD)) else ring) := by
  obtain ⟨hlen, hring⟩ := h
  have hslot : i % FILL_AHEAD < ring.length := by rw [hlen]; exact Nat.mod_lt _ (by decide)
  split_ifs with hin
  · refine ⟨by rw [List.length_set, hlen], ?_⟩
    intro k hk1 hk2 hkn
    by_cases hlast : k = i + FILL_AHEAD
    · rw [hlast, Nat.add_mod_right, List.getD_eq_getElem?_getD, List.getElem?_set_self hslot]
      rfl
    · -- the key's slot is not the one overwritten
      have hne : i % FILL_AHEAD ≠ k % FILL_AHEAD := by
        simp only [FILL_AHEAD] at *
        omega
      rw [List.getD_eq_getElem?_getD, List.getElem?_set_ne hne, ← List.getD_eq_getElem?_getD]
      exact hring k (by omega) (by omega) hkn
  · exact ⟨hlen, fun k hk1 hk2 hkn => hring k (by omega) (by omega) hkn⟩

/-- The lookahead fill places what the plain one does. -/
lemma foldlM_fillAhead (m i : ℕ) (him : i + m = n) (t : List ℕ) {ring : List (ℕ × ℕ)}
    (hring : RingAt n keyed i ring) :
    ((List.range' i m).foldlM (fillAhead mask n keyed) (t, ring)).map Prod.fst
      = (List.range' i m).foldlM (fun t i => placeSlot t mask (keyed i)) t := by
  induction m generalizing i t ring with
  | zero => rfl
  | succ m ih =>
      have hitem : ring.getD (i % FILL_AHEAD) (0, 0) = keyed i :=
        hring.2 i (le_refl _) (by simp [FILL_AHEAD]) (by omega)
      rw [List.range'_succ, List.foldlM_cons, List.foldlM_cons, fillAhead]
      simp only [hitem]
      cases placeSlot t mask (keyed i) with
      | none => rfl
      | some t' => exact ih (i + 1) (by omega) t' (ringAt_step hring)

lemma fillHash_lookahead (cap : ℕ) (lookahead : Bool) :
    fillHash cap mask n keyed lookahead = fillHash cap mask n keyed false := by
  cases lookahead with
  | false => rfl
  | true =>
      have hring : RingAt n keyed 0
          ((List.range FILL_AHEAD).map (fun i => if i < n then keyed i else (0, 0))) := by
        refine ⟨by simp, ?_⟩
        intro k _ hk hkn
        rw [zero_add] at hk
        rw [Nat.mod_eq_of_lt hk, List.getD_eq_getElem?_getD, List.getElem?_map,
          List.getElem?_range hk, Option.map_some, if_pos hkn]
        rfl
      have hrange : List.range n = List.range' 0 n := List.range_eq_range'
      rw [fillHash, fillHash, if_pos rfl, if_neg (by simp), hrange]
      exact foldlM_fillAhead n 0 (zero_add n) (List.replicate cap 0) hring

/-- **The filled table**: every fill ends, with each key's word reached from its home and nothing
else in the table. -/
lemma fillHash_spec {k : ℕ} (hn : n < 2 ^ k) (hoff : ∀ i < n, (keyed i).2 < 2 ^ 56)
    (lookahead : Bool) :
    ∃ slots, fillHash (2 ^ k) (2 ^ k - 1) n keyed lookahead = some slots ∧
      slots.length = 2 ^ k ∧
      (∀ x ∈ slots, x = 0 ∨ ∃ i < n, x = slotWord (keyed i).1 (keyed i).2) ∧
      ∀ i < n, Reaches 0 slots ((keyed i).1 % 2 ^ k) (slotWord (keyed i).1 (keyed i).2) := by
  set items := (List.range n).map
    (fun i => ((keyed i).1 &&& (2 ^ k - 1), slotWord (keyed i).1 (keyed i).2)) with hitems
  have hmem : ∀ x ∈ items, ∃ i < n,
      x = ((keyed i).1 &&& (2 ^ k - 1), slotWord (keyed i).1 (keyed i).2) := by
    intro x hx
    obtain ⟨i, hi, rfl⟩ := List.mem_map.mp hx
    exact ⟨i, List.mem_range.mp hi, rfl⟩
  have hlen : (List.replicate (2 ^ k) (0 : ℕ)).length = 2 ^ k := List.length_replicate
  have hnext : ∀ s, (fun s => (s + 1) &&& (2 ^ k - 1)) s
      = (s + 1) % (List.replicate (2 ^ k) (0 : ℕ)).length := by
    intro s
    rw [hlen]
    exact Nat.and_two_pow_sub_one_eq_mod _ _
  obtain ⟨slots, hall, hslen, hsub, hreach, -⟩ :=
    placeAll_spec items hnext
      (by
        intro x hx
        obtain ⟨i, hi, rfl⟩ := hmem x hx
        rw [hlen, Nat.and_two_pow_sub_one_eq_mod]
        exact Nat.mod_lt _ (Nat.two_pow_pos _))
      (by
        intro x hx
        obtain ⟨i, hi, rfl⟩ := hmem x hx
        exact slotWord_ne_zero (hoff i hi))
      (by simpa [hitems] using hn)
  refine ⟨slots, ?_, by rw [hslen, hlen], ?_, ?_⟩
  · rw [fillHash_lookahead, fillHash, if_neg (by simp), foldlM_placeSlot]
    exact hall
  · intro x hx
    rcases hsub x hx with hx | ⟨y, hy, rfl⟩
    · exact Or.inl (List.eq_of_mem_replicate hx)
    · obtain ⟨i, hi, rfl⟩ := hmem y hy
      exact Or.inr ⟨i, hi, rfl⟩
  · intro i hi
    have := hreach _ (List.mem_map_of_mem (List.mem_range.mpr hi))
    simpa only [Nat.and_two_pow_sub_one_eq_mod] using this

end Fill

/-! ## The fence -/

section Fence

variable {keyAt : ℕ → Bytes} {stride : ℕ}

/-- The sampled keys laid end to end. -/
def fenceBlob (keyAt : ℕ → Bytes) (stride m : ℕ) : Bytes :=
  (List.range m).flatMap (fun i => keyAt (i * stride))

/-- Where each sample starts, and behind them where the last one ends. -/
def fenceStarts (keyAt : ℕ → Bytes) (stride m : ℕ) : List ℕ :=
  (List.range (m + 1)).map (fun i => (fenceBlob keyAt stride i).length)

lemma fenceBlob_succ (m : ℕ) :
    fenceBlob keyAt stride (m + 1) = fenceBlob keyAt stride m ++ keyAt (m * stride) := by
  rw [fenceBlob, fenceBlob, List.range_succ, List.flatMap_append, List.flatMap_singleton]

lemma fenceFill_eq (m : ℕ) :
    fenceFill keyAt stride m
      = (((List.range m).map (fun i => (fenceBlob keyAt stride i).length)).flatMap (leBytes 4),
          fenceBlob keyAt stride m) := by
  induction m with
  | zero => rfl
  | succ m ih =>
      rw [fenceFill] at ih ⊢
      rw [List.range_succ, List.foldl_append, ih, fenceBlob_succ]
      simp only [List.foldl_cons, List.foldl_nil, List.map_append, List.flatMap_append,
        List.map_singleton, List.flatMap_singleton]

/-- The region is the starts and the samples. -/
lemma fenceRegion_eq {m : ℕ} (hm : 0 < m) :
    fenceRegion keyAt stride m
      = (fenceStarts keyAt stride m).flatMap (leBytes 4) ++ fenceBlob keyAt stride m := by
  rw [fenceRegion, if_pos hm, fenceFill_eq]
  dsimp only
  rw [fenceStarts, List.range_succ, List.map_append, List.flatMap_append, List.map_singleton,
    List.flatMap_singleton, List.append_assoc]

lemma length_fenceStarts (m : ℕ) : (fenceStarts keyAt stride m).length = m + 1 := by
  rw [fenceStarts, List.length_map, List.length_range]

lemma getElem?_fenceStarts {m i : ℕ} (hi : i ≤ m) :
    (fenceStarts keyAt stride m)[i]? = some (fenceBlob keyAt stride i).length := by
  rw [fenceStarts, List.getElem?_map, List.getElem?_range (by omega)]
  rfl

/-- A sample is the piece of the blob its two starts cut out. -/
lemma getRange_fenceBlob {m i : ℕ} (hi : i < m) :
    getRange (fenceBlob keyAt stride m) (fenceBlob keyAt stride i).length
      (fenceBlob keyAt stride (i + 1)).length = some (keyAt (i * stride)) := by
  induction m with
  | zero => omega
  | succ m ih =>
      rw [fenceBlob_succ m]
      rcases Nat.lt_succ_iff_lt_or_eq.mp hi with hlt | rfl
      · exact getRange_append (ih hlt)
      · have hlen : (fenceBlob keyAt stride (i + 1)).length
            = (fenceBlob keyAt stride i).length + (keyAt (i * stride)).length := by
          rw [fenceBlob_succ, List.length_append]
        have hmid : getRange (fenceBlob keyAt stride i ++ (keyAt (i * stride) ++ []))
            (fenceBlob keyAt stride i).length (fenceBlob keyAt stride (i + 1)).length
              = some (keyAt (i * stride)) := getRange_append_mid rfl hlen
        rwa [List.append_nil] at hmid

end Fence

/-! ## The records -/

/-- A record that parses gives its key to the reader of keys alone. -/
lemma recordKey_of_parseRecord {base off : ℕ} {buf : Bytes} {r : ParsedRecord}
    (h : parseRecord base buf off = some r) : FlatIndex.recordKey buf off = some r.1 := by
  simp only [parseRecord, Option.bind_eq_bind, Option.bind_eq_some_iff] at h
  obtain ⟨klen, hklen, header, hheader, key, hkey, rest, -, ⟨exts, tail, used⟩, htail, hr⟩ := h
  obtain ⟨h1, h2, h3⟩ := getRange_eq_some.mp hheader
  have hn : readWord 2 buf (off + 2) = some (leNat (slice header 2 4)) := by
    have hslice : slice buf (off + 2) (off + 4) = slice header 2 4 := by
      rw [← h3, slice_slice _ _ _ _ _ (by omega)]
    rw [readWord, getRange_eq_some.mpr ⟨by omega, by omega, hslice⟩, Option.map_some]
  have hcompact : ¬ (leNat (slice header 2 4) &&& COMPACT ≠ 0 ∧
      leNat (slice header 2 4) ≠ COMPACT) := by
    rintro ⟨hbit, hne⟩
    simp only [parseRecordTail, if_pos hbit, if_pos hne] at htail
    exact absurd htail (by simp)
  rw [Option.some.injEq] at hr
  rw [FlatIndex.recordKey, hklen, hn]
  simp only [Option.bind_eq_bind, Option.bind_some]
  rw [if_neg hcompact, hkey, ← hr]

section Records

variable (compact : Bool)

/-- The records of the entries, end to end. -/
def recordsOf (entries : List FlatEntry) : Bytes :=
  entries.flatMap (fun e => recordBytes e.key e.exts e.tail compact)

/-- Where each entry's record starts. -/
def recOffsOf (entries : List FlatEntry) : List ℕ :=
  (List.range entries.length).map (fun i => (recordsOf compact (entries.take i)).length)

lemma recordsOf_append (es fs : List FlatEntry) :
    recordsOf compact (es ++ fs) = recordsOf compact es ++ recordsOf compact fs :=
  List.flatMap_append

lemma recordsOf_cons (e : FlatEntry) (es : List FlatEntry) :
    recordsOf compact (e :: es) = recordBytes e.key e.exts e.tail compact ++ recordsOf compact es :=
  List.flatMap_cons

lemma dvd_length_recordsOf (entries : List FlatEntry) :
    4 ∣ (recordsOf compact entries).length := by
  induction entries with
  | nil => simp [recordsOf]
  | cons e es ih =>
      rw [recordsOf_cons, List.length_append]
      exact dvd_add (dvd_length_recordBytes _ _ _ _) ih

/-- The records around one of them. -/
lemma recordsOf_split {entries : List FlatEntry} {i : ℕ} (hi : i < entries.length) :
    recordsOf compact entries = recordsOf compact (entries.take i) ++
      (recordBytes entries[i].key entries[i].exts entries[i].tail compact ++
        recordsOf compact (entries.drop (i + 1))) := by
  conv_lhs => rw [← List.take_append_drop i entries, List.drop_eq_getElem_cons hi]
  rw [recordsOf_append, recordsOf_cons]

lemma length_recordsOf_take_le (entries : List FlatEntry) {i j : ℕ} (h : i ≤ j) :
    (recordsOf compact (entries.take i)).length ≤ (recordsOf compact (entries.take j)).length := by
  have hsplit := List.take_append_drop i (entries.take j)
  rw [List.take_take, min_eq_left h] at hsplit
  rw [← hsplit, recordsOf_append, List.length_append]
  omega

lemma length_recordBytes_ge (key : Bytes) (exts : List Ext) (tail : Bytes) :
    4 + key.length ≤ (recordBytes key exts tail compact).length := by
  have := le_alignUp (4 + key.length) (by norm_num [REC_ALIGN] : 0 < REC_ALIGN)
  rw [length_recordBytes, recordTailAt]
  omega

/-- Four bytes of records at least for every key, and the key's own. -/
lemma length_recordsOf_succ (entries : List FlatEntry) {i : ℕ} (hi : i < entries.length) :
    (recordsOf compact (entries.take i)).length + (4 + entries[i].key.length)
      ≤ (recordsOf compact (entries.take (i + 1))).length := by
  have := length_recordBytes_ge compact entries[i].key entries[i].exts entries[i].tail
  rw [List.take_succ_eq_append_getElem hi, recordsOf_append, recordsOf_cons, List.length_append,
    List.length_append]
  omega

lemma length_le_recordsOf (entries : List FlatEntry) :
    4 * entries.length ≤ (recordsOf compact entries).length := by
  induction entries with
  | nil => simp
  | cons e es ih =>
      have := length_recordBytes_ge compact e.key e.exts e.tail
      rw [recordsOf_cons, List.length_append, List.length_cons]
      omega

/-- The sampled keys take no more room than the records they are of. -/
lemma length_fenceBlob_le (entries : List FlatEntry) {stride : ℕ} (hstride : 0 < stride) (m : ℕ) :
    (fenceBlob (fun i => (entries[i]?.map FlatEntry.key).getD []) stride m).length
      ≤ (recordsOf compact (entries.take (m * stride))).length := by
  induction m with
  | zero => simp [fenceBlob]
  | succ m ih =>
      rw [fenceBlob_succ, List.length_append]
      have hmono := length_recordsOf_take_le compact entries
        (by rw [Nat.add_mul]; omega : m * stride + 1 ≤ (m + 1) * stride)
      by_cases hm : m * stride < entries.length
      · have := length_recordsOf_succ compact entries hm
        rw [List.getElem?_eq_getElem hm, Option.map_some, Option.getD_some]
        omega
      · have := length_recordsOf_take_le compact entries (Nat.le_succ (m * stride))
        rw [List.getElem?_eq_none (by omega)]
        simp only [Option.map_none, Option.getD_none, List.length_nil, Nat.succ_eq_add_one] at *
        omega

lemma recordsOf_length_le_take (entries : List FlatEntry) (i : ℕ) :
    (recordsOf compact (entries.take i)).length ≤ (recordsOf compact entries).length := by
  have := length_recordsOf_take_le compact entries (Nat.le_add_right i entries.length)
  rwa [List.take_of_length_le (Nat.le_add_left _ _)] at this

lemma getElem_recOffsOf (entries : List FlatEntry) {i : ℕ}
    (hi : i < (recOffsOf compact entries).length) :
    (recOffsOf compact entries)[i] = (recordsOf compact (entries.take i)).length := by
  simp [recOffsOf]

/-- Every record is parsed where its entry's offset says. -/
lemma parseRecord_recordsOf {entries : List FlatEntry} {base i : ℕ}
    (hok : ∀ e ∈ entries, RecordOk e.key e.exts e.tail) (hbase : 4 ∣ base)
    (hi : i < entries.length) :
    ∃ len, parseRecord base (recordsOf compact entries)
        (recordsOf compact (entries.take i)).length
      = some (entries[i].key, entries[i].exts, entries[i].tail, len) := by
  refine ⟨(recordBytes entries[i].key entries[i].exts entries[i].tail compact).length, ?_⟩
  rw [recordsOf_split compact hi]
  exact parseRecord_recordBytes rfl (hok _ (List.getElem_mem hi))
    (dvd_add hbase (dvd_length_recordsOf compact _))

end Records

/-! ## The header -/

lemma readWord_append_right {n : ℕ} {pre buf : Bytes} {p : ℕ} :
    readWord n (pre ++ buf) (pre.length + p) = readWord n buf p := by
  rw [readWord, readWord, Nat.add_assoc, getRange_append_right]

/-- Every word of a header is read back. -/
lemma readWord_headerBytes {words : List ℕ} {rest : Bytes} (hws : ∀ w ∈ words, w < 2 ^ 64) {i : ℕ}
    (hi : i < words.length) : readWord 8 (headerBytes words ++ rest) (8 + i * 8)
    = some words[i] := by
  have h8 : (leBytes 4 MAGIC ++ leBytes 4 VERSION).length = 8 := by simp
  have hsplit : headerBytes words ++ rest = (leBytes 4 MAGIC ++ leBytes 4 VERSION) ++
      (words.flatMap (leBytes 8) ++ (List.replicate (HEADER - (8 + words.length * 8)) 0 ++ rest)) :=
      by
    simp only [headerBytes, List.append_assoc]
  have hword := readWord_flatMap (by norm_num : 0 < 8) words
    (fun w hw => lt_of_lt_of_le (hws w hw) (by norm_num)) i
  rw [List.getElem?_eq_getElem hi] at hword
  have hshift : 8 + i * 8 = (leBytes 4 MAGIC ++ leBytes 4 VERSION).length + i * 8 := by rw [h8]
  rw [hsplit, hshift, readWord_append_right]
  exact readWord_append hword

lemma isFlat_headerBytes (words : List ℕ) (rest : Bytes) :
    isFlat (headerBytes words ++ rest) = true := by
  have h1 : readWord 4 (headerBytes words ++ rest) 0 = some MAGIC := by
    have : headerBytes words ++ rest = [] ++ (leBytes 4 MAGIC ++ (leBytes 4 VERSION ++
        (words.flatMap (leBytes 8) ++
          (List.replicate (HEADER - (8 + words.length * 8)) 0 ++ rest)))) := by
      simp only [headerBytes, List.append_assoc, List.nil_append]
    rw [this]
    exact readWord_append_mid rfl (by norm_num [MAGIC])
  have h2 : readWord 4 (headerBytes words ++ rest) 4 = some VERSION := by
    have : headerBytes words ++ rest = leBytes 4 MAGIC ++ (leBytes 4 VERSION ++
        (words.flatMap (leBytes 8) ++
          (List.replicate (HEADER - (8 + words.length * 8)) 0 ++ rest))) := by
      simp only [headerBytes, List.append_assoc]
    rw [this]
    exact readWord_append_mid (by simp) (by norm_num [VERSION])
  rw [isFlat, h1, h2]
  simp

/-- The header's words with its checksum row named; a header without one names zeros. -/
def sectionWords (generation n recsOff recsLen : ℕ) (t : Trailer) (crcOff shift : ℕ) : List ℕ :=
  headerWords generation n recsOff recsLen t ++ [crcOff, shift]

lemma headerBytes_headerWords (generation n recsOff recsLen : ℕ) (t : Trailer) :
    headerBytes (headerWords generation n recsOff recsLen t)
      = headerBytes (sectionWords generation n recsOff recsLen t 0 0) := by
  have hz : leBytes 8 0 = List.replicate 8 0 := by decide
  have hlen : (headerWords generation n recsOff recsLen t).length = 19 := rfl
  have hpad : List.replicate (HEADER - (8 + 19 * 8)) (0 : UInt8)
      = List.replicate 8 0 ++ (List.replicate 8 0 ++ List.replicate (HEADER - (8 + 21 * 8)) 0) := by
    rw [List.replicate_append_replicate, List.replicate_append_replicate]
    rfl
  rw [headerBytes, headerBytes, sectionWords, List.flatMap_append, List.length_append, hlen, hpad]
  simp only [List.flatMap_cons, List.flatMap_nil, hz, List.append_nil, List.append_assoc]
  rfl

/-- Two regions that share no byte, in either order. -/
def Apart (a b : ℕ × ℕ) : Prop := a.2 ≤ b.1 ∨ b.2 ≤ a.1

/-- What makes a header's words those of a section: regions behind the header, inside the section
and apart, the table a power of two with room for the keys. -/
structure SectionOk (sec : Bytes) (n recsOff recsLen : ℕ) (t : Trailer)
    (blobLen crcOff shift : ℕ) : Prop where
  small : sec.length < 2 ^ 63
  cap : ∃ k, t.cap = 2 ^ k
  keys : n ≤ t.cap
  stride : 0 < t.stride
  strideFits : t.stride < 2 ^ 64
  fenceN : t.fenceN = divCeil n t.stride
  fenceOff : t.fenceOffsOff ≤ sec.length
  hash : HEADER ≤ t.hashOff ∧ t.hashOff + t.cap * SLOT ≤ sec.length
  dir : HEADER ≤ t.dirOff ∧ t.dirOff + n * 4 ≤ sec.length
  recs : HEADER ≤ recsOff ∧ recsOff + recsLen ≤ sec.length
  hashDir : Apart (t.hashOff, t.hashOff + t.cap * SLOT) (t.dirOff, t.dirOff + n * 4)
  hashRecs : Apart (t.hashOff, t.hashOff + t.cap * SLOT) (recsOff, recsOff + recsLen)
  dirRecs : Apart (t.dirOff, t.dirOff + n * 4) (recsOff, recsOff + recsLen)
  fence : 0 < n → HEADER ≤ t.fenceOffsOff ∧
    t.fenceOffsOff + (t.fenceN + 1) * 4 + blobLen ≤ sec.length ∧
      ∀ r ∈ [(t.hashOff, t.hashOff + t.cap * SLOT), (t.dirOff, t.dirOff + n * 4),
        (recsOff, recsOff + recsLen)],
        Apart (t.fenceOffsOff, t.fenceOffsOff + (t.fenceN + 1) * 4 + blobLen) r
  blob : 0 < n →
    readWord 4 (slice sec t.fenceOffsOff (t.fenceOffsOff + (t.fenceN + 1) * 4)) (t.fenceN * 4)
      = some blobLen
  crc : crcOff = 0 ∧ shift = 0 ∨ HEADER ≤ crcOff ∧ crcOff ≤ sec.length ∧ shift = PIECE_SHIFT

/-- The index a header stands for. -/
def indexOf (generation n recsOff recsLen : ℕ) (t : Trailer) (blobLen crcOff shift : ℕ) :
    FlatIndex :=
  let offsEnd := t.fenceOffsOff + (t.fenceN + 1) * 4
  { hash := (t.hashOff, t.hashOff + t.cap * SLOT), dir := (t.dirOff, t.dirOff + n * 4), dirCap := 0
    dirBase := t.dirOff, recs := (recsOff, recsOff + recsLen), hashCap := t.cap, mask := t.cap - 1
    nkeys := n, meanRecordLen := max (recsLen / max n 1) 1, recsOff := recsOff, recsCap := recsLen
    bump := recsLen, fenceOffs := if 0 < n then (t.fenceOffsOff, offsEnd) else (0, 0)
    fenceBlob := if 0 < n then (offsEnd, offsEnd + blobLen) else (0, 0)
    fenceN := if 0 < n then t.fenceN else 0, fenceStride := if 0 < n then t.stride else 0
    generation := generation, prev := none, crcOff := crcOff, pieceShift := shift }

lemma divCeil_pos {n m : ℕ} (hn : 0 < n) (hm : 0 < m) : 0 < divCeil n m :=
  Nat.div_pos (by omega) hm

lemma divCeil_le (n : ℕ) {m : ℕ} (hm : 0 < m) : divCeil n m ≤ n := by
  rw [divCeil]
  rcases Nat.eq_zero_or_pos n with rfl | hn
  · rw [Nat.div_eq_of_lt (by omega)]
  · rw [Nat.div_le_iff_le_mul_add_pred hm]
    have : n ≤ m * n := Nat.le_mul_of_pos_left n hm
    omega

lemma not_overlaps {a b : ℕ × ℕ} (h : Apart a b) : ¬ FlatIndex.overlaps a b = true := by
  simp only [FlatIndex.overlaps, decide_eq_true_eq]
  rcases h with h | h <;> omega

/-- The fence of a section checks out where there is a key to sample. -/
lemma parseFence_eq {sec : Bytes} {n recsOff recsLen blobLen crcOff shift : ℕ} {t : Trailer}
    (h : SectionOk sec n recsOff recsLen t blobLen crcOff shift) :
    (FlatIndex.parseFence sec n t.fenceOffsOff t.fenceN t.stride
        [(t.hashOff, t.hashOff + t.cap * SLOT), (t.dirOff, t.dirOff + n * 4),
          (recsOff, recsOff + recsLen)]).getD ((0, 0), (0, 0), 0, 0)
      = let fi := indexOf 0 n recsOff recsLen t blobLen crcOff shift
        (fi.fenceOffs, fi.fenceBlob, fi.fenceN, fi.fenceStride) := by
  have hstride := h.stride
  have hsmall := h.small
  dsimp only [indexOf]
  rcases Nat.eq_zero_or_pos n with rfl | hn
  · have h0 : t.fenceN = 0 := by
      have := divCeil_le 0 hstride
      rw [h.fenceN]
      omega
    rw [FlatIndex.parseFence, if_pos (Or.inl h0)]
    rfl
  · have hpos : 0 < t.fenceN := by rw [h.fenceN]; exact divCeil_pos hn hstride
    have hle : t.fenceN ≤ n := by rw [h.fenceN]; exact divCeil_le n hstride
    obtain ⟨hin, hfits, hapart⟩ := h.fence hn
    set offsEnd := t.fenceOffsOff + (t.fenceN + 1) * 4 with hoffs
    have hget : getRange sec t.fenceOffsOff offsEnd = some (slice sec t.fenceOffsOff offsEnd) :=
      getRange_eq_some.mpr ⟨by omega, by omega, rfl⟩
    have hc1 : checked ((t.fenceN + 1) * 4) = some ((t.fenceN + 1) * 4) := if_pos (by omega)
    have hc2 : checked offsEnd = some offsEnd := if_pos (by omega)
    have hc3 : checked (offsEnd + blobLen) = some (offsEnd + blobLen) := if_pos (by omega)
    have hover : ¬ ([(t.hashOff, t.hashOff + t.cap * SLOT), (t.dirOff, t.dirOff + n * 4),
        (recsOff, recsOff + recsLen)].any
          (fun r => FlatIndex.overlaps (t.fenceOffsOff, offsEnd + blobLen) r)) = true := by
      rw [List.any_eq_true]
      rintro ⟨r, hr, hov⟩
      exact not_overlaps (hapart r hr) hov
    have hblob := h.blob hn
    rw [← hoffs] at hblob
    simp only [if_pos hn]
    rw [FlatIndex.parseFence, if_neg (by omega), if_neg (by simp [h.fenceN])]
    simp only [hc1, Option.bind_eq_bind, Option.bind_some, ← hoffs, hc2]
    rw [if_neg (by omega), hget]
    simp only [Option.bind_some, hblob, hc3]
    rw [if_neg (by omega), if_neg hover]
    rfl

/-- The words of a section's header are words. -/
lemma SectionOk.words {sec : Bytes} {generation n recsOff recsLen blobLen crcOff shift : ℕ}
    {t : Trailer} (h : SectionOk sec n recsOff recsLen t blobLen crcOff shift)
    (hgen : generation < 2 ^ 64) :
    ∀ w ∈ sectionWords generation n recsOff recsLen t crcOff shift, w < 2 ^ 64 := by
  have hsmall := h.small
  have hhash := h.hash
  have hdir := h.dir
  have hrecs := h.recs
  have hfence := h.fenceOff
  have hkeys := h.keys
  have hcap : t.cap ≤ t.cap * SLOT := Nat.le_mul_of_pos_right _ (by decide)
  have hfn : t.fenceN ≤ n := by rw [h.fenceN]; exact divCeil_le n h.stride
  have hstride : t.stride < 2 ^ 64 := h.strideFits
  have hcrc : crcOff < 2 ^ 64 ∧ shift < 2 ^ 64 := by
    rcases h.crc with ⟨h1, h2⟩ | ⟨-, h1, h2⟩
    · omega
    · rw [h2, PIECE_SHIFT]
      omega
  intro w hw
  simp only [sectionWords, headerWords, List.cons_append, List.nil_append, List.mem_cons,
    List.not_mem_nil, or_false] at hw
  omega

/-- The words of a section's header, each read at its place. -/
lemma readWord_section {sec rest : Bytes} {generation n recsOff recsLen blobLen crcOff shift : ℕ}
    {t : Trailer}
    (hsec : sec = headerBytes (sectionWords generation n recsOff recsLen t crcOff shift) ++ rest)
    (hgen : generation < 2 ^ 64) (h : SectionOk sec n recsOff recsLen t blobLen crcOff shift)
    {i : ℕ} (hi : i < (sectionWords generation n recsOff recsLen t crcOff shift).length) :
    readWord 8 sec (8 + i * 8)
      = some (sectionWords generation n recsOff recsLen t crcOff shift)[i] := by
  rw [hsec]
  exact readWord_headerBytes (h.words hgen) hi

/-- **A section's header parses.** -/
lemma parse_section {sec rest : Bytes} {generation n recsOff recsLen blobLen crcOff shift : ℕ}
    {t : Trailer}
    (hsec : sec = headerBytes (sectionWords generation n recsOff recsLen t crcOff shift) ++ rest)
    (hgen : generation < 2 ^ 64) (h : SectionOk sec n recsOff recsLen t blobLen crcOff shift) :
    FlatIndex.parse sec = some (indexOf generation n recsOff recsLen t blobLen crcOff shift) := by
  have hsmall := h.small
  have hhash := h.hash
  have hdir := h.dir
  have hrecs := h.recs
  have hkeys := h.keys
  have hH : HEADER = 192 := rfl
  obtain ⟨k, hk⟩ := h.cap
  have hcap : t.cap ≤ t.cap * SLOT := Nat.le_mul_of_pos_right _ (by decide)
  have hcapPos : 0 < t.cap := by rw [hk]; exact Nat.two_pow_pos k
  have hread := fun i hi => readWord_section (i := i) hsec hgen h hi
  have hl : (sectionWords generation n recsOff recsLen t crcOff shift).length = 21 := rfl
  have hflat : isFlat sec = true := by rw [hsec]; exact isFlat_headerBytes _ _
  have r0 : readWord 8 sec 8 = some generation := hread 0 (by omega)
  have r1 : readWord 8 sec 16 = some 0 := hread 1 (by omega)
  have r2 : readWord 8 sec 24 = some 0 := hread 2 (by omega)
  have r3 : readWord 8 sec 32 = some 0 := hread 3 (by omega)
  have r4 : readWord 8 sec 40 = some 0 := hread 4 (by omega)
  have r5 : readWord 8 sec 48 = some 0 := hread 5 (by omega)
  have r6 : readWord 8 sec 56 = some n := hread 6 (by omega)
  have r7 : readWord 8 sec 64 = some t.cap := hread 7 (by omega)
  have r8 : readWord 8 sec 72 = some t.hashOff := hread 8 (by omega)
  have r9 : readWord 8 sec 80 = some t.dirOff := hread 9 (by omega)
  have r10 : readWord 8 sec 88 = some recsOff := hread 10 (by omega)
  have r11 : readWord 8 sec 96 = some recsLen := hread 11 (by omega)
  have r12 : readWord 8 sec 104 = some recsLen := hread 12 (by omega)
  have r13 : readWord 8 sec 112 = some recsLen := hread 13 (by omega)
  have r14 : readWord 8 sec 120 = some t.fenceOffsOff := hread 14 (by omega)
  have r15 : readWord 8 sec 128 = some t.fenceN := hread 15 (by omega)
  have r16 : readWord 8 sec 136 = some t.stride := hread 16 (by omega)
  have r17 : readWord 8 sec 144 = some 0 := hread 17 (by omega)
  have r18 : readWord 8 sec 152 = some 0 := hread 18 (by omega)
  have r19 : readWord 8 sec W_CRC_OFF = some crcOff := hread 19 (by omega)
  have r20 : readWord 8 sec W_PIECE_SHIFT = some shift := hread 20 (by omega)
  have hpow : ¬ (t.cap = 0 ∨ ¬ t.cap.isPowerOfTwo) := by
    rintro (h0 | h0)
    · omega
    · exact h0 ⟨k, hk⟩
  have hlive : FlatIndex.liveDir t.dirOff n 0 0 = some (t.dirOff, n) := if_pos rfl
  have c1 : checked (t.cap * SLOT) = some (t.cap * SLOT) := if_pos (by omega)
  have c2 : checked (t.hashOff + t.cap * SLOT) = some (t.hashOff + t.cap * SLOT) :=
    if_pos (by omega)
  have c3 : checked (n * 4) = some (n * 4) := if_pos (by omega)
  have c4 : checked (t.dirOff + n * 4) = some (t.dirOff + n * 4) := if_pos (by omega)
  have c5 : checked (recsOff + recsLen) = some (recsOff + recsLen) := if_pos (by omega)
  have hinside : ¬ ([(t.hashOff, t.hashOff + t.cap * SLOT), (t.dirOff, t.dirOff + n * 4),
      (recsOff, recsOff + recsLen)].any
        (fun r => decide (r.1 < HEADER ∨ sec.length < r.2 ∨ r.2 < r.1))) = true := by
    simp only [List.any_cons, List.any_nil, Bool.or_false, Bool.or_eq_true, decide_eq_true_eq]
    omega
  have hapart : ¬ (FlatIndex.overlaps (t.hashOff, t.hashOff + t.cap * SLOT)
        (t.dirOff, t.dirOff + n * 4) = true ∨
      FlatIndex.overlaps (t.hashOff, t.hashOff + t.cap * SLOT) (recsOff, recsOff + recsLen) = true ∨
      FlatIndex.overlaps (t.dirOff, t.dirOff + n * 4) (recsOff, recsOff + recsLen) = true) := by
    rintro (ho | ho | ho)
    · exact not_overlaps h.hashDir ho
    · exact not_overlaps h.hashRecs ho
    · exact not_overlaps h.dirRecs ho
  have hfenceEq := parseFence_eq h
  rw [FlatIndex.parse, if_neg (by simp [hflat])]
  simp only [r0, r1, r2, r3, r4, r5, r6, r7, r8, r9, r10, r11, r12, r13, r14, r15, r16, r17, r18,
    Option.bind_eq_bind, Option.bind_some, if_neg hpow, hlive, c1, c2, c3, c4, if_true, max_self,
    min_self, c5, if_neg hinside, if_neg hapart, if_neg (Nat.not_lt.mpr hkeys), hfenceEq]
  rcases h.crc with ⟨rfl, rfl⟩ | ⟨h1, h2, rfl⟩
  · have hsums : checksumWords sec = some none := by
      rw [checksumWords, r19]
      rfl
    rw [hsums]
    rfl
  · have hsums : checksumWords sec = some (some (crcOff, PIECE_SHIFT)) := by
      rw [checksumWords, r19, r20]
      simp only [Option.bind_eq_bind, Option.bind_some]
      rw [if_neg (by omega), if_neg (by norm_num [PIECE_SHIFT])]
    rw [hsums]
    simp only [Option.bind_some]
    rw [if_neg (by omega)]
    rfl

/-! ## The section -/

lemma fenceStride_pos (target : ℕ+) (n : ℕ) : 0 < fenceStride target n := Nat.two_pow_pos _

lemma fenceStride_lt (target : ℕ+) {n : ℕ} (hn : n < 2 ^ 32) : fenceStride target n < 2 ^ 64 := by
  have hle : max (divCeil n target) FENCE_MIN_STRIDE ≤ 2 ^ 32 := by
    have := divCeil_le n target.pos
    simp only [FENCE_MIN_STRIDE]
    omega
  exact Nat.pow_lt_pow_right (by norm_num)
    (lt_of_le_of_lt (Nat.clog_le_of_le_pow hle) (by norm_num))

/-- **Where the laid out regions are read back**, in any section that starts with a header and the
records and goes on behind the trailer. -/
lemma layTrailer_spec {hdr recs fence dir table row sec : Bytes} {n cap stride fenceN : ℕ}
    (hhdr : hdr.length = HEADER) (hdir : dir.length = n * 4) (htable : table.length = cap * SLOT)
    (hsec : sec = hdr ++ (recs ++ ((layTrailer recs.length n cap stride fenceN fence dir table).2 ++
      row))) :
    let t := (layTrailer recs.length n cap stride fenceN fence dir table).1
    HEADER + recs.length + (layTrailer recs.length n cap stride fenceN fence dir table).2.length
        = t.total ∧
      sec.length = t.total + row.length ∧
      t.total ≤ HEADER + recs.length + fence.length + n * 4 + cap * SLOT + 13 ∧
      HEADER + recs.length ≤ t.fenceOffsOff ∧ t.fenceOffsOff + fence.length ≤ t.dirOff ∧
      t.dirOff + n * 4 ≤ t.hashOff ∧ t.hashOff + t.cap * SLOT = t.total ∧
      getRange sec HEADER (HEADER + recs.length) = some recs ∧
      getRange sec t.fenceOffsOff (t.fenceOffsOff + fence.length) = some fence ∧
      getRange sec t.dirOff (t.dirOff + n * 4) = some dir ∧
      getRange sec t.hashOff (t.hashOff + t.cap * SLOT) = some table := by
  set at0 := HEADER + recs.length with hat0
  set fenceOffsOff := alignUp at0 4 with hfo
  set at1 := fenceOffsOff + fence.length with hat1
  set dirOff := alignUp at1 4 with hdo
  set at2 := dirOff + n * 4 with hat2
  set hashOff := alignUp at2 8 with hho
  have hp0 := length_padding at0 (by norm_num : 0 < 4)
  have hp1 := length_padding at1 (by norm_num : 0 < 4)
  have hp2 := length_padding at2 (by norm_num : 0 < 8)
  have hu0 := alignUp_lt at0 (by norm_num : 0 < 4)
  have hu1 := alignUp_lt at1 (by norm_num : 0 < 4)
  have hu2 := alignUp_lt at2 (by norm_num : 0 < 8)
  have ht : layTrailer recs.length n cap stride fenceN fence dir table
      = (⟨fenceOffsOff, stride, fenceN, dirOff, hashOff, cap, hashOff + cap * SLOT⟩,
        padding at0 4 ++ (fence ++ (padding at1 4 ++ (dir ++ (padding at2 8 ++ table))))) := rfl
  rw [ht] at hsec ⊢
  dsimp only at hsec ⊢
  simp only [List.append_assoc] at hsec
  have hlen : sec.length = hashOff + cap * SLOT + row.length := by
    rw [hsec]
    simp only [List.length_append]
    omega
  refine ⟨by simp only [List.length_append]; omega, hlen, by omega, by omega, by omega, by omega,
    rfl, ?_, ?_, ?_, ?_⟩
  · rw [hsec]
    exact getRange_append_mid hhdr.symm (by rw [hhdr])
  · have hs : sec = (hdr ++ (recs ++ padding at0 4)) ++ (fence ++ (padding at1 4 ++ (dir ++
        (padding at2 8 ++ (table ++ row))))) := by
      rw [hsec]; simp only [List.append_assoc]
    have hl : fenceOffsOff = (hdr ++ (recs ++ padding at0 4)).length := by
      simp only [List.length_append]; omega
    rw [hs]
    exact getRange_append_mid hl (by rw [← hl])
  · have hs : sec = (hdr ++ (recs ++ (padding at0 4 ++ (fence ++ padding at1 4)))) ++ (dir ++
        (padding at2 8 ++ (table ++ row))) := by
      rw [hsec]; simp only [List.append_assoc]
    have hl : dirOff = (hdr ++ (recs ++ (padding at0 4 ++ (fence ++ padding at1 4)))).length := by
      simp only [List.length_append]; omega
    rw [hs]
    exact getRange_append_mid hl (by rw [← hl, hdir])
  · have hs : sec = (hdr ++ (recs ++ (padding at0 4 ++ (fence ++ (padding at1 4 ++ (dir ++
        padding at2 8)))))) ++ (table ++ row) := by
      rw [hsec]; simp only [List.append_assoc]
    have hl : hashOff = (hdr ++ (recs ++ (padding at0 4 ++ (fence ++ (padding at1 4 ++ (dir ++
        padding at2 8)))))).length := by
      simp only [List.length_append]; omega
    rw [hs]
    exact getRange_append_mid hl (by rw [← hl, htable])

section FenceRead

variable {sec : Bytes} {keyAt : ℕ → Bytes} {stride generation n recsOff recsLen crcOff shift : ℕ}
  {t : Trailer}

/-- The two parts of a fence, and the length that stands behind its starts. -/
lemma fence_read (hm : 0 < t.fenceN) (hsmall : ∀ m, (fenceBlob keyAt stride m).length < 2 ^ 32)
    (hget : getRange sec t.fenceOffsOff
      (t.fenceOffsOff + (fenceRegion keyAt stride t.fenceN).length)
        = some (fenceRegion keyAt stride t.fenceN)) :
    (fenceRegion keyAt stride t.fenceN).length
        = (t.fenceN + 1) * 4 + (fenceBlob keyAt stride t.fenceN).length ∧
      getRange sec t.fenceOffsOff (t.fenceOffsOff + (t.fenceN + 1) * 4)
        = some ((fenceStarts keyAt stride t.fenceN).flatMap (leBytes 4)) ∧
      getRange sec (t.fenceOffsOff + (t.fenceN + 1) * 4)
          (t.fenceOffsOff + (t.fenceN + 1) * 4 + (fenceBlob keyAt stride t.fenceN).length)
        = some (fenceBlob keyAt stride t.fenceN) ∧
      ∀ i ≤ t.fenceN,
        readWord 4 ((fenceStarts keyAt stride t.fenceN).flatMap (leBytes 4)) (i * 4)
          = some (fenceBlob keyAt stride i).length := by
  have hlen : ((fenceStarts keyAt stride t.fenceN).flatMap (leBytes 4)).length
      = (t.fenceN + 1) * 4 := by
    rw [length_flatMap_leBytes, length_fenceStarts]
  have heq : fenceRegion keyAt stride t.fenceN
      = (fenceStarts keyAt stride t.fenceN).flatMap (leBytes 4) ++
          fenceBlob keyAt stride t.fenceN := fenceRegion_eq hm
  have hall : (fenceRegion keyAt stride t.fenceN).length
      = (t.fenceN + 1) * 4 + (fenceBlob keyAt stride t.fenceN).length := by
    rw [heq, List.length_append, hlen]
  rw [hall, heq] at hget
  obtain ⟨h1, h2⟩ := getRange_split hget
  rw [hlen] at h1 h2
  refine ⟨hall, h1, by rw [add_assoc]; exact h2, ?_⟩
  intro i hi
  rw [readWord_flatMap (by norm_num) _ _ i, getElem?_fenceStarts hi]
  intro w hw
  obtain ⟨j, -, rfl⟩ := List.mem_map.mp hw
  exact lt_of_lt_of_le (hsmall j) (by norm_num)

/-- A fence entry is the key it samples. -/
lemma fenceKey_indexOf (hn : 0 < n) (hm : 0 < t.fenceN)
    (hsmall : ∀ m, (fenceBlob keyAt stride m).length < 2 ^ 32)
    (hget : getRange sec t.fenceOffsOff
      (t.fenceOffsOff + (fenceRegion keyAt stride t.fenceN).length)
        = some (fenceRegion keyAt stride t.fenceN)) {i : ℕ} (hi : i < t.fenceN) :
    (indexOf generation n recsOff recsLen t (fenceBlob keyAt stride t.fenceN).length crcOff
      shift).fenceKey sec i = some (keyAt (i * stride)) := by
  obtain ⟨-, hoffs, hblob, hread⟩ := fence_read hm hsmall hget
  have hle : (fenceBlob keyAt stride i).length ≤ (fenceBlob keyAt stride (i + 1)).length := by
    rw [fenceBlob_succ, List.length_append]
    omega
  simp only [FlatIndex.fenceKey, indexOf, if_pos hn, FlatIndex.region]
  rw [if_neg (by omega), hoffs, hblob]
  simp only [Option.bind_eq_bind, Option.bind_some]
  rw [hread i hi.le, hread (i + 1) hi]
  simp only [Option.bind_some]
  rw [if_neg (by omega)]
  exact getRange_fenceBlob hi

end FenceRead

/-- The key of a rank, as the trailer's caller answers it. -/
def keyOf (entries : List FlatEntry) (i : ℕ) : Bytes := (entries[i]?.map FlatEntry.key).getD []

/-- A rank's record offset and hash, as the trailer's caller answers them. -/
def eachOf (compact : Bool) (hashOf : Bytes → ℕ) (entries : List FlatEntry) (i : ℕ) : ℕ × ℕ :=
  ((recOffsOf compact entries).getD i 0, hashOf (keyOf entries i))

section Section

variable {entries : List FlatEntry} {compact : Bool} {hashOf : Bytes → ℕ}

lemma keyOf_eq {i : ℕ} (hi : i < entries.length) : keyOf entries i = entries[i].key := by
  rw [keyOf, List.getElem?_eq_getElem hi]
  rfl

lemma length_recOffsOf : (recOffsOf compact entries).length = entries.length := by
  rw [recOffsOf, List.length_map, List.length_range]

lemma eachOf_fst {i : ℕ} (hi : i < (recOffsOf compact entries).length) :
    (eachOf compact hashOf entries i).1 = (recOffsOf compact entries)[i] := by
  rw [eachOf, List.getD_eq_getElem?_getD, List.getElem?_eq_getElem hi]
  rfl

lemma recOffsOf_lt (hfit : (recordsOf compact entries).length ≤ MAX_RECS) :
    ∀ o ∈ recOffsOf compact entries, o < 2 ^ 32 := by
  intro o ho
  obtain ⟨i, -, rfl⟩ := List.mem_map.mp ho
  have := recordsOf_length_le_take compact entries i
  simp only [MAX_RECS] at hfit
  omega

/-- The directory is the record offsets. -/
lemma range_flatMap_eachOf :
    (List.range entries.length).flatMap (fun i => leBytes 4 (eachOf compact hashOf entries i).1)
      = (recOffsOf compact entries).flatMap (leBytes 4) := by
  rw [recOffsOf, List.flatMap_map]
  refine List.flatMap_congr (fun i hi => ?_)
  have hi' : i < (recOffsOf compact entries).length := by
    rw [length_recOffsOf]
    exact List.mem_range.mp hi
  rw [eachOf_fst hi', getElem_recOffsOf]

/-- What a checksum row asks of a section: none is named, or one that starts inside. -/
def CrcOk (sec : Bytes) (crcOff shift : ℕ) : Prop :=
  crcOff = 0 ∧ shift = 0 ∨ HEADER ≤ crcOff ∧ crcOff ≤ sec.length ∧ shift = PIECE_SHIFT

/-- The trailer of the entries, over a table of `2 ^ bits` slots. -/
def trailerOf (compact : Bool) (bits stride : ℕ) (entries : List FlatEntry) (slots : List ℕ) :
    Trailer × Bytes :=
  layTrailer (recordsOf compact entries).length entries.length (2 ^ bits) stride
    (divCeil entries.length stride)
    (fenceRegion (keyOf entries) stride (divCeil entries.length stride))
    ((recOffsOf compact entries).flatMap (leBytes 4)) (slots.flatMap (leBytes SLOT))

/-- What a filled table is to the entries. -/
structure TableOk (compact : Bool) (hashOf : Bytes → ℕ) (bits : ℕ) (entries : List FlatEntry)
    (slots : List ℕ) : Prop where
  bits33 : bits ≤ 33
  room : entries.length < 2 ^ bits
  length : slots.length = 2 ^ bits
  slotsOf : ∀ x ∈ slots, x = 0 ∨ ∃ i < entries.length,
    x = slotWord (eachOf compact hashOf entries i).2 (eachOf compact hashOf entries i).1
  reaches : ∀ i < entries.length, Reaches 0 slots ((eachOf compact hashOf entries i).2 % 2 ^ bits)
    (slotWord (eachOf compact hashOf entries i).2 (eachOf compact hashOf entries i).1)

lemma length_headerBytes {words : List ℕ} (h : words.length ≤ 23) :
    (headerBytes words).length = HEADER := by
  simp only [headerBytes, List.length_append, length_leBytes, length_flatMap_leBytes,
    List.length_replicate, HEADER]
  omega

lemma length_fenceBlob_lt (hfit : (recordsOf compact entries).length ≤ MAX_RECS) {stride : ℕ}
    (hstride : 0 < stride) (m : ℕ) : (fenceBlob (keyOf entries) stride m).length < 2 ^ 32 := by
  have h1 := length_fenceBlob_le compact entries hstride m
  have h2 := recordsOf_length_le_take compact entries (m * stride)
  simp only [MAX_RECS] at hfit
  exact lt_of_le_of_lt (h1.trans h2) (by omega)

lemma length_fenceRegion (keyAt : ℕ → Bytes) (stride m : ℕ) :
    (fenceRegion keyAt stride m).length
      = if 0 < m then (m + 1) * 4 + (fenceBlob keyAt stride m).length else 0 := by
  split_ifs with hm
  · rw [fenceRegion_eq hm, List.length_append, length_flatMap_leBytes, length_fenceStarts]
  · rw [fenceRegion, if_neg hm, List.length_nil]

/-- **A section holds the entries** when its header names regions that hold their records, their
fence, their directory and their table, each apart from the others. -/
lemma regions_view {bits generation base crcOff shift recsOff : ℕ} {slots : List ℕ} {t : Trailer}
    {sec rest : Bytes} (hok : ∀ e ∈ entries, RecordOk e.key e.exts e.tail)
    (hfit : (recordsOf compact entries).length ≤ MAX_RECS) (hgen : generation < 2 ^ 64)
    (htab : TableOk compact hashOf bits entries slots) (hcap : t.cap = 2 ^ bits)
    (hfenceN : t.fenceN = divCeil entries.length t.stride)
    (hbase : 4 ∣ base + recsOff)
    (hsec : sec = headerBytes (sectionWords generation entries.length recsOff
      (recordsOf compact entries).length t crcOff shift) ++ rest)
    (hsok : SectionOk sec entries.length recsOff (recordsOf compact entries).length t
      (fenceBlob (keyOf entries) t.stride t.fenceN).length crcOff shift)
    (grecs : getRange sec recsOff (recsOff + (recordsOf compact entries).length)
      = some (recordsOf compact entries))
    (gfence : getRange sec t.fenceOffsOff
        (t.fenceOffsOff + (fenceRegion (keyOf entries) t.stride t.fenceN).length)
      = some (fenceRegion (keyOf entries) t.stride t.fenceN))
    (gdir : getRange sec t.dirOff (t.dirOff + entries.length * 4)
      = some ((recOffsOf compact entries).flatMap (leBytes 4)))
    (ghash : getRange sec t.hashOff (t.hashOff + t.cap * SLOT)
      = some (slots.flatMap (leBytes SLOT))) :
    let fi := indexOf generation entries.length recsOff (recordsOf compact entries).length t
      (fenceBlob (keyOf entries) t.stride t.fenceN).length crcOff shift
    SectionOk sec entries.length recsOff (recordsOf compact entries).length t
        (fenceBlob (keyOf entries) t.stride t.fenceN).length crcOff shift ∧
      FlatIndex.parse sec = some fi ∧ Nonempty (FlatView base fi sec entries hashOf) := by
  intro fi
  have hstride := hsok.stride
  have hsmall : ∀ m, (fenceBlob (keyOf entries) t.stride m).length < 2 ^ 32 :=
    length_fenceBlob_lt hfit hstride
  have hpos : 0 < entries.length → 0 < t.fenceN := fun h => by
    rw [hfenceN]
    exact divCeil_pos h hstride
  refine ⟨hsok, parse_section hsec hgen hsok, ⟨?_⟩⟩
  exact
    { recs := recordsOf compact entries, offs := recOffsOf compact entries, slots := slots
      bits := bits, nkeys := rfl, recsRegion := grecs, dirRegion := gdir
      offsLen := length_recOffsOf, offsFit := recOffsOf_lt hfit
      record := by
        intro i hi ho
        rw [getElem_recOffsOf]
        exact parseRecord_recordsOf compact hok hbase hi
      recordKey := by
        intro i hi ho
        obtain ⟨len, hparse⟩ := parseRecord_recordsOf compact hok hbase hi
        rw [getElem_recOffsOf]
        exact recordKey_of_parseRecord hparse
      hashRegion := ghash, slotsLen := htab.length, cap := hcap
      mask := congrArg (· - 1) hcap
      slotsOf := by
        intro x hx
        rcases htab.slotsOf x hx with rfl | ⟨i, hi, rfl⟩
        · exact Or.inl rfl
        · have ho : i < (recOffsOf compact entries).length := by rw [length_recOffsOf]; exact hi
          refine Or.inr ⟨i, hi, ho, ?_⟩
          rw [eachOf_fst ho, eachOf, keyOf_eq hi]
      reaches := by
        intro i hi ho
        have := htab.reaches i hi
        rwa [eachOf_fst ho, eachOf, keyOf_eq hi] at this
      fence := by
        rcases Nat.eq_zero_or_pos entries.length with h0 | h0
        · exact Or.inl (if_neg (by omega))
        · have hs : fi.fenceStride = t.stride := if_pos h0
          have hm : fi.fenceN = t.fenceN := if_pos h0
          refine Or.inr ⟨by rw [hs]; exact hstride, by rw [hs, hm, hfenceN], ?_⟩
          intro i hi
          rw [hm] at hi
          have hin : i * t.stride < entries.length := by
            rw [hfenceN] at hi
            have : (i + 1) * t.stride ≤ entries.length + t.stride - 1 :=
              (Nat.le_div_iff_mul_le hstride).mp hi
            rw [Nat.add_mul] at this
            omega
          refine ⟨by rw [hs]; exact hin, ?_⟩
          have hkey : fi.fenceKey sec i = some (keyOf entries (i * t.stride)) :=
            fenceKey_indexOf h0 (hpos h0) hsmall gfence hi
          simp only [hs]
          rw [keyOf_eq hin] at hkey
          exact hkey }

/-- The section around the entries' trailer holds them. -/
lemma section_view {bits stride generation base crcOff shift : ℕ} {slots : List ℕ}
    {sec row : Bytes} (hok : ∀ e ∈ entries, RecordOk e.key e.exts e.tail)
    (hfit : (recordsOf compact entries).length ≤ MAX_RECS) (hgen : generation < 2 ^ 64)
    (htab : TableOk compact hashOf bits entries slots) (hstride : 0 < stride)
    (hstrideFits : stride < 2 ^ 64) (hbase : 4 ∣ base) (hrow : row.length < 2 ^ 62)
    (hsec : sec = headerBytes (sectionWords generation entries.length HEADER
      (recordsOf compact entries).length (trailerOf compact bits stride entries slots).1
        crcOff shift) ++ (recordsOf compact entries ++
          ((trailerOf compact bits stride entries slots).2 ++ row)))
    (hcrc : CrcOk sec crcOff shift) :
    let fi := indexOf generation entries.length HEADER (recordsOf compact entries).length
      (trailerOf compact bits stride entries slots).1
      (fenceBlob (keyOf entries) stride (divCeil entries.length stride)).length crcOff shift
    SectionOk sec entries.length HEADER (recordsOf compact entries).length
        (trailerOf compact bits stride entries slots).1
        (fenceBlob (keyOf entries) stride (divCeil entries.length stride)).length crcOff shift ∧
      FlatIndex.parse sec = some fi ∧ Nonempty (FlatView base fi sec entries hashOf) := by
  have hcap33 : 2 ^ bits * SLOT ≤ 2 ^ 33 * SLOT :=
    Nat.mul_le_mul_right _ (Nat.pow_le_pow_right (by norm_num) htab.bits33)
  have hkeys := length_le_recordsOf compact entries
  have hdirLen : ((recOffsOf compact entries).flatMap (leBytes 4)).length = entries.length * 4 := by
    rw [length_flatMap_leBytes, length_recOffsOf]
  have htabLen : (slots.flatMap (leBytes SLOT)).length = 2 ^ bits * SLOT := by
    rw [length_flatMap_leBytes, htab.length]
  have hlay := layTrailer_spec (length_headerBytes (by simp [sectionWords, headerWords])) hdirLen
    htabLen hsec
  rw [← trailerOf] at hlay
  set t := (trailerOf compact bits stride entries slots).1 with ht
  obtain ⟨-, hlen, htotal, hfence, hdir, hhash, hend, grecs, gfence, gdir, ghash⟩ := hlay
  have hfenceN : t.fenceN = divCeil entries.length t.stride := rfl
  have hts : t.stride = stride := rfl
  have htc : t.cap = 2 ^ bits := rfl
  have hfenceLe : divCeil entries.length stride ≤ entries.length := divCeil_le _ hstride
  have hblobLt := length_fenceBlob_lt hfit hstride (divCeil entries.length stride)
  have hregion := length_fenceRegion (keyOf entries) stride (divCeil entries.length stride)
  have hfit' : (recordsOf compact entries).length < 2 ^ 32 := by
    simp only [MAX_RECS] at hfit
    omega
  have hfenceSmall : (fenceRegion (keyOf entries) stride
      (divCeil entries.length stride)).length < 2 ^ 35 := by
    rw [hregion]
    split_ifs <;> omega
  have hSLOT : SLOT = 8 := rfl
  have hH : HEADER = 192 := rfl
  have hfits : 0 < entries.length → t.fenceOffsOff + (t.fenceN + 1) * 4 +
      (fenceBlob (keyOf entries) stride t.fenceN).length ≤ t.dirOff := by
    intro h0
    rw [if_pos (divCeil_pos h0 hstride)] at hregion
    rw [hregion] at hdir
    change t.fenceOffsOff + (divCeil entries.length stride + 1) * 4 +
      (fenceBlob (keyOf entries) stride (divCeil entries.length stride)).length ≤ t.dirOff
    omega
  have hsok : SectionOk sec entries.length HEADER (recordsOf compact entries).length t
      (fenceBlob (keyOf entries) t.stride t.fenceN).length crcOff shift :=
    { small := by rw [hlen]; omega
      cap := ⟨bits, rfl⟩, keys := htab.room.le, stride := hstride, strideFits := hstrideFits
      fenceN := rfl, fenceOff := by omega, hash := by omega, dir := by omega, recs := by omega
      hashDir := Or.inr (by dsimp only; omega), hashRecs := Or.inr (by dsimp only; omega)
      dirRecs := Or.inr (by dsimp only; omega)
      fence := by
        intro h0
        have := hfits h0
        rw [hts]
        refine ⟨by omega, by omega, ?_⟩
        intro r hr
        simp only [List.mem_cons, List.not_mem_nil, or_false] at hr
        rcases hr with rfl | rfl | rfl
        · exact Or.inl (by dsimp only; omega)
        · exact Or.inl (by dsimp only; omega)
        · exact Or.inr (by dsimp only; omega)
      blob := by
        intro h0
        obtain ⟨-, hoffs, -, hread⟩ := fence_read (t := t) (divCeil_pos h0 hstride)
          (length_fenceBlob_lt hfit hstride) gfence
        rw [(getRange_eq_some.mp hoffs).2.2]
        exact hread t.fenceN (le_refl _)
      crc := hcrc }
  exact regions_view hok hfit hgen htab htc hfenceN (dvd_add hbase (by decide : 4 ∣ HEADER)) hsec
    hsok grecs gfence gdir ghash

/-- **The trailer's section.**  Over the records of entries that fit, `stream_trailer` answers, and
what it answers makes, with the records and any row behind it, a section that parses and holds the
entries. -/
lemma streamTrailer_spec (target : ℕ+) (hashOf : Bytes → ℕ)
    (hok : ∀ e ∈ entries, RecordOk e.key e.exts e.tail)
    (hfit : (recordsOf compact entries).length ≤ MAX_RECS) {generation : ℕ}
    (hgen : generation < 2 ^ 64) (lookahead : Bool) :
    ∃ t trailer blobLen,
      streamTrailer target entries.length (recordsOf compact entries).length (keyOf entries)
          (eachOf compact hashOf entries) generation lookahead
        = some (headerBytes (headerWords generation entries.length
            HEADER (recordsOf compact entries).length t), trailer, t.total) ∧
      HEADER + (recordsOf compact entries).length + trailer.length = t.total ∧
      t.total < 2 ^ 62 ∧
      ∀ {base crcOff shift : ℕ} {sec row : Bytes}, 4 ∣ base → row.length < 2 ^ 62 →
        sec = headerBytes (sectionWords generation entries.length HEADER
          (recordsOf compact entries).length t crcOff shift) ++
            (recordsOf compact entries ++ (trailer ++ row)) →
        CrcOk sec crcOff shift →
        SectionOk sec entries.length HEADER (recordsOf compact entries).length t blobLen crcOff
          shift ∧
        FlatIndex.parse sec = some (indexOf generation entries.length HEADER
          (recordsOf compact entries).length t blobLen crcOff shift) ∧
        Nonempty (FlatView base (indexOf generation entries.length HEADER
          (recordsOf compact entries).length t blobLen crcOff shift) sec entries hashOf) := by
  have hfit' : (recordsOf compact entries).length < 2 ^ 32 := by
    simp only [MAX_RECS] at hfit
    omega
  have hn : entries.length < 2 ^ 32 := by
    have := length_le_recordsOf compact entries
    omega
  obtain ⟨k, hcap, hk33, hnk⟩ := hashCapFor_spec hn
  have hoffs : ∀ i < entries.length, ((eachOf compact hashOf entries i).2,
      (eachOf compact hashOf entries i).1).2 < 2 ^ 56 := by
    intro i hi
    have hi' : i < (recOffsOf compact entries).length := by rw [length_recOffsOf]; exact hi
    have := recOffsOf_lt hfit _ (List.getElem_mem hi')
    dsimp only
    rw [eachOf_fst hi']
    exact lt_trans this (by norm_num)
  obtain ⟨slots, hfill, hslots, hslotsOf, hreach⟩ := fillHash_spec hnk hoffs lookahead
  have htab : TableOk compact hashOf k entries slots := ⟨hk33, hnk, hslots, hslotsOf, hreach⟩
  have hstride := fenceStride_pos target entries.length
  set lay := trailerOf compact k (fenceStride target entries.length) entries slots with hlay
  have hsizes := layTrailer_spec
    (List.length_replicate : (List.replicate HEADER (0 : UInt8)).length = HEADER)
    (by rw [length_flatMap_leBytes, length_recOffsOf] :
      ((recOffsOf compact entries).flatMap (leBytes 4)).length = entries.length * 4)
    (by rw [length_flatMap_leBytes, hslots] :
      (slots.flatMap (leBytes SLOT)).length = 2 ^ k * SLOT)
    (rfl : List.replicate HEADER (0 : UInt8) ++ (recordsOf compact entries ++ (lay.2 ++ [])) = _)
  refine ⟨lay.1, lay.2, (fenceBlob (keyOf entries) (fenceStride target entries.length)
    (divCeil entries.length (fenceStride target entries.length))).length, ?_, hsizes.1, ?_, ?_⟩
  · rw [streamTrailer, if_neg (by omega), hcap]
    simp only [Option.bind_eq_bind, Option.bind_some]
    rw [hfill]
    simp only [Option.bind_some, range_flatMap_eachOf]
    rfl
  · have hcap8 : 2 ^ k * SLOT ≤ 2 ^ 33 * SLOT :=
      Nat.mul_le_mul_right _ (Nat.pow_le_pow_right (by norm_num) hk33)
    have hH : HEADER = 192 := rfl
    have hSLOT : SLOT = 8 := rfl
    have hblob := length_fenceBlob_lt hfit hstride (divCeil entries.length
      (fenceStride target entries.length))
    have hregion := length_fenceRegion (keyOf entries) (fenceStride target entries.length)
      (divCeil entries.length (fenceStride target entries.length))
    have hle := divCeil_le entries.length hstride
    have htotal := hsizes.2.2.1
    have hfence : (fenceRegion (keyOf entries) (fenceStride target entries.length)
        (divCeil entries.length (fenceStride target entries.length))).length < 2 ^ 35 := by
      rw [hregion]
      split_ifs <;> omega
    refine lt_of_le_of_lt htotal ?_
    omega
  · intro base crcOff shift sec row hbase hrow hsec hcrc
    exact section_view hok hfit hgen htab hstride (fenceStride_lt target hn) hbase hrow hsec hcrc

/-- The records of the entries streamed one by one, each with the offset it starts at. -/
def streamAll (compact : Bool) : List FlatEntry → Bytes × List ℕ → Option (Bytes × List ℕ)
  | [], st => some st
  | e :: es, (out, offs) => do
      let (out', _) ← streamRecordAs out e.key e.exts e.tail compact
      streamAll compact es (out', offs ++ [out.length])

lemma streamAll_append (es : List FlatEntry) (out : Bytes) (offs : List ℕ)
    (hok : ∀ e ∈ es, RecordOk e.key e.exts e.tail) :
    streamAll compact es (out, offs) = some (out ++ recordsOf compact es,
      offs ++ (recOffsOf compact es).map (out.length + ·)) := by
  induction es generalizing out offs with
  | nil => simp [streamAll, recordsOf, recOffsOf]
  | cons e es ih =>
      have he := hok e (List.mem_cons_self ..)
      have hstream : streamRecordAs out e.key e.exts e.tail compact
          = some (out ++ recordBytes e.key e.exts e.tail compact,
              recordTailAt e.key.length e.exts compact + alignUp e.tail.length REC_ALIGN) := by
        have hlim : ¬ (65535 < e.key.length ∨ COMPACT ≤ e.exts.length) := by
          have := he.klen
          have := he.count
          omega
        rw [streamRecordAs, recordLenFor, if_neg hlim]
        rfl
      rw [streamAll, hstream]
      simp only [Option.bind_eq_bind, Option.bind_some]
      rw [ih _ _ (fun e he => hok e (List.mem_cons_of_mem _ he)), recordsOf_cons, recOffsOf,
        recOffsOf, List.length_cons, List.range_succ_eq_map, List.map_cons, List.map_map]
      simp only [List.append_assoc, List.map_cons, List.map_map, List.take_zero,
        List.singleton_append, Option.some.injEq, Prod.mk.injEq, true_and]
      congr 2
      refine List.map_congr_left (fun i _ => ?_)
      simp only [Function.comp, List.take_succ_cons, recordsOf_cons, List.length_append]
      omega

/-- **Flat key-index round trip.**  For entries sorted strictly by key that fit a section, the
records `stream_record_as` appends and the header and trailer `stream_trailer` builds over them make
a section that `FlatIndex::parse` accepts; in it every key's extents and tail are found by hash and
by rank, nothing is found for any other key or rank, and a seek, with the fence or without, counts
the keys below its bound.  The hash is any function, and `base` is the address the section lies
at. -/
theorem flatIndex_roundTrip (target : ℕ+) (compact lookahead : Bool) (hashOf : Bytes → UInt64)
    (generation : UInt64) {base : ℕ} (hbase : 4 ∣ base) (entries : List FlatEntry)
    (hsorted : (entries.map FlatEntry.key).Pairwise (· < ·))
    (hok : ∀ e ∈ entries, RecordOk e.key e.exts e.tail) :
    ∃ recs offs, streamAll compact entries ([], []) = some (recs, offs) ∧
      (recs.length ≤ MAX_RECS →
        ∃ header trailer total fi,
          streamTrailer target entries.length recs.length (keyOf entries)
              (fun i => (offs.getD i 0, (hashOf (keyOf entries i)).toNat)) generation.toNat lookahead
            = some (header, trailer, total) ∧
          FlatIndex.parse (header ++ (recs ++ trailer)) = some fi ∧
          (∀ q, fi.lookupFull base (header ++ (recs ++ trailer)) q (fun k => (hashOf k).toNat)
            = (entries.find? (fun e => e.key = q)).map (fun e => (e.exts, e.tail))) ∧
          (∀ r, fi.atFull base (header ++ (recs ++ trailer)) r
            = entries[r]?.map (fun e => (e.key, e.exts, e.tail))) ∧
          ∀ q fence, fi.seekWith (header ++ (recs ++ trailer)) q fence
            = ((entries.map FlatEntry.key).filter (· < q)).length) := by
  refine ⟨recordsOf compact entries, recOffsOf compact entries, ?_, ?_⟩
  · rw [streamAll_append entries [] [] hok]
    simp
  · intro hfit
    obtain ⟨t, trailer, blobLen, hst, -, -, hview⟩ := streamTrailer_spec target
      (fun k => (hashOf k).toNat) hok hfit generation.toNat_lt lookahead
    have hsec : headerBytes (headerWords generation.toNat entries.length HEADER
        (recordsOf compact entries).length t) ++ (recordsOf compact entries ++ trailer)
        = headerBytes (sectionWords generation.toNat entries.length HEADER
            (recordsOf compact entries).length t 0 0) ++
              (recordsOf compact entries ++ (trailer ++ [])) := by
      rw [headerBytes_headerWords, List.append_nil]
    obtain ⟨-, hparse, ⟨v⟩⟩ := hview hbase (by simp) hsec (Or.inl ⟨rfl, rfl⟩)
    exact ⟨_, _, _, _, hst, hparse, v.lookupFull hsorted, v.atFull, v.seekWith hsorted⟩

/-- Two keys that hash alike, one empty with an inline run and one with a run in a block. -/
theorem flatIndex_roundTrip_collision :
    ∃ recs offs header trailer total fi,
      streamAll true [⟨[], [inlineExt [[7]] false], runOf [[7]]⟩, ⟨[1], [⟨0, 4, 9, 0, 1⟩], []⟩]
        ([], []) = some (recs, offs) ∧
      streamTrailer 16384 2 recs.length
          (keyOf [⟨[], [inlineExt [[7]] false], runOf [[7]]⟩, ⟨[1], [⟨0, 4, 9, 0, 1⟩], []⟩])
          (fun i => (offs.getD i 0, 5)) 1 true = some (header, trailer, total) ∧
      FlatIndex.parse (header ++ (recs ++ trailer)) = some fi ∧
      fi.lookupFull 0 (header ++ (recs ++ trailer)) [1] (fun _ => 5)
        = some ([⟨0, 4, 9, 0, 1⟩], []) ∧
      fi.lookupFull 0 (header ++ (recs ++ trailer)) [2] (fun _ => 5) = none ∧
      fi.atFull 0 (header ++ (recs ++ trailer)) 0
        = some ([], [inlineExt [[7]] false], runOf [[7]]) ∧
      fi.seekWith (header ++ (recs ++ trailer)) [1] true = 1 := by
  obtain ⟨recs, offs, hs, h⟩ := flatIndex_roundTrip 16384 true true (fun _ => 5) 1
    (by decide : 4 ∣ 0)
    [⟨[], [inlineExt [[7]] false], runOf [[7]]⟩, ⟨[1], [⟨0, 4, 9, 0, 1⟩], []⟩] (by decide) (by
      intro e he
      simp only [List.mem_cons, List.not_mem_nil, or_false] at he
      rcases he with rfl | rfl
      · refine ⟨by decide, by decide, ?_, by decide +kernel, fun _ => ⟨[[7]], false, rfl, rfl⟩⟩
        intro e he
        rw [List.mem_singleton.mp he]
        constructor <;> decide +kernel
      · refine ⟨by decide, by decide, ?_, by decide, fun h => absurd h (by decide)⟩
        intro e he
        rw [List.mem_singleton.mp he]
        constructor <;> decide)
  have hlen : (streamAll true [⟨[], [inlineExt [[7]] false], runOf [[7]]⟩,
      ⟨[1], [⟨0, 4, 9, 0, 1⟩], []⟩] ([], [])).map (fun r => r.1.length) = some 40 := by
    decide +kernel
  rw [hs, Option.map_some, Option.some.injEq] at hlen
  obtain ⟨header, trailer, total, fi, ht, hp, hl, ha, hk⟩ := h (by rw [hlen]; decide)
  exact ⟨recs, offs, header, trailer, total, fi, hs, ht, hp, hl [1], hl [2], ha 0,
    (hk [1] true).trans (by decide)⟩

end Section

end Supdb
