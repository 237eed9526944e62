import Supdb.SealOrder

/-!
# The order of keys

Three sorts and a search put keys in order.  A seal sorts a table's entries by the first sixteen
bytes of their keys, zero-padded, and then what ties by the whole keys; a scan sorts offsets by
their first word, to copy in the order the keys came; and a scan finds its place in a run near the
run's start by a gallop.

* `radixByFirst` – counting passes by the first word, the lowest byte first, up to the largest
  word's highest. `radixByFirst_eq` – **they are the stable sort by the word.**
* `radixByPrefix_eq` – **the passes over the prefix words are the stable sort by the padded
  prefixes.**
* `gallopPoint` – probes at twice the distance each, then a halving search in the last span.
  `gallopPoint_eq` – **it is the partition point**, whatever run and whatever predicate that holds
  of a first part of it only.
* `key_order_sorts` – these, and **a table's slots in the order of its keys**: strictly increasing
  exactly where the entries' keys are distinct.  They are in every table whose keys are shorter than
  `2 ^ 16` bytes; `slotsInKeyOrder_ties` is a table of two keys that its entries keep as the empty
  key both.
-/

namespace Supdb

open StorageLib

/-! ## By the first word -/

/-- The byte of the first word a pass sorts by. -/
def firstByte (shift : ℕ) (t : PrefixRec) : ℕ := (t.1 >>> shift) &&& 0xFF

/-- The passes from a shift on, the two lists swapped after each. -/
def radixFirstFrom (most shift : ℕ) (s : List PrefixRec × List PrefixRec) : List PrefixRec :=
  if shift < 32 ∧ most >>> shift ≠ 0 then
    radixFirstFrom most (shift + 8) (countingPass 256 (firstByte shift) s.1 s.2, s.1)
  else s.1
termination_by 32 - shift
decreasing_by omega

/-- `radix_by_first`. -/
def radixByFirst (v : List PrefixRec) : List PrefixRec :=
  radixFirstFrom ((v.map Prod.fst).foldl max 0) 0 (v, List.replicate v.length (0, 0, 0))

section First

variable {v : List PrefixRec} {most shift i : ℕ}

lemma firstByte_eq (r : PrefixRec) : firstByte (8 * i) r = r.1 / 256 ^ i % 256 := by
  rw [firstByte, and_0xFF, Nat.shiftRight_eq_div_pow, pow_mul]
  norm_num only

/-- The passes sort by the bytes that are left. -/
lemma radixFirstFrom_stable {s : List PrefixRec × List PrefixRec} (hwords : ∀ r ∈ v, r.1 < 2 ^ 32)
    (hmost : ∀ r ∈ v, r.1 ≤ most) (hlen : s.2.length = v.length)
    (h : StableSort (fun r => r.1 % 256 ^ i) v s.1) :
    StableSort Prod.fst v (radixFirstFrom most (8 * i) s) := by
  induction hn : 32 - 8 * i using Nat.strong_induction_on generalizing i s with
  | _ n ih =>
      rw [radixFirstFrom]
      by_cases hmore : 8 * i < 32 ∧ most >>> (8 * i) ≠ 0
      · have hpass : countingPass 256 (firstByte (8 * i)) s.1 s.2 = buckets 256 (firstByte (8 * i)) s.1 := by
          refine countingPass_eq (fun r _ => ?_) (hlen.trans h.perm.length_eq.symm)
          rw [firstByte_eq]
          exact Nat.mod_lt _ (by norm_num)
        rw [if_pos hmore, hpass]
        refine ih (32 - 8 * (i + 1)) (by omega) h.perm.length_eq ?_ rfl
        exact h.digit (by norm_num) (fun r _ => firstByte_eq r)
      · rw [if_neg hmore]
        refine h.whole (fun r hr => ?_)
        have hpow : (2 : ℕ) ^ (8 * i) = 256 ^ i := by
          rw [pow_mul]
          norm_num only
        by_cases hshift : 8 * i < 32
        · -- the largest word has no byte left
          have hzero : most >>> (8 * i) = 0 := by
            by_contra hne
            exact hmore ⟨hshift, hne⟩
          rw [Nat.shiftRight_eq_div_pow, Nat.div_eq_zero_iff, hpow] at hzero
          rcases hzero with hzero | hlt
          · exact absurd hzero (Nat.pow_pos (by norm_num)).ne'
          · exact (hmost r hr).trans_lt hlt
        · have hbig : 2 ^ 32 ≤ 256 ^ i := by
            rw [← hpow]
            exact Nat.pow_le_pow_right (by norm_num) (not_lt.mp hshift)
          exact (hwords r hr).trans_le hbig

/-- **The passes by the first word** are the stable sort by it. -/
theorem radixByFirst_eq (hwords : ∀ r ∈ v, r.1 < 2 ^ 32) :
    radixByFirst v = v.mergeSort (fun x y => x.1 ≤ y.1) := by
  have hmost : ∀ (l : List ℕ) (a : ℕ), a ≤ l.foldl max a ∧ ∀ x ∈ l, x ≤ l.foldl max a := by
    intro l
    induction l with
    | nil => exact fun a => ⟨le_refl a, fun x hx => absurd hx List.not_mem_nil⟩
    | cons y l ih =>
        intro a
        obtain ⟨hstart, hall⟩ := ih (max a y)
        refine ⟨(le_max_left a y).trans hstart, fun x hx => ?_⟩
        rcases List.mem_cons.mp hx with rfl | hx
        · exact (le_max_right a x).trans hstart
        · exact hall x hx
  refine StableSort.eq_mergeSort (radixFirstFrom_stable hwords (i := 0) ?_ List.length_replicate ?_)
  · exact fun r hr => (hmost _ 0).2 r.1 (List.mem_map_of_mem hr)
  · exact stableSort_mod_zero Prod.fst 256 v

end First

/-! ## By the padded prefix -/

/-- A key's record in the sort. -/
def prefixRec (e : Bytes × ℕ) : PrefixRec := ((keyPrefix e.1).1, (keyPrefix e.1).2, e.2)

/-- **The passes over the prefix words** are the stable sort by the padded prefixes. -/
theorem radixByPrefix_eq (v : List (Bytes × ℕ)) :
    radixByPrefix (v.map prefixRec) = (v.mergeSort (fun a b => padded 16 a.1 ≤ padded 16 b.1)).map
    prefixRec := by
  have hfits : ∀ r ∈ v.map prefixRec, PrefixFits r := by
    intro r hr
    obtain ⟨e, -, rfl⟩ := List.mem_map.mp hr
    exact (prefixNat_keyPrefix e.2).1
  rw [(radixByPrefix_stable hfits).eq_mergeSort]
  refine (List.map_mergeSort (fun a _ b _ => decide_eq_decide.mpr ?_)).symm
  rw [prefixRec, prefixRec, (prefixNat_keyPrefix a.2).2,
    (prefixNat_keyPrefix b.2).2, ← not_lt, ← not_lt, beNat_padded_lt_iff]

/-! ## The gallop -/

section Gallop

variable {α : Type}

/-- `partition_point` of a slice. -/
def slicePoint (below : α → Bool) (run : List α) : ℕ :=
  partitionPoint (fun i => run[i]?.any below) 0 run.length

/-- `gallop_point`. -/
def gallopPoint (below : α → Bool) (run : List α) : ℕ :=
  if run.length = 0 ∨ ¬ run[0]?.any below then 0
  else
    let span := gallop (fun i => run[i]?.any below) run.length 0 0
    span.1 + 1 + slicePoint below (slice run (span.1 + 1) span.2)

variable {below : α → Bool} {run : List α} {t : ℕ}

lemma slicePoint_eq (hpoint : ∀ i < run.length, (run[i]?.any below = true ↔ i < t))
    (ht : t ≤ run.length) : slicePoint below run = t :=
  partitionPoint_eq (Nat.zero_le _) ht (fun i _ hi => hpoint i hi)

/-- **The gallop finds the partition point** of a run whose elements below come first. -/
theorem gallopPoint_eq (hrun : run.Pairwise (fun a b => below b = true → below a = true)) :
    gallopPoint below run = slicePoint below run := by
  have hpoint : ∀ i < run.length, (run[i]?.any below = true ↔ i < (run.filter below).length) := by
    intro i hi
    rw [List.getElem?_eq_getElem hi, Option.any_some]
    exact iff_lt_length_filter hrun i hi
  have ht : (run.filter below).length ≤ run.length := List.length_filter_le _ _
  rw [slicePoint_eq hpoint ht, gallopPoint]
  generalize (run.filter below).length = t at hpoint ht
  by_cases hnone : run.length = 0 ∨ ¬ run[0]?.any below = true
  · rw [if_pos hnone]
    rcases hnone with hempty | hfirst
    · omega
    · by_contra hne
      exact hfirst ((hpoint 0 (by omega)).mpr (by omega))
  · rw [if_neg hnone]
    obtain ⟨hsome, hfirst⟩ := not_or.mp hnone
    have hpos : 0 < t := (hpoint 0 (by omega)).mp (not_not.mp hfirst)
    obtain ⟨hlo, hhi, hend⟩ := gallop_spec (k := 0) hpoint hpos ht
    set span := gallop (fun i => run[i]?.any below) run.length 0 0 with hspan
    have hlen : (slice run (span.1 + 1) span.2).length = span.2 - (span.1 + 1) := by
      rw [slice, List.length_drop, List.length_take]
      omega
    have hwithin : slicePoint below (slice run (span.1 + 1) span.2) = t - (span.1 + 1) := by
      refine slicePoint_eq (fun i hi => ?_) (by omega)
      rw [hlen] at hi
      rw [getElem?_slice (by omega), hpoint _ (by omega)]
      omega
    show span.1 + 1 + _ = t
    rw [hwithin]
    omega

end Gallop

/-! ## The order of a table's slots -/

section Tables

variable {t : HashedTable} {hashOf : Bytes → UInt64} {ks : List Bytes}
    {chunks : List (ℕ × WalRecord)} {key v : Bytes}

/-- **A table's slots are in the order of its keys** as its entries keep them: strictly where they
are distinct, and nowhere else. -/
theorem HashedTable.slotsInKeyOrder_iff (hkeys : t.entries.mapM t.keyOf = some ks) :
    ∃ order, t.slotsInKeyOrder = some order ∧ order.Perm (List.range ks.length) ∧
      ((order.map (fun i => ks.getD i [])).Pairwise (· < ·) ↔ ks.Nodup) := by
  obtain ⟨order, horder, hperm, hpair⟩ := HashedTable.slotsInKeyOrder_sorted hkeys
  have hks := hperm.map (fun i => ks.getD i [])
  rw [map_getD_range] at hks
  refine ⟨order, horder, hperm, fun hlt => ?_, fun hnodup => ?_⟩
  · exact hks.nodup_iff.mp (hlt.imp (fun h => h.ne))
  · have hne : (order.map (fun i => ks.getD i [])).Nodup := hks.nodup_iff.mpr hnodup
    exact (hpair.and hne).imp (fun h => lt_of_le_of_ne h.1 h.2)

/-- An append of a key the table lacks leaves an entry that keeps the key's length in sixteen bits.
-/
lemma HashedTable.Ok.append_absent (h : t.Ok hashOf ks chunks) (hkey : key ∉ ks)
    (hpush : PushMeets t.vals (some v)) (htakes : t.keys.Takes key.length 0)
    (hoff : ∀ p ∈ t.keys.reserve key.length, p.2 < 2 ^ 32) (hroom : t.len < SLAB_MAX) :
    ∃ t', t.append (hashOf key).toNat key v = some t' ∧
      t'.entries.mapM t'.keyOf = some (ks ++ [key.take (key.length % 2 ^ 16)]) ∧
      (∀ p ∈ t.vals.reserve (pushLen (some v)), t'.vals = { p.1 with blocks := t'.vals.blocks }) ∧
      ∀ p ∈ t.keys.reserve key.length, t'.keys = { p.1 with blocks := t'.keys.blocks } := by
  obtain ⟨room, vals, off, hreserve, hpushed, hsame, -, -, -, -, -, -⟩ :=
    push_takes NO_CHUNK h.stored.arena hpush.takes
  set t₁ : HashedTable :=
    { t with vals := vals, tombs := t.tombs + if (some v).isNone then 1 else 0 } with ht₁
  obtain ⟨keys, koff, hcopy, -, hmono, hholds, -, hkeysSame⟩ :=
    copyKey_spec (t := t₁) h.keys htakes hoff
  let e : MemEntry := ⟨(hashOf key).toNat / 2 ^ 32, koff, key.length % 2 ^ 16, off + 1, 1⟩
  let t₂ : HashedTable := { t₁ with keys := keys, entries := t.entries ++ [e] }
  have hentry : t.newEntry (hashOf key).toNat key (some v) = some (t₂, ks.length) := by
    rw [newEntry, hpushed]
    simp only [Option.bind_eq_bind, Option.bind_some, hcopy]
    refine (if_pos hroom).trans ?_
    show some (t₂, t.entries.length) = _
    rw [h.entries.length]
  have hhs : t₂.entries.map MemEntry.hash = ks.map (highOf hashOf) ++
    [(hashOf key).toNat / 2 ^ 32] := by
    rw [List.map_append]
    refine congrArg (· ++ _) (List.ext_getElem (by simp [h.entries.length]) (fun i h1 h2 => ?_))
    rw [List.length_map] at h1 h2
    rw [List.getElem_map, List.getElem_map]
    exact (h.entries.entry i _ _ (List.getElem?_eq_getElem h1) (List.getElem?_eq_getElem h2)).hash
  have hlen : t₂.len ≤ SLAB_MAX := by
    show (t.entries ++ [e]).length ≤ SLAB_MAX
    rw [List.length_append, List.length_singleton]
    exact hroom
  obtain ⟨slots, hinsert, -⟩ := indexInsert_spec (hashOf key).toNat (t := t₂) h.index hhs hlen
  rw [List.length_map] at hinsert
  refine ⟨{ t₂ with slots := slots }, ?_, mapM_of_getElem? ?_ (fun i k hk => ?_), fun p hp => ?_,
    hkeysSame⟩
  · rw [HashedTable.append, HashedTable.write, h.probe_absent hkey]
    simp only [Option.bind_eq_bind, Option.bind_some, hentry, hinsert]
  · show (t.entries ++ [e]).length = _
    rw [List.length_append, List.length_append, h.entries.length]
    rfl
  · show (t.entries ++ [e])[i]?.bind _ = some k
    by_cases hi : i < ks.length
    · -- an entry that was there reads as it did
      rw [List.getElem?_append_left hi] at hk
      have hlt : i < t.entries.length := h.entries.length.symm ▸ hi
      have hold := h.entries.entry i _ k (List.getElem?_eq_getElem hlt) hk
      rw [List.getElem?_append_left hlt, List.getElem?_eq_getElem hlt, Option.bind_some]
      show keys.slice _ _ = some k
      rw [hold.klen]
      exact (hmono _ _ hold.key).1
    · have hsnoc : i = ks.length := by
        have hbound := (List.getElem?_eq_some_iff.mp hk).1
        rw [List.length_append, List.length_singleton] at hbound
        omega
      rw [hsnoc, List.getElem?_concat_length, Option.some.injEq] at hk
      rw [hsnoc, ← h.entries.length, List.getElem?_concat_length, Option.bind_some, ← hk]
      show keys.slice koff (key.length % 2 ^ 16) = _
      have hread := (hholds.take_bytes (key.length % 2 ^ 16)).1
      rwa [List.length_take, Nat.min_eq_left (Nat.mod_le _ _)] at hread
  · rw [hreserve, Option.mem_some_iff] at hp
    rw [← hp]
    exact hsame

/-- **The sorts and the search.**  The passes over the prefix words are the stable sort by the
padded first sixteen bytes; a table's slots are in strictly increasing order of their keys where its
entries' keys are distinct, and only there, as they are after every run of operations that find what
they need; the passes by the first word are the stable sort by it; and the gallop is the partition
point. -/
theorem key_order_sorts (hashOf : Bytes → UInt64) :
    (∀ v : List (Bytes × ℕ),
      radixByPrefix (v.map prefixRec) = (v.mergeSort (fun a b => padded 16 a.1 ≤ padded 16 b.1)).map
      prefixRec) ∧
    (∀ (t : HashedTable) (ks : List Bytes), t.entries.mapM t.keyOf = some ks →
      ∃ order, t.slotsInKeyOrder = some order ∧ order.Perm (List.range ks.length) ∧
        ((order.map (fun i => ks.getD i [])).Pairwise (· < ·) ↔ ks.Nodup)) ∧
    (∀ ops : List TableOp, HashedTable.new.MeetsAll hashOf ops →
      ∃ t ks, HashedTable.new.run hashOf ops = some t ∧ t.entries.mapM t.keyOf = some ks ∧
        ks.Nodup ∧ ∀ k, k ∈ ks ↔ ∃ r ∈ ops.flatMap TableOp.records, r.key = k) ∧
    (∀ v : List PrefixRec, (∀ r ∈ v, r.1 < 2 ^ 32) → radixByFirst v
      = v.mergeSort (fun x y => x.1 ≤ y.1)) ∧
    (∀ {α : Type} (below : α → Bool) (run : List α),
      run.Pairwise (fun a b => below b = true → below a = true) →
      gallopPoint below run = slicePoint below run) := by
  refine ⟨radixByPrefix_eq, fun t ks hkeys => HashedTable.slotsInKeyOrder_iff hkeys,
    fun ops hmeets => ?_, fun v => radixByFirst_eq, fun below run => gallopPoint_eq⟩
  obtain ⟨t, ks, chunks, hrun, hok, -, -, -, hrecs⟩ := HashedTable.new_ok.run hmeets
  refine ⟨t, ks, hrun, hok.toHeld.mapM_keyOf, hok.nodup, fun k => ?_⟩
  rw [hok.known, List.nil_append, ← hrecs]
  simp only [List.mem_map, exists_exists_and_eq_and]

/-- Keys that tie on their prefixes, a run of two keys, words of two bytes, and a gallop past its
first probe. -/
theorem key_order_sorts_few :
    radixByPrefix ([([0], 0), ([], 1), ([0, 0], 2)].map prefixRec)
        = ([([0], 0), ([], 1), ([0, 0], 2)].mergeSort (fun a b => padded 16 a.1 ≤ padded 16 b.1)).map prefixRec ∧
      (∃ (t : HashedTable) (ks : List Bytes),
        HashedTable.new.run (fun _ => 7) twoKeys = some t ∧ ks.length = 2 ∧
        ∃ order, t.slotsInKeyOrder = some order ∧ (order.map (fun i => ks.getD i [])).Pairwise (· < ·)) ∧
      radixByFirst [(257, 0, 0), (1, 0, 1), (257, 0, 2)]
        = [(257, 0, 0), (1, 0, 1), (257, 0, 2)].mergeSort (fun x y => x.1 ≤ y.1) ∧
      gallopPoint (fun n => n < 3) [0, 1, 2, 3, 4] = slicePoint (fun n => n < 3) [0, 1, 2, 3, 4] := by
  obtain ⟨hzero, htable, hrun, hfirst, hgallop⟩ := key_order_sorts (fun _ => 7)
  obtain ⟨t, ks, ht, hkeys, hnodup, hmem⟩ := hrun _ (meetsAll_twoKeys _)
  obtain ⟨order, horder, -, hiff⟩ := htable t ks hkeys
  have htwo : ks.Perm [[1], [3]] := by
    refine (List.perm_ext_iff_of_nodup hnodup (by decide)).mpr (fun k => ?_)
    rw [hmem]
    have hkeys : ∀ r ∈ twoKeys.flatMap TableOp.records, r.key ∈ [[1], [3]] := by decide
    have hwritten : ∀ k ∈ ([[1], [3]] : List Bytes), ∃ r ∈ twoKeys.flatMap TableOp.records,
      r.key = k := by decide
    exact ⟨fun ⟨r, hr, hk⟩ => hk ▸ hkeys r hr, hwritten k⟩
  exact ⟨hzero _, ⟨t, ks, ht, htwo.length_eq, order, horder, hiff.mpr hnodup⟩, hfirst _ (by decide),
    hgallop _ _ (by decide)⟩

/-- **Two entries of one key**: an empty key is appended and one of `2 ^ 16` bytes, and both entries
keep the empty key, so no order of them strictly increases. -/
theorem slotsInKeyOrder_ties :
    ∃ t ks, HashedTable.new.run (fun _ => 7)
      [.append [] [1], .append (List.replicate (2 ^ 16) 0) [1]] = some t ∧
      t.entries.mapM t.keyOf = some ks ∧
      ∃ order, t.slotsInKeyOrder = some order ∧
      ¬ (order.map (fun i => ks.getD i [])).Pairwise (· < ·) := by
  have hlen : (List.replicate (2 ^ 16) 0 : Bytes).length = 2 ^ 16 := List.length_replicate
  generalize (List.replicate (2 ^ 16) 0 : Bytes) = key at hlen ⊢
  have hnew : HashedTable.new.Ok (fun _ => 7) [] [] := HashedTable.new_ok
  have hmeets : PushMeets HashedTable.new.vals (some [1]) := by decide
  have hroom : ∀ p ∈ HashedTable.new.keys.reserve ([] : Bytes).length, p.2 < 2 ^ 32 := by
    intro p hp
    rw [ByteArena.reserve_new hp]
    decide
  have habsent : ([] : Bytes) ∉ ([] : List Bytes) := List.not_mem_nil
  obtain ⟨t, happend, hread, hvals, hkeys⟩ :=
    hnew.append_absent habsent hmeets (by decide) hroom (by decide)
  obtain ⟨t', off, ks, hwrite, hok, -, -, -⟩ := hnew.write (.put [] [1]) hmeets
    (fun _ => ⟨by decide, by decide, hroom, by decide⟩)
  have hsame : t' = t := Option.some.inj (hwrite.symm.trans happend)
  subst hsame
  have hks : ks = [[]] := Option.some.inj (hok.toHeld.mapM_keyOf.symm.trans hread)
  subst hks
  -- the arenas have room behind the first entry
  have hvals :
    t'.vals = { (ByteArena.new.grow ARENA_BLOCK).take 13 with blocks := t'.vals.blocks } :=
    hvals ((ByteArena.new.grow ARENA_BLOCK).take 13, 0) rfl
  have hkeys :
    t'.keys = { (ByteArena.new.grow ARENA_BLOCK).take 0 with blocks := t'.keys.blocks } :=
    hkeys ((ByteArena.new.grow ARENA_BLOCK).take 0, 0) rfl
  have hkey : key ∉ [([] : Bytes)] := by
    intro hmem
    rw [List.mem_singleton.mp hmem] at hlen
    exact absurd hlen (by decide)
  have hmeets' : PushMeets t'.vals (some [1]) := by
    rw [hvals]
    show PushMeets ((ByteArena.new.grow ARENA_BLOCK).take 13) (some [1])
    decide
  have htakes : t'.keys.Takes key.length 0 := by
    rw [hkeys, hlen]
    show ((ByteArena.new.grow ARENA_BLOCK).take 0).Takes (2 ^ 16) 0
    decide
  have hroom' : ∀ p ∈ t'.keys.reserve key.length, p.2 < 2 ^ 32 := by
    intro p hp
    have hfits : ¬ ((ByteArena.new.grow ARENA_BLOCK).take 0).Fresh (2 ^ 16) := by decide
    have hfits' : ¬ t'.keys.Fresh (2 ^ 16) := by
      rw [hkeys]
      exact hfits
    rw [hlen, ByteArena.reserve, if_neg hfits', Option.mem_some_iff] at hp
    rw [← hp, hkeys]
    show ((ByteArena.new.grow ARENA_BLOCK).take 0).tail < 2 ^ 32
    decide
  have hfew : t'.len < SLAB_MAX := by
    rw [HashedTable.len, hok.entries.length]
    decide
  obtain ⟨t, happend', hread', -, -⟩ := hok.append_absent hkey hmeets' htakes hroom' hfew
  rw [hlen] at hread'
  obtain ⟨order, horder, -, hiff⟩ := HashedTable.slotsInKeyOrder_iff hread'
  refine ⟨t, _, ?_, hread', order, horder, fun hlt => ?_⟩
  · rw [HashedTable.run, List.foldlM_cons]
    show (HashedTable.new.append (7 : UInt64).toNat [] [1]).bind _ = _
    rw [happend, Option.bind_some, List.foldlM_cons]
    show (t'.append (7 : UInt64).toNat key [1]).bind _ = _
    rw [happend']
    rfl
  · exact absurd (hiff.mp hlt) (by simp)

end Tables

end Supdb
