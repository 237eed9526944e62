import Supdb.HashedChains

/-!
# The index of a hashed table

A slot holds the high half of a hash over an entry's number plus one.

* `Indexed` – the words placed in an index are reached from their hash's home, and it holds no
  others.
* `indexInsert_spec` – **an insertion**, with the rebuild it may make, leaves an index of every
  entry.  A rebuild has placed the new entry already, so the insertion behind it leaves its word
  twice.
* `probe_spec` – **a probe** finds the entry that holds a key, and no other.
-/

namespace Supdb

open StorageLib HashedTable

/-- The word of a hash's high half and an entry's number. -/
def wordOf (p : ℕ × ℕ) : ℕ := p.1 * 2 ^ 32 + (p.2 + 1)

/-- **An index filled** with words, one after another: each is reached from its home, and nothing
else is there. -/
structure Indexed (slots : List ℕ) (ids : List (ℕ × ℕ)) : Prop where
  reach : ∀ p ∈ ids, Reaches 0 slots (p.1 % slots.length) (wordOf p)
  only : ∀ s ∈ slots, s ≠ 0 → ∃ p ∈ ids, s = wordOf p
  free : slots.length = slots.count 0 + ids.length

/-- **An index of entries**, given the high halves of their hashes: a power of two of slots, at most
half of them for entries. -/
structure IndexOk (slots : List ℕ) (hs : List ℕ) : Prop where
  size : ∃ m, slots.length = 2 ^ m
  wide : 4 ≤ slots.length
  load : hs.length * 2 ≤ slots.length
  words : ∃ ids, Indexed slots ids ∧ (∀ p, p ∈ ids ↔ hs[p.2]? = some p.1) ∧
    ids.length ≤ hs.length + 1

section Words

variable {slots : List ℕ} {ids : List (ℕ × ℕ)} {hs : List ℕ} {hash id m : ℕ} {p : ℕ × ℕ}

lemma wordOf_ne_zero : wordOf p ≠ 0 := by
  rw [wordOf]
  omega

lemma indexWord_eq (hid : id + 1 < 2 ^ 32) : indexWord hash id = wordOf (hash / 2 ^ 32, id) := by
  rw [indexWord, wordOf, ← Nat.shiftLeft_add_eq_or_of_lt hid, Nat.shiftLeft_eq]

lemma wordOf_div (hid : p.2 + 1 < 2 ^ 32) : wordOf p / 2 ^ 32 = p.1 := by
  rw [wordOf]
  omega

lemma wordOf_mod (hid : p.2 + 1 < 2 ^ 32) : wordOf p % 2 ^ 32 = p.2 + 1 := by
  rw [wordOf]
  omega

lemma homeOf_eq (hsize : slots.length = 2 ^ m) :
    homeOf hash (slots.length - 1) = hash / 2 ^ 32 % slots.length := by
  rw [homeOf, hsize, Nat.and_two_pow_sub_one_eq_mod]

lemma next_eq (hsize : slots.length = 2 ^ m) (s : ℕ) :
    (s + 1) &&& (slots.length - 1) = (s + 1) % slots.length := by
  rw [hsize, Nat.and_two_pow_sub_one_eq_mod]

lemma indexed_replicate (n : ℕ) : Indexed (List.replicate n 0) [] :=
  ⟨fun p hp => absurd hp List.not_mem_nil, fun s hs hne => absurd (List.eq_of_mem_replicate hs)
    hne, by simp⟩

/-- A word placed. -/
lemma Indexed.place (hash : ℕ) (h : Indexed slots ids) (hsize : slots.length = 2 ^ m)
    (hroom : ids.length < slots.length) (hid : id + 1 < 2 ^ 32) :
    ∃ slots', placeWord slots hash id = some slots' ∧ slots'.length = slots.length ∧
      Indexed slots' (ids ++ [(hash / 2 ^ 32, id)]) := by
  have hpos : 0 < slots.length := by omega
  have hempty : 0 ∈ slots := List.count_pos_iff.mp (by have := h.free; omega)
  obtain ⟨slots', hplace, hlen, hcount, hsub, hreach, hkept⟩ :=
    place_spec (next_eq hsize)
      (Nat.mod_lt (hash / 2 ^ 32) hpos) hempty (wordOf_ne_zero (p := (hash / 2 ^ 32, id)))
  refine ⟨slots', ?_, hlen, fun p hp => ?_, fun s hs hne => ?_, ?_⟩
  · rw [placeWord, homeOf_eq hsize, indexWord_eq hid]
    exact hplace
  · rw [hlen]
    rcases List.mem_append.mp hp with hp | hp
    · exact hkept _ _ wordOf_ne_zero (h.reach p hp)
    · rw [List.mem_singleton.mp hp]
      exact hreach
  · rcases hsub s hs with rfl | hs
    · exact ⟨_, List.mem_append_right _ (List.mem_singleton_self _), rfl⟩
    · obtain ⟨p, hp, rfl⟩ := h.only s hs hne
      exact ⟨p, List.mem_append_left _ hp, rfl⟩
  · rw [hlen, List.length_append, List.length_singleton, h.free]
    omega

/-- Words placed one after another, by what an entry keeps of its hash. -/
lemma Indexed.placeAll {es : List (MemEntry × ℕ)} (h : Indexed slots ids)
    (hsize : slots.length = 2 ^ m) (hroom : ids.length + es.length ≤ slots.length)
    (hid : ∀ e ∈ es, e.2 + 1 < 2 ^ 32) :
    ∃ slots', es.foldlM (fun slots e => placeWord slots (e.1.hash * 2 ^ 32) e.2) slots
      = some slots' ∧
      slots'.length = slots.length ∧ Indexed slots' (ids ++ es.map (fun e => (e.1.hash, e.2))) := by
  induction es generalizing slots ids with
  | nil => exact ⟨slots, rfl, rfl, by simpa using h⟩
  | cons e es ih =>
      rw [List.length_cons] at hroom
      obtain ⟨slots₁, hplace, hlen₁, h₁⟩ :=
        h.place (e.1.hash * 2 ^ 32) hsize (by omega) (hid e (List.mem_cons_self ..))
      rw [Nat.mul_div_cancel _ (by norm_num)] at h₁
      obtain ⟨slots', hfold, hlen, h'⟩ := ih h₁ (hlen₁.trans hsize)
        (by rw [List.length_append, List.length_singleton, hlen₁]; omega)
        (fun e he => hid e (List.mem_cons_of_mem _ he))
      refine ⟨slots', ?_, hlen.trans hlen₁, ?_⟩
      · rw [List.foldlM_cons, hplace]
        exact hfold
      · rw [List.append_assoc] at h'
        exact h'

end Words

section Inserts

variable {t : HashedTable} {hs : List ℕ}

lemma indexOk_new : IndexOk HashedTable.new.slots [] := by
  have hlen : HashedTable.new.slots.length = 2 ^ 10 := List.length_replicate ..
  refine ⟨⟨10, hlen⟩, by rw [hlen]; norm_num, Nat.zero_le _, [], indexed_replicate 1024, fun p => ?_, Nat.zero_le _⟩
  simp

/-- **An insertion**: the entry just pushed is in the index, behind a rebuild where the index is
half full. -/
lemma indexInsert_spec (hash : ℕ) (h : IndexOk t.slots hs)
    (hhs : t.entries.map MemEntry.hash = hs ++ [hash / 2 ^ 32]) (hmax : t.len ≤ SLAB_MAX) :
    ∃ slots, t.indexInsert hash hs.length = some { t with slots := slots } ∧
      IndexOk slots (hs ++ [hash / 2 ^ 32]) := by
  obtain ⟨⟨m, hsize⟩, hwide, hload, ids, hids, hmem, hcount⟩ := h
  have hlen : t.len = hs.length + 1 := by
    have := congrArg List.length hhs
    rw [List.length_map, List.length_append, List.length_singleton] at this
    exact this
  rw [SLAB_MAX] at hmax
  have hid : hs.length + 1 < 2 ^ 32 := by omega
  have hsnoc : ∀ p : ℕ × ℕ, (p ∈ ids ∨ p = (hash / 2 ^ 32, hs.length)) ↔
    (hs ++ [hash / 2 ^ 32])[p.2]? = some p.1 := by
    intro p
    rw [hmem, List.getElem?_append]
    split_ifs with hlt
    · refine ⟨fun hp => hp.resolve_right (fun heq => ?_), Or.inl⟩
      rw [heq] at hlt
      exact absurd hlt (lt_irrefl _)
    · rw [List.getElem?_eq_none (not_lt.mp hlt), List.getElem?_singleton]
      obtain ⟨h, i⟩ := p
      simp only [Prod.mk.injEq, reduceCtorEq, false_or]
      split_ifs with hi
      · rw [Option.some.injEq]
        exact ⟨fun hp => hp.1.symm, fun hp => ⟨hp.symm, by simp only at hlt; omega⟩⟩
      · exact ⟨fun hp => absurd (by omega) hi, fun hp => absurd hp (by simp)⟩
  rw [HashedTable.indexInsert]
  by_cases hfull : t.slots.length < t.len * 2
  · have hdouble : (List.replicate (t.slots.length * 2) 0 : List ℕ).length = 2 ^ (m + 1) := by
      rw [List.length_replicate, hsize, pow_succ]
    have hcap : 2 ^ (m + 1) = t.slots.length * 2 := by rw [hsize, pow_succ]
    have hzip : t.entries.zipIdx.length = hs.length + 1 := by
      rw [List.length_zipIdx]
      exact hlen
    have hnumber : ∀ e ∈ t.entries.zipIdx, e.2 + 1 < 2 ^ 32 := by
      intro e he
      have := List.snd_lt_of_mem_zipIdx he
      have hlen' : t.entries.length = hs.length + 1 := hlen
      omega
    obtain ⟨slots₁, hfold, hlen₁, h₁⟩ := (indexed_replicate (t.slots.length * 2)).placeAll hdouble
      (by rw [List.length_nil, hdouble, hcap, hzip]; omega) hnumber
    rw [hdouble] at hlen₁
    have hplaced : t.entries.zipIdx.map (fun e => (e.1.hash, e.2))
      = (hs ++ [hash / 2 ^ 32]).zipIdx := by
      rw [← hhs, List.zipIdx_map]
      rfl
    rw [hplaced, List.nil_append] at h₁
    obtain ⟨slots, hplace, hlen', hslots⟩ := h₁.place hash hlen₁
      (by rw [List.length_zipIdx, List.length_append, List.length_singleton, hlen₁, hcap]; omega)
      hid
    rw [hlen₁] at hlen'
    refine ⟨slots, ?_, ⟨m + 1, hlen'⟩, by omega, ?_, _, hslots, fun p => ?_, ?_⟩
    · rw [if_pos hfull, rebuildIndex, hfold]
      simp only [Option.bind_eq_bind, Option.bind_some, hplace]
    · rw [List.length_append, List.length_singleton, hlen', hcap]
      omega
    · -- the entry's own word is among those the rebuild placed
      rw [List.mem_append, List.mem_singleton, List.mem_zipIdx_iff_getElem?, ← hsnoc]
      exact ⟨fun hp => hp.elim id Or.inr, Or.inl⟩
    · rw [List.length_append, List.length_singleton, List.length_zipIdx]
  · rw [if_neg hfull]
    obtain ⟨slots, hplace, hlen', hslots⟩ := hids.place hash hsize (by omega) hid
    refine ⟨slots, ?_, ⟨m, hlen'.trans hsize⟩, by omega, ?_, _, hslots, fun p => ?_, ?_⟩
    · simp only [Option.bind_eq_bind, Option.bind_some, hplace]
    · rw [List.length_append, List.length_singleton, hlen']
      omega
    · rw [List.mem_append, List.mem_singleton]
      exact hsnoc p
    · rw [List.length_append, List.length_append, List.length_singleton]
      exact Nat.add_le_add_right hcount 1

end Inserts

/-! ## Probes -/

/-- The half of a key's hash that an entry keeps. -/
def highOf (hashOf : Bytes → UInt64) (k : Bytes) : ℕ := (hashOf k).toNat / 2 ^ 32

section Probes

variable {t : HashedTable} {hashOf : Bytes → UInt64} {ks : List Bytes} {key : Bytes} {i : ℕ}

/-- What the word of an entry says of a key: whether it is the entry's. -/
lemma slotHolds_wordOf (hkeys : ∀ (i : ℕ) k, ks[i]? = some k → t.entries[i]?.bind t.keyOf = some k)
    {k : Bytes} (hi : ks[i]? = some k) (hsmall : i + 1 < 2 ^ 32) :
    t.slotHolds (hashOf key).toNat key (wordOf (highOf hashOf k, i)) = if k
    = key then some (some i) else none := by
  rw [slotHolds, wordOf_div hsmall, wordOf_mod hsmall]
  simp only [Nat.add_sub_cancel, hkeys i k hi]
  by_cases hk : k = key
  · rw [if_pos hk, if_pos (by rw [hk, highOf])]
  · rw [if_neg hk]
    exact ite_self _

/-- **A probe for a key the table holds** finds its entry. -/
lemma probe_found (h : IndexOk t.slots (ks.map (highOf hashOf))) (hmax : ks.length ≤ SLAB_MAX)
    (hnodup : ks.Nodup) (hkeys : ∀ (i : ℕ) k, ks[i]? = some k → t.entries[i]?.bind t.keyOf = some k)
    (hi : ks[i]? = some key) : t.probe (hashOf key).toNat key = some (some i) := by
  obtain ⟨⟨m, hsize⟩, hwide, -, ids, hids, hmem, -⟩ := h
  rw [SLAB_MAX] at hmax
  have hword : (highOf hashOf key, i) ∈ ids := by
    rw [hmem, List.getElem?_map, hi]
    rfl
  have hsmall : ∀ (j : ℕ) k, ks[j]? = some k → j + 1 < 2 ^ 32 := by
    intro j k hj
    have := (List.getElem?_eq_some_iff.mp hj).1
    omega
  have hprobe : StorageLib.probe 0 (t.slotHolds (hashOf key).toNat key)
      (fun s => (s + 1) &&& t.mask) t.slots
      t.slots.length (homeOf (hashOf key).toNat t.mask) = some (some i) := by
    rw [HashedTable.mask, homeOf_eq hsize]
    refine probe_eq_some (next_eq hsize) (Nat.mod_lt _ (by omega))
      (hids.reach _ hword) wordOf_ne_zero ?_ ?_
    · rw [slotHolds_wordOf hkeys hi (hsmall i key hi), if_pos rfl]
    · intro x hx hne hother
      obtain ⟨p, hp, rfl⟩ := hids.only x hx hne
      have hj := (hmem p).mp hp
      rw [List.getElem?_map, Option.map_eq_some_iff] at hj
      obtain ⟨k, hj, hhigh⟩ := hj
      have hpk : p = (highOf hashOf k, p.2) := by rw [hhigh]
      -- another word is another entry's, and no two entries hold a key
      have hk : k ≠ key := by
        rintro rfl
        have hij : p.2 = i := by
          have h1 := (List.getElem?_eq_some_iff.mp hj)
          have h2 := (List.getElem?_eq_some_iff.mp hi)
          exact (List.Nodup.getElem_inj_iff hnodup).mp (h1.2.trans h2.2.symm)
        rw [hpk, hij] at hother
        exact hother rfl
      rw [hpk, slotHolds_wordOf hkeys hj (hsmall _ k hj), if_neg hk]
  rw [HashedTable.probe, hprobe]

/-- **A probe for a key it does not hold** finds none. -/
lemma probe_absent (hashOf : Bytes → UInt64) (h : IndexOk t.slots (ks.map (highOf hashOf)))
    (hmax : ks.length ≤ SLAB_MAX)
    (hkeys : ∀ (i : ℕ) k, ks[i]? = some k → t.entries[i]?.bind t.keyOf = some k) (hkey : key ∉ ks) :
    t.probe (hashOf key).toNat key = some none := by
  obtain ⟨-, -, -, ids, hids, hmem, -⟩ := h
  rw [SLAB_MAX] at hmax
  have hprobe : StorageLib.probe 0 (t.slotHolds (hashOf key).toNat key)
      (fun s => (s + 1) &&& t.mask) t.slots
      t.slots.length (homeOf (hashOf key).toNat t.mask) = none := by
    refine probe_eq_none _ _ (fun x hx hne => ?_)
    obtain ⟨p, hp, rfl⟩ := hids.only x hx hne
    have hj := (hmem p).mp hp
    rw [List.getElem?_map, Option.map_eq_some_iff] at hj
    obtain ⟨k, hj, hhigh⟩ := hj
    have hlt := (List.getElem?_eq_some_iff.mp hj).1
    have hpk : p = (highOf hashOf k, p.2) := by rw [hhigh]
    have hk : k ≠ key := by
      rintro rfl
      exact hkey (List.mem_of_getElem? hj)
    rw [hpk, slotHolds_wordOf hkeys hj (by omega), if_neg hk]
  rw [HashedTable.probe, hprobe]

end Probes

end Supdb
