import Supdb.MergeWalk
import Supdb.Wal

/-!
# The live table

Everything committed and not yet in a segment stands in a table in memory.  A **hashed** table takes
any write; an **ordered** one takes appends of ascending keys, one value each, and is searched by
halving.

* `liveValues` – what a run of writes leaves a key: the values appended since its last delete.
* `WalRecord.delta`, `recordsDelta` – the same as deltas, which compose over any cut of the writes.
* `slotOf_eq_some_iff` – **the search of an ordered table is exact** where its keys ascend.
* `sealedEntries`, `pieceEntries` – the segments a hashed table and a direct run's records become,
  and `deltaIn_sealedEntries`, `deltaIn_pieceEntries`, that they say of every key what those say.
-/

namespace Supdb

open StorageLib

/-! ## What writes leave a key -/

/-- The key a record is about. -/
def WalRecord.key : WalRecord → Bytes
  | .put key _ => key
  | .delete key => key

/-- What a record says of a key. -/
def WalRecord.delta (r : WalRecord) (k : Bytes) : Delta Bytes :=
  match r with
  | .put key value => if key = k then ⟨false, [value]⟩ else 1
  | .delete key => if key = k then ⟨true, []⟩ else 1

/-- What records say of a key together, in their order. -/
def recordsDelta (rs : List WalRecord) (k : Bytes) : Delta Bytes :=
  (rs.map (fun r => r.delta k)).prod

/-- The values a run of writes leaves a key: those appended since its last delete, in order. -/
def liveValues (rs : List WalRecord) (k : Bytes) : List Bytes :=
  rs.foldl (fun vs r =>
    match r with
    | .put key value => if key = k then vs ++ [value] else vs
    | .delete key => if key = k then [] else vs) []

section Deltas

variable (rs ss : List WalRecord) (k : Bytes)

@[simp] lemma recordsDelta_nil : recordsDelta [] k = 1 := rfl

lemma recordsDelta_cons (r : WalRecord) :
    recordsDelta (r :: rs) k = r.delta k * recordsDelta rs k := by
  rw [recordsDelta, List.map_cons, List.prod_cons]
  rfl

lemma recordsDelta_append : recordsDelta (rs ++ ss) k = recordsDelta rs k * recordsDelta ss k := by
  rw [recordsDelta, List.map_append, List.prod_append]
  rfl

lemma recordsDelta_flatten (bs : List (List WalRecord)) :
    recordsDelta bs.flatten k = (bs.map (fun b => recordsDelta b k)).prod := by
  induction bs with
  | nil => rfl
  | cons b bs ih => rw [List.flatten_cons, recordsDelta_append, ih, List.map_cons, List.prod_cons]

lemma WalRecord.delta_of_ne {r : WalRecord} {k : Bytes} (h : r.key ≠ k) : r.delta k = 1 := by
  cases r with
  | put key value => exact if_neg h
  | delete key => exact if_neg h

/-- Records of other keys say nothing of a key. -/
lemma recordsDelta_eq_one {rs : List WalRecord} {k : Bytes} (h : ∀ r ∈ rs, r.key ≠ k) :
    recordsDelta rs k = 1 := by
  induction rs with
  | nil => rfl
  | cons r rs ih =>
      obtain ⟨hr, hrs⟩ := List.forall_mem_cons.mp h
      rw [recordsDelta_cons, WalRecord.delta_of_ne hr, ih hrs, one_mul]

/-- **The values the deltas of a run of writes end with** are those the writes leave the key. -/
lemma vals_recordsDelta : (recordsDelta rs k).vals = liveValues rs k := by
  induction rs using List.reverseRecOn with
  | nil => rfl
  | append_singleton rs r ih =>
      rw [recordsDelta_append, recordsDelta_cons, recordsDelta_nil, mul_one, Delta.vals_mul,
        liveValues, List.foldl_append, List.foldl_cons, List.foldl_nil, ← liveValues, ← ih]
      cases r with
      | put key value =>
          rw [WalRecord.delta]
          split_ifs <;> simp_all
      | delete key =>
          rw [WalRecord.delta]
          split_ifs <;> simp_all

/-- A run of writes masks a key where it deletes it. -/
lemma masks_recordsDelta : (recordsDelta rs k).masks = true ↔ WalRecord.delete k ∈ rs := by
  induction rs with
  | nil => simp
  | cons r rs ih =>
      rw [recordsDelta_cons, Delta.masks_mul, Bool.or_eq_true, ih, List.mem_cons]
      refine or_congr_left ?_
      cases r with
      | put key value =>
          rw [WalRecord.delta]
          split_ifs <;> simp
      | delete key =>
          rw [WalRecord.delta]
          split_ifs with hk
          · simp [hk]
          · simpa using Ne.symm hk

end Deltas

/-! ## The search of an ordered table -/

/-- The halving loop of `slot_of`. -/
def slotSearch (keys : List Bytes) (key : Bytes) (lo hi : ℕ) : Option ℕ :=
  if lo < hi then
    let m := lo + (hi - lo) / 2
    if keys.getD m [] < key then slotSearch keys key (m + 1) hi
    else if key < keys.getD m [] then slotSearch keys key lo m
    else some m
  else none
termination_by hi - lo
decreasing_by all_goals omega

/-- `MemTable::slot_of` of an ordered table: its first and last entries fence it. -/
def slotOf (keys : List Bytes) (key : Bytes) (upto : ℕ) : Option ℕ :=
  let n := min keys.length upto
  if n = 0 then none
  else if key < keys.getD 0 [] then none
  else if keys.getD 0 [] = key then some 0
  else if keys.getD (n - 1) [] < key then none
  else if keys.getD (n - 1) [] = key then some (n - 1)
  else slotSearch keys key 1 (n - 1)

section Slots

variable {keys : List Bytes} {key : Bytes}

lemma getD_lt_getD (hsorted : keys.Pairwise (· < ·)) {i j : ℕ} (hij : i < j)
    (hj : j < keys.length) : keys.getD i [] < keys.getD j [] := by
  have hi : i < keys.length := hij.trans hj
  rw [← List.getElem_eq_getD (h := hi) [], ← List.getElem_eq_getD (h := hj) []]
  exact List.pairwise_iff_getElem.mp hsorted i j hi hj hij

lemma getElem?_eq_some_iff_getD {i : ℕ} (hi : i < keys.length) :
    keys[i]? = some key ↔ keys.getD i [] = key := by
  rw [List.getElem?_eq_getElem hi, Option.some.injEq, List.getElem_eq_getD []]

/-- The loop finds the key between its bounds. -/
lemma slotSearch_eq_some_iff (hsorted : keys.Pairwise (· < ·)) {lo hi : ℕ} (hhi : hi ≤ keys.length)
    (i : ℕ) :
    slotSearch keys key lo hi = some i ↔ lo ≤ i ∧ i < hi ∧ keys.getD i [] = key := by
  induction lo, hi using slotSearch.induct keys key with
  | case1 lo hi hlt m hmid ih =>
      rw [slotSearch, if_pos hlt]
      simp only
      rw [if_pos hmid, ih hhi]
      refine ⟨fun ⟨h1, h2, h3⟩ => ⟨by omega, h2, h3⟩, fun ⟨h1, h2, h3⟩ => ⟨?_, h2, h3⟩⟩
      by_contra hle
      rcases Nat.lt_or_eq_of_le (by omega : i ≤ m) with him | rfl
      · have := getD_lt_getD hsorted him (by omega)
        rw [h3] at this
        exact absurd (this.trans hmid) (lt_irrefl _)
      · exact absurd (h3 ▸ hmid) (lt_irrefl _)
  | case2 lo hi hlt m hmid hgt ih =>
      rw [slotSearch, if_pos hlt]
      simp only
      rw [if_neg hmid, if_pos hgt, ih (by omega)]
      refine ⟨fun ⟨h1, h2, h3⟩ => ⟨h1, by omega, h3⟩, fun ⟨h1, h2, h3⟩ => ⟨h1, ?_, h3⟩⟩
      by_contra hle
      rcases Nat.lt_or_eq_of_le (by omega : m ≤ i) with him | rfl
      · have := getD_lt_getD hsorted him (by omega)
        rw [h3] at this
        exact absurd (hgt.trans this) (lt_irrefl _)
      · exact absurd (h3 ▸ hgt) (lt_irrefl _)
  | case3 lo hi hlt m hmid hgt =>
      have heq : keys.getD m [] = key := le_antisymm (not_lt.mp hgt) (not_lt.mp hmid)
      rw [slotSearch, if_pos hlt]
      simp only
      rw [if_neg hmid, if_neg hgt, Option.some.injEq]
      refine ⟨fun h => h ▸ ⟨by omega, by omega, heq⟩, fun ⟨h1, h2, h3⟩ => ?_⟩
      by_contra hne
      rcases Nat.lt_or_gt_of_ne hne with hlt' | hlt'
      · have := getD_lt_getD hsorted hlt' (by omega)
        rw [h3, heq] at this
        exact lt_irrefl _ this
      · have := getD_lt_getD hsorted hlt' (by omega)
        rw [h3, heq] at this
        exact lt_irrefl _ this
  | case4 lo hi hge =>
      rw [slotSearch, if_neg hge]
      exact ⟨fun h => absurd h (by simp), fun ⟨h1, h2, _⟩ => absurd (lt_of_le_of_lt h1 h2) hge⟩

/-- **The search is exact**: where the keys ascend it finds a key of the table's first `upto`, at
its own slot, and no other. -/
lemma slotOf_eq_some_iff (hsorted : keys.Pairwise (· < ·)) (upto i : ℕ) :
    slotOf keys key upto = some i ↔ i < upto ∧ keys[i]? = some key := by
  set n := min keys.length upto with hn
  have hle : n ≤ keys.length := Nat.min_le_left _ _
  have hiff : (i < upto ∧ keys[i]? = some key) ↔ i < n ∧ keys.getD i [] = key := by
    refine ⟨fun ⟨h1, h2⟩ => ?_, fun ⟨h1, h2⟩ => ⟨by omega, ?_⟩⟩
    · have hi : i < keys.length := (List.getElem?_eq_some_iff.mp h2).1
      exact ⟨by omega, (getElem?_eq_some_iff_getD hi).mp h2⟩
    · exact (getElem?_eq_some_iff_getD (by omega)).mpr h2
  -- two slots of the table hold different keys
  have hinj : ∀ j, i < n → j < n → keys.getD i [] = keys.getD j [] → i = j := by
    intro j hi hj heq
    by_contra hne
    rcases Nat.lt_or_gt_of_ne hne with hlt | hlt
    · exact absurd heq (ne_of_lt (getD_lt_getD hsorted hlt (by omega)))
    · exact absurd heq.symm (ne_of_lt (getD_lt_getD hsorted hlt (by omega)))
  rw [hiff, slotOf]
  simp only [← hn]
  by_cases hzero : n = 0
  · rw [if_pos hzero]
    exact ⟨fun h => absurd h (by simp), fun ⟨h, _⟩ => absurd h (by omega)⟩
  rw [if_neg hzero]
  by_cases hfirst : key < keys.getD 0 []
  · rw [if_pos hfirst]
    refine ⟨fun h => absurd h (by simp), fun ⟨h1, h2⟩ => ?_⟩
    rcases Nat.eq_zero_or_pos i with rfl | hpos
    · exact absurd (h2 ▸ hfirst) (lt_irrefl _)
    · have := getD_lt_getD hsorted hpos (by omega : i < keys.length)
      rw [h2] at this
      exact absurd (hfirst.trans this) (lt_irrefl _)
  rw [if_neg hfirst]
  by_cases hat : keys.getD 0 [] = key
  · rw [if_pos hat, Option.some.injEq]
    refine ⟨fun h => h ▸ ⟨by omega, hat⟩, fun ⟨h1, h2⟩ => ?_⟩
    exact (hinj 0 h1 (by omega) (h2.trans hat.symm)).symm
  rw [if_neg hat]
  by_cases hlast : keys.getD (n - 1) [] < key
  · rw [if_pos hlast]
    refine ⟨fun h => absurd h (by simp), fun ⟨h1, h2⟩ => ?_⟩
    rcases Nat.lt_or_eq_of_le (by omega : i ≤ n - 1) with hlt | rfl
    · have := getD_lt_getD hsorted hlt (by omega : n - 1 < keys.length)
      rw [h2] at this
      exact absurd (this.trans hlast) (lt_irrefl _)
    · exact absurd (h2 ▸ hlast) (lt_irrefl _)
  rw [if_neg hlast]
  by_cases hend : keys.getD (n - 1) [] = key
  · rw [if_pos hend, Option.some.injEq]
    refine ⟨fun h => h ▸ ⟨by omega, hend⟩, fun ⟨h1, h2⟩ => ?_⟩
    exact (hinj (n - 1) h1 (by omega) (h2.trans hend.symm)).symm
  rw [if_neg hend, slotSearch_eq_some_iff hsorted (by omega)]
  refine ⟨fun ⟨h1, h2, h3⟩ => ⟨by omega, h3⟩, fun ⟨h1, h2⟩ => ⟨?_, ?_, h2⟩⟩
  · rcases Nat.eq_zero_or_pos i with rfl | hpos
    · exact absurd h2 hat
    · exact hpos
  · rcases Nat.lt_or_eq_of_le (by omega : i ≤ n - 1) with hlt | rfl
    · exact hlt
    · exact absurd h2 hend

end Slots

/-! ## The table -/

/-- A live table: hashed, the writes it took in their order, or ordered, its entries. -/
inductive MemTable where
  | hashed (ops : List WalRecord)
  | ordered (entries : List (Bytes × Bytes))
  deriving DecidableEq, Repr

/-- A pair appended, as the record of the log it would have been. -/
def asPut (e : Bytes × Bytes) : WalRecord := .put e.1 e.2

namespace MemTable

/-- An empty hashed table: `MemTable::new`. -/
def fresh : MemTable := .hashed []

def isOrdered : MemTable → Bool
  | hashed _ => false
  | ordered _ => true

/-- The writes a table took. -/
def records : MemTable → List WalRecord
  | hashed ops => ops
  | ordered es => es.map asPut

/-- The entries of an ordered table. -/
def entries : MemTable → List (Bytes × Bytes)
  | hashed _ => []
  | ordered es => es

def isEmpty (t : MemTable) : Bool := t.records.isEmpty

/-- `MemTable::append`: behind a hashed table's writes, or at an ordered one's end. -/
def append (t : MemTable) (key value : Bytes) : MemTable :=
  match t with
  | hashed ops => hashed (ops ++ [.put key value])
  | ordered es => ordered (es ++ [(key, value)])

/-- `MemTable::put` and `MemTable::delete`, which an ordered table asserts never reach it. -/
def write (t : MemTable) (rs : List WalRecord) : Option MemTable :=
  match t with
  | hashed ops => some (hashed (ops ++ rs))
  | ordered _ => none

/-- `MemTable::truncate_entries`. -/
def truncate (t : MemTable) (n : ℕ) : MemTable :=
  match t with
  | hashed ops => hashed ops
  | ordered es => ordered (es.take n)

/-- What a read finds of a key in the table. -/
def read (t : MemTable) (k : Bytes) : Delta Bytes :=
  match t with
  | hashed ops => recordsDelta ops k
  | ordered es =>
      match slotOf (es.map Prod.fst) k es.length with
      | some i => ⟨false, (es[i]?).toList.map Prod.snd⟩
      | none => 1

/-- An ordered table's keys ascend. -/
def Sorted (t : MemTable) : Prop := (t.entries.map Prod.fst).Pairwise (· < ·)

end MemTable

section Reads

variable {es : List (Bytes × Bytes)} {k : Bytes}

/-- Entries of ascending keys say of a key what the one that holds it does. -/
lemma recordsDelta_asPut (hsorted : (es.map Prod.fst).Pairwise (· < ·)) {i : ℕ} {v : Bytes}
    (hi : es[i]? = some (k, v)) : recordsDelta (es.map asPut) k = ⟨false, [v]⟩ := by
  induction es generalizing i with
  | nil => exact absurd hi (by simp)
  | cons e es ih =>
      rw [List.map_cons, List.pairwise_cons] at hsorted
      rw [List.map_cons, recordsDelta_cons]
      cases i with
      | zero =>
          rw [List.getElem?_cons_zero, Option.some.injEq] at hi
          subst hi
          have hrest : recordsDelta (es.map asPut) k = 1 := by
            refine recordsDelta_eq_one (fun r hr => ?_)
            obtain ⟨e', he', rfl⟩ := List.mem_map.mp hr
            exact (hsorted.1 e'.1 (List.mem_map_of_mem he')).ne'
          rw [hrest, mul_one]
          exact if_pos rfl
      | succ i =>
          rw [List.getElem?_cons_succ] at hi
          have hne : (asPut e).key ≠ k :=
            (hsorted.1 k (List.mem_map_of_mem (List.mem_of_getElem? hi))).ne
          rw [WalRecord.delta_of_ne hne, one_mul]
          exact ih hsorted.2 hi

/-- **A read of a table** finds what its writes leave the key. -/
lemma MemTable.read_eq {t : MemTable} (hsorted : t.Sorted) (k : Bytes) :
    t.read k = recordsDelta t.records k := by
  cases t with
  | hashed ops => rfl
  | ordered es =>
      have hes : (es.map Prod.fst).Pairwise (· < ·) := hsorted
      rw [MemTable.read]
      cases hslot : slotOf (es.map Prod.fst) k es.length with
      | none =>
          refine (recordsDelta_eq_one (fun r hr => ?_)).symm
          obtain ⟨e, he, rfl⟩ := List.mem_map.mp hr
          rintro (rfl : e.1 = k)
          obtain ⟨i, hi⟩ := List.mem_iff_getElem?.mp he
          have hfound : slotOf (es.map Prod.fst) e.1 es.length = some i := by
            refine (slotOf_eq_some_iff hes es.length i).mpr ⟨(List.getElem?_eq_some_iff.mp hi).1, ?_⟩
            rw [List.getElem?_map, hi]
            rfl
          rw [hslot] at hfound
          exact absurd hfound (by simp)
      | some i =>
          obtain ⟨-, hkey⟩ := (slotOf_eq_some_iff hes es.length i).mp hslot
          rw [List.getElem?_map, Option.map_eq_some_iff] at hkey
          obtain ⟨⟨k', v⟩, hi, rfl⟩ := hkey
          simp only [hi]
          exact (recordsDelta_asPut hes hi).symm

end Reads

/-! ## The segments tables become -/

/-- A hashed table's keys, each once, in order: `slots_in_key_order`. -/
def slotsInKeyOrder (ops : List WalRecord) : List Bytes :=
  ((ops.map WalRecord.key).dedup).insertionSort (· ≤ ·)

/-- The segment a hashed table becomes: of each key the values after its newest tombstone, and
whether there was one. -/
def sealedEntries (ops : List WalRecord) : List Entry :=
  (slotsInKeyOrder ops).map (fun k => ⟨k, (recordsDelta ops k).vals, (recordsDelta ops k).masks⟩)

/-- The segment a direct run's records are. -/
def pieceEntries (es : List (Bytes × Bytes)) : List Entry := es.map (fun e => ⟨e.1, [e.2], false⟩)

section Segments

lemma find?_entries {keys : List Bytes} {f : Bytes → Entry} (hf : ∀ k, (f k).key = k) (k : Bytes) :
    (keys.map f).find? (fun e => e.key = k) = if k ∈ keys then some (f k) else none := by
  induction keys with
  | nil => rfl
  | cons a keys ih =>
      rw [List.map_cons, List.find?_cons, hf]
      by_cases ha : a = k
      · simp [ha]
      · simp [ha, ih, Ne.symm ha]

/-- **A hashed table's segment** says of every key what the table's writes do. -/
lemma deltaIn_sealedEntries (ops : List WalRecord) (k : Bytes) :
    deltaIn (sealedEntries ops) k = recordsDelta ops k := by
  have hmem : k ∈ slotsInKeyOrder ops ↔ k ∈ ops.map WalRecord.key := by
    rw [slotsInKeyOrder, List.mem_insertionSort, List.mem_dedup]
  rw [deltaIn, sealedEntries, find?_entries (fun _ => rfl)]
  by_cases hk : k ∈ slotsInKeyOrder ops
  · rw [if_pos hk]
  · rw [if_neg hk]
    refine (recordsDelta_eq_one (fun r hr heq => hk ?_)).symm
    exact hmem.mpr (heq ▸ List.mem_map_of_mem hr)

/-- **A direct run's segment** says of every key what its records do. -/
lemma deltaIn_pieceEntries {es : List (Bytes × Bytes)}
    (hsorted : (es.map Prod.fst).Pairwise (· < ·))
    (k : Bytes) : deltaIn (pieceEntries es) k = recordsDelta (es.map asPut) k := by
  rw [deltaIn]
  cases hfind : (pieceEntries es).find? (fun e => e.key = k) with
  | none =>
      refine (recordsDelta_eq_one (fun r hr heq => ?_)).symm
      obtain ⟨e, he, rfl⟩ := List.mem_map.mp hr
      have := List.find?_eq_none.mp hfind ⟨e.1, [e.2], false⟩ (List.mem_map.mpr ⟨e, he, rfl⟩)
      exact this (decide_eq_true heq)
  | some x =>
      obtain ⟨e, he, rfl⟩ := List.mem_map.mp (List.mem_of_find?_eq_some hfind)
      have hkey : e.1 = k := by simpa using List.find?_some hfind
      obtain ⟨i, hi⟩ := List.mem_iff_getElem?.mp he
      have hi' : es[i]? = some (k, e.2) := by rw [hi, ← hkey]
      exact (recordsDelta_asPut hsorted hi').symm

end Segments

end Supdb
