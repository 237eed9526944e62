import Supdb.LevelsTables

/-!
# A read of the levels

A read takes the partition its key routes to, the pieces over it, the frozen tables and the live
one, and keeps the values from the newest tombstone on.

* `Levels.leaves` – what a state leaves a key: its live set, its frozen tables and the live one,
  together.
* `route_spec` – the halving loop finds the partition that holds the key.
* `piecesOver_eq` – the pieces over a partition are the level-0 list where some piece is not
  aligned, and otherwise those that begin where it does; either way each that may hold a key of its
  range is there, in order (`mem_piecesOver`).
* **`readAll_leaves`** – a read of a settled state gives the values of what the state leaves the
  key.
-/

namespace Supdb

open StorageLib

namespace Levels

/-- What a state leaves a key. -/
def leaves (h : Levels) (k : Bytes) : Delta Bytes :=
  saysOf h.live k * (h.sealing.map (fun j => recordsDelta j.table k)).prod * recordsDelta h.mem k

end Levels

section Reads

variable {h : Levels} {k : Bytes} {hint : Seg → Bytes → Bool}

/-! ## The partition -/

/-- **A key routes** to the partition that holds it. -/
lemma route_spec (hs : Settled h.live h.queue) (hnodup : h.live.Nodup)
    (hsorted : h.live.Pairwise (fun s t => s.rank ≤ t.rank)) (hne : h.parts ≠ []) (k : Bytes) :
    ∃ p, h.parts[h.route k]? = some p ∧ p.fence.Holds k := by
  have hspans := spans_ranges hs hnodup hsorted
  have hwide : ∀ f ∈ h.ranges, Wide f := fun f hf => hs.wide_range (mem_ranges.mp hf)
  rw [Levels.ranges, if_neg hne] at hspans hwide
  obtain ⟨f, hf, hk⟩ := partitionPoint_spans hspans hwide (full_holds k)
  simp only [List.getElem?_map, List.length_map, Option.bind_map] at hf
  obtain ⟨p, hp, rfl⟩ := Option.map_eq_some_iff.mp hf
  exact ⟨p, hp, hk⟩

/-! ## The pieces -/

lemma pairwise_l0 (hsorted : h.live.Pairwise (fun s t => s.rank ≤ t.rank)) :
    h.l0.Pairwise (fun s t => s.fence.1 ≤ t.fence.1) := by
  refine (hsorted.filter _).imp_of_mem (fun hs ht hle => Seg.le_of_rank ?_ hle)
  rw [(mem_l0.mp hs).2, (mem_l0.mp ht).2]

/-- Of a list in order of a measure, the halving loops for where one value of it begins and ends
take those that have it. -/
lemma take_drop_partitionPoint {α κ : Type} [LinearOrder κ] {l : List α} {f : α → κ} {v : κ}
    {below same : α → Bool}
    (hsorted : l.Pairwise (fun a b => f a ≤ f b)) (hlt : ∀ a, below a = true ↔ f a < v)
    (heq : ∀ a, same a = true ↔ f a = v) :
    let rest := l.drop (partitionPoint (fun i => l[i]?.any below) 0 l.length)
    rest.take (partitionPoint (fun i => rest[i]?.any same) 0 rest.length) = l.filter same := by
  intro rest
  have hpoint : ∀ (m : List α) (p : α → Bool), m.Pairwise (fun a b => p b = true → p a = true) →
      partitionPoint (fun i => m[i]?.any p) 0 m.length = (m.filter p).length ∧ m.take (m.filter p).length = m.filter p ∧
        m.drop (m.filter p).length = m.filter (fun a => !p a) := by
    intro m p hp
    refine ⟨partitionPoint_eq (Nat.zero_le _) (List.length_filter_le _ _) (fun i _ hi => ?_), ?_⟩
    · rw [List.getElem?_eq_getElem hi, Option.any_some]
      exact iff_lt_length_filter hp i hi
    · induction m with
      | nil => exact ⟨rfl, rfl⟩
      | cons a m ih =>
          obtain ⟨ha, hm⟩ := List.pairwise_cons.mp hp
          by_cases hpa : p a = true
          · obtain ⟨htake, hdrop⟩ := ih hm
            rw [List.filter_cons_of_pos hpa, List.length_cons, List.take_succ_cons, htake,
              List.drop_succ_cons, hdrop, List.filter_cons_of_neg (by simp [hpa])]
            exact ⟨rfl, rfl⟩
          · have hnone : m.filter p = [] := List.filter_eq_nil_iff.mpr (fun b hb hpb => hpa (ha b hb hpb))
            have hall : m.filter (fun a => !p a) = m := by
              rw [List.filter_eq_self]
              exact fun b hb => by simpa using fun hpb => hpa (ha b hb hpb)
            rw [List.filter_cons_of_neg hpa, hnone, List.filter_cons_of_pos (by simpa using hpa), hall]
            exact ⟨rfl, rfl⟩
  have hbelow : l.Pairwise (fun a b => below b = true → below a = true) :=
    hsorted.imp (fun hab hb => (hlt _).mpr (hab.trans_lt ((hlt _).mp hb)))
  have hrest : rest = l.filter (fun s => !below s) := by
    obtain ⟨hpt, -, hdrop⟩ := hpoint l _ hbelow
    rw [← hdrop, ← hpt]
  have hfrom : rest.Pairwise (fun a b => same b = true → same a = true) := by
    rw [hrest]
    refine (hsorted.filter _).imp_of_mem (fun {a b} ha _ hab hb => ?_)
    have hav : ¬ f a < v := by
      rw [← hlt]
      simpa using (List.mem_filter.mp ha).2
    exact (heq a).mpr (le_antisymm (hab.trans ((heq b).mp hb).le) (not_lt.mp hav))
  obtain ⟨hpt, htake, -⟩ := hpoint rest _ hfrom
  rw [hpt, htake, hrest, List.filter_filter]
  refine List.filter_congr (fun s _ => ?_)
  cases hs : same s with
  | true =>
      have hnot : ¬ below s = true := fun hb => absurd ((hlt s).mp hb) (not_lt.mpr ((heq s).mp hs).ge)
      rw [Bool.true_and, Bool.eq_false_of_not_eq_true hnot, Bool.not_false]
  | false => rw [Bool.false_and]

/-- **The pieces over a partition.** -/
lemma piecesOver_eq (hsorted : h.live.Pairwise (fun s t => s.rank ≤ t.rank)) (at0 : ℕ) :
    h.piecesOver at0
      = h.l0.filter (fun s => h.parts[at0]?.all (fun p => !h.l0Aligned || decide (s.fence.1 = p.fence.1))) := by
  rw [Levels.piecesOver]
  cases hp : h.parts[at0]? with
  | none => simp only [Option.all_none, List.filter_true]
  | some p =>
      cases hal : h.l0Aligned with
      | false => simp only [Bool.not_false, if_true, Option.all_some, Bool.true_or, List.filter_true]
      | true =>
          simp only [Bool.not_true, Bool.false_eq_true, if_false, Option.all_some, Bool.false_or]
          exact take_drop_partitionPoint (pairwise_l0 hsorted) (fun s => decide_eq_true_iff)
            (fun s => decide_eq_true_iff)

/-- **Every piece that may hold a key of a partition's range** is over the partition. -/
lemma mem_piecesOver (hs : Settled h.live h.queue)
    (hsorted : h.live.Pairwise (fun s t => s.rank ≤ t.rank)) {at0 : ℕ} {p s : Seg}
    (hp : h.parts[at0]? = some p) (hmem : s ∈ h.l0) (hk : s.fence.Holds k) (hpk : p.fence.Holds k) :
    s ∈ h.piecesOver at0 := by
  rw [piecesOver_eq hsorted, List.mem_filter, hp, Option.all_some]
  refine ⟨hmem, ?_⟩
  cases hal : h.l0Aligned with
  | false => rfl
  | true =>
      rw [Levels.l0Aligned, Bool.and_eq_true, List.all_eq_true] at hal
      obtain ⟨q, hq, hqs⟩ := List.any_eq_true.mp (hal.2 s hmem)
      have hqs : q.fence = s.fence := of_decide_eq_true hqs
      have hpl := mem_parts.mp (List.mem_of_getElem? hp)
      have hql := mem_parts.mp hq
      have hpq : p = q := by
        by_contra hne
        exact hs.apart p hpl.1 q hql.1 hpl.2 hql.2 hne k hpk (hqs ▸ hk)
      rw [hpq, hqs, decide_eq_true rfl, Bool.or_true]

/-! ## The start -/

/-- A tombstone for a key is a tombstone, of a key that the segment holds. -/
lemma Seg.masks_delta {s : Seg} (hmasks : (s.delta k).masks = true) : s.tombs = true ∧
    k ∈ s.keys := by
  rw [Seg.delta, deltaIn] at hmasks
  cases hfind : s.entries.find? (fun e => e.key = k) with
  | none =>
      rw [hfind] at hmasks
      exact absurd hmasks (by simp)
  | some e =>
      rw [hfind] at hmasks
      have hmem := List.mem_of_find?_eq_some hfind
      have hek : e.key = k := by simpa using List.find?_some hfind
      exact ⟨List.any_eq_true.mpr ⟨e, hmem, hmasks⟩, hek ▸ List.mem_map_of_mem hmem⟩

lemma masks_table {rs : List WalRecord} (hnone : rs.any WalRecord.isDelete = false) :
    (recordsDelta rs k).masks = false := by
  rw [← Bool.not_eq_true, masks_recordsDelta]
  intro hmem
  rw [List.any_eq_false] at hnone
  exact hnone _ hmem rfl

/-! ## The read -/

/-- What the partition a key routes to says of it. -/
def Levels.partDelta (h : Levels) (k : Bytes) : Delta Bytes :=
  (h.parts[h.route k]?.map (·.delta k)).getD 1

/-- What a read consults, oldest first: the partition, the pieces over it, the frozen tables and the
live one. -/
def Levels.sources (h : Levels) (k : Bytes) : List (Delta Bytes) :=
  h.partDelta k :: ((h.piecesOver (h.route k)).map (·.delta k) ++
    (h.sealing.map (fun j => recordsDelta j.table k) ++ [recordsDelta h.mem k]))

/-- **What the live set says** is what its partitions say and then what its pieces do. -/
lemma saysOf_split (hs : Settled h.live h.queue) (hnodup : h.live.Nodup)
    (hsorted : h.live.Pairwise (fun s t => s.rank ≤ t.rank)) :
    saysOf h.live k = (h.parts.map (·.delta k)).prod * (h.l0.map (·.delta k)).prod := by
  have hperm : h.live.Perm (h.parts ++ h.l0) := (List.filter_append_perm Seg.isPart h.live).symm
  have hranked := hs.ranked hnodup
  have hsilent : ∀ s ∈ h.live, s.reach k = false → s.delta k = 1 :=
    fun s hsl => hs.silent (List.mem_append_left _ hsl)
  rw [saysOf, settle_perm hranked hperm, settle_append (hranked.perm hperm) (fun p hp s hsl _ _ =>
    Seg.rank_lt_of_level (mem_parts.mp hp).2 (mem_l0.mp hsl).2)]
  congr 1
  · exact settle_eq_prod (hranked.sublist List.filter_sublist) (hsorted.filter _)
      (fun s hsl => hsilent s (mem_parts.mp hsl).1)
  · exact settle_eq_prod (hranked.sublist List.filter_sublist) (hsorted.filter _)
      (fun s hsl => hsilent s (mem_l0.mp hsl).1)

/-- **What a read consults is all there is** of a key. -/
lemma prod_sources (hs : Settled h.live h.queue) (hnodup : h.live.Nodup)
    (hsorted : h.live.Pairwise (fun s t => s.rank ≤ t.rank)) : (h.sources k).prod = h.leaves k := by
  have hsilent : ∀ s ∈ h.live, s.reach k = false → s.delta k = 1 :=
    fun s hsl => hs.silent (List.mem_append_left _ hsl)
  have hlive : saysOf h.live k
    = h.partDelta k * ((h.piecesOver (h.route k)).map (·.delta k)).prod := by
    rw [saysOf_split hs hnodup hsorted]
    congr 1
    · rw [Levels.partDelta]
      by_cases hnil : h.parts = []
      · rw [hnil]
        rfl
      · obtain ⟨p, hp, hpk⟩ := route_spec hs hnodup hsorted hnil k
        rw [hp, Option.map_some, Option.getD_some]
        have hpm := List.mem_of_getElem? hp
        have hone : List.count p h.parts = 1 := List.count_eq_one_of_mem (hnodup.filter _) hpm
        rw [List.prod_map_eq_pow_single p _ (fun q hne hq => ?_), hone, pow_one]
        refine hsilent q (mem_parts.mp hq).1 (Seg.reach_eq_false.mpr (fun hqk => ?_))
        exact hs.apart q (mem_parts.mp hq).1 p (mem_parts.mp hpm).1 (mem_parts.mp hq).2
          (mem_parts.mp hpm).2 hne k hqk hpk
    · rw [piecesOver_eq hsorted, prod_filter_of_one]
      · intro s hsl hnot
        refine hsilent s (mem_l0.mp hsl).1 (Seg.reach_eq_false.mpr (fun hsk => ?_))
        -- a piece that may hold the key is over the partition it routes to
        by_cases hnil : h.parts = []
        · rw [hnil, List.getElem?_nil, Option.all_none] at hnot
          exact absurd hnot (by simp)
        · obtain ⟨p, hp, hpk⟩ := route_spec hs hnodup hsorted hnil k
          have hover := mem_piecesOver hs hsorted hp hsl hsk hpk
          rw [piecesOver_eq hsorted, List.mem_filter] at hover
          rw [hover.2] at hnot
          exact absurd hnot (by simp)
  rw [Levels.sources, Levels.leaves, hlive, List.prod_cons, List.prod_append, List.prod_append,
    List.prod_singleton]
  simp only [mul_assoc]

/-- **Where nothing says it holds a tombstone**, nothing masks. -/
lemma masks_newer (htomb : h.hasTombstones = false) (pieces : List Seg)
    (hlive : ∀ s ∈ pieces, s ∈ h.live) :
    ∀ e ∈ pieces.map (·.delta k) ++
      (h.sealing.map (fun j => recordsDelta j.table k) ++ [recordsDelta h.mem k]),
      e.masks = false := by
  rw [Levels.hasTombstones, Bool.or_eq_false_iff, Bool.or_eq_false_iff] at htomb
  obtain ⟨⟨hsegs, hmem⟩, hfrozen⟩ := htomb
  intro e he
  rcases List.mem_append.mp he with he | he
  · obtain ⟨s, hs, rfl⟩ := List.mem_map.mp he
    rw [← Bool.not_eq_true]
    intro hmasks
    rw [List.any_eq_false] at hsegs
    exact hsegs s (hlive s hs) (Seg.masks_delta hmasks).1
  · rcases List.mem_append.mp he with he | he
    · obtain ⟨j, hj, rfl⟩ := List.mem_map.mp he
      rw [List.any_eq_false] at hfrozen
      exact masks_table (Bool.eq_false_of_not_eq_true (hfrozen j hj))
    · rw [List.mem_singleton.mp he]
      exact masks_table hmem

variable (hhint : ∀ s ∈ h.live, ∀ k ∈ s.keys, hint s k = true)
include hhint

/-- Where the filter denies a key, or the fence leaves it out, the segment says nothing of it. -/
lemma delta_of_mayHold (hs : Settled h.live h.queue) {s : Seg} (hmem : s ∈ h.live)
    (hno : s.mayHold hint k = false) : s.delta k = 1 := by
  refine Seg.delta_eq_one (fun hk => ?_)
  rw [Seg.mayHold, Bool.and_eq_false_iff, decide_eq_false_iff_not] at hno
  rcases hno with hno | hno
  · exact hno ((hs.fits_live s hmem).inside k hk)
  · exact absurd (hhint s hmem k hk) (by simp [hno])

omit hhint in
lemma mem_of_mem_piecesOver (hsorted : h.live.Pairwise (fun s t => s.rank ≤ t.rank)) {s : Seg}
    {at0 : ℕ} (hmem : s ∈ h.piecesOver at0) : s ∈ h.live := by
  rw [piecesOver_eq hsorted] at hmem
  exact (mem_l0.mp (List.mem_filter.mp hmem).1).1

/-- **Where a read starts**: at the partition, or at a source that masks the key, and no source
behind it does. -/
lemma readStart_spec (hs : Settled h.live h.queue)
    (hsorted : h.live.Pairwise (fun s t => s.rank ≤ t.rank)) :
    StartsAt (h.sources k) (h.readStart hint (h.piecesOver (h.route k)) k) := by
  set pieces := h.piecesOver (h.route k) with hpieces
  have hlive : ∀ s ∈ pieces, s ∈ h.live := fun s hsl => mem_of_mem_piecesOver hsorted hsl
  rw [Levels.readStart]
  split_ifs with htomb
  · -- no tombstone anywhere
    refine StartsAt.unmasked [h.partDelta k] (le_refl _) (by simp) (fun e he => ?_)
    rw [Bool.not_eq_true'] at htomb
    exact masks_newer htomb pieces hlive e he
  · have hsay : pieces.map (fun s => s.tombs && s.mayHold hint k && (deltaIn s.entries k).masks)
        = (pieces.map (·.delta k)).map Delta.masks := by
      rw [List.map_map]
      refine List.map_congr_left (fun s hsl => ?_)
      rw [Function.comp_apply]
      cases hmasks : (s.delta k).masks with
      | false => rw [show (deltaIn s.entries k).masks = false from hmasks, Bool.and_false]
      | true =>
          obtain ⟨htombs, hk⟩ := Seg.masks_delta hmasks
          have hmay : s.mayHold hint k = true := by
            rw [← Bool.not_eq_false]
            intro hno
            rw [delta_of_mayHold hhint hs (hlive s hsl) hno] at hmasks
            exact absurd hmasks (by simp)
          rw [htombs, hmay, show (deltaIn s.entries k).masks = true from hmasks]
          rfl
    have hthree := StartsAt.three [h.partDelta k] (le_refl _) (pieces.map (·.delta k))
      (h.sealing.map (fun j => recordsDelta j.table k)) (recordsDelta h.mem k)
    rw [List.map_map (g := Delta.masks) (f := fun j : FrozenTable => recordsDelta j.table k)]
      at hthree
    rw [hsay]
    exact hthree

/-- **A read of a settled state** gives the values of what the state leaves the key, whatever the
filters let through. -/
theorem readAll_leaves (hs : Settled h.live h.queue) (hnodup : h.live.Nodup)
    (hsorted : h.live.Pairwise (fun s t => s.rank ≤ t.rank)) : h.readAll hint k
    = (h.leaves k).vals := by
  have hat := readStart_spec hhint hs hsorted (k := k)
  rw [← prod_sources hs hnodup hsorted, hat.vals, Levels.readAll]
  set pieces := h.piecesOver (h.route k) with hpieces
  set start := h.readStart hint pieces k with hstart
  have hlive : ∀ s ∈ pieces, s ∈ h.live := fun s hsl => mem_of_mem_piecesOver hsorted hsl
  have hread : ∀ s ∈ h.live, s.valuesAt hint k = (s.delta k).vals := by
    intro s hsl
    rw [Seg.valuesAt]
    split_ifs with hmay
    · rfl
    · rw [delta_of_mayHold hhint hs hsl (Bool.eq_false_of_not_eq_true hmay), Delta.vals_one]
  have hpart : (h.parts[h.route k]?.map (Seg.valuesAt hint k)).getD [] = (h.partDelta k).vals := by
    rw [Levels.partDelta]
    cases hp : h.parts[h.route k]? with
    | none => rfl
    | some p => exact hread p (mem_parts.mp (List.mem_of_getElem? hp)).1
  have hthree := flatMap_drop_three [h.partDelta k] (le_refl _) hat.lt
  rw [Levels.sources, ← List.singleton_append, hthree, hpart,
    flatMap_zipIdx_drop (Seg.valuesAt hint k) pieces 1 start,
    flatMap_zipIdx_drop (fun j => (recordsDelta j.table k).vals) h.sealing (1 + pieces.length)
    start, List.flatMap_singleton, List.length_singleton,
    List.length_map, ← List.map_drop, ← List.map_drop, List.flatMap_map, List.flatMap_map]
  rw [List.flatMap_congr (fun s hsl => hread s (hlive s (List.mem_of_mem_drop hsl)))]
  simp only [List.append_assoc, ← hpieces]

end Reads

end Supdb
