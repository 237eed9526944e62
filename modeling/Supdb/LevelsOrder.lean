import Supdb.Levels

/-!
# The order of the levels

The read path takes pieces by where their fences begin and then by sequence, and nothing stores
which is older.  That order is their age because fences only get finer: whatever piece lies over a
partition now covers it whole, and a later freeze cuts at partitions no wider.

* `Seg.Older` – one piece before another, where both may hold a key; `Seg.Older.rank_lt`, that the
  order the set is sorted in agrees.
* `IsRange` – the ranges a freeze would cut at: the partitions' fences, or all the keys.
* **`Settled`** – what holds of a live set and of the pieces to land: partitions that share no key
  and leave none out, pieces that cover each range whole or not at all, and any two pieces in order.
* `Settled.ranked` – a settled set is told apart by rank, so what it says is a fact of the set.
-/

namespace Supdb

open StorageLib

namespace Seg

/-- Whether a key lies in a segment's fence. -/
def reach (s : Seg) (k : Bytes) : Bool := decide (s.fence.Holds k)

/-- What a segment says of a key. -/
def delta (s : Seg) (k : Bytes) : Delta Bytes := deltaIn s.entries k

/-- A fence that holds a key, and increasing keys in it. -/
structure Fits (s : Seg) : Prop where
  wide : Wide s.fence
  sorted : s.keys.Pairwise (· < ·)
  inside : ∀ k ∈ s.keys, s.fence.Holds k

/-- **Older**: where both may hold a key, the newer one's fence lies inside the older one's, and
where both begin at one key the newer one's sequence is behind. -/
def Older (s t : Seg) : Prop := ¬ RangesApart s.fence t.fence → Within t.fence s.fence ∧
    (s.fence.1 = t.fence.1 → s.seq < t.seq)

section Older

variable {s t : Seg} {k : Bytes}

@[simp] lemma reach_eq_true : s.reach k = true ↔ s.fence.Holds k := by rw [reach, decide_eq_true_eq]

@[simp] lemma reach_eq_false : s.reach k = false ↔ ¬ s.fence.Holds k := by
  rw [reach, decide_eq_false_iff_not]

lemma delta_eq_one (h : k ∉ s.keys) : s.delta k = 1 := by
  have hnone : s.entries.find? (fun e => e.key = k) = none := by
    rw [List.find?_eq_none]
    intro e he hek
    exact h (List.mem_map.mpr ⟨e, he, of_decide_eq_true hek⟩)
  rw [delta, deltaIn, hnone]

lemma Fits.delta_eq_one (h : s.Fits) (hk : s.reach k = false) : s.delta k = 1 :=
  Seg.delta_eq_one (fun hmem => (reach_eq_false.mp hk) (h.inside k hmem))

lemma rank_lt_of_level (hs : s.isPart = true) (ht : t.isPart = false) : s.rank < t.rank := by
  rw [rank, rank, Prod.Lex.toLex_lt_toLex]
  refine Or.inl ?_
  rw [OrderDual.toDual_lt_toDual, level, level, hs, ht]
  decide

/-- **The order of the live set is the order of age.** -/
lemma Older.rank_lt (h : s.Older t) (hs : s.isPart = false) (ht : t.isPart = false)
    (hk : s.fence.Holds k) (hk' : t.fence.Holds k) : s.rank < t.rank := by
  obtain ⟨hwithin, hseq⟩ := h (fun ha => ha k hk hk')
  rw [rank, rank, Prod.Lex.toLex_lt_toLex]
  refine Or.inr ⟨by rw [level, level, hs, ht], ?_⟩
  rw [Prod.Lex.toLex_lt_toLex]
  rcases lt_or_eq_of_le (hwithin.le (InRange.wide hk')) with hlt | heq
  · exact Or.inl hlt
  · exact Or.inr ⟨heq, Prod.Lex.toLex_lt_toLex.mpr (Or.inl (hseq heq))⟩

lemma rank_lt_of_piece (h : s.Older t) (ht : t.isPart = false) (hk : s.fence.Holds k)
    (hk' : t.fence.Holds k) : s.rank < t.rank := by
  cases hs : s.isPart with
  | true => exact rank_lt_of_level hs ht
  | false => exact h.rank_lt hs ht hk hk'

end Older

end Seg

/-- A range a freeze would cut at: a partition's fence, or all the keys where there is no partition.
-/
def IsRange (live : List Seg) (f : Fence) : Prop :=
  (∃ p ∈ live, p.isPart = true ∧ p.fence = f) ∨ (∀ p ∈ live, p.isPart = false) ∧ f = ([], none)

/-- **A settled set**: the segments live, and behind them the segments of tables not landed. -/
structure Settled (live queue : List Seg) : Prop where
  fits : ∀ s ∈ live ++ queue, s.Fits
  apart : ∀ p ∈ live, ∀ q ∈ live, p.isPart = true → q.isPart = true → p ≠ q →
    RangesApart p.fence q.fence
  cover : (∃ p ∈ live, p.isPart = true) → ∀ k, ∃ p ∈ live, p.isPart = true ∧ p.fence.Holds k
  coarse : ∀ s ∈ live ++ queue, s.isPart = false ∨ s ∈ queue → ∀ f, IsRange live f →
    RangesApart s.fence f ∨ Within f s.fence
  ordered : ∀ s ∈ live, ∀ t ∈ live, s.isPart = false → t.isPart = false → s ≠ t → s.Older t ∨
    t.Older s
  behind : ∀ s ∈ live, s.isPart = false → ∀ t ∈ queue, s.Older t
  lined : queue.Pairwise (fun s t => s.Older t ∧ t.isPart = false)
  first : ∀ s ∈ queue, s.isPart = true → live = []

section Settled

variable {live live' queue : List Seg} {f g : Fence} {k : Bytes} {s t : Seg}

lemma isRange_congr (h : ∀ s, s ∈ live ↔ s ∈ live') : IsRange live f ↔ IsRange live' f := by
  simp only [IsRange, h]

/-- All the keys. -/
lemma full_holds (k : Bytes) : Fence.Holds ([], none) k :=
  ⟨nil_le k, fun _ hh => absurd hh.symm (Option.some_ne_none _)⟩

namespace Settled

variable (h : Settled live queue)
include h

lemma fits_live : ∀ s ∈ live, s.Fits := fun s hs => h.fits s (List.mem_append_left _ hs)

/-- What holds of a set in one order holds of it in another. -/
lemma congr (hsame : ∀ s, s ∈ live ↔ s ∈ live') : Settled live' queue where
  fits s hs := h.fits s (by simpa only [List.mem_append, hsame] using hs)
  apart p hp q hq := h.apart p ((hsame p).mpr hp) q ((hsame q).mpr hq)
  cover hex k := by
    obtain ⟨p, hp, hpart⟩ := hex
    obtain ⟨q, hq, hqpart⟩ := h.cover ⟨p, (hsame p).mpr hp, hpart⟩ k
    exact ⟨q, (hsame q).mp hq, hqpart⟩
  coarse s hs hor f hf :=
    h.coarse s (by simpa only [List.mem_append, hsame] using hs) hor f
    ((isRange_congr hsame).mpr hf)
  ordered s hs t ht := h.ordered s ((hsame s).mpr hs) t ((hsame t).mpr ht)
  behind s hs := h.behind s ((hsame s).mpr hs)
  lined := h.lined
  first s hs hpart := by
    have hnil := h.first s hs hpart
    rw [List.eq_nil_iff_forall_not_mem]
    intro a ha
    rw [← hsame a, hnil] at ha
    exact absurd ha List.not_mem_nil

lemma wide_range (hf : IsRange live f) : Wide f := by
  rcases hf with ⟨p, hp, -, rfl⟩ | ⟨-, rfl⟩
  · exact (h.fits p (List.mem_append_left _ hp)).wide
  · exact fun _ hh => absurd hh.symm (Option.some_ne_none _)

/-- Every key lies in a range. -/
lemma exists_range (k : Bytes) : ∃ f, IsRange live f ∧ f.Holds k := by
  by_cases hex : ∃ p ∈ live, p.isPart = true
  · obtain ⟨p, hp, hpart, hk⟩ := h.cover hex k
    exact ⟨p.fence, Or.inl ⟨p, hp, hpart, rfl⟩, hk⟩
  · refine ⟨([], none), Or.inr ⟨fun p hp => ?_, rfl⟩, full_holds k⟩
    rw [← Bool.not_eq_true]
    exact fun hpart => hex ⟨p, hp, hpart⟩

/-- Two ranges are one, or share no key. -/
lemma range_apart (hf : IsRange live f) (hg : IsRange live g) : f = g ∨ RangesApart f g := by
  rcases hf with ⟨p, hp, hpart, rfl⟩ | ⟨hnone, rfl⟩
  · rcases hg with ⟨q, hq, hqart, rfl⟩ | ⟨hnone, rfl⟩
    · by_cases hpq : p = q
      · exact Or.inl (by rw [hpq])
      · exact Or.inr (h.apart p hp q hq hpart hqart hpq)
    · exact absurd (hnone p hp) (by simp [hpart])
  · rcases hg with ⟨q, hq, hqart, rfl⟩ | ⟨-, rfl⟩
    · exact absurd (hnone q hq) (by simp [hqart])
    · exact Or.inl rfl

/-- Two segments live that reach one key differ in rank, the older one below. -/
lemma rank_ne (hs : s ∈ live) (ht : t ∈ live) (hne : s ≠ t) (hks : s.fence.Holds k)
    (hkt : t.fence.Holds k) : s.rank ≠ t.rank := by
  cases hsp : s.isPart with
  | true =>
      cases htp : t.isPart with
      | true => exact absurd hkt (h.apart s hs t ht hsp htp hne k hks)
      | false => exact (Seg.rank_lt_of_level hsp htp).ne
  | false =>
      cases htp : t.isPart with
      | true => exact (Seg.rank_lt_of_level htp hsp).ne'
      | false =>
          rcases h.ordered s hs t ht hsp htp hne with hold | hold
          · exact (hold.rank_lt hsp htp hks hkt).ne
          · exact (hold.rank_lt htp hsp hkt hks).ne'

/-- **A settled set is told apart by rank.** -/
lemma ranked (hnodup : live.Nodup) : Ranked Seg.reach Seg.rank live := by
  refine hnodup.pairwise_of_forall_ne (fun s hs t ht hne k hks hkt => ?_)
  exact h.rank_ne hs ht hne (Seg.reach_eq_true.mp hks) (Seg.reach_eq_true.mp hkt)

lemma silent (hs : s ∈ live ++ queue) (hk : s.reach k = false) : s.delta k = 1 :=
  (h.fits s hs).delta_eq_one hk

end Settled

end Settled

/-- What the live set says of a key. -/
def saysOf (live : List Seg) (k : Bytes) : Delta Bytes := settle Seg.reach Seg.rank Seg.delta live k

/-! ## The live set sorted -/

section Publish

variable {segs live queue : List Seg} {k : Bytes}

lemma perm_publish : (Levels.publish segs).Perm segs := List.mergeSort_perm _ _

@[simp] lemma mem_publish {s : Seg} : s ∈ Levels.publish segs ↔ s ∈ segs := perm_publish.mem_iff

lemma pairwise_publish : (Levels.publish segs).Pairwise (fun s t => s.rank ≤ t.rank) :=
  List.pairwise_mergeSort' (Order.Preimage Seg.rank (· ≤ ·)) segs

/-- **The live set read as it is sorted** says what it says as a set. -/
lemma saysOf_eq_prod (h : Settled live queue) (hnodup : live.Nodup)
    (hsorted : live.Pairwise (fun s t => s.rank ≤ t.rank)) :
    saysOf live k = (live.map (·.delta k)).prod :=
  settle_eq_prod (h.ranked hnodup) hsorted (fun _ hs hk => h.silent (List.mem_append_left _ hs) hk)

end Publish

end Supdb
