import Supdb.SealJob
import Supdb.Lib.Saturate

/-!
# The fences of a merge

A merge is asked for ranges of keys, and rewrites whole partitions.  The ranges it is given may be a
landing old, and a level-0 segment may reach past them, so the ranges are resolved to the partitions
standing, and the set grown until no segment over it reaches outside.

* **`fencesOverlap`** – whether two ranges meet; of ranges that hold a key, whether they share one
  (`fencesOverlap_iff`).
* **`resolveFences`** – the partitions a given range meets, saturated over the segments, in key
  order.
* **`resolveFences_least`** – what results is a run of disjoint partitions, and the least set that
  has every partition a given range meets and every partition that a segment meets along with one it
  has.
-/

namespace Supdb

open StorageLib

/-! ## Overlap -/

/-- `fences_overlap`: whether two ranges meet. -/
def fencesOverlap (a b : Fence) : Bool :=
  let below := b.2.any (fun h => decide (h ≤ a.1))
  let above := a.2.any (fun h => decide (h ≤ b.1))
  !below && !above

lemma fencesOverlap_eq_true {a b : Fence} : fencesOverlap a b = true ↔ (∀ h ∈ b.2, a.1 < h) ∧
    ∀ h ∈ a.2, b.1 < h := by
  simp only [fencesOverlap, Bool.and_eq_true, Bool.not_eq_true', Option.any_eq_false,
    decide_eq_false_iff_not, not_le, Option.mem_def]

/-- A range that holds a key. -/
def Fence.Wide (f : Fence) : Prop := ∀ h ∈ f.2, f.1 < h

/-- **Ranges that hold a key overlap where they share one.** -/
lemma fencesOverlap_iff {a b : Fence} (ha : a.Wide) (hb : b.Wide) :
    fencesOverlap a b = true ↔ ∃ k, a.Holds k ∧ b.Holds k := by
  rw [fencesOverlap_eq_true]
  constructor
  · rintro ⟨hab, hba⟩
    rcases le_total a.1 b.1 with hle | hle
    · exact ⟨b.1, ⟨hle, hba⟩, le_rfl, hb⟩
    · exact ⟨a.1, ⟨le_rfl, ha⟩, hle, hab⟩
  · rintro ⟨k, ⟨hak, hka⟩, hbk, hkb⟩
    exact ⟨fun h hh => hak.trans_lt (hkb h hh), fun h hh => hbk.trans_lt (hka h hh)⟩

/-! ## Resolving -/

/-- `resolve_fences`: the partitions a given range meets, grown over the segments, in key order. -/
def resolveFences (parts segs given : List Fence) : List Fence :=
  (saturate fencesOverlap parts segs
    (parts.filter (fun p => given.any (fun g => fencesOverlap g p)))).mergeSort
    (fun a b => decide (a.1 ≤ b.1))

/-- One range ends where the other begins, or before. -/
def Fence.Before (f g : Fence) : Prop := ∃ h ∈ f.2, h ≤ g.1

/-- Ranges that tile the keys lie one behind the other. -/
lemma Tiles.pairwise {fs : List Fence} : ∀ {lo : Bytes}, Tiles lo fs → (∀ f ∈ fs, f.Wide) →
    fs.Pairwise Fence.Before ∧ ∀ f ∈ fs, lo ≤ f.1 := by
  induction fs with
  | nil => exact fun ht _ => ht.elim
  | cons f fs ih =>
      intro lo ht hwide
      cases fs with
      | nil =>
          have hf : f = (lo, none) := ht
          refine ⟨List.pairwise_singleton _ _, fun g hg => ?_⟩
          rw [List.mem_singleton.mp hg, hf]
      | cons g fs =>
          obtain ⟨hi, hf, htiles⟩ := ht
          obtain ⟨hpair, hlo⟩ := ih htiles (fun k hk => hwide k (List.mem_cons_of_mem f hk))
          have hlt : lo < hi := by
            have hw := hwide f List.mem_cons_self
            rw [hf] at hw
            exact hw hi rfl
          refine ⟨List.pairwise_cons.mpr ⟨fun k hk => ⟨hi, by rw [hf]; rfl, hlo k hk⟩, hpair⟩, fun k hk => ?_⟩
          rcases List.mem_cons.mp hk with rfl | hk
          · rw [hf]
          · exact hlt.le.trans (hlo k hk)

section Resolve

variable {parts segs given tiles : List Fence}

/-- What is in a merge's fences is what its given ranges reach. -/
lemma mem_resolveFences {f : Fence} : f ∈ resolveFences parts segs given ↔
    Reached fencesOverlap parts segs
    (parts.filter (fun p => given.any (fun g => fencesOverlap g p))) f := by
  rw [resolveFences, List.mem_mergeSort, mem_saturate]

lemma mem_given {p : Fence} : p ∈ parts.filter (fun p => given.any (fun g => fencesOverlap g p)) ↔
    p ∈ parts ∧ ∃ g ∈ given, fencesOverlap g p = true := by
  rw [List.mem_filter, List.any_eq_true]

/-- A merge's fences are partitions. -/
lemma resolveFences_sub {f : Fence} (h : f ∈ resolveFences parts segs given) : f ∈ parts :=
  (mem_resolveFences.mp h).least (fun _ ha => (mem_given.mp ha).1) (fun _ _ _ _ _ _ hb _ => hb)

/-- Of ranges that tile the keys, two in order of where they begin lie one behind the other. -/
lemma before_of_le (htiles : Tiles [] tiles) (hwide : ∀ f ∈ tiles, f.Wide) {f g : Fence}
    (hf : f ∈ tiles) (hg : g ∈ tiles) (hne : f ≠ g) (hle : f.1 ≤ g.1) : f.Before g := by
  have hor : tiles.Pairwise (fun a b => a.Before b ∨ b.Before a) :=
    (htiles.pairwise hwide).1.imp (fun h => Or.inl h)
  have : Std.Symm (fun a b : Fence => a.Before b ∨ b.Before a) := ⟨fun _ _ h => h.symm⟩
  rcases hor.forall hf hg hne with h | ⟨h, hh, hhf⟩
  · exact h
  · exact absurd ((hwide g hg h hh).trans_le hhf) (not_lt.mpr hle)

/-- Ranges that tile the keys are each there once. -/
lemma nodup_tiles (htiles : Tiles [] tiles) (hwide : ∀ f ∈ tiles, f.Wide) : tiles.Nodup := by
  refine (htiles.pairwise hwide).1.imp_of_mem (fun {f g} hf _ hbefore heq => ?_)
  obtain ⟨h, hh, hle⟩ := hbefore
  rw [← heq] at hle
  exact absurd (hwide f hf h hh) (not_lt.mpr hle)

/-- A merge's fences are in key order and disjoint. -/
lemma pairwise_resolveFences (htiles : Tiles [] tiles) (hwide : ∀ f ∈ tiles, f.Wide)
    (hperm : parts.Perm tiles) : (resolveFences parts segs given).Pairwise Fence.Before := by
  have hsorted : (resolveFences parts segs given).Pairwise (fun a b => a.1 ≤ b.1) :=
    List.pairwise_mergeSort' (Order.Preimage Prod.fst (· ≤ ·)) _
  have hnodup : (resolveFences parts segs given).Nodup := by
    rw [resolveFences, (List.mergeSort_perm _ _).nodup_iff]
    exact nodup_saturate ((hperm.nodup_iff.mpr (nodup_tiles htiles hwide)).filter _)
  refine (hsorted.and hnodup).imp_of_mem (fun {f g} hf hg h => ?_)
  exact before_of_le htiles hwide (hperm.mem_iff.mp (resolveFences_sub hf))
    (hperm.mem_iff.mp (resolveFences_sub hg)) h.2 h.1

end Resolve

/-- **A merge's fences are the least closed run of partitions.**  Where the partitions tile the
keys, in whatever order they are listed, what the given ranges resolve to is partitions, in key
order and disjoint; it has every partition that a given range meets; a segment that meets one it has
meets none that it has not; and every set of which this is true has it all. -/
theorem resolveFences_least (tiles parts segs given : List Fence) (htiles : Tiles [] tiles)
    (hwide : ∀ f ∈ tiles, f.Wide) (hperm : parts.Perm tiles) :
    let fences := resolveFences parts segs given
    (∀ f ∈ fences, f ∈ parts) ∧ fences.Pairwise Fence.Before ∧
      (∀ p ∈ parts, ∀ g ∈ given, fencesOverlap g p = true → p ∈ fences) ∧
      (∀ q ∈ segs, ∀ f ∈ fences, fencesOverlap q f = true → ∀ p ∈ parts, fencesOverlap q p = true →
      p ∈ fences) ∧ ∀ S : Set Fence, (∀ p ∈ parts, ∀ g ∈ given, fencesOverlap g p = true → p ∈ S) →
        (∀ q ∈ segs, ∀ f ∈ S, fencesOverlap q f = true → ∀ p ∈ parts, fencesOverlap q p = true →
        p ∈ S) → ∀ f ∈ fences, f ∈ S := by
  intro fences
  refine ⟨fun f hf => resolveFences_sub hf, pairwise_resolveFences htiles hwide hperm,
    fun p hp g hg hmeets => ?_, fun q hq f hf hqf p hp hqp => ?_, fun S hgiven hclosed f hf => ?_⟩
  · exact mem_resolveFences.mpr (.seed (mem_given.mpr ⟨hp, g, hg, hmeets⟩))
  · exact mem_resolveFences.mpr (.rule hq (mem_resolveFences.mp hf) hqf hp hqp)
  · refine (mem_resolveFences.mp hf).least (fun p hp => ?_) hclosed
    obtain ⟨hpart, g, hg, hmeets⟩ := mem_given.mp hp
    exact hgiven p hpart g hg hmeets

/-- Three partitions, a segment over the last two and a range in the last. -/
theorem resolveFences_least_three :
    let tiles : List Fence := [([], some [4]), ([4], some [8]), ([8], none)]
    let fences := resolveFences tiles [([5], none)] [([9], none)]
    (∀ f ∈ fences, f ∈ tiles) ∧ fences.Pairwise Fence.Before ∧
      (∀ p ∈ tiles, ∀ g ∈ [(([9], none) : Fence)], fencesOverlap g p = true → p ∈ fences) ∧
      (∀ q ∈ [(([5], none) : Fence)], ∀ f ∈ fences, fencesOverlap q f = true → ∀ p ∈ tiles,
        fencesOverlap q p = true → p ∈ fences) ∧
      ∀ S : Set Fence,
        (∀ p ∈ tiles, ∀ g ∈ [(([9], none) : Fence)], fencesOverlap g p = true → p ∈ S) →
        (∀ q ∈ [(([5], none) : Fence)], ∀ f ∈ S, fencesOverlap q f = true → ∀ p ∈ tiles,
        fencesOverlap q p = true → p ∈ S) → ∀ f ∈ fences, f ∈ S := by
  intro tiles
  have hwide : ∀ f ∈ tiles, f.Wide := by
    intro f hf h hh
    simp only [tiles, List.mem_cons, List.not_mem_nil, or_false] at hf
    rcases hf with rfl | rfl | rfl
    · rw [Option.mem_some_iff.mp hh.symm]
      decide
    · rw [Option.mem_some_iff.mp hh.symm]
      decide
    · exact absurd hh (by simp)
  exact resolveFences_least tiles tiles [([5], none)]
    [([9], none)] ⟨[4], rfl, [8], rfl, rfl⟩ hwide (List.Perm.refl tiles)

end Supdb
