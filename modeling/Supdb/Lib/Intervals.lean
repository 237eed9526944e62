import Mathlib.Order.Interval.Set.LinearOrder
import Mathlib.Data.List.Basic

/-!
# Unions of intervals

A list of half-open intervals stands for the points they hold between them, and one set of points
has many lists: intervals overlap, repeat one another or touch.  **One of them is separated** –
every interval holds a point, and the next begins past the end of the one before.

Sorted intervals are brought to it by a scan that keeps the last interval at hand.  One that begins
within it or at its end grows it, and any other is kept after it.

* `absorb` – one interval into what a scan keeps, the last one first; `absorbAll` – the scan.
* `absorbAll_spec` – **the scan of a sorted list is separated and holds the same points.**
-/

namespace StorageLib

variable {α : Type} [LinearOrder α]

/-- The points a list of intervals holds. -/
def cover (l : List (α × α)) : Set α := {x | ∃ r ∈ l, x ∈ Set.Ico r.1 r.2}

/-- Every interval holds a point, and the next begins past its end. -/
structure Separated (l : List (α × α)) : Prop where
  inhabited : ∀ r ∈ l, r.1 < r.2
  apart : l.Pairwise (fun r s => r.2 < s.1)

/-- One interval more, into the intervals a scan keeps, the last of them first. -/
def absorb : List (α × α) → α × α → List (α × α)
  | [], r => [r]
  | last :: kept, r => if r.1 ≤ last.2 then (last.1, max r.2 last.2) :: kept else r :: last :: kept

/-- The scan of a list. -/
def absorbAll (l : List (α × α)) : List (α × α) := (l.foldl absorb []).reverse

/-! ## What a list holds -/

section Cover

variable {l m : List (α × α)} {r s : α × α} {x : α}

@[simp] lemma cover_nil : cover ([] : List (α × α)) = ∅ := by
  ext x
  simp [cover]

@[simp] lemma cover_cons (r : α × α) (l : List (α × α)) :
    cover (r :: l) = Set.Ico r.1 r.2 ∪ cover l := by
  ext x
  simp [cover]

lemma cover_of_mem_iff (h : ∀ r, r ∈ l ↔ r ∈ m) : cover l = cover m := by
  ext x
  simp [cover, h]

end Cover

/-! ## The scan -/

section Scan

variable {kept l : List (α × α)} {r : α × α} {b : α}

/-- A scan in order: what it keeps is separated, and nothing of it begins past the interval to come.
-/
structure Scanned (kept : List (α × α)) (r : α × α) : Prop where
  separated : Separated kept.reverse
  below : ∀ s ∈ kept, s.1 ≤ r.1

/-- **One step of the scan.** -/
lemma Scanned.absorb (h : Scanned kept r) (hr : r.1 < r.2) :
    Separated (absorb kept r).reverse ∧ (∀ s ∈ absorb kept r, s.1 ≤ r.1) ∧
      cover (absorb kept r) = cover kept ∪ Set.Ico r.1 r.2 := by
  cases kept with
  | nil =>
      have hone : StorageLib.absorb [] r = [r] := rfl
      rw [hone]
      exact ⟨⟨by simpa using hr, by simp⟩, by simp, by simp⟩
  | cons last kept =>
      have hsep := h.separated
      rw [List.reverse_cons] at hsep
      have hlast : last.1 < last.2 := hsep.inhabited last (by simp)
      have hle : last.1 ≤ r.1 := h.below last (List.mem_cons_self ..)
      rw [StorageLib.absorb]
      by_cases htouch : r.1 ≤ last.2
      · -- it grows the last interval
        rw [if_pos htouch]
        refine ⟨⟨?_, ?_⟩, ?_, ?_⟩
        · intro s hs
          rw [List.mem_reverse, List.mem_cons] at hs
          rcases hs with rfl | hs
          · exact hlast.trans_le (le_max_right _ _)
          · exact hsep.inhabited s (by simp [hs])
        · rw [List.reverse_cons, List.pairwise_append]
          obtain ⟨hbefore, -, hbelow⟩ := List.pairwise_append.mp hsep.apart
          exact ⟨hbefore, List.pairwise_singleton _ _, fun s hs t ht => by
            rw [List.mem_singleton.mp ht]
            exact hbelow s hs last (List.mem_singleton_self _)⟩
        · intro s hs
          rcases List.mem_cons.mp hs with rfl | hs
          · exact hle
          · exact h.below s (List.mem_cons_of_mem _ hs)
        · have hunion : Set.Ico last.1 (max r.2 last.2) = Set.Ico last.1 last.2 ∪ Set.Ico r.1 r.2 := by
            rw [Set.Ico_union_Ico' htouch (hle.trans hr.le), min_eq_left hle, max_comm]
          rw [cover_cons, cover_cons, hunion, Set.union_right_comm]
      · -- it stands apart
        rw [if_neg htouch]
        have hpast : last.2 < r.1 := not_le.mp htouch
        refine ⟨⟨?_, ?_⟩, ?_, ?_⟩
        · intro s hs
          rw [List.mem_reverse, List.mem_cons] at hs
          rcases hs with rfl | hs
          · exact hr
          · exact h.separated.inhabited s (List.mem_reverse.mpr hs)
        · rw [List.reverse_cons, List.pairwise_append]
          refine ⟨h.separated.apart, List.pairwise_singleton _ _, fun s hs t ht => ?_⟩
          rw [List.mem_singleton.mp ht]
          rw [List.mem_reverse, List.mem_cons] at hs
          rcases hs with rfl | hs
          · exact hpast
          · obtain ⟨-, -, hbelow⟩ := List.pairwise_append.mp hsep.apart
            exact ((hbelow s (List.mem_reverse.mpr hs) last (List.mem_singleton_self _)).trans hlast).trans hpast
        · intro s hs
          rcases List.mem_cons.mp hs with rfl | hs
          · exact le_refl _
          · exact h.below s hs
        · rw [cover_cons, Set.union_comm]

/-- **A scan in order** from what it keeps. -/
lemma foldl_absorb (hsorted : l.Pairwise (fun r s => r.1 ≤ s.1)) (hin : ∀ r ∈ l, r.1 < r.2)
    (hsep : Separated kept.reverse) (hbelow : ∀ s ∈ kept, ∀ r ∈ l, s.1 ≤ r.1) :
    Separated (l.foldl absorb kept).reverse ∧
    cover (l.foldl absorb kept) = cover kept ∪ cover l := by
  induction l generalizing kept with
  | nil => exact ⟨hsep, by simp⟩
  | cons r l ih =>
      obtain ⟨hfirst, hrest⟩ := List.pairwise_cons.mp hsorted
      have hscan : Scanned kept r := ⟨hsep, fun s hs => hbelow s hs r (List.mem_cons_self ..)⟩
      obtain ⟨hsep', hbelow', hcover⟩ := hscan.absorb (hin r (List.mem_cons_self ..))
      obtain ⟨hdone, hall⟩ := ih hrest (fun s hs => hin s (List.mem_cons_of_mem _ hs)) hsep'
        (fun s hs t ht => (hbelow' s hs).trans (hfirst t ht))
      refine ⟨hdone, ?_⟩
      rw [List.foldl_cons, hall, hcover, cover_cons, Set.union_assoc]

/-- **A sorted list scanned** is separated and holds the same points. -/
theorem absorbAll_spec (hsorted : l.Pairwise (fun r s => r.1 ≤ s.1)) (hin : ∀ r ∈ l, r.1 < r.2) :
    Separated (absorbAll l) ∧ cover (absorbAll l) = cover l := by
  have hnone : Separated ([] : List (α × α)).reverse := ⟨by simp, by simp⟩
  obtain ⟨hsep, hcover⟩ := foldl_absorb hsorted hin hnone (fun s hs => absurd hs List.not_mem_nil)
  refine ⟨hsep, ?_⟩
  rw [absorbAll, cover_of_mem_iff (fun r => List.mem_reverse), hcover, cover_nil, Set.empty_union]

/-- What bounds the ends of the intervals bounds the ends of what is kept. -/
lemma foldl_absorb_le (hl : ∀ r ∈ l, r.2 ≤ b) (hkept : ∀ r ∈ kept, r.2 ≤ b) :
    ∀ r ∈ l.foldl absorb kept, r.2 ≤ b := by
  induction l generalizing kept with
  | nil => exact hkept
  | cons r l ih =>
      refine ih (fun s hs => hl s (List.mem_cons_of_mem _ hs)) ?_
      have hr : r.2 ≤ b := hl r (List.mem_cons_self ..)
      cases kept with
      | nil => simpa [StorageLib.absorb] using hr
      | cons last kept =>
          have hlast : last.2 ≤ b := hkept last (List.mem_cons_self ..)
          rw [StorageLib.absorb]
          split_ifs
          · rintro s hs
            rcases List.mem_cons.mp hs with rfl | hs
            · exact max_le hr hlast
            · exact hkept s (List.mem_cons_of_mem _ hs)
          · rintro s hs
            rcases List.mem_cons.mp hs with rfl | hs
            · exact hr
            · exact hkept s hs

end Scan

end StorageLib
