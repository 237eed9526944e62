import Supdb.Lib.Intervals
import Supdb.Lib.Trap

/-!
# Byte ranges

A reader of a remote segment plans its fetches as ranges of the file, an offset and a length each.
`merge_ranges` drops the empty ones, sorts the rest and compacts them where they lie, a range that
overlaps or touches the last one kept growing it.

The loop writes to places it has read (`Compacted`): what it has kept is a scan of the ranges so
far, and what it has yet to read is as the sort left it.  So the plan is the separated list of the
bytes asked for.

* `mergeRanges` – the drop, the sort and the loop.
* `mergeRanges_scan` – **it is the scan of the sorted ranges**, and no sum of it leaves a word.
* `mergeRanges_keeps` – **the plan is sorted, apart and of the same bytes.**
-/

namespace Supdb

open StorageLib Run

/-- An offset and a length. -/
abbrev ByteRange : Type := ℕ × ℕ

/-- The order of `sort_unstable`: by the offset, then by the length. -/
def sortsBefore (r s : ByteRange) : Bool := r.1 < s.1 || r.1 = s.1 && r.2 ≤ s.2

/-- Whether range `i` begins at the end of the last one kept, or before it. -/
def touchesLast (v : List ByteRange) (out i : ℕ) : Run Unit Bool :=
  if 0 < out then do
    let r ← index v i
    let last ← index v (out - 1)
    let stop ← addU last.1 last.2
    ok (decide (r.1 ≤ stop))
  else ok false

/-- One turn of the loop: the ranges, and how many are kept. -/
def mergeTurn (s : List ByteRange × ℕ) (i : ℕ) : Run Unit (List ByteRange × ℕ) := do
  let touches ← touchesLast s.1 s.2 i
  let r ← index s.1 i
  if touches then
    let last ← index s.1 (s.2 - 1)
    let stop ← addU r.1 r.2
    let lastStop ← addU last.1 last.2
    let len ← subU (max stop lastStop) last.1
    let v ← store s.1 (s.2 - 1) (last.1, len)
    ok (v, s.2)
  else
    let v ← store s.1 s.2 r
    ok (v, s.2 + 1)

/-- `merge_ranges`. -/
def mergeRanges (v : List ByteRange) : Run Unit (List ByteRange) := do
  let v := (v.filter (fun r => 0 < r.2)).mergeSort sortsBefore
  let (v, out) ← (List.range v.length).foldlM mergeTurn (v, 0)
  ok (v.take out)

/-! ## The ranges as intervals -/

/-- A range's first byte, and the first past it. -/
def spanOf (r : ByteRange) : ℕ × ℕ := (r.1, r.1 + r.2)

/-- The bytes a list of ranges names. -/
def namedBytes (v : List ByteRange) : Set ℕ := {x | ∃ r ∈ v, r.1 ≤ x ∧ x < r.1 + r.2}

lemma namedBytes_eq (v : List ByteRange) : namedBytes v = cover (v.map spanOf) := by
  ext x
  simp [namedBytes, cover, spanOf]

/-- What is dropped names no byte. -/
lemma namedBytes_filter (v : List ByteRange) : namedBytes (v.filter (fun r => 0 < r.2))
    = namedBytes v := by
  ext x
  constructor
  · rintro ⟨r, hr, hx⟩
    exact ⟨r, List.mem_of_mem_filter hr, hx⟩
  · rintro ⟨r, hr, hlo, hhi⟩
    exact ⟨r, List.mem_filter.mpr ⟨hr, by simp; omega⟩, hlo, hhi⟩

lemma namedBytes_mergeSort (v : List ByteRange) : namedBytes (v.mergeSort sortsBefore)
    = namedBytes v := by
  ext x
  simp [namedBytes]

lemma pairwise_sortsBefore (v : List ByteRange) :
    (v.mergeSort sortsBefore).Pairwise (fun r s => r.1 ≤ s.1) := by
  have htrans : ∀ a b c : ByteRange, sortsBefore a b → sortsBefore b c → sortsBefore a c := by
    intro a b c hab hbc
    simp only [sortsBefore, Bool.or_eq_true, Bool.and_eq_true, decide_eq_true_eq] at *
    omega
  have htotal : ∀ a b : ByteRange, sortsBefore a b || sortsBefore b a := by
    intro a b
    simp only [sortsBefore, Bool.or_eq_true, Bool.and_eq_true, decide_eq_true_eq]
    omega
  refine (List.pairwise_mergeSort htrans htotal v).imp ?_
  intro a b hab
  simp only [sortsBefore, Bool.or_eq_true, Bool.and_eq_true, decide_eq_true_eq] at hab
  omega

/-! ## The loop -/

section Loop

variable {w : List ByteRange} {s : List ByteRange × ℕ} {i : ℕ}

/-- What stands after `i` turns: the scan of the first `i` ranges in front, the rest as it was. -/
structure Compacted (w : List ByteRange) (i : ℕ) (s : List ByteRange × ℕ) : Prop where
  kept : (s.1.take s.2).map spanOf = absorbAll ((w.take i).map spanOf)
  unread : s.1.drop i = w.drop i
  length : s.1.length = w.length
  few : s.2 ≤ i

lemma compacted_start (w : List ByteRange) : Compacted w 0 (w, 0) :=
  ⟨by simp [absorbAll], rfl, rfl, le_refl 0⟩

/-- The range a turn reads. -/
lemma Compacted.read (h : Compacted w i s) (hi : i < w.length) : s.1[i]? = some w[i] := by
  have hhead : (s.1.drop i)[0]? = (w.drop i)[0]? := by rw [h.unread]
  rwa [List.getElem?_drop, List.getElem?_drop, Nat.add_zero, List.getElem?_eq_getElem hi] at hhead

/-- The scan of one range more. -/
lemma absorbAll_take_succ (hi : i < w.length) :
    absorbAll ((w.take (i + 1)).map spanOf)
    = (absorb (absorbAll ((w.take i).map spanOf)).reverse (spanOf w[i])).reverse := by
  rw [absorbAll, absorbAll, List.reverse_reverse, List.take_succ_eq_append_getElem hi,
    List.map_append, List.foldl_append]
  rfl

/-- A place behind the range just read is not among the unread. -/
lemma drop_set_succ {v : List ByteRange} {n : ℕ} (r : ByteRange) (hn : n ≤ i)
    (h : v.drop i = w.drop i) : (v.set n r).drop (i + 1) = w.drop (i + 1) := by
  rw [List.drop_set_of_lt (by omega), ← List.drop_drop, ← List.drop_drop, h]

/-- What stands up to a place written. -/
lemma take_succ_set {v : List ByteRange} {n : ℕ} (r : ByteRange) (hn : n < v.length) :
    (v.set n r).take (n + 1) = v.take n ++ [r] := by
  rw [List.take_succ_eq_append_getElem (by simpa using hn), List.getElem_set_self,
    List.take_set_of_le (le_refl _)]

/-- A range kept apart is put after the others. -/
lemma Compacted.push (h : Compacted w i s) (hi : i < w.length)
    (hapart : absorb (absorbAll ((w.take i).map spanOf)).reverse (spanOf w[i])
      = spanOf w[i] :: (absorbAll ((w.take i).map spanOf)).reverse) :
    Compacted w (i + 1) (s.1.set s.2 w[i], s.2 + 1) where
  kept := by
    have hlt : s.2 < s.1.length := by
      rw [h.length]
      exact h.few.trans_lt hi
    rw [absorbAll_take_succ hi, hapart, List.reverse_cons, List.reverse_reverse, ← h.kept,
      take_succ_set _ hlt, List.map_append]
    rfl
  unread := drop_set_succ _ h.few h.unread
  length := by rw [List.length_set, h.length]
  few := Nat.succ_le_succ h.few

/-- The last range kept, and what is kept before it. -/
lemma Compacted.last (h : Compacted w i s) (hi : i < w.length) (hpos : 0 < s.2) :
    ∃ last, s.1[s.2 - 1]? = some last ∧ s.2 - 1 < s.1.length ∧
      (absorbAll ((w.take i).map spanOf)).reverse
      = spanOf last :: ((s.1.take (s.2 - 1)).map spanOf).reverse := by
  have hlt : s.2 - 1 < s.1.length := by
    have := h.few
    rw [h.length]
    omega
  refine ⟨s.1[s.2 - 1], List.getElem?_eq_getElem hlt, hlt, ?_⟩
  have htake : s.1.take s.2 = s.1.take (s.2 - 1) ++ [s.1[s.2 - 1]] := by
    have hsucc := List.take_succ_eq_append_getElem hlt
    rwa [Nat.sub_add_cancel hpos] at hsucc
  rw [← h.kept, htake, List.map_append, List.reverse_append]
  rfl

/-- A range that touches the last one kept grows it. -/
lemma Compacted.grow {last : ByteRange} {len : ℕ} (h : Compacted w i s) (hi : i < w.length)
    (hpos : 0 < s.2)
    (hlast : (absorbAll ((w.take i).map spanOf)).reverse
    = spanOf last :: ((s.1.take (s.2 - 1)).map spanOf).reverse) (htouch : w[i].1 ≤ last.1 + last.2)
    (hlen : last.1 + len = max (w[i].1 + w[i].2) (last.1 + last.2)) :
    Compacted w (i + 1) (s.1.set (s.2 - 1) (last.1, len), s.2) where
  kept := by
    have hlt : s.2 - 1 < s.1.length := by
      have := h.few
      rw [h.length]
      omega
    have htake : (s.1.set (s.2 - 1) (last.1, len)).take s.2 = s.1.take (s.2 - 1) ++
      [(last.1, len)] := by
      have hset := take_succ_set (last.1, len) hlt
      rwa [Nat.sub_add_cancel hpos] at hset
    have hspan : spanOf (last.1, len) = (last.1, max (w[i].1 + w[i].2) (last.1 + last.2)) := by
      rw [spanOf, hlen]
    rw [absorbAll_take_succ hi, hlast, absorb,
      if_pos (show (spanOf w[i]).1 ≤ (spanOf last).2 from htouch), List.reverse_cons,
      List.reverse_reverse, htake, List.map_append, List.map_singleton, hspan]
    rfl
  unread := drop_set_succ _ (by have := h.few; omega) h.unread
  length := by rw [List.length_set, h.length]
  few := h.few.trans (Nat.le_succ i)

/-- **One turn** scans one range more. -/
lemma mergeTurn_spec (hfits : ∀ r ∈ w, r.1 + r.2 < 2 ^ 64) (h : Compacted w i s)
    (hi : i < w.length) : ∃ s', mergeTurn s i = ok s' ∧ Compacted w (i + 1) s' := by
  have hread : (index s.1 i : Run Unit ByteRange) = ok w[i] := by rw [index, h.read hi]
  have hstop : w[i].1 + w[i].2 < 2 ^ 64 := hfits _ (List.getElem_mem hi)
  rw [mergeTurn, touchesLast]
  by_cases hpos : 0 < s.2
  · obtain ⟨last, hget, hlt, hlast⟩ := h.last hi hpos
    have hindex : (index s.1 (s.2 - 1) : Run Unit ByteRange) = ok last := by rw [index, hget]
    have hends : ∀ x ∈ (absorbAll ((w.take i).map spanOf)).reverse, x.2 ≤ 2 ^ 64 - 1 := by
      rw [absorbAll, List.reverse_reverse]
      refine foldl_absorb_le (fun x hx => ?_) (fun x hx => absurd hx List.not_mem_nil)
      obtain ⟨r, hr, rfl⟩ := List.mem_map.mp hx
      have := hfits r (List.mem_of_mem_take hr)
      simp only [spanOf]
      omega
    have hlastStop : last.1 + last.2 < 2 ^ 64 := by
      have := hends (spanOf last) (by rw [hlast]; exact List.mem_cons_self ..)
      simp only [spanOf] at this
      omega
    rw [if_pos hpos, hread, ok_bind, hindex, ok_bind, addU_eq hlastStop, ok_bind, ok_bind, ok_bind]
    by_cases htouch : w[i].1 ≤ last.1 + last.2
    · rw [if_pos (decide_eq_true htouch), ok_bind, addU_eq hstop, ok_bind, addU_eq hlastStop,
        ok_bind, subU_eq (by omega), ok_bind, store_eq _ hlt]
      exact ⟨_, rfl, h.grow hi hpos hlast htouch (by omega)⟩
    · rw [if_neg (by simpa using htouch), store_eq _ (by rw [h.length]; exact h.few.trans_lt hi)]
      refine ⟨_, rfl, h.push hi ?_⟩
      rw [hlast, absorb, if_neg (show ¬ (spanOf w[i]).1 ≤ (spanOf last).2 from htouch)]
  · have hzero : s.2 = 0 := Nat.eq_zero_of_not_pos hpos
    have hnone : absorbAll ((w.take i).map spanOf) = [] := by
      rw [← h.kept, hzero]
      rfl
    rw [if_neg hpos, ok_bind, hread, ok_bind, if_neg Bool.false_ne_true,
      store_eq _ (by rw [h.length]; exact h.few.trans_lt hi)]
    refine ⟨_, rfl, h.push hi ?_⟩
    rw [hnone]
    rfl

/-- **The loop** scans every range. -/
lemma mergeTurns_spec (hfits : ∀ r ∈ w, r.1 + r.2 < 2 ^ 64) (n : ℕ) (hn : n ≤ w.length) :
    ∃ s, (List.range n).foldlM mergeTurn (w, 0) = ok s ∧ Compacted w n s := by
  induction n with
  | zero => exact ⟨_, rfl, compacted_start w⟩
  | succ n ih =>
      obtain ⟨s, hrun, hs⟩ := ih (by omega)
      obtain ⟨s', hturn, hs'⟩ := mergeTurn_spec hfits hs (by omega)
      refine ⟨s', ?_, hs'⟩
      rw [List.range_succ, List.foldlM_append, hrun, ok_bind, List.foldlM_cons, hturn, ok_bind]
      rfl

end Loop

/-! ## The plan -/

section Plan

variable {v v' : List ByteRange}

/-- **`merge_ranges` is the scan** of the sorted ranges that name a byte. -/
lemma mergeRanges_scan (hfits : ∀ r ∈ v, r.1 + r.2 < 2 ^ 64) :
    ∃ out, mergeRanges v = ok out ∧
      out.map spanOf
      = absorbAll (((v.filter (fun r => 0 < r.2)).mergeSort sortsBefore).map spanOf) := by
  set w := (v.filter (fun r => 0 < r.2)).mergeSort sortsBefore with hw
  have hwfits : ∀ r ∈ w, r.1 + r.2 < 2 ^ 64 := by
    intro r hr
    rw [hw, List.mem_mergeSort] at hr
    exact hfits r (List.mem_of_mem_filter hr)
  obtain ⟨s, hrun, hs⟩ := mergeTurns_spec hwfits w.length (le_refl _)
  refine ⟨s.1.take s.2, ?_, ?_⟩
  · rw [mergeRanges]
    simp only [← hw, hrun, ok_bind]
  · rw [hs.kept, List.take_length]

/-- The plan as intervals: separated, and of the bytes asked for. -/
lemma mergeRanges_separated (hfits : ∀ r ∈ v, r.1 + r.2 < 2 ^ 64) :
    ∃ out, mergeRanges v = ok out ∧ Separated (out.map spanOf) ∧
    cover (out.map spanOf) = namedBytes v := by
  obtain ⟨out, hrun, hscan⟩ := mergeRanges_scan hfits
  obtain ⟨hsep, hcover⟩ :=
    absorbAll_spec (l := ((v.filter (fun r => 0 < r.2)).mergeSort sortsBefore).map spanOf)
    (List.pairwise_map.mpr (pairwise_sortsBefore _)) (fun x hx => by
      obtain ⟨r, hr, rfl⟩ := List.mem_map.mp hx
      rw [List.mem_mergeSort, List.mem_filter] at hr
      have := of_decide_eq_true hr.2
      simp only [spanOf]
      omega)
  refine ⟨out, hrun, hscan ▸ hsep, ?_⟩
  rw [hscan, hcover, ← namedBytes_eq, namedBytes_mergeSort, namedBytes_filter]

/-- A plan of ranges in order, none of them empty, a byte at least between one and the next. -/
structure ApartRanges (out : List ByteRange) : Prop where
  sorted : out.Pairwise (fun r s => r.1 < s.1)
  nonzero : ∀ r ∈ out, 0 < r.2
  apart : out.Pairwise (fun r s => r.1 + r.2 < s.1)

/-- **`merge_ranges` keeps exactly the named bytes**, in ranges in order and apart. -/
theorem mergeRanges_keeps (v : List ByteRange) (hfits : ∀ r ∈ v, r.1 + r.2 < 2 ^ 64) :
    ∃ out, mergeRanges v = ok out ∧ ApartRanges out ∧ namedBytes out = namedBytes v := by
  obtain ⟨out, hrun, hsep, hcover⟩ := mergeRanges_separated hfits
  have hapart : out.Pairwise (fun r s => r.1 + r.2 < s.1) := List.pairwise_map.mp hsep.apart
  refine ⟨out, hrun, ⟨hapart.imp (fun h => by omega), fun r hr => ?_, hapart⟩, ?_⟩
  · have := hsep.inhabited _ (List.mem_map_of_mem hr)
    simp only [spanOf] at this
    omega
  · rw [namedBytes_eq, hcover]

/-- Ranges that overlap, nest, touch, repeat and name nothing. -/
theorem mergeRanges_keeps_few : ∃ out, mergeRanges [(9, 0), (5, 3), (0, 4), (1, 2), (8, 1), (0, 4)]
    = ok out ∧
    ApartRanges out ∧
    namedBytes out = namedBytes [(9, 0), (5, 3), (0, 4), (1, 2), (8, 1), (0, 4)] :=
  mergeRanges_keeps _ (by decide)

end Plan

end Supdb
