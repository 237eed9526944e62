import Supdb.Lib.Radix

/-!
# Stable sorts

A list sorted stably by a measure is in the order of the measure, and what has one measure stands as
it stood. These two say which list it is, so that **a stable sort is the stable sort**: whatever way
a list was sorted, if it meets them it is the merge sort of the list.

A counting pass keeps the order of what ties, so passes over the digits of a number, the lowest
first, sort stably by the number.

* `StableSort` – the two properties, and `StableSort.eq` – **there is one such list.**
* `stableSort_mergeSort` – a merge sort is one.
* `StableSort.digit`, `StableSort.skip` – one digit more by a pass, or by nothing where the digit is
  everywhere the same.
-/

namespace StorageLib

variable {α : Type}

/-- `w` is `v` in the order of `f`, what has one `f` as it stood in `v`. -/
structure StableSort (f : α → ℕ) (v w : List α) : Prop where
  sorted : w.Pairwise (fun x y => f x ≤ f y)
  stable : ∀ c, w.filter (fun x => f x = c) = v.filter (fun x => f x = c)

section Unique

variable {f g : α → ℕ} {v w w' : List α}

/-- What a stable sort holds is what it was given. -/
lemma StableSort.mem_iff (h : StableSort f v w) (x : α) : x ∈ w ↔ x ∈ v := by
  have hmem : x ∈ w.filter (fun y => f y = f x) ↔ x ∈ v.filter (fun y => f y = f x) := by
    rw [h.stable]
  simpa using hmem

/-- Sorted lists that agree on every measure are one. -/
lemma eq_of_sorted_filter (hw : w.Pairwise (fun x y => f x ≤ f y))
    (hw' : w'.Pairwise (fun x y => f x ≤ f y))
    (h : ∀ c, w.filter (fun x => f x = c) = w'.filter (fun x => f x = c)) : w = w' := by
  have hmem : ∀ x, x ∈ w ↔ x ∈ w' := by
    intro x
    have hx : x ∈ w.filter (fun y => f y = f x) ↔ x ∈ w'.filter (fun y => f y = f x) := by rw [h]
    simpa using hx
  induction w generalizing w' with
  | nil =>
      refine (List.eq_nil_iff_forall_not_mem.mpr (fun x hx => ?_)).symm
      exact absurd ((hmem x).mpr hx) List.not_mem_nil
  | cons x w ih =>
      cases w' with
      | nil => exact absurd ((hmem x).mp (List.mem_cons_self ..)) List.not_mem_nil
      | cons y w' =>
          obtain ⟨hx, hwt⟩ := List.pairwise_cons.mp hw
          obtain ⟨hy, hwt'⟩ := List.pairwise_cons.mp hw'
          -- the two heads have the least measure, so they are the first of it in both lists
          have hxy : f y ≤ f x := by
            rcases List.mem_cons.mp ((hmem x).mp (List.mem_cons_self ..)) with rfl | hin
            · exact le_refl _
            · exact hy x hin
          have hyx : f x ≤ f y := by
            rcases List.mem_cons.mp ((hmem y).mpr (List.mem_cons_self ..)) with rfl | hin
            · exact le_refl _
            · exact hx y hin
          have hf : f x = f y := le_antisymm hyx hxy
          have hhead := h (f y)
          rw [List.filter_cons_of_pos (by simpa using hf), List.filter_cons_of_pos (by simp), List.cons.injEq] at hhead
          obtain ⟨rfl, -⟩ := hhead
          have htail : ∀ c, w.filter (fun z => f z = c) = w'.filter (fun z => f z = c) := by
            intro c
            have hc := h c
            by_cases hxc : f x = c
            · rw [List.filter_cons_of_pos (by simpa using hxc), List.filter_cons_of_pos (by simpa using hxc)] at hc
              exact List.tail_eq_of_cons_eq hc
            · rwa [List.filter_cons_of_neg (by simpa using hxc), List.filter_cons_of_neg (by simpa using hxc)] at hc
          refine congrArg _ (ih hwt hwt' htail (fun z => ?_))
          have hz : z ∈ w.filter (fun a => f a = f z) ↔ z ∈ w'.filter (fun a => f a = f z) := by rw [htail]
          simpa using hz

/-- **There is one stable sort.** -/
theorem StableSort.eq (h : StableSort f v w) (h' : StableSort f v w') : w = w' :=
  eq_of_sorted_filter h.sorted h'.sorted (fun c => (h.stable c).trans (h'.stable c).symm)

/-- A merge sort is stable. -/
theorem stableSort_mergeSort (f : α → ℕ) (v : List α) :
    StableSort f v (v.mergeSort (fun x y => f x ≤ f y)) := by
  have htrans : ∀ a b c : α, decide (f a ≤ f b) = true → decide (f b ≤ f c) = true →
    decide (f a ≤ f c) = true := by
    intro a b c hab hbc
    exact decide_eq_true ((of_decide_eq_true hab).trans (of_decide_eq_true hbc))
  have htotal : ∀ a b : α, (decide (f a ≤ f b) || decide (f b ≤ f a)) = true := by
    intro a b
    rw [Bool.or_eq_true, decide_eq_true_eq, decide_eq_true_eq]
    exact le_total _ _
  refine ⟨(List.pairwise_mergeSort htrans htotal v).imp of_decide_eq_true, fun c => ?_⟩
  have hties : (v.filter (fun x => f x = c)).Pairwise (fun x y => decide (f x ≤ f y) = true) := by
    refine List.pairwise_of_forall_mem_list (fun x hx y hy => decide_eq_true (le_of_eq ?_))
    exact (of_decide_eq_true (List.mem_filter.mp hx).2).trans
      (of_decide_eq_true (List.mem_filter.mp hy).2).symm
  have hsub := (List.sublist_mergeSort htrans htotal hties (List.filter_sublist (l := v))).filter
    (fun x => f x = c)
  rw [List.filter_filter, List.filter_congr (q := fun x => decide (f x = c))
    (fun x _ => Bool.and_self _)] at hsub
  refine (hsub.eq_of_length ?_).symm
  exact ((List.mergeSort_perm v (fun x y => decide (f x ≤ f y))).filter _).length_eq.symm

/-- A stable sort is the merge sort. -/
lemma StableSort.eq_mergeSort (h : StableSort f v w) : w = v.mergeSort (fun x y => f x ≤ f y) :=
  h.eq (stableSort_mergeSort f v)

lemma StableSort.perm (h : StableSort f v w) : w.Perm v := by
  rw [h.eq_mergeSort]
  exact List.mergeSort_perm v _

/-- What a finer measure ties stands as it stood as well. -/
lemma StableSort.stable_of (h : StableSort f v w) (hfg : ∀ x y, g x = g y → f x = f y) (c : ℕ) :
    w.filter (fun x => g x = c) = v.filter (fun x => g x = c) := by
  by_cases hc : ∃ x, g x = c
  · obtain ⟨x, rfl⟩ := hc
    have hthrough : ∀ l : List α, l.filter (fun y => g y = g x)
        = (l.filter (fun y => f y = f x)).filter (fun y => g y = g x) := by
      intro l
      rw [List.filter_filter]
      refine List.filter_congr (fun y _ => ?_)
      by_cases hy : g y = g x
      · simp [hy, hfg y x hy]
      · simp [hy]
    rw [hthrough w, hthrough v, h.stable]
  · have hnone : ∀ l : List α, l.filter (fun y => g y = c) = [] := by
      intro l
      refine List.filter_eq_nil_iff.mpr (fun y _ hy => hc ⟨y, of_decide_eq_true hy⟩)
    rw [hnone, hnone]

end Unique

/-! ## Digits -/

section Digits

variable {f : α → ℕ} {v s : List α} {B i K : ℕ} {d : α → ℕ}

lemma filter_buckets (p : α → Bool) : (buckets K d v).filter p = buckets K d (v.filter p) := by
  rw [buckets, buckets, List.filter_flatMap]
  refine congrArg (fun g => (List.range K).flatMap g) (funext (fun b => ?_))
  rw [List.filter_filter, List.filter_filter]
  exact List.filter_congr (fun x _ => Bool.and_comm _ _)

/-- Bucketing what has one digit changes nothing. -/
lemma buckets_const {b : ℕ} (hb : b < K) (h : ∀ x ∈ v, d x = b) : buckets K d v = v := by
  have hsplit : ∀ n, (List.range n).flatMap (fun c => v.filter (fun x => d x = c))
    = if b < n then v else [] := by
    intro n
    induction n with
    | zero => simp
    | succ n ih =>
        rw [List.range_succ, List.flatMap_append, ih, List.flatMap_singleton]
        rcases Nat.lt_trichotomy b n with hlt | rfl | hgt
        · rw [if_pos hlt, if_pos (by omega),
            List.filter_eq_nil_iff.mpr (fun x hx => by simp [h x hx]; omega), List.append_nil]
        · rw [if_neg (lt_irrefl b), if_pos (by omega),
            List.filter_eq_self.mpr (fun x hx => by simp [h x hx]), List.nil_append]
        · rw [if_neg (by omega), if_neg (by omega),
            List.filter_eq_nil_iff.mpr (fun x hx => by simp [h x hx]; omega), List.append_nil]
  rw [buckets, hsplit, if_pos hb]

lemma mod_pow_succ_eq {a b : ℕ} (h : a % B ^ (i + 1) = b % B ^ (i + 1)) :
    a % B ^ i = b % B ^ i ∧ a / B ^ i % B = b / B ^ i % B := by
  have hpow : B ^ i ∣ B ^ (i + 1) := pow_dvd_pow B (Nat.le_succ i)
  refine ⟨?_, ?_⟩
  · rw [← Nat.mod_mod_of_dvd a hpow, h, Nat.mod_mod_of_dvd b hpow]
  · rw [← Nat.mod_mul_right_div_self, ← Nat.mod_mul_right_div_self, ← pow_succ, h]

lemma mod_pow_succ_le {a b : ℕ} (hB : 0 < B) (h : a / B ^ i % B < b / B ^ i % B ∨
    a / B ^ i % B = b / B ^ i % B ∧ a % B ^ i ≤ b % B ^ i) : a % B ^ (i + 1) ≤ b % B ^ (i + 1) := by
  have hpos : 0 < B ^ i := Nat.pow_pos hB
  rw [Nat.mod_pow_succ, Nat.mod_pow_succ]
  rcases h with hlt | ⟨heq, hle⟩
  · have ha := Nat.mod_lt a hpos
    have hmul := Nat.mul_le_mul_left (B ^ i) (Nat.succ_le_of_lt hlt)
    rw [Nat.succ_eq_add_one, Nat.mul_add, Nat.mul_one] at hmul
    have hb := Nat.zero_le (b % B ^ i)
    omega
  · rw [heq]
    omega

/-- A list is sorted stably by no digit. -/
lemma stableSort_mod_zero (f : α → ℕ) (B : ℕ) (v : List α) :
    StableSort (fun x => f x % B ^ 0) v v := by
  refine ⟨List.pairwise_of_forall (fun x y => ?_), fun c => rfl⟩
  rw [pow_zero, Nat.mod_one, Nat.mod_one]

/-- **A pass by the next digit** sorts stably by one digit more. -/
theorem StableSort.digit (h : StableSort (fun x => f x % B ^ i) v s) (hB : 0 < B)
    (hd : ∀ x ∈ v, d x = f x / B ^ i % B) :
    StableSort (fun x => f x % B ^ (i + 1)) v (buckets B d s) := by
  have hds : ∀ x ∈ s, d x = f x / B ^ i % B := fun x hx => hd x ((h.mem_iff x).mp hx)
  have hlt : ∀ x ∈ s, d x < B := by
    intro x hx
    rw [hds x hx]
    exact Nat.mod_lt _ hB
  refine ⟨?_, fun c => ?_⟩
  · refine List.Pairwise.imp_of_mem ?_ (pairwise_buckets h.sorted)
    intro x y hx hy hxy
    rw [hds x ((buckets_perm hlt).mem_iff.mp hx), hds y ((buckets_perm hlt).mem_iff.mp hy)] at hxy
    exact mod_pow_succ_le hB hxy
  · rw [filter_buckets]
    have hties := h.stable_of (g := fun x => f x % B ^ (i + 1))
      (fun x y hxy => (mod_pow_succ_eq hxy).1) c
    cases hfirst : s.filter (fun x => f x % B ^ (i + 1) = c) with
    | nil =>
        rw [← hties, hfirst, buckets]
        simp
    | cons x rest =>
        have hx : x ∈ s.filter (fun x => f x % B ^ (i + 1) = c) := by
          rw [hfirst]
          exact List.mem_cons_self ..
        rw [← hties, ← hfirst]
        refine buckets_const (hlt x (List.mem_filter.mp hx).1) (fun y hy => ?_)
        obtain ⟨hys, hyc⟩ := List.mem_filter.mp hy
        obtain ⟨hxs, hxc⟩ := List.mem_filter.mp hx
        rw [hds y hys, hds x hxs]
        exact (mod_pow_succ_eq ((of_decide_eq_true hyc).trans (of_decide_eq_true hxc).symm)).2

/-- **No pass** does where the next digit is everywhere the same. -/
theorem StableSort.skip (h : StableSort (fun x => f x % B ^ i) v s) (hB : 0 < B)
    (hd : ∀ x ∈ v, ∀ y ∈ v, f x / B ^ i % B = f y / B ^ i % B) :
    StableSort (fun x => f x % B ^ (i + 1)) v s := by
  refine ⟨List.Pairwise.imp_of_mem ?_ h.sorted,
    h.stable_of (fun x y hxy => (mod_pow_succ_eq hxy).1)⟩
  intro x y hx hy hxy
  exact mod_pow_succ_le hB (Or.inr ⟨hd x ((h.mem_iff x).mp hx) y ((h.mem_iff y).mp hy), hxy⟩)

/-- **Sorted by all its digits** is sorted by the number. -/
lemma StableSort.whole (h : StableSort (fun x => f x % B ^ i) v s) (hf : ∀ x ∈ v, f x < B ^ i) :
    StableSort f v s := by
  have hmod : ∀ x ∈ v, f x % B ^ i = f x := fun x hx => Nat.mod_eq_of_lt (hf x hx)
  refine ⟨List.Pairwise.imp_of_mem ?_ h.sorted, fun c => ?_⟩
  · intro x y hx hy hxy
    rwa [hmod x ((h.mem_iff x).mp hx), hmod y ((h.mem_iff y).mp hy)] at hxy
  · have hs := List.filter_congr (l := s) (p := fun x => decide (f x % B ^ i = c))
      (q := fun x => decide (f x = c)) (fun x hx => by rw [hmod x ((h.mem_iff x).mp hx)])
    have hv := List.filter_congr (l := v) (p := fun x => decide (f x % B ^ i = c))
      (q := fun x => decide (f x = c)) (fun x hx => by rw [hmod x hx])
    rw [← hs, ← hv]
    exact h.stable c

end Digits

end StorageLib
