import Mathlib.Tactic

/-!
# Counting passes

A counting pass moves a list into another of its length, by a digit of each element: how many
elements each digit has is counted, the counts are summed to where each digit's elements begin, and
each element goes to the next place of its digit.

* `countingPass` – the pass, with its counts and its scatter.
* `buckets` – what it is for: the elements of each digit together, those of one digit in the order
  they had.
* `countingPass_eq` – **a pass buckets its list.**
* `buckets_perm`, `pairwise_buckets` – bucketing rearranges a list, and orders it by the digit first
  and by whatever ordered it second.
-/

namespace StorageLib

variable {α : Type}

/-- How many elements have each digit below `K`. -/
def digitCounts (K : ℕ) (d : α → ℕ) (v : List α) : List ℕ :=
  v.foldl (fun c x => c.modify (d x) (· + 1)) (List.replicate K 0)

/-- Counts summed to the places their digits begin at. -/
def digitStarts : List ℕ → ℕ → List ℕ
  | [], _ => []
  | c :: cs, sum => sum :: digitStarts cs (sum + c)

/-- Each element to the next place of its digit. -/
def scatter (d : α → ℕ) (v : List α) (s : List α × List ℕ) : List α × List ℕ :=
  v.foldl (fun s x => (s.1.set (s.2.getD (d x) 0) x, s.2.modify (d x) (· + 1))) s

/-- A counting pass, into `scratch`. -/
def countingPass (K : ℕ) (d : α → ℕ) (v scratch : List α) : List α :=
  (scatter d v (scratch, digitStarts (digitCounts K d v) 0)).1

/-- The elements of each digit together, in the order they had. -/
def buckets (K : ℕ) (d : α → ℕ) (v : List α) : List α :=
  (List.range K).flatMap (fun b => v.filter (fun x => d x = b))

section Counts

variable {K : ℕ} {d : α → ℕ} {v : List α}

lemma digitCounts_eq :
    digitCounts K d v = (List.range K).map (fun b => (v.filter (fun x => d x = b)).length) := by
  have hfold : ∀ cs : List ℕ, ∀ b, (v.foldl (fun c x => c.modify (d x) (· + 1)) cs)[b]?
      = cs[b]?.map (· + (v.filter (fun x => d x = b)).length) := by
    induction v with
    | nil => intro cs b; simp
    | cons x v ih =>
        intro cs b
        rw [List.foldl_cons, ih, List.getElem?_modify]
        by_cases hx : d x = b
        · rw [List.filter_cons_of_pos (by simpa using hx)]
          cases cs[b]? with
          | none => rfl
          | some n =>
              simp only [hx, if_true, Option.map_eq_map, Option.map_some, List.length_cons]
              congr 1
              omega
        · rw [List.filter_cons_of_neg (by simpa using hx)]
          simp [hx]
  refine List.ext_getElem? (fun b => ?_)
  rw [digitCounts, hfold, List.getElem?_map]
  by_cases hb : b < K
  · rw [List.getElem?_replicate_of_lt hb, List.getElem?_range hb]
    simp
  · rw [List.getElem?_eq_none (by simpa using hb), List.getElem?_eq_none (by simpa using hb)]
    rfl

/-- Bucketing rearranges. -/
lemma buckets_perm (h : ∀ x ∈ v, d x < K) : (buckets K d v).Perm v := by
  have hbelow : ∀ K, (buckets K d v).Perm (v.filter (fun x => d x < K)) := by
    intro K
    induction K with
    | zero => simp [buckets]
    | succ K ih =>
        have hlow : (v.filter (fun x => d x < K + 1)).filter (fun x => d x < K) = v.filter (fun x => d x < K) := by
          rw [List.filter_filter]
          refine List.filter_congr (fun x _ => ?_)
          rw [← Bool.decide_and]
          exact decide_eq_decide.mpr (by omega)
        have hhigh : (v.filter (fun x => d x < K + 1)).filter (fun x => !decide (d x < K))
            = v.filter (fun x => d x = K) := by
          rw [List.filter_filter]
          refine List.filter_congr (fun x _ => ?_)
          rw [← decide_not, ← Bool.decide_and]
          exact decide_eq_decide.mpr (by omega)
        rw [buckets, List.range_succ, List.flatMap_append, List.flatMap_singleton]
        have hsplit := List.filter_append_perm (fun x => decide (d x < K)) (v.filter (fun x => d x < K + 1))
        rw [hlow, hhigh] at hsplit
        exact (ih.append_right _).trans hsplit
  have hall : v.filter (fun x => d x < K) = v :=
    List.filter_eq_self.mpr (fun x hx => by simpa using h x hx)
  have hperm := hbelow K
  rwa [hall] at hperm

/-- **Bucketing orders by the digit**, and where digits tie as the list was ordered. -/
lemma pairwise_buckets {R : α → α → Prop} (h : v.Pairwise R) :
    (buckets K d v).Pairwise (fun x y => d x < d y ∨ d x = d y ∧ R x y) := by
  rw [buckets, List.pairwise_flatMap]
  refine ⟨fun b _ => ?_, ?_⟩
  · refine List.Pairwise.imp_of_mem ?_ (h.filter _)
    intro x y hx hy hxy
    have hx' : d x = b := by simpa using (List.mem_filter.mp hx).2
    have hy' : d y = b := by simpa using (List.mem_filter.mp hy).2
    exact Or.inr ⟨hx'.trans hy'.symm, hxy⟩
  · refine List.Pairwise.imp ?_ List.pairwise_lt_range
    intro b c hbc x hx y hy
    have hx' : d x = b := by simpa using (List.mem_filter.mp hx).2
    have hy' : d y = c := by simpa using (List.mem_filter.mp hy).2
    exact Or.inl (by rw [hx', hy']; exact hbc)

end Counts

/-! ## The scatter -/

/-- Buckets laid one behind the other, each what it holds and the room left in it. -/
def laid (bs : List (List α × List α)) : List α := bs.flatMap (fun p => p.1 ++ p.2)

/-- The next place in each bucket. -/
def places : List (List α × List α) → ℕ → List ℕ
  | [], _ => []
  | p :: bs, s => (s + p.1.length) :: places bs (s + p.1.length + p.2.length)

/-- An element put into a bucket. -/
def putIn (x : α) (p : List α × List α) : List α × List α := (p.1 ++ [x], p.2.tail)

section Scatter

variable {d : α → ℕ} {v : List α} {bs : List (List α × List α)} {b s : ℕ}
    {p : List α × List α} {x : α}

lemma places_getD (h : bs[b]? = some p) : s + p.1.length ≤ (places bs s).getD b 0 := by
  induction bs generalizing b s with
  | nil => simp at h
  | cons q bs ih =>
      cases b with
      | zero =>
          rw [List.getElem?_cons_zero, Option.some.injEq] at h
          rw [places, List.getD_cons_zero, h]
      | succ b =>
          rw [List.getElem?_cons_succ] at h
          have hrest := ih (s := s + q.1.length + q.2.length) h
          rw [places, List.getD_cons_succ]
          omega

lemma places_modify (h : bs[b]? = some p) (hroom : p.2 ≠ []) :
    (places bs s).modify b (· + 1) = places (bs.modify b (putIn x)) s := by
  induction bs generalizing b s with
  | nil => simp at h
  | cons q bs ih =>
      cases b with
      | zero =>
          rw [List.getElem?_cons_zero, Option.some.injEq] at h
          subst h
          have hpos := List.length_pos_iff.mpr hroom
          rw [places, List.modify_zero_cons, List.modify_zero_cons, places, putIn]
          simp only [List.length_append, List.length_singleton, List.length_tail]
          rw [show s + (q.1.length + 1) + (q.2.length - 1) = s + q.1.length + q.2.length by omega]
          rfl
      | succ b =>
          rw [List.getElem?_cons_succ] at h
          rw [places, List.modify_succ_cons, List.modify_succ_cons, places, ih h]

/-- An element set at its bucket's next place is in the bucket. -/
lemma laid_set (h : bs[b]? = some p) (hroom : p.2 ≠ []) :
    (laid bs).set ((places bs s).getD b 0 - s) x = laid (bs.modify b (putIn x)) := by
  induction bs generalizing b s with
  | nil => simp at h
  | cons q bs ih =>
      cases b with
      | zero =>
          rw [List.getElem?_cons_zero, Option.some.injEq] at h
          subst h
          obtain ⟨y, ys, hq⟩ := List.exists_cons_of_ne_nil hroom
          rw [places, List.getD_cons_zero, List.modify_zero_cons, laid, laid, List.flatMap_cons, List.flatMap_cons,
            putIn, hq, Nat.add_sub_cancel_left, List.append_assoc, List.set_append_right _ _ (le_refl _), Nat.sub_self]
          simp
      | succ b =>
          rw [List.getElem?_cons_succ] at h
          have hplace := places_getD (s := s + q.1.length + q.2.length) h
          rw [places, List.getD_cons_succ, List.modify_succ_cons, laid, laid, List.flatMap_cons,
            List.flatMap_cons, List.set_append_right _ _ (by rw [List.length_append]; omega)]
          refine congrArg _ ?_
          rw [← laid, ← laid, ← ih (s := s + q.1.length + q.2.length) h, List.length_append]
          congr 1
          omega

/-- **The scatter** fills every bucket with its digit's elements. -/
lemma scatter_laid (hd : ∀ x ∈ v, d x < bs.length)
    (hroom : ∀ b p, bs[b]? = some p → p.2.length = (v.filter (fun x => d x = b)).length) :
    (scatter d v (laid bs, places bs 0)).1
      = bs.zipIdx.flatMap (fun q => q.1.1 ++ v.filter (fun x => d x = q.2)) := by
  induction v generalizing bs with
  | nil =>
      rw [scatter, List.foldl_nil, laid, List.flatMap_def, List.flatMap_def]
      refine congrArg _ (List.ext_getElem? (fun b => ?_))
      rw [List.getElem?_map, List.getElem?_map, List.getElem?_zipIdx]
      cases hb : bs[b]? with
      | none => rfl
      | some p =>
          have hnil : p.2 = [] := List.length_eq_zero_iff.mp (hroom b p hb)
          simp [hnil]
  | cons x v ih =>
      have hx := hd x (List.mem_cons_self ..)
      have hp := List.getElem?_eq_getElem hx
      have hne : (bs[d x]).2 ≠ [] := by
        have hlen := hroom _ _ hp
        rw [List.filter_cons_of_pos (by simp)] at hlen
        intro hnil
        rw [hnil] at hlen
        exact absurd hlen (by simp)
      have hset := laid_set (s := 0) (x := x) hp hne
      rw [Nat.sub_zero] at hset
      have hstep : scatter d (x :: v) (laid bs, places bs 0)
          = scatter d v (laid (bs.modify (d x) (putIn x)), places (bs.modify (d x) (putIn x)) 0) := by
        rw [scatter, List.foldl_cons, hset, places_modify hp hne, ← scatter]
      rw [hstep, ih]
      · rw [List.flatMap_def, List.flatMap_def]
        refine congrArg _ (List.ext_getElem? (fun b => ?_))
        rw [List.getElem?_map, List.getElem?_map, List.getElem?_zipIdx, List.getElem?_zipIdx, List.getElem?_modify]
        cases bs[b]? with
        | none => rfl
        | some p =>
            by_cases hb : d x = b
            · simp [hb, putIn]
            · simp [hb]
      · intro y hy
        rw [List.length_modify]
        exact hd y (List.mem_cons_of_mem _ hy)
      · intro b p hbp
        rw [List.getElem?_modify, Option.map_eq_map, Option.map_eq_some_iff] at hbp
        obtain ⟨q, hq, rfl⟩ := hbp
        have hlen := hroom b q hq
        by_cases hb : d x = b
        · rw [List.filter_cons_of_pos (by simpa using hb), List.length_cons] at hlen
          rw [if_pos hb, putIn, List.length_tail, hlen, Nat.add_sub_cancel]
        · rw [List.filter_cons_of_neg (by simpa using hb)] at hlen
          rw [if_neg hb, hlen]

/-- Empty buckets of given sizes laid over a list of their length. -/
lemma exists_laid {cs : List ℕ} {scratch : List α} (h : cs.sum = scratch.length) :
    ∃ bs : List (List α × List α), laid bs = scratch ∧ bs.map (fun p => (p.1, p.2.length))
      = cs.map (fun c => ([], c)) ∧ ∀ s, places bs s = digitStarts cs s := by
  induction cs generalizing scratch with
  | nil =>
      have hnil : scratch = [] := List.length_eq_zero_iff.mp h.symm
      exact ⟨[], hnil.symm, rfl, fun s => rfl⟩
  | cons c cs ih =>
      rw [List.sum_cons] at h
      have hrest : cs.sum = (scratch.drop c).length := by
        rw [List.length_drop]
        omega
      obtain ⟨bs, hlaid, hmap, hplaces⟩ := ih hrest
      have hc : (scratch.take c).length = c := by
        rw [List.length_take]
        omega
      refine ⟨([], scratch.take c) :: bs, ?_, ?_, fun s => ?_⟩
      · rw [laid, List.flatMap_cons, ← laid, hlaid, List.nil_append]
        exact List.take_append_drop c scratch
      · rw [List.map_cons, List.map_cons, hmap, hc]
      · rw [places, digitStarts, hplaces, hc]
        simp

end Scatter

/-- **A counting pass buckets its list.** -/
theorem countingPass_eq {K : ℕ} {d : α → ℕ} {v scratch : List α} (hd : ∀ x ∈ v, d x < K)
    (hlen : scratch.length = v.length) : countingPass K d v scratch = buckets K d v := by
  have hsum : (digitCounts K d v).sum = scratch.length := by
    rw [hlen, ← (buckets_perm hd).length_eq, buckets, List.length_flatMap, digitCounts_eq]
  obtain ⟨bs, hlaid, hmap, hplaces⟩ := exists_laid hsum
  have hbs : bs.length = K := by
    have := congrArg List.length hmap
    rw [List.length_map, List.length_map, digitCounts_eq, List.length_map,
      List.length_range] at this
    exact this
  have hsize : ∀ b p, bs[b]? = some p → p.1 = [] ∧
    p.2.length = (v.filter (fun x => d x = b)).length := by
    intro b p hb
    have hb' := congrArg (fun l => l[b]?) hmap
    have hlt : b < K := hbs ▸ (List.getElem?_eq_some_iff.mp hb).1
    simp only [List.getElem?_map, digitCounts_eq, hb, List.getElem?_range hlt, Option.map_some,
      Option.some.injEq, Prod.mk.injEq] at hb'
    exact hb'
  rw [countingPass, ← hlaid, ← hplaces,
    scatter_laid (fun x hx => hbs ▸ hd x hx) (fun b p hb => (hsize b p hb).2),
    buckets, List.flatMap_def, List.flatMap_def]
  refine congrArg _ (List.ext_getElem? (fun b => ?_))
  rw [List.getElem?_map, List.getElem?_map, List.getElem?_zipIdx]
  by_cases hb : b < K
  · have hget := List.getElem?_eq_getElem (hbs ▸ hb : b < bs.length)
    rw [hget, List.getElem?_range hb]
    simp [(hsize b _ hget).1]
  · rw [List.getElem?_eq_none (hbs ▸ not_lt.mp hb), List.getElem?_eq_none (by simpa using hb)]
    rfl

end StorageLib
