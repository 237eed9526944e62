import Supdb.OrdSeek

/-!
# Seeks are exact

For a segment's keys in order, a seek answers how many keys are below the query.

The keys carry a common prefix, so the heads ascend with them, and where a query that carries it and
a key have different heads the heads tell their order.  A seek therefore finds the run of keys whose
heads tie the query's, and the answer lies in it.  Where a head is a whole key the run has one key
at most, and lengths decide.
-/

namespace Supdb

open StorageLib

/-! ## Comparing short slices -/

lemma cmpShortTail_eq {a b : Bytes} (h : a.length = b.length) : cmpShortTail a b = cmp a b := by
  induction a generalizing b with
  | nil =>
      rw [List.length_eq_zero_iff.mp h.symm, cmp_of_eq]
      rfl
  | cons x a ih =>
      cases b with
      | nil => simp at h
      | cons y b =>
          rw [List.length_cons, List.length_cons, Nat.add_right_cancel_iff] at h
          have hcut := @cmp_append _ _ [x] [y] rfl a b
          rw [List.singleton_append, List.singleton_append] at hcut
          rw [cmpShortTail, hcut]
          by_cases hxy : x = y
          · rw [if_pos hxy, hxy, cmp_of_eq, ih h]
            rfl
          · rw [if_neg hxy]
            rcases lt_or_gt_of_ne hxy with hlt | hgt
            · rw [cmp_of_lt (cons_lt_cons.mpr (Or.inl hlt)), hlt.cmp_eq_lt]
              rfl
            · rw [cmp_of_gt (cons_lt_cons.mpr (Or.inl hgt)), hgt.cmp_eq_gt]
              rfl

/-- From any byte that the slices are the same before. -/
lemma cmpShortFrom_eq {a b : Bytes} {n : ℕ} (ha : a.length = n) (hb : b.length = n) {i : ℕ}
    (hi : i ≤ n) (hsame : a.take i = b.take i) : cmpShortFrom a b n i = cmp a b := by
  induction hd : n - i using Nat.strong_induction_on generalizing i with
  | _ d ih =>
      have hlens : cmp a.length b.length = .eq := by rw [ha, hb, cmp_self_eq_eq]
      have hthen : ∀ o : Ordering, o.then .eq = o := by
        intro o
        cases o with
        | lt => rfl
        | eq => rfl
        | gt => rfl
      rw [cmpShortFrom]
      split_ifs with hword hleft hlong
      · have hla : (slice a i (i + 8)).length = 8 := by rw [length_slice_of_le (by omega)]; omega
        have hlb : (slice b i (i + 8)).length = 8 := by rw [length_slice_of_le (by omega)]; omega
        have hcut : ∀ c : Bytes, c.drop i = slice c i (i + 8) ++ c.drop (i + 8) := by
          intro c
          rw [slice_eq_take_drop, Nat.add_sub_cancel_left, ← List.drop_drop, List.take_append_drop]
        have hsplit := cmp_drop hsame
        rw [hcut a, hcut b, cmp_append (hla.trans hlb.symm)] at hsplit
        rw [cmp_beNat (hla.trans hlb.symm)]
        cases hcmp : cmp (slice a i (i + 8)) (slice b i (i + 8)) with
        | lt =>
            rw [hcmp] at hsplit
            exact hsplit
        | gt =>
            rw [hcmp] at hsplit
            exact hsplit
        | eq =>
            refine ih _ (by omega) (by omega) ?_ rfl
            have hword : slice a i (i + 8) = slice b i (i + 8) := eq_of_cmp_eq hcmp
            have htake : ∀ c : Bytes, c.take (i + 8) = c.take i ++ slice c i (i + 8) := by
              intro c
              rw [slice_eq_take_drop, Nat.add_sub_cancel_left, List.take_add]
            rw [htake a, htake b, hsame, hword]
      · have hshared : a.take (n - 8) = b.take (n - 8) := by
          have := congrArg (List.take (n - 8)) hsame
          rwa [List.take_take, List.take_take, min_eq_left (by omega)] at this
        have hall : ∀ {c : Bytes}, c.length = n → slice c (n - 8) n = c.drop (n - 8) := by
          intro c hc
          rw [slice, List.take_of_length_le (by omega)]
        have hlen : (slice a (n - 8) n).length = (slice b (n - 8) n).length := by
          rw [length_slice, length_slice, ha, hb]
        rw [hlens, hthen, cmp_beNat hlen, hall ha, hall hb, cmp_drop hshared]
      · have hall : ∀ {c : Bytes}, c.length = n → slice c i n = c.drop i := by
          intro c hc
          rw [slice, List.take_of_length_le (by omega)]
        have hlen : (slice a i n).length = (slice b i n).length := by
          rw [length_slice, length_slice, ha, hb]
        rw [hlens, hthen, cmpShortTail_eq hlen, hall ha, hall hb, cmp_drop hsame]
      · have hin : i = n := by omega
        rw [hin, List.take_of_length_le (by omega), List.take_of_length_le (by omega)] at hsame
        rw [hlens, hsame, cmp_of_eq]

/-- **The short compare is the slices' compare.** -/
lemma cmpShort_eq {a b : Bytes} (h : a.length = b.length) : cmpShort a b = cmp a b := by
  rw [cmpShort]
  exact cmpShortFrom_eq (by omega) (by omega) (Nat.zero_le _) (by simp)

/-- **The branch-free search** finds the number its answers change at. -/
lemma selectLowerBound_eq {n t : ℕ} {below : ℕ → Option Bool} (ht : t ≤ n)
    (hbelow : ∀ i < n, below i = some (decide (i < t))) : selectLowerBound n below = some t := by
  have hloop : ∀ len lo, lo ≤ t → t ≤ lo + len → lo + len ≤ n →
      ∃ lo' len', selectLoop below lo len = some (lo', len') ∧ len' ≤ 1 ∧ lo' ≤ t ∧ t ≤ lo' + len' ∧
        lo' + len' ≤ n := by
    intro len
    induction len using Nat.strong_induction_on with
    | _ len ih =>
        intro lo hlo hhi hn
        rw [selectLoop]
        by_cases hlen : 1 < len
        · rw [if_pos hlen, hbelow _ (by omega), Option.bind_some]
          by_cases hmid : lo + len / 2 - 1 < t
          · rw [if_pos (decide_eq_true hmid)]
            exact ih _ (by omega) _ (by omega) (by omega) (by omega)
          · rw [if_neg (fun h => hmid (of_decide_eq_true h))]
            exact ih _ (by omega) _ (by omega) (by omega) (by omega)
        · rw [if_neg hlen]
          exact ⟨lo, len, rfl, by omega, hlo, hhi, hn⟩
  obtain ⟨lo, len, hrun, hlen, hlo, hhi, hn⟩ := hloop n 0 (Nat.zero_le _) (by omega) (by omega)
  rw [selectLowerBound, hrun]
  simp only [Option.bind_eq_bind, Option.bind_some]
  by_cases hone : len = 1
  · rw [if_pos hone, hbelow lo (by omega), Option.bind_some]
    by_cases hlt : lo < t
    · rw [if_pos (decide_eq_true hlt)]
      congr 1
      omega
    · rw [if_neg (fun h => hlt (of_decide_eq_true h))]
      congr 1
      omega
  · rw [if_neg hone]
    congr 1
    omega

namespace OrdIndex

/-! ## An index of keys -/

/-- The index is of the keys `keys`: their heads behind bytes all of them begin with, which are what
is learned where the prefix is. -/
structure Of (o : OrdIndex) (keys : List Bytes) (pre : Bytes) : Prop where
  count : o.n = keys.length
  heads : o.heads = keys.map (fun k => headOf k o.pfx)
  top : o.top = (List.range ((keys.length + TOP_STRIDE - 1) / TOP_STRIDE)).map
    (fun i => o.heads.getD (i * TOP_STRIDE) [])
  length_pre : pre.length = o.pfx
  shares : ∀ k ∈ keys, k.take o.pfx = pre
  learned : ∀ l ∈ o.learned, l = pre
  uniform : ∀ len ∈ o.uniformLen, len ≤ o.pfx + HEAD ∧ ∀ k ∈ keys, k.length = len

/-- What is composed over keys in order is their index. -/
lemma of_compose {keys : List Bytes} (hsorted : keys.Pairwise (· < ·)) :
    (compose keys).Of keys ((keys.head?.getD []).take (compose keys).pfx) := by
  refine ⟨rfl, rfl, rfl, ?_, ?_, fun l hl => absurd hl (by simp [compose]), ?_⟩
  · rw [List.length_take]
    refine min_eq_left ?_
    by_cases hne : keys = []
    · simp [compose, hne]
    · exact (take_pfx hsorted (List.length_pos_iff.mpr hne)).2
  · intro k hk
    obtain ⟨i, hi, rfl⟩ := List.mem_iff_getElem.mp hk
    exact (take_pfx hsorted hi).1
  · intro len hlen
    simp only [compose, Option.mem_def, Option.ite_none_right_eq_some, decide_eq_true_eq,
      Option.some.injEq] at hlen
    obtain ⟨⟨hne, hreach, hall⟩, rfl⟩ := hlen
    refine ⟨by simpa only [compose] using hreach, ?_⟩
    intro k hk
    simpa using List.all_eq_true.mp hall k hk

/-- And stays it when the prefix is learned from the first key. -/
lemma Of.learnPrefix {o : OrdIndex} {keys : List Bytes} {pre first : Bytes} (h : o.Of keys pre)
    (hfirst : keys.head? = some first) : (o.learnPrefix first).Of keys pre := by
  refine ⟨h.count, h.heads, h.top, h.length_pre, h.shares, ?_, h.uniform⟩
  intro l hl
  rw [OrdIndex.learnPrefix, Option.mem_def, Option.some.injEq] at hl
  rw [← hl]
  exact h.shares first (List.mem_of_mem_head? hfirst)

/-- How many keys are below `q`. -/
def rankOf (keys : List Bytes) (q : Bytes) : ℕ := (keys.filter (· < q)).length

/-- How many heads are below `h`, and how many at or below. -/
def headsBelow (keys : List Bytes) (pfx : ℕ) (h : Bytes) : ℕ :=
  (keys.filter (fun k => headOf k pfx < h)).length

def headsTo (keys : List Bytes) (pfx : ℕ) (h : Bytes) : ℕ :=
  (keys.filter (fun k => headOf k pfx ≤ h)).length

lemma headOf_eq (k : Bytes) (pfx : ℕ) : headOf k pfx = padded 8 (k.drop pfx) := by
  rw [headOf, padded, HEAD, List.length_take]
  congr 2
  omega

section Heads

variable {o : OrdIndex} {keys : List Bytes} {pre q : Bytes}

lemma rankOf_le : rankOf keys q ≤ keys.length := List.length_filter_le _ _

lemma headsTo_le {pfx : ℕ} {h : Bytes} : headsTo keys pfx h ≤ keys.length :=
  List.length_filter_le _ _

lemma lt_iff_lt_rankOf (hsorted : keys.Pairwise (· < ·)) {i : ℕ} (hi : i < keys.length) :
    keys[i] < q ↔ i < rankOf keys q :=
  lt_iff_lt_length_filter hsorted (fun _ => decide_eq_true_iff) i hi

/-- The rank is told by what is below it and what is not. -/
lemma rankOf_eq (hsorted : keys.Pairwise (· < ·)) {r : ℕ} (hr : r ≤ keys.length)
    (hbelow : ∀ (i : ℕ) (hi : i < keys.length), i < r → keys[i] < q)
    (hnot : ∀ (i : ℕ) (hi : i < keys.length), r ≤ i → ¬ keys[i] < q) : rankOf keys q = r := by
  have hle := @rankOf_le keys q
  rcases lt_trichotomy (rankOf keys q) r with hlt | heq | hgt
  · exact absurd ((lt_iff_lt_rankOf hsorted (by omega)).mp (hbelow _ (by omega) hlt)) (lt_irrefl _)
  · exact heq
  · exact absurd ((lt_iff_lt_rankOf hsorted (by omega)).mpr hgt) (hnot r (by omega) le_rfl)

lemma Of.head (h : o.Of keys pre) {i : ℕ} (hi : i < keys.length) :
    o.head i = some (headOf keys[i] o.pfx) := by
  rw [OrdIndex.head, h.heads, List.getElem?_map, List.getElem?_eq_getElem hi, Option.map_some]

/-- The heads ascend with the keys. -/
lemma Of.headOf_le (h : o.Of keys pre) {k l : Bytes} (hk : k ∈ keys) (hl : l ∈ keys) (hle : k ≤ l) :
    headOf k o.pfx ≤ headOf l o.pfx := by
  rw [headOf_eq, headOf_eq]
  exact padded_drop_le (by rw [h.shares k hk, h.shares l hl]) hle

lemma Of.head_pairwise (h : o.Of keys pre) (hsorted : keys.Pairwise (· < ·)) :
    keys.Pairwise (fun k l => headOf k o.pfx ≤ headOf l o.pfx) :=
  hsorted.imp_of_mem fun hk hl hlt => h.headOf_le hk hl hlt.le

lemma Of.headOf_lt_iff (h : o.Of keys pre) (hsorted : keys.Pairwise (· < ·)) {w : Bytes} {i : ℕ}
    (hi : i < keys.length) : headOf keys[i] o.pfx < w ↔ i < headsBelow keys o.pfx w := by
  rw [headsBelow, ← iff_lt_length_filter ?_ i hi, decide_eq_true_iff]
  refine (h.head_pairwise hsorted).imp ?_
  intro k l hkl hl
  exact decide_eq_true (hkl.trans_lt (of_decide_eq_true hl))

lemma Of.headOf_le_iff (h : o.Of keys pre) (hsorted : keys.Pairwise (· < ·)) {w : Bytes} {i : ℕ}
    (hi : i < keys.length) : headOf keys[i] o.pfx ≤ w ↔ i < headsTo keys o.pfx w := by
  rw [headsTo, ← iff_lt_length_filter ?_ i hi, decide_eq_true_iff]
  refine (h.head_pairwise hsorted).imp ?_
  intro k l hkl hl
  exact decide_eq_true (hkl.trans (of_decide_eq_true hl))

/-! ## A query that carries the prefix -/

/-- Where heads differ, they tell the order. -/
lemma Of.lt_of_headOf_lt (h : o.Of keys pre) (hq : q.take o.pfx = pre) {k : Bytes} (hk : k ∈ keys)
    (hlt : headOf k o.pfx < headOf q o.pfx) : k < q := by
  rw [headOf_eq, headOf_eq] at hlt
  exact lt_of_padded_drop_lt (by rw [h.shares k hk, hq]) hlt

lemma Of.gt_of_headOf_gt (h : o.Of keys pre) (hq : q.take o.pfx = pre) {k : Bytes} (hk : k ∈ keys)
    (hlt : headOf q o.pfx < headOf k o.pfx) : q < k := by
  rw [headOf_eq, headOf_eq] at hlt
  exact lt_of_padded_drop_lt (by rw [h.shares k hk, hq]) hlt

/-- The answer lies in the run of heads that tie. -/
lemma Of.headsBelow_le_rankOf (h : o.Of keys pre) (hsorted : keys.Pairwise (· < ·))
    (hq : q.take o.pfx = pre) : headsBelow keys o.pfx (headOf q o.pfx) ≤ rankOf keys q := by
  by_contra hlt
  have hle : headsBelow keys o.pfx (headOf q o.pfx) ≤ keys.length := List.length_filter_le _ _
  have hi : rankOf keys q < keys.length := by omega
  have hhead := (h.headOf_lt_iff hsorted hi).mpr (not_le.mp hlt)
  have := (lt_iff_lt_rankOf hsorted hi).mp (h.lt_of_headOf_lt hq (List.getElem_mem hi) hhead)
  omega

lemma Of.rankOf_le_headsTo (h : o.Of keys pre) (hsorted : keys.Pairwise (· < ·))
    (hq : q.take o.pfx = pre) : rankOf keys q ≤ headsTo keys o.pfx (headOf q o.pfx) := by
  by_contra hlt
  have hle : rankOf keys q ≤ keys.length := rankOf_le
  have hi : headsTo keys o.pfx (headOf q o.pfx) < keys.length := by omega
  have hhead : ¬ headOf keys[headsTo keys o.pfx (headOf q o.pfx)] o.pfx ≤ headOf q o.pfx := by
    rw [h.headOf_le_iff hsorted hi]
    exact lt_irrefl _
  have hgt := h.gt_of_headOf_gt hq (List.getElem_mem hi) (not_le.mp hhead)
  have hbelow := (lt_iff_lt_rankOf hsorted hi).mpr (not_le.mp hlt)
  exact absurd hgt (lt_asymm hbelow)

/-! ## The run of heads that tie -/

/-- The gallop stops behind a head of the run, with the run's end no further than its next step. -/
lemma Of.runGallop_spec (h : o.Of keys pre) {w : Bytes} {start : ℕ}
    (hsorted : keys.Pairwise (· < ·)) (hfirst : headsBelow keys o.pfx w ≤ start) {lo step : ℕ}
    (hstep : 0 < step) (hlo : lo < headsTo keys o.pfx w) :
    ∃ lo' step', o.runGallop w start lo step = some (lo', step') ∧ lo' + 1 ≤ headsTo keys o.pfx w ∧
      (start ≤ lo → start ≤ lo') ∧ headsTo keys o.pfx w ≤ min (start + step') o.n := by
  induction hd : o.n - (start + step) using Nat.strong_induction_on generalizing lo step with
  | _ d ih =>
      have hcount := h.count
      have hle : headsTo keys o.pfx w ≤ keys.length := headsTo_le
      rw [runGallop]
      by_cases hin : start + step < o.n
      · have hi : start + step < keys.length := by omega
        rw [dif_pos ⟨hstep, hin⟩, h.head hi, Option.bind_some]
        by_cases heq : headOf keys[start + step] o.pfx = w
        · rw [if_pos heq]
          have hlt := (h.headOf_le_iff hsorted hi).mp heq.le
          obtain ⟨lo', step', hrun, h1, h2, h3⟩ :=
            @ih (o.n - (start + step * 2)) (by omega) (start + step) (step * 2) (by omega) hlt rfl
          exact ⟨lo', step', hrun, h1, fun _ => h2 (by omega), h3⟩
        · rw [if_neg heq]
          refine ⟨lo, step, rfl, hlo, id, ?_⟩
          have hnot : ¬ headOf keys[start + step] o.pfx < w := by
            rw [h.headOf_lt_iff hsorted hi]
            omega
          have habove : ¬ headOf keys[start + step] o.pfx ≤ w := fun hle => hnot (lt_of_le_of_ne hle heq)
          rw [h.headOf_le_iff hsorted hi] at habove
          omega
      · rw [dif_neg (fun hc => hin hc.2)]
        exact ⟨lo, step, rfl, hlo, id, by omega⟩

/-- A rank whose head ties is in the run. -/
lemma Of.tie_iff (h : o.Of keys pre) (hsorted : keys.Pairwise (· < ·)) {w : Bytes} {i : ℕ}
    (hi : i < keys.length)
    (hfirst : headsBelow keys o.pfx w ≤ i) : headOf keys[i] o.pfx = w ↔
    i < headsTo keys o.pfx w := by
  rw [← h.headOf_le_iff hsorted hi]
  have hnot : ¬ headOf keys[i] o.pfx < w := by
    rw [h.headOf_lt_iff hsorted hi]
    omega
  exact ⟨fun heq => heq.le, fun hle => eq_of_le_of_not_lt hle hnot⟩

/-- **The run's end**: how many heads are at or below. -/
lemma Of.runEnd_eq (h : o.Of keys pre) (hsorted : keys.Pairwise (· < ·)) {w : Bytes} {start : ℕ}
    (hend : start < headsTo keys o.pfx w) (hfirst : headsBelow keys o.pfx w ≤ start) :
    o.runEnd w start = some (headsTo keys o.pfx w) := by
  have hcount := h.count
  obtain ⟨lo, step, hrun, hlo, hstart, hhi⟩ := h.runGallop_spec hsorted hfirst one_pos hend
  have hlo' := hstart le_rfl
  rw [runEnd, hrun]
  simp only [Option.bind_eq_bind, Option.bind_some]
  refine partitionPointM_eq hlo hhi ?_
  intro i hi1 hi2
  have hin : i < keys.length := by omega
  rw [h.head hin, Option.map_some]
  congr 1
  exact decide_eq_decide.mpr (h.tie_iff hsorted hin (by omega))

/-- The keys of the run searched. -/
lemma searchKeys_eq (hsorted : keys.Pairwise (· < ·)) {lo hi : ℕ} (hlo : lo ≤ hi)
    (hhi : hi ≤ keys.length) :
    searchKeys q (fun i => keys[i]?) lo hi = max lo (min hi (rankOf keys q)) := by
  rw [searchKeys]
  refine partitionPoint_eq (le_max_left _ _) (by omega) ?_
  intro i hi1 hi2
  rw [List.getElem?_eq_getElem (by omega : i < keys.length), Option.any_some, decide_eq_true_eq,
    lt_iff_lt_rankOf hsorted]
  omega

/-! ## Heads that are whole keys -/

/-- Where paddings of short strings are the same, the shorter is a prefix of the longer. -/
lemma eq_take_of_padded_eq {n : ℕ} {a b : Bytes} (hlen : a.length ≤ b.length) (hn : a.length ≤ n)
    (h : padded n a = padded n b) : a = b.take a.length := by
  have hcut := congrArg (List.take a.length) h
  have hin : a.length ≤ (b.take n).length := by
    rw [List.length_take]
    omega
  rw [padded, padded, List.take_append_of_le_length (by rw [List.length_take]; omega),
    List.take_append_of_le_length hin, List.take_take, List.take_take, min_eq_left hn,
    List.take_length] at hcut
  exact hcut

/-- A query no longer than the keys that ties one is at or below it, and is it where it is as long.
-/
lemma Of.le_of_tie (h : o.Of keys pre) (hq : q.take o.pfx = pre) {k : Bytes} (hk : k ∈ keys)
    (hshort : k.length ≤ o.pfx + HEAD) (htie : headOf k o.pfx = headOf q o.pfx)
    (hlen : q.length ≤ k.length) : q ≤ k ∧ (q.length = k.length ↔ q = k) := by
  have hsame : q.take o.pfx = k.take o.pfx := by rw [h.shares k hk, hq]
  rw [headOf_eq, headOf_eq] at htie
  rw [HEAD] at hshort
  have hcut := eq_take_of_padded_eq (a := q.drop o.pfx) (b := k.drop o.pfx) (n := 8)
    (by rw [List.length_drop, List.length_drop]; omega) (by rw [List.length_drop]; omega) htie.symm
  refine ⟨?_, ?_, fun heq => congrArg List.length heq⟩
  · rw [← drop_le_drop_iff hsame, hcut]
    exact take_le _ _
  · intro heq
    have hdrop : q.drop o.pfx = k.drop o.pfx := by
      rw [hcut]
      refine List.take_of_length_le ?_
      rw [List.length_drop, List.length_drop]
      omega
    rw [← List.take_append_drop o.pfx q, hsame, hdrop, List.take_append_drop]

/-- A longer one is above it. -/
lemma Of.lt_of_tie (h : o.Of keys pre) (hq : q.take o.pfx = pre) {k : Bytes} (hk : k ∈ keys)
    (hshort : k.length ≤ o.pfx + HEAD) (htie : headOf k o.pfx = headOf q o.pfx)
    (hlen : k.length < q.length) : k < q := by
  have hsame : k.take o.pfx = q.take o.pfx := by rw [h.shares k hk, hq]
  rw [headOf_eq, headOf_eq] at htie
  rw [HEAD] at hshort
  have hpfx : o.pfx ≤ k.length := by
    have := congrArg List.length (h.shares k hk)
    rw [List.length_take, h.length_pre] at this
    omega
  have hcut := eq_take_of_padded_eq (a := k.drop o.pfx) (b := q.drop o.pfx) (n := 8)
    (by rw [List.length_drop, List.length_drop]; omega) (by rw [List.length_drop]; omega) htie
  rw [← drop_lt_drop_iff hsame]
  refine lt_of_le_of_ne ?_ ?_
  · rw [hcut]
    exact take_le _ _
  · intro heq
    have := congrArg List.length heq
    rw [List.length_drop, List.length_drop] at this
    omega

section Uniform

variable {len : ℕ}

/-- Where a head is a whole key, the answer for a query no longer than the keys is the run's start.
-/
lemma Of.rankOf_short (h : o.Of keys pre) (hsorted : keys.Pairwise (· < ·))
    (hq : q.take o.pfx = pre) (huni : o.uniformLen = some len) (hlen : q.length ≤ len) :
    rankOf keys q = headsBelow keys o.pfx (headOf q o.pfx) := by
  obtain ⟨hreach, hall⟩ := h.uniform len huni
  refine le_antisymm ?_ (h.headsBelow_le_rankOf hsorted hq)
  by_contra hlt
  have hto := h.rankOf_le_headsTo hsorted hq
  have hle : rankOf keys q ≤ keys.length := rankOf_le
  have hi : headsBelow keys o.pfx (headOf q o.pfx) < keys.length := by omega
  have htie := (h.tie_iff hsorted hi le_rfl).mpr (by omega)
  have hmem := List.getElem_mem hi
  have hbelow := (lt_iff_lt_rankOf hsorted hi).mpr (not_le.mp hlt)
  exact absurd hbelow (not_lt_of_ge (h.le_of_tie hq hmem (by rw [hall _ hmem]; exact hreach) htie
    (by rw [hall _ hmem]; exact hlen)).1)

/-- For a longer one it is the run's end. -/
lemma Of.rankOf_long (h : o.Of keys pre) (hsorted : keys.Pairwise (· < ·)) (hq : q.take o.pfx = pre)
    (huni : o.uniformLen = some len) (hlen : len < q.length) :
    rankOf keys q = headsTo keys o.pfx (headOf q o.pfx) := by
  obtain ⟨hreach, hall⟩ := h.uniform len huni
  refine le_antisymm (h.rankOf_le_headsTo hsorted hq) ?_
  by_contra hlt
  have hfrom := h.headsBelow_le_rankOf hsorted hq
  have hto : headsTo keys o.pfx (headOf q o.pfx) ≤ keys.length := headsTo_le
  have hi : rankOf keys q < keys.length := by omega
  have htie := (h.tie_iff hsorted hi hfrom).mpr (not_le.mp hlt)
  have hmem := List.getElem_mem hi
  have hbelow :=
    h.lt_of_tie hq hmem (by rw [hall _ hmem]; exact hreach) htie (by rw [hall _ hmem]; exact hlen)
  exact absurd ((lt_iff_lt_rankOf hsorted hi).mp hbelow) (lt_irrefl _)

/-- A rank whose head ties has the query's key where their lengths are the same. -/
lemma Of.key_iff_length (h : o.Of keys pre) (hq : q.take o.pfx = pre)
    (huni : o.uniformLen = some len) (hlen : q.length ≤ len) {i : ℕ} (hi : i < keys.length)
    (htie : headOf keys[i] o.pfx = headOf q o.pfx) : q.length = len ↔ keys[i]? = some q := by
  obtain ⟨hreach, hall⟩ := h.uniform len huni
  have hmem := List.getElem_mem hi
  have hkey := (h.le_of_tie hq hmem (by rw [hall _ hmem]; exact hreach) htie (by rw [hall _ hmem]; exact hlen)).2
  rw [hall _ hmem] at hkey
  rw [hkey, List.getElem?_eq_getElem hi, Option.some.injEq]
  exact eq_comm

/-- A query of another length than the keys is none of them. -/
lemma Of.key_ne (h : o.Of keys pre) (huni : o.uniformLen = some len) (hlen : q.length ≠ len)
    (i : ℕ) : keys[i]? ≠ some q := by
  intro hkey
  exact hlen ((h.uniform len huni).2 q (List.mem_of_getElem? hkey))

end Uniform

/-- A key at or behind the run's start that is the query lies in the run. -/
lemma Of.lt_headsTo_of_key (h : o.Of keys pre) (hsorted : keys.Pairwise (· < ·)) {i : ℕ}
    (hfirst : headsBelow keys o.pfx (headOf q o.pfx) ≤ i) (hkey : keys[i]? = some q) :
    i < headsTo keys o.pfx (headOf q o.pfx) := by
  obtain ⟨hi, heq⟩ := List.getElem?_eq_some_iff.mp hkey
  refine (h.tie_iff hsorted hi hfirst).mp ?_
  rw [heq]

/-- What a seek answers is exact: the rank, and what it says of the key there. -/
structure Exact (keys : List Bytes) (q : Bytes) (e : ℕ × Option Bool) : Prop where
  rank : e.1 = rankOf keys q
  known : ∀ b ∈ e.2, b = true ↔ keys[e.1]? = some q

/-- Which rank at or behind the run's start ties. -/
lemma Of.ties_eq (h : o.Of keys pre) (hsorted : keys.Pairwise (· < ·)) {w : Bytes} {lo hi : ℕ}
    (hfirst : headsBelow keys o.pfx w ≤ lo ∨ hi ≤ lo) (hhi : hi ≤ keys.length) :
    o.ties lo hi w = some (decide (lo < min hi (headsTo keys o.pfx w))) := by
  rw [ties]
  by_cases hin : hi ≤ lo
  · rw [if_pos hin]
    congr 1
    exact (decide_eq_false (by omega)).symm
  · have hi' : lo < keys.length := by omega
    rw [if_neg hin, h.head hi', Option.map_some]
    congr 1
    refine decide_eq_decide.mpr ?_
    rw [h.tie_iff hsorted hi' (by omega)]
    omega

/-- **The answer from the first head not below.** -/
lemma Of.exactAt_spec (h : o.Of keys pre) (hsorted : keys.Pairwise (· < ·))
    (hq : q.take o.pfx = pre) :
    ∃ e, o.exactAt (headsBelow keys o.pfx (headOf q o.pfx)) (headOf q o.pfx) q (fun i => keys[i]?)
      = some e ∧ Exact keys q e := by
  set w := headOf q o.pfx with hw
  have hcount := h.count
  have hto : headsTo keys o.pfx w ≤ keys.length := headsTo_le
  have hfrom := h.headsBelow_le_rankOf hsorted hq
  have hrank := h.rankOf_le_headsTo hsorted hq
  rw [← hw] at hfrom hrank
  have hties := h.ties_eq hsorted (Or.inl (le_refl (headsBelow keys o.pfx w))) hcount.le
  have hmin : min o.n (headsTo keys o.pfx w) = headsTo keys o.pfx w := by omega
  rw [hmin] at hties
  rw [exactAt, hties]
  simp only [Option.bind_eq_bind, Option.bind_some]
  by_cases htie : headsBelow keys o.pfx w < headsTo keys o.pfx w
  swap
  · rw [if_pos (by simpa using htie)]
    refine ⟨_, rfl, by dsimp only; omega, ?_⟩
    intro b hb
    obtain ⟨len, -, rfl⟩ := Option.mem_map.mp hb
    refine iff_of_false (by simp) ?_
    intro hkey
    exact htie (h.lt_headsTo_of_key hsorted le_rfl hkey)
  rw [if_neg (by simpa using htie)]
  have hi : headsBelow keys o.pfx w < keys.length := by omega
  cases huni : o.uniformLen with
  | none =>
      dsimp only
      rw [h.runEnd_eq hsorted htie le_rfl, Option.bind_some]
      refine ⟨_, rfl, ?_, by simp⟩
      dsimp only
      rw [searchKeys_eq hsorted (by omega) hto]
      omega
  | some len =>
      dsimp only
      by_cases hlen : q.length ≤ len
      · rw [if_pos hlen]
        refine ⟨_, rfl, (h.rankOf_short hsorted hq huni hlen).symm, ?_⟩
        rintro b hb
        rw [Option.mem_def, Option.some.injEq] at hb
        rw [← hb, decide_eq_true_eq]
        exact h.key_iff_length hq huni hlen hi ((h.tie_iff hsorted hi le_rfl).mpr htie)
      · rw [if_neg hlen, h.runEnd_eq hsorted htie le_rfl, Option.bind_some]
        refine ⟨_, rfl, (h.rankOf_long hsorted hq huni (by omega)).symm, ?_⟩
        intro b hb
        rw [Option.mem_def, Option.some.injEq] at hb
        rw [← hb]
        exact iff_of_false (by simp) (h.key_ne huni (by omega) _)

/-! ## The prefix -/

/-- **The prefix's verdict**: below every key, above every key, or a query that carries it. -/
lemma Of.prefix_cases (h : o.Of keys pre) {first : Bytes} (hfirst : first.take o.pfx = pre)
    (q : Bytes) :
    let m := min (min o.pfx q.length) first.length
    let c := cmpShort (q.take m) (first.take m)
    (c = .lt ∧ ∀ k ∈ keys, q < k) ∨ (c = .gt ∧ ∀ k ∈ keys, k < q) ∨
      (c = .eq ∧ m < o.pfx ∧ ∀ k ∈ keys, q < k) ∨ (c = .eq ∧ ¬ m < o.pfx ∧ q.take o.pfx = pre) := by
  intro m c
  have hlong : o.pfx ≤ first.length := by
    have := congrArg List.length hfirst
    rw [List.length_take, h.length_pre] at this
    omega
  have hm : m ≤ o.pfx := by omega
  have hcut : ∀ {k : Bytes}, k.take o.pfx = pre → k.take m = first.take m := by
    intro k hk
    have htwice : ∀ x : Bytes, (x.take o.pfx).take m = x.take m := by
      intro x
      rw [List.take_take, min_eq_left hm]
    rw [← htwice k, ← htwice first, hk, hfirst]
  have hlen : (q.take m).length = (first.take m).length := by
    rw [List.length_take, List.length_take]
    omega
  have hc : c = cmp (q.take m) (first.take m) := cmpShort_eq hlen
  rcases lt_trichotomy (q.take m) (first.take m) with hlt | heq | hgt
  · refine Or.inl ⟨by rw [hc, cmp_of_lt hlt], ?_⟩
    intro k hk
    refine lt_of_take_lt_take (n := m) ?_
    rwa [hcut (h.shares k hk)]
  · have hceq : c = .eq := by rw [hc, heq, cmp_of_eq]
    by_cases hshort : m < o.pfx
    · refine Or.inr (Or.inr (Or.inl ⟨hceq, hshort, ?_⟩))
      intro k hk
      have hkm := hcut (h.shares k hk)
      have hqm : q.take m = q := List.take_of_length_le (by omega)
      have hkl : o.pfx ≤ k.length := by
        have := congrArg List.length (h.shares k hk)
        rw [List.length_take, h.length_pre] at this
        omega
      refine lt_of_le_of_ne ?_ ?_
      · rw [← hqm, heq, ← hkm]
        exact take_le m k
      · rintro rfl
        omega
    · refine Or.inr (Or.inr (Or.inr ⟨hceq, hshort, ?_⟩))
      have hmp : m = o.pfx := by omega
      rw [hmp] at heq
      rw [heq, hfirst]
  · refine Or.inr (Or.inl ⟨by rw [hc, cmp_of_gt hgt], ?_⟩)
    intro k hk
    refine lt_of_take_lt_take (n := m) ?_
    rwa [hcut (h.shares k hk)]

/-- A query below every key, and one above. -/
lemma rankOf_of_below (hall : ∀ k ∈ keys, q < k) : rankOf keys q = 0 := by
  rw [rankOf, List.length_eq_zero_iff, List.filter_eq_nil_iff]
  intro k hk hlt
  exact lt_asymm (hall k hk) (of_decide_eq_true hlt)

lemma rankOf_of_above (hall : ∀ k ∈ keys, k < q) : rankOf keys q = keys.length := by
  rw [rankOf, List.filter_eq_self.mpr (fun k hk => decide_eq_true (hall k hk))]

lemma Exact.of_outside {r : ℕ} (hr : r = rankOf keys q) (hout : q ∉ keys) :
    Exact keys q (r, some false) := by
  refine ⟨hr, ?_⟩
  intro b hb
  rw [Option.mem_def, Option.some.injEq] at hb
  rw [← hb]
  exact iff_of_false (by simp) (fun hkey => hout (List.mem_of_getElem? hkey))

/-- Which key the prefix is read off. -/
lemma Of.exists_first (h : o.Of keys pre) (hne : keys ≠ []) :
    ∃ first, o.learned.or keys[0]? = some first ∧ first.take o.pfx = pre := by
  cases hl : o.learned with
  | none =>
      have hpos : 0 < keys.length := List.length_pos_iff.mpr hne
      refine ⟨keys[0], ?_, h.shares _ (List.getElem_mem _)⟩
      rw [Option.none_or, List.getElem?_eq_getElem hpos]
  | some l =>
      refine ⟨l, rfl, ?_⟩
      rw [h.learned l hl]
      exact List.take_of_length_le h.length_pre.le

/-- **A query outside the prefix is answered; one that is not carries it.** -/
lemma Of.outsidePrefix_spec (h : o.Of keys pre) (hne : keys ≠ []) (q : Bytes) :
    (o.outsidePrefix q (fun i => keys[i]?) = none ∧ q.take o.pfx = pre) ∨
      ∃ e, o.outsidePrefix q (fun i => keys[i]?) = some e ∧ Exact keys q e := by
  rw [outsidePrefix]
  by_cases hpfx : o.pfx = 0
  · rw [if_pos hpfx]
    refine Or.inl ⟨rfl, ?_⟩
    rw [hpfx, List.take_zero, eq_comm, ← List.length_eq_zero_iff, h.length_pre, hpfx]
  obtain ⟨first, hread, hfirst⟩ := h.exists_first hne
  rw [if_neg hpfx, hread]
  dsimp only
  have hout : ∀ {k : Bytes}, k ∈ keys → ¬ q < k → ¬ k < q → q ∈ keys := by
    intro k hk h1 h2
    rwa [le_antisymm (not_lt.mp h2) (not_lt.mp h1)]
  rcases h.prefix_cases hfirst q with ⟨hc, hall⟩ | ⟨hc, hall⟩ | ⟨hc, hm, hall⟩ | ⟨hc, hm, hq⟩
  · rw [hc]
    exact Or.inr
      ⟨_, rfl, Exact.of_outside (rankOf_of_below hall).symm (fun hmem => lt_irrefl _ (hall q hmem))⟩
  · rw [hc]
    refine Or.inr ⟨_, rfl, Exact.of_outside ?_ (fun hmem => lt_irrefl _ (hall q hmem))⟩
    rw [rankOf_of_above hall, h.count]
  · rw [hc]
    dsimp only
    rw [if_pos hm]
    exact Or.inr
      ⟨_, rfl, Exact.of_outside (rankOf_of_below hall).symm (fun hmem => lt_irrefl _ (hall q hmem))⟩
  · rw [hc]
    dsimp only
    rw [if_neg hm]
    exact Or.inl ⟨rfl, hq⟩

/-! ## The seeks -/

/-- The halving over the heads. -/
lemma Of.selectHeads_eq (h : o.Of keys pre) (hsorted : keys.Pairwise (· < ·)) {w : Bytes}
    {lo hi : ℕ} (hlo : lo ≤ headsBelow keys o.pfx w) (hhi : headsBelow keys o.pfx w ≤ hi)
    (hn : hi ≤ keys.length) :
    selectLowerBound (hi - lo) (fun i => (o.head (lo + i)).map (fun x => decide (x < w)))
      = some (headsBelow keys o.pfx w - lo) := by
  refine selectLowerBound_eq (by omega) ?_
  intro i hi'
  have hin : lo + i < keys.length := by omega
  rw [h.head hin, Option.map_some]
  congr 1
  refine decide_eq_decide.mpr ?_
  rw [h.headOf_lt_iff hsorted hin]
  omega

/-- The top level's two heads have the first head not below between them. -/
lemma Of.window_spec (h : o.Of keys pre) (hsorted : keys.Pairwise (· < ·)) (w : Bytes) :
    ∃ lo hi, o.window w = some (lo, hi) ∧ lo ≤ headsBelow keys o.pfx w ∧
      headsBelow keys o.pfx w ≤ hi ∧ hi ≤ keys.length := by
  have hcount := h.count
  have hle : headsBelow keys o.pfx w ≤ keys.length := List.length_filter_le _ _
  have hlen : o.top.length = (keys.length + TOP_STRIDE - 1) / TOP_STRIDE := by
    rw [h.top, List.length_map, List.length_range]
  set t := (headsBelow keys o.pfx w + TOP_STRIDE - 1) / TOP_STRIDE with ht
  have hselect : selectLowerBound o.top.length (fun i => (o.top[i]?).map (fun x => decide (x < w)))
    = some t := by
    refine selectLowerBound_eq ?_ ?_
    · rw [hlen]
      exact Nat.div_le_div_right (by omega)
    · intro i hi
      rw [hlen] at hi
      have hin : i * TOP_STRIDE < keys.length := by
        rw [TOP_STRIDE] at hi ⊢
        omega
      have hread : o.heads.getD (i * TOP_STRIDE) [] = headOf keys[i * TOP_STRIDE] o.pfx := by
        have := h.head hin
        rw [OrdIndex.head] at this
        rw [List.getD_eq_getElem?_getD, this, Option.getD_some]
      rw [h.top, List.getElem?_map, List.getElem?_range hi, Option.map_some, Option.map_some, hread]
      congr 1
      refine decide_eq_decide.mpr ?_
      rw [h.headOf_lt_iff hsorted hin, ht, TOP_STRIDE]
      omega
  rw [window, hselect]
  simp only [Option.bind_eq_bind, Option.bind_some]
  rw [TOP_STRIDE] at ht
  by_cases h0 : t = 0
  · rw [if_pos h0]
    exact ⟨0, 0, rfl, Nat.zero_le _, by omega, Nat.zero_le _⟩
  · rw [if_neg h0, TOP_STRIDE]
    exact ⟨_, _, rfl, by omega, by omega, by omega⟩

/-- **The seek from the top level is exact**, and for a query that carries the prefix it answers
from the first head not below. -/
lemma Of.seekExactHint_spec (h : o.Of keys pre) (hsorted : keys.Pairwise (· < ·)) (q : Bytes) :
    ∃ e w, o.seekExactHint q (fun i => keys[i]?) = some (e, w) ∧ Exact keys q e ∧
      (o.n ≠ 0 → o.outsidePrefix q (fun i => keys[i]?) = none →
        o.exactAt (headsBelow keys o.pfx (headOf q o.pfx)) (headOf q o.pfx) q (fun i => keys[i]?) = some e) ∧
      (o.n ≠ 0 → ∀ e', o.outsidePrefix q (fun i => keys[i]?) = some e' → e' = e) := by
  rw [seekExactHint]
  by_cases h0 : o.n = 0
  · have hnil : keys = [] := by
      rw [← List.length_eq_zero_iff, ← h.count, h0]
    rw [if_pos h0]
    refine ⟨_, _, rfl, Exact.of_outside ?_ (by rw [hnil]; simp), fun hne => absurd h0 hne,
      fun hne => absurd h0 hne⟩
    rw [hnil]
    rfl
  have hne : keys ≠ [] := by
    rintro rfl
    exact h0 h.count
  rw [if_neg h0]
  rcases h.outsidePrefix_spec hne q with ⟨hout, hq⟩ | ⟨e, hout, hexact⟩
  · obtain ⟨lo, hi, hwin, hlo, hhi, hn⟩ := h.window_spec hsorted (headOf q o.pfx)
    obtain ⟨e, he, hexact⟩ := h.exactAt_spec hsorted hq
    rw [hout]
    dsimp only
    rw [hwin]
    simp only [Option.bind_eq_bind, Option.bind_some]
    rw [if_neg (by omega), h.selectHeads_eq hsorted hlo hhi hn, Option.bind_some,
      Nat.add_sub_cancel' hlo, he]
    exact ⟨e, some (lo, hi), rfl, hexact, fun _ _ => rfl, fun _ e' he' => absurd he' (by simp)⟩
  · rw [hout]
    refine ⟨e, none, rfl, hexact, fun _ hnone => absurd hnone (by simp), ?_⟩
    intro _ e' he'
    exact (Option.some.inj he').symm

/-- The gallop of a seek from a rank stops with the first head not below between what it answers. -/
lemma Of.seekGallop_spec (h : o.Of keys pre) (hsorted : keys.Pairwise (· < ·)) {w : Bytes}
    {lo step : ℕ} (hstep : 0 < step) (hlo : lo < headsBelow keys o.pfx w) :
    ∃ lo' hi, o.seekGallop w lo step = some (lo', hi) ∧ lo' + 1 ≤ headsBelow keys o.pfx w ∧
      headsBelow keys o.pfx w ≤ hi ∧ hi ≤ keys.length := by
  induction hd : o.n - lo using Nat.strong_induction_on generalizing lo step with
  | _ d ih =>
      have hcount := h.count
      have hle : headsBelow keys o.pfx w ≤ keys.length := List.length_filter_le _ _
      rw [seekGallop]
      by_cases hin : lo + step < o.n
      · have hi : lo + step < keys.length := by omega
        rw [dif_pos ⟨hstep, hin⟩, h.head hi, Option.bind_some]
        by_cases hlt : headOf keys[lo + step] o.pfx < w
        · rw [if_pos hlt]
          exact @ih (o.n - (lo + step)) (by omega) (lo + step) (step * 2) (by omega)
            ((h.headOf_lt_iff hsorted hi).mp hlt) rfl
        · rw [if_neg hlt]
          rw [h.headOf_lt_iff hsorted hi] at hlt
          exact ⟨lo, lo + step, rfl, hlo, by omega, by omega⟩
      · rw [dif_neg (fun hc => hin hc.2)]
        exact ⟨lo, o.n, rfl, hlo, by omega, by omega⟩

/-- **A seek from any rank is the seek from the top.** -/
lemma Of.seekExactFrom_eq (h : o.Of keys pre) (hsorted : keys.Pairwise (· < ·)) (start : ℕ)
    (q : Bytes) :
    o.seekExactFrom start q (fun i => keys[i]?) = o.seekExact q (fun i => keys[i]?) := by
  have hcount := h.count
  obtain ⟨e, w, hrun, -, hat, hsame⟩ := h.seekExactHint_spec hsorted q
  have hseek : o.seekExact q (fun i => keys[i]?) = some e := by
    rw [seekExact, hrun, Option.map_some]
  rw [seekExactFrom]
  by_cases hedge : start = 0 ∨ o.n ≤ start
  · rw [if_pos hedge]
  have hne0 : o.n ≠ 0 := by omega
  have hne : keys ≠ [] := by
    rintro rfl
    exact hne0 hcount
  rw [if_neg hedge, hseek]
  rcases h.outsidePrefix_spec hne q with ⟨hout, hq⟩ | ⟨e', hout, -⟩
  swap
  · rw [hout]
    dsimp only
    rw [hsame hne0 e' hout]
  have hat := hat hne0 hout
  rw [hout]
  dsimp only
  rw [h.head (by omega : start - 1 < keys.length)]
  simp only [Option.bind_eq_bind, Option.bind_some]
  split_ifs with hbefore
  · rfl
  have hpast :=
    (h.headOf_lt_iff hsorted (by omega : start - 1 < keys.length)).mp (not_le.mp hbefore)
  have hin : start < keys.length := by omega
  rw [h.head hin, Option.bind_some]
  split_ifs with hhere
  · have hstart : start = headsBelow keys o.pfx (headOf q o.pfx) := by
      have hnot : ¬ start < headsBelow keys o.pfx (headOf q o.pfx) := by
        rw [← h.headOf_lt_iff hsorted hin]
        exact not_lt_of_ge hhere
      omega
    rw [hstart]
    exact hat
  · obtain ⟨lo, hi, hgallop, hlo, hhi, hn⟩ := h.seekGallop_spec hsorted one_pos
      ((h.headOf_lt_iff hsorted hin).mp (not_le.mp hhere))
    rw [hgallop, Option.bind_some]
    dsimp only
    rw [h.selectHeads_eq hsorted hlo hhi hn, Option.bind_some, Nat.add_sub_cancel' hlo]
    exact hat

/-- What a seek within ranks `lo..hi` answers: the rank, and what it says of the key there, `hi`'s
apart. -/
structure ExactIn (keys : List Bytes) (q : Bytes) (lo hi : ℕ) (e : ℕ × Option Bool) : Prop where
  rank : e.1 = max lo (min hi (rankOf keys q))
  isKey : e.2 = some true → keys[e.1]? = some q
  notKey : e.2 = some false → e.1 < hi → keys[e.1]? ≠ some q

lemma ExactIn.of_false {lo hi r : ℕ} (hr : r = max lo (min hi (rankOf keys q)))
    (hnot : r < hi → keys[r]? ≠ some q) : ExactIn keys q lo hi (r, some false) :=
  ⟨hr, by simp, fun _ => hnot⟩

/-- The search of a range's heads and keys. -/
lemma Of.searchIn_spec (h : o.Of keys pre) (hsorted : keys.Pairwise (· < ·))
    (hq : q.take o.pfx = pre) {lo hi : ℕ} (hlo : lo < hi) (hhi : hi ≤ keys.length) :
    ∃ e, o.searchIn lo hi q (fun i => keys[i]?) = some e ∧ ExactIn keys q lo hi e := by
  set w := headOf q o.pfx with hw
  have hto : headsTo keys o.pfx w ≤ keys.length := headsTo_le
  have hfrom := h.headsBelow_le_rankOf hsorted hq
  have hrank := h.rankOf_le_headsTo hsorted hq
  rw [← hw] at hfrom hrank
  set a := max lo (min hi (headsBelow keys o.pfx w)) with ha
  have hsearch : partitionPointM (fun m => (o.head m).map (fun x => decide (x < w))) lo hi
    = some a := by
    refine partitionPointM_eq (le_max_left _ _) (by omega) ?_
    intro i h1 h2
    have hi : i < keys.length := by omega
    rw [h.head hi, Option.map_some]
    congr 1
    refine decide_eq_decide.mpr ?_
    rw [h.headOf_lt_iff hsorted hi]
    omega
  have htie : o.ties a hi w = some (decide (a < min hi (headsTo keys o.pfx w))) :=
    h.ties_eq hsorted (by omega) hhi
  rw [searchIn, ← hw]
  simp only [Option.bind_eq_bind]
  rw [hsearch, Option.bind_some, htie, Option.bind_some]
  by_cases hin : a < min hi (headsTo keys o.pfx w)
  swap
  · rw [if_pos (by simpa using hin)]
    refine ⟨_, rfl, ExactIn.of_false (by omega) ?_⟩
    intro hlt hkey
    have hrun := h.lt_headsTo_of_key hsorted (by rw [← hw]; omega) hkey
    rw [← hw] at hrun
    omega
  rw [if_neg (by simpa using hin)]
  have hend := h.runEnd_eq hsorted (by omega : a < headsTo keys o.pfx w) (by omega)
  cases huni : o.uniformLen with
  | none =>
      dsimp only
      rw [hend, Option.bind_some]
      refine ⟨_, rfl, ?_, ?_, ?_⟩
      · dsimp only
        rw [searchKeys_eq hsorted (by omega) (by omega)]
        omega
      · intro hsome
        dsimp only at hsome
        split_ifs at hsome
        cases hsome
      · intro hsome hlt
        dsimp only at hsome hlt
        rw [if_neg (by omega)] at hsome
        cases hsome
  | some len =>
      dsimp only
      by_cases hlen : q.length ≤ len
      · have hshort := h.rankOf_short hsorted hq huni hlen
        have hia : a < keys.length := by omega
        have hheads : headOf keys[a] o.pfx = w := (h.tie_iff hsorted hia (by omega)).mpr (by omega)
        have hkey := h.key_iff_length hq huni hlen hia hheads
        rw [← hw] at hshort
        rw [if_pos hlen]
        refine ⟨_, rfl, by dsimp only; omega, ?_, ?_⟩
        · intro hsome
          exact hkey.mp (of_decide_eq_true (Option.some.inj hsome))
        · intro hsome _ heq
          exact of_decide_eq_false (Option.some.inj hsome) (hkey.mpr heq)
      · have hlong := h.rankOf_long hsorted hq huni (by omega)
        rw [← hw] at hlong
        rw [if_neg hlen, hend, Option.bind_some]
        exact ⟨_, rfl, ExactIn.of_false (by omega) (fun _ => h.key_ne huni (by omega) _)⟩

/-- **A seek within ranks is exact there.** -/
lemma Of.seekInExact_spec (h : o.Of keys pre) (hsorted : keys.Pairwise (· < ·)) (q : Bytes)
    {lo hi : ℕ} (hlo : lo ≤ hi) (hhi : hi ≤ keys.length) :
    ∃ e, o.seekInExact lo hi q (fun i => keys[i]?) = some e ∧ ExactIn keys q lo hi e := by
  have hcount := h.count
  have hmin : min hi o.n = hi := by omega
  rw [seekInExact, hmin]
  dsimp only
  by_cases hempty : hi ≤ lo
  · rw [if_pos hempty]
    exact ⟨_, rfl, ExactIn.of_false (by omega) (fun hlt => absurd hlt (lt_irrefl _))⟩
  have hne : keys ≠ [] := by
    rintro rfl
    rw [List.length_nil] at hhi
    omega
  rw [if_neg hempty]
  by_cases hpfx : o.pfx = 0
  · rw [if_pos hpfx]
    refine h.searchIn_spec hsorted ?_ (by omega) hhi
    rw [hpfx, List.take_zero, eq_comm, ← List.length_eq_zero_iff, h.length_pre, hpfx]
  obtain ⟨first, hread, hfirst⟩ := h.exists_first hne
  rw [if_neg hpfx, hread]
  dsimp only
  have hbelow : (∀ k ∈ keys, q < k) → ExactIn keys q lo hi (lo, some false) := by
    intro hall
    refine ExactIn.of_false ?_ (fun _ hkey => lt_irrefl _ (hall q (List.mem_of_getElem? hkey)))
    rw [rankOf_of_below hall]
    omega
  rcases h.prefix_cases hfirst q with ⟨hc, hall⟩ | ⟨hc, hall⟩ | ⟨hc, hm, hall⟩ | ⟨hc, hm, hq⟩
  · rw [hc]
    exact ⟨_, rfl, hbelow hall⟩
  · rw [hc]
    refine ⟨_, rfl, ExactIn.of_false ?_ (fun hlt => absurd hlt (lt_irrefl _))⟩
    rw [rankOf_of_above hall]
    omega
  · rw [hc]
    dsimp only
    rw [if_pos hm]
    exact ⟨_, rfl, hbelow hall⟩
  · rw [hc]
    dsimp only
    rw [if_neg hm]
    exact h.searchIn_spec hsorted hq (by omega) hhi

/-! ## Walking -/

/-- The walk over the keys. -/
lemma Of.advanceKeys_eq (h : o.Of keys pre) (hsorted : keys.Pairwise (· < ·)) (q : Bytes) {r : ℕ}
    (hr : r ≤ rankOf keys q) : o.advanceKeys q (fun i => keys[i]?) r = rankOf keys q := by
  have hcount := h.count
  have hle : rankOf keys q ≤ keys.length := rankOf_le
  induction hd : o.n - r using Nat.strong_induction_on generalizing r with
  | _ d ih =>
      rw [advanceKeys]
      by_cases hin : r < keys.length
      · have hread : (keys[r]?).any (· < q) = true ↔ r < rankOf keys q := by
          rw [List.getElem?_eq_getElem hin, Option.any_some, decide_eq_true_eq, lt_iff_lt_rankOf hsorted]
        by_cases hlt : r < rankOf keys q
        · rw [if_pos ⟨by omega, hread.mpr hlt⟩]
          exact ih _ (by omega) (by omega) rfl
        · rw [if_neg (fun hc => hlt (hread.mp hc.2))]
          omega
      · rw [if_neg (by omega)]
        omega

/-- Where the heads tie, the lengths or the key decide. -/
lemma Of.tie_decides (h : o.Of keys pre) (hsorted : keys.Pairwise (· < ·)) (hq : q.take o.pfx = pre)
    {r : ℕ} (hin : r < keys.length) (htie : headOf keys[r] o.pfx = headOf q o.pfx) :
    (match o.uniformLen with
      | some len => decide (len < q.length)
      | none => (keys[r]?).any (· < q)) = true ↔ r < rankOf keys q := by
  have hmem := List.getElem_mem hin
  cases huni : o.uniformLen with
  | none =>
      dsimp only
      rw [List.getElem?_eq_getElem hin, Option.any_some, decide_eq_true_eq, lt_iff_lt_rankOf hsorted]
  | some len =>
      obtain ⟨hreach, hall⟩ := h.uniform len huni
      dsimp only
      rw [decide_eq_true_eq, ← lt_iff_lt_rankOf hsorted hin]
      constructor
      · intro hlen
        exact h.lt_of_tie hq hmem (by rw [hall _ hmem]; exact hreach) htie (by rw [hall _ hmem]; exact hlen)
      · intro hlt
        by_contra hlen
        exact absurd hlt (not_lt_of_ge (h.le_of_tie hq hmem (by rw [hall _ hmem]; exact hreach) htie
          (by rw [hall _ hmem]; omega)).1)

/-- The walk over the heads. -/
lemma Of.advanceHeads_eq (h : o.Of keys pre) (hsorted : keys.Pairwise (· < ·))
    (hq : q.take o.pfx = pre) {r : ℕ}
    (hr : r ≤ rankOf keys q) : o.advanceHeads (headOf q o.pfx) q (fun i => keys[i]?) r
    = some (rankOf keys q) := by
  have hcount := h.count
  have hle : rankOf keys q ≤ keys.length := rankOf_le
  induction hd : o.n - r using Nat.strong_induction_on generalizing r with
  | _ d ih =>
      rw [advanceHeads]
      by_cases hin : r < keys.length
      · rw [if_pos (by omega), h.head hin, Option.bind_some]
        have hmem := List.getElem_mem hin
        by_cases habove : headOf q o.pfx < headOf keys[r] o.pfx
        · rw [if_pos habove]
          have hgt := h.gt_of_headOf_gt hq hmem habove
          have hnot : ¬ r < rankOf keys q := fun hlt => lt_asymm hgt ((lt_iff_lt_rankOf hsorted hin).mpr hlt)
          congr 1
          omega
        rw [if_neg habove]
        dsimp only
        -- where the heads tie, the lengths or the key decide
        have hdecides := h.tie_decides hsorted hq hin
        by_cases hlt : r < rankOf keys q
        · rw [if_neg (fun hc => hc.2 ((hdecides hc.1).mpr hlt))]
          exact ih _ (by omega) (by omega) rfl
        · have htie : headOf keys[r] o.pfx = headOf q o.pfx := by
            refine eq_of_le_of_not_lt (not_lt.mp habove) ?_
            intro hhead
            exact hlt ((lt_iff_lt_rankOf hsorted hin).mp (h.lt_of_headOf_lt hq hmem hhead))
          rw [if_pos ⟨htie, fun hc => hlt ((hdecides htie).mp hc)⟩]
          congr 1
          omega
      · rw [if_neg (by omega)]
        congr 1
        omega

/-- **Walking is exact**, from any rank with only keys below before it. -/
lemma Of.advanceBelow_eq (h : o.Of keys pre) (hsorted : keys.Pairwise (· < ·)) (q : Bytes)
    {start : ℕ}
    (hstart : start ≤ rankOf keys q) : o.advanceBelow start q (fun i => keys[i]?)
    = some (rankOf keys q) := by
  rw [advanceBelow]
  cases hl : o.learned with
  | none =>
      dsimp only
      rw [h.advanceKeys_eq hsorted q hstart]
  | some first =>
      dsimp only
      have hfirst : first.take o.pfx = pre := by
        rw [h.learned first hl]
        exact List.take_of_length_le h.length_pre.le
      by_cases hpfx : o.pfx = 0
      · rw [if_pos hpfx]
        refine h.advanceHeads_eq hsorted ?_ hstart
        rw [hpfx, List.take_zero, eq_comm, ← List.length_eq_zero_iff, h.length_pre, hpfx]
      rw [if_neg hpfx]
      have hzero : (∀ k ∈ keys, q < k) → start = rankOf keys q := by
        intro hall
        have := rankOf_of_below hall
        omega
      rcases h.prefix_cases hfirst q with ⟨hc, hall⟩ | ⟨hc, hall⟩ | ⟨hc, hm, hall⟩ | ⟨hc, hm, hq⟩
      · rw [hc]
        dsimp only
        rw [hzero hall]
      · rw [hc]
        dsimp only
        rw [rankOf_of_above hall, h.count]
      · rw [hc]
        dsimp only
        rw [if_pos hm, hzero hall]
      · rw [hc]
        dsimp only
        rw [if_neg hm]
        exact h.advanceHeads_eq hsorted hq hstart

/-! ## Counting -/

/-- The keys of ranks `lo..hi` below the query are the first of them. -/
lemma rankOf_slice (hsorted : keys.Pairwise (· < ·)) {lo hi : ℕ} (hlo : lo ≤ hi)
    (hhi : hi ≤ keys.length) :
    lo + rankOf (slice keys lo hi) q = max lo (min hi (rankOf keys q)) := by
  have hlen : (slice keys lo hi).length = hi - lo := length_slice_of_le hhi
  have hget : ∀ (i : ℕ) (h : i < (slice keys lo hi).length), (slice keys lo hi)[i]
    = keys[lo + i] := by
    intro i h
    simp only [slice, List.getElem_drop, List.getElem_take]
  have hslice : (slice keys lo hi).Pairwise (· < ·) :=
    hsorted.sublist ((List.drop_sublist _ _).trans (List.take_sublist _ _))
  have hcount : rankOf (slice keys lo hi) q = max lo (min hi (rankOf keys q)) - lo := by
    refine rankOf_eq hslice (by omega) ?_ ?_
    · intro i hi' hlt
      rw [hget, lt_iff_lt_rankOf hsorted]
      omega
    · intro i hi' hle
      rw [hget, lt_iff_lt_rankOf hsorted]
      omega
  omega

/-- A key of ranks `lo..hi` that is the query is the one the seek answers. -/
lemma ExactIn.not_mem (hsorted : keys.Pairwise (· < ·)) {lo hi : ℕ} (hhi : hi ≤ keys.length)
    {e : ℕ × Option Bool}
    (h : ExactIn keys q lo hi e) (hfalse : e.2 = some false) : q ∉ slice keys lo hi := by
  intro hmem
  obtain ⟨i, hi', heq⟩ := List.mem_iff_getElem.mp hmem
  rw [length_slice_of_le hhi] at hi'
  simp only [slice, List.getElem_drop, List.getElem_take] at heq
  have hnot : ¬ lo + i < rankOf keys q := by
    rw [← lt_iff_lt_rankOf hsorted (by omega), heq]
    exact lt_irrefl q
  have hrank : rankOf keys q = lo + i := by
    refine rankOf_eq hsorted (by omega) ?_ ?_
    · intro j hj hlt
      rw [← heq]
      exact List.pairwise_iff_getElem.mp hsorted j (lo + i) hj (by omega) hlt
    · intro j hj hle
      rw [lt_iff_lt_rankOf hsorted]
      omega
  have hr : e.1 = lo + i := by rw [h.rank, hrank]; omega
  refine h.notKey hfalse (by omega) ?_
  rw [hr, List.getElem?_eq_getElem (by omega), heq]

/-- `r` is the first rank at or behind `start` whose key is not below `q`, or the end. -/
def FirstNotBelow (keys : List Bytes) (q : Bytes) (start r : ℕ) : Prop :=
  start ≤ r ∧ r ≤ keys.length ∧
    (∀ (i : ℕ) (hi : i < keys.length), start ≤ i → i < r → keys[i] < q) ∧
    ∀ hr : r < keys.length, q ≤ keys[r]

lemma firstNotBelow_rankOf (hsorted : keys.Pairwise (· < ·)) {start : ℕ}
    (hstart : start ≤ rankOf keys q) : FirstNotBelow keys q start (rankOf keys q) := by
  refine ⟨hstart, rankOf_le, fun i hi _ hlt => (lt_iff_lt_rankOf hsorted hi).mpr hlt, ?_⟩
  intro hr
  rw [← not_lt, lt_iff_lt_rankOf hsorted hr]
  exact lt_irrefl _

end Heads

end OrdIndex

/-! ## Composing -/

namespace Composer

lemma foldl_push (keys : List Bytes) (c : Composer) : keys.foldl push c
    = { c with uniform := c.uniform && keys.all (fun k => decide (k.length = c.len0)),
               out := c.out ++ keys.map (fun k => headOf k c.pfx), pushed := c.pushed + keys.length } := by
  induction keys generalizing c with
  | nil => simp
  | cons k keys ih =>
      rw [List.foldl_cons, ih]
      simp only [push, List.all_cons, List.map_cons, List.length_cons, List.append_assoc,
        List.singleton_append, Bool.and_assoc, Nat.add_assoc, Nat.add_comm 1]
      rfl

/-- **What a composer told of every key composes.** -/
lemma finish_foldl_push (keys : List Bytes) :
    (keys.foldl push (new keys.length (keys.head?.getD []) (keys.getLast?.getD []))).finish
      = some (OrdIndex.compose keys) := by
  rw [foldl_push, finish, new, OrdIndex.compose]
  cases keys with
  | nil => rfl
  | cons k keys =>
      have huni : (decide (0 < (k :: keys).length ∧ k.length ≤ commonPrefix k ((k :: keys).getLast?.getD []) + HEAD) &&
          (k :: keys).all (fun x => decide (x.length = k.length)))
          = decide (k :: keys ≠ [] ∧ k.length ≤ commonPrefix k ((k :: keys).getLast?.getD []) + HEAD ∧
            (k :: keys).all (fun x => decide (x.length = k.length)) = true) := by
        rw [Bool.eq_iff_iff, Bool.and_eq_true, decide_eq_true_eq, decide_eq_true_eq]
        simp
      simp only [List.head?_cons, Option.getD_some, List.nil_append, Nat.zero_add, if_true,
        if_neg (Nat.succ_ne_zero keys.length), List.length_cons, if_neg (List.cons_ne_nil k keys)] at huni ⊢
      rw [huni]
      rfl

end Composer

namespace Builder

/-- Keys read one after another are pushed one after another. -/
lemma foldlM_range_eq {keyAt : ℕ → Option Bytes} (keys : List Bytes) (s : ℕ) (c : Composer)
    (hread : ∀ (i : ℕ) (hi : i < keys.length), keyAt (s + i) = some keys[i]) :
    (List.range' s keys.length).foldlM (fun c i => (keyAt i).map c.push) c
    = some (keys.foldl Composer.push c) := by
  induction keys generalizing s c with
  | nil => rfl
  | cons k keys ih =>
      have hfirst := hread 0 (by simp)
      rw [Nat.add_zero, List.getElem_cons_zero] at hfirst
      rw [List.length_cons, List.range'_succ, List.foldlM_cons, hfirst, Option.map_some]
      simp only [Option.bind_eq_bind, Option.bind_some]
      refine ih (s + 1) _ ?_
      intro i hi
      have hnext : keyAt (s + (i + 1)) = some keys[i] := hread (i + 1) (by simpa using hi)
      have hsum : s + 1 + i = s + (i + 1) := by omega
      rw [hsum, hnext]

/-- Keys held elsewhere compose what a composer told of them does. -/
lemma finishFrom_eq {keyAt : ℕ → Option Bytes} {keys : List Bytes}
    (hread : ∀ (i : ℕ) (hi : i < keys.length), keyAt i = some keys[i]) :
    finishFrom keys.length keyAt = some (OrdIndex.compose keys) := by
  have hstart : composerFor keys.length keyAt
      = some (Composer.new keys.length (keys.head?.getD []) (keys.getLast?.getD [])) := by
    rw [composerFor]
    by_cases h0 : keys.length = 0
    · rw [if_pos h0, List.length_eq_zero_iff.mp h0]
      rfl
    · rw [if_neg h0, hread 0 (by omega), hread (keys.length - 1) (by omega), List.head?_eq_getElem?,
        List.getLast?_eq_getElem?, List.getElem?_eq_getElem (by omega), List.getElem?_eq_getElem (by omega)]
      rfl
  rw [finishFrom, hstart]
  simp only [Option.bind_eq_bind, Option.bind_some]
  rw [List.range_eq_range',
    foldlM_range_eq keys 0 _ (fun i hi => by rw [Nat.zero_add]; exact hread i hi),
    Option.bind_some, Composer.finish_foldl_push]

/-- What a builder holds: every key's start, in 32 bits. -/
lemma foldl_push (keys : List Bytes) : keys.foldl push new
    = ⟨(List.range keys.length).map (fun i => (keys.take i).flatten.length % 2 ^ 32), keys.flatten,
    keys.length⟩ := by
  induction keys using List.reverseRecOn with
  | nil => rfl
  | append_singleton keys k ih =>
      rw [List.foldl_append, ih, List.foldl_cons, List.foldl_nil, push, List.length_append, List.length_singleton,
        List.range_succ, List.map_append, List.flatten_append, List.flatten_singleton]
      congr 2
      · refine List.map_congr_left ?_
        intro i hi
        rw [List.take_append_of_le_length (List.mem_range.mp hi).le]
      · rw [List.map_singleton, List.take_append_of_le_length le_rfl, List.take_length]

/-- **What a builder composes**, where its keys' bytes fit their 32-bit starts. -/
lemma finish_foldl_push {keys : List Bytes} (hfits : keys.flatten.length < 2 ^ 32) :
    (keys.foldl push new).finish = some (OrdIndex.compose keys) := by
  have htake : ∀ i, (keys.take i).flatten.length < 2 ^ 32 := by
    intro i
    have hsplit := congrArg (fun l => (List.flatten l).length) (List.take_append_drop i keys)
    simp only [List.flatten_append, List.length_append] at hsplit
    omega
  have hstarts : (List.range keys.length).map (fun i => (keys.take i).flatten.length % 2 ^ 32)
      ++ [keys.flatten.length % 2 ^ 32]
      = (List.range (keys.length + 1)).map (fun i => (keys.take i).flatten.length) := by
    rw [List.range_succ, List.map_append, List.map_singleton, List.take_length,
      Nat.mod_eq_of_lt hfits]
    congr 1
    refine List.map_congr_left ?_
    intro i _
    exact Nat.mod_eq_of_lt (htake i)
  rw [foldl_push, finish, hstarts]
  refine finishFrom_eq ?_
  intro i hi
  have hread : ∀ j < keys.length + 1,
      ((List.range (keys.length + 1)).map (fun i => (keys.take i).flatten.length))[j]?
      = some (keys.take j).flatten.length := by
    intro j hj
    rw [List.getElem?_map, List.getElem?_range hj, Option.map_some]
  have hsplit : keys.flatten = (keys.take i).flatten ++
    (keys[i] ++ (keys.drop (i + 1)).flatten) := by
    conv_lhs => rw [← List.take_append_drop i keys, List.drop_eq_getElem_cons hi]
    rw [List.flatten_append, List.flatten_cons]
  rw [hread i (by omega), hread (i + 1) (by omega)]
  simp only [Option.bind_eq_bind, Option.bind_some]
  rw [hsplit]
  refine getRange_append_mid rfl ?_
  rw [List.take_add_one, List.getElem?_eq_getElem hi, List.flatten_append, List.length_append]
  simp

end Builder

/-! ## The seeks together -/

/-- **Every seek is exact.**  For keys in order, however they are composed, with the prefix learned
or not, and for every query: the seeks from the top count the keys below it, a seek from any rank
answers what they do, a seek within ranks counts the keys below it there, and walking stops at the
first rank not below.  Where a seek says whether the key at its rank is the query it is right; a
seek within ranks says `some false` where no key of those ranks is. -/
theorem seeks_exact (keys : List Bytes) (hsorted : keys.Pairwise (· < ·)) :
    (keys.foldl Composer.push (Composer.new keys.length (keys.head?.getD []) (keys.getLast?.getD []))).finish
        = some (OrdIndex.compose keys) ∧
    (keys.flatten.length < 2 ^ 32 → (keys.foldl Builder.push Builder.new).finish
      = some (OrdIndex.compose keys)) ∧
    ∀ o : OrdIndex, (o = OrdIndex.compose keys ∨
        ∃ first, keys.head? = some first ∧ o = (OrdIndex.compose keys).learnPrefix first) →
      ∀ q : Bytes,
        (∃ e w, o.seekExactHint q (fun i => keys[i]?) = some (e, w) ∧ o.seek q (fun i => keys[i]?) = some e.1 ∧
          e.1 = (keys.filter (· < q)).length ∧ ∀ b ∈ e.2, b = true ↔ keys[e.1]? = some q) ∧
        (∀ start, o.seekExactFrom start q (fun i => keys[i]?) = o.seekExact q (fun i => keys[i]?)) ∧
        (∀ lo hi, lo ≤ hi → hi ≤ keys.length → ∃ e, o.seekInExact lo hi q (fun i => keys[i]?) = some e ∧
          e.1 = lo + ((slice keys lo hi).filter (· < q)).length ∧ (e.2 = some true → keys[e.1]? = some q) ∧
          (e.2 = some false → q ∉ slice keys lo hi ∧ (e.1 < hi → keys[e.1]? ≠ some q))) ∧
        (∀ start, (∀ i < start, ∃ k, keys[i]? = some k ∧ k < q) →
          ∃ r, o.advanceBelow start q (fun i => keys[i]?) = some r ∧ OrdIndex.FirstNotBelow keys q start r) := by
  refine ⟨Composer.finish_foldl_push keys, Builder.finish_foldl_push, ?_⟩
  intro o ho q
  have hof : ∃ pre, o.Of keys pre := by
    rcases ho with rfl | ⟨first, hfirst, rfl⟩
    · exact ⟨_, OrdIndex.of_compose hsorted⟩
    · exact ⟨_, (OrdIndex.of_compose hsorted).learnPrefix hfirst⟩
  obtain ⟨pre, h⟩ := hof
  refine ⟨?_, fun start => h.seekExactFrom_eq hsorted start q, ?_, ?_⟩
  · obtain ⟨e, w, hrun, hexact, -⟩ := h.seekExactHint_spec hsorted q
    refine ⟨e, w, hrun, ?_, hexact.rank, hexact.known⟩
    rw [OrdIndex.seek, OrdIndex.seekExact, hrun, Option.map_some, Option.map_some]
  · intro lo hi hlo hhi
    obtain ⟨e, hrun, hexact⟩ := h.seekInExact_spec hsorted q hlo hhi
    refine ⟨e, hrun, ?_, hexact.isKey,
      fun hfalse => ⟨hexact.not_mem hsorted hhi hfalse, hexact.notKey hfalse⟩⟩
    rw [hexact.rank]
    exact (OrdIndex.rankOf_slice hsorted hlo hhi).symm
  · intro start hbelow
    have hstart : start ≤ OrdIndex.rankOf keys q := by
      by_contra hgt
      obtain ⟨k, hk, hlt⟩ := hbelow _ (not_le.mp hgt)
      obtain ⟨hi, rfl⟩ := List.getElem?_eq_some_iff.mp hk
      exact lt_irrefl _ ((OrdIndex.lt_iff_lt_rankOf hsorted hi).mp hlt)
    exact ⟨_, h.advanceBelow_eq hsorted q hstart, OrdIndex.firstNotBelow_rankOf hsorted hstart⟩

/-- Two keys that tie on their padded heads, and the longer one sought. -/
theorem seeks_exact_padded :
    ((OrdIndex.compose [[7], [7, 0]]).seek [7, 0] (fun i => ([[7], [7, 0]] : List Bytes)[i]?))
    = some 1 := by
  obtain ⟨-, -, h⟩ := seeks_exact [[7], [7, 0]] (by decide)
  obtain ⟨⟨e, w, -, hseek, hrank, -⟩, -⟩ := h _ (Or.inl rfl) [7, 0]
  rw [hseek, hrank]
  decide

/-- At the end of a range, `some false` says nothing of the key there. -/
theorem seekInExact_false_at_end : ¬ ∀ (keys : List Bytes) (lo hi : ℕ) (q : Bytes)
    (e : ℕ × Option Bool), keys.Pairwise (· < ·) → lo ≤ hi → hi ≤ keys.length →
    (OrdIndex.compose keys).seekInExact lo hi q (fun i => keys[i]?) = some e →
    e.2 = some false → keys[e.1]? ≠ some q := by
  intro h
  exact h [[1], [2]] 0 1 [2] (1, some false) (by decide) (by decide) (by decide)
    (by decide +kernel) rfl rfl

end Supdb
